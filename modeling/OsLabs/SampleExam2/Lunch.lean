import OsLabs.Monitor
import Mathlib.Data.List.Range

/-!
# OsLabs.SampleExam2.Lunch — friends who argue in groups

`lunch.c`: a friend joins the current group, remembers the size that the group has then and its number, and argues.  If the size is still
the same afterwards, it decides for the group and opens the next one; else it waits until its group is over.  It compares the sizes only:
a friend of an old group whose remembered size is by chance that of the current group decides again.

* `friend`: the function; a place carries `my_size` and `my_group` from where they are read on.
* `Good`: every group is decided once, by a friend of its own, with its size, and nobody leaves before.
* `Own`: the guard, a friend that finds its size finds its group too.
* `good_iff_own`: exactly the runs that respect the guard are good.
* `decided_twice`: a run that does not.
-/

namespace OsLabs.SampleExam2.Lunch

open Lts Monitor

structure Shared where
  group_size : ℕ
  group_num : ℕ
  /-- The lines "Arguing done! Group %ld decided with %ld people". -/
  out : List (ℕ × ℕ)

/-- There is one condition variable, `waiting`. -/
abbrev Cond := Unit

inductive Place
  | joined | arguing | check | announce | reset | test | sleep | leave | done
deriving DecidableEq

inductive Loc
  | start
  | join
  | member (l : Place) (my_size my_group : ℕ)
deriving DecidableEq

def friend : Loc → Instr Shared Cond Loc
  | .start => .lock .join
  | .join => .run fun x => ({ x with group_size := x.group_size + 1 }, .member .joined (x.group_size + 1) x.group_num)
  | .member .joined n g => .unlock (.member .arguing n g)
  | .member .arguing n g => .lock (.member .check n g)
  | .member .check n g => .run fun x =>
    if n = x.group_size then ({ x with out := x.out ++ [(g, n)] }, .member .announce n g) else (x, .member .test n g)
  | .member .announce n g => .broadcast () (.member .reset n g)
  | .member .reset n g => .run fun x => ({ x with group_size := 0, group_num := x.group_num + 1 }, .member .leave n g)
  | .member .test n g => .run fun x => (x, .member (if x.group_num = g then .sleep else .leave) n g)
  | .member .sleep n g => .wait () (.member .test n g)
  | .member .leave n g => .unlock (.member .done n g)
  | .member .done _ _ => .halt

def start : Shared := ⟨0, 1, []⟩

abbrev State (τ : Type) := St τ Shared Cond Loc

def group : Loc → Option ℕ
  | .member _ _ g => some g
  | _ => none

def Place.deciding : Place → Bool
  | .announce | .reset => true
  | _ => false

def deciding : Loc → Bool
  | .member l _ _ => l.deciding
  | _ => false

/-- The group was the current one when the friend looked last, and it has the mutex since then. -/
def Place.current : Place → Bool
  | .announce | .reset | .sleep => true
  | _ => false

def Place.left : Place → Bool
  | .leave | .done => true
  | _ => false

/-- A friend that has not compared the sizes yet or is about to open the next group. -/
def Place.isOpen : Place → Bool
  | .joined | .arguing | .check | .announce | .reset => true
  | _ => false

def Place.inside : Place → Bool
  | .arguing | .done => false
  | _ => true

def inside : Loc → Bool
  | .start => false
  | .join => true
  | .member l _ _ => l.inside

theorem friend_typed (l : Loc) : Typed inside (friend l) l := by
  cases l with
  | start => exact ⟨rfl, rfl⟩
  | join =>
    intro x
    rfl
  | member l n g =>
    cases l with
    | check =>
      intro x
      dsimp only
      split_ifs <;> rfl
    | test =>
      intro x
      show (if _ then Place.sleep else .leave).inside = true
      split_ifs <;> rfl
    | reset =>
      intro x
      rfl
    | done => rfl
    | joined | arguing | announce | sleep | leave => exact ⟨rfl, rfl⟩

/-- A wait ends at the test of the loop around it. -/
theorem friend_wait {c : Cond} {l m : Loc} (h : friend l = .wait c m) : ∃ n g, m = .member .test n g := by
  cases l with
  | start => cases h
  | join => cases h
  | member l n g =>
    cases l with
    | sleep => exact ⟨n, g, (Instr.wait.inj h).2.symm⟩
    | _ => cases h

section

variable {τ : Type} {s s' t : State τ} {i j : τ}

/-- A friend that is about to compare the sizes, and finds them equal, is in the current group. -/
def Loc.Owns (x : Shared) : Loc → Prop
  | .member .check n g => n = x.group_size → g = x.group_num
  | _ => True

instance (x : Shared) (l : Loc) : Decidable (l.Owns x) := by
  unfold Loc.Owns
  split
  · infer_instance
  · infer_instance

/-- **Guard.**  A friend that finds the group as large as it remembers finds its own group. -/
def Own (s : State τ) : Act τ → Prop
  | .exec i | .signal i _ => (s.loc i).Owns s.shared
  | _ => True

instance (s : State τ) : (a : Act τ) → Decidable (Own s a)
  | .exec i => inferInstanceAs (Decidable ((s.loc i).Owns s.shared))
  | .signal i _ => inferInstanceAs (Decidable ((s.loc i).Owns s.shared))
  | .spurious _ => .isTrue trivial
  | .relock _ => .isTrue trivial

/-- What one friend contributes to the invariant. -/
def Ok (x : Shared) : Loc → Prop
  | .member l _ g => 1 ≤ g ∧ g ≤ x.group_num ∧ (l.current = true → g = x.group_num) ∧ (l.left = true → g ≤ x.out.length)
  | _ => True

theorem Ok.mono {x y : Shared} {l : Loc} (h : Ok x l) (hn : x.group_num ≤ y.group_num) (ho : x.out.length ≤ y.out.length)
    (hc : ∀ p n g, l = .member p n g → p.current = true → x.group_num = y.group_num) : Ok y l := by
  cases l with
  | start => trivial
  | join => trivial
  | member l n g =>
    obtain ⟨h1, h2, h3, h4⟩ := h
    exact ⟨h1, h2.trans hn, fun hl => (h3 hl).trans (hc l n g rfl hl), fun hl => (h4 hl).trans ho⟩

/-- While `i` runs inside, no other friend is at a place inside where no wait ends. -/
theorem other_place (hmx : MutexInv (fun _ => friend) inside s) (hm : s.mode i = .awake) (hin : inside (s.loc i) = true) (hj : j ≠ i)
    {l : Place} {n g : ℕ} (hl : s.loc j = .member l n g) : l.inside = false ∨ l = .test := by
  by_contra hne
  push Not at hne
  refine hj (hmx.alone hm hin ?_ fun c m hw => ?_)
  · rw [hl]
    show l.inside = true
    simpa using hne.1
  · obtain ⟨n', g', hm'⟩ := friend_wait hw
    rw [hl] at hm'
    exact hne.2 (Loc.member.inj hm').1

theorem not_current {l : Place} (h : l.inside = false ∨ l = .test) : l.current = false := by
  rcases h with h | rfl
  · cases l with
    | arguing | done => rfl
    | _ => cases h
  · rfl

theorem ok_next [DecidableEq τ] {n : Loc} (hloc : t.loc = (s.goto i n).loc) (hn : Ok t.shared n) (hj : ∀ j, j ≠ i → Ok t.shared (s.loc j)) (j : τ) :
    Ok t.shared (t.loc j) := by
  rw [hloc, St.goto_loc_apply]
  split_ifs with hji
  · exact hn
  · exact hj j hji

variable [Fintype τ]

/-- The number of friends that have joined group `g`. -/
def joined (g : ℕ) (s : State τ) : ℤ := count (fun _ l => decide (group l = some g)) s

/-- What the friends are to keep. -/
structure Good (s : State τ) : Prop where
  /-- no group is decided twice -/
  once : (s.shared.out.map Prod.fst).Nodup
  /-- every group that is over has been decided -/
  all : ∀ g, 1 ≤ g → g < s.shared.group_num → g ∈ s.shared.out.map Prod.fst
  /-- who decides belongs to the group that it closes -/
  decider : ∀ i l n g, s.loc i = .member l n g → l.deciding = true → g = s.shared.group_num
  /-- the announced size is the number of friends that joined -/
  size : ∀ p ∈ s.shared.out, (p.2 : ℤ) = joined p.1 s
  leaves : ∀ i l n g, s.loc i = .member l n g → l.left = true → g ∈ s.shared.out.map Prod.fst
  /-- and the friends do not wait for a decision that nobody takes -/
  progress : ¬ Deadlock (fun _ => friend) s

/-- **The invariant** of the guarded runs: the groups are decided one after the other, and the friend that joined the current group last
is still to decide. -/
structure Inv (s : State τ) : Prop where
  pos : 1 ≤ s.shared.group_num
  ok : ∀ i, Ok s.shared (s.loc i)
  num : (s.shared.group_num : ℤ) + count (fun _ => deciding) s = s.shared.out.length + 1
  groups : s.shared.out.map Prod.fst = List.range' 1 s.shared.out.length
  sizes : ∀ p ∈ s.shared.out, (p.2 : ℤ) = joined p.1 s
  size : (s.shared.group_size : ℤ) = joined s.shared.group_num s
  last : 0 < s.shared.group_size → ∃ i l, s.loc i = .member l s.shared.group_size s.shared.group_num ∧ l.isOpen = true
  asleep : ∀ i c, s.mode i = .asleep c → group (s.loc i) = some s.shared.group_num
  quiet : ∀ i n g, s.loc i = .member .reset n g → ∀ j c, s.mode j ≠ .asleep c

theorem initial_inv : Inv (initial start (fun _ => .start) : State τ) := by
  have hzero : ∀ p : Loc → Bool, p .start = false → count (fun _ => p) (initial start (fun _ => .start) : State τ) = 0 :=
    fun p hp => count_eq_zero.mpr fun _ => hp
  refine ⟨le_rfl, fun _ => trivial, ?_, rfl, nofun, ?_, nofun, nofun, nofun⟩
  · rw [hzero deciding rfl]
    rfl
  · exact (hzero _ rfl).symm

theorem Inv.wake (h : Inv s) (hsh : t.shared = s.shared) (hloc : t.loc = s.loc)
    (hm : ∀ i c, t.mode i = .asleep c → s.mode i = .asleep c) : Inv t := by
  have hc : ∀ p : τ → Loc → Bool, count p t = count p s := fun p => count_congr fun i => by rw [hloc]
  have hj : ∀ g, joined g t = joined g s := fun g => hc _
  refine ⟨?_, ?_, ?_, ?_, fun p hp => ?_, ?_, ?_, fun i c hi => ?_, fun i n g hi j c hj => ?_⟩
  · rw [hsh]
    exact h.pos
  · rw [hsh, hloc]
    exact h.ok
  · rw [hsh, hc]
    exact h.num
  · rw [hsh]
    exact h.groups
  · rw [hj]
    rw [hsh] at hp
    exact h.sizes p hp
  · rw [hsh, hj]
    exact h.size
  · rw [hsh, hloc]
    exact h.last
  · rw [hsh, hloc]
    exact h.asleep i c (hm i c hi)
  · rw [hloc] at hi
    exact h.quiet i n g hi j c (hm j c hj)

theorem Inv.mem_out (h : Inv s) {g : ℕ} : g ∈ s.shared.out.map Prod.fst ↔ 1 ≤ g ∧ g ≤ s.shared.out.length := by
  rw [h.groups, List.mem_range'_1]
  omega

/-- Nobody is left waiting. -/
theorem Inv.no_deadlock (h : Inv s) (hmx : MutexInv (fun _ => friend) inside s) : ¬ Deadlock (fun _ => friend) s := by
  rintro ⟨⟨i, hi⟩, ha⟩
  obtain ⟨c, hc⟩ := Mode.isAsleep_iff.mp (ha i hi)
  -- the sleeper belongs to the current group, which has a last friend, which is awake
  have hpos : 0 < s.shared.group_size := by
    have h1 := count_pos (s := s) (p := fun _ l => decide (group l = some s.shared.group_num)) (i := i) (by simp [h.asleep i c hc])
    have h2 := h.size
    unfold joined at h2
    omega
  obtain ⟨k, l, hk, hl⟩ := h.last hpos
  refine ha.elim hmx (i := k) ?_ fun c m hw => ?_
  · unfold Unfinished
    rw [hk]
    cases l with
    | done => cases hl
    | _ => rfl
  · obtain ⟨n, g, hm⟩ := friend_wait hw
    rw [hk] at hm
    obtain ⟨rfl, -, -⟩ := Loc.member.inj hm
    cases hl

/-- The invariant says that the state is good. -/
theorem Inv.good (h : Inv s) (hmx : MutexInv (fun _ => friend) inside s) : Good s := by
  have hnum := h.num
  have hnn := count_nonneg (fun _ => deciding) s
  refine ⟨?_, fun g h1 hg => h.mem_out.mpr ⟨h1, by omega⟩, fun i l n g hi hl => ?_, h.sizes, fun i l n g hi hl => ?_, h.no_deadlock hmx⟩
  · rw [h.groups]
    exact List.nodup_range'
  · have hok := h.ok i
    rw [hi] at hok
    refine hok.2.2.1 ?_
    cases l with
    | announce | reset => rfl
    | _ => cases hl
  · have hok := h.ok i
    rw [hi] at hok
    exact h.mem_out.mpr ⟨hok.1, hok.2.2.2 hl⟩

variable [DecidableEq τ]

/-- A step that leaves the variables alone, by a friend that stays a friend of its group. -/
theorem Inv.move {n : Loc} (h : Inv s) (hsh : t.shared = s.shared) (hloc : t.loc = (s.goto i n).loc) (hn : Ok s.shared n)
    (hd : deciding n = deciding (s.loc i)) (hg : group n = group (s.loc i))
    (hlast : ∀ l, s.loc i = .member l s.shared.group_size s.shared.group_num → l.isOpen = true →
      ∃ l', n = .member l' s.shared.group_size s.shared.group_num ∧ l'.isOpen = true)
    (hm : ∀ j c, t.mode j = .asleep c → s.mode j = .asleep c ∨ j = i ∧ group n = some s.shared.group_num)
    (hq : ∀ j k g, t.loc j = .member .reset k g → ∀ k c, t.mode k ≠ .asleep c) : Inv t := by
  have hj : ∀ g, joined g t = joined g s := fun g => count_same hloc (by rw [hg])
  refine ⟨?_, ok_next hloc (by rw [hsh]; exact hn) fun j _ => by rw [hsh]; exact h.ok j, ?_, ?_, fun p hp => ?_, ?_, fun hs => ?_,
    fun j c hc => ?_, hq⟩
  · rw [hsh]
    exact h.pos
  · rw [hsh, count_same hloc hd]
    exact h.num
  · rw [hsh]
    exact h.groups
  · rw [hj]
    rw [hsh] at hp
    exact h.sizes p hp
  · rw [hsh, hj]
    exact h.size
  · rw [hsh] at hs ⊢
    obtain ⟨k, l, hk, hl⟩ := h.last hs
    by_cases hki : k = i
    · rw [hki] at hk
      obtain ⟨l', hn', hl'⟩ := hlast l hk hl
      exact ⟨i, l', by rw [hloc, St.goto_loc_self, hn'], hl'⟩
    · exact ⟨k, l, by rw [hloc, St.goto_loc_of_ne s n hki, hk], hl⟩
  · rw [hsh, hloc, St.goto_loc_apply]
    rcases hm j c hc with hc | ⟨rfl, hgn⟩
    · split_ifs with hji
      · rw [hg, ← hji]
        exact h.asleep j c hc
      · exact h.asleep j c hc
    · rw [if_pos rfl]
      exact hgn

/-- A friend joins the current group and is its last one now. -/
theorem Inv.join_step (h : Inv s) (hl : s.loc i = .join) (hnd : ∀ j, deciding (s.loc j) = false)
    (hq : ∀ j n g, s.loc j ≠ .member .reset n g) :
    Inv (s.assign i (.member .joined (s.shared.group_size + 1) s.shared.group_num) { s.shared with group_size := s.shared.group_size + 1 }) := by
  have hd0 : count (fun _ => deciding) s = 0 := count_eq_zero.mpr hnd
  have hnum := h.num
  have hloc : (s.assign i (.member .joined (s.shared.group_size + 1) s.shared.group_num)
      { s.shared with group_size := s.shared.group_size + 1 }).loc =
        (s.goto i (.member .joined (s.shared.group_size + 1) s.shared.group_num)).loc := rfl
  refine ⟨h.pos, ok_next hloc ⟨h.pos, le_rfl, nofun, nofun⟩ fun j _ => (h.ok j).mono le_rfl le_rfl fun _ _ _ _ _ => rfl, ?_, h.groups,
    fun p hp => ?_, ?_, fun _ => ⟨i, .joined, ?_, rfl⟩, fun j c hc => ?_, fun j n g hj => ?_⟩
  · rw [count_same hloc (by rw [hl]; rfl)]
    exact hnum
  · -- the groups that are decided are older ones
    have hp1 := (h.mem_out (g := p.1)).mp (List.mem_map_of_mem hp)
    rw [h.sizes p hp]
    refine (count_same hloc ?_).symm
    rw [hl]
    simp only [group]
    simp
    omega
  · refine Eq.trans ?_ (count_enter hloc (by rw [hl]; rfl) (by simp [group])).symm
    show ((s.shared.group_size + 1 : ℕ) : ℤ) = joined s.shared.group_num s + 1
    push_cast
    rw [h.size]
  · rw [hloc, St.goto_loc_self]
    rfl
  · have hji : j ≠ i := by
      rintro rfl
      have := h.asleep j c hc
      rw [hl] at this
      cases this
    rw [hloc, St.goto_loc_of_ne s _ hji]
    exact h.asleep j c hc
  · rw [hloc, St.goto_loc_apply] at hj
    split_ifs at hj
    · cases hj
    · exact absurd hj (hq j n g)

/-- A friend finds the size it remembers, and its own group: it decides. -/
theorem Inv.decide_step {g : ℕ} (h : Inv s) (hl : s.loc i = .member .check s.shared.group_size g) (hg : g = s.shared.group_num)
    (hnd : ∀ j, deciding (s.loc j) = false) (hq : ∀ j n g, s.loc j ≠ .member .reset n g) :
    Inv (s.assign i (.member .announce s.shared.group_size g) { s.shared with out := s.shared.out ++ [(g, s.shared.group_size)] }) := by
  have hd0 : count (fun _ => deciding) s = 0 := count_eq_zero.mpr hnd
  have hnum := h.num
  have hlen : (s.shared.out ++ [(g, s.shared.group_size)]).length = s.shared.out.length + 1 := by simp
  have hloc : (s.assign i (.member .announce s.shared.group_size g)
      { s.shared with out := s.shared.out ++ [(g, s.shared.group_size)] }).loc = (s.goto i (.member .announce s.shared.group_size g)).loc := rfl
  have hj : ∀ g', joined g' (s.assign i (.member .announce s.shared.group_size g)
      { s.shared with out := s.shared.out ++ [(g, s.shared.group_size)] }) = joined g' s :=
    fun g' => count_same hloc (by rw [hl]; rfl)
  have hok := h.ok i
  rw [hl] at hok
  refine ⟨h.pos, ok_next hloc ⟨hok.1, hok.2.1, fun _ => hg, nofun⟩ fun j _ => (h.ok j).mono le_rfl ?_ fun _ _ _ _ _ => rfl, ?_, ?_,
    fun p hp => ?_, ?_, fun _ => ⟨i, .announce, ?_, rfl⟩, fun j c hc => ?_, fun j n g' hj' => ?_⟩
  · show s.shared.out.length ≤ (s.shared.out ++ [(g, s.shared.group_size)]).length
    omega
  · rw [count_enter hloc (by rw [hl]; rfl) rfl, hd0]
    show (s.shared.group_num : ℤ) + _ = ((s.shared.out ++ [(g, s.shared.group_size)]).length : ℤ) + 1
    rw [hlen]
    push_cast
    omega
  · show (s.shared.out ++ [(g, s.shared.group_size)]).map Prod.fst = List.range' 1 (s.shared.out ++ [(g, s.shared.group_size)]).length
    rw [hlen, List.map_append, h.groups, List.range'_1_concat]
    congr 1
    simp only [List.map_cons, List.map_nil, List.cons.injEq, and_true]
    omega
  · rw [hj]
    rcases List.mem_append.mp hp with hp | hp
    · exact h.sizes p hp
    · obtain rfl := List.mem_singleton.mp hp
      rw [hg]
      exact h.size
  · rw [hj]
    exact h.size
  · rw [hloc, St.goto_loc_self, hg]
    rfl
  · rw [hloc, St.goto_loc_apply]
    split_ifs with hji
    · have := h.asleep j c hc
      rw [hji, hl] at this
      exact this
    · exact h.asleep j c hc
  · rw [hloc, St.goto_loc_apply] at hj'
    split_ifs at hj'
    · cases hj'
    · exact absurd hj' (hq j n g')

/-- The friend that has decided opens the next group. -/
theorem Inv.reset_step {n g : ℕ} (h : Inv s) (hl : s.loc i = .member .reset n g)
    (hother : ∀ j, j ≠ i → ∀ p n g, s.loc j = .member p n g → p.current = false) :
    Inv (s.assign i (.member .leave n g) { s.shared with group_size := 0, group_num := s.shared.group_num + 1 }) := by
  have hloc : (s.assign i (.member .leave n g) { s.shared with group_size := 0, group_num := s.shared.group_num + 1 }).loc =
      (s.goto i (.member .leave n g)).loc := rfl
  have hj : ∀ g', joined g' (s.assign i (.member .leave n g) { s.shared with group_size := 0, group_num := s.shared.group_num + 1 }) =
      joined g' s := fun g' => count_same hloc (by rw [hl]; rfl)
  have hok := h.ok i
  rw [hl] at hok
  have hg : g = s.shared.group_num := hok.2.2.1 rfl
  have hnum := h.num
  -- this friend is the one that is deciding
  have hpos := count_pos (s := s) (p := fun _ => deciding) (i := i) (by rw [hl]; rfl)
  refine ⟨Nat.succ_pos _, ok_next hloc ⟨hok.1, ?_, nofun, fun _ => ?_⟩ fun j hji => ?_, ?_, h.groups, fun p hp => ?_, ?_, nofun,
    fun j c hc => ?_, fun j n g' hj' => ?_⟩
  · show g ≤ s.shared.group_num + 1
    omega
  · show g ≤ s.shared.out.length
    omega
  · refine (h.ok j).mono (Nat.le_succ _) le_rfl fun p n g hp hc => ?_
    rw [hother j hji p n g hp] at hc
    cases hc
  · rw [count_leave hloc (by rw [hl]; rfl) rfl]
    show ((s.shared.group_num + 1 : ℕ) : ℤ) + _ = (s.shared.out.length : ℤ) + 1
    push_cast
    omega
  · rw [hj]
    exact h.sizes p hp
  · -- nobody has joined the new group yet
    rw [hj]
    refine (count_eq_zero.mpr fun j => ?_).symm
    have hokj := h.ok j
    cases hlj : s.loc j with
    | start => rfl
    | join => rfl
    | member p n' g' =>
      rw [hlj] at hokj
      have := hokj.2.1
      simp [group]
      omega
  · exact absurd hc (h.quiet i n g hl j c)
  · rw [hloc, St.goto_loc_apply] at hj'
    split_ifs at hj' with hji
    · cases hj'
    · have := hother j hji _ _ _ hj'
      cases this

theorem Inv.quiet_move {n : Loc} (h : Inv s) (hloc : t.loc = (s.goto i n).loc) (hn : ∀ k g, n ≠ .member .reset k g)
    (hm : ∀ j c, t.mode j = .asleep c → s.mode j = .asleep c) (j : τ) (k g : ℕ) (hj : t.loc j = .member .reset k g) (x : τ) (c : Cond) :
    t.mode x ≠ .asleep c := by
  rw [hloc, St.goto_loc_apply] at hj
  split_ifs at hj
  · exact absurd hj (hn k g)
  · intro hx
    exact h.quiet j k g hj x c (hm x c hx)

/-- A friend goes on in its group, with or without the mutex. -/
theorem Inv.walk {l l' : Place} {n g : ℕ} (h : Inv s) (hl : s.loc i = .member l n g) (hsh : t.shared = s.shared)
    (hloc : t.loc = (s.goto i (.member l' n g)).loc) (hm : ∀ j c, t.mode j = .asleep c → s.mode j = .asleep c)
    (hok : Ok s.shared (.member l' n g)) (hd : l'.deciding = l.deciding) (hr : l' ≠ .reset)
    (ho : l.isOpen = true → l'.isOpen = true ∨ n ≠ s.shared.group_size) : Inv t := by
  refine h.move hsh hloc hok (by rw [hl]; exact hd) (by rw [hl]; rfl) (fun p hp hopen => ?_) (fun j c hj => .inl (hm j c hj))
    (h.quiet_move hloc (fun k g' hk => hr (Loc.member.inj hk).1) hm)
  rw [hl] at hp
  obtain ⟨rfl, hn, hg⟩ := Loc.member.inj hp
  rcases ho hopen with ho | ho
  · exact ⟨l', by rw [hn, hg], ho⟩
  · exact absurd hn ho

/-- **Step lemma.** -/
theorem Inv.step (h : Inv s) (hmx : MutexInv (fun _ => friend) inside s) (hm : s.mode i = .awake) (hown : (s.loc i).Owns s.shared)
    (he : Effect s i (friend (s.loc i)) s') : Inv s' := by
  have hsame : ∀ (j : τ) (c : Cond), s.mode j = .asleep c → s.mode j = .asleep c := fun _ _ hj => hj
  have hother : inside (s.loc i) = true → ∀ j, j ≠ i → ∀ p n g, s.loc j = .member p n g → p.current = false :=
    fun hin j hj p n g hl => not_current (other_place hmx hm hin hj hl)
  -- a friend that runs inside and does not decide is alone there
  have hnd : inside (s.loc i) = true → deciding (s.loc i) = false → ∀ j, deciding (s.loc j) = false := by
    intro hin hdi j
    by_cases hji : j = i
    · rw [hji]
      exact hdi
    · cases hlj : s.loc j with
      | start => rfl
      | join => rfl
      | member p n g =>
        have hp := hother hin j hji p n g hlj
        cases p with
        | announce | reset => cases hp
        | _ => rfl
  have hnr : inside (s.loc i) = true → deciding (s.loc i) = false → ∀ j n g, s.loc j ≠ .member .reset n g := by
    intro hin hdi j n g hj
    have := hnd hin hdi j
    rw [hj] at this
    cases this
  cases hl : s.loc i with
  | start =>
    rw [hl] at he
    obtain ⟨-, rfl⟩ := he
    exact h.move rfl rfl trivial (by rw [hl]; rfl) (by rw [hl]; rfl) (by rw [hl]; exact nofun) (fun j c hj => .inl hj)
      (h.quiet_move rfl nofun hsame)
  | join =>
    rw [hl] at he hnd hnr
    obtain rfl := he
    exact h.join_step hl (hnd rfl rfl) (hnr rfl rfl)
  | member l n g =>
    have hok := h.ok i
    rw [hl] at he hok hown
    obtain ⟨h1, h2, h3, h4⟩ := hok
    cases l with
    | joined | arguing =>
      obtain ⟨-, rfl⟩ := he
      exact h.walk hl rfl rfl hsame ⟨h1, h2, nofun, nofun⟩ rfl nofun fun _ => .inl rfl
    | leave =>
      obtain ⟨-, rfl⟩ := he
      exact h.walk hl rfl rfl hsame ⟨h1, h2, nofun, fun _ => h4 rfl⟩ rfl nofun nofun
    | check =>
      obtain rfl := he
      by_cases hn : n = s.shared.group_size
      · simp only [if_pos hn]
        subst hn
        rw [hl] at hnd hnr
        exact h.decide_step hl (hown rfl) (hnd rfl rfl) (hnr rfl rfl)
      · simp only [if_neg hn]
        exact h.walk hl rfl rfl hsame ⟨h1, h2, nofun, nofun⟩ rfl nofun fun _ => .inr hn
    | announce =>
      obtain rfl := he
      -- whoever slept is awake now
      have hnone : ∀ (j : τ) (c : Cond), ((s.wakeAll ()).goto i (.member .reset n g)).mode j ≠ .asleep c :=
        fun j c hj => (St.asleep_of_wakeAll hj).2 rfl
      refine h.move (i := i) (n := .member .reset n g) rfl rfl ⟨h1, h2, fun _ => h3 rfl, nofun⟩ (by rw [hl]; rfl) (by rw [hl]; rfl)
        (fun p hp _ => ?_) (fun j c hj => absurd hj (hnone j c)) fun _ _ _ _ j c => hnone j c
      rw [hl] at hp
      obtain ⟨-, hn, hg⟩ := Loc.member.inj hp
      exact ⟨.reset, by rw [hn, hg], rfl⟩
    | reset =>
      obtain rfl := he
      exact h.reset_step hl (hother (by rw [hl]; rfl))
    | test =>
      obtain rfl := he
      dsimp only
      by_cases hg : s.shared.group_num = g
      · rw [if_pos hg]
        exact h.walk hl rfl rfl hsame ⟨h1, h2, fun _ => hg.symm, nofun⟩ rfl nofun nofun
      · rw [if_neg hg]
        refine h.walk hl rfl rfl hsame ⟨h1, h2, nofun, fun _ => ?_⟩ rfl nofun nofun
        have hnum := h.num
        have hnn := count_nonneg (fun _ => deciding) s
        omega
    | sleep =>
      obtain ⟨-, rfl⟩ := he
      refine h.move rfl rfl ⟨h1, h2, nofun, nofun⟩ (by rw [hl]; rfl) (by rw [hl]; rfl) (fun p hp hopen => ?_) (fun j c hj => ?_)
        fun j k g' hj => ?_
      · rw [hl] at hp
        obtain ⟨rfl, -, -⟩ := Loc.member.inj hp
        cases hopen
      · have hj : ((s.goto i (.member .test n g)).setMode i (.asleep ())).mode j = .asleep c := hj
        rw [St.setMode_mode_apply] at hj
        split_ifs at hj with hji
        · exact .inr ⟨hji, by rw [← h3 rfl]; rfl⟩
        · exact .inl hj
      · have hj : (s.goto i (.member .test n g)).loc j = .member .reset k g' := hj
        rw [St.goto_loc_apply] at hj
        split_ifs at hj
        · cases hj
        · rw [hl] at hnr
          exact absurd hj (hnr rfl rfl j k g')
    | done => cases he

/-- **Run lemma.** -/
theorem reachable_inv (h : Reachable (fun _ => friend) Own start (fun _ => .start) s) :
    MutexInv (fun _ => friend) inside s ∧ Inv s := by
  refine h.program_inv (fun _ => friend_typed) (fun _ => rfl) initial_inv ?_ ?_
  · intro s t hI hsh hloc hm
    exact hI.wake hsh hloc hm
  · intro s a i s' hI hmx hok ha hm he
    refine hI.step hmx hm ?_ he
    rcases ha with rfl | ⟨j, rfl⟩
    · exact hok
    · exact hok

/-- A friend that decides for a group that is not its own. -/
theorem not_good_of_not_own {a : Act τ} (hs : StepRes (fun _ => friend) s a s') (ho : ¬ Own s a) : ¬ Good s' := by
  cases hs with
  | spurious => exact absurd trivial ho
  | relock => exact absurd trivial ho
  | @exec i a s' ha hm he =>
    have ho' : ¬ (s.loc i).Owns s.shared := by
      rcases ha with rfl | ⟨j, rfl⟩
      · exact ho
      · exact ho
    intro hg
    unfold Loc.Owns at ho'
    split at ho'
    · rename_i n g hl
      push Not at ho'
      obtain ⟨rfl, hne⟩ := ho'
      rw [hl] at he
      obtain rfl := he
      simp only [if_true] at hg
      exact hne (hg.decider i .announce s.shared.group_size g (by simp) rfl)
    · exact ho' trivial

/-- **Exactly the runs in which a friend that finds its size finds its group are good.**  For any number of friends: all along such a
run every group that is over was decided once, by one of its friends, with the number of friends that joined it, nobody has left before
its group was decided, and nobody waits in vain; and the first step that breaks the guard breaks this too. -/
theorem good_iff_own (tr : List (Ev (State τ) (Act τ) Unit)) (t : State τ)
    (h : Run (Step fun _ => friend) always (initial start fun _ => .start) tr t) :
    (∀ e ∈ tr, Good e.post) ↔ ∀ e ∈ tr, Own e.pre e.act := by
  refine h.forall_good_iff (fun x hx => ?_) fun x a o y _ hst ho => ?_
  · obtain ⟨hmx, hI⟩ := reachable_inv hx
    exact hI.good hmx
  · exact not_good_of_not_own (next_inv hst) ho

end

/-- Two friends come, and the second decides for both. -/
theorem good_iff_own_run : ∃ (tr : List (Ev (State Bool) (Act Bool) Unit)) (t : State Bool),
    Run (Step fun _ => friend) always (initial start fun _ => .start) tr t ∧ t.shared.out = [(1, 2)] ∧ t.mode false = .woken ∧
      ∀ e ∈ tr, Good e.post := by
  obtain ⟨tr, t, hr, hx, hy, ho⟩ := exists_run (P := fun _ => friend) always (initial start fun _ => .start)
    [.exec false, .exec false, .exec false, .exec true, .exec true, .exec true, .exec false, .exec false, .exec false, .exec false,
      .exec true, .exec true, .exec true, .exec true]
    (fun tr t => t.shared.out = [(1, 2)] ∧ t.mode false = .woken ∧ ∀ e ∈ tr, Own e.pre e.act) (by decide +kernel)
  exact ⟨tr, t, hr, hx, hy, (good_iff_own tr t hr).mpr ho⟩

/-- **Decided twice.**  The second friend decides for group 1; then a third one opens group 2, whose size is what the first friend
remembers: it announces group 1 once more, and group 2 is over without a decision. -/
theorem decided_twice : ∃ s : State (Fin 3), Reachable (fun _ => friend) always start (fun _ => .start) s ∧ ¬ Good s := by
  obtain ⟨s, hr, hout⟩ := exists_reachable (P := fun _ => friend) always start (fun _ => .start)
    [.exec (0 : Fin 3), .exec 0, .exec 0, .exec 1, .exec 1, .exec 1, .exec 1, .exec 1, .exec 1, .exec 1, .exec 1,
      .exec 2, .exec 2, .exec 2, .exec 0, .exec 0, .exec 0, .exec 0, .exec 0, .exec 2, .exec 2, .exec 2, .exec 2]
    (fun s => s.shared.out = [(1, 2), (1, 1)] ∧ ∀ i, (friend (s.loc i)).isHalt = true) (by decide +kernel)
  refine ⟨s, hr, fun hg => ?_⟩
  have := hg.once
  rw [hout.1] at this
  revert this
  decide

end OsLabs.SampleExam2.Lunch
