import OsLabs.Monitor

/-!
# OsLabs.CondvarChallenge.Priority — a critical section handed over by priority

`priority.c`: one thread at a time is in the critical section.  A thread adds itself to `waiting` when it arrives and takes itself out when
it leaves; then it looks for the highest priority that still waits, with `while(waiting[i] == 0) i--` from `5` down, and signals it.
Nothing stops that loop at `0`.  `use` and `waiting` are read and written with the mutex held only.

* `scan`: the loop; `none` when it runs below the array.  `scan_isSome_iff`: in a reachable state it stops exactly when somebody else
  is registered.
* `Inv`: what the variables count; and while the section is free some registered thread is awake or about to be signalled.
* `Orderly`: the free mutex goes to no newcomer and past no higher priority.  `orderly_hands_over`: then the next thread to enter is one of
  highest priority among those that were registered when the last one left.
* `newcomer_enters_first`, `last_leaver_strays`: the runs in which that goes wrong.
-/

namespace OsLabs.CondvarChallenge.Priority

open Lts Monitor

structure Shared where
  use : Bool
  waiting : Fin 6 → ℤ

/-- The places of a thread; `stray` is the exit scan below `waiting[0]`. -/
inductive Loc
  | start | register | test | sleep | entered | critical | leave | signal (i : Fin 6) | stray | unlock | done
deriving DecidableEq

/-- `while(waiting[i] == 0) i--`. -/
def scan (waiting : Fin 6 → ℤ) : (i : ℕ) → i < 6 → Option (Fin 6)
  | 0, h => if waiting ⟨0, h⟩ = 0 then none else some ⟨0, h⟩
  | i + 1, h => if waiting ⟨i + 1, h⟩ = 0 then scan waiting i (Nat.lt_of_succ_lt h) else some ⟨i + 1, h⟩

/-- The body; `num` is `*num - 1`. -/
def thread (num : Fin 6) : Loc → Instr Shared (Fin 6) Loc
  | .start => .lock .register
  | .register => .run fun x => ({ x with waiting := Function.update x.waiting num (x.waiting num + 1) }, .test)
  | .test => .run fun x => if x.use = true then (x, .sleep) else ({ x with use := true }, .entered)
  | .sleep => .wait num .test
  | .entered => .unlock .critical
  | .critical => .lock .leave
  | .leave => .run fun x =>
    match scan (Function.update x.waiting num (x.waiting num - 1)) 5 (by decide) with
    | some i => (⟨false, Function.update x.waiting num (x.waiting num - 1)⟩, .signal i)
    | none => (⟨x.use, Function.update x.waiting num (x.waiting num - 1)⟩, .stray)
  | .signal i => .signal i .unlock
  -- what the scan finds below the array is not known
  | .stray => .run fun x => (x, .stray)
  | .unlock => .unlock .done
  | .done => .halt

/-- Any number of threads, each with its priority. -/
def threads {τ : Type} (prio : τ → Fin 6) (i : τ) : Loc → Instr Shared (Fin 6) Loc := thread (prio i)

def start : Shared := ⟨false, fun _ => 0⟩

abbrev State (τ : Type) := St τ Shared (Fin 6) Loc

/-- Registered: in `waiting` and not yet in the critical section. -/
def registered : Loc → Bool
  | .test | .sleep => true
  | _ => false

/-- In the critical section: `use` was set and is not yet cleared. -/
def inSection : Loc → Bool
  | .entered | .critical | .leave | .stray => true
  | _ => false

/-- Added to `waiting` and not yet taken out. -/
def counted : Loc → Bool
  | .test | .sleep | .entered | .critical | .leave => true
  | _ => false

def inside : Loc → Bool
  | .start | .critical | .done => false
  | _ => true

/-! ## The scan -/

theorem scan_eq_none {w : Fin 6 → ℤ} : ∀ {i : ℕ} {h : i < 6}, scan w i h = none ↔ ∀ k : Fin 6, k.val ≤ i → w k = 0
  | 0, h => by
    unfold scan
    constructor
    · intro hs k hk
      split_ifs at hs with h0
      have hk0 : k = ⟨0, h⟩ := Fin.ext (Nat.le_zero.mp hk)
      rw [hk0]
      exact h0
    · intro hall
      rw [if_pos (hall ⟨0, h⟩ le_rfl)]
  | i + 1, h => by
    unfold scan
    constructor
    · intro hs k hk
      split_ifs at hs with h0
      rcases Nat.le_succ_iff.mp hk with hle | heq
      · exact scan_eq_none.mp hs k hle
      · have hki : k = ⟨i + 1, h⟩ := Fin.ext heq
        rw [hki]
        exact h0
    · intro hall
      rw [if_pos (hall ⟨i + 1, h⟩ le_rfl)]
      exact scan_eq_none.mpr fun k hk => hall k (Nat.le_succ_of_le hk)

theorem scan_eq_some {w : Fin 6 → ℤ} : ∀ {i : ℕ} {h : i < 6} {k : Fin 6}, scan w i h = some k → w k ≠ 0
  | 0, h, k, hs => by
    unfold scan at hs
    split_ifs at hs with h0
    obtain rfl := Option.some.inj hs
    exact h0
  | i + 1, h, k, hs => by
    unfold scan at hs
    split_ifs at hs with h0
    · exact scan_eq_some hs
    · obtain rfl := Option.some.inj hs
      exact h0

theorem thread_typed (num : Fin 6) (l : Loc) : Typed inside (thread num l) l := by
  cases l with
  | test =>
    intro x
    dsimp only
    split_ifs <;> rfl
  | leave =>
    intro x
    dsimp only
    split <;> rfl
  | register | stray =>
    intro x
    rfl
  | start | sleep | entered | critical | signal i | unlock => exact ⟨rfl, rfl⟩
  | done => rfl

/-- A thread waits on the condition variable of its priority, and goes on with the test. -/
theorem thread_wait {num c : Fin 6} {l n : Loc} (h : thread num l = .wait c n) : c = num ∧ n = .test := by
  cases l with
  | sleep =>
    obtain ⟨rfl, rfl⟩ := Instr.wait.inj h
    exact ⟨rfl, rfl⟩
  | _ => cases h

theorem thread_isHalt {num : Fin 6} {l : Loc} (h : l ≠ .done) : (thread num l).isHalt = false := by
  cases l with
  | done => exact absurd rfl h
  | _ => rfl

/-! ## What the variables count -/

section

variable {τ : Type} {prio : τ → Fin 6} {s s' t : State τ} {i j : τ}

theorem threads_typed (i : τ) (l : Loc) : Typed inside (threads prio i l) l := thread_typed _ l

/-- While `i` runs inside, nobody else is inside but at the test. -/
theorem alone (hmx : MutexInv (threads prio) inside s) (hm : s.mode i = .awake) (hl : inside (s.loc i) = true)
    (hj : inside (s.loc j) = true) (hw : s.loc j ≠ .test) : j = i :=
  hmx.alone hm hl hj fun _ _ hc => hw (thread_wait hc).2

variable [Fintype τ]

structure Inv (prio : τ → Fin 6) (s : State τ) : Prop where
  waiting : ∀ k, s.shared.waiting k = countOf prio k counted s
  use : count (fun _ => inSection) s = if s.shared.use = true then 1 else 0
  gate : ∀ i, s.loc i = .sleep → s.shared.use = true
  /-- While the section is free and somebody is registered, somebody registered is awake or about to be signalled. -/
  next : s.shared.use = false → (∃ i, registered (s.loc i) = true) →
    (∃ i, registered (s.loc i) = true ∧ (s.mode i).isAsleep = false) ∨
      ∃ i j, s.loc i = .signal (prio j) ∧ registered (s.loc j) = true

theorem initial_inv : Inv prio (initial start fun _ => .start : State τ) := by
  constructor
  · intro k
    exact (countOf_eq_zero fun i => rfl).symm
  · exact count_eq_zero.mpr fun i => rfl
  · intro i hi
    cases hi
  · rintro - ⟨i, hi⟩
    cases hi

theorem Inv.wake (h : Inv prio s) (hsh : t.shared = s.shared) (hloc : t.loc = s.loc)
    (hm : ∀ i c, t.mode i = .asleep c → s.mode i = .asleep c) : Inv prio t := by
  constructor
  · intro k
    rw [hsh, h.waiting k]
    exact (countOf_congr fun i => by rw [hloc]).symm
  · rw [hsh, ← h.use]
    exact count_congr fun i => by rw [hloc]
  · rw [hloc, hsh]
    exact h.gate
  · intro h0 hex
    rw [hsh] at h0
    rw [hloc] at hex
    rw [hloc]
    rcases h.next h0 hex with ⟨i, hi, hi'⟩ | hsig
    · refine .inl ⟨i, hi, ?_⟩
      exact Mode.isAsleep_eq_false.mpr fun c hc => Mode.isAsleep_eq_false.mp hi' c (hm i c hc)
    · exact .inr hsig

/-- **Mutual exclusion.** -/
theorem Inv.unique (h : Inv prio s) (hi : inSection (s.loc i) = true) (hj : inSection (s.loc j) = true) : i = j := by
  have hle : count (fun _ => inSection) s ≤ 1 := by
    rw [h.use]
    split_ifs <;> omega
  exact eq_of_count_le_one hle hi hj

/-- While somebody is in the section `use` is set. -/
theorem Inv.use_of_inSection (h : Inv prio s) (hi : inSection (s.loc i) = true) : s.shared.use = true := by
  by_contra hne
  have hc := h.use
  rw [if_neg hne] at hc
  have := count_eq_zero.mp hc i
  rw [hi] at this
  cases this

/-- Who is in `waiting` beside the leaving thread is registered. -/
theorem Inv.registered_of_counted (h : Inv prio s) (hl : s.loc i = .leave) (hj : counted (s.loc j) = true) (hji : j ≠ i) :
    registered (s.loc j) = true := by
  have hi : inSection (s.loc i) = true := by rw [hl]; rfl
  cases hlj : s.loc j with
  | test => rfl
  | sleep => rfl
  | entered | critical | leave => exact absurd (h.unique (j := i) (by rw [hlj]; rfl) hi) hji
  | start | register | signal k | stray | unlock | done =>
    rw [hlj] at hj
    cases hj

/-- Nobody is left sleeping before a free section. -/
theorem Inv.no_deadlock (h : Inv prio s) (hmx : MutexInv (threads prio) inside s) (hu : s.shared.use = false) :
    ¬ Deadlock (threads prio) s := by
  rintro ⟨⟨i, hi⟩, ha⟩
  obtain ⟨c, hc⟩ := Mode.isAsleep_iff.mp (ha i hi)
  have hreg : registered (s.loc i) = true := by
    obtain ⟨l, hw⟩ := hmx.asleep i c hc
    rw [(thread_wait hw).2]
    rfl
  rcases h.next hu ⟨i, hreg⟩ with ⟨j, hj, hj'⟩ | ⟨j, k, hj, -⟩
  · have hsl : (s.mode j).isAsleep = true := by
      refine ha j (thread_isHalt ?_)
      intro hd
      rw [hd] at hj
      cases hj
    rw [hj'] at hsl
    cases hsl
  · refine ha.elim hmx (i := j) (thread_isHalt (by simp [hj])) fun _ _ hw => ?_
    rw [(thread_wait hw).2] at hj
    cases hj

variable [DecidableEq τ]

/-- A step that leaves the variables alone, and neither registers nor enters. -/
theorem Inv.move {n : Loc} (h : Inv prio s) (hsh : t.shared = s.shared) (hloc : t.loc = (s.goto i n).loc)
    (hm : ∀ i c, t.mode i = .asleep c → s.mode i = .asleep c) (hc : counted n = counted (s.loc i))
    (hin : inSection n = inSection (s.loc i)) (hr : registered n = registered (s.loc i))
    (hg : n = .sleep → s.shared.use = true) (hs : ∀ k, s.loc i ≠ .signal k) : Inv prio t := by
  have hreg : ∀ j, registered (t.loc j) = registered (s.loc j) := by
    intro j
    rw [hloc, St.goto_loc_apply]
    split_ifs with hj
    · rw [hj, hr]
    · rfl
  have hsig : ∀ j k, s.loc j = .signal k → t.loc j = .signal k := by
    intro j k hj
    rw [hloc, St.goto_loc_of_ne s n, hj]
    rintro rfl
    exact hs k hj
  constructor
  · intro k
    rw [hsh, h.waiting k]
    exact (countOf_same hloc hc).symm
  · rw [hsh, ← h.use]
    exact count_same hloc hin
  · intro j hj
    rw [hloc, St.goto_loc_apply] at hj
    rw [hsh]
    split_ifs at hj
    · exact hg hj
    · exact h.gate j hj
  · rintro h0 ⟨j, hj⟩
    rw [hsh] at h0
    rw [hreg j] at hj
    rcases h.next h0 ⟨j, hj⟩ with ⟨k, hk, hk'⟩ | ⟨k, l, hk, hkl⟩
    · refine .inl ⟨k, by rw [hreg k]; exact hk, ?_⟩
      exact Mode.isAsleep_eq_false.mpr fun c hc => Mode.isAsleep_eq_false.mp hk' c (hm k c hc)
    · exact .inr ⟨k, l, hsig k _ hk, by rw [hreg l]; exact hkl⟩

/-- A thread adds itself to `waiting`. -/
theorem Inv.register (h : Inv prio s) (hm : s.mode i = .awake) (hl : s.loc i = .register) :
    Inv prio (s.assign i .test
      { s.shared with waiting := Function.update s.shared.waiting (prio i) (s.shared.waiting (prio i) + 1) }) := by
  constructor
  · intro k
    refine Eq.trans ?_ (countOf_enter (s := s) (i := i) (n := .test) (by rfl) (by rw [hl]; rfl) rfl).symm
    show Function.update s.shared.waiting (prio i) (s.shared.waiting (prio i) + 1) k = _
    rw [← h.waiting, Function.update_apply]
    split_ifs with hk
    · rw [hk]
    · rw [add_zero]
  · refine Eq.trans ?_ h.use
    exact count_same (i := i) (n := .test) (by rfl) (by rw [hl]; rfl)
  · intro j hj
    rw [St.assign_loc, St.goto_loc_apply] at hj
    split_ifs at hj
    exact h.gate j hj
  · intro _ _
    refine .inl ⟨i, ?_, ?_⟩
    · rw [St.assign_loc, St.goto_loc_self]
      rfl
    · rw [St.assign_mode, hm]
      rfl

/-- A thread enters the section. -/
theorem Inv.enter (h : Inv prio s) (hl : s.loc i = .test) (hu : ¬ s.shared.use = true) :
    Inv prio (s.assign i .entered { s.shared with use := true }) := by
  constructor
  · intro k
    show s.shared.waiting k = _
    rw [h.waiting k]
    exact (countOf_same (i := i) (n := .entered) (by rfl) (by rw [hl]; rfl)).symm
  · have hc := count_enter (p := fun _ => inSection) (t := s.assign i .entered { s.shared with use := true }) (s := s)
      (i := i) (n := .entered) rfl (by rw [hl]; rfl) rfl
    rw [hc, h.use, if_neg hu]
    rfl
  · intro j hj
    rfl
  · intro h0
    cases h0

/-- `waiting` after the leaving thread has taken itself out. -/
def without (prio : τ → Fin 6) (s : State τ) (i : τ) : Fin 6 → ℤ :=
  Function.update s.shared.waiting (prio i) (s.shared.waiting (prio i) - 1)

theorem Inv.without_eq {n : Loc} {x : Shared} (h : Inv prio s) (hl : s.loc i = .leave) (hn : counted n = false) (k : Fin 6) :
    without prio s i k = countOf prio k counted (s.assign i n x) := by
  refine Eq.trans ?_ (countOf_leave (s := s) (i := i) (n := n) (by rfl) (by rw [hl]; rfl) hn).symm
  unfold without
  rw [← h.waiting, Function.update_apply]
  split_ifs with hk
  · rw [hk]
  · rw [sub_zero]

/-- **When the exit scan stops**: exactly when somebody else is registered. -/
theorem Inv.scan_isSome_iff (h : Inv prio s) (hl : s.loc i = .leave) :
    (scan (without prio s i) 5 (by decide)).isSome = true ↔ ∃ j, j ≠ i ∧ registered (s.loc j) = true := by
  constructor
  · intro hs
    obtain ⟨k, hk⟩ := Option.isSome_iff_exists.mp hs
    have hne := scan_eq_some hk
    rw [h.without_eq (n := .unlock) (x := s.shared) hl rfl] at hne
    have hnn := countOf_nonneg prio k counted (s.assign i .unlock s.shared)
    obtain ⟨j, hj, -⟩ := exists_of_countOf_pos (s := s.assign i .unlock s.shared) (p := counted) (g := prio) (k := k)
      (by omega)
    rw [St.assign_loc, St.goto_loc_apply] at hj
    split_ifs at hj with hji
    · cases hj
    · exact ⟨j, hji, h.registered_of_counted hl hj hji⟩
  · rintro ⟨j, hji, hj⟩
    rw [Option.isSome_iff_ne_none]
    intro hnone
    have hz := scan_eq_none.mp hnone (prio j) (Nat.lt_succ_iff.mp (prio j).isLt)
    rw [h.without_eq (n := .unlock) (x := s.shared) hl rfl] at hz
    have hpos := countOf_pos (g := prio) (p := counted) (s := s.assign i .unlock s.shared) (i := j) (by
      rw [St.assign_loc, St.goto_loc_of_ne s _ hji]
      cases hlj : s.loc j <;> rw [hlj] at hj <;> first | rfl | cases hj)
    omega

/-- A thread leaves the section and has found whom to signal. -/
theorem Inv.depart {k : Fin 6} (h : Inv prio s) (hl : s.loc i = .leave) (hns : ∀ j, s.loc j ≠ .sleep)
    (hk : scan (without prio s i) 5 (by decide) = some k) :
    Inv prio (s.assign i (.signal k) ⟨false, without prio s i⟩) := by
  have hi : inSection (s.loc i) = true := by rw [hl]; rfl
  constructor
  · intro m
    exact h.without_eq hl rfl m
  · have hc := count_leave (p := fun _ => inSection) (t := s.assign i (.signal k) ⟨false, without prio s i⟩) (s := s)
      (i := i) (n := .signal k) rfl hi rfl
    rw [hc, h.use, if_pos (h.use_of_inSection hi)]
    rfl
  · intro j hj
    rw [St.assign_loc, St.goto_loc_apply] at hj
    split_ifs at hj
    exact absurd hj (hns j)
  · intro _ _
    -- the scan has found a counter that is not zero, so somebody of that priority is registered
    have hne := scan_eq_some hk
    rw [h.without_eq (n := .unlock) (x := s.shared) hl rfl] at hne
    have hnn := countOf_nonneg prio k counted (s.assign i .unlock s.shared)
    obtain ⟨j, hj, hjk⟩ := exists_of_countOf_pos (s := s.assign i .unlock s.shared) (p := counted) (g := prio) (k := k)
      (by omega)
    rw [St.assign_loc, St.goto_loc_apply] at hj
    split_ifs at hj with hji
    · cases hj
    · refine .inr ⟨i, j, ?_, ?_⟩
      · rw [St.assign_loc, St.goto_loc_self, hjk]
      · rw [St.assign_loc, St.goto_loc_of_ne s _ hji]
        exact h.registered_of_counted hl hj hji

/-- The exit scan runs below the array. -/
theorem Inv.run_off (h : Inv prio s) (hl : s.loc i = .leave) :
    Inv prio (s.assign i .stray ⟨s.shared.use, without prio s i⟩) := by
  have hu : s.shared.use = true := h.use_of_inSection (i := i) (by rw [hl]; rfl)
  constructor
  · intro m
    exact h.without_eq hl rfl m
  · refine Eq.trans ?_ h.use
    exact count_same (i := i) (n := .stray) (by rfl) (by rw [hl]; rfl)
  · intro j hj
    exact hu
  · intro h0
    have h0 : s.shared.use = false := h0
    rw [hu] at h0
    cases h0

/-- The signal is given. -/
theorem Inv.signal {k : Fin 6} (h : Inv prio s) (hmx : MutexInv (threads prio) inside s) (hm : s.mode i = .awake)
    (hl : s.loc i = .signal k) (hloc : t.loc = (s.goto i .unlock).loc) (hsh : t.shared = s.shared)
    (hmode : ∀ i c, t.mode i = .asleep c → s.mode i = .asleep c)
    (hwake : (∃ j, s.mode j = .asleep k) → ∃ j, s.mode j = .asleep k ∧ (t.mode j).isAsleep = false) : Inv prio t := by
  have hreg : ∀ j, registered (t.loc j) = registered (s.loc j) := by
    intro j
    rw [hloc, St.goto_loc_apply]
    split_ifs with hj
    · rw [hj, hl]
      rfl
    · rfl
  constructor
  · intro m
    rw [hsh, h.waiting m]
    exact (countOf_same hloc (by rw [hl]; rfl)).symm
  · rw [hsh, ← h.use]
    exact count_same hloc (by rw [hl]; rfl)
  · intro j hj
    rw [hloc, St.goto_loc_apply] at hj
    rw [hsh]
    split_ifs at hj
    exact h.gate j hj
  · rintro h0 ⟨j, hj⟩
    left
    rw [hsh] at h0
    rw [hreg j] at hj
    rcases h.next h0 ⟨j, hj⟩ with ⟨m, hm1, hm2⟩ | ⟨m, l, hm1, hl1⟩
    · refine ⟨m, by rw [hreg m]; exact hm1, ?_⟩
      exact Mode.isAsleep_eq_false.mpr fun c hc => Mode.isAsleep_eq_false.mp hm2 c (hmode m c hc)
    · -- the thread that was to be signalled: it does not sleep, or somebody of its priority wakes up
      have hmi : m = i := alone hmx hm (by rw [hl]; rfl) (by rw [hm1]; rfl) (by simp [hm1])
      rw [hmi, hl] at hm1
      have hk : prio l = k := (Loc.signal.inj hm1).symm
      by_cases hsl : ∃ j, s.mode j = .asleep k
      · obtain ⟨j', hj', hj''⟩ := hwake hsl
        refine ⟨j', ?_, hj''⟩
        obtain ⟨l', hw⟩ := hmx.asleep j' k hj'
        rw [hreg j', (thread_wait hw).2]
        rfl
      · refine ⟨l, by rw [hreg l]; exact hl1, ?_⟩
        refine Mode.isAsleep_eq_false.mpr fun c hc => ?_
        have hc := hmode l c hc
        obtain ⟨l', hw⟩ := hmx.asleep l c hc
        refine hsl ⟨l, ?_⟩
        rw [hc, (thread_wait hw).1, hk]

/-- **Step lemma.** -/
theorem Inv.step (h : Inv prio s) (hmx : MutexInv (threads prio) inside s) (hm : s.mode i = .awake)
    (he : Effect s i (threads prio i (s.loc i)) s') : Inv prio s' := by
  have hsame : ∀ (i : τ) (c : Fin 6), s.mode i = .asleep c → s.mode i = .asleep c := fun _ _ hc => hc
  cases hl : s.loc i with
  | start =>
    rw [hl] at he
    obtain ⟨-, rfl⟩ := he
    exact h.move rfl rfl hsame (by rw [hl]; rfl) (by rw [hl]; rfl) (by rw [hl]; rfl) (by simp) (by simp [hl])
  | register =>
    rw [hl] at he
    obtain rfl := he
    exact h.register hm hl
  | test =>
    rw [hl] at he
    obtain rfl := he
    by_cases hu : s.shared.use = true
    · simp only [if_pos hu]
      exact h.move rfl rfl hsame (by rw [hl]; rfl) (by rw [hl]; rfl) (by rw [hl]; rfl) (fun _ => hu) (by simp [hl])
    · simp only [if_neg hu]
      exact h.enter hl hu
  | sleep =>
    rw [hl] at he
    obtain ⟨-, rfl⟩ := he
    have hu := h.gate i hl
    have hmv : Inv prio (s.goto i .test) :=
      h.move rfl rfl hsame (by rw [hl]; rfl) (by rw [hl]; rfl) (by rw [hl]; rfl) (by simp) (by simp [hl])
    refine ⟨hmv.waiting, hmv.use, hmv.gate, fun h0 => ?_⟩
    have h0 : s.shared.use = false := h0
    rw [hu] at h0
    cases h0
  | entered =>
    rw [hl] at he
    obtain ⟨-, rfl⟩ := he
    exact h.move rfl rfl hsame (by rw [hl]; rfl) (by rw [hl]; rfl) (by rw [hl]; rfl) (by simp) (by simp [hl])
  | critical =>
    rw [hl] at he
    obtain ⟨-, rfl⟩ := he
    exact h.move rfl rfl hsame (by rw [hl]; rfl) (by rw [hl]; rfl) (by rw [hl]; rfl) (by simp) (by simp [hl])
  | leave =>
    rw [hl] at he
    obtain rfl := he
    have hns : ∀ j, s.loc j ≠ .sleep := by
      intro j hj
      have hji : j = i := alone hmx hm (by rw [hl]; rfl) (by rw [hj]; rfl) (by simp [hj])
      rw [hji, hl] at hj
      cases hj
    cases hk : scan (without prio s i) 5 (by decide) with
    | some k =>
      unfold without at hk
      simp only [hk]
      exact h.depart hl hns hk
    | none =>
      unfold without at hk
      simp only [hk]
      exact h.run_off hl
  | signal k =>
    rw [hl] at he
    rcases he with ⟨hno, rfl⟩ | ⟨j, hj, rfl⟩
    · exact h.signal hmx hm hl rfl rfl hsame fun ⟨j, hj⟩ => absurd hj (hno j)
    · refine h.signal hmx hm hl rfl rfl (fun m c hc => (St.asleep_of_setMode (by simp) hc).1) fun _ => ⟨j, hj, ?_⟩
      rw [St.goto_mode, St.setMode_mode_self]
      rfl
  | stray =>
    rw [hl] at he
    obtain rfl := he
    exact h.move rfl rfl hsame (by rw [hl]) (by rw [hl]) (by rw [hl]) (by simp) (by simp [hl])
  | unlock =>
    rw [hl] at he
    obtain ⟨-, rfl⟩ := he
    exact h.move rfl rfl hsame (by rw [hl]; rfl) (by rw [hl]; rfl) (by rw [hl]; rfl) (by simp) (by simp [hl])
  | done =>
    rw [hl] at he
    cases he

/-- **Step lemma**, with the changes among the sleepers. -/
theorem inv_step {a : Act τ} (h : MutexInv (threads prio) inside s ∧ Inv prio s) (hs : StepRes (threads prio) s a s') :
    MutexInv (threads prio) inside s' ∧ Inv prio s' := by
  refine hs.preserves h threads_typed ?_ ?_
  · intro s t hI hsh hloc hm
    exact hI.wake hsh hloc hm
  · intro i s' _ hm he
    exact h.2.step h.1 hm he

/-- **Run lemma.** -/
theorem run_inv {ok : State τ → Act τ → Prop} {tr : List (Ev (State τ) (Act τ) Unit)}
    (h : Run (Step (threads prio)) ok (initial start fun _ => .start) tr s) :
    MutexInv (threads prio) inside s ∧ Inv prio s := by
  have h0 : MutexInv (threads prio) inside (initial start fun _ => .start : State τ) := initial_mutexInv fun _ => rfl
  exact h.inv (I := fun s => MutexInv (threads prio) inside s ∧ Inv prio s) ⟨h0, initial_inv⟩
    fun x a o y hI _ hst => inv_step hI (next_inv hst)

/-- **When the exit scan stops.**  In every reachable state the exit scan of a thread that is about to leave stops at an index of the
array if and only if another thread is registered; and a free critical section is never left to sleepers. -/
theorem scan_stops_iff_registered (prio : τ → Fin 6) (s : State τ)
    (h : Reachable (threads prio) always start (fun _ => .start) s) :
    (∀ i, s.loc i = .leave →
      ((scan (without prio s i) 5 (by decide)).isSome = true ↔ ∃ j, j ≠ i ∧ registered (s.loc j) = true)) ∧
      ¬ (s.shared.use = false ∧ Deadlock (threads prio) s) := by
  obtain ⟨_, tr, rfl, hr⟩ := h
  obtain ⟨hmx, hI⟩ := run_inv hr
  refine ⟨fun i hl => hI.scan_isSome_iff hl, ?_⟩
  rintro ⟨hu, hd⟩
  exact hI.no_deadlock hmx hu hd

end

/-- A thread is about to leave while another one sleeps. -/
theorem scan_stops_iff_registered_run : ∃ s : State (Fin 2),
    Reachable (threads fun i => i.castLE (by decide)) always start (fun _ => .start) s ∧ s.loc 0 = .leave ∧
      (scan (without (fun i : Fin 2 => i.castLE (by decide)) s 0) 5 (by decide)).isSome = true := by
  obtain ⟨s, hr, hl, hr1⟩ := exists_reachable (P := threads fun i : Fin 2 => i.castLE (by decide)) always start
    (fun _ => .start)
    [.exec 0, .exec 0, .exec 0, .exec 0, .exec 1, .exec 1, .exec 1, .exec 1, .exec 0]
    (fun s => s.loc 0 = .leave ∧ registered (s.loc 1) = true) (by decide +kernel)
  refine ⟨s, hr, hl, ?_⟩
  exact ((scan_stops_iff_registered _ s hr).1 0 hl).mpr ⟨1, by decide, hr1⟩

/-- **The last one out.**  A single thread of priority `1`: when it leaves, its scan finds `0` everywhere and runs below `waiting[0]`. -/
theorem last_leaver_strays : ∃ s : State Unit, Reachable (threads fun _ => 0) always start (fun _ => .start) s ∧
    s.loc () = .leave ∧ scan (without (fun _ => 0) s ()) 5 (by decide) = none :=
  exists_reachable (P := threads fun _ => 0) always start (fun _ => .start)
    [.exec (), .exec (), .exec (), .exec (), .exec ()]
    (fun s => s.loc () = .leave ∧ scan (without (fun _ => 0) s ()) 5 (by decide) = none) (by decide +kernel)

/-! ## Handing over -/

section

variable {τ : Type} {prio : τ → Fin 6} {s s' t : State τ} {i j : τ}

/-- Thread `i` enters the critical section. -/
def Enters (e : Ev (State τ) (Act τ) Unit) (i : τ) : Prop := e.pre.loc i = .test ∧ e.post.loc i = .entered

/-- Thread `i` leaves the critical section. -/
def Leaves (e : Ev (State τ) (Act τ) Unit) (i : τ) : Prop := e.pre.loc i = .leave ∧ ∃ k, e.post.loc i = .signal k

instance (e : Ev (State τ) (Act τ) Unit) (i : τ) : Decidable (Enters e i) := inferInstanceAs (Decidable (_ ∧ _))

instance (e : Ev (State τ) (Act τ) Unit) (i : τ) : Decidable (Leaves e i) := inferInstanceAs (Decidable (_ ∧ _))

/-- After a thread left while others were registered, the next one to enter is one of the highest priority among them. -/
def HandsOver (prio : τ → Fin 6) (tr : List (Ev (State τ) (Act τ) Unit)) : Prop :=
  ∀ tr1 e tr2 e' tr3 i j, tr = tr1 ++ e :: (tr2 ++ e' :: tr3) → Leaves e i → (∃ k, registered (e.post.loc k) = true) →
    (∀ d ∈ tr2, ∀ k, ¬ Enters d k) → Enters e' j →
    registered (e.post.loc j) = true ∧ ∀ k, registered (e.post.loc k) = true → prio k ≤ prio j

/-- **The mutex is passed on in order.**  While the critical section is free and threads are registered, no newcomer takes the mutex, and no
woken thread takes it although one of higher priority is registered. -/
def Orderly (prio : τ → Fin 6) (s : State τ) : Act τ → Prop
  | .exec i | .signal i _ => s.loc i = .start → s.shared.use = false → ∀ k, registered (s.loc k) = false
  | .relock j => s.shared.use = false → ∀ k, registered (s.loc k) = true → prio k ≤ prio j
  | .spurious _ => True

instance [Fintype τ] (prio : τ → Fin 6) (s : State τ) (a : Act τ) : Decidable (Orderly prio s a) :=
  match a with
  | .exec _ => inferInstanceAs (Decidable (_ → _ → ∀ _, _))
  | .signal _ _ => inferInstanceAs (Decidable (_ → _ → ∀ _, _))
  | .relock _ => inferInstanceAs (Decidable (_ → ∀ _, _ → _))
  | .spurious _ => .isTrue trivial

/-- Between a leave and the next enter: `R` are the threads that were registered, and only the first of them holds the mutex. -/
structure Between (prio : τ → Fin 6) (R : τ → Bool) (s : State τ) : Prop where
  free : s.shared.use = false
  same : ∀ k, registered (s.loc k) = R k
  first : ∀ k, s.loc k = .test → s.mode k = .awake → ∀ m, R m = true → prio m ≤ prio k
  none : ∀ k, s.loc k ≠ .register

variable [DecidableEq τ]

/-- An instruction that leads from outside to outside of the registered places. -/
theorem Between.move {R : τ → Bool} {n : Loc} (h : Between prio R s) (hsh : t.shared = s.shared)
    (hloc : t.loc = (s.goto i n).loc) (hm : ∀ j, t.mode j = .awake → s.mode j = .awake) (hr : registered (s.loc i) = false)
    (hn : registered n = false) (hne : n ≠ .register) : Between prio R t := by
  have hreg : ∀ j, registered (t.loc j) = registered (s.loc j) := by
    intro j
    rw [hloc, St.goto_loc_apply]
    split_ifs with hj
    · rw [hj, hn, hr]
    · rfl
  constructor
  · rw [hsh]
    exact h.free
  · intro k
    rw [hreg k]
    exact h.same k
  · intro k hk hmk
    rw [hloc, St.goto_loc_apply] at hk
    split_ifs at hk with hki
    · rw [hk] at hn
      cases hn
    · exact h.first k hk (hm k hmk)
  · intro k hk
    rw [hloc, St.goto_loc_apply] at hk
    split_ifs at hk with hki
    · exact hne hk
    · exact h.none k hk

/-- Right after a thread left, the registered threads do not run. -/
theorem between_of_leaves {a : Act τ} {k : Fin 6} (hmx : MutexInv (threads prio) inside s)
    (hs : StepRes (threads prio) s a s') (hl : s.loc i = .leave) (hl' : s'.loc i = .signal k) :
    Between prio (fun k => registered (s'.loc k)) s' := by
  obtain ⟨hm, he⟩ := hs.moved (i := i) (by rw [hl, hl']; simp)
  rw [hl] at he
  obtain rfl := he
  cases hk : scan (without prio s i) 5 (by decide) with
  | none =>
    unfold without at hk
    simp only [hk, St.assign_loc, St.goto_loc_self] at hl'
    cases hl'
  | some m =>
    unfold without at hk
    simp only [hk]
    refine ⟨rfl, fun _ => rfl, fun j hj hmj => ?_, fun j hj => ?_⟩
    · -- who is awake at the test would hold the mutex
      rw [St.assign_loc, St.goto_loc_apply] at hj
      split_ifs at hj with hji
      rw [St.assign_mode] at hmj
      exact absurd (hmx.unique hmj (by rw [hj]; rfl) hm (by rw [hl]; rfl)) hji
    · rw [St.assign_loc, St.goto_loc_apply] at hj
      split_ifs at hj with hji
      exact absurd (alone hmx hm (by rw [hl]; rfl) (by rw [hj]; rfl) (by simp [hj])) hji

variable [Fintype τ]

/-- **Step lemma.**  As long as nobody enters. -/
theorem Between.step {R : τ → Bool} {a : Act τ} (h : Between prio R s) (hI : Inv prio s) (hR : ∃ k, R k = true)
    (hok : Orderly prio s a) (hne : ∀ k, ¬ (s.loc k = .test ∧ s'.loc k = .entered))
    (hs : StepRes (threads prio) s a s') : Between prio R s' := by
  -- nobody is in the section
  have hout : ∀ k, inSection (s.loc k) = true → False := by
    intro k hk
    have hu := hI.use_of_inSection hk
    rw [h.free] at hu
    cases hu
  cases hs with
  | @exec i a s' ha hm he =>
    cases hl : s.loc i with
    | start =>
      -- a newcomer would have to wait for the mutex
      obtain ⟨k, hk⟩ := hR
      have hno : ∀ k, registered (s.loc k) = false := by
        rcases ha with rfl | ⟨j, rfl⟩
        · exact hok hl h.free
        · exact hok hl h.free
      rw [← h.same k, hno k] at hk
      cases hk
    | register => exact absurd hl (h.none i)
    | test =>
      rw [hl] at he
      obtain rfl := he
      refine absurd ⟨hl, ?_⟩ (hne i)
      have hu : ¬ s.shared.use = true := by simp [h.free]
      simp only [if_neg hu]
      exact St.goto_loc_self s i _
    | sleep =>
      have hu := hI.gate i hl
      rw [h.free] at hu
      cases hu
    | entered | critical | leave | stray => exact (hout i (by rw [hl]; rfl)).elim
    | signal k =>
      rw [hl] at he
      rcases he with ⟨-, rfl⟩ | ⟨j, hj, rfl⟩
      · exact h.move rfl rfl (fun _ hj => hj) (by rw [hl]; rfl) (n := .unlock) rfl (by simp)
      · refine h.move rfl rfl (fun m hmm => ?_) (by rw [hl]; rfl) (n := .unlock) rfl (by simp)
        rw [St.goto_mode, St.setMode_mode_apply] at hmm
        split_ifs at hmm
        exact hmm
    | unlock =>
      rw [hl] at he
      obtain ⟨-, rfl⟩ := he
      exact h.move rfl rfl (fun _ hj => hj) (by rw [hl]; rfl) (n := .done) rfl (by simp)
    | done =>
      rw [hl] at he
      cases he
  | @spurious j c hj =>
    refine ⟨h.free, h.same, fun k hk hmk => ?_, h.none⟩
    rw [St.setMode_mode_apply] at hmk
    split_ifs at hmk
    exact h.first k hk hmk
  | @relock j hj hx =>
    refine ⟨h.free, h.same, fun k hk hmk m hm => ?_, h.none⟩
    have hmk : (s.setMode j .awake).mode k = .awake := hmk
    rw [St.setMode_mode_apply] at hmk
    split_ifs at hmk with hkj
    · rw [hkj]
      exact hok h.free m (by rw [h.same m]; exact hm)
    · exact h.first k hk hmk m hm

/-- **Run lemma.**  From a leave on, as long as nobody enters. -/
theorem between_run {R : τ → Bool} {tr : List (Ev (State τ) (Act τ) Unit)} (hr : Run (Step (threads prio)) (Orderly prio) s tr t)
    (h0 : Between prio R s) (hI : MutexInv (threads prio) inside s ∧ Inv prio s) (hR : ∃ k, R k = true)
    (hne : ∀ d ∈ tr, ∀ k, ¬ Enters d k) : Between prio R t := by
  induction hr with
  | nil => exact h0
  | @snoc tr t u a o hr hok hst ih =>
    have hIt : MutexInv (threads prio) inside t ∧ Inv prio t :=
      hr.inv (I := fun s => MutexInv (threads prio) inside s ∧ Inv prio s) hI fun _ _ _ _ hx _ hst => inv_step hx (next_inv hst)
    have hB := ih fun d hd => hne d (List.mem_append_left _ hd)
    exact hB.step hIt.2 hR hok (hne ⟨t, a, o, u⟩ (by simp)) (next_inv hst)

/-- **The section is handed over by priority.**  In every run at most one thread is in the critical section; and when in the whole run the
mutex is passed on in order, then after each leave that finds others registered the next thread to enter is one of the highest
priority among those that were registered at that moment. -/
theorem orderly_hands_over (prio : τ → Fin 6) (tr : List (Ev (State τ) (Act τ) Unit)) (s : State τ)
    (h : Run (Step (threads prio)) always (initial start fun _ => .start) tr s) :
    (∀ i j, inSection (s.loc i) = true → inSection (s.loc j) = true → i = j) ∧
      ((∀ e ∈ tr, Orderly prio e.pre e.act) → HandsOver prio tr) := by
  refine ⟨fun i j => (run_inv h).2.unique, fun hord => ?_⟩
  rintro tr1 e tr2 e' tr3 i j rfl ⟨hl, k, hk⟩ hreg hno ⟨hj, hj'⟩
  have h' := h.guard hord
  obtain ⟨hr1, -, hst, hr2⟩ := h'.split
  obtain ⟨hr3, -, hst', -⟩ := hr2.split
  have hI := run_inv hr1
  have hB := between_run hr3 (between_of_leaves hI.1 (next_inv hst) hl hk) (inv_step hI (next_inv hst)) hreg hno
  obtain ⟨hm, -⟩ := (next_inv hst').moved (i := j) (by rw [hj, hj']; simp)
  refine ⟨?_, hB.first j hj hm⟩
  rw [← hB.same j, hj]
  rfl

end

/-- Priorities `1`, `6` and `1`. -/
def lowHighLow : Fin 3 → Fin 6
  | 0 => 0
  | 1 => 5
  | 2 => 0

/-- Thread `1` is registered while thread `0` is inside, and gets the mutex next. -/
theorem orderly_hands_over_run : ∃ tr, ∃ s : State (Fin 3),
    Run (Step (threads lowHighLow)) always (initial start fun _ => .start) tr s ∧ s.loc 1 = .entered ∧
      (∀ e ∈ tr, Orderly lowHighLow e.pre e.act) ∧ HandsOver lowHighLow tr := by
  obtain ⟨tr, s, hr, hl⟩ := exists_run (P := threads lowHighLow) (Orderly lowHighLow) (initial start fun _ => .start)
    [.exec 0, .exec 0, .exec 0, .exec 0, .exec 1, .exec 1, .exec 1, .exec 1, .exec 0, .exec 0, .signal 0 1, .exec 0,
      .relock 1, .exec 1]
    (fun _ (s : State (Fin 3)) => s.loc 1 = .entered) (by decide +kernel)
  have hord : ∀ e ∈ tr, Orderly lowHighLow e.pre e.act := fun e he => (hr.forall_ev e he).2.1
  have hr' : Run _ always _ tr s := hr.mono fun _ _ _ => trivial
  exact ⟨tr, s, hr', hl, hord, (orderly_hands_over lowHighLow tr s hr').2 hord⟩

/-- **A newcomer enters first.**  Thread `0` leaves and signals thread `1`, of priority `6`; before that one has the mutex, thread `2` of
priority `1` arrives, finds `use` cleared and enters. -/
theorem newcomer_enters_first : ∃ tr, ∃ s : State (Fin 3),
    Run (Step (threads lowHighLow)) always (initial start fun _ => .start) tr s ∧ ¬ HandsOver lowHighLow tr := by
  obtain ⟨tr, s, hr, hq⟩ := exists_run (P := threads lowHighLow) always (initial start fun _ => .start)
    [.exec 0, .exec 0, .exec 0, .exec 0, .exec 1, .exec 1, .exec 1, .exec 1, .exec 0, .exec 0, .signal 0 1, .exec 0,
      .exec 2, .exec 2, .exec 2]
    (fun tr (_ : State (Fin 3)) => tr[9]?.any (fun e => tr[14]?.any fun e' =>
      decide (Leaves e 0 ∧ registered (e.post.loc 1) = true ∧ (∀ d ∈ (tr.take 14).drop 10, ∀ k, ¬ Enters d k) ∧
        Enters e' 2 ∧ registered (e.post.loc 2) = false)) = true) (by decide +kernel)
  refine ⟨tr, s, hr, fun hover => ?_⟩
  obtain ⟨tr1, e, tr2, e', tr3, heq, hl, hreg, hno, hen, hnot⟩ :=
    exists_two_cuts (m := 9) (n := 14) (by decide)
      (G := fun e l e' => Leaves e 0 ∧ registered (e.post.loc 1) = true ∧ (∀ d ∈ l, ∀ k, ¬ Enters d k) ∧
        Enters e' 2 ∧ registered (e.post.loc 2) = false) hq
  obtain ⟨hyes, -⟩ := hover tr1 e tr2 e' tr3 0 2 heq hl ⟨1, hreg⟩ hno hen
  rw [hnot] at hyes
  cases hyes

end OsLabs.CondvarChallenge.Priority
