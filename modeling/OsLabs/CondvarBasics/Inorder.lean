import OsLabs.Monitor

/-!
# OsLabs.CondvarBasics.Inorder — critical sections one after the other

`inorder.c`: thread number `k` waits until `done` is `k`, prints from its critical section, adds one to `done` and wakes everybody.  The
numbers `1, …, n` are handed out to `n` threads in any way.  `out` is what the critical sections have printed.

* `Inv`: the sections that are over are those with a number below `done`.
* `in_order`: the output is `1, 2, …`, and nobody is left sleeping.
-/

namespace OsLabs.CondvarBasics.Inorder

open Lts Monitor

structure Shared where
  done : ℤ
  /-- The lines "Thread %d in critical section". -/
  out : List ℤ

inductive Loc
  | start | test | sleep | critical | announce | leave | done
deriving DecidableEq

/-- The body of the thread with number `num`. -/
def thread (num : ℤ) : Loc → Instr Shared Unit Loc
  | .start => .lock .test
  | .test => .run fun x => if x.done ≠ num then (x, .sleep) else (x, .critical)
  | .sleep => .wait () .test
  | .critical => .run fun x => (⟨x.done + 1, x.out ++ [num]⟩, .announce)
  | .announce => .broadcast () .leave
  | .leave => .unlock .done
  | .done => .halt

/-- The number of a thread. -/
def number {τ : Type} {n : ℕ} (nums : τ ≃ Fin n) (i : τ) : ℤ := (nums i : ℕ) + 1

/-- The numbers `1, …, n`, each once. -/
def threads {τ : Type} {n : ℕ} (nums : τ ≃ Fin n) (i : τ) : Loc → Instr Shared Unit Loc := thread (number nums i)

def start : Shared := ⟨1, []⟩

abbrev State (τ : Type) := St τ Shared Unit Loc

def inside : Loc → Bool
  | .start | .done => false
  | _ => true

/-- Behind the critical section. -/
def passed : Loc → Bool
  | .announce | .leave | .done => true
  | _ => false

/-- `1, 2, …, k`. -/
def upTo (k : ℕ) : List ℤ := (List.range k).map fun m : ℕ => (m : ℤ) + 1

theorem upTo_succ (k : ℕ) : upTo (k + 1) = upTo k ++ [(k : ℤ) + 1] := by
  simp [upTo, List.range_succ]

theorem thread_typed (num : ℤ) (l : Loc) : Typed inside (thread num l) l := by
  cases l with
  | test =>
    intro x
    dsimp only
    split_ifs <;> rfl
  | critical =>
    intro x
    rfl
  | done => rfl
  | announce => exact ⟨rfl, rfl⟩
  | _ => exact ⟨rfl, rfl⟩

/-- A wait ends at the test of the loop around it. -/
theorem thread_wait {num : ℤ} {l n : Loc} {u : Unit} (h : thread num l = .wait u n) : n = .test := by
  cases l with
  | sleep => exact (Instr.wait.inj h).2.symm
  | _ => cases h

theorem thread_isHalt {num : ℤ} {l : Loc} (h : l ≠ .done) : (thread num l).isHalt = false := by
  cases l with
  | done => exact absurd rfl h
  | _ => rfl

section

variable {τ : Type} {n : ℕ} {nums : τ ≃ Fin n} {s s' t : State τ} {i j : τ}

/-- The sections that are over are those below `done`, in their order; a thread sleeps only while it is not its turn, or somebody is
about to wake it. -/
structure Inv (nums : τ ≃ Fin n) (s : State τ) : Prop where
  out : ∃ k ≤ n, s.shared.done = (k : ℤ) + 1 ∧ s.shared.out = upTo k
  past : ∀ i, passed (s.loc i) = true ↔ number nums i < s.shared.done
  turn : ∀ i, s.loc i = .critical → s.shared.done = number nums i
  gate : ∀ i, s.loc i = .sleep → s.shared.done ≠ number nums i
  sleeper : ∀ i c, s.mode i = .asleep c → s.shared.done ≠ number nums i ∨ ∃ j, s.loc j = .announce

theorem number_inj (h : number nums i = number nums j) : i = j := by
  refine nums.injective (Fin.ext ?_)
  simp only [number] at h
  omega

theorem initial_inv : Inv nums (initial start fun _ => .start) := by
  refine ⟨⟨0, Nat.zero_le n, rfl, rfl⟩, fun i => ?_, nofun, nofun, nofun⟩
  have hnum : ¬ number nums i < 1 := by
    simp only [number]
    omega
  exact ⟨nofun, fun h => absurd h hnum⟩

theorem Inv.wake (h : Inv nums s) (hsh : t.shared = s.shared) (hloc : t.loc = s.loc)
    (hm : ∀ i c, t.mode i = .asleep c → s.mode i = .asleep c) : Inv nums t := by
  refine ⟨by rw [hsh]; exact h.out, ?_, ?_, ?_, fun i c hi => ?_⟩
  · rw [hsh, hloc]
    exact h.past
  · rw [hsh, hloc]
    exact h.turn
  · rw [hsh, hloc]
    exact h.gate
  · rw [hsh, hloc]
    exact h.sleeper i c (hm i c hi)

/-- Nobody is left sleeping: whose turn it is does not sleep. -/
theorem Inv.no_deadlock (h : Inv nums s) (hmx : MutexInv (threads nums) inside s) : ¬ Deadlock (threads nums) s := by
  rintro ⟨⟨i, hi⟩, ha⟩
  -- only a thread at the test can sleep
  have hawake : ∀ j, s.loc j ≠ .done → s.loc j ≠ .test → False := by
    intro j hj hjt
    exact ha.elim hmx (i := j) (thread_isHalt hj) fun c l hw => hjt (thread_wait hw)
  have htest : ∀ j, s.loc j ≠ .done → s.loc j = .test := fun j hj => by_contra fun hjt => hawake j hj hjt
  have hne : s.loc i ≠ .done := by
    intro hl
    simp [Unfinished, threads, hl, thread, Instr.isHalt] at hi
  obtain ⟨k, -, hk, -⟩ := h.out
  -- the thread at the test has not passed, so `done` is at most its number
  have hlt : k < n := by
    have hnot : ¬ number nums i < s.shared.done := by
      rw [← h.past i, htest i hne]
      intro hx
      cases hx
    have hnum : number nums i = (nums i : ℕ) + 1 := rfl
    have hbound := (nums i).isLt
    omega
  have hnum : number nums (nums.symm ⟨k, hlt⟩) = s.shared.done := by
    rw [hk]
    simp [number]
  have hnext : s.loc (nums.symm ⟨k, hlt⟩) ≠ .done := by
    intro hl
    have hpass := (h.past (nums.symm ⟨k, hlt⟩)).mp (by rw [hl]; rfl)
    omega
  have hsleep := ha (nums.symm ⟨k, hlt⟩) (thread_isHalt hnext)
  obtain ⟨c, hc⟩ := Mode.isAsleep_iff.mp hsleep
  rcases h.sleeper _ c hc with hd | ⟨j, hj⟩
  · exact hd hnum.symm
  · exact hawake j (by simp [hj]) (by simp [hj])

variable [DecidableEq τ]

/-- A step that leaves the shared variables alone and does not lead past the critical section. -/
theorem Inv.move {l : Loc} (h : Inv nums s) (hsh : t.shared = s.shared) (hloc : t.loc = (s.goto i l).loc)
    (hm : ∀ i c, t.mode i = .asleep c → s.mode i = .asleep c) (hl : passed l = passed (s.loc i))
    (hcrit : l = .critical → s.shared.done = number nums i) (hg : l = .sleep → s.shared.done ≠ number nums i)
    (ha : s.loc i ≠ .announce) : Inv nums t := by
  refine ⟨by rw [hsh]; exact h.out, fun j => ?_, fun j hj => ?_, fun j hj => ?_, fun j c hj => ?_⟩
  · rw [hsh, hloc, ← h.past j, St.goto_loc_apply]
    split_ifs with hji
    · rw [hl, hji]
    · rfl
  · rw [hloc, St.goto_loc_apply] at hj
    rw [hsh]
    split_ifs at hj with hji
    · rw [hji]
      exact hcrit hj
    · exact h.turn j hj
  · rw [hloc, St.goto_loc_apply] at hj
    rw [hsh]
    split_ifs at hj with hji
    · rw [hji]
      exact hg hj
    · exact h.gate j hj
  · rw [hsh, hloc]
    rcases h.sleeper j c (hm j c hj) with hne | ⟨k, hk⟩
    · exact .inl hne
    · right
      refine ⟨k, ?_⟩
      rw [St.goto_loc_of_ne s l, hk]
      rintro rfl
      exact ha hk

/-- The critical section of the thread whose turn it is. -/
theorem Inv.critical (h : Inv nums s) (hl : s.loc i = .critical) (hcrit : ∀ j, s.loc j = .critical → j = i)
    (hs : ∀ j, s.loc j ≠ .sleep) :
    Inv nums (s.assign i .announce ⟨s.shared.done + 1, s.shared.out ++ [number nums i]⟩) := by
  have hturn := h.turn i hl
  obtain ⟨k, -, hk, hout⟩ := h.out
  refine ⟨⟨k + 1, ?_, ?_, ?_⟩, fun j => ?_, fun j hj => ?_, fun j hj => ?_, fun _ _ _ => .inr ⟨i, St.goto_loc_self s i .announce⟩⟩
  · have hnum : number nums i = (nums i : ℕ) + 1 := rfl
    have hbound := (nums i).isLt
    omega
  · show s.shared.done + 1 = ((k + 1 : ℕ) : ℤ) + 1
    omega
  · show s.shared.out ++ [number nums i] = upTo (k + 1)
    rw [upTo_succ, hout, ← hturn, hk]
  · show passed ((s.goto i .announce).loc j) = true ↔ number nums j < s.shared.done + 1
    rw [St.goto_loc_apply]
    split_ifs with hji
    · rw [hji, ← hturn]
      simp [passed]
    · rw [h.past j]
      have hne : number nums j ≠ s.shared.done := fun heq => hji (number_inj (heq.trans hturn))
      omega
  · rw [St.assign_loc, St.goto_loc_apply] at hj
    split_ifs at hj with hji
    exact absurd (hcrit j hj) hji
  · rw [St.assign_loc, St.goto_loc_apply] at hj
    split_ifs at hj
    exact absurd hj (hs j)

/-- **Step lemma.** -/
theorem Inv.step (h : Inv nums s) (hmx : MutexInv (threads nums) inside s) (hm : s.mode i = .awake)
    (he : Effect s i (threads nums i (s.loc i)) s') : Inv nums s' := by
  have hsame : ∀ (j : τ) (c : Unit), s.mode j = .asleep c → s.mode j = .asleep c := fun _ _ hj => hj
  cases hl : s.loc i with
  | start =>
    rw [hl] at he
    obtain ⟨-, rfl⟩ := he
    exact h.move rfl rfl hsame (by rw [hl]; rfl) nofun nofun (by simp [hl])
  | test =>
    rw [hl] at he
    obtain rfl := he
    by_cases hg : s.shared.done ≠ number nums i
    · simp only [if_pos hg]
      exact h.move rfl rfl hsame (by rw [hl]; rfl) nofun (fun _ => hg) (by simp [hl])
    · simp only [if_neg hg]
      exact h.move rfl rfl hsame (by rw [hl]; rfl) (fun _ => not_not.mp hg) nofun (by simp [hl])
  | sleep =>
    rw [hl] at he
    obtain ⟨-, rfl⟩ := he
    have hg := h.gate i hl
    have hmv : Inv nums (s.goto i .test) := h.move rfl rfl hsame (by rw [hl]; rfl) nofun nofun (by simp [hl])
    refine ⟨hmv.out, hmv.past, hmv.turn, hmv.gate, fun j c hj => ?_⟩
    have hj : ((s.goto i .test).setMode i (.asleep ())).mode j = .asleep c := hj
    rw [St.setMode_mode_apply] at hj
    split_ifs at hj with hji
    · exact .inl (hji ▸ hg)
    · exact hmv.sleeper j c hj
  | critical =>
    rw [hl] at he
    obtain rfl := he
    -- nobody else runs inside
    have halone : ∀ j, inside (s.loc j) = true → s.loc j ≠ .test → j = i := by
      intro j hj hjt
      exact hmx.alone hm (by rw [hl]; rfl) hj fun c l hw => hjt (thread_wait hw)
    refine h.critical hl (fun j hj => ?_) fun j hj => ?_
    · exact halone j (by rw [hj]; rfl) (by simp [hj])
    · have hji := halone j (by rw [hj]; rfl) (by simp [hj])
      rw [hji, hl] at hj
      cases hj
  | announce =>
    rw [hl] at he
    obtain rfl := he
    have hloc : ∀ l, l ≠ .leave → ∀ j, ((s.wakeAll ()).goto i .leave).loc j = l → s.loc j = l := by
      intro l hne j hj
      rw [St.goto_loc_apply] at hj
      split_ifs at hj
      · exact absurd hj.symm hne
      · exact hj
    refine ⟨h.out, fun j => ?_, fun j hj => ?_, fun j hj => ?_, fun j c hj => ?_⟩
    · show passed (((s.wakeAll ()).goto i .leave).loc j) = true ↔ number nums j < s.shared.done
      rw [← h.past j, St.goto_loc_apply]
      split_ifs with hji
      · rw [hji, hl]
        rfl
      · rfl
    · exact h.turn j (hloc .critical nofun j hj)
    · exact h.gate j (hloc .sleep nofun j hj)
    · exact absurd rfl (St.asleep_of_wakeAll hj).2
  | leave =>
    rw [hl] at he
    obtain ⟨-, rfl⟩ := he
    exact h.move rfl rfl hsame (by rw [hl]; rfl) nofun nofun (by simp [hl])
  | done =>
    rw [hl] at he
    cases he

variable [Fintype τ]

/-- **Run lemma.** -/
theorem reachable_inv (h : Reachable (threads nums) always start (fun _ => .start) s) :
    MutexInv (threads nums) inside s ∧ Inv nums s := by
  refine h.program_inv (fun i l => thread_typed _ l) (fun _ => rfl) initial_inv ?_ ?_
  · intro s t hI hsh hloc hm
    exact hI.wake hsh hloc hm
  · intro s a i s' hI hmx _ _ hm he
    exact hI.step hmx hm he

end

end OsLabs.CondvarBasics.Inorder
