import OsLabs.Monitor

/-!
# OsLabs.CondvarChallenge.ThreeJobs — carpenters, painters and decorators share a house

`threeJobs.c`: workers of the kind that is in the house may come in, other kinds wait until the house is empty.  `carpenter`,
`painter` and `decorator` are three copies of one body that differ in the value of `type`.  The variables `active_job` and
`active_count` are read and written with the mutex held only, so what stands between two synchronisation calls is one step.

* `Inv`: how the two variables count the workers in the house, and why nobody sleeps before an empty house for good.
* `house_of_one_kind`: one kind at a time, the variables are right, and the workers do not block each other.
-/

namespace OsLabs.CondvarChallenge.ThreeJobs

open Lts Monitor

structure Shared where
  active_job : ℤ
  active_count : ℤ
deriving DecidableEq

/-- The places of a worker, one for each synchronisation call and each block of assignments. -/
inductive Loc
  | start | test | sleep | entered | working | finish | announce | leave | done
deriving DecidableEq

/-- The body that the three functions share. -/
def worker (type : ℤ) : Loc → Instr Shared Unit Loc
  | .start => .lock .test
  | .test => .run fun x =>
    if type ≠ x.active_job ∧ x.active_count ≠ 0 then (x, .sleep)
    else (⟨type, x.active_count + 1⟩, .entered)
  | .sleep => .wait () .test
  | .entered => .unlock .working
  | .working => .lock .finish
  | .finish => .run fun x =>
    if x.active_count - 1 = 0 then (⟨0, x.active_count - 1⟩, .announce)
    else (⟨x.active_job, x.active_count - 1⟩, .leave)
  | .announce => .broadcast () .leave
  | .leave => .unlock .done
  | .done => .halt

def carpenter : Loc → Instr Shared Unit Loc := worker 1

def painter : Loc → Instr Shared Unit Loc := worker 2

def decorator : Loc → Instr Shared Unit Loc := worker 3

inductive Job
  | carpenter | painter | decorator
deriving DecidableEq

def Job.type : Job → ℤ
  | .carpenter => 1
  | .painter => 2
  | .decorator => 3

/-- The threads that `main` creates: any number of each kind. -/
def threeJobs {τ : Type} (kind : τ → Job) (i : τ) : Loc → Instr Shared Unit Loc :=
  match kind i with
  | .carpenter => ThreeJobs.carpenter
  | .painter => ThreeJobs.painter
  | .decorator => ThreeJobs.decorator

/-- Between the start section and the finish section. -/
def inHouse : Loc → Bool
  | .entered | .working | .finish => true
  | _ => false

def inside : Loc → Bool
  | .start | .working | .done => false
  | _ => true

abbrev State (τ : Type) := St τ Shared Unit Loc

theorem threeJobs_eq {τ : Type} (kind : τ → Job) (i : τ) : threeJobs kind i = worker (kind i).type := by
  unfold threeJobs
  cases kind i <;> rfl

theorem worker_typed (type : ℤ) (l : Loc) : Typed inside (worker type l) l := by
  cases l with
  | test =>
    intro x
    dsimp only
    split_ifs <;> rfl
  | finish =>
    intro x
    dsimp only
    split_ifs <;> rfl
  | done => rfl
  | announce => exact ⟨rfl, rfl⟩
  | _ => exact ⟨rfl, rfl⟩

/-- A wait ends at the test of the loop around it. -/
theorem worker_wait {type : ℤ} {l n : Loc} {c : Unit} (h : worker type l = .wait c n) : n = .test := by
  cases l <;> simp [worker] at h
  exact h.symm

theorem worker_isHalt {type : ℤ} {l : Loc} (h : l ≠ .done) : (worker type l).isHalt = false := by
  cases l with
  | done => exact absurd rfl h
  | _ => rfl

section

variable {τ : Type} [Fintype τ] {type : τ → ℤ} {s s' : State τ} {i j : τ}

/-- The workers in the house are counted, are of the kind that is written down, and who sleeps has a reason: somebody is in
the house, or is about to announce that it is empty. -/
structure Inv (type : τ → ℤ) (s : State τ) : Prop where
  active : s.shared.active_count = count (fun _ => inHouse) s
  job : ∀ i, inHouse (s.loc i) = true → s.shared.active_job = type i
  empty : s.shared.active_count = 0 → s.shared.active_job = 0
  gate : ∀ i, s.loc i = .sleep → s.shared.active_count ≠ 0
  sleeper : ∀ i c, s.mode i = .asleep c → s.shared.active_count ≠ 0 ∨ ∃ j, s.loc j = .announce

theorem initial_inv : Inv type (initial ⟨0, 0⟩ fun _ => .start : State τ) := by
  constructor
  · exact (count_eq_zero.mpr fun i => rfl).symm
  · intro i hi
    cases hi
  · intro h
    rfl
  · intro i hi
    cases hi
  · intro i c hi
    cases hi

theorem Inv.wake {t : State τ} (h : Inv type s) (hsh : t.shared = s.shared) (hloc : t.loc = s.loc)
    (hm : ∀ i c, t.mode i = .asleep c → s.mode i = .asleep c) : Inv type t := by
  constructor
  · rw [hsh, h.active]
    exact (count_congr fun i => by rw [hloc]).symm
  · intro i hi
    rw [hloc] at hi
    rw [hsh]
    exact h.job i hi
  · rw [hsh]
    exact h.empty
  · intro i hi
    rw [hloc] at hi
    rw [hsh]
    exact h.gate i hi
  · intro i c hi
    rw [hsh, hloc]
    exact h.sleeper i c (hm i c hi)

/-- A step that leaves the variables alone and does not lead in or out of the house. -/
theorem Inv.move [DecidableEq τ] {t : State τ} {n : Loc} (h : Inv type s) (hsh : t.shared = s.shared) (hloc : t.loc = (s.goto i n).loc)
    (hm : ∀ i c, t.mode i = .asleep c → s.mode i = .asleep c) (hn : inHouse n = inHouse (s.loc i))
    (hg : n = .sleep → s.shared.active_count ≠ 0) (ha : s.loc i ≠ .announce) : Inv type t := by
  constructor
  · rw [hsh, h.active]
    exact (count_same hloc hn).symm
  · intro j hj
    rw [hloc, St.goto_loc_apply] at hj
    rw [hsh]
    split_ifs at hj with hji
    · rw [hji]
      exact h.job i (hn ▸ hj)
    · exact h.job j hj
  · rw [hsh]
    exact h.empty
  · intro j hj
    rw [hloc, St.goto_loc_apply] at hj
    rw [hsh]
    split_ifs at hj with hji
    · exact hg hj
    · exact h.gate j hj
  · intro j c hj
    rw [hsh, hloc]
    rcases h.sleeper j c (hm j c hj) with hc | ⟨k, hk⟩
    · exact .inl hc
    · right
      refine ⟨k, ?_⟩
      rw [St.goto_loc_of_ne s n, hk]
      rintro rfl
      exact ha hk

/-- A worker enters the house. -/
theorem Inv.enter [DecidableEq τ] (h : Inv type s) (hl : s.loc i = .test)
    (hg : ¬ (type i ≠ s.shared.active_job ∧ s.shared.active_count ≠ 0)) :
    Inv type (s.assign i .entered ⟨type i, s.shared.active_count + 1⟩) := by
  have hnn := count_nonneg (fun _ => inHouse) s
  have hc := count_enter (p := fun _ => inHouse) (t := s.assign i .entered ⟨type i, s.shared.active_count + 1⟩)
    (s := s) rfl (by rw [hl]; rfl) rfl
  rw [← h.active] at hnn hc
  have hpos : s.shared.active_count + 1 ≠ 0 := by omega
  constructor
  · exact hc.symm
  · intro j hj
    show type i = type j
    rw [St.assign_loc, St.goto_loc_apply] at hj
    split_ifs at hj with hji
    · rw [hji]
    · -- somebody is in the house already, so its kind is the one that the test saw
      have hj1 := h.job j hj
      have hpos' := count_pos (s := s) (p := fun _ => inHouse) hj
      rw [← h.active] at hpos'
      by_contra hne
      refine hg ⟨?_, by omega⟩
      rw [hj1]
      exact hne
  · intro h0
    exact absurd h0 hpos
  · intro j hj
    exact hpos
  · intro j c hj
    exact .inl hpos

/-- The last worker leaves the house. -/
theorem Inv.leave_last [DecidableEq τ] (h : Inv type s) (hl : s.loc i = .finish) (h0 : s.shared.active_count - 1 = 0)
    (hns : ∀ j, s.loc j ≠ .sleep) : Inv type (s.assign i .announce ⟨0, s.shared.active_count - 1⟩) := by
  have hc := count_leave (p := fun _ => inHouse) (t := s.assign i .announce ⟨0, s.shared.active_count - 1⟩)
    (s := s) rfl (by rw [hl]; rfl) rfl
  rw [← h.active] at hc
  constructor
  · exact hc.symm
  · intro j hj
    have hj' := count_eq_zero.mp (hc.trans h0) j
    rw [hj'] at hj
    cases hj
  · intro _
    rfl
  · intro j hj
    rw [St.assign_loc, St.goto_loc_apply] at hj
    split_ifs at hj
    exact absurd hj (hns j)
  · intro j c hj
    right
    exact ⟨i, St.goto_loc_self s i .announce⟩

/-- A worker leaves, and others stay. -/
theorem Inv.leave_others [DecidableEq τ] (h : Inv type s) (hl : s.loc i = .finish) (h0 : s.shared.active_count - 1 ≠ 0) :
    Inv type (s.assign i .leave ⟨s.shared.active_job, s.shared.active_count - 1⟩) := by
  have hc := count_leave (p := fun _ => inHouse)
    (t := s.assign i .leave ⟨s.shared.active_job, s.shared.active_count - 1⟩) (s := s) rfl (by rw [hl]; rfl) rfl
  rw [← h.active] at hc
  constructor
  · exact hc.symm
  · intro j hj
    rw [St.assign_loc, St.goto_loc_apply] at hj
    split_ifs at hj with hji
    · cases hj
    · exact h.job j hj
  · intro h1
    exact absurd h1 h0
  · intro j hj
    exact h0
  · intro j c hj
    exact .inl h0

/-- **Step lemma.** -/
theorem Inv.step [DecidableEq τ] (h : Inv type s)
    (hmx : MutexInv (fun i => worker (type i)) inside s) (hm : s.mode i = .awake)
    (he : Effect s i (worker (type i) (s.loc i)) s') : Inv type s' := by
  cases hl : s.loc i with
  | start =>
    rw [hl] at he
    obtain ⟨-, rfl⟩ := he
    exact h.move rfl rfl (fun _ _ hj => hj) (by rw [hl]; rfl) (fun hn => by cases hn) (by simp [hl])
  | test =>
    rw [hl] at he
    obtain rfl := he
    by_cases hg : type i ≠ s.shared.active_job ∧ s.shared.active_count ≠ 0
    · simp only [if_pos hg]
      exact h.move rfl rfl (fun _ _ hj => hj) (by rw [hl]; rfl) (fun _ => hg.2) (by simp [hl])
    · simp only [if_neg hg]
      exact h.enter hl hg
  | sleep =>
    rw [hl] at he
    obtain ⟨-, rfl⟩ := he
    have hg := h.gate i hl
    have hmove : Inv type (s.goto i .test) :=
      h.move rfl rfl (fun _ _ hj => hj) (by rw [hl]; rfl) (fun hn => by cases hn) (by simp [hl])
    exact ⟨hmove.active, hmove.job, hmove.empty, hmove.gate, fun _ _ _ => .inl hg⟩
  | entered =>
    rw [hl] at he
    obtain ⟨-, rfl⟩ := he
    exact h.move rfl rfl (fun _ _ hj => hj) (by rw [hl]; rfl) (fun hn => by cases hn) (by simp [hl])
  | working =>
    rw [hl] at he
    obtain ⟨-, rfl⟩ := he
    exact h.move rfl rfl (fun _ _ hj => hj) (by rw [hl]; rfl) (fun hn => by cases hn) (by simp [hl])
  | finish =>
    rw [hl] at he
    obtain rfl := he
    by_cases h0 : s.shared.active_count - 1 = 0
    · simp only [if_pos h0]
      refine h.leave_last hl h0 fun j hj => ?_
      -- who is about to sleep would hold the mutex
      have hji : j = i := by
        refine hmx.alone hm (by rw [hl]; rfl) (by rw [hj]; rfl) fun c l hw => ?_
        have := worker_wait hw
        rw [hj] at this
        cases this
      rw [hji, hl] at hj
      cases hj
    · simp only [if_neg h0]
      exact h.leave_others hl h0
  | announce =>
    rw [hl] at he
    obtain rfl := he
    have hnone : ∀ j c, ((s.wakeAll ()).goto i .leave).mode j ≠ .asleep c := by
      intro j c hj
      rw [St.goto_mode, St.wakeAll_mode] at hj
      split_ifs at hj with hj'
      exact hj' hj
    have hmove : count (fun _ => inHouse) ((s.wakeAll ()).goto i .leave) = count (fun _ => inHouse) s :=
      count_same (i := i) (n := .leave) rfl (by rw [hl]; rfl)
    refine ⟨by rw [hmove]; exact h.active, fun j hj => ?_, h.empty, fun j hj => ?_, fun j c hj => absurd hj (hnone j c)⟩
    · rw [St.goto_loc_apply] at hj
      split_ifs at hj with hji
      · cases hj
      · exact h.job j hj
    · rw [St.goto_loc_apply] at hj
      split_ifs at hj
      exact h.gate j hj
  | leave =>
    rw [hl] at he
    obtain ⟨-, rfl⟩ := he
    exact h.move rfl rfl (fun _ _ hj => hj) (by rw [hl]; rfl) (fun hn => by cases hn) (by simp [hl])
  | done =>
    rw [hl] at he
    cases he

/-- **Run lemma.** -/
theorem reachable_inv [DecidableEq τ] {kind : τ → Job}
    (h : Reachable (threeJobs kind) always ⟨0, 0⟩ (fun _ => .start) s) :
    MutexInv (fun i => worker (kind i).type) inside s ∧ Inv (fun i => (kind i).type) s := by
  have hP : threeJobs kind = fun i => worker (kind i).type := funext (threeJobs_eq kind)
  rw [hP] at h
  have hty : ∀ i l, Typed inside (worker (kind i).type l) l := fun i l => worker_typed _ l
  refine h.program_inv hty (fun _ => rfl) initial_inv ?_ ?_
  · intro s t hI hsh hloc hm
    exact hI.wake hsh hloc hm
  · intro s a i s' hI hmx _ _ hm he
    exact hI.step hmx hm he

/-- Nobody is left sleeping. -/
theorem Inv.no_deadlock (h : Inv type s) (hmx : MutexInv (fun i => worker (type i)) inside s) :
    ¬ Deadlock (fun i => worker (type i)) s := by
  rintro ⟨⟨i, hi⟩, ha⟩
  -- only a thread at the test can sleep
  have hawake : ∀ j, s.loc j ≠ .done → s.loc j ≠ .test → False := by
    intro j hj hjt
    refine ha.elim hmx (i := j) (worker_isHalt hj) fun c l hw => hjt (worker_wait hw)
  obtain ⟨c, hc⟩ := Mode.isAsleep_iff.mp (ha i hi)
  rcases h.sleeper i c hc with hne | ⟨j, hj⟩
  · have hnn := count_nonneg (fun _ => inHouse) s
    rw [h.active] at hne
    obtain ⟨j, hj⟩ := exists_of_count_pos (s := s) (p := fun _ => inHouse) (by omega)
    apply hawake j
    · intro hl
      rw [hl] at hj
      cases hj
    · intro hl
      rw [hl] at hj
      cases hj
  · apply hawake j
    · simp [hj]
    · simp [hj]

/-- **One kind of work at a time.**  In every reachable state the workers between their start and finish sections are of one
kind, `active_count` is their number, `active_job` is their kind while there are any and `0` otherwise, and it never happens
that somebody has not finished while everybody who has not finished sleeps. -/
theorem house_of_one_kind [DecidableEq τ] (kind : τ → Job) (s : State τ)
    (h : Reachable (threeJobs kind) always ⟨0, 0⟩ (fun _ => .start) s) :
    (∀ i j, inHouse (s.loc i) = true → inHouse (s.loc j) = true → kind i = kind j) ∧
      s.shared.active_count = count (fun _ => inHouse) s ∧
      (0 < s.shared.active_count → ∀ i, inHouse (s.loc i) = true → s.shared.active_job = (kind i).type) ∧
      (¬ 0 < s.shared.active_count → s.shared.active_job = 0) ∧
      ¬ Deadlock (threeJobs kind) s := by
  obtain ⟨hmx, hI⟩ := reachable_inv h
  have hnn := count_nonneg (fun _ => inHouse) s
  refine ⟨fun i j hi hj => ?_, hI.active, fun _ i hi => hI.job i hi, fun h0 => hI.empty ?_, ?_⟩
  · have heq : (kind i).type = (kind j).type := (hI.job i hi).symm.trans (hI.job j hj)
    cases hki : kind i <;> cases hkj : kind j <;> rw [hki, hkj] at heq <;> first | rfl | cases heq
  · have := hI.active
    omega
  · have hP : threeJobs kind = fun i => worker (kind i).type := funext (threeJobs_eq kind)
    rw [hP]
    exact hI.no_deadlock hmx

/-- A carpenter and a painter: the painter sleeps while the carpenter works, and is woken. -/
def carpenterThenPainter : Bool → Job
  | false => .carpenter
  | true => .painter

theorem house_of_one_kind_run : ∃ s : State Bool,
    Reachable (threeJobs carpenterThenPainter) always ⟨0, 0⟩ (fun _ => .start) s ∧
      s.mode true = .asleep () ∧ s.loc false = .working ∧ s.shared.active_count = count (fun _ => inHouse) s ∧
      ¬ Deadlock (threeJobs carpenterThenPainter) s := by
  obtain ⟨s, hr, hm, hl⟩ := exists_reachable (P := threeJobs carpenterThenPainter) always ⟨0, 0⟩ (fun _ => .start)
    [.exec false, .exec false, .exec false, .exec true, .exec true, .exec true]
    (fun s => s.mode true = .asleep () ∧ s.loc false = .working) (by decide +kernel)
  obtain ⟨-, hc, -, -, hd⟩ := house_of_one_kind carpenterThenPainter s hr
  exact ⟨s, hr, hm, hl, hc, hd⟩

end

end OsLabs.CondvarChallenge.ThreeJobs
