import OsLabs.Monitor

/-!
# OsLabs.Exam2.Problem2 — three types of threads and directed broadcasts

`problem2.c`: threads of one type may be in the critical section together.  The last one out wakes the sleepers of one other type, chosen
from the counters `waitingA`, `waitingB` and `waitingC`.  A thread adds itself to its counter before it takes the mutex, so that
update is a read and a write with steps of others in between; the one on entering is taken apart in the same way.  `nowtype` and
`activity` are read and written with the mutex held only.

* `threadBody`: the body that `threadA`, `threadB` and `threadC` share.
* `one_type_inside`: exclusion, in every reachable state.
* `Undisturbed`: no update of a counter is lost.  `undisturbed_no_deadlock`: then nobody is left sleeping.
* `lost_update_deadlock`: two threads that add themselves at the same time can leave one of them asleep for good.
-/

namespace OsLabs.Exam2.Problem2

open Lts Monitor

inductive Kind
  | A | B | C
deriving DecidableEq

/-- The value of `type` in each body. -/
def Kind.type : Kind → ℤ
  | .A => 1
  | .B => 2
  | .C => 3

structure Shared where
  nowtype : ℤ
  activity : ℤ
  /-- `waitingA`, `waitingB`, `waitingC` -/
  waiting : Kind → ℤ

/-- The places of a thread.  `add` and `enter` carry the value that was read from the counter. -/
inductive Loc
  | start | add (read : ℤ) | arrived | test | sleep | enter (read : ℤ) | entered | hanging | finish | announce (whom : Kind)
  | leave | done
deriving DecidableEq

/-- The body of a thread of kind `k`; on leaving it looks at the counter of `first`, then wakes `first` or `second`. -/
def threadBody (k first second : Kind) : Loc → Instr Shared Kind Loc
  | .start => .run fun x => (x, .add (x.waiting k))
  | .add v => .run fun x => ({ x with waiting := Function.update x.waiting k (v + 1) }, .arrived)
  | .arrived => .lock .test
  | .test => .run fun x =>
    if x.nowtype ≠ k.type ∧ x.nowtype ≠ 0 then (x, .sleep) else (x, .enter (x.waiting k))
  | .sleep => .wait k .test
  | .enter v => .run fun x => (⟨k.type, x.activity + 1, Function.update x.waiting k (v - 1)⟩, .entered)
  | .entered => .unlock .hanging
  | .hanging => .lock .finish
  | .finish => .run fun x =>
    if x.activity - 1 = 0 then
      (⟨0, x.activity - 1, x.waiting⟩, if x.waiting first > 0 then .announce first else .announce second)
    else ({ x with activity := x.activity - 1 }, .leave)
  | .announce c => .broadcast c .leave
  | .leave => .unlock .done
  | .done => .halt

def threadA : Loc → Instr Shared Kind Loc := threadBody .A .B .C

def threadB : Loc → Instr Shared Kind Loc := threadBody .B .A .C

def threadC : Loc → Instr Shared Kind Loc := threadBody .C .A .B

/-- Any number of threads of each type. -/
def problem2 {τ : Type} (kind : τ → Kind) (i : τ) : Loc → Instr Shared Kind Loc :=
  match kind i with
  | .A => threadA
  | .B => threadB
  | .C => threadC

def start : Shared := ⟨0, 0, fun _ => 0⟩

abbrev State (τ : Type) := St τ Shared Kind Loc

/-- Inside the critical section. -/
def inSection : Loc → Bool
  | .entered | .hanging | .finish => true
  | _ => false

/-- In the counter: added, and not yet in the critical section. -/
def registered : Loc → Bool
  | .arrived | .test | .sleep | .enter _ => true
  | _ => false

def inside : Loc → Bool
  | .start | .add _ | .arrived | .hanging | .done => false
  | _ => true

/-- Whom a thread of each kind looks at first on leaving, and whom else it wakes. -/
def Kind.first : Kind → Kind
  | .A => .B
  | .B => .A
  | .C => .A

def Kind.second : Kind → Kind
  | .A => .C
  | .B => .C
  | .C => .B

theorem problem2_eq {τ : Type} (kind : τ → Kind) (i : τ) :
    problem2 kind i = threadBody (kind i) (kind i).first (kind i).second := by
  unfold problem2
  cases kind i <;> rfl

theorem Kind.type_ne_zero (k : Kind) : k.type ≠ 0 := by
  cases k <;> decide

theorem Kind.type_inj {k m : Kind} (h : k.type = m.type) : k = m := by
  cases k <;> cases m <;> first | rfl | cases h

/-- The two others are all others. -/
theorem Kind.other {k m : Kind} (h : m ≠ k) : m = k.first ∨ m = k.second := by
  cases k <;> cases m <;> first | exact absurd rfl h | exact .inl rfl | exact .inr rfl

theorem threadBody_typed (k a b : Kind) (l : Loc) : Typed inside (threadBody k a b l) l := by
  cases l with
  | test =>
    intro x
    dsimp only
    split_ifs <;> rfl
  | finish =>
    intro x
    dsimp only
    split_ifs <;> rfl
  | start | add v | enter v =>
    intro x
    rfl
  | arrived | sleep | entered | hanging | announce c | leave => exact ⟨rfl, rfl⟩
  | done => rfl

/-- A thread waits on the condition variable of its own type, and goes on with the test. -/
theorem threadBody_wait {k a b c : Kind} {l n : Loc} (h : threadBody k a b l = .wait c n) : c = k ∧ n = .test := by
  cases l with
  | sleep =>
    obtain ⟨rfl, rfl⟩ := Instr.wait.inj h
    exact ⟨rfl, rfl⟩
  | _ => cases h

theorem threadBody_isHalt {k a b : Kind} {l : Loc} (h : l ≠ .done) : (threadBody k a b l).isHalt = false := by
  cases l with
  | done => exact absurd rfl h
  | _ => rfl

/-! ## Exclusion -/

section

variable {τ : Type} {kind : τ → Kind} {s s' t : State τ} {i j : τ}

/-- The program as one body with parameters. -/
def bodies (kind : τ → Kind) (i : τ) : Loc → Instr Shared Kind Loc := threadBody (kind i) (kind i).first (kind i).second

theorem bodies_typed (i : τ) (l : Loc) : Typed inside (bodies kind i l) l := threadBody_typed _ _ _ l

/-- While `i` runs inside, nobody else is inside but at the test. -/
theorem alone (hmx : MutexInv (bodies kind) inside s) (hm : s.mode i = .awake) (hl : inside (s.loc i) = true)
    (hj : inside (s.loc j) = true) (hw : s.loc j ≠ .test) : j = i :=
  hmx.alone hm hl hj fun _ _ hc => hw (threadBody_wait hc).2

variable [Fintype τ]

/-- The threads in the critical section are counted and are of the type that is written down. -/
structure Excl (kind : τ → Kind) (s : State τ) : Prop where
  active : s.shared.activity = count (fun _ => inSection) s
  now : ∀ i, inSection (s.loc i) = true → s.shared.nowtype = (kind i).type
  empty : s.shared.activity = 0 → s.shared.nowtype = 0
  /-- Whoever has passed the test finds the section empty or of its own type. -/
  passed : ∀ i v, s.loc i = .enter v → s.shared.nowtype = (kind i).type ∨ s.shared.nowtype = 0

theorem initial_excl : Excl kind (initial start fun _ => .start : State τ) := by
  constructor
  · exact (count_eq_zero.mpr fun i => rfl).symm
  · intro i hi
    cases hi
  · intro h
    rfl
  · intro i v hi
    cases hi

theorem Excl.wake (h : Excl kind s) (hsh : t.shared = s.shared) (hloc : t.loc = s.loc) : Excl kind t := by
  have hc : count (fun _ => inSection) t = count (fun _ => inSection) s := count_congr fun i => by rw [hloc]
  refine ⟨by rw [hsh, hc]; exact h.active, ?_, by rw [hsh]; exact h.empty, ?_⟩
  · rw [hloc, hsh]
    exact h.now
  · rw [hloc, hsh]
    exact h.passed

variable [DecidableEq τ]

/-- A step that leaves `nowtype` and `activity` alone and does not lead in or out of the section. -/
theorem Excl.move {n : Loc} (h : Excl kind s) (hnow : t.shared.nowtype = s.shared.nowtype)
    (hact : t.shared.activity = s.shared.activity) (hloc : t.loc = (s.goto i n).loc)
    (hn : inSection n = inSection (s.loc i))
    (hp : ∀ v, n = .enter v → s.shared.nowtype = (kind i).type ∨ s.shared.nowtype = 0) : Excl kind t := by
  constructor
  · rw [hact, h.active]
    exact (count_same hloc hn).symm
  · intro j hj
    rw [hloc, St.goto_loc_apply] at hj
    rw [hnow]
    split_ifs at hj with hji
    · rw [hji]
      exact h.now i (hn ▸ hj)
    · exact h.now j hj
  · rw [hnow, hact]
    exact h.empty
  · intro j v hj
    rw [hloc, St.goto_loc_apply] at hj
    rw [hnow]
    split_ifs at hj with hji
    · rw [hji]
      exact hp v hj
    · exact h.passed j v hj

/-- A thread enters the section. -/
theorem Excl.enter {v : ℤ} {w : Kind → ℤ} (h : Excl kind s) (hl : s.loc i = .enter v)
    (halone : ∀ j v, s.loc j = .enter v → j = i) :
    Excl kind (s.assign i .entered ⟨(kind i).type, s.shared.activity + 1, w⟩) := by
  have hnn := count_nonneg (fun _ => inSection) s
  have hc := count_enter (p := fun _ => inSection) (t := s.assign i .entered ⟨(kind i).type, s.shared.activity + 1, w⟩)
    (s := s) rfl (by rw [hl]; rfl) rfl
  rw [← h.active] at hnn hc
  constructor
  · exact hc.symm
  · intro j hj
    show (kind i).type = (kind j).type
    rw [St.assign_loc, St.goto_loc_apply] at hj
    split_ifs at hj with hji
    · rw [hji]
    · have hj1 := h.now j hj
      rcases h.passed i v hl with hp | hp
      · rw [← hp, hj1]
      · rw [hp] at hj1
        exact absurd hj1.symm (kind j).type_ne_zero
  · intro h0
    have h0 : s.shared.activity + 1 = 0 := h0
    omega
  · intro j v' hj
    rw [St.assign_loc, St.goto_loc_apply] at hj
    split_ifs at hj with hji
    exact absurd (halone j v' hj) hji

/-- The last thread leaves the section. -/
theorem Excl.leave_last {n : Loc} (h : Excl kind s) (hl : s.loc i = .finish) (h0 : s.shared.activity - 1 = 0)
    (hn : ∃ c, n = .announce c) : Excl kind (s.assign i n ⟨0, s.shared.activity - 1, s.shared.waiting⟩) := by
  obtain ⟨c, rfl⟩ := hn
  have hc := count_leave (p := fun _ => inSection)
    (t := s.assign i (.announce c) ⟨0, s.shared.activity - 1, s.shared.waiting⟩) (s := s) rfl (by rw [hl]; rfl) rfl
  rw [← h.active] at hc
  constructor
  · exact hc.symm
  · intro j hj
    have hj' := count_eq_zero.mp (hc.trans h0) j
    rw [hj'] at hj
    cases hj
  · intro _
    rfl
  · intro j v hj
    exact .inr rfl

/-- A thread leaves the section, and others stay. -/
theorem Excl.leave_others (h : Excl kind s) (hl : s.loc i = .finish) (h0 : s.shared.activity - 1 ≠ 0) :
    Excl kind (s.assign i .leave { s.shared with activity := s.shared.activity - 1 }) := by
  have hc := count_leave (p := fun _ => inSection)
    (t := s.assign i .leave { s.shared with activity := s.shared.activity - 1 }) (s := s) rfl (by rw [hl]; rfl) rfl
  rw [← h.active] at hc
  constructor
  · exact hc.symm
  · intro j hj
    rw [St.assign_loc, St.goto_loc_apply] at hj
    split_ifs at hj with hji
    · cases hj
    · exact h.now j hj
  · intro h1
    exact absurd h1 h0
  · intro j v hj
    rw [St.assign_loc, St.goto_loc_apply] at hj
    split_ifs at hj
    exact h.passed j v hj

/-- **Step lemma.** -/
theorem Excl.step (h : Excl kind s) (hmx : MutexInv (bodies kind) inside s) (hm : s.mode i = .awake)
    (he : Effect s i (bodies kind i (s.loc i)) s') : Excl kind s' := by
  cases hl : s.loc i with
  | start =>
    rw [hl] at he
    obtain rfl := he
    exact h.move rfl rfl rfl (by rw [hl]; rfl) (by simp)
  | add v =>
    rw [hl] at he
    obtain rfl := he
    exact h.move rfl rfl rfl (by rw [hl]; rfl) (by simp)
  | arrived =>
    rw [hl] at he
    obtain ⟨-, rfl⟩ := he
    exact h.move rfl rfl rfl (by rw [hl]; rfl) (by simp)
  | test =>
    rw [hl] at he
    obtain rfl := he
    by_cases hg : s.shared.nowtype ≠ (kind i).type ∧ s.shared.nowtype ≠ 0
    · simp only [if_pos hg]
      exact h.move rfl rfl rfl (by rw [hl]; rfl) (by simp)
    · simp only [if_neg hg]
      refine h.move rfl rfl rfl (by rw [hl]; rfl) fun v _ => ?_
      tauto
  | sleep =>
    rw [hl] at he
    obtain ⟨-, rfl⟩ := he
    exact h.move (i := i) (n := .test) rfl rfl rfl (by rw [hl]; rfl) (by simp)
  | enter v =>
    rw [hl] at he
    obtain rfl := he
    refine h.enter hl fun j v' hj => ?_
    exact alone hmx hm (by rw [hl]; rfl) (by rw [hj]; rfl) (by simp [hj])
  | entered =>
    rw [hl] at he
    obtain ⟨-, rfl⟩ := he
    exact h.move rfl rfl rfl (by rw [hl]; rfl) (by simp)
  | hanging =>
    rw [hl] at he
    obtain ⟨-, rfl⟩ := he
    exact h.move rfl rfl rfl (by rw [hl]; rfl) (by simp)
  | finish =>
    rw [hl] at he
    obtain rfl := he
    by_cases h0 : s.shared.activity - 1 = 0
    · simp only [if_pos h0]
      refine h.leave_last hl h0 ?_
      split_ifs
      · exact ⟨_, rfl⟩
      · exact ⟨_, rfl⟩
    · simp only [if_neg h0]
      exact h.leave_others hl h0
  | announce c =>
    rw [hl] at he
    obtain rfl := he
    exact h.move (i := i) (n := .leave) rfl rfl rfl (by rw [hl]; rfl) (by simp)
  | leave =>
    rw [hl] at he
    obtain ⟨-, rfl⟩ := he
    exact h.move rfl rfl rfl (by rw [hl]; rfl) (by simp)
  | done =>
    rw [hl] at he
    cases he

/-- **Run lemma.** -/
theorem reachable_excl {ok : State τ → Act τ → Prop} (h : Reachable (bodies kind) ok start (fun _ => .start) s) :
    MutexInv (bodies kind) inside s ∧ Excl kind s := by
  refine h.program_inv bodies_typed (fun _ => rfl) initial_excl ?_ ?_
  · intro s t hI hsh hloc _
    exact hI.wake hsh hloc
  · intro s a i s' hI hmx _ _ hm he
    exact hI.step hmx hm he

/-- **One type at a time.**  In every reachable state the threads inside the critical section are of one type, `activity` is
their number, and `nowtype` is their type while there are any and `0` otherwise. -/
theorem one_type_inside (kind : τ → Kind) (s : State τ)
    (h : Reachable (problem2 kind) always start (fun _ => .start) s) :
    (∀ i j, inSection (s.loc i) = true → inSection (s.loc j) = true → kind i = kind j) ∧
      s.shared.activity = count (fun _ => inSection) s ∧
      (0 < s.shared.activity → ∀ i, inSection (s.loc i) = true → s.shared.nowtype = (kind i).type) ∧
      (s.shared.activity = 0 → s.shared.nowtype = 0) := by
  have hP : problem2 kind = bodies kind := funext (problem2_eq kind)
  rw [hP] at h
  obtain ⟨-, hI⟩ := reachable_excl h
  refine ⟨fun i j hi hj => ?_, hI.active, fun _ i hi => hI.now i hi, hI.empty⟩
  exact Kind.type_inj ((hI.now i hi).symm.trans (hI.now j hj))

/-- An `A` is inside while a `B` sleeps. -/
theorem one_type_inside_run : ∃ s : State Bool,
    Reachable (problem2 fun b => if b then .B else .A) always start (fun _ => .start) s ∧
      s.mode true = .asleep .B ∧ s.loc false = .hanging ∧ s.shared.activity = count (fun _ => inSection) s := by
  obtain ⟨s, hr, hm, hl⟩ := exists_reachable (P := problem2 fun b => if b then .B else .A) always start (fun _ => .start)
    [.exec false, .exec true, .exec true, .exec false, .exec false, .exec false, .exec false, .exec false, .exec true, .exec true,
      .exec true]
    (fun s => s.mode true = .asleep .B ∧ s.loc false = .hanging) (by decide +kernel)
  obtain ⟨-, hc, -, -⟩ := one_type_inside _ s hr
  exact ⟨s, hr, hm, hl, hc⟩

end

/-! ## Progress -/

/-- What the thread has read of its counter and is about to write back. -/
def Loc.read : Loc → Option ℤ
  | .add v | .enter v => some v
  | _ => none

/-- **No lost update.**  A thread that writes its counter finds there what it has read. -/
def Undisturbed {τ : Type} (kind : τ → Kind) (s : State τ) : Act τ → Prop
  | .exec i | .signal i _ => (s.loc i).read.all (fun v => decide (s.shared.waiting (kind i) = v)) = true
  | .spurious _ | .relock _ => True

instance {τ : Type} (kind : τ → Kind) (s : State τ) (a : Act τ) : Decidable (Undisturbed kind s a) :=
  match a with
  | .exec _ => inferInstanceAs (Decidable (_ = true))
  | .signal _ _ => inferInstanceAs (Decidable (_ = true))
  | .spurious _ => .isTrue trivial
  | .relock _ => .isTrue trivial

section

variable {τ : Type} [Fintype τ] {kind : τ → Kind} {s s' t : State τ} {i j : τ}

/-- The counters are right; and an empty section is not left to sleepers. -/
structure Progress (kind : τ → Kind) (s : State τ) : Prop where
  waiting : ∀ k, s.shared.waiting k = countOf kind k registered s
  gate : ∀ i, s.loc i = .sleep → s.shared.nowtype ≠ 0 ∧ s.shared.nowtype ≠ (kind i).type
  /-- Who sleeps although it might come in will be woken now, or somebody of another type waits too. -/
  other : ∀ i c, s.mode i = .asleep c → s.shared.nowtype = 0 ∨ s.shared.nowtype = (kind i).type →
    (∃ j, s.loc j = .announce (kind i)) ∨ ∃ j, registered (s.loc j) = true ∧ kind j ≠ kind i
  /-- With an empty section and somebody registered, somebody registered is awake or about to be woken. -/
  next : s.shared.nowtype = 0 → (∃ i, registered (s.loc i) = true) →
    (∃ i, registered (s.loc i) = true ∧ (s.mode i).isAsleep = false) ∨
      ∃ i j, s.loc i = .announce (kind j) ∧ registered (s.loc j) = true

theorem initial_progress : Progress kind (initial start fun _ => .start : State τ) := by
  constructor
  · intro k
    exact (countOf_eq_zero fun i => rfl).symm
  · intro i hi
    cases hi
  · intro i c hi
    cases hi
  · rintro - ⟨i, hi⟩
    cases hi

theorem Progress.wake (h : Progress kind s) (hsh : t.shared = s.shared) (hloc : t.loc = s.loc)
    (hm : ∀ i c, t.mode i = .asleep c → s.mode i = .asleep c) : Progress kind t := by
  constructor
  · intro k
    rw [hsh, h.waiting k]
    exact (countOf_congr fun i => by rw [hloc]).symm
  · rw [hloc, hsh]
    exact h.gate
  · intro i c hi
    rw [hloc, hsh]
    exact h.other i c (hm i c hi)
  · intro h0 hex
    rw [hsh] at h0
    rw [hloc] at hex
    rw [hloc]
    rcases h.next h0 hex with ⟨i, hi, hi'⟩ | hann
    · refine .inl ⟨i, hi, ?_⟩
      exact Mode.isAsleep_eq_false.mpr fun c hc => Mode.isAsleep_eq_false.mp hi' c (hm i c hc)
    · exact .inr hann

/-- Somebody registered of kind `k` makes its counter positive. -/
theorem Progress.waiting_pos (h : Progress kind s) (hj : registered (s.loc j) = true) : 0 < s.shared.waiting (kind j) := by
  rw [h.waiting (kind j)]
  exact countOf_pos hj

theorem Progress.exists_of_waiting (h : Progress kind s) {k : Kind} (hk : 0 < s.shared.waiting k) :
    ∃ j, registered (s.loc j) = true ∧ kind j = k := by
  rw [h.waiting k] at hk
  exact exists_of_countOf_pos hk

/-- Nobody is left sleeping. -/
theorem Progress.no_deadlock (h : Progress kind s) (hx : Excl kind s) (hmx : MutexInv (bodies kind) inside s) :
    ¬ Deadlock (bodies kind) s := by
  rintro ⟨⟨i, hi⟩, ha⟩
  -- only a thread at the test can sleep
  have hawake : ∀ j, s.loc j ≠ .done → s.loc j ≠ .test → False := fun j hj hjt =>
    ha.elim hmx (i := j) (threadBody_isHalt hj) fun _ _ hw => hjt (threadBody_wait hw).2
  obtain ⟨c, hc⟩ := Mode.isAsleep_iff.mp (ha i hi)
  have hreg : registered (s.loc i) = true := by
    obtain ⟨l, hw⟩ := hmx.asleep i c hc
    rw [(threadBody_wait hw).2]
    rfl
  by_cases h0 : s.shared.nowtype = 0
  · rcases h.next h0 ⟨i, hreg⟩ with ⟨j, hj, hj'⟩ | ⟨j, k, hj, -⟩
    · have hsl : (s.mode j).isAsleep = true := by
        refine ha j (threadBody_isHalt ?_)
        intro hd
        rw [hd] at hj
        cases hj
      rw [hj'] at hsl
      cases hsl
    · exact hawake j (by simp [hj]) (by simp [hj])
  · have hnn := count_nonneg (fun _ => inSection) s
    have hne : s.shared.activity ≠ 0 := fun hz => h0 (hx.empty hz)
    rw [hx.active] at hne
    obtain ⟨j, hj⟩ := exists_of_count_pos (s := s) (p := fun _ => inSection) (by omega)
    apply hawake j
    · intro hl
      rw [hl] at hj
      cases hj
    · intro hl
      rw [hl] at hj
      cases hj

variable [DecidableEq τ]

/-- A step that leaves the variables alone and does not register or enter. -/
theorem Progress.move {n : Loc} (h : Progress kind s) (hsh : t.shared = s.shared) (hloc : t.loc = (s.goto i n).loc)
    (hm : ∀ i c, t.mode i = .asleep c → s.mode i = .asleep c) (hn : registered n = registered (s.loc i))
    (hg : n = .sleep → s.shared.nowtype ≠ 0 ∧ s.shared.nowtype ≠ (kind i).type) (ha : ∀ c, s.loc i ≠ .announce c) :
    Progress kind t := by
  have hreg : ∀ j, registered (t.loc j) = registered (s.loc j) := by
    intro j
    rw [hloc, St.goto_loc_apply]
    split_ifs with hj
    · rw [hj, hn]
    · rfl
  have hann : ∀ j c, s.loc j = .announce c → t.loc j = .announce c := by
    intro j c hj
    rw [hloc, St.goto_loc_of_ne s n, hj]
    rintro rfl
    exact ha c hj
  constructor
  · intro k
    rw [hsh, h.waiting k]
    exact (countOf_congr hreg).symm
  · intro j hj
    rw [hloc, St.goto_loc_apply] at hj
    rw [hsh]
    split_ifs at hj with hji
    · rw [hji]
      exact hg hj
    · exact h.gate j hj
  · intro j c hj hnow
    rw [hsh] at hnow
    rcases h.other j c (hm j c hj) hnow with ⟨k, hk⟩ | ⟨k, hk, hne⟩
    · exact .inl ⟨k, hann k _ hk⟩
    · exact .inr ⟨k, by rw [hreg k]; exact hk, hne⟩
  · rintro h0 ⟨j, hj⟩
    rw [hsh] at h0
    rw [hreg j] at hj
    rcases h.next h0 ⟨j, hj⟩ with ⟨k, hk, hk'⟩ | ⟨k, l, hk, hkl⟩
    · refine .inl ⟨k, by rw [hreg k]; exact hk, ?_⟩
      exact Mode.isAsleep_eq_false.mpr fun c hc => Mode.isAsleep_eq_false.mp hk' c (hm k c hc)
    · exact .inr ⟨k, l, hann k _ hk, by rw [hreg l]; exact hkl⟩

/-- A thread adds itself to its counter. -/
theorem Progress.add {v : ℤ} (h : Progress kind s) (hm : s.mode i = .awake) (hl : s.loc i = .add v)
    (hv : s.shared.waiting (kind i) = v) :
    Progress kind
      (s.assign i .arrived { s.shared with waiting := Function.update s.shared.waiting (kind i) (v + 1) }) := by
  have hloc : ∀ j, j ≠ i → (s.goto i .arrived).loc j = s.loc j := fun j hj => St.goto_loc_of_ne s _ hj
  have hmono : ∀ j, registered (s.loc j) = true → registered ((s.goto i .arrived).loc j) = true := by
    intro j hj
    rw [St.goto_loc_apply]
    split_ifs
    · rfl
    · exact hj
  have hann : ∀ j c, s.loc j = .announce c → (s.goto i .arrived).loc j = .announce c := by
    intro j c hj
    rw [hloc j, hj]
    rintro rfl
    rw [hl] at hj
    cases hj
  constructor
  · intro k
    show Function.update s.shared.waiting (kind i) (v + 1) k = _
    refine Eq.trans ?_ (countOf_enter (s := s) (i := i) (n := .arrived) (by rfl) (by rw [hl]; rfl) rfl).symm
    rw [← h.waiting, Function.update_apply]
    split_ifs with hk
    · rw [hk, hv]
    · rw [add_zero]
  · intro j hj
    rw [St.assign_loc, St.goto_loc_apply] at hj
    split_ifs at hj
    exact h.gate j hj
  · intro j c hj hnow
    rcases h.other j c hj hnow with ⟨k, hk⟩ | ⟨k, hk, hne⟩
    · exact .inl ⟨k, hann k _ hk⟩
    · exact .inr ⟨k, hmono k hk, hne⟩
  · intro _ _
    -- the thread that has just come is awake
    refine .inl ⟨i, ?_, ?_⟩
    · rw [St.assign_loc, St.goto_loc_self]
      rfl
    · rw [St.assign_mode, hm]
      rfl

/-- A thread enters the section. -/
theorem Progress.enter {v : ℤ} (h : Progress kind s) (hx : Excl kind s) (hl : s.loc i = .enter v)
    (hv : s.shared.waiting (kind i) = v) (hs : ∀ j, s.loc j ≠ .sleep) (ha : ∀ j c, s.loc j ≠ .announce c) :
    Progress kind (s.assign i .entered
      ⟨(kind i).type, s.shared.activity + 1, Function.update s.shared.waiting (kind i) (v - 1)⟩) := by
  constructor
  · intro k
    show Function.update s.shared.waiting (kind i) (v - 1) k = _
    refine Eq.trans ?_ (countOf_leave (s := s) (i := i) (n := .entered) (by rfl) (by rw [hl]; rfl) rfl).symm
    rw [← h.waiting, Function.update_apply]
    split_ifs with hk
    · rw [hk, hv]
    · rw [sub_zero]
  · intro j hj
    rw [St.assign_loc, St.goto_loc_apply] at hj
    split_ifs at hj
    exact absurd hj (hs j)
  · intro j c hj hnow
    have hnow : (kind i).type = 0 ∨ (kind i).type = (kind j).type := hnow
    -- a sleeper of the same type: whoever of another type waits does not enter now
    have hij : kind i = kind j := by
      rcases hnow with h0 | h0
      · exact absurd h0 (kind i).type_ne_zero
      · exact Kind.type_inj h0
    have hold : s.shared.nowtype = 0 ∨ s.shared.nowtype = (kind j).type := by
      rcases hx.passed i v hl with hp | hp
      · exact .inr (hij ▸ hp)
      · exact .inl hp
    rcases h.other j c hj hold with ⟨k, hk⟩ | ⟨k, hk, hne⟩
    · exact absurd hk (ha k _)
    · refine .inr ⟨k, ?_, hne⟩
      have hki : k ≠ i := by
        rintro rfl
        exact hne hij
      rw [St.assign_loc, St.goto_loc_of_ne s _ hki]
      exact hk
  · intro h0
    exact absurd h0 (kind i).type_ne_zero

/-- The last thread leaves the section and chooses whom to wake. -/
theorem Progress.leave_last {c : Kind} (h : Progress kind s) (hmx : MutexInv (bodies kind) inside s) (hx : Excl kind s)
    (hl : s.loc i = .finish)
    (hc : c = if s.shared.waiting (kind i).first > 0 then (kind i).first else (kind i).second)
    (hs : ∀ j, s.loc j ≠ .sleep) (ha : ∀ j c, s.loc j ≠ .announce c) :
    Progress kind (s.assign i (.announce c) ⟨0, s.shared.activity - 1, s.shared.waiting⟩) := by
  have hnow : s.shared.nowtype = (kind i).type := hx.now i (by rw [hl]; rfl)
  have hreg : ∀ j, registered ((s.goto i (.announce c)).loc j) = registered (s.loc j) := by
    intro j
    rw [St.goto_loc_apply]
    split_ifs with hj
    · rw [hj, hl]
      rfl
    · rfl
  have hself : (s.assign i (.announce c) ⟨0, s.shared.activity - 1, s.shared.waiting⟩).loc i = .announce c :=
    St.goto_loc_self s i _
  -- somebody of another type is registered: then somebody of type `c` is
  have hchoice : ∀ j, registered (s.loc j) = true → kind j ≠ kind i → ∃ k, registered (s.loc k) = true ∧ kind k = c := by
    intro j hj hne
    apply h.exists_of_waiting
    have hpos := h.waiting_pos hj
    rw [hc]
    split_ifs with hf
    · exact hf
    · rcases Kind.other hne with hk | hk
      · rw [hk] at hpos
        exact absurd hpos hf
      · rw [← hk]
        exact hpos
  constructor
  · intro k
    show s.shared.waiting k = _
    rw [h.waiting k]
    exact (countOf_congr hreg).symm
  · intro j hj
    rw [St.assign_loc, St.goto_loc_apply] at hj
    split_ifs at hj
    exact absurd hj (hs j)
  · intro j d hj _
    have hj : s.mode j = .asleep d := hj
    have hjreg : registered (s.loc j) = true := by
      obtain ⟨l, hw⟩ := hmx.asleep j d hj
      rw [(threadBody_wait hw).2]
      rfl
    by_cases hji : kind j = kind i
    · rcases h.other j d hj (.inr (hji ▸ hnow)) with ⟨k, hk⟩ | ⟨k, hk, hne⟩
      · exact absurd hk (ha k _)
      · exact .inr ⟨k, by rw [St.assign_loc, hreg k]; exact hk, hne⟩
    · obtain ⟨k, hk, hkc⟩ := hchoice j hjreg hji
      by_cases hjc : kind j = c
      · exact .inl ⟨i, by rw [hself, hjc]⟩
      · exact .inr ⟨k, by rw [St.assign_loc, hreg k]; exact hk, by rw [hkc]; exact Ne.symm hjc⟩
  · rintro - ⟨j, hj⟩
    rw [St.assign_loc, hreg j] at hj
    by_cases hne : ∃ k, registered (s.loc k) = true ∧ kind k ≠ kind i
    · obtain ⟨k, hk, hki⟩ := hne
      obtain ⟨m, hm, hmc⟩ := hchoice k hk hki
      exact .inr ⟨i, m, by rw [hself, hmc], by rw [St.assign_loc, hreg m]; exact hm⟩
    · -- only threads of the type that leaves are registered, and none of them sleeps
      push Not at hne
      refine .inl ⟨j, by rw [St.assign_loc, hreg j]; exact hj, ?_⟩
      refine Mode.isAsleep_eq_false.mpr fun d hd => ?_
      have hji := hne j hj
      rcases h.other j d hd (.inr (hji ▸ hnow)) with ⟨k, hk⟩ | ⟨k, hk, hkne⟩
      · exact ha k _ hk
      · exact hkne ((hne k hk).trans hji.symm)

/-- The leaver wakes the type it has chosen. -/
theorem Progress.announce {c : Kind} (h : Progress kind s) (hmx : MutexInv (bodies kind) inside s)
    (hl : s.loc i = .announce c) (ha : ∀ j d, s.loc j = .announce d → j = i) :
    Progress kind ((s.wakeAll c).goto i .leave) := by
  have hreg : ∀ j, registered (((s.wakeAll c).goto i .leave).loc j) = registered (s.loc j) := by
    intro j
    rw [St.goto_loc_apply]
    split_ifs with hj
    · rw [hj, hl]
      rfl
    · rfl
  have hkind : ∀ j d, s.mode j = .asleep d → d = kind j := by
    intro j d hj
    obtain ⟨l, hw⟩ := hmx.asleep j d hj
    exact (threadBody_wait hw).1
  constructor
  · intro k
    show s.shared.waiting k = _
    rw [h.waiting k]
    exact (countOf_congr hreg).symm
  · intro j hj
    rw [St.goto_loc_apply] at hj
    split_ifs at hj
    exact h.gate j hj
  · intro j d hj hnow
    obtain ⟨hj, hdc⟩ := St.asleep_of_wakeAll hj
    rcases h.other j d hj hnow with ⟨k, hk⟩ | ⟨k, hk, hne⟩
    · have hki := ha k _ hk
      rw [hki, hl] at hk
      refine absurd ?_ hdc
      rw [hkind j d hj]
      exact (Loc.announce.inj hk).symm
    · exact .inr ⟨k, by rw [hreg k]; exact hk, hne⟩
  · rintro h0 ⟨j, hj⟩
    rw [hreg j] at hj
    rcases h.next h0 ⟨j, hj⟩ with ⟨k, hk, hk'⟩ | ⟨k, m, hk, hm⟩
    · refine .inl ⟨k, by rw [hreg k]; exact hk, ?_⟩
      exact Mode.isAsleep_eq_false.mpr fun d hd => Mode.isAsleep_eq_false.mp hk' d (St.asleep_of_wakeAll hd).1
    · refine .inl ⟨m, by rw [hreg m]; exact hm, ?_⟩
      refine Mode.isAsleep_eq_false.mpr fun d hd => ?_
      obtain ⟨hd, hdc⟩ := St.asleep_of_wakeAll hd
      have hki := ha k _ hk
      rw [hki, hl] at hk
      refine hdc ?_
      rw [hkind m d hd]
      exact (Loc.announce.inj hk).symm

/-- **Step lemma.** -/
theorem Progress.step {a : Act τ} (h : Progress kind s) (hx : Excl kind s) (hmx : MutexInv (bodies kind) inside s)
    (hok : Undisturbed kind s a) (ha : a = .exec i ∨ ∃ j, a = .signal i j) (hm : s.mode i = .awake)
    (he : Effect s i (bodies kind i (s.loc i)) s') : Progress kind s' := by
  have hsame : ∀ (i : τ) (c : Kind), s.mode i = .asleep c → s.mode i = .asleep c := fun _ _ hc => hc
  -- while a thread runs inside, no other is about to sleep or to announce
  have hsleep : inside (s.loc i) = true → s.loc i ≠ .sleep → ∀ j, s.loc j ≠ .sleep := by
    intro hin hne j hj
    have hji : j = i := alone hmx hm hin (by rw [hj]; rfl) (by simp [hj])
    exact hne (hji ▸ hj)
  have hann : inside (s.loc i) = true → ∀ j c, s.loc j = .announce c → j = i := by
    intro hin j c hj
    exact alone hmx hm hin (by rw [hj]; rfl) (by simp [hj])
  cases hl : s.loc i with
  | start =>
    rw [hl] at he
    obtain rfl := he
    exact h.move rfl rfl hsame (by rw [hl]; rfl) (by simp) (by simp [hl])
  | add v =>
    rw [hl] at he
    obtain rfl := he
    refine h.add hm hl ?_
    rcases ha with rfl | ⟨j, rfl⟩
    · simpa [Undisturbed, hl, Loc.read] using hok
    · simpa [Undisturbed, hl, Loc.read] using hok
  | arrived =>
    rw [hl] at he
    obtain ⟨-, rfl⟩ := he
    exact h.move rfl rfl hsame (by rw [hl]; rfl) (by simp) (by simp [hl])
  | test =>
    rw [hl] at he
    obtain rfl := he
    by_cases hg : s.shared.nowtype ≠ (kind i).type ∧ s.shared.nowtype ≠ 0
    · simp only [if_pos hg]
      exact h.move rfl rfl hsame (by rw [hl]; rfl) (fun _ => ⟨hg.2, hg.1⟩) (by simp [hl])
    · simp only [if_neg hg]
      exact h.move rfl rfl hsame (by rw [hl]; rfl) (by simp) (by simp [hl])
  | sleep =>
    rw [hl] at he
    obtain ⟨-, rfl⟩ := he
    obtain ⟨hg0, hg1⟩ := h.gate i hl
    have hmv : Progress kind (s.goto i .test) := h.move rfl rfl hsame (by rw [hl]; rfl) (by simp) (by simp [hl])
    refine ⟨hmv.waiting, hmv.gate, fun j c hj hnow => ?_, fun h0 => absurd h0 hg0⟩
    have hj : ((s.goto i .test).setMode i (.asleep (kind i))).mode j = .asleep c := hj
    rw [St.setMode_mode_apply] at hj
    split_ifs at hj with hji
    · subst hji
      exact absurd hnow (not_or.mpr ⟨hg0, hg1⟩)
    · exact hmv.other j c hj hnow
  | enter v =>
    rw [hl] at he
    obtain rfl := he
    have hin : inside (s.loc i) = true := by rw [hl]; rfl
    refine h.enter hx hl ?_ (hsleep hin (by simp [hl])) fun j c hj => ?_
    · rcases ha with rfl | ⟨j, rfl⟩
      · simpa [Undisturbed, hl, Loc.read] using hok
      · simpa [Undisturbed, hl, Loc.read] using hok
    · have hji := hann hin j c hj
      rw [hji, hl] at hj
      cases hj
  | entered =>
    rw [hl] at he
    obtain ⟨-, rfl⟩ := he
    exact h.move rfl rfl hsame (by rw [hl]; rfl) (by simp) (by simp [hl])
  | hanging =>
    rw [hl] at he
    obtain ⟨-, rfl⟩ := he
    exact h.move rfl rfl hsame (by rw [hl]; rfl) (by simp) (by simp [hl])
  | finish =>
    rw [hl] at he
    obtain rfl := he
    have hin : inside (s.loc i) = true := by rw [hl]; rfl
    by_cases h0 : s.shared.activity - 1 = 0
    · simp only [if_pos h0]
      have hnone : ∀ j c, s.loc j ≠ .announce c := by
        intro j c hj
        have hji := hann hin j c hj
        rw [hji, hl] at hj
        cases hj
      have hif : (if s.shared.waiting (kind i).first > 0 then Loc.announce (kind i).first else .announce (kind i).second) =
          .announce (if s.shared.waiting (kind i).first > 0 then (kind i).first else (kind i).second) := by
        split_ifs <;> rfl
      rw [hif]
      exact h.leave_last hmx hx hl rfl (hsleep hin (by simp [hl])) hnone
    · simp only [if_neg h0]
      have hmv : Progress kind (s.goto i .leave) := h.move rfl rfl hsame (by rw [hl]; rfl) (by simp) (by simp [hl])
      exact ⟨hmv.waiting, hmv.gate, hmv.other, hmv.next⟩
  | announce c =>
    rw [hl] at he
    obtain rfl := he
    exact h.announce hmx hl fun j d hj => hann (by rw [hl]; rfl) j d hj
  | leave =>
    rw [hl] at he
    obtain ⟨-, rfl⟩ := he
    exact h.move rfl rfl hsame (by rw [hl]; rfl) (by simp) (by simp [hl])
  | done =>
    rw [hl] at he
    cases he

/-- **Run lemma.** -/
theorem reachable_progress (h : Reachable (bodies kind) (Undisturbed kind) start (fun _ => .start) s) :
    MutexInv (bodies kind) inside s ∧ Excl kind s ∧ Progress kind s := by
  refine h.program_inv (I := fun s => Excl kind s ∧ Progress kind s) bodies_typed (fun _ => rfl)
    ⟨initial_excl, initial_progress⟩ ?_ ?_
  · rintro s t ⟨hx, hI⟩ hsh hloc hm
    exact ⟨hx.wake hsh hloc, hI.wake hsh hloc hm⟩
  · rintro s a i s' ⟨hx, hI⟩ hmx hok ha hm he
    exact ⟨hx.step hmx hm he, hI.step hx hmx hok ha hm he⟩

/-- **Progress when no update is lost.**  In every run in which each write of `waitingA`, `waitingB` and `waitingC` finds the value
that its thread has read, it never happens that somebody has not finished while everybody who has not finished sleeps. -/
theorem undisturbed_no_deadlock (kind : τ → Kind) (s : State τ)
    (h : Reachable (problem2 kind) (Undisturbed kind) start (fun _ => .start) s) : ¬ Deadlock (problem2 kind) s := by
  have hP : problem2 kind = bodies kind := funext (problem2_eq kind)
  rw [hP] at h ⊢
  obtain ⟨hmx, hx, hI⟩ := reachable_progress h
  exact hI.no_deadlock hx hmx

end

/-- Two `B`s and an `A`. -/
def twoBs : Fin 3 → Kind
  | 0 => .B
  | 1 => .B
  | 2 => .A

/-- A `B` sleeps while an `A` is inside, and no update was lost. -/
theorem undisturbed_no_deadlock_run : ∃ s : State (Fin 3),
    Reachable (problem2 twoBs) (Undisturbed twoBs) start (fun _ => .start) s ∧ s.mode 1 = .asleep .B ∧
      ¬ Deadlock (problem2 twoBs) s := by
  obtain ⟨s, hr, hm⟩ := exists_reachable (P := problem2 twoBs) (Undisturbed twoBs) start (fun _ => .start)
    [.exec 2, .exec 2, .exec 2, .exec 2, .exec 2, .exec 1, .exec 1, .exec 2, .exec 1, .exec 1, .exec 1]
    (fun s => s.mode 1 = .asleep .B) (by decide +kernel)
  exact ⟨s, hr, hm, undisturbed_no_deadlock twoBs s hr⟩

/-- **A lost update.**  Both `B`s read `0` and write `1`; the first enters and leaves; the second sleeps while the `A` is inside, and the
`A` sees `waitingB = 0` on leaving and wakes the `C`s, of which there are none. -/
theorem lost_update_deadlock : ∃ s : State (Fin 3),
    Reachable (problem2 twoBs) always start (fun _ => .start) s ∧ Deadlock (problem2 twoBs) s :=
  exists_reachable (P := problem2 twoBs) always start (fun _ => .start)
    [.exec 0, .exec 1, .exec 0, .exec 1, .exec 0, .exec 0, .exec 0, .exec 0, .exec 0, .exec 0, .exec 0, .exec 0,
      .exec 2, .exec 2, .exec 2, .exec 2, .exec 2, .exec 2, .exec 1, .exec 1, .exec 1, .exec 2, .exec 2, .exec 2, .exec 2]
    (fun s => Deadlock (problem2 twoBs) s) (by decide +kernel)

end OsLabs.Exam2.Problem2
