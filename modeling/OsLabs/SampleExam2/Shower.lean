import OsLabs.Monitor

/-!
# OsLabs.SampleExam2.Shower — one shower

`shower.c`: a thread waits with the mutex until `wash` is 0, gives the mutex back, and only then says that it uses the shower and
increments `wash`.  So `wash++` is a load and a store that other threads come between, and `wash--`, although with the mutex, is one too.

* `thread`: the function, with the loads and stores of `wash` apart.
* `Good`: at most one thread in the shower, and `wash` counts it when the mutex is free.
* `Covered`: the guard, nobody comes between a thread's test of `wash` and the end of its increment.
* `covered_good`: the runs that respect the guard are good.
* `two_in_the_shower`: a run that does not.
-/

namespace OsLabs.SampleExam2.Shower

open Lts Monitor

structure Shared where
  waiting : ℤ
  wash : ℤ

/-- The places; `read`, `write` are the load and the store of `wash++`, `finish`, `dec` those of `wash--`. -/
inductive Loc
  | start | arrive | test | sleep | passed | leave | print | read
  | write (v : ℤ)
  | washing | finishing | finish
  | dec (v : ℤ)
  | signal | exit | done
deriving DecidableEq

def thread : Loc → Instr Shared Unit Loc
  | .start => .lock .arrive
  | .arrive => .run fun x => ({ x with waiting := x.waiting + 1 }, .test)
  | .test => .run fun x => (x, if x.wash > 0 then .sleep else .passed)
  | .sleep => .wait () .test
  | .passed => .run fun x => ({ x with waiting := x.waiting - 1 }, .leave)
  | .leave => .unlock .print
  -- "thread %d is using shower"
  | .print => .run fun x => (x, .read)
  | .read => .run fun x => (x, .write x.wash)
  | .write v => .run fun x => ({ x with wash := v + 1 }, .washing)
  -- `waiting` is looked at without the mutex
  | .washing => .run fun x => (x, if x.waiting = 0 then .washing else .finishing)
  | .finishing => .lock .finish
  -- "thread %d is finished with shower"
  | .finish => .run fun x => (x, .dec x.wash)
  | .dec v => .run fun x => ({ x with wash := v - 1 }, .signal)
  | .signal => .signal () .exit
  | .exit => .unlock .done
  | .done => .halt

def start : Shared := ⟨0, 0⟩

abbrev State (τ : Type) := St τ Shared Unit Loc

/-- Between "is using shower" and "is finished with shower". -/
def inShower : Loc → Bool
  | .read | .write _ | .washing | .finishing | .finish => true
  | _ => false

/-- Said to use the shower, and `wash` not incremented yet. -/
def announced : Loc → Bool
  | .read | .write _ => true
  | _ => false

/-- Behind the test, and `wash` not incremented yet. -/
def entering : Loc → Bool
  | .passed | .leave | .print | .read | .write _ => true
  | _ => false

/-- Counted in `wash`. -/
def counted : Loc → Bool
  | .washing | .finishing | .finish | .dec _ => true
  | _ => false

def holds (l : Loc) : Bool := entering l || counted l

def inside : Loc → Bool
  | .arrive | .test | .sleep | .passed | .leave | .finish | .dec _ | .signal | .exit => true
  | _ => false

theorem thread_typed (l : Loc) : Typed inside (thread l) l := by
  cases l with
  | test | washing =>
    intro x
    dsimp only
    split_ifs <;> rfl
  | arrive | passed | print | read | finish =>
    intro x
    rfl
  | write v | dec v =>
    intro x
    rfl
  | done => rfl
  | start | sleep | leave | finishing | signal | exit => exact ⟨rfl, rfl⟩

/-- A wait ends at the test of the loop around it. -/
theorem thread_wait {c : Unit} {l n : Loc} (h : thread l = .wait c n) : n = .test := by
  cases l with
  | sleep => exact (Instr.wait.inj h).2.symm
  | _ => cases h

section

variable {τ : Type} {s s' t : State τ} {i j : τ}

/-- The condition on a thread that takes the instruction at `l`. -/
def CoveredAt (s : State τ) : Loc → Prop
  | .test => s.shared.wash ≤ 0 → ∀ j, entering (s.loc j) = false
  | .print => s.mutex ≠ none
  | .sleep | .leave | .exit => ∀ j, announced (s.loc j) = false
  | _ => True

/-- **Guard.**  A test that passes finds no other thread between its test and the end of its `wash++`; a thread says that it uses the
shower while the mutex is held; and nobody gives the mutex up before that thread has incremented `wash`. -/
def Covered (s : State τ) : Act τ → Prop
  | .exec i | .signal i _ => CoveredAt s (s.loc i)
  | _ => True

variable [Fintype τ]

instance (s : State τ) (l : Loc) : Decidable (CoveredAt s l) := by
  unfold CoveredAt
  split <;> infer_instance

instance (s : State τ) : (a : Act τ) → Decidable (Covered s a)
  | .exec i => inferInstanceAs (Decidable (CoveredAt s (s.loc i)))
  | .signal i _ => inferInstanceAs (Decidable (CoveredAt s (s.loc i)))
  | .spurious _ => .isTrue trivial
  | .relock _ => .isTrue trivial

/-- What the shower is to keep. -/
structure Good (s : State τ) : Prop where
  one : ∀ i j, inShower (s.loc i) = true → inShower (s.loc j) = true → i = j
  wash : s.mutex = none → s.shared.wash = count (fun _ => inShower) s

/-- **The invariant** of the guarded runs. -/
structure Inv (s : State τ) : Prop where
  one : count (fun _ => holds) s ≤ 1
  wash : s.shared.wash = count (fun _ => counted) s
  write : ∀ i v, s.loc i = .write v ∨ s.loc i = .dec v → v = s.shared.wash
  free : s.mutex = none → ∀ j, announced (s.loc j) = false

theorem initial_inv : Inv (initial start (fun _ => .start) : State τ) := by
  have hzero : ∀ p : Loc → Bool, p .start = false → count (fun _ => p) (initial start (fun _ => .start) : State τ) = 0 :=
    fun p hp => count_eq_zero.mpr fun _ => hp
  refine ⟨?_, (hzero counted rfl).symm, ?_, fun _ _ => rfl⟩
  · rw [hzero holds rfl]
    decide
  · rintro i v (h | h) <;> cases h

/-- The invariant says that the state is good. -/
theorem Inv.good (h : Inv s) (hmx : MutexInv (fun _ => thread) inside s) : Good s := by
  have hsub : ∀ l, inShower l = true → holds l = true := by
    intro l hl
    cases l with
    | read | write _ | washing | finishing | finish => rfl
    | _ => cases hl
  refine ⟨fun i j hi hj => eq_of_count_le_one h.one (hsub _ hi) (hsub _ hj), fun hx => ?_⟩
  rw [h.wash]
  -- with the mutex free nobody is in the middle of an increment or a decrement
  refine le_antisymm (count_le fun i hi => ?_) (count_le fun i hi => ?_)
  · cases hl : s.loc i with
    | washing | finishing | finish => rfl
    | dec v =>
      refine absurd (hmx.awake fun c l hw => ?_) (hmx.free hx (i := i) (by rw [hl]; rfl))
      have := thread_wait hw
      rw [hl] at this
      cases this
    | _ =>
      rw [hl] at hi
      cases hi
  · have hfree := h.free hx i
    cases hl : s.loc i with
    | washing | finishing | finish => rfl
    | read | write v =>
      rw [hl] at hfree
      cases hfree
    | _ =>
      rw [hl] at hi
      cases hi

/-- A thread that is counted as holding the shower is the only one. -/
theorem Inv.alone (h : Inv s) (hi : holds (s.loc i) = true) (hj : j ≠ i) : holds (s.loc j) = false := by
  by_contra hh
  exact hj (eq_of_count_le_one h.one (by simpa using hh) hi)

variable [DecidableEq τ]

/-- A step that leaves `wash` alone and after which its thread is counted as before. -/
theorem Inv.move {n : Loc} (h : Inv s) (hsh : t.shared.wash = s.shared.wash) (hloc : t.loc = (s.goto i n).loc)
    (hh : holds n = holds (s.loc i)) (hc : counted n = counted (s.loc i)) (hn : ∀ v, n = .write v ∨ n = .dec v → v = s.shared.wash)
    (hfree : t.mutex = none → announced n = false ∧ ∀ j, j ≠ i → announced (s.loc j) = false) : Inv t := by
  refine ⟨?_, ?_, fun j v hj => ?_, fun hx j => ?_⟩
  · rw [count_same hloc hh]
    exact h.one
  · rw [hsh, count_same hloc hc]
    exact h.wash
  · rw [hloc, St.goto_loc_apply] at hj
    rw [hsh]
    split_ifs at hj
    · exact hn v hj
    · exact h.write j v hj
  · rw [hloc, St.goto_loc_apply]
    split_ifs with hji
    · exact (hfree hx).1
    · exact (hfree hx).2 j hji

/-- A test passes: nobody is counted in `wash`, and nobody is on the way there. -/
theorem Inv.pass (h : Inv s) (hl : s.loc i = .test) (hw : s.shared.wash ≤ 0) (he : ∀ j, entering (s.loc j) = false) :
    Inv (s.assign i .passed s.shared) := by
  have hloc : (s.assign i .passed s.shared).loc = (s.goto i .passed).loc := rfl
  have hnone : ∀ j, counted (s.loc j) = false := by
    refine count_eq_zero.mp ?_
    have h0 := count_nonneg (fun _ => counted) s
    rw [← h.wash] at h0 ⊢
    omega
  have hzero : count (fun _ => holds) s = 0 := count_eq_zero.mpr fun j => by simp [holds, he j, hnone j]
  refine ⟨?_, ?_, fun j v hj => ?_, fun hx j => ?_⟩
  · rw [count_enter hloc (by rw [hl]; rfl) rfl, hzero]
    decide
  · exact h.wash.trans (count_same hloc (by rw [hl]; rfl)).symm
  · rw [hloc, St.goto_loc_apply] at hj
    split_ifs at hj
    · rcases hj with hj | hj <;> cases hj
    · exact h.write j v hj
  · rw [hloc, St.goto_loc_apply]
    split_ifs
    · rfl
    · exact h.free hx j

/-- A thread stores `wash`; no other thread has loaded it. -/
theorem Inv.store {n : Loc} {x : Shared} (h : Inv s) (hi : holds (s.loc i) = true)
    (hw : x.wash + (if counted (s.loc i) = true then 1 else 0) = s.shared.wash + if counted n = true then 1 else 0)
    (hn : ∀ v, n ≠ .write v ∧ n ≠ .dec v) (ha : announced n = false) : Inv (s.assign i n x) := by
  have hloc : (s.assign i n x).loc = (s.goto i n).loc := rfl
  refine ⟨?_, ?_, fun j v hj => ?_, fun hx j => ?_⟩
  · have hm := count_move (fun _ => holds) hloc
    have h1 := h.one
    rw [hi] at hm
    simp only [if_true] at hm
    split_ifs at hm <;> omega
  · have hm := count_move (fun _ => counted) hloc
    rw [← h.wash] at hm
    show x.wash = _
    omega
  · rw [hloc, St.goto_loc_apply] at hj
    split_ifs at hj with hji
    · rcases hj with hj | hj
      · exact absurd hj (hn v).1
      · exact absurd hj (hn v).2
    · have hno := h.alone hi hji
      rcases hj with hj | hj <;> rw [hj] at hno <;> cases hno
  · rw [hloc, St.goto_loc_apply]
    split_ifs
    · exact ha
    · exact h.free hx j

/-- **Step lemma.** -/
theorem Inv.exec (h : Inv s) (hc : CoveredAt s (s.loc i)) (he : Effect s i (thread (s.loc i)) s') : Inv s' := by
  have hother : s.mutex = none → ∀ j, j ≠ i → announced (s.loc j) = false := fun hx j _ => h.free hx j
  cases hl : s.loc i with
  | start | finishing =>
    rw [hl] at he
    obtain ⟨-, rfl⟩ := he
    exact h.move rfl rfl (by rw [hl]; rfl) (by rw [hl]; rfl) (by rintro v (hv | hv) <;> cases hv) nofun
  | arrive | passed =>
    rw [hl] at he
    obtain rfl := he
    exact h.move rfl rfl (by rw [hl]; rfl) (by rw [hl]; rfl) (by rintro v (hv | hv) <;> cases hv) fun hx => ⟨rfl, hother hx⟩
  | test =>
    rw [hl] at he hc
    obtain rfl := he
    dsimp only
    by_cases hw : s.shared.wash > 0
    · rw [if_pos hw]
      exact h.move rfl rfl (by rw [hl]; rfl) (by rw [hl]; rfl) (by rintro v (hv | hv) <;> cases hv) fun hx => ⟨rfl, hother hx⟩
    · rw [if_neg hw]
      exact h.pass hl (not_lt.mp hw) (hc (not_lt.mp hw))
  | sleep | leave | exit =>
    rw [hl] at he hc
    obtain ⟨-, rfl⟩ := he
    exact h.move rfl rfl (by rw [hl]; rfl) (by rw [hl]; rfl) (by rintro v (hv | hv) <;> cases hv) fun _ => ⟨rfl, fun j _ => hc j⟩
  | print =>
    rw [hl] at he hc
    obtain rfl := he
    exact h.move rfl rfl (by rw [hl]; rfl) (by rw [hl]; rfl) (by rintro v (hv | hv) <;> cases hv) fun hx => absurd hx hc
  | read =>
    rw [hl] at he
    obtain rfl := he
    refine h.move rfl rfl (by rw [hl]; rfl) (by rw [hl]; rfl) ?_ fun hx => ?_
    · rintro v (hv | hv)
      · exact (Loc.write.inj hv).symm
      · cases hv
    · have := h.free hx i
      rw [hl] at this
      cases this
  | write v =>
    rw [hl] at he
    obtain rfl := he
    have hv := h.write i v (.inl hl)
    refine h.store (by rw [hl]; rfl) ?_ (fun _ => ⟨nofun, nofun⟩) rfl
    rw [hl, hv]
    exact add_zero _
  | washing =>
    rw [hl] at he
    obtain rfl := he
    dsimp only
    split_ifs
    · exact h.move rfl rfl (by rw [hl]) (by rw [hl]) (by rintro v (hv | hv) <;> cases hv) fun hx => ⟨rfl, hother hx⟩
    · exact h.move rfl rfl (by rw [hl]; rfl) (by rw [hl]; rfl) (by rintro v (hv | hv) <;> cases hv) fun hx => ⟨rfl, hother hx⟩
  | finish =>
    rw [hl] at he
    obtain rfl := he
    refine h.move rfl rfl (by rw [hl]; rfl) (by rw [hl]; rfl) ?_ fun hx => ⟨rfl, hother hx⟩
    rintro v (hv | hv)
    · cases hv
    · exact (Loc.dec.inj hv).symm
  | dec v =>
    rw [hl] at he
    obtain rfl := he
    have hv := h.write i v (.inr hl)
    refine h.store (by rw [hl]; rfl) ?_ (fun _ => ⟨nofun, nofun⟩) rfl
    rw [hl, hv]
    show s.shared.wash - 1 + 1 = s.shared.wash + 0
    omega
  | signal =>
    rw [hl] at he
    rcases he with ⟨-, rfl⟩ | ⟨j, -, rfl⟩
    · exact h.move rfl rfl (by rw [hl]; rfl) (by rw [hl]; rfl) (by rintro v (hv | hv) <;> cases hv) fun hx => ⟨rfl, hother hx⟩
    · exact h.move (i := i) (n := .exit) rfl rfl (by rw [hl]; rfl) (by rw [hl]; rfl) (by rintro v (hv | hv) <;> cases hv)
        fun hx => ⟨rfl, hother hx⟩
  | done =>
    rw [hl] at he
    cases he

theorem Inv.step {a : Act τ} (h : Inv s) (hc : Covered s a) (hs : StepRes (fun _ => thread) s a s') : Inv s' := by
  cases hs with
  | @exec i a s' ha hm he =>
    rcases ha with rfl | ⟨j, rfl⟩
    · exact h.exec hc he
    · exact h.exec hc he
  | spurious => exact ⟨h.one, h.wash, h.write, h.free⟩
  | relock => exact ⟨h.one, h.wash, h.write, nofun⟩

/-- **Run lemma.** -/
theorem reachable_inv (h : Reachable (fun _ => thread) Covered start (fun _ => .start) s) :
    MutexInv (fun _ => thread) inside s ∧ Inv s := by
  refine h.inv (I := fun s => MutexInv (fun _ => thread) inside s ∧ Inv s) ⟨initial_mutexInv fun _ => rfl, initial_inv⟩ ?_
  rintro s a s' ⟨hmx, hI⟩ hok hs
  exact ⟨hmx.step (fun _ => thread_typed) hs, hI.step hok hs⟩

/-- **One thread in the shower when nobody comes between.**  For any number of threads, in every run in which a test of `wash` that
passes finds nobody between its own test and the end of its increment, every thread says that it uses the shower while another one has the
mutex, and the mutex is not given up before that thread has incremented `wash`: at most one thread is in the shower, and whenever the
mutex is free `wash` is the number of threads in it. -/
theorem covered_good (s : State τ) (h : Reachable (fun _ => thread) Covered start (fun _ => .start) s) : Good s := by
  obtain ⟨hmx, hI⟩ := reachable_inv h
  exact hI.good hmx

end

/-- One thread goes into the shower while the other has the mutex; then that one sleeps. -/
theorem covered_good_run : ∃ s : State Bool, Reachable (fun _ => thread) Covered start (fun _ => .start) s ∧
    s.loc false = .washing ∧ s.mode true = .asleep () ∧ Good s := by
  obtain ⟨s, hr, hl, hm⟩ := exists_reachable (P := fun _ => thread) Covered start (fun _ => .start)
    [.exec false, .exec false, .exec false, .exec false, .exec false, .exec true, .exec false, .exec false, .exec false,
      .exec true, .exec true, .exec true]
    (fun s => s.loc false = .washing ∧ s.mode true = .asleep ()) (by decide +kernel)
  exact ⟨s, hr, hl, hm, covered_good s hr⟩

/-- **Two in the shower.**  Both threads test `wash` before either of them increments it. -/
theorem two_in_the_shower : ∃ s : State Bool, Reachable (fun _ => thread) always start (fun _ => .start) s ∧ ¬ Good s := by
  obtain ⟨s, hr, hx, hy⟩ := exists_reachable (P := fun _ => thread) always start (fun _ => .start)
    [.exec false, .exec false, .exec false, .exec false, .exec false, .exec true, .exec true, .exec true, .exec true, .exec true,
      .exec false, .exec true]
    (fun s => inShower (s.loc false) = true ∧ inShower (s.loc true) = true) (by decide +kernel)
  refine ⟨s, hr, fun hg => ?_⟩
  cases hg.one false true hx hy

end OsLabs.SampleExam2.Shower
