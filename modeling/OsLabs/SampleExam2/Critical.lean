import OsLabs.Monitor

/-!
# OsLabs.SampleExam2.Critical — at most three threads, at most two of a colour

`critical.c`: `red` and `blue` are two copies of one body.  Both counters that a thread looks at and changes are read and written with the
mutex held only.  Who leaves wakes everybody.

* `thread`: the body that `red` and `blue` share.
* `Inv`: the counters count the threads in the critical section, and who sleeps has somebody inside who will wake it.
* `three_inside`: the two limits, the counters, and no deadlock.
-/

namespace OsLabs.SampleExam2.Critical

open Lts Monitor

inductive Colour
  | red | blue
deriving DecidableEq

structure Shared where
  num_threads_in : ℤ
  /-- `num_red_in`, `num_blue_in` -/
  num_in : Colour → ℤ

/-- The places of a thread, one for each synchronisation call and each block of assignments. -/
inductive Loc
  | start | test | sleep | entered | critical | finish | announce | leave | done
deriving DecidableEq

/-- The body that the two functions share. -/
def thread (c : Colour) : Loc → Instr Shared Unit Loc
  | .start => .lock .test
  | .test => .run fun x =>
    if x.num_threads_in ≥ 3 ∨ x.num_in c ≥ 2 then (x, .sleep)
    else (⟨x.num_threads_in + 1, Function.update x.num_in c (x.num_in c + 1)⟩, .entered)
  | .sleep => .wait () .test
  | .entered => .unlock .critical
  | .critical => .lock .finish
  | .finish => .run fun x => (⟨x.num_threads_in - 1, Function.update x.num_in c (x.num_in c - 1)⟩, .announce)
  | .announce => .broadcast () .leave
  | .leave => .unlock .done
  | .done => .halt

def red : Loc → Instr Shared Unit Loc := thread .red

def blue : Loc → Instr Shared Unit Loc := thread .blue

/-- Any number of threads of each colour. -/
def threads {τ : Type} (colour : τ → Colour) (i : τ) : Loc → Instr Shared Unit Loc :=
  match colour i with
  | .red => red
  | .blue => blue

def start : Shared := ⟨0, fun _ => 0⟩

abbrev State (τ : Type) := St τ Shared Unit Loc

/-- In the critical section. -/
def inSection : Loc → Bool
  | .entered | .critical | .finish => true
  | _ => false

def inside : Loc → Bool
  | .start | .critical | .done => false
  | _ => true

theorem threads_eq {τ : Type} (colour : τ → Colour) (i : τ) : threads colour i = thread (colour i) := by
  unfold threads
  cases colour i <;> rfl

theorem thread_typed (c : Colour) (l : Loc) : Typed inside (thread c l) l := by
  cases l with
  | test =>
    intro x
    dsimp only
    split_ifs <;> rfl
  | finish =>
    intro x
    rfl
  | done => rfl
  | announce => exact ⟨rfl, rfl⟩
  | _ => exact ⟨rfl, rfl⟩

/-- A wait ends at the test of the loop around it. -/
theorem thread_wait {c : Colour} {l n : Loc} {u : Unit} (h : thread c l = .wait u n) : n = .test := by
  cases l with
  | sleep => exact (Instr.wait.inj h).2.symm
  | _ => cases h

theorem thread_isHalt {c : Colour} {l : Loc} (h : l ≠ .done) : (thread c l).isHalt = false := by
  cases l with
  | done => exact absurd rfl h
  | _ => rfl

section

variable {τ : Type} [Fintype τ] {colour : τ → Colour} {s s' t : State τ} {i j : τ}

/-- The counters are right and within the limits, and a thread sleeps only while somebody is inside or is about to wake it. -/
structure Inv (colour : τ → Colour) (s : State τ) : Prop where
  num_in : ∀ c, s.shared.num_in c = countOf colour c inSection s
  total : s.shared.num_threads_in = s.shared.num_in .red + s.shared.num_in .blue
  three : s.shared.num_threads_in ≤ 3
  two : ∀ c, s.shared.num_in c ≤ 2
  /-- who is about to sleep has found somebody inside -/
  gate : ∀ i, s.loc i = .sleep → 0 < s.shared.num_threads_in
  sleeper : ∀ i c, s.mode i = .asleep c → 0 < s.shared.num_threads_in ∨ ∃ j, s.loc j = .announce

theorem initial_inv : Inv colour (initial start fun _ => .start : State τ) := by
  have h3 : (0 : ℤ) ≤ 3 := by decide
  have h2 : (0 : ℤ) ≤ 2 := by decide
  refine ⟨fun c => ?_, rfl, h3, fun _ => h2, nofun, nofun⟩
  exact (countOf_eq_zero fun i => rfl).symm

theorem Inv.wake (h : Inv colour s) (hsh : t.shared = s.shared) (hloc : t.loc = s.loc)
    (hm : ∀ i c, t.mode i = .asleep c → s.mode i = .asleep c) : Inv colour t := by
  have hc : ∀ c, countOf colour c inSection t = countOf colour c inSection s := fun c => countOf_congr fun i => by rw [hloc]
  refine ⟨fun c => ?_, ?_, ?_, ?_, ?_, ?_⟩
  · rw [hsh, hc]
    exact h.num_in c
  · rw [hsh]
    exact h.total
  · rw [hsh]
    exact h.three
  · rw [hsh]
    exact h.two
  · rw [hsh, hloc]
    exact h.gate
  · intro i c hi
    rw [hsh, hloc]
    exact h.sleeper i c (hm i c hi)

theorem Inv.num_in_nonneg (h : Inv colour s) (c : Colour) : 0 ≤ s.shared.num_in c := by
  rw [h.num_in c]
  exact countOf_nonneg _ _ _ _

/-- Red and blue threads are all threads. -/
theorem countOf_red_blue (s : State τ) :
    countOf colour .red inSection s + countOf colour .blue inSection s = count (fun _ => inSection) s := by
  unfold countOf count
  rw [← Finset.sum_add_distrib]
  refine Finset.sum_congr rfl fun i _ => ?_
  cases hc : colour i with
  | red => simp [hc]
  | blue => simp [hc]

/-- Somebody is inside while the counter is not zero. -/
theorem Inv.exists_inside (h : Inv colour s) (hpos : 0 < s.shared.num_threads_in) : ∃ i, inSection (s.loc i) = true := by
  have htotal := h.total
  by_cases hr : 0 < s.shared.num_in .red
  · rw [h.num_in] at hr
    obtain ⟨i, hi, -⟩ := exists_of_countOf_pos hr
    exact ⟨i, hi⟩
  · have hb : 0 < s.shared.num_in .blue := by omega
    rw [h.num_in] at hb
    obtain ⟨i, hi, -⟩ := exists_of_countOf_pos hb
    exact ⟨i, hi⟩

/-- Nobody is left sleeping. -/
theorem Inv.no_deadlock (h : Inv colour s) (hmx : MutexInv (fun i => thread (colour i)) inside s) :
    ¬ Deadlock (fun i => thread (colour i)) s := by
  rintro ⟨⟨i, hi⟩, ha⟩
  -- only a thread at the test can sleep
  have hawake : ∀ j, s.loc j ≠ .done → s.loc j ≠ .test → False := by
    intro j hj hjt
    exact ha.elim hmx (i := j) (thread_isHalt hj) fun c l hw => hjt (thread_wait hw)
  obtain ⟨c, hc⟩ := Mode.isAsleep_iff.mp (ha i hi)
  rcases h.sleeper i c hc with hpos | ⟨j, hj⟩
  · obtain ⟨j, hj⟩ := h.exists_inside hpos
    apply hawake j
    · intro hl
      rw [hl] at hj
      cases hj
    · intro hl
      rw [hl] at hj
      cases hj
  · apply hawake j
    · simp [hj]
    · simp [hj]

variable [DecidableEq τ]

/-- A step that leaves the counters alone and does not lead in or out of the critical section. -/
theorem Inv.move {n : Loc} (h : Inv colour s) (hsh : t.shared = s.shared) (hloc : t.loc = (s.goto i n).loc)
    (hm : ∀ i c, t.mode i = .asleep c → s.mode i = .asleep c) (hn : inSection n = inSection (s.loc i))
    (hg : n = .sleep → 0 < s.shared.num_threads_in) (ha : s.loc i ≠ .announce) : Inv colour t := by
  refine ⟨fun c => ?_, ?_, ?_, ?_, ?_, ?_⟩
  · rw [hsh, h.num_in c]
    exact (countOf_same hloc hn).symm
  · rw [hsh]
    exact h.total
  · rw [hsh]
    exact h.three
  · rw [hsh]
    exact h.two
  · intro j hj
    rw [hloc, St.goto_loc_apply] at hj
    rw [hsh]
    split_ifs at hj
    · exact hg hj
    · exact h.gate j hj
  · intro j c hj
    rw [hsh, hloc]
    rcases h.sleeper j c (hm j c hj) with hpos | ⟨k, hk⟩
    · exact .inl hpos
    · right
      refine ⟨k, ?_⟩
      rw [St.goto_loc_of_ne s n, hk]
      rintro rfl
      exact ha hk

/-- The counter of one colour changes by `d`. -/
theorem update_total (f : Colour → ℤ) (c : Colour) (d : ℤ) :
    Function.update f c (f c + d) .red + Function.update f c (f c + d) .blue = f .red + f .blue + d := by
  cases c with
  | red =>
    simp only [Function.update_self, Function.update_of_ne (show Colour.blue ≠ .red by decide)]
    omega
  | blue =>
    simp only [Function.update_self, Function.update_of_ne (show Colour.red ≠ .blue by decide)]
    omega

/-- A thread enters: the test has found room. -/
theorem Inv.enter (h : Inv colour s) (hl : s.loc i = .test)
    (hg : ¬ (s.shared.num_threads_in ≥ 3 ∨ s.shared.num_in (colour i) ≥ 2)) :
    Inv colour (s.assign i .entered
      ⟨s.shared.num_threads_in + 1, Function.update s.shared.num_in (colour i) (s.shared.num_in (colour i) + 1)⟩) := by
  have hr := h.num_in_nonneg .red
  have hb := h.num_in_nonneg .blue
  have htotal := h.total
  have hpos : 0 < s.shared.num_threads_in + 1 := by omega
  refine ⟨fun c => ?_, ?_, ?_, fun c => ?_, fun _ _ => hpos, fun _ _ _ => .inl hpos⟩
  · refine Eq.trans ?_ (countOf_enter (s := s) (i := i) (n := .entered) (by rfl) (by rw [hl]; rfl) rfl).symm
    rw [← h.num_in]
    show Function.update s.shared.num_in (colour i) _ c = _
    rw [Function.update_apply]
    split_ifs with hc
    · rw [hc]
    · rw [add_zero]
  · show s.shared.num_threads_in + 1 = _
    rw [htotal]
    exact (update_total _ _ _).symm
  · show s.shared.num_threads_in + 1 ≤ 3
    omega
  · show Function.update s.shared.num_in (colour i) (s.shared.num_in (colour i) + 1) c ≤ 2
    rw [Function.update_apply]
    split_ifs
    · omega
    · exact h.two c

/-- A thread leaves and is about to wake the others. -/
theorem Inv.leave (h : Inv colour s) (hl : s.loc i = .finish) (hs : ∀ j, s.loc j ≠ .sleep) :
    Inv colour (s.assign i .announce
      ⟨s.shared.num_threads_in - 1, Function.update s.shared.num_in (colour i) (s.shared.num_in (colour i) - 1)⟩) := by
  refine ⟨fun c => ?_, ?_, ?_, fun c => ?_, fun j hj => ?_, fun _ _ _ => .inr ⟨i, St.goto_loc_self s i .announce⟩⟩
  · refine Eq.trans ?_ (countOf_leave (s := s) (i := i) (n := .announce) (by rfl) (by rw [hl]; rfl) rfl).symm
    rw [← h.num_in]
    show Function.update s.shared.num_in (colour i) _ c = _
    rw [Function.update_apply]
    split_ifs with hc
    · rw [hc]
    · rw [sub_zero]
  · show s.shared.num_threads_in - 1 = _
    rw [h.total]
    exact (update_total _ _ (-1)).symm
  · have hthree := h.three
    show s.shared.num_threads_in - 1 ≤ 3
    omega
  · have htwo := h.two (colour i)
    show Function.update s.shared.num_in (colour i) (s.shared.num_in (colour i) - 1) c ≤ 2
    rw [Function.update_apply]
    split_ifs
    · omega
    · exact h.two c
  · rw [St.assign_loc, St.goto_loc_apply] at hj
    split_ifs at hj
    exact absurd hj (hs j)

/-- **Step lemma.** -/
theorem Inv.step (h : Inv colour s) (hmx : MutexInv (fun i => thread (colour i)) inside s) (hm : s.mode i = .awake)
    (he : Effect s i (thread (colour i) (s.loc i)) s') : Inv colour s' := by
  have hsame : ∀ (j : τ) (c : Unit), s.mode j = .asleep c → s.mode j = .asleep c := fun _ _ hj => hj
  cases hl : s.loc i with
  | start =>
    rw [hl] at he
    obtain ⟨-, rfl⟩ := he
    exact h.move rfl rfl hsame (by rw [hl]; rfl) nofun (by simp [hl])
  | test =>
    rw [hl] at he
    obtain rfl := he
    by_cases hg : s.shared.num_threads_in ≥ 3 ∨ s.shared.num_in (colour i) ≥ 2
    · simp only [if_pos hg]
      refine h.move rfl rfl hsame (by rw [hl]; rfl) (fun _ => ?_) (by simp [hl])
      have hr := h.num_in_nonneg .red
      have hb := h.num_in_nonneg .blue
      have htotal := h.total
      cases hc : colour i with
      | red =>
        rw [hc] at hg
        omega
      | blue =>
        rw [hc] at hg
        omega
    · simp only [if_neg hg]
      exact h.enter hl hg
  | sleep =>
    rw [hl] at he
    obtain ⟨-, rfl⟩ := he
    have hg := h.gate i hl
    have hmv : Inv colour (s.goto i .test) := h.move rfl rfl hsame (by rw [hl]; rfl) nofun (by simp [hl])
    exact ⟨hmv.num_in, hmv.total, hmv.three, hmv.two, hmv.gate, fun _ _ _ => .inl hg⟩
  | entered =>
    rw [hl] at he
    obtain ⟨-, rfl⟩ := he
    exact h.move rfl rfl hsame (by rw [hl]; rfl) nofun (by simp [hl])
  | critical =>
    rw [hl] at he
    obtain ⟨-, rfl⟩ := he
    exact h.move rfl rfl hsame (by rw [hl]; rfl) nofun (by simp [hl])
  | finish =>
    rw [hl] at he
    obtain rfl := he
    refine h.leave hl fun j hj => ?_
    -- who is about to sleep would hold the mutex
    have hji : j = i := by
      refine hmx.alone hm (by rw [hl]; rfl) (by rw [hj]; rfl) fun c l hw => ?_
      have := thread_wait hw
      rw [hj] at this
      cases this
    rw [hji, hl] at hj
    cases hj
  | announce =>
    rw [hl] at he
    obtain rfl := he
    have hnone : ∀ j c, ((s.wakeAll ()).goto i .leave).mode j ≠ .asleep c := by
      intro j c hj
      exact (St.asleep_of_wakeAll hj).2 rfl
    refine ⟨fun c => ?_, h.total, h.three, h.two, fun j hj => ?_, fun j c hj => absurd hj (hnone j c)⟩
    · exact (h.num_in c).trans (countOf_same (i := i) (n := Loc.leave) rfl (by rw [hl]; rfl)).symm
    · rw [St.goto_loc_apply] at hj
      split_ifs at hj
      exact h.gate j hj
  | leave =>
    rw [hl] at he
    obtain ⟨-, rfl⟩ := he
    exact h.move rfl rfl hsame (by rw [hl]; rfl) nofun (by simp [hl])
  | done =>
    rw [hl] at he
    cases he

/-- **Run lemma.** -/
theorem reachable_inv (h : Reachable (threads colour) always start (fun _ => .start) s) :
    MutexInv (fun i => thread (colour i)) inside s ∧ Inv colour s := by
  have hP : threads colour = fun i => thread (colour i) := funext (threads_eq colour)
  rw [hP] at h
  refine h.program_inv (fun i l => thread_typed _ l) (fun _ => rfl) initial_inv ?_ ?_
  · intro s t hI hsh hloc hm
    exact hI.wake hsh hloc hm
  · intro s a i s' hI hmx _ _ hm he
    exact hI.step hmx hm he

/-- **Three at most, two of a colour at most.**  In every reachable state the limits hold for the threads in the critical section, the
counters are their numbers, and it never happens that somebody has not finished while everybody who has not finished sleeps. -/
theorem three_inside (colour : τ → Colour) (s : State τ)
    (h : Reachable (threads colour) always start (fun _ => .start) s) :
    count (fun _ => inSection) s ≤ 3 ∧ (∀ c, countOf colour c inSection s ≤ 2) ∧
      s.shared.num_threads_in = s.shared.num_in .red + s.shared.num_in .blue ∧
      s.shared.num_threads_in = count (fun _ => inSection) s ∧ (∀ c, s.shared.num_in c = countOf colour c inSection s) ∧
      ¬ Deadlock (threads colour) s := by
  obtain ⟨hmx, hI⟩ := reachable_inv h
  have hcount : s.shared.num_threads_in = count (fun _ => inSection) s := by
    rw [hI.total, hI.num_in, hI.num_in]
    exact countOf_red_blue s
  refine ⟨hcount ▸ hI.three, fun c => ?_, hI.total, hcount, hI.num_in, ?_⟩
  · rw [← hI.num_in]
    exact hI.two c
  · have hP : threads colour = fun i => thread (colour i) := funext (threads_eq colour)
    rw [hP]
    exact hI.no_deadlock hmx

/-- Two red threads inside, a third one asleep. -/
theorem three_inside_run : ∃ s : State (Fin 3),
    Reachable (threads fun _ => .red) always start (fun _ => .start) s ∧ s.mode 2 = .asleep () ∧
      s.shared.num_in .red = 2 ∧ count (fun _ => inSection) s ≤ 3 ∧ ¬ Deadlock (threads fun _ => .red) s := by
  obtain ⟨s, hr, hm, hn⟩ := exists_reachable (P := threads fun _ => .red) always start (fun _ => .start)
    [.exec 0, .exec 0, .exec 0, .exec 1, .exec 1, .exec 1, .exec 2, .exec 2, .exec 2]
    (fun s : State (Fin 3) => s.mode 2 = .asleep () ∧ s.shared.num_in .red = 2) (by decide +kernel)
  obtain ⟨h3, -, -, -, -, hd⟩ := three_inside _ s hr
  exact ⟨s, hr, hm, hn, h3, hd⟩

end

end OsLabs.SampleExam2.Critical
