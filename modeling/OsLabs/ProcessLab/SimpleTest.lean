import Mathlib.Data.List.GetD
import Mathlib.Logic.Function.Basic
import OsLabs.CText
import OsLabs.Lts
import OsLabs.Tally

/-!
# OsLabs.ProcessLab.SimpleTest — one process for each test (process_lab/simple_test.c)

`run_all_tests` makes a pipe and a child for every test, waits for the children in the order of the tests and prints one line for each.
What the parent learns of a test comes in two ways: the wait status, and the bytes in the pipe.  A child writes to its pipe before it runs
its test.

* `Suite`, `addTest`: the registered tests.
* `Step`: the parent and the children, each at its own pace.
* `Inv`: what is in the pipes, which children have ended and how, and which lines are printed.
* `done_of_stuck`, `length_run`: every run ends, and it ends with the report.
* `runAllTests_report_iff`: which lines are right.
-/

namespace OsLabs.ProcessLab

open CText Lts

/-! ## The tests -/

def maxTests : ℕ := 10

/-- What becomes of a test. -/
inductive Outcome
  /-- It returns `TEST_PASSED`. -/
  | passes
  /-- It returns a message. -/
  | fails (msg : List Char)
  /-- A signal kills it. -/
  | dies (sig : ℕ)
  /-- It runs past the alarm. -/
  | hangs
  deriving DecidableEq, Repr

/-- `test_funcs` and `num_tests`. -/
structure Suite where
  tests : List Outcome
  few : tests.length ≤ maxTests

/-- `add_test`; `none` is its `exit(1)`. -/
def Suite.addTest (suite : Suite) (t : Outcome) : Option Suite :=
  if h : suite.tests.length = maxTests then none
  else some ⟨suite.tests ++ [t], by
    have := suite.few
    rw [List.length_append, List.length_singleton]
    omega⟩

abbrev Suite.Idx (suite : Suite) := Fin suite.tests.length

/-- `test_funcs[i]`. -/
def Suite.test (suite : Suite) (i : suite.Idx) : Outcome := suite.tests.get i

/-! ## The parent and the children -/

def SIGALRM : ℕ := 14

/-- What `waitpid` stores. -/
inductive Status
  | exited (code : ℕ)
  | signaled (sig : ℕ)
  deriving DecidableEq, Repr

/-- How the child of a test ends: `alarm(3)` is the last thing that stops it. -/
def Outcome.status : Outcome → Status
  | .passes => .exited 0
  | .fails _ => .exited 1
  | .dies sig => .signaled sig
  | .hangs => .signaled SIGALRM

/-- What the child of test `i` writes: `snprintf(buf, 64, "test %d always fails", i + 1)`. -/
def canned (i : ℕ) : List Char := ("test ".toList ++ Nat.toDigits 10 (i + 1) ++ " always fails".toList).take 63

inductive Child
  | unborn
  | forked
  | testing
  | ended (st : Status)
  deriving DecidableEq, Repr

/-- The parent has forked the children below `forked` and has printed `out`. -/
structure St (suite : Suite) where
  forked : ℕ
  child : suite.Idx → Child
  pipe : suite.Idx → List Char
  out : List (List Char)

/-- What the parent prints for a child that ended with `st`.  `text` is what it reads, at most 127 bytes, and `stack` is what the memory
from `buf` on held before. -/
def line (stack text : List Char) : Status → List Char
  | .exited code =>
    if code = 0 then "Test Passed \n".toList else "Test Failed: ".toList ++ cstr (text ++ stack.drop text.length) ++ ['\n']
  | .signaled sig => if sig = SIGALRM then "Test Timed Out\n".toList else "Test Crashed\n".toList

inductive Act (suite : Suite)
  | fork
  | write (i : suite.Idx)
  | finish (i : suite.Idx)
  | collect

variable {suite : Suite} {stack : ℕ → List Char}

/-- One step of one process, where no `pipe` and no `fork` fails; `stack k` is what lies in the memory from `buf` on when line `k` is made.
A `read` waits while the pipe is empty. -/
inductive Step (suite : Suite) (stack : ℕ → List Char) : St suite → Act suite → Unit → St suite → Prop
  | fork {s} {i : suite.Idx} (hi : i.val = s.forked) :
      Step suite stack s .fork () { s with forked := s.forked + 1, child := Function.update s.child i .forked }
  | write {s i} (h : s.child i = .forked) : Step suite stack s (.write i) ()
      { s with child := Function.update s.child i .testing, pipe := Function.update s.pipe i (s.pipe i ++ canned i) }
  | finish {s i} (h : s.child i = .testing) :
      Step suite stack s (.finish i) () { s with child := Function.update s.child i (.ended (suite.test i).status) }
  | collect {s st} {k : suite.Idx} (hf : s.forked = suite.tests.length) (hk : k.val = s.out.length) (h : s.child k = .ended st)
      (hread : ∀ code, st = .exited code → s.pipe k ≠ []) : Step suite stack s .collect ()
      { s with out := s.out ++ [line (stack k) ((s.pipe k).take 127) st] }

def init (suite : Suite) : St suite := ⟨0, fun _ => .unborn, fun _ => [], []⟩

/-! ## What the parent has printed -/

/-- The line that is printed for test `i`. -/
def printed (stack : ℕ → List Char) (i : suite.Idx) : List Char := line (stack i) (canned i) (suite.test i).status

/-- What the child of test `i` has written so far. -/
def Child.sent (i : ℕ) : Child → List Char
  | .unborn => []
  | .forked => []
  | .testing => canned i
  | .ended _ => canned i

structure Inv (stack : ℕ → List Char) (s : St suite) : Prop where
  unborn : ∀ i, s.child i = .unborn ↔ s.forked ≤ i
  pipe : ∀ i, s.pipe i = (s.child i).sent i
  status : ∀ i st, s.child i = .ended st → st = (suite.test i).status
  forked_le : s.forked ≤ suite.tests.length
  out_le : s.out.length ≤ suite.tests.length
  out : ∀ i : suite.Idx, i < s.out.length → s.out[i.val]? = some (printed stack i)

theorem canned_ne_nil (i : ℕ) : canned i ≠ [] := List.cons_ne_nil _ _

theorem take_canned (i : ℕ) : (canned i).take 127 = canned i :=
  List.take_of_length_le ((List.length_take_le 63 _).trans (by decide))

theorem inv_init : Inv stack (init suite) where
  unborn i := iff_of_true rfl (Nat.zero_le _)
  pipe _ := rfl
  status i st h := by cases h
  forked_le := Nat.zero_le _
  out_le := Nat.zero_le _
  out i h := absurd h (Nat.not_lt_zero _)

variable {s t : St suite} {a : Act suite}

/-- The invariant after a change of one child that was and is born, and of its pipe. -/
theorem Inv.child {i : suite.Idx} {c : Child} {p : suite.Idx → List Char} (h : Inv stack s) (hi : s.child i ≠ .unborn) (hc : c ≠ .unborn)
    (hst : ∀ st, c = .ended st → st = (suite.test i).status) (hself : p i = c.sent i)
    (hother : ∀ j, j ≠ i → p j = s.pipe j) : Inv stack { s with child := Function.update s.child i c, pipe := p } where
  unborn j := by
    dsimp only
    by_cases hj : j = i
    · subst hj
      rw [Function.update_self, ← h.unborn j]
      exact iff_of_false hc hi
    · rw [Function.update_of_ne hj]
      exact h.unborn j
  pipe j := by
    dsimp only
    by_cases hj : j = i
    · subst hj
      rw [Function.update_self, hself]
    · rw [Function.update_of_ne hj, hother j hj]
      exact h.pipe j
  status j st hj := by
    dsimp only at hj
    by_cases hji : j = i
    · subst hji
      rw [Function.update_self] at hj
      exact hst st hj
    · rw [Function.update_of_ne hji] at hj
      exact h.status j st hj
  forked_le := h.forked_le
  out_le := h.out_le
  out := h.out

/-- **Step.** -/
theorem Inv.step (h : Inv stack s) (hst : Step suite stack s a () t) : Inv stack t := by
  cases hst with
  | @fork i hi =>
    have hun : s.child i = .unborn := (h.unborn i).mpr hi.ge
    refine ⟨fun j => ?_, fun j => ?_, fun j st hj => ?_, ?_, h.out_le, h.out⟩
    · dsimp only
      by_cases hj : j = i
      · subst hj
        rw [Function.update_self]
        exact iff_of_false Child.noConfusion (by omega)
      · have hne : j.val ≠ i.val := fun he => hj (Fin.ext he)
        rw [Function.update_of_ne hj, h.unborn j]
        omega
    · have hp := h.pipe j
      dsimp only
      by_cases hj : j = i
      · subst hj
        rw [Function.update_self, hp, hun]
        rfl
      · rwa [Function.update_of_ne hj]
    · dsimp only at hj
      by_cases hji : j = i
      · subst hji
        rw [Function.update_self] at hj
        cases hj
      · rw [Function.update_of_ne hji] at hj
        exact h.status j st hj
    · exact hi ▸ i.isLt
  | @write i hi =>
    have hp := h.pipe i
    rw [hi] at hp
    refine h.child (by rw [hi]; exact Child.noConfusion) Child.noConfusion (fun st hc => by cases hc) ?_ fun j hj => ?_
    · rw [Function.update_self, hp]
      rfl
    · exact Function.update_of_ne hj _ _
  | @finish i hi =>
    have hp := h.pipe i
    rw [hi] at hp
    refine h.child (by rw [hi]; exact Child.noConfusion) Child.noConfusion (fun st hc => ?_) ?_ fun _ _ => rfl
    · cases hc
      rfl
    · exact hp
  | @collect st k hf hk hend hread =>
    have hp := h.pipe k
    rw [hend] at hp
    refine ⟨h.unborn, h.pipe, h.status, h.forked_le, ?_, fun j hj => ?_⟩
    · dsimp only
      rw [List.length_append, List.length_singleton, ← hk]
      exact k.isLt
    · dsimp only at hj ⊢
      rw [List.length_append, List.length_singleton, Nat.lt_succ_iff_lt_or_eq] at hj
      rcases hj with hj | hj
      · rw [List.getElem?_append_left hj]
        exact h.out j hj
      · obtain rfl : j = k := Fin.ext (hj.trans hk.symm)
        have hlast (x : List Char) : (s.out ++ [x])[j.val]? = some x := by rw [hk, List.getElem?_concat_length]
        rw [hlast, h.status j st hend, hp, Child.sent, take_canned]
        rfl

theorem Inv.run {tr : List (Ev (St suite) (Act suite) Unit)} (h : Run (Step suite stack) always (init suite) tr s) : Inv stack s :=
  h.inv inv_init fun _ _ _ _ hi _ hst => hi.step hst

/-! ## Every run ends -/

/-- All lines are printed. -/
def Done (s : St suite) : Prop := s.out.length = suite.tests.length

/-- **Where nothing can go on**, the report is complete. -/
theorem Inv.done_of_stuck (h : Inv stack s) (hstuck : ∀ a t, ¬ Step suite stack s a () t) : Done s := by
  -- every child is forked
  have hforked : s.forked = suite.tests.length := by
    refine h.forked_le.antisymm (Nat.le_of_not_lt fun hlt => ?_)
    exact hstuck _ _ (.fork (i := ⟨s.forked, hlt⟩) rfl)
  -- and has ended
  have hended (i : suite.Idx) : ∃ st, s.child i = .ended st := by
    cases hi : s.child i with
    | unborn => exact absurd ((h.unborn i).mp hi) (by rw [hforked]; exact i.isLt.not_ge)
    | forked => exact absurd (.write hi) (hstuck _ _)
    | testing => exact absurd (.finish hi) (hstuck _ _)
    | ended st => exact ⟨st, rfl⟩
  -- so that the parent is never held up
  refine h.out_le.antisymm (Nat.le_of_not_lt fun hlt => ?_)
  obtain ⟨st, hst⟩ := hended ⟨s.out.length, hlt⟩
  refine hstuck _ _ (.collect (k := ⟨s.out.length, hlt⟩) hforked rfl hst fun _ _ => ?_)
  rw [h.pipe, hst]
  exact canned_ne_nil _

/-- How many steps a child has made. -/
def Child.age : Child → ℕ
  | .unborn => 0
  | .forked => 0
  | .testing => 1
  | .ended _ => 2

def age (s : St suite) : ℕ := s.forked + s.out.length + ∑ i, (s.child i).age

theorem age_child {i : suite.Idx} {c : Child} (f n : ℕ) (p : suite.Idx → List Char) (o : List (List Char))
    (hn : c.age = (s.child i).age + n) :
    age { s with forked := f, child := Function.update s.child i c, pipe := p, out := o } = f + o.length + ∑ i, (s.child i).age + n := by
  have hsum := Tally.sum_write (f := fun j => (s.child j).age) (g := fun j => (Function.update s.child i c j).age) (i := i)
    fun j hj => by rw [Function.update_of_ne hj]
  rw [Function.update_self, hn] at hsum
  unfold age
  dsimp only
  omega

/-- **Each step** adds one to the age. -/
theorem Inv.age_step (h : Inv stack s) (hst : Step suite stack s a () t) : age t = age s + 1 := by
  cases hst with
  | @fork i hi =>
    have hun : s.child i = .unborn := (h.unborn i).mpr hi.ge
    rw [age_child (s.forked + 1) 0 _ _ (by rw [hun]; rfl)]
    unfold age
    omega
  | write hi => exact age_child _ 1 _ _ (by rw [hi]; rfl)
  | finish hi => exact age_child _ 1 _ _ (by rw [hi]; rfl)
  | collect hf hk hend hread =>
    unfold age
    dsimp only
    rw [List.length_append, List.length_singleton]
    omega

/-- **No run is longer** than four steps for each test. -/
theorem length_run {tr : List (Ev (St suite) (Act suite) Unit)} (h : Run (Step suite stack) always (init suite) tr s) :
    tr.length ≤ 4 * suite.tests.length := by
  have hage : tr.length = age s := by
    induction h with
    | nil => simp [age, init, Child.age]
    | snoc h _ hst ih =>
      rw [List.length_append, List.length_singleton, ih, (Inv.run h).age_step hst]
  have hinv := Inv.run h
  have hchild : ∑ i, (s.child i).age ≤ ∑ _i : suite.Idx, 2 :=
    Finset.sum_le_sum fun i _ => by cases s.child i <;> simp [Child.age]
  rw [Finset.sum_const, Finset.card_univ, Fintype.card_fin, smul_eq_mul] at hchild
  have hf := hinv.forked_le
  have ho := hinv.out_le
  unfold age at hage
  omega

/-- A run can be continued to its end. -/
theorem exists_complete (suite : Suite) (stack : ℕ → List Char) :
    ∃ tr s, Run (Step suite stack) always (init suite) tr s ∧ ∀ a t, ¬ Step suite stack s a () t := by
  suffices hgo : ∀ n, ∀ tr s, Run (Step suite stack) always (init suite) tr s → 4 * suite.tests.length ≤ tr.length + n →
      ∃ tr s, Run (Step suite stack) always (init suite) tr s ∧ ∀ a t, ¬ Step suite stack s a () t from
    hgo _ [] _ .nil (Nat.le_add_left _ _)
  intro n
  induction n with
  | zero =>
    intro tr s h hle
    refine ⟨tr, s, h, fun a t hst => ?_⟩
    have hlong := length_run (h.snoc trivial hst)
    rw [List.length_append, List.length_singleton] at hlong
    omega
  | succ n ih =>
    intro tr s h hle
    by_cases hst : ∃ a t, Step suite stack s a () t
    · obtain ⟨a, t, hst⟩ := hst
      refine ih _ t (h.snoc trivial hst) ?_
      rw [List.length_append, List.length_singleton]
      omega
    · exact ⟨tr, s, h, fun a t hs => hst ⟨a, t, hs⟩⟩

/-- **The report does not depend on the order** in which the children run and end. -/
theorem report_eq {tr : List (Ev (St suite) (Act suite) Unit)} (h : Run (Step suite stack) always (init suite) tr s)
    (hstuck : ∀ a t, ¬ Step suite stack s a () t) (i : suite.Idx) : s.out[i.val]? = some (printed stack i) := by
  have hinv := Inv.run h
  have hdone : s.out.length = suite.tests.length := hinv.done_of_stuck hstuck
  exact hinv.out i (i.isLt.trans_eq hdone.symm)

/-! ## Which lines are right -/

/-- The line that a test should get. -/
def promised : Outcome → List Char
  | .passes => "Test Passed\n".toList
  | .fails msg => "Test Failed: ".toList ++ msg ++ ['\n']
  | .dies _ => "Test Crashed\n".toList
  | .hangs => "Test Timed Out\n".toList

/-- The condition on test `i`.  A message must be the one that the child writes before the test, and the bytes that lie behind it in `buf`
up to a null byte. -/
def Fits (stack : ℕ → List Char) (i : ℕ) : Outcome → Prop
  | .passes => False
  | .fails msg => msg = canned i ++ cstr ((stack i).drop (canned i).length)
  | .dies sig => sig ≠ SIGALRM
  | .hangs => True

/-- The child's message has no null byte. -/
theorem cstr_canned (i : ℕ) (rest : List Char) : cstr (canned i ++ rest) = canned i ++ cstr rest := by
  have hplain : ∀ c ∈ canned i, decide (c ≠ '\x00') = true := by
    intro c hc
    rw [decide_eq_true_iff]
    rintro rfl
    have hmem := List.mem_of_mem_take hc
    rw [List.mem_append, List.mem_append] at hmem
    rcases hmem with (h | h) | h
    · exact absurd h (by decide)
    · exact absurd (Nat.isDigit_of_mem_toDigits (by decide) (by decide) h) (by decide)
    · exact absurd h (by decide)
  exact List.takeWhile_append_of_pos hplain

theorem line_exited_zero (stack text : List Char) : line stack text (.exited 0) = "Test Passed \n".toList := rfl

theorem line_exited_one (stack text : List Char) :
    line stack text (.exited 1) = "Test Failed: ".toList ++ cstr (text ++ stack.drop text.length) ++ ['\n'] := rfl

/-- **One line** is right iff the test meets the condition. -/
theorem printed_eq_iff (i : suite.Idx) : printed stack i = promised (suite.test i) ↔ Fits stack i (suite.test i) := by
  unfold printed
  cases suite.test i with
  | passes =>
    refine iff_of_false ?_ not_false
    rw [Outcome.status, line_exited_zero]
    decide
  | fails msg =>
    rw [Outcome.status, line_exited_one, cstr_canned]
    unfold promised Fits
    rw [List.append_left_inj, List.append_right_inj]
    exact eq_comm
  | dies sig =>
    dsimp only [Outcome.status, line, promised, Fits]
    split_ifs with hs
    · exact iff_of_false (by decide) fun h => h hs
    · exact iff_of_true rfl hs
  | hangs => exact iff_of_true rfl trivial

/-- **The report.**  In every run that has come to its end, line `i` is the right one iff test `i` meets the condition. -/
theorem runAllTests_report_iff {tr : List (Ev (St suite) (Act suite) Unit)} (h : Run (Step suite stack) always (init suite) tr s)
    (hend : ∀ a t, ¬ Step suite stack s a () t) (i : suite.Idx) :
    s.out[i.val]? = some (promised (suite.test i)) ↔ Fits stack i (suite.test i) := by
  rw [report_eq h hend i, Option.some_inj]
  exact printed_eq_iff i

/-- A suite with one test. -/
def single (o : Outcome) : Suite := ⟨[o], Nat.succ_le_succ (Nat.zero_le _)⟩

/-- The memory behind the message is zero. -/
def zeros (_ : ℕ) : List Char := List.replicate 128 '\x00'

theorem runAllTests_hangs : ∃ tr s, Run (Step (single .hangs) zeros) always (init (single .hangs)) tr s ∧
    s.out[0]? = some "Test Timed Out\n".toList := by
  obtain ⟨tr, s, h, hend⟩ := exists_complete (single .hangs) zeros
  exact ⟨tr, s, h, (runAllTests_report_iff h hend ⟨0, by decide⟩).mpr trivial⟩

/-- A test that returns the message of the second assertion of `test1`. -/
def test1Fails : Suite := single (.fails "test 1 data not set properly".toList)

theorem runAllTests_test1Fails : ∃ tr s, Run (Step test1Fails zeros) always (init test1Fails) tr s ∧
    (∀ a t, ¬ Step test1Fails zeros s a () t) ∧ s.out[0]? ≠ some "Test Failed: test 1 data not set properly\n".toList := by
  obtain ⟨tr, s, h, hend⟩ := exists_complete test1Fails zeros
  refine ⟨tr, s, h, hend, fun hout => ?_⟩
  rw [report_eq h hend ⟨0, by decide⟩] at hout
  exact absurd (Option.some.inj hout) (by decide)

end OsLabs.ProcessLab
