import OsLabs.Lts
import OsLabs.Tally
import Mathlib.Algebra.Order.BigOperators.Group.Finset
import Mathlib.Algebra.Order.Ring.Int
import Mathlib.Data.Fintype.Option

/-!
# OsLabs.Monitor — threads around one mutex and its condition variables

Any number of threads `τ` share variables `σ`, one mutex, and condition variables `κ`.  A thread is at a location, and its
program says which instruction stands there: take the mutex, give it back, wait, signal, broadcast, or assign and branch.
A thread that waits gives the mutex up and sleeps until it is woken; then it needs the mutex again.  Who gets a free mutex, which
sleeper a signal wakes, and whether a sleeper wakes without any signal is left open.

* `next`: the step function; `Step`: the transition relation; `next_inv`: what a step can be.
* `Effect`: what one instruction does; a proof about a program goes through its places and reads the effect off each.
* `Typed`, `MutexInv`: where the program holds the mutex.  At most one thread runs inside.
* `count`: how many threads are at certain locations, and what one step does to that number.
* `Deadlock`, `Quiet`: nobody can go on.  `Quiet.allAsleep`: a run comes to rest only when every unfinished thread sleeps.
* `Reachable.program_inv`: the invariant rule, with one case per instruction of the program.
-/

namespace OsLabs.Monitor

open Lts Tally

/-- One instruction; `next` is where the thread goes on. -/
inductive Instr (σ κ lo : Type)
  | lock (next : lo)
  | unlock (next : lo)
  /-- Give the mutex up and sleep on `c`; the thread goes on with the mutex held again. -/
  | wait (c : κ) (next : lo)
  | signal (c : κ) (next : lo)
  | broadcast (c : κ) (next : lo)
  /-- Assignments to the shared variables, and where to go on. -/
  | run (f : σ → σ × lo)
  | halt

/-- A thread runs, sleeps on a condition variable, or was woken and waits for the mutex. -/
inductive Mode (κ : Type)
  | awake
  | asleep (c : κ)
  | woken
deriving DecidableEq

structure St (τ σ κ lo : Type) where
  shared : σ
  loc : τ → lo
  mode : τ → Mode κ
  mutex : Option τ

inductive Act (τ : Type)
  /-- `i` takes the instruction at its location. -/
  | exec (i : τ)
  /-- `i` signals and `j` is the thread that wakes up. -/
  | signal (i j : τ)
  /-- `j` wakes up without a signal. -/
  | spurious (j : τ)
  /-- `j`, woken, gets the mutex back. -/
  | relock (j : τ)
deriving DecidableEq

variable {τ σ κ lo : Type}

namespace St

section

variable [DecidableEq τ]

/-- Thread `i` goes to `n`. -/
def goto (s : St τ σ κ lo) (i : τ) (n : lo) : St τ σ κ lo := { s with loc := Function.update s.loc i n }

/-- Thread `i` assigns the shared variables and goes to `n`. -/
def assign (s : St τ σ κ lo) (i : τ) (n : lo) (x : σ) : St τ σ κ lo := { s.goto i n with shared := x }

def setMode (s : St τ σ κ lo) (i : τ) (x : Mode κ) : St τ σ κ lo := { s with mode := Function.update s.mode i x }

@[simp] theorem goto_loc_self (s : St τ σ κ lo) (i : τ) (n : lo) : (s.goto i n).loc i = n := by simp [goto]

theorem goto_loc_of_ne (s : St τ σ κ lo) {i j : τ} (n : lo) (h : j ≠ i) : (s.goto i n).loc j = s.loc j := by
  simp [goto, h]

theorem goto_loc_apply (s : St τ σ κ lo) (i j : τ) (n : lo) :
    (s.goto i n).loc j = if j = i then n else s.loc j := by
  simp [goto, Function.update_apply]

@[simp] theorem goto_mode (s : St τ σ κ lo) (i : τ) (n : lo) : (s.goto i n).mode = s.mode := rfl

@[simp] theorem goto_mutex (s : St τ σ κ lo) (i : τ) (n : lo) : (s.goto i n).mutex = s.mutex := rfl

@[simp] theorem goto_shared (s : St τ σ κ lo) (i : τ) (n : lo) : (s.goto i n).shared = s.shared := rfl

@[simp] theorem assign_loc (s : St τ σ κ lo) (i : τ) (n : lo) (x : σ) : (s.assign i n x).loc = (s.goto i n).loc := rfl

@[simp] theorem assign_mode (s : St τ σ κ lo) (i : τ) (n : lo) (x : σ) : (s.assign i n x).mode = s.mode := rfl

@[simp] theorem assign_shared (s : St τ σ κ lo) (i : τ) (n : lo) (x : σ) : (s.assign i n x).shared = x := rfl

@[simp] theorem setMode_mode_self (s : St τ σ κ lo) (i : τ) (x : Mode κ) : (s.setMode i x).mode i = x := by
  simp [setMode]

theorem setMode_mode_apply (s : St τ σ κ lo) (i j : τ) (x : Mode κ) :
    (s.setMode i x).mode j = if j = i then x else s.mode j := by
  simp [setMode, Function.update_apply]

/-- Who still sleeps after somebody else woke up slept before. -/
theorem asleep_of_setMode {s : St τ σ κ lo} {i j : τ} {d : κ} {x : Mode κ} (hx : x ≠ .asleep d)
    (h : (s.setMode i x).mode j = .asleep d) : s.mode j = .asleep d ∧ j ≠ i := by
  rw [setMode_mode_apply] at h
  split_ifs at h with hj
  · exact absurd h hx
  · exact ⟨h, hj⟩

/-- Who sleeps on something else than `i`, which has just fallen asleep on `c`, slept before. -/
theorem asleep_of_sleep {s : St τ σ κ lo} {i j : τ} {c d : κ} (h : (s.setMode i (.asleep c)).mode j = .asleep d) (hd : d ≠ c) :
    s.mode j = .asleep d := by
  refine (asleep_of_setMode ?_ h).1
  intro hc
  exact hd (Mode.asleep.inj hc).symm

/-- A thread that is somewhere is still there when another one has moved. -/
theorem exists_loc_of_goto {s t : St τ σ κ lo} {i : τ} {l n : lo} (h : t.loc = (s.goto i n).loc) (hl : s.loc i ≠ l)
    (hj : ∃ j, s.loc j = l) : ∃ j, t.loc j = l := by
  obtain ⟨j, hj⟩ := hj
  refine ⟨j, ?_⟩
  rw [h, goto_loc_of_ne s n, hj]
  rintro rfl
  exact hl hj

@[simp] theorem setMode_loc (s : St τ σ κ lo) (i : τ) (x : Mode κ) : (s.setMode i x).loc = s.loc := rfl

@[simp] theorem setMode_mutex (s : St τ σ κ lo) (i : τ) (x : Mode κ) : (s.setMode i x).mutex = s.mutex := rfl

@[simp] theorem setMode_shared (s : St τ σ κ lo) (i : τ) (x : Mode κ) : (s.setMode i x).shared = s.shared := rfl

end

section

variable [DecidableEq κ]

/-- Everybody who sleeps on `c` wakes up. -/
def wakeAll (s : St τ σ κ lo) (c : κ) : St τ σ κ lo :=
  { s with mode := fun j => if s.mode j = .asleep c then .woken else s.mode j }

@[simp] theorem wakeAll_loc (s : St τ σ κ lo) (c : κ) : (s.wakeAll c).loc = s.loc := rfl

@[simp] theorem wakeAll_mutex (s : St τ σ κ lo) (c : κ) : (s.wakeAll c).mutex = s.mutex := rfl

@[simp] theorem wakeAll_shared (s : St τ σ κ lo) (c : κ) : (s.wakeAll c).shared = s.shared := rfl

theorem wakeAll_mode (s : St τ σ κ lo) (c : κ) (j : τ) :
    (s.wakeAll c).mode j = if s.mode j = .asleep c then .woken else s.mode j := rfl

/-- Who still sleeps after a broadcast slept before, on something else. -/
theorem asleep_of_wakeAll {s : St τ σ κ lo} {c d : κ} {j : τ} (h : (s.wakeAll c).mode j = .asleep d) :
    s.mode j = .asleep d ∧ d ≠ c := by
  rw [wakeAll_mode] at h
  split_ifs at h with hc
  refine ⟨h, ?_⟩
  rintro rfl
  exact hc h

end

end St

/-- The step function of the program `P`: none when the action cannot be taken. -/
def next [DecidableEq τ] [DecidableEq κ] [Fintype τ] (P : τ → lo → Instr σ κ lo) (s : St τ σ κ lo) : Act τ → Option (St τ σ κ lo)
  | .exec i =>
    if s.mode i = .awake then
      match P i (s.loc i) with
      | .lock n => if s.mutex.isNone then some { s.goto i n with mutex := some i } else none
      | .unlock n => if s.mutex = some i then some { s.goto i n with mutex := none } else none
      | .wait c n => if s.mutex = some i then some { (s.goto i n).setMode i (.asleep c) with mutex := none } else none
      -- a signal without a sleeper has no effect
      | .signal c n => if ∀ j, s.mode j ≠ .asleep c then some (s.goto i n) else none
      | .broadcast c n => some ((s.wakeAll c).goto i n)
      | .run f => some (s.assign i (f s.shared).2 (f s.shared).1)
      | .halt => none
    else none
  | .signal i j =>
    if s.mode i = .awake then
      match P i (s.loc i) with
      | .signal c n => if s.mode j = .asleep c then some ((s.setMode j .woken).goto i n) else none
      | _ => none
    else none
  | .spurious j =>
    match s.mode j with
    | .asleep _ => some (s.setMode j .woken)
    | _ => none
  | .relock j =>
    if s.mode j = .woken ∧ s.mutex.isNone then some { s.setMode j .awake with mutex := some j } else none

/-- The transition relation. -/
def Step [DecidableEq τ] [DecidableEq κ] [Fintype τ] (P : τ → lo → Instr σ κ lo) (s : St τ σ κ lo) (a : Act τ) (_ : Unit)
    (s' : St τ σ κ lo) : Prop :=
  next P s a = some s'

/-- Every thread at the start of its program, nobody holds the mutex. -/
def initial (x : σ) (start : τ → lo) : St τ σ κ lo := ⟨x, start, fun _ => .awake, none⟩

variable {s s' t : St τ σ κ lo} {i j : τ}

/-- **What one instruction does** when thread `i` takes it in state `s`. -/
def Effect [DecidableEq τ] [DecidableEq κ] (s : St τ σ κ lo) (i : τ) : Instr σ κ lo → St τ σ κ lo → Prop
  | .lock n, s' => s.mutex = none ∧ s' = { s.goto i n with mutex := some i }
  | .unlock n, s' => s.mutex = some i ∧ s' = { s.goto i n with mutex := none }
  | .wait c n, s' => s.mutex = some i ∧ s' = { (s.goto i n).setMode i (.asleep c) with mutex := none }
  | .signal c n, s' =>
    (∀ j, s.mode j ≠ .asleep c) ∧ s' = s.goto i n ∨
      ∃ j, s.mode j = .asleep c ∧ s' = (s.setMode j .woken).goto i n
  | .broadcast c n, s' => s' = (s.wakeAll c).goto i n
  | .run f, s' => s' = s.assign i (f s.shared).2 (f s.shared).1
  | .halt, _ => False

/-- An instruction moves its own thread only. -/
theorem Effect.goto [DecidableEq τ] [DecidableEq κ] {p : Instr σ κ lo} (h : Effect s i p s') :
    ∃ n, s'.loc = (s.goto i n).loc := by
  cases p with
  | lock n =>
    obtain ⟨-, rfl⟩ := h
    exact ⟨n, rfl⟩
  | unlock n =>
    obtain ⟨-, rfl⟩ := h
    exact ⟨n, rfl⟩
  | wait c n =>
    obtain ⟨-, rfl⟩ := h
    exact ⟨n, rfl⟩
  | signal c n =>
    rcases h with ⟨-, rfl⟩ | ⟨j, -, rfl⟩
    · exact ⟨n, rfl⟩
    · exact ⟨n, rfl⟩
  | broadcast c n =>
    obtain rfl := h
    exact ⟨n, rfl⟩
  | run f =>
    obtain rfl := h
    exact ⟨(f s.shared).2, rfl⟩
  | halt => cases h

/-- **What a step can be**: an instruction of a thread that runs, or a change among the sleepers. -/
inductive StepRes [DecidableEq τ] [DecidableEq κ] (P : τ → lo → Instr σ κ lo) (s : St τ σ κ lo) : Act τ → St τ σ κ lo → Prop
  | exec {i : τ} {a : Act τ} {s' : St τ σ κ lo} (ha : a = .exec i ∨ ∃ j, a = .signal i j) (hm : s.mode i = .awake)
      (he : Effect s i (P i (s.loc i)) s') : StepRes P s a s'
  | spurious {j : τ} {c : κ} (hj : s.mode j = .asleep c) : StepRes P s (.spurious j) (s.setMode j .woken)
  | relock {j : τ} (hj : s.mode j = .woken) (hx : s.mutex = none) :
      StepRes P s (.relock j) { s.setMode j .awake with mutex := some j }

/-- A thread whose place changes has taken an instruction. -/
theorem StepRes.moved [DecidableEq τ] [DecidableEq κ] {P : τ → lo → Instr σ κ lo} {a : Act τ} (hs : StepRes P s a s')
    (hne : s'.loc i ≠ s.loc i) : s.mode i = .awake ∧ Effect s i (P i (s.loc i)) s' := by
  cases hs with
  | spurious => exact absurd rfl hne
  | relock => exact absurd rfl hne
  | @exec j a s' ha hm he =>
    obtain ⟨n, hn⟩ := he.goto
    have hij : i = j := by
      by_contra hij
      rw [hn, St.goto_loc_of_ne s n hij] at hne
      exact hne rfl
    rw [hij]
    exact ⟨hm, he⟩

/-- **Inversion of a step.** -/
theorem next_inv [DecidableEq τ] [DecidableEq κ] [Fintype τ] {P : τ → lo → Instr σ κ lo} {a : Act τ}
    (h : next P s a = some s') : StepRes P s a s' := by
  cases a with
  | exec i =>
    unfold next at h
    dsimp only at h
    by_cases hm : s.mode i = .awake
    swap
    · rw [if_neg hm] at h
      cases h
    rw [if_pos hm] at h
    refine .exec (.inl rfl) hm ?_
    split at h
    · rename_i n hi
      split_ifs at h with hx
      rw [hi]
      exact ⟨by simpa using hx, (Option.some.inj h).symm⟩
    · rename_i n hi
      split_ifs at h with hx
      rw [hi]
      exact ⟨hx, (Option.some.inj h).symm⟩
    · rename_i c n hi
      split_ifs at h with hx
      rw [hi]
      exact ⟨hx, (Option.some.inj h).symm⟩
    · rename_i c n hi
      split_ifs at h with hj
      rw [hi]
      exact .inl ⟨hj, (Option.some.inj h).symm⟩
    · rename_i c n hi
      rw [hi]
      exact (Option.some.inj h).symm
    · rename_i f hi
      rw [hi]
      exact (Option.some.inj h).symm
    · cases h
  | signal i j =>
    unfold next at h
    dsimp only at h
    by_cases hm : s.mode i = .awake
    swap
    · rw [if_neg hm] at h
      cases h
    rw [if_pos hm] at h
    refine .exec (.inr ⟨j, rfl⟩) hm ?_
    split at h
    · rename_i c n hi
      split_ifs at h with hj
      rw [hi]
      exact .inr ⟨j, hj, (Option.some.inj h).symm⟩
    · cases h
  | spurious j =>
    unfold next at h
    dsimp only at h
    split at h
    · rename_i c hj
      obtain rfl := Option.some.inj h
      exact .spurious hj
    · cases h
  | relock j =>
    unfold next at h
    dsimp only at h
    split_ifs at h with hj
    obtain rfl := Option.some.inj h
    exact .relock hj.1 (by simpa using hj.2)

/-! ## Who holds the mutex -/

/-- Where the program holds the mutex: `lock` leads in, `unlock` leads out, waits and signals stand inside. -/
def Typed (inside : lo → Bool) : Instr σ κ lo → lo → Prop
  | .lock n, l => inside l = false ∧ inside n = true
  | .unlock n, l => inside l = true ∧ inside n = false
  | .wait _ n, l => inside l = true ∧ inside n = true
  | .signal _ n, l => inside l = true ∧ inside n = true
  | .broadcast _ n, l => inside l = true ∧ inside n = true
  | .run f, l => ∀ x, inside (f x).2 = inside l
  | .halt, l => inside l = false

/-- The mutex is held by the thread that runs inside, and who sleeps or was woken stands behind a wait of its program. -/
structure MutexInv (P : τ → lo → Instr σ κ lo) (inside : lo → Bool) (s : St τ σ κ lo) : Prop where
  holds : ∀ i, s.mutex = some i ↔ s.mode i = .awake ∧ inside (s.loc i) = true
  asleep : ∀ i c, s.mode i = .asleep c → ∃ l, P i l = .wait c (s.loc i)
  woken : ∀ i, s.mode i = .woken → ∃ c l, P i l = .wait c (s.loc i)

variable {P : τ → lo → Instr σ κ lo} {inside : lo → Bool}

theorem MutexInv.unique (h : MutexInv P inside s) (hi : s.mode i = .awake) (hl : inside (s.loc i) = true)
    (hj : s.mode j = .awake) (hl' : inside (s.loc j) = true) : i = j := by
  have h1 := (h.holds i).mpr ⟨hi, hl⟩
  have h2 := (h.holds j).mpr ⟨hj, hl'⟩
  exact Option.some.inj (h1.symm.trans h2)

/-- With the mutex free nobody runs inside. -/
theorem MutexInv.free (h : MutexInv P inside s) (hx : s.mutex = none) (hl : inside (s.loc i) = true) :
    s.mode i ≠ .awake := by
  intro hm
  have h1 := (h.holds i).mpr ⟨hm, hl⟩
  rw [hx] at h1
  cases h1

/-- A thread at a place where no wait ends is awake. -/
theorem MutexInv.awake (h : MutexInv P inside s) (hl : ∀ c l, P i l ≠ .wait c (s.loc i)) : s.mode i = .awake := by
  cases hm : s.mode i with
  | awake => rfl
  | asleep c =>
    obtain ⟨l, hw⟩ := h.asleep i c hm
    exact absurd hw (hl c l)
  | woken =>
    obtain ⟨c, l, hw⟩ := h.woken i hm
    exact absurd hw (hl c l)

/-- While `i` runs inside, no other thread is at a place inside where no wait ends. -/
theorem MutexInv.alone (h : MutexInv P inside s) (hi : s.mode i = .awake) (hl : inside (s.loc i) = true)
    (hl' : inside (s.loc j) = true) (hw : ∀ c l, P j l ≠ .wait c (s.loc j)) : j = i :=
  h.unique (h.awake hw) hl' hi hl

theorem initial_mutexInv {x : σ} {start : τ → lo} (h : ∀ i, inside (start i) = false) :
    MutexInv P inside (initial x start) := by
  refine ⟨fun i => ?_, fun i c hi => ?_, fun i hi => ?_⟩
  · simp [initial, h i]
  · cases hi
  · cases hi

/-- A thread inside moves on inside, and sleepers may wake up. -/
theorem MutexInv.move [DecidableEq τ] {m : τ → Mode κ} {x : σ} {n : lo} (h : MutexInv P inside s)
    (hi : s.mode i = .awake) (hn : inside n = inside (s.loc i))
    (hw : ∀ j, m j = s.mode j ∨ (∃ c, s.mode j = .asleep c) ∧ m j = .woken) :
    MutexInv P inside { s.goto i n with shared := x, mode := m } := by
  have hin : ∀ j, inside ((s.goto i n).loc j) = inside (s.loc j) := by
    intro j
    rw [St.goto_loc_apply]
    split_ifs with hj
    · rw [hj, hn]
    · rfl
  have hne : ∀ j, m j ≠ .awake → (s.goto i n).loc j = s.loc j := by
    intro j hj
    refine St.goto_loc_of_ne s n ?_
    rintro rfl
    rcases hw j with hj' | ⟨⟨c, hj'⟩, -⟩
    · exact hj (hj'.trans hi)
    · rw [hi] at hj'
      cases hj'
  refine ⟨fun j => ?_, fun j c hj => ?_, fun j hj => ?_⟩
  · show s.mutex = some j ↔ m j = .awake ∧ inside ((s.goto i n).loc j) = true
    rw [hin j, h.holds j]
    rcases hw j with hj | ⟨⟨c, hj⟩, hj'⟩
    · rw [hj]
    · simp [hj, hj']
  · show ∃ l, P j l = .wait c ((s.goto i n).loc j)
    have hj : m j = .asleep c := hj
    rw [hne j (by simp [hj])]
    rcases hw j with hj' | ⟨-, hj'⟩
    · exact h.asleep j c (hj'.symm.trans hj)
    · rw [hj] at hj'
      cases hj'
  · show ∃ c l, P j l = .wait c ((s.goto i n).loc j)
    have hj : m j = .woken := hj
    rw [hne j (by simp [hj])]
    rcases hw j with hj' | ⟨⟨c, hj'⟩, -⟩
    · exact h.woken j (hj'.symm.trans hj)
    · exact ⟨c, h.asleep j c hj'⟩

/-- A thread takes the mutex or gives it back. -/
theorem MutexInv.pass [DecidableEq τ] {n : lo} {x : Option τ} (h : MutexInv P inside s) (hi : s.mode i = .awake)
    (hx : ∀ j, x = some j ↔ if j = i then inside n = true else s.mutex = some j) :
    MutexInv P inside { s.goto i n with mutex := x } := by
  have hne : ∀ j, s.mode j ≠ .awake → (s.goto i n).loc j = s.loc j := by
    intro j hj
    refine St.goto_loc_of_ne s n ?_
    rintro rfl
    exact hj hi
  refine ⟨fun j => ?_, fun j c hj => ?_, fun j hj => ?_⟩
  · show x = some j ↔ s.mode j = .awake ∧ inside ((s.goto i n).loc j) = true
    rw [hx j, St.goto_loc_apply]
    split_ifs with hj
    · simp [hj, hi]
    · exact h.holds j
  · show ∃ l, P j l = .wait c ((s.goto i n).loc j)
    have hj : s.mode j = .asleep c := hj
    rw [hne j (by simp [hj])]
    exact h.asleep j c hj
  · show ∃ c l, P j l = .wait c ((s.goto i n).loc j)
    have hj : s.mode j = .woken := hj
    rw [hne j (by simp [hj])]
    exact h.woken j hj

/-- A thread falls asleep behind its wait. -/
theorem MutexInv.sleep [DecidableEq τ] {c : κ} {n : lo} (h : MutexInv P inside s) (hx : s.mutex = some i)
    (hP : P i (s.loc i) = .wait c n) :
    MutexInv P inside { (s.goto i n).setMode i (.asleep c) with mutex := none } := by
  refine ⟨fun j => ?_, fun j d hj => ?_, fun j hj => ?_⟩
  · show none = some j ↔ ((s.goto i n).setMode i (.asleep c)).mode j = .awake ∧ inside ((s.goto i n).loc j) = true
    rw [St.setMode_mode_apply]
    by_cases hj : j = i
    · simp [hj]
    · rw [if_neg hj, St.goto_mode, St.goto_loc_of_ne s n hj, ← h.holds j, hx]
      simp [Ne.symm hj]
  · show ∃ l, P j l = .wait d ((s.goto i n).loc j)
    have hj : ((s.goto i n).setMode i (.asleep c)).mode j = .asleep d := hj
    rw [St.setMode_mode_apply] at hj
    split_ifs at hj with hji
    · obtain rfl := Mode.asleep.inj hj
      rw [hji, St.goto_loc_self]
      exact ⟨_, hP⟩
    · rw [St.goto_loc_of_ne s n hji]
      exact h.asleep j d hj
  · show ∃ d l, P j l = .wait d ((s.goto i n).loc j)
    have hj : ((s.goto i n).setMode i (.asleep c)).mode j = .woken := hj
    rw [St.setMode_mode_apply] at hj
    split_ifs at hj with hji
    rw [St.goto_loc_of_ne s n hji]
    exact h.woken j hj

/-- **Step lemma.**  The mutex is held by the thread that runs inside. -/
theorem MutexInv.step [DecidableEq τ] [DecidableEq κ] {a : Act τ} (h : MutexInv P inside s)
    (hP : ∀ i l, Typed inside (P i l) l) (hs : StepRes P s a s') : MutexInv P inside s' := by
  cases hs with
  | @exec i a s' ha hm he =>
    have hty := hP i (s.loc i)
    cases hi : P i (s.loc i) with
    | lock n =>
      rw [hi] at hty he
      obtain ⟨hx, rfl⟩ := he
      refine h.pass hm fun j => ?_
      split_ifs with hj
      · simp [hj, hty.2]
      · simp [hx, Ne.symm hj]
    | unlock n =>
      rw [hi] at hty he
      obtain ⟨hx, rfl⟩ := he
      refine h.pass hm fun j => ?_
      split_ifs with hj
      · simp [hty.2]
      · simp [hx, Ne.symm hj]
    | wait c n =>
      rw [hi] at he
      obtain ⟨hx, rfl⟩ := he
      exact h.sleep hx hi
    | signal c n =>
      rw [hi] at hty he
      rcases he with ⟨-, rfl⟩ | ⟨j, hj, rfl⟩
      · exact h.move hm (hty.2.trans hty.1.symm) fun j => .inl rfl
      · refine h.move hm (hty.2.trans hty.1.symm) fun k => ?_
        rw [St.setMode_mode_apply]
        split_ifs with hk
        · exact .inr ⟨⟨c, hk ▸ hj⟩, rfl⟩
        · exact .inl rfl
    | broadcast c n =>
      rw [hi] at hty he
      obtain rfl := he
      refine h.move hm (hty.2.trans hty.1.symm) fun k => ?_
      rw [St.wakeAll_mode]
      split_ifs with hk
      · exact .inr ⟨⟨c, hk⟩, rfl⟩
      · exact .inl rfl
    | run f =>
      rw [hi] at hty he
      obtain rfl := he
      exact h.move hm (hty s.shared) fun j => .inl rfl
    | halt =>
      rw [hi] at he
      cases he
  | @spurious j c hj =>
    refine ⟨fun k => ?_, fun k d hk => ?_, fun k hk => ?_⟩
    · rw [St.setMode_mode_apply]
      show s.mutex = some k ↔ _ ∧ inside (s.loc k) = true
      rw [h.holds k]
      split_ifs with hk
      · rw [hk, hj]
        simp
      · rfl
    · exact h.asleep k d (St.asleep_of_setMode (by simp) hk).1
    · rw [St.setMode_mode_apply] at hk
      split_ifs at hk with hkj
      · rw [hkj]
        exact ⟨c, h.asleep j c hj⟩
      · exact h.woken k hk
  | @relock j hj hx =>
    have hin : inside (s.loc j) = true := by
      obtain ⟨c, l, hw⟩ := h.woken j hj
      have hty := hP j l
      rw [hw] at hty
      exact hty.2
    refine ⟨fun k => ?_, fun k d hk => ?_, fun k hk => ?_⟩
    · show some j = some k ↔ (s.setMode j .awake).mode k = .awake ∧ inside (s.loc k) = true
      rw [St.setMode_mode_apply]
      by_cases hk : k = j
      · subst hk
        simp [hin]
      · rw [if_neg hk, ← h.holds k, hx]
        simp [Ne.symm hk]
    · exact h.asleep k d (St.asleep_of_setMode (s := s) (x := .awake) (by simp) hk).1
    · have hk : (s.setMode j .awake).mode k = .woken := hk
      rw [St.setMode_mode_apply] at hk
      split_ifs at hk
      exact h.woken k hk

/-- **Step rule for programs.**  The invariant reads the shared variables and the places of the threads, and may say something
about sleepers that stays true when one of them wakes up; so only the instructions are to be looked at. -/
theorem StepRes.preserves [DecidableEq τ] [DecidableEq κ] {I : St τ σ κ lo → Prop} {a : Act τ} (hs : StepRes P s a s')
    (hI : MutexInv P inside s ∧ I s) (hP : ∀ i l, Typed inside (P i l) l)
    (hwake : ∀ s t, I s → t.shared = s.shared → t.loc = s.loc →
      (∀ i c, t.mode i = .asleep c → s.mode i = .asleep c) → I t)
    (hexec : ∀ i s', (a = .exec i ∨ ∃ j, a = .signal i j) → s.mode i = .awake → Effect s i (P i (s.loc i)) s' → I s') :
    MutexInv P inside s' ∧ I s' := by
  refine ⟨hI.1.step hP hs, ?_⟩
  cases hs with
  | exec ha hm he => exact hexec _ s' ha hm he
  | @spurious j c hj =>
    refine hwake s _ hI.2 rfl rfl fun i d hi => ?_
    exact (St.asleep_of_setMode (by simp) hi).1
  | @relock j hj hx =>
    refine hwake s _ hI.2 rfl rfl fun i d hi => ?_
    exact (St.asleep_of_setMode (s := s) (x := .awake) (by simp) hi).1

/-! ## Counting -/

section Count

variable [Fintype τ]

/-- How many threads are at a place that `p` selects. -/
def count (p : τ → lo → Bool) (s : St τ σ κ lo) : ℤ := ∑ i, if p i (s.loc i) then 1 else 0

/-- One thread moves. -/
theorem count_move [DecidableEq τ] (p : τ → lo → Bool) {n : lo} (h : t.loc = (s.goto i n).loc) :
    count p t + (if p i (s.loc i) then 1 else 0) = count p s + (if p i n then 1 else 0) := by
  have hw := sum_write (f := fun j => if p j (s.loc j) then (1 : ℤ) else 0)
    (g := fun j => if p j (t.loc j) then (1 : ℤ) else 0) (i := i)
    fun j hj => by rw [h, St.goto_loc_of_ne s n hj]
  have hn : t.loc i = n := by rw [h, St.goto_loc_self]
  rw [hn] at hw
  exact hw

theorem count_congr {p : τ → lo → Bool} (h : ∀ i, p i (t.loc i) = p i (s.loc i)) : count p t = count p s := by
  unfold count
  simp only [h]

/-- One thread moves, and `p` does not see it. -/
theorem count_same [DecidableEq τ] {p : τ → lo → Bool} {n : lo} (h : t.loc = (s.goto i n).loc)
    (hp : p i n = p i (s.loc i)) : count p t = count p s := by
  have hm := count_move p h
  rw [hp] at hm
  omega

/-- One thread comes to where `p` counts it. -/
theorem count_enter [DecidableEq τ] {p : τ → lo → Bool} {n : lo} (h : t.loc = (s.goto i n).loc)
    (hp : p i (s.loc i) = false) (hn : p i n = true) : count p t = count p s + 1 := by
  have hm := count_move p h
  rw [hp, hn] at hm
  simpa using hm

/-- One thread goes from where `p` counts it. -/
theorem count_leave [DecidableEq τ] {p : τ → lo → Bool} {n : lo} (h : t.loc = (s.goto i n).loc)
    (hp : p i (s.loc i) = true) (hn : p i n = false) : count p t = count p s - 1 := by
  have hm := count_move p h
  rw [hp, hn] at hm
  simp at hm
  omega

theorem count_nonneg (p : τ → lo → Bool) (s : St τ σ κ lo) : 0 ≤ count p s :=
  Finset.sum_nonneg fun i _ => by split_ifs <;> decide

theorem count_pos {p : τ → lo → Bool} (h : p i (s.loc i) = true) : 1 ≤ count p s := by
  have h1 := Finset.single_le_sum (f := fun j => if p j (s.loc j) then (1 : ℤ) else 0) (s := Finset.univ)
    (fun j _ => by split_ifs <;> decide) (Finset.mem_univ i)
  rw [if_pos h] at h1
  exact h1

theorem count_eq_zero {p : τ → lo → Bool} : count p s = 0 ↔ ∀ i, p i (s.loc i) = false := by
  constructor
  · intro h i
    by_contra hp
    have := count_pos (s := s) (p := p) (i := i) (by simpa using hp)
    omega
  · intro h
    simp [count, h]

theorem exists_of_count_pos {p : τ → lo → Bool} (h : 0 < count p s) : ∃ i, p i (s.loc i) = true := by
  by_contra hne
  have : count p s = 0 := count_eq_zero.mpr fun i => by simpa using fun hi => hne ⟨i, hi⟩
  omega

theorem count_le {p q : τ → lo → Bool} (h : ∀ i, p i (s.loc i) = true → q i (s.loc i) = true) : count p s ≤ count q s := by
  refine Finset.sum_le_sum fun i _ => ?_
  split_ifs with hp hq hq
  · exact le_rfl
  · exact absurd (h i hp) hq
  · decide
  · exact le_rfl

/-- Where at most one thread is counted, two counted threads are the same. -/
theorem eq_of_count_le_one {p : τ → lo → Bool} (h : count p s ≤ 1) (hi : p i (s.loc i) = true)
    (hj : p j (s.loc j) = true) : i = j := by
  classical
  by_contra hij
  have hsub : ∑ k ∈ {i, j}, (if p k (s.loc k) then (1 : ℤ) else 0) ≤ count p s :=
    Finset.sum_le_sum_of_subset_of_nonneg (Finset.subset_univ _) fun k _ _ => by split_ifs <;> decide
  rw [Finset.sum_pair hij, if_pos hi, if_pos hj] at hsub
  omega

/-! Threads of several kinds are counted kind by kind. -/

variable {β : Type} [DecidableEq β] {g : τ → β} {k : β} {p : lo → Bool}

/-- How many threads of kind `k` are at a place that `p` selects. -/
def countOf (kind : τ → β) (k : β) (p : lo → Bool) (s : St τ σ κ lo) : ℤ :=
  count (fun i l => decide (kind i = k) && p l) s

theorem countOf_congr (h : ∀ i, p (t.loc i) = p (s.loc i)) : countOf g k p t = countOf g k p s :=
  count_congr fun i => by rw [h i]

theorem countOf_enter [DecidableEq τ] {n : lo} (h : t.loc = (s.goto i n).loc) (hp : p (s.loc i) = false) (hn : p n = true) :
    countOf g k p t = countOf g k p s + if k = g i then 1 else 0 := by
  split_ifs with hk
  · exact count_enter h (by simp [hp]) (by simp [hn, hk])
  · rw [add_zero]
    exact count_same h (by simp [Ne.symm hk])

theorem countOf_leave [DecidableEq τ] {n : lo} (h : t.loc = (s.goto i n).loc) (hp : p (s.loc i) = true) (hn : p n = false) :
    countOf g k p t = countOf g k p s - if k = g i then 1 else 0 := by
  split_ifs with hk
  · exact count_leave h (by simp [hp, hk]) (by simp [hn])
  · rw [sub_zero]
    exact count_same h (by simp [Ne.symm hk])

theorem countOf_same [DecidableEq τ] {n : lo} (h : t.loc = (s.goto i n).loc) (hp : p n = p (s.loc i)) :
    countOf g k p t = countOf g k p s :=
  count_same h (by simp [hp])

/-- One thread moves: what it was counted for and what it is counted for. -/
theorem countOf_delta [DecidableEq τ] {n : lo} (h : t.loc = (s.goto i n).loc) :
    countOf g k p t = countOf g k p s +
      if k = g i then (if p n then 1 else 0) - (if p (s.loc i) then 1 else 0) else 0 := by
  have hm := count_move (fun j l => decide (g j = k) && p l) h
  have hs : countOf g k p s = count (fun j l => decide (g j = k) && p l) s := rfl
  have ht : countOf g k p t = count (fun j l => decide (g j = k) && p l) t := rfl
  by_cases hk : k = g i
  · rw [if_pos hk]
    simp only [← hk, decide_true, Bool.true_and] at hm
    omega
  · rw [if_neg hk]
    simp only [Ne.symm hk, decide_false, Bool.false_and] at hm
    rw [ht, hs]
    simpa using hm

theorem countOf_nonneg (g : τ → β) (k : β) (p : lo → Bool) (s : St τ σ κ lo) : 0 ≤ countOf g k p s :=
  count_nonneg _ s

theorem countOf_pos (h : p (s.loc i) = true) : 0 < countOf g (g i) p s :=
  count_pos (s := s) (p := fun j l => decide (g j = g i) && p l) (i := i) (by simp [h])

theorem exists_of_countOf_pos (h : 0 < countOf g k p s) : ∃ i, p (s.loc i) = true ∧ g i = k := by
  obtain ⟨i, hi⟩ := exists_of_count_pos (p := fun i l => decide (g i = k) && p l) h
  simp only [Bool.and_eq_true, decide_eq_true_eq] at hi
  exact ⟨i, hi.2, hi.1⟩

/-- Two ways to count that agree on the threads of the kind. -/
theorem countOf_eq {q : lo → Bool} (h : ∀ i, g i = k → p (s.loc i) = q (s.loc i)) :
    countOf g k p s = countOf g k q s := by
  refine Finset.sum_congr rfl fun i _ => ?_
  by_cases hi : g i = k
  · simp [hi, h i hi]
  · simp [hi]

theorem indicator_le {b p q : Bool} (h : p = true → q = true) :
    (if (b && p) = true then (1 : ℤ) else 0) ≤ if (b && q) = true then 1 else 0 := by
  cases b <;> cases p <;> cases q <;> simp_all

theorem countOf_le {q : lo → Bool} (h : ∀ l, p l = true → q l = true) : countOf g k p s ≤ countOf g k q s :=
  Finset.sum_le_sum fun i _ => indicator_le (h (s.loc i))

/-- A thread that only the second way counts. -/
theorem countOf_lt {q : lo → Bool} (h : ∀ l, p l = true → q l = true) (hp : p (s.loc i) = false) (hq : q (s.loc i) = true) :
    countOf g (g i) p s < countOf g (g i) q s := by
  refine Finset.sum_lt_sum (fun j _ => indicator_le (h (s.loc j))) ⟨i, Finset.mem_univ i, ?_⟩
  simp [hp, hq]

theorem countOf_eq_zero (h : ∀ i, p (s.loc i) = false) : countOf g k p s = 0 :=
  count_eq_zero.mpr fun i => by simp [h i]

end Count

/-! One thread apart from the others. -/

section Option

variable {ρ : Type} [Fintype ρ] {s : St (Option ρ) σ κ lo} {p : lo → Bool}

theorem count_some (h : p (s.loc none) = false) :
    count (fun _ => p) s = ∑ r : ρ, if p (s.loc (some r)) = true then (1 : ℤ) else 0 := by
  unfold count
  rw [Fintype.sum_option]
  simp [h]

theorem count_some_le (h : p (s.loc none) = false) : count (fun _ => p) s ≤ Fintype.card ρ := by
  have hsum : ∑ r : ρ, (if p (s.loc (some r)) = true then (1 : ℤ) else 0) ≤ ∑ _ : ρ, (1 : ℤ) :=
    Finset.sum_le_sum fun r _ => by split_ifs <;> decide
  rw [count_some h]
  simpa using hsum

/-- All others are counted. -/
theorem count_some_eq_card (h : p (s.loc none) = false) :
    count (fun _ => p) s = Fintype.card ρ ↔ ∀ r, p (s.loc (some r)) = true := by
  rw [count_some h]
  constructor
  · intro hc r
    by_contra hr
    have hlt : ∑ r : ρ, (if p (s.loc (some r)) = true then (1 : ℤ) else 0) < ∑ _ : ρ, (1 : ℤ) :=
      Finset.sum_lt_sum (fun r _ => by split_ifs <;> decide) ⟨r, Finset.mem_univ r, by simp [hr]⟩
    simp only [Finset.sum_const, Finset.card_univ, nsmul_eq_mul, mul_one] at hlt
    omega
  · intro hall
    simp [hall]

end Option

/-! ## Deadlock -/

def Instr.isHalt : Instr σ κ lo → Bool
  | .halt => true
  | _ => false

def Mode.isAsleep : Mode κ → Bool
  | .asleep _ => true
  | _ => false

theorem Mode.isAsleep_iff {m : Mode κ} : m.isAsleep = true ↔ ∃ c, m = .asleep c := by
  cases m <;> simp [Mode.isAsleep]

theorem Mode.isAsleep_eq_false {m : Mode κ} : m.isAsleep = false ↔ ∀ c, m ≠ .asleep c := by
  cases m <;> simp [Mode.isAsleep]

/-- Thread `i` has not come to the end of its program. -/
def Unfinished (P : τ → lo → Instr σ κ lo) (s : St τ σ κ lo) (i : τ) : Prop := (P i (s.loc i)).isHalt = false

/-- Every thread that has not finished sleeps. -/
def AllAsleep (P : τ → lo → Instr σ κ lo) (s : St τ σ κ lo) : Prop :=
  ∀ i, Unfinished P s i → (s.mode i).isAsleep = true

/-- Somebody has not finished, and whoever has not finished sleeps. -/
def Deadlock (P : τ → lo → Instr σ κ lo) (s : St τ σ κ lo) : Prop := (∃ i, Unfinished P s i) ∧ AllAsleep P s

instance (s : St τ σ κ lo) (i : τ) : Decidable (Unfinished P s i) := inferInstanceAs (Decidable (_ = _))

instance [Fintype τ] (s : St τ σ κ lo) : Decidable (AllAsleep P s) := inferInstanceAs (Decidable (∀ _, _))

instance [Fintype τ] (s : St τ σ κ lo) : Decidable (Deadlock P s) := inferInstanceAs (Decidable (_ ∧ _))

/-- When all sleep, a thread at a place that is not the end and where no wait ends cannot be. -/
theorem AllAsleep.elim (ha : AllAsleep P s) (h : MutexInv P inside s) (hi : Unfinished P s i)
    (hw : ∀ c l, P i l ≠ .wait c (s.loc i)) : False := by
  have hm := ha i hi
  rw [h.awake hw] at hm
  cases hm

section Quiet

variable [DecidableEq τ] [DecidableEq κ] [Fintype τ]

/-- Nothing can happen any more, except that a sleeper wakes without a signal. -/
def Quiet (P : τ → lo → Instr σ κ lo) (s : St τ σ κ lo) : Prop := ∀ a s', next P s a = some s' → ∃ j, a = .spurious j

/-- A thread that runs and has not finished can take its instruction, unless it is a `lock` and the mutex is held. -/
theorem next_exists (h : MutexInv P inside s) (hP : ∀ i l, Typed inside (P i l) l) (hm : s.mode i = .awake)
    (hi : Unfinished P s i) (hx : s.mutex = none ∨ inside (s.loc i) = true) :
    ∃ a s', next P s a = some s' ∧ ∀ j, a ≠ .spurious j := by
  have hty := hP i (s.loc i)
  have hold : inside (s.loc i) = true → s.mutex = some i := fun hin => (h.holds i).mpr ⟨hm, hin⟩
  have hexec : ∀ s', next P s (.exec i) = some s' → ∃ a s', next P s a = some s' ∧ ∀ j, a ≠ .spurious j :=
    fun s' hs => ⟨.exec i, s', hs, fun j hj => by cases hj⟩
  cases hl : P i (s.loc i) with
  | lock n =>
    rw [hl] at hty
    rcases hx with hx | hx
    · exact hexec { s.goto i n with mutex := some i } (by simp [next, hm, hl, hx])
    · rw [hty.1] at hx
      cases hx
  | unlock n =>
    rw [hl] at hty
    exact hexec { s.goto i n with mutex := none } (by simp [next, hm, hl, hold hty.1])
  | wait c n =>
    rw [hl] at hty
    exact hexec { (s.goto i n).setMode i (.asleep c) with mutex := none } (by simp [next, hm, hl, hold hty.1])
  | signal c n =>
    by_cases hj : ∀ j, s.mode j ≠ .asleep c
    · exact hexec (s.goto i n) (by simp [next, hm, hl, hj])
    · push Not at hj
      obtain ⟨j, hj⟩ := hj
      refine ⟨.signal i j, (s.setMode j .woken).goto i n, by simp [next, hm, hl, hj], fun k hk => by cases hk⟩
  | broadcast c n => exact hexec ((s.wakeAll c).goto i n) (by simp [next, hm, hl])
  | run f => exact hexec (s.assign i (f s.shared).2 (f s.shared).1) (by simp [next, hm, hl])
  | halt => simp [Unfinished, hl, Instr.isHalt] at hi

/-- **A run ends only when every unfinished thread sleeps.** -/
theorem Quiet.allAsleep (hq : Quiet P s) (h : MutexInv P inside s) (hP : ∀ i l, Typed inside (P i l) l) :
    AllAsleep P s := by
  have hrun : ∀ i, s.mode i = .awake → Unfinished P s i → s.mutex = none ∨ inside (s.loc i) = true → False := by
    intro i hm hi hx
    obtain ⟨a, s', hs, ha⟩ := next_exists h hP hm hi hx
    obtain ⟨j, rfl⟩ := hq a s' hs
    exact ha j rfl
  -- the holder of the mutex could go on
  have hfree : s.mutex = none := by
    by_contra hx
    obtain ⟨j, hj⟩ := Option.ne_none_iff_exists'.mp hx
    obtain ⟨hm, hin⟩ := (h.holds j).mp hj
    refine hrun j hm ?_ (.inr hin)
    have hty := hP j (s.loc j)
    unfold Unfinished
    cases hl : P j (s.loc j) with
    | halt =>
      rw [hl] at hty
      have hty : inside (s.loc j) = false := hty
      rw [hin] at hty
      cases hty
    | _ => rfl
  intro i hi
  cases hm : s.mode i with
  | awake => exact (hrun i hm hi (.inl hfree)).elim
  | asleep c => rfl
  | woken =>
    have hs : next P s (.relock i) = some { s.setMode i .awake with mutex := some i } := by simp [next, hm, hfree]
    obtain ⟨j, hj⟩ := hq _ _ hs
    cases hj

end Quiet

/-! ## Runs -/

section Runs

variable [DecidableEq τ] [DecidableEq κ] [Fintype τ] {ok : St τ σ κ lo → Act τ → Prop} {x : σ} {start : τ → lo}

/-- The states that the program reaches from `x` with every thread at its start, along runs that respect `ok`. -/
def Reachable (P : τ → lo → Instr σ κ lo) (ok : St τ σ κ lo → Act τ → Prop) (x : σ) (start : τ → lo) :
    St τ σ κ lo → Prop :=
  Reach (Step P) ok fun s => s = initial x start

/-- **Invariant rule.** -/
theorem Reachable.inv {I : St τ σ κ lo → Prop} (h : Reachable P ok x start s) (h0 : I (initial x start))
    (hstep : ∀ s a s', I s → ok s a → StepRes P s a s' → I s') : I s := by
  refine Reach.inv h ?_ ?_
  · rintro s rfl
    exact h0
  · intro s a o s' hI hok hs
    exact hstep s a s' hI hok (next_inv hs)

/-- **Invariant rule for programs.** -/
theorem Reachable.program_inv {I : St τ σ κ lo → Prop} (h : Reachable P ok x start s)
    (hP : ∀ i l, Typed inside (P i l) l) (hin : ∀ i, inside (start i) = false) (h0 : I (initial x start))
    (hwake : ∀ s t, I s → t.shared = s.shared → t.loc = s.loc →
      (∀ i c, t.mode i = .asleep c → s.mode i = .asleep c) → I t)
    (hexec : ∀ s a i s', I s → MutexInv P inside s → ok s a → (a = .exec i ∨ ∃ j, a = .signal i j) → s.mode i = .awake →
      Effect s i (P i (s.loc i)) s' → I s') : MutexInv P inside s ∧ I s := by
  refine h.inv (I := fun s => MutexInv P inside s ∧ I s) ⟨initial_mutexInv hin, h0⟩ ?_
  intro s a s' hI hok hs
  exact hs.preserves hI hP hwake fun i s' ha hm he => hexec s a i s' hI.2 hI.1 hok ha hm he

/-- Run the step function on a list of actions, as long as the guard admits them. -/
def runs (P : τ → lo → Instr σ κ lo) (ok : St τ σ κ lo → Act τ → Prop) [∀ s a, Decidable (ok s a)] (s : St τ σ κ lo)
    (as : List (Act τ)) : Option (List (Ev (St τ σ κ lo) (Act τ) Unit) × St τ σ κ lo) :=
  execute (fun s a => (next P s a).map fun t => ((), t)) ok s as

/-- **Computed runs.** -/
theorem exists_run (ok : St τ σ κ lo → Act τ → Prop) [∀ s a, Decidable (ok s a)] (s : St τ σ κ lo) (as : List (Act τ))
    (Q : List (Ev (St τ σ κ lo) (Act τ) Unit) → St τ σ κ lo → Prop) [∀ tr t, Decidable (Q tr t)]
    (h : (runs P ok s as).any (fun x => decide (Q x.1 x.2)) = true) :
    ∃ tr t, Run (Step P) ok s tr t ∧ Q tr t := by
  refine exists_run_of_execute ?_ h
  intro s a o t ht
  obtain ⟨u, hu, he⟩ := Option.map_eq_some_iff.mp ht
  obtain ⟨-, rfl⟩ := Prod.mk.inj he
  exact hu

/-- A state that a computation reaches. -/
theorem exists_reachable (ok : St τ σ κ lo → Act τ → Prop) [∀ s a, Decidable (ok s a)] (x : σ) (start : τ → lo)
    (as : List (Act τ)) (Q : St τ σ κ lo → Prop) [∀ t, Decidable (Q t)]
    (h : (runs P ok (initial x start) as).any (fun y => decide (Q y.2)) = true) :
    ∃ t, Reachable P ok x start t ∧ Q t := by
  obtain ⟨tr, t, hr, hq⟩ := exists_run ok (initial x start) as (fun _ t => Q t) h
  exact ⟨t, ⟨_, tr, rfl, hr⟩, hq⟩

end Runs

end OsLabs.Monitor
