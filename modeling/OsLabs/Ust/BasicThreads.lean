import Mathlib.Data.List.Nodup
import Mathlib.Logic.Function.Basic
import OsLabs.Lts

/-!
# OsLabs.Ust.BasicThreads — cooperative threads over `ucontext`

`basic_threads.c`: up to `MAX_THREADS` contexts, each on a stack of its own, and a scheduler that goes over the slots in passes.  A thread
runs until it calls `yield` or `finish_thread`, or returns into `thread_helper`, which calls `finish_thread`; the scheduler frees the stack
of a slot when it finds it inactive after the switch back.

A body is the list of the calls it makes, a function of the pointer and the parameter it was created with.  `swapcontext` saves exactly one
context and restores exactly one: what a saved context holds is a `Thread`.  Stacks are numbered in the order in which they are allocated,
and the number of its stack names a thread.  The state also carries what happened so far: the threads `created`, the stacks `freed`, the
calls made (`log`) and the number of passes.

* `step`: one step of `main`, of the scheduler or of the running thread; `step_res` says what it can do.
* `Inv`: what links slots, stacks and threads; `Inv.step`, `run_inv`.
* `stacks_accounted`: each stack is freed once, by the scheduler, after its thread has finished, and none is lost.
-/

namespace OsLabs.Ust

open Lts

def MAX_THREADS : ℕ := 5

/-- The calls of a body; the parameter `none` is `NULL`. -/
inductive Op (Fn Par : Type*)
  | yield
  | create (fn : Fn) (par : Option Par)
  | finish
deriving DecidableEq

/-- `create_new_thread`. -/
def Op.createNewThread {Fn Par : Type*} (fn : Fn) : Op Fn Par := .create fn none

/-- What a context stands for: the stack it runs on, the function and parameter `thread_helper` got, the calls still to come. -/
structure Thread (Fn Par : Type*) where
  stack : ℕ
  fn : Fn
  par : Option Par
  rest : List (Op Fn Par)
deriving DecidableEq

/-- `ucontext_t`: `uc_stack.ss_sp` and the saved registers.  `ss_sp = none` is a null pointer or one from before
`initialize_basic_threads`. -/
structure Ucontext (Fn Par : Type*) where
  ss_sp : Option ℕ
  saved : Option (Thread Fn Par)

/-- Why the program exited: `I don't have enough place` or `malloc: Could not allocate stack`. -/
inductive Exit
  | noPlace
  | noMemory
deriving DecidableEq

/-- Where the control is: `main` with the threads it still creates; the head of the `for` loop of `schedule_threads` with its `i` and
`run`; inside the thread of slot `i`; behind the `swapcontext` of the scheduler.  In the last two `run` is `true`. -/
inductive Ctl (Fn Par : Type*)
  | main (todo : List (Fn × Option Par))
  | loop (i : ℕ) (run : Bool)
  | running (i : ℕ) (t : Thread Fn Par)
  | back (i : ℕ)
  | returned
  | exited (e : Exit)
deriving DecidableEq

/-- The globals, the control, and the history. -/
structure St (Fn Par : Type*) where
  threads : ℕ → Ucontext Fn Par
  active : ℕ → Bool
  num_threads : ℕ
  current : ℕ
  ctl : Ctl Fn Par
  created : List (Fn × Option Par)
  freed : List ℕ
  log : List (ℕ × Op Fn Par)
  pass : ℕ

variable {Fn Par : Type*}

/-- The loop of `find_empty` at `i`, with `n` more slots behind it; `none` is `-1`. -/
def findEmptyFrom (active : ℕ → Bool) : ℕ → ℕ → Option ℕ
  | 0, i => if active i then none else some i
  | n + 1, i => if active i then findEmptyFrom active n (i + 1) else some i

def findEmpty (active : ℕ → Bool) : Option ℕ := findEmptyFrom active (MAX_THREADS - 1) 0

namespace St

/-- `initialize_basic_threads`, then `main` is about to create the threads of `creates`.  The contexts and `current` are left over. -/
def initializeBasicThreads (saved : ℕ → Option (Thread Fn Par)) (current : ℕ) (creates : List (Fn × Option Par)) : St Fn Par where
  threads i := ⟨none, saved i⟩
  active _ := false
  num_threads := 0
  current := current
  ctl := .main creates
  created := []
  freed := []
  log := []
  pass := 0

/-- The part of `create_new_parameterized_thread` behind a successful `malloc`. -/
def install (code : Fn → Option Par → List (Op Fn Par)) (s : St Fn Par) (empty : ℕ) (fn : Fn) (par : Option Par) : St Fn Par :=
  { s with
    threads := Function.update s.threads empty ⟨some s.created.length, some ⟨s.created.length, fn, par, code fn par⟩⟩
    active := Function.update s.active empty true
    num_threads := if empty ≥ s.num_threads then empty + 1 else s.num_threads
    created := s.created ++ [(fn, par)] }

/-- `malloc` returned a null pointer into the slot. -/
def clear (s : St Fn Par) (empty : ℕ) : St Fn Par :=
  { s with threads := Function.update s.threads empty ⟨none, (s.threads empty).saved⟩ }

/-- `create_new_parameterized_thread`; `mem` says whether `malloc` finds memory. -/
def createNewParameterizedThread (code : Fn → Option Par → List (Op Fn Par)) (s : St Fn Par) (fn : Fn) (par : Option Par)
    (mem : Bool) : Option Exit × St Fn Par :=
  match findEmpty s.active with
  | none => (some .noPlace, s)
  | some empty => if mem then (none, s.install code empty fn par) else (some .noMemory, s.clear empty)

/-- `swapcontext(&threads[current], &scheduler)` out of the thread `t`: the scheduler goes on behind its own switch to slot `i`. -/
def swapOut (s : St Fn Par) (i : ℕ) (t : Thread Fn Par) : St Fn Par :=
  { s with threads := Function.update s.threads s.current ⟨(s.threads s.current).ss_sp, some t⟩, ctl := .back i }

def yield (s : St Fn Par) (i : ℕ) (t : Thread Fn Par) : St Fn Par :=
  { s.swapOut i t with log := s.log ++ [(t.stack, .yield)] }

def finishThread (s : St Fn Par) (i : ℕ) (t : Thread Fn Par) : St Fn Par :=
  { s.swapOut i t with active := Function.update s.active s.current false, log := s.log ++ [(t.stack, .finish)] }

/-- `free(threads[i].uc_stack.ss_sp)`. -/
def free (s : St Fn Par) (i : ℕ) : St Fn Par :=
  { s with freed := s.freed ++ (s.threads i).ss_sp.toList }

/-- One step.  A switch to a context that nothing was saved in has no result. -/
def step (code : Fn → Option Par → List (Op Fn Par)) (s : St Fn Par) (mem : Bool) : Option (St Fn Par) :=
  match s.ctl with
  | .main [] => some { s with ctl := .loop 0 false, pass := s.pass + 1 }
  | .main ((fn, par) :: todo) =>
    match s.createNewParameterizedThread code fn par mem with
    | (some e, t) => some { t with ctl := .exited e }
    | (none, t) => some { t with ctl := .main todo }
  | .loop i run =>
    if i < s.num_threads then
      if s.active i then
        match (s.threads i).saved with
        | some t => some { s with current := i, ctl := .running i t }
        | none => none
      else some { s with ctl := .loop (i + 1) run }
    else if run then some { s with ctl := .loop 0 false, pass := s.pass + 1 }
    else some { s with ctl := .returned }
  | .running i t =>
    match t.rest with
    | .yield :: rest => some (s.yield i { t with rest := rest })
    | .create fn par :: rest =>
      match s.createNewParameterizedThread code fn par mem with
      | (some e, u) => some { u with ctl := .exited e }
      | (none, u) => some { u with ctl := .running i { t with rest := rest }, log := s.log ++ [(t.stack, .create fn par)] }
    -- `finish_thread`, called by the body or by `thread_helper` behind it
    | .finish :: rest => some (s.finishThread i { t with rest := rest })
    | [] => some (s.finishThread i t)
  | .back i =>
    if s.active i then some { s with ctl := .loop (i + 1) true }
    else some { s.free i with ctl := .loop (i + 1) true }
  | .returned => none
  | .exited _ => none

end St

/-- The step relation; the action says whether `malloc` finds memory. -/
def Step (code : Fn → Option Par → List (Op Fn Par)) (s : St Fn Par) (mem : Bool) (_ : Unit) (t : St Fn Par) : Prop :=
  s.step code mem = some t

/-- The runs of `initialize_basic_threads`, the creates of `main` and `schedule_threads`. -/
def Runs (code : Fn → Option Par → List (Op Fn Par)) (tr : List (Ev (St Fn Par) Bool Unit)) (t : St Fn Par) : Prop :=
  ∃ saved current creates, Run (Step code) always (St.initializeBasicThreads saved current creates) tr t

/-- The thread on stack `p` has finished. -/
def Finished (s : St Fn Par) (p : ℕ) : Prop := (p, .finish) ∈ s.log

/-- The thread on stack `p` is active, in slot `i`. -/
def At (s : St Fn Par) (i p : ℕ) : Prop := s.active i = true ∧ (s.threads i).ss_sp = some p

instance (s : St Fn Par) (i p : ℕ) : Decidable (At s i p) := inferInstanceAs (Decidable (_ ∧ _))

def Active (s : St Fn Par) (p : ℕ) : Prop := ∃ i, At s i p

/-! ## What a step can do -/

section

variable {code : Fn → Option Par → List (Op Fn Par)} {s t : St Fn Par}

/-- The control is at a create of `fn` and `par`; with `ctl` and `log` it goes on. -/
inductive Creating (s : St Fn Par) (fn : Fn) (par : Option Par) : Ctl Fn Par → List (ℕ × Op Fn Par) → Prop
  | main {todo} (h : s.ctl = .main ((fn, par) :: todo)) : Creating s fn par (.main todo) s.log
  | thread {i t rest} (h : s.ctl = .running i t) (hr : t.rest = .create fn par :: rest) :
      Creating s fn par (.running i { t with rest := rest }) (s.log ++ [(t.stack, .create fn par)])

/-- **What a step can do**, with its guards. -/
inductive StepRes (code : Fn → Option Par → List (Op Fn Par)) (s : St Fn Par) : Bool → St Fn Par → Prop
  | create {fn par ctl log empty} (hc : Creating s fn par ctl log) (hf : findEmpty s.active = some empty) :
      StepRes code s true { s.install code empty fn par with ctl := ctl, log := log }
  | noPlace {fn par ctl log mem} (hc : Creating s fn par ctl log) (hf : findEmpty s.active = none) :
      StepRes code s mem { s with ctl := .exited .noPlace }
  | noMemory {fn par ctl log empty} (hc : Creating s fn par ctl log) (hf : findEmpty s.active = some empty) :
      StepRes code s false { s.clear empty with ctl := .exited .noMemory }
  | pass {mem} (hc : s.ctl = .main [] ∨ ∃ i, s.ctl = .loop i true ∧ s.num_threads ≤ i) :
      StepRes code s mem { s with ctl := .loop 0 false, pass := s.pass + 1 }
  | dispatch {mem i run t} (hc : s.ctl = .loop i run) (hi : i < s.num_threads) (ha : s.active i = true)
      (ht : (s.threads i).saved = some t) : StepRes code s mem { s with current := i, ctl := .running i t }
  | skip {mem i run} (hc : s.ctl = .loop i run) (hi : i < s.num_threads) (ha : s.active i = false) :
      StepRes code s mem { s with ctl := .loop (i + 1) run }
  | ret {mem i} (hc : s.ctl = .loop i false) (hi : s.num_threads ≤ i) : StepRes code s mem { s with ctl := .returned }
  | yield {mem i t rest} (hc : s.ctl = .running i t) (hr : t.rest = .yield :: rest) :
      StepRes code s mem (s.yield i { t with rest := rest })
  | finish {mem i t rest} (hc : s.ctl = .running i t) (hr : t.rest = .finish :: rest ∨ t.rest = [] ∧ rest = []) :
      StepRes code s mem (s.finishThread i { t with rest := rest })
  | keep {mem i} (hc : s.ctl = .back i) (ha : s.active i = true) : StepRes code s mem { s with ctl := .loop (i + 1) true }
  | free {mem i} (hc : s.ctl = .back i) (ha : s.active i = false) :
      StepRes code s mem { s.free i with ctl := .loop (i + 1) true }

/-- A create, wherever the control came from. -/
theorem create_cases {fn : Fn} {par : Option Par} {ctl : Ctl Fn Par} {log : List (ℕ × Op Fn Par)} {mem : Bool}
    (hc : Creating s fn par ctl log)
    (h : (match s.createNewParameterizedThread code fn par mem with
      | (some e, u) => some { u with ctl := .exited e }
      | (none, u) => some { u with ctl := ctl, log := log }) = some t) : StepRes code s mem t := by
  unfold St.createNewParameterizedThread at h
  cases hf : findEmpty s.active with
  | none =>
    rw [hf] at h
    obtain rfl := Option.some.inj h
    exact .noPlace hc hf
  | some empty =>
    rw [hf] at h
    cases mem with
    | true =>
      obtain rfl := Option.some.inj h
      exact .create hc hf
    | false =>
      obtain rfl := Option.some.inj h
      exact .noMemory hc hf

theorem step_res {mem : Bool} (h : s.step code mem = some t) : StepRes code s mem t := by
  unfold St.step at h
  split at h
  · rename_i hc
    obtain rfl := Option.some.inj h
    exact .pass (.inl hc)
  · rename_i fn par todo hc
    refine create_cases (.main hc) ?_
    rw [← h]
    unfold St.createNewParameterizedThread
    cases findEmpty s.active with
    | none => rfl
    | some empty => cases mem <;> rfl
  · rename_i i run hc
    split_ifs at h with hi ha hrun
    · split at h
      · rename_i t ht
        obtain rfl := Option.some.inj h
        exact .dispatch hc hi ha ht
      · cases h
    · obtain rfl := Option.some.inj h
      exact .skip hc hi (by simpa using ha)
    · obtain rfl := Option.some.inj h
      subst hrun
      exact .pass (.inr ⟨i, hc, Nat.le_of_not_lt hi⟩)
    · obtain rfl := Option.some.inj h
      obtain rfl : run = false := by simpa using hrun
      exact .ret hc (Nat.le_of_not_lt hi)
  · rename_i i t hc
    split at h
    · rename_i rest hr
      obtain rfl := Option.some.inj h
      exact .yield hc hr
    · rename_i fn par rest hr
      exact create_cases (.thread hc hr) h
    · rename_i rest hr
      obtain rfl := Option.some.inj h
      exact .finish hc (.inl hr)
    · rename_i hr
      obtain rfl := Option.some.inj h
      have hfin : StepRes code s mem (s.finishThread i { t with rest := [] }) := .finish hc (.inr ⟨hr, rfl⟩)
      rwa [← hr] at hfin
  · rename_i i hc
    split_ifs at h with ha
    · obtain rfl := Option.some.inj h
      exact .keep hc ha
    · obtain rfl := Option.some.inj h
      exact .free hc (by simpa using ha)
  · cases h
  · cases h

/-! ## The slots -/

theorem findEmptyFrom_some {active : ℕ → Bool} {e : ℕ} : ∀ {n i : ℕ}, findEmptyFrom active n i = some e →
    i ≤ e ∧ e ≤ i + n ∧ active e = false
  | 0, i, h => by
    unfold findEmptyFrom at h
    split_ifs at h with ha
    obtain rfl := Option.some.inj h
    exact ⟨Nat.le_refl _, Nat.le_refl _, by simpa using ha⟩
  | n + 1, i, h => by
    unfold findEmptyFrom at h
    split_ifs at h with ha
    · obtain ⟨h1, h2, h3⟩ := findEmptyFrom_some h
      exact ⟨by omega, by omega, h3⟩
    · obtain rfl := Option.some.inj h
      exact ⟨Nat.le_refl _, by omega, by simpa using ha⟩

/-- `find_empty` returns a slot of the array that is not in use. -/
theorem findEmpty_some {active : ℕ → Bool} {e : ℕ} (h : findEmpty active = some e) : e < MAX_THREADS ∧ active e = false := by
  obtain ⟨-, hle, ha⟩ := findEmptyFrom_some h
  refine ⟨?_, ha⟩
  have hmax : MAX_THREADS = 5 := rfl
  omega

/-- The slots, the stacks and the threads. -/
structure Inv (s : St Fn Par) : Prop where
  /-- the accesses to the arrays are in bounds -/
  num_le : s.num_threads ≤ MAX_THREADS
  active_lt : ∀ i, s.active i = true → i < s.num_threads
  /-- a stack pointer is one that `malloc` returned, in one slot only -/
  sp_lt : ∀ i p, (s.threads i).ss_sp = some p → p < s.created.length
  sp_inj : ∀ i j p, (s.threads i).ss_sp = some p → (s.threads j).ss_sp = some p → i = j
  /-- an active slot holds a context that runs on the slot's stack -/
  live : ∀ i, s.active i = true → ∃ t, (s.threads i).saved = some t ∧ (s.threads i).ss_sp = some t.stack
  live_held : ∀ i p, s.active i = true → (s.threads i).ss_sp = some p → p ∉ s.freed ∧ ¬ Finished s p
  /-- the stack of an inactive slot is freed, or will be in this step of the scheduler -/
  dead : ∀ i p, s.active i = false → (s.threads i).ss_sp = some p → Finished s p ∧ (p ∈ s.freed ∨ s.ctl = .back i)
  /-- every stack is freed or in a slot -/
  kept : ∀ p, p < s.created.length → p ∈ s.freed ∨ ∃ i, (s.threads i).ss_sp = some p
  fin_lt : ∀ p, Finished s p → p < s.created.length
  freed_fin : ∀ p ∈ s.freed, Finished s p
  nodup : s.freed.Nodup
  back : ∀ i, s.ctl = .back i → ∃ p, (s.threads i).ss_sp = some p ∧ p ∉ s.freed
  running : ∀ i t, s.ctl = .running i t → s.current = i ∧ s.active i = true ∧ (s.threads i).ss_sp = some t.stack
  /-- a pass that has found nobody yet has not gone past an active slot -/
  scan : ∀ i, s.ctl = .loop i false → ∀ j < i, s.active j = false
  returned : s.ctl = .returned → ∀ j, s.active j = false

theorem Creating.ctl_ne {fn : Fn} {par : Option Par} {ctl : Ctl Fn Par} {log : List (ℕ × Op Fn Par)}
    (hc : Creating s fn par ctl log) :
    (∀ i, s.ctl ≠ .back i) ∧ (∀ i, ctl ≠ .back i) ∧ (∀ i run, ctl ≠ .loop i run) ∧ ctl ≠ .returned := by
  cases hc with
  | main h =>
    rw [h]
    exact ⟨nofun, nofun, nofun, nofun⟩
  | thread h =>
    rw [h]
    exact ⟨nofun, nofun, nofun, nofun⟩

/-- A create finishes nobody. -/
theorem Creating.finished {fn : Fn} {par : Option Par} {ctl : Ctl Fn Par} {log : List (ℕ × Op Fn Par)}
    (hc : Creating s fn par ctl log) (p : ℕ) : (p, Op.finish) ∈ log ↔ Finished s p := by
  cases hc with
  | main h => exact Iff.rfl
  | thread h => simp [Finished]

/-- The thread that goes on behind a create is the one that called it. -/
theorem Creating.running {fn : Fn} {par : Option Par} {ctl : Ctl Fn Par} {log : List (ℕ × Op Fn Par)}
    (hc : Creating s fn par ctl log) {i : ℕ} {t : Thread Fn Par} (h : ctl = .running i t) :
    ∃ u, s.ctl = .running i u ∧ u.stack = t.stack := by
  cases hc with
  | main => cases h
  | @thread j u rest hu =>
    obtain ⟨rfl, rfl⟩ := Ctl.running.inj h
    exact ⟨u, hu, rfl⟩

theorem St.swapOut_ss_sp (s : St Fn Par) (i j : ℕ) (t : Thread Fn Par) :
    ((s.swapOut i t).threads j).ss_sp = (s.threads j).ss_sp := by
  show (Function.update s.threads s.current _ j).ss_sp = _
  by_cases hj : j = s.current
  · subst hj
    rw [Function.update_self]
  · rw [Function.update_of_ne hj]

namespace Inv

theorem initial (saved : ℕ → Option (Thread Fn Par)) (current : ℕ) (creates : List (Fn × Option Par)) :
    Inv (St.initializeBasicThreads saved current creates) where
  num_le := Nat.zero_le _
  active_lt := nofun
  sp_lt := nofun
  sp_inj := nofun
  live := nofun
  live_held := nofun
  dead := nofun
  kept := nofun
  fin_lt := nofun
  freed_fin := nofun
  nodup := List.nodup_nil
  back := nofun
  running := nofun
  scan := nofun
  returned := nofun

/-- A step that moves the control only. -/
theorem move (h : Inv s) {c : Ctl Fn Par} {k n : ℕ} (hb : ∀ i, s.ctl = .back i → s.active i = true) (hcb : ∀ i, c ≠ .back i)
    (hrun : ∀ i t, c = .running i t → k = i ∧ s.active i = true ∧ (s.threads i).ss_sp = some t.stack)
    (hscan : ∀ i, c = .loop i false → ∀ j < i, s.active j = false) (hret : c = .returned → ∀ j, s.active j = false) :
    Inv { s with ctl := c, current := k, pass := n } where
  num_le := h.num_le
  active_lt := h.active_lt
  sp_lt := h.sp_lt
  sp_inj := h.sp_inj
  live := h.live
  live_held := h.live_held
  dead i p ha hp := by
    obtain ⟨hfin, hf | hc⟩ := h.dead i p ha hp
    · exact ⟨hfin, .inl hf⟩
    · rw [hb i hc] at ha
      cases ha
  kept := h.kept
  fin_lt := h.fin_lt
  freed_fin := h.freed_fin
  nodup := h.nodup
  back i hc := absurd hc (hcb i)
  running := hrun
  scan := hscan
  returned := hret

/-- The slots that are in use lie below `num_threads`, so behind the loop all of them have been seen. -/
theorem inactive_of_le (h : Inv s) {i : ℕ} (hi : s.num_threads ≤ i) : s.active i = false := by
  cases ha : s.active i with
  | false => rfl
  | true =>
    have := h.active_lt i ha
    omega

/-- Outside of the scheduler's step behind a switch, the stack in an inactive slot is freed. -/
theorem freed_of_dead (h : Inv s) (hb : ∀ i, s.ctl ≠ .back i) {i p : ℕ} (ha : s.active i = false)
    (hp : (s.threads i).ss_sp = some p) : p ∈ s.freed := by
  obtain ⟨-, hf | hc⟩ := h.dead i p ha hp
  · exact hf
  · exact absurd hc (hb i)

/-- **A create.**  The slot was inactive, so the stack pointer it loses is one whose stack is freed; the new stack is in no slot yet. -/
theorem create (h : Inv s) {fn : Fn} {par : Option Par} {ctl : Ctl Fn Par} {log : List (ℕ × Op Fn Par)} {e : ℕ}
    (hc : Creating s fn par ctl log) (hf : findEmpty s.active = some e) :
    Inv { s.install code e fn par with ctl := ctl, log := log } := by
  obtain ⟨hemax, hea⟩ := findEmpty_some hf
  obtain ⟨hsb, hcb, hcl, hcr⟩ := hc.ctl_ne
  have hsp : ∀ i p, (((s.install code e fn par).threads i).ss_sp = some p ↔
      i = e ∧ p = s.created.length ∨ i ≠ e ∧ (s.threads i).ss_sp = some p) := by
    intro i p
    show ((Function.update s.threads e _ i).ss_sp = some p) ↔ _
    by_cases hie : i = e
    · subst hie
      rw [Function.update_self]
      simp [eq_comm]
    · rw [Function.update_of_ne hie]
      simp [hie]
  have hact : ∀ i, ((s.install code e fn par).active i = true ↔ i = e ∨ i ≠ e ∧ s.active i = true) := by
    intro i
    show (Function.update s.active e true i = true) ↔ _
    by_cases hie : i = e
    · subst hie
      simp
    · rw [Function.update_of_ne hie]
      simp [hie]
  have hlen : (s.install code e fn par).created.length = s.created.length + 1 := by simp [St.install]
  have hnum : s.num_threads ≤ (s.install code e fn par).num_threads ∧ e < (s.install code e fn par).num_threads ∧
      (s.install code e fn par).num_threads ≤ MAX_THREADS := by
    have := h.num_le
    show s.num_threads ≤ ite _ _ _ ∧ e < ite _ _ _ ∧ ite _ _ _ ≤ MAX_THREADS
    split_ifs <;> omega
  have hfresh : ¬ Finished s s.created.length := fun hfin => absurd (h.fin_lt _ hfin) (Nat.lt_irrefl _)
  refine ⟨hnum.2.2, ?_, ?_, ?_, ?_, ?_, ?_, ?_, ?_, ?_, h.nodup, ?_, ?_, ?_, ?_⟩
  · intro i hi
    rcases (hact i).mp hi with rfl | ⟨-, hi⟩
    · exact hnum.2.1
    · exact Nat.lt_of_lt_of_le (h.active_lt i hi) hnum.1
  · intro i p hp
    show p < (s.install code e fn par).created.length
    rw [hlen]
    rcases (hsp i p).mp hp with ⟨-, rfl⟩ | ⟨-, hp⟩
    · exact Nat.lt_succ_self _
    · exact Nat.lt_succ_of_lt (h.sp_lt i p hp)
  · intro i j p hi hj
    rcases (hsp i p).mp hi with ⟨rfl, rfl⟩ | ⟨hie, hi⟩
    · rcases (hsp j _).mp hj with ⟨rfl, -⟩ | ⟨-, hj⟩
      · rfl
      · exact absurd (h.sp_lt j _ hj) (Nat.lt_irrefl _)
    · rcases (hsp j p).mp hj with ⟨-, rfl⟩ | ⟨-, hj⟩
      · exact absurd (h.sp_lt i _ hi) (Nat.lt_irrefl _)
      · exact h.sp_inj i j p hi hj
  · intro i hi
    by_cases hie : i = e
    · subst hie
      exact ⟨⟨s.created.length, fn, par, code fn par⟩, by simp [St.install], by simp [St.install]⟩
    · rcases (hact i).mp hi with rfl | ⟨-, hi⟩
      · exact absurd rfl hie
      · obtain ⟨t, ht, hp⟩ := h.live i hi
        exact ⟨t, by simp [St.install, hie, ht], by simp [St.install, hie, hp]⟩
  · intro i p hi hp
    rcases (hsp i p).mp hp with ⟨rfl, rfl⟩ | ⟨hie, hp⟩
    · exact ⟨fun hm => hfresh (h.freed_fin _ hm), fun hfin => hfresh ((hc.finished _).mp hfin)⟩
    · rcases (hact i).mp hi with rfl | ⟨-, hi⟩
      · exact absurd rfl hie
      · obtain ⟨h1, h2⟩ := h.live_held i p hi hp
        exact ⟨h1, fun hfin => h2 ((hc.finished p).mp hfin)⟩
  · intro i p hi hp
    have hna : ¬ (i = e ∨ i ≠ e ∧ s.active i = true) := by
      rw [← hact i]
      show ¬ ((s.install code e fn par).active i = true)
      simpa using hi
    rcases (hsp i p).mp hp with ⟨rfl, -⟩ | ⟨hie, hp⟩
    · exact absurd (.inl rfl) hna
    · have hia : s.active i = false := by simpa using fun ha => hna (.inr ⟨hie, ha⟩)
      exact ⟨(hc.finished p).mpr (h.dead i p hia hp).1, .inl (h.freed_of_dead hsb hia hp)⟩
  · intro p hp
    have hp' : p < s.created.length + 1 := hlen ▸ hp
    rcases Nat.lt_succ_iff_lt_or_eq.mp hp' with hlt | rfl
    · rcases h.kept p hlt with hf | ⟨i, hi⟩
      · exact .inl hf
      · by_cases hie : i = e
        · subst hie
          exact .inl (h.freed_of_dead hsb hea hi)
        · exact .inr ⟨i, (hsp i p).mpr (.inr ⟨hie, hi⟩)⟩
    · exact .inr ⟨e, (hsp e _).mpr (.inl ⟨rfl, rfl⟩)⟩
  · intro p hfin
    show p < (s.install code e fn par).created.length
    rw [hlen]
    exact Nat.lt_succ_of_lt (h.fin_lt p ((hc.finished p).mp hfin))
  · intro p hp
    exact (hc.finished p).mpr (h.freed_fin p hp)
  · intro i hi
    exact absurd hi (hcb i)
  · intro i t ht
    obtain ⟨u, hu, hut⟩ := hc.running ht
    obtain ⟨hcur, ha, hp⟩ := h.running i u hu
    have hie : i ≠ e := by
      rintro rfl
      rw [ha] at hea
      cases hea
    exact ⟨hcur, (hact i).mpr (.inr ⟨hie, ha⟩), (hsp i _).mpr (.inr ⟨hie, hut ▸ hp⟩)⟩
  · intro i hi
    exact absurd hi (hcl i false)
  · intro hr
    exact absurd hr hcr

/-- A failed `malloc` clears a stack pointer whose stack is freed. -/
theorem clear (h : Inv s) {fn : Fn} {par : Option Par} {ctl : Ctl Fn Par} {log : List (ℕ × Op Fn Par)} {e : ℕ}
    (hc : Creating s fn par ctl log) (hf : findEmpty s.active = some e) :
    Inv { s.clear e with ctl := .exited .noMemory } := by
  obtain ⟨-, hea⟩ := findEmpty_some hf
  obtain ⟨hsb, -⟩ := hc.ctl_ne
  have hsp : ∀ i p, (((s.clear e).threads i).ss_sp = some p ↔ i ≠ e ∧ (s.threads i).ss_sp = some p) := by
    intro i p
    show ((Function.update s.threads e _ i).ss_sp = some p) ↔ _
    by_cases hie : i = e
    · subst hie
      simp
    · rw [Function.update_of_ne hie]
      simp [hie]
  refine ⟨h.num_le, h.active_lt, ?_, ?_, ?_, ?_, ?_, ?_, h.fin_lt, h.freed_fin, h.nodup, nofun, nofun, nofun, nofun⟩
  · intro i p hp
    exact h.sp_lt i p ((hsp i p).mp hp).2
  · intro i j p hi hj
    exact h.sp_inj i j p ((hsp i p).mp hi).2 ((hsp j p).mp hj).2
  · intro i hi
    have hia : s.active i = true := hi
    have hie : i ≠ e := by
      rintro rfl
      rw [hea] at hia
      cases hia
    obtain ⟨t, ht, hp⟩ := h.live i hia
    exact ⟨t, by simp [St.clear, hie, ht], (hsp i _).mpr ⟨hie, hp⟩⟩
  · intro i p hi hp
    exact h.live_held i p hi ((hsp i p).mp hp).2
  · intro i p hi hp
    obtain ⟨-, hp⟩ := (hsp i p).mp hp
    exact ⟨(h.dead i p hi hp).1, .inl (h.freed_of_dead hsb hi hp)⟩
  · intro p hp
    rcases h.kept p hp with hf | ⟨i, hi⟩
    · exact .inl hf
    · by_cases hie : i = e
      · subst hie
        exact .inl (h.freed_of_dead hsb hea hi)
      · exact .inr ⟨i, (hsp i p).mpr ⟨hie, hi⟩⟩

/-- A switch back into the scheduler: the context of the slot is replaced by one on the same stack. -/
theorem live_swapOut (h : Inv s) {i : ℕ} {t : Thread Fn Par} (ht : (s.threads s.current).ss_sp = some t.stack) {j : ℕ}
    (hj : s.active j = true) :
    ∃ u, ((s.swapOut i t).threads j).saved = some u ∧ ((s.swapOut i t).threads j).ss_sp = some u.stack := by
  rw [St.swapOut_ss_sp]
  by_cases hjc : j = s.current
  · subst hjc
    exact ⟨t, by simp [St.swapOut], ht⟩
  · obtain ⟨u, hu, hp⟩ := h.live j hj
    exact ⟨u, by simp [St.swapOut, hjc, hu], hp⟩

/-- **A yield.** -/
theorem yield (h : Inv s) {i : ℕ} {t : Thread Fn Par} (rest : List (Op Fn Par)) (hc : s.ctl = .running i t) :
    Inv (s.yield i { t with rest := rest }) := by
  obtain ⟨hcur, ha, hp⟩ := h.running i t hc
  have hfin : ∀ p, Finished (s.yield i { t with rest := rest }) p ↔ Finished s p := by
    intro p
    simp [Finished, St.yield]
  have hsp : ∀ j, ((s.yield i { t with rest := rest }).threads j).ss_sp = (s.threads j).ss_sp := fun j =>
    St.swapOut_ss_sp s i j _
  refine ⟨h.num_le, h.active_lt, ?_, ?_, ?_, ?_, ?_, ?_, ?_, ?_, h.nodup, ?_, nofun, nofun, nofun⟩
  · intro j p hj
    rw [hsp] at hj
    exact h.sp_lt j p hj
  · intro j k p hj hk
    rw [hsp] at hj hk
    exact h.sp_inj j k p hj hk
  · intro j hj
    exact h.live_swapOut (i := i) (t := { t with rest := rest }) (hcur ▸ hp) hj
  · intro j p hj hjp
    rw [hsp] at hjp
    rw [hfin]
    exact h.live_held j p hj hjp
  · intro j p hj hjp
    rw [hsp] at hjp
    rw [hfin]
    exact ⟨(h.dead j p hj hjp).1, .inl (h.freed_of_dead (by rw [hc]; exact nofun) hj hjp)⟩
  · intro p hlt
    obtain hf | ⟨j, hj⟩ := h.kept p hlt
    · exact .inl hf
    · exact .inr ⟨j, (hsp j).trans hj⟩
  · intro p hp
    exact h.fin_lt p ((hfin p).mp hp)
  · intro p hp
    exact (hfin p).mpr (h.freed_fin p hp)
  · intro j hj
    obtain rfl := Ctl.back.inj hj
    exact ⟨t.stack, (hsp i).trans hp, (h.live_held i t.stack ha hp).1⟩

/-- **A finish.**  The slot becomes inactive with its stack still allocated, and the scheduler is behind its switch to it. -/
theorem finish (h : Inv s) {i : ℕ} {t : Thread Fn Par} (rest : List (Op Fn Par)) (hc : s.ctl = .running i t) :
    Inv (s.finishThread i { t with rest := rest }) := by
  obtain ⟨rfl, ha, hp⟩ := h.running i t hc
  have hfin : ∀ p, Finished (s.finishThread s.current { t with rest := rest }) p ↔ Finished s p ∨ p = t.stack := by
    intro p
    simp [Finished, St.finishThread]
  have hsp : ∀ j, ((s.finishThread s.current { t with rest := rest }).threads j).ss_sp = (s.threads j).ss_sp := fun j =>
    St.swapOut_ss_sp s s.current j _
  have hact : ∀ j, (s.finishThread s.current { t with rest := rest }).active j = true ↔ j ≠ s.current ∧ s.active j = true := by
    intro j
    show (Function.update s.active s.current false j = true) ↔ _
    by_cases hj : j = s.current
    · subst hj
      simp
    · rw [Function.update_of_ne hj]
      simp [hj]
  obtain ⟨hnf, -⟩ := h.live_held s.current t.stack ha hp
  refine ⟨h.num_le, ?_, ?_, ?_, ?_, ?_, ?_, ?_, ?_, ?_, h.nodup, ?_, nofun, nofun, nofun⟩
  · intro j hj
    exact h.active_lt j ((hact j).mp hj).2
  · intro j p hj
    rw [hsp] at hj
    exact h.sp_lt j p hj
  · intro j k p hj hk
    rw [hsp] at hj hk
    exact h.sp_inj j k p hj hk
  · intro j hj
    exact h.live_swapOut (i := s.current) (t := { t with rest := rest }) hp ((hact j).mp hj).2
  · intro j p hj hjp
    obtain ⟨hne, hj⟩ := (hact j).mp hj
    rw [hsp] at hjp
    obtain ⟨h1, h2⟩ := h.live_held j p hj hjp
    refine ⟨h1, fun hf => ?_⟩
    rcases (hfin p).mp hf with hf | rfl
    · exact h2 hf
    · exact hne (h.sp_inj j s.current t.stack hjp hp)
  · intro j p hj hjp
    rw [hsp] at hjp
    rw [hfin]
    by_cases hne : j = s.current
    · subst hne
      rw [hp] at hjp
      exact ⟨.inr (Option.some.inj hjp).symm, .inr rfl⟩
    · have hja : s.active j = false := by
        have hna : ¬ (j ≠ s.current ∧ s.active j = true) := by
          rw [← hact j]
          simpa using hj
        simpa using fun hja => hna ⟨hne, hja⟩
      exact ⟨.inl (h.dead j p hja hjp).1, .inl (h.freed_of_dead (by rw [hc]; exact nofun) hja hjp)⟩
  · intro p hlt
    obtain hf | ⟨j, hj⟩ := h.kept p hlt
    · exact .inl hf
    · exact .inr ⟨j, (hsp j).trans hj⟩
  · intro p hf
    rcases (hfin p).mp hf with hf | rfl
    · exact h.fin_lt p hf
    · exact h.sp_lt s.current t.stack hp
  · intro p hf
    exact (hfin p).mpr (.inl (h.freed_fin p hf))
  · intro j hj
    obtain rfl := Ctl.back.inj hj
    exact ⟨t.stack, (hsp _).trans hp, hnf⟩

/-- **The free.**  The slot that the scheduler comes back from is inactive: its stack was not freed, and is now. -/
theorem free (h : Inv s) {i : ℕ} (hc : s.ctl = .back i) (ha : s.active i = false) :
    Inv { s.free i with ctl := .loop (i + 1) true } := by
  obtain ⟨p, hp, hnf⟩ := h.back i hc
  have hfin := (h.dead i p ha hp).1
  have hfreed : (s.free i).freed = s.freed ++ [p] := by simp [St.free, hp]
  have hmem : ∀ q, q ∈ (s.free i).freed ↔ q ∈ s.freed ∨ q = p := by
    intro q
    rw [hfreed]
    simp
  refine ⟨h.num_le, h.active_lt, h.sp_lt, h.sp_inj, h.live, ?_, ?_, ?_, h.fin_lt, ?_, ?_, nofun, nofun, nofun, nofun⟩
  · intro j q hj hq
    obtain ⟨h1, h2⟩ := h.live_held j q hj hq
    refine ⟨fun hm => ?_, h2⟩
    rcases (hmem q).mp hm with hm | rfl
    · exact h1 hm
    · exact h2 hfin
  · intro j q hj hq
    obtain ⟨h1, h2⟩ := h.dead j q hj hq
    refine ⟨h1, .inl ((hmem q).mpr ?_)⟩
    rcases h2 with hf | hb
    · exact .inl hf
    · obtain rfl : i = j := Ctl.back.inj (hc.symm.trans hb)
      exact .inr (Option.some.inj (hq.symm.trans hp))
  · intro q hq
    rcases h.kept q hq with hf | hj
    · exact .inl ((hmem q).mpr (.inl hf))
    · exact .inr hj
  · intro q hq
    rcases (hmem q).mp hq with hq | rfl
    · exact h.freed_fin q hq
    · exact hfin
  · show (s.free i).freed.Nodup
    rw [hfreed]
    exact List.nodup_append.mpr ⟨h.nodup, by simp, by
      intro a ha b hb
      rw [List.mem_singleton] at hb
      rintro rfl
      exact hnf (hb ▸ ha)⟩

/-- **Step lemma.** -/
theorem step {mem : Bool} (h : Inv s) (hst : StepRes code s mem t) : Inv t := by
  cases hst with
  | create hc hf => exact h.create hc hf
  | noPlace hc hf =>
    exact h.move (fun i hi => absurd hi (hc.ctl_ne.1 i)) nofun nofun nofun nofun
  | noMemory hc hf => exact h.clear hc hf
  | pass hc =>
    have hb : ∀ i, s.ctl ≠ .back i := by
      rcases hc with hc | ⟨i, hc, -⟩
      · rw [hc]; exact nofun
      · rw [hc]; exact nofun
    refine h.move (fun i hi => absurd hi (hb i)) nofun nofun ?_ nofun
    intro i hi j hj
    obtain ⟨rfl, -⟩ := Ctl.loop.inj hi
    omega
  | @dispatch _ i run t hc hi ha ht =>
    refine h.move (by rw [hc]; exact nofun) nofun ?_ nofun nofun
    intro j u hu
    obtain ⟨rfl, rfl⟩ := Ctl.running.inj hu
    obtain ⟨v, hv, hp⟩ := h.live i ha
    obtain rfl := Option.some.inj (ht.symm.trans hv)
    exact ⟨rfl, ha, hp⟩
  | @skip _ i run hc hi ha =>
    refine h.move (by rw [hc]; exact nofun) nofun nofun ?_ nofun
    intro j hj k hk
    obtain ⟨rfl, rfl⟩ := Ctl.loop.inj hj
    rcases Nat.lt_succ_iff_lt_or_eq.mp hk with hk | rfl
    · exact h.scan i hc k hk
    · exact ha
  | @ret _ i hc hi =>
    refine h.move (by rw [hc]; exact nofun) nofun nofun nofun ?_
    intro _ j
    by_cases hj : j < i
    · exact h.scan i hc j hj
    · exact h.inactive_of_le (by omega)
  | yield hc hr => exact h.yield _ hc
  | finish hc hr => exact h.finish _ hc
  | @keep _ i hc ha =>
    refine h.move ?_ nofun nofun nofun nofun
    intro j hj
    obtain rfl : i = j := Ctl.back.inj (hc.symm.trans hj)
    exact ha
  | free hc ha => exact h.free hc ha

end Inv

/-- **Run lemma.** -/
theorem run_inv {tr : List (Ev (St Fn Par) Bool Unit)} (h : Runs code tr t) : Inv t := by
  obtain ⟨saved, current, creates, hr⟩ := h
  exact hr.inv (Inv.initial saved current creates) fun x a o y hx _ hst => hx.step (step_res hst)

theorem St.step_create (fn : Fn) (par : Option Par) (mem : Bool) (f : Exit → St Fn Par → St Fn Par) (g : St Fn Par → St Fn Par) :
      ∃ t, (match s.createNewParameterizedThread code fn par mem with
        | (some e, u) => some (f e u)
        | (none, u) => some (g u)) = some t := by
  cases s.createNewParameterizedThread code fn par mem with
  | mk e u => cases e <;> exact ⟨_, rfl⟩

/-- **Progress.**  Until `schedule_threads` returns or the program exits there is a next step: every switch finds a saved context. -/
theorem Inv.progress (h : Inv s) (hr : s.ctl ≠ .returned) (he : ∀ e, s.ctl ≠ .exited e) (mem : Bool) :
    ∃ t, s.step code mem = some t := by
  unfold St.step
  cases hc : s.ctl with
  | main todo =>
    cases todo with
    | nil => exact ⟨_, rfl⟩
    | cons x todo => exact St.step_create x.1 x.2 mem _ _
  | loop i run =>
    dsimp only
    split_ifs with hi ha hrun
    · obtain ⟨u, hu, -⟩ := h.live i ha
      rw [hu]
      exact ⟨_, rfl⟩
    · exact ⟨_, rfl⟩
    · exact ⟨_, rfl⟩
    · exact ⟨_, rfl⟩
  | running i u =>
    dsimp only
    split
    · exact ⟨_, rfl⟩
    · exact St.step_create _ _ mem _ _
    · exact ⟨_, rfl⟩
    · exact ⟨_, rfl⟩
  | back i =>
    dsimp only
    split_ifs
    · exact ⟨_, rfl⟩
    · exact ⟨_, rfl⟩
  | returned => exact absurd hc hr
  | exited e => exact absurd hc (he e)

/-! ## The stacks -/

/-- What a step frees: nothing, or the stack of a finished thread, by the scheduler. -/
theorem Inv.freed_step (h : Inv s) {mem : Bool} (hst : StepRes code s mem t) : t.freed = s.freed ∨
    ∃ i p, s.ctl = .back i ∧ (s.threads i).ss_sp = some p ∧ Finished s p ∧ t.freed = s.freed ++ [p] := by
  cases hst with
  | @free _ i hc ha =>
    obtain ⟨p, hp, -⟩ := h.back i hc
    refine .inr ⟨i, p, hc, hp, (h.dead i p ha hp).1, ?_⟩
    show s.freed ++ (s.threads i).ss_sp.toList = s.freed ++ [p]
    rw [hp]
    rfl
  | _ => exact .inl rfl

/-- A stack pointer that a step overwrites is one whose stack is freed. -/
theorem Inv.overwritten_step (h : Inv s) {mem : Bool} (hst : StepRes code s mem t) {i p : ℕ} (hp : (s.threads i).ss_sp = some p)
    (hne : (t.threads i).ss_sp ≠ some p) : p ∈ s.freed := by
  cases hst with
  | @create fn par ctl log e hc hf =>
    by_cases hie : i = e
    · subst hie
      exact h.freed_of_dead hc.ctl_ne.1 (findEmpty_some hf).2 hp
    · refine absurd ?_ hne
      show ((Function.update s.threads e _ i).ss_sp = some p)
      rw [Function.update_of_ne hie, hp]
  | @noMemory fn par ctl log e hc hf =>
    by_cases hie : i = e
    · subst hie
      exact h.freed_of_dead hc.ctl_ne.1 (findEmpty_some hf).2 hp
    · refine absurd ?_ hne
      show ((Function.update s.threads e _ i).ss_sp = some p)
      rw [Function.update_of_ne hie, hp]
  | @yield _ k t rest hc hr => exact absurd ((St.swapOut_ss_sp s k i _).trans hp) hne
  | @finish _ k t rest hc hr => exact absurd ((St.swapOut_ss_sp s k i _).trans hp) hne
  | _ => exact absurd hp hne

/-- When `schedule_threads` has returned nothing is left in the slots. -/
theorem Inv.all_freed (h : Inv s) (hc : s.ctl = .returned) {p : ℕ} (hp : p < s.created.length) : p ∈ s.freed := by
  rcases h.kept p hp with hf | ⟨i, hi⟩
  · exact hf
  · exact h.freed_of_dead (by rw [hc]; exact nofun) (h.returned hc i) hi

/-- Every event of a run is a step out of a state that satisfies the invariant. -/
theorem run_events {tr : List (Ev (St Fn Par) Bool Unit)} (h : Runs code tr t) :
    ∀ e ∈ tr, Inv e.pre ∧ StepRes code e.pre e.act e.post := by
  obtain ⟨saved, current, creates, hr⟩ := h
  intro e he
  obtain ⟨⟨tr', hr'⟩, -, hst⟩ := hr.forall_ev e he
  exact ⟨run_inv ⟨saved, current, creates, hr'⟩, step_res hst⟩

/-- A thread is active from its creation until it finishes. -/
theorem Inv.active_iff (h : Inv s) {p : ℕ} : Active s p ↔ p < s.created.length ∧ ¬ Finished s p := by
  constructor
  · rintro ⟨i, ha, hp⟩
    exact ⟨h.sp_lt i p hp, (h.live_held i p ha hp).2⟩
  · rintro ⟨hlt, hnf⟩
    rcases h.kept p hlt with hf | ⟨i, hi⟩
    · exact absurd (h.freed_fin p hf) hnf
    · refine ⟨i, ?_, hi⟩
      cases ha : s.active i with
      | true => rfl
      | false => exact absurd (h.dead i p ha hi).1 hnf

/-- Nothing that happened is undone. -/
theorem history_step {mem : Bool} (hst : StepRes code s mem t) : s.created <+: t.created ∧ s.log <+: t.log := by
  cases hst with
  | create hc hf =>
    refine ⟨List.prefix_append _ _, ?_⟩
    cases hc with
    | main => exact List.prefix_rfl
    | thread => exact List.prefix_append _ _
  | yield => exact ⟨List.prefix_rfl, List.prefix_append _ _⟩
  | finish => exact ⟨List.prefix_rfl, List.prefix_append _ _⟩
  | _ => exact ⟨List.prefix_rfl, List.prefix_rfl⟩

theorem history_run {tr : List (Ev (St Fn Par) Bool Unit)} (h : Run (Step code) always s tr t) :
    s.created <+: t.created ∧ s.log <+: t.log := by
  induction h with
  | nil => exact ⟨List.prefix_rfl, List.prefix_rfl⟩
  | snoc _ _ hst ih =>
    obtain ⟨h1, h2⟩ := history_step (step_res hst)
    exact ⟨ih.1.trans h1, ih.2.trans h2⟩

/-- **Stack accounting.**  In every run no stack is freed twice; a stack is freed only by the scheduler, and only when the thread on it
has finished; a stack pointer is overwritten only when its stack is freed; and when `schedule_threads` returns every stack is freed. -/
theorem stacks_accounted (code : Fn → Option Par → List (Op Fn Par)) (tr : List (Ev (St Fn Par) Bool Unit)) (t : St Fn Par)
    (h : Runs code tr t) :
    t.freed.Nodup ∧
    (∀ e ∈ tr, e.post.freed = e.pre.freed ∨ ∃ i p, e.pre.ctl = .back i ∧ (e.pre.threads i).ss_sp = some p ∧ Finished e.pre p ∧
      e.post.freed = e.pre.freed ++ [p]) ∧
    (∀ e ∈ tr, ∀ i p, (e.pre.threads i).ss_sp = some p → (e.post.threads i).ss_sp ≠ some p → p ∈ e.pre.freed) ∧
    (t.ctl = .returned → ∀ p < t.created.length, p ∈ t.freed) := by
  have ht := run_inv h
  refine ⟨ht.nodup, ?_, ?_, fun hc p hp => ht.all_freed hc hp⟩
  · intro e he
    obtain ⟨hI, hst⟩ := run_events h e he
    exact hI.freed_step hst
  · intro e he i p hp hne
    obtain ⟨hI, hst⟩ := run_events h e he
    exact hI.overwritten_step hst hp hne

end

/-! ## Computing runs -/

/-- The state that `main` starts in when nothing ran before. -/
def boot (creates : List (Fn × Option Par)) : St Fn Par := .initializeBasicThreads (fun _ => none) 0 creates

/-- A run that can be computed. -/
theorem exists_run (code : Fn → Option Par → List (Op Fn Par)) (creates : List (Fn × Option Par)) (mems : List Bool)
    (P : List (Ev (St Fn Par) Bool Unit) → St Fn Par → Prop) [∀ tr t, Decidable (P tr t)]
    (h : (execute (fun s mem => (St.step code s mem).map (Prod.mk ())) always (boot creates) mems).any
      (fun x => decide (P x.1 x.2)) = true) : ∃ tr t, Run (Step code) always (boot creates) tr t ∧ P tr t := by
  refine exists_run_of_execute ?_ h
  intro s mem o t hf
  obtain ⟨u, hu, heq⟩ := Option.map_eq_some_iff.mp hf
  obtain ⟨-, rfl⟩ := Prod.mk.inj heq
  exact hu

/-- `start_many_quick_threads` with two threads, and `quick_ending_thread`. -/
def quick : Bool → Option Unit → List (Op Bool Unit)
  | true, _ => [.createNewThread false, .yield, .createNewThread false, .yield, .finish]
  | false, _ => [.finish]

/-- Two quick threads, one after the other in the same slot; three stacks in all. -/
theorem stacks_accounted_run : ∃ tr t, Runs quick tr t ∧ (t.ctl = .returned ∧ t.created.length = 3) ∧ t.freed.Nodup ∧ 2 ∈ t.freed := by
  obtain ⟨tr, t, hr, hP⟩ := exists_run quick [(true, none)] (List.replicate 26 true)
    (fun _ t => t.ctl = .returned ∧ t.created.length = 3) (by decide +kernel)
  have hruns : Runs quick tr t := ⟨_, _, _, hr⟩
  obtain ⟨h1, -, -, h4⟩ := stacks_accounted quick tr t hruns
  exact ⟨tr, t, hruns, hP, h1, h4 hP.1 2 (by omega)⟩

end OsLabs.Ust
