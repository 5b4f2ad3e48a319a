import OsLabs.Xv6.History

/-!
# OsLabs.Xv6.Machine — computing runs of the kernel

The kernel's step function runs on concrete states.  `Kernel.boot` computes the state after `userinit`; `exists_run` turns a
computed sequence of actions into a run of `Step`.  `smallMem` is a machine with a hundred free pages.
-/

namespace OsLabs.Xv6

open Lts

/-- The step function, where an action that is not enabled or that panics has no result. -/
def stepOpt (k : Kernel) (a : Action) : Option (Option ℤ × Kernel) :=
  if a.enabled k then
    match step k a with
    | .ok r => some r
    | .error _ => none
  else none

theorem stepOpt_step {k k' : Kernel} {a : Action} {o : Option ℤ} (h : stepOpt k a = some (o, k')) : Step k a o k' := by
  unfold stepOpt at h
  split_ifs at h with hen
  split at h
  · rename_i r hr
    exact ⟨hen, by rw [hr, Option.some.inj h]⟩
  · cases h

/-- The kernel that `userinit` leaves. -/
def Kernel.boot (m : Kmem) (root : ℕ) : Kernel :=
  match userinit (Kernel.zero m) root with
  | .ok k => k
  | .error _ => Kernel.zero m

instance (m : Kmem) : Decidable m.Fresh :=
  inferInstanceAs (Decidable (m.freelist.Nodup ∧ ∀ pa ∈ m.freelist, pa % PGSIZE = 0 ∧ m.kend ≤ pa ∧ pa < PHYSTOP))

theorem boot_boot {m : Kmem} {root : ℕ} (hm : m.Fresh) (h : (userinit (Kernel.zero m) root).isOk = true) :
    Boot (Kernel.boot m root) := by
  refine ⟨m, root, hm, ?_⟩
  unfold Kernel.boot
  cases hu : userinit (Kernel.zero m) root with
  | ok k => rfl
  | error e =>
    rw [hu] at h
    cases h

/-- **Computed runs.**  What a computation finds at the end of a sequence of actions holds at the end of a run. -/
theorem exists_run (ok : Kernel → Action → Prop) [∀ k a, Decidable (ok k a)] (k : Kernel) (as : List Action)
    (P : Trace → Kernel → Prop) [∀ tr k, Decidable (P tr k)]
    (h : (execute stepOpt ok k as).any (fun x => decide (P x.1 x.2)) = true) :
    ∃ tr k', Run Step ok k tr k' ∧ P tr k' :=
  exists_run_of_execute (fun _ _ _ _ => stepOpt_step) h

/-- Where a computed sequence of actions ends. -/
def endOf (k : Kernel) (as : List Action) : Kernel := (execute stepOpt always k as).elim k Prod.snd

/-- What a computation finds at the end of a sequence of actions after boot holds in a reachable state. -/
theorem endOf_reach {k : Kernel} (h0 : Boot k) (as : List Action) (P : Kernel → Prop) [∀ k, Decidable (P k)]
    (h : (execute stepOpt always k as).any (fun x => decide (P x.2)) = true) :
    Reach Step always Boot (endOf k as) ∧ P (endOf k as) := by
  unfold endOf
  cases hx : execute stepOpt always k as with
  | none =>
    rw [hx] at h
    cases h
  | some x =>
    rw [hx] at h
    exact ⟨⟨k, x.1, h0, execute_run (fun _ _ _ _ => stepOpt_step) hx⟩, of_decide_eq_true h⟩

/-- What a computation finds after one step. -/
theorem exists_step {k : Kernel} {a : Action} {P : Option ℤ × Kernel → Bool} (h : (stepOpt k a).any P = true) :
    ∃ o k', Step k a o k' ∧ P (o, k') = true := by
  obtain ⟨⟨o, k'⟩, hx, hP⟩ := (Option.any_eq_true P _).mp h
  exact ⟨o, k', stepOpt_step hx, hP⟩

/-- A check of every slot against what a call collects, if it collects anything.  Not over all that it could collect. -/
def decidableCollected {α : Type} (x : Option α) (P : α → Slot → Prop) [∀ a q, Decidable (P a q)] : Decidable (∀ a ∈ x, ∀ q, P a q) :=
  @Option.decidableForallMem _ _ (fun a => Nat.decidableForallFin (P a)) x

/-! ## A small machine -/

instance : NeZero NPROC := ⟨by decide⟩

/-- The `i`-th page above the kernel. -/
def page (i : ℕ) : Pa := 0x80100000 + PGSIZE * i

/-- `n` pages from the `i`-th on. -/
def pages (i n : ℕ) : List Pa := (List.range n).map fun j => page (i + j)

/-- A hundred free pages. -/
def smallMem : Kmem where
  kend := 0x80100000
  trampoline := 0x80007000
  freelist := pages 0 100
  answers := pages 0 10
  data := fun _ _ => 0

/-- The small machine after boot. -/
def small : Kernel := Kernel.boot smallMem 1

theorem small_boot : Boot small :=
  boot_boot (by decide +kernel) (by decide +kernel)

/-- The first process loads a program of one page and is in user space with three pages. -/
def startInit : List Action :=
  [.scheduler 0, .syscall 0 (.exec true) (pages 20 10),
    .resume 0 (.seg ⟨PGSIZE, fun _ => 0⟩ (some ⟨true, true, false, 0, 0, PGSIZE, PGSIZE⟩)) (pages 30 10),
    .resume 0 (.done 0 []) (pages 40 10)]

/-- A child of the first process makes a thread and exits; its parent waits for it. -/
def orphanThread : List Action :=
  startInit ++ [.syscall 0 .fork (pages 50 20), .scheduler 1, .syscall 1 (.threadCreate 0 0 0) (pages 70 20),
    .syscall 1 (.exit 0) [], .resume 1 (.done 0 []) [], .syscall 0 (.wait 0) []]

/-- A thread of the first process runs. -/
def runThread : List Action :=
  startInit ++ [.syscall 0 (.threadCreate 0 0 0) (pages 50 20), .scheduler 1]

end OsLabs.Xv6
