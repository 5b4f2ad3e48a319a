import OsLabs.Xv6.Steps

/-!
# OsLabs.Xv6.Slots — what a step does to one slot of the process table

Seen from one slot, a step edits it in place, frees it, or hands it out with a new pid.  `SlotChange` says what each of these does to
the pid, the page table and the stack fields; `step_change` says that there is nothing else.

* `Edit`: the slot stays in use, or unused; its stack stays, or `thread_exit` has given it back.
* `bare_reach`: an unused slot has no page table.
-/

namespace OsLabs.Xv6

open Fallible Lts

/-- What a call changes in a slot that it neither frees nor hands out. -/
structure Edit (P Q : Proc) : Prop where
  pid : Q.pid = P.pid
  unused : Q.state = .unused ↔ P.state = .unused
  pagetable : Q.pagetable = none ↔ P.pagetable = none
  stack : (Q.start = P.start ∧ Q.size = P.size) ∨ (Q.start = 0 ∧ Q.size = 0)

/-- What a step can do to a slot, when `pid` is the next one. -/
inductive SlotChange (pid : ℤ) (P Q : Proc) : Prop
  | edit (h : Edit P Q)
  | free (hs : Q.state = .unused) (hpt : Q.pagetable = none) (hpid : Q.pid = 0)
  | make (hP : P.state = .unused) (hs : Q.state ≠ .unused) (hpt : Q.pagetable ≠ none) (hpid : Q.pid = pid)
      (hst : Q.size = 0 ∨ (Q.start = stackBase pid ∧ Q.size = PGSIZE))

variable {k k' : Kernel} {p i : Slot} {o : Option ℤ} {r : ℤ}

theorem Edit.refl (P : Proc) : Edit P P := ⟨rfl, Iff.rfl, Iff.rfl, .inl ⟨rfl, rfl⟩⟩

theorem Edit.trans {P Q R : Proc} (h1 : Edit P Q) (h2 : Edit Q R) : Edit P R := by
  refine ⟨h2.pid.trans h1.pid, h2.unused.trans h1.unused, h2.pagetable.trans h1.pagetable, ?_⟩
  rcases h2.stack with ⟨ha, hb⟩ | h0
  · rw [ha, hb]
    exact h1.stack
  · exact .inr h0

theorem SlotChange.refl (pid : ℤ) (P : Proc) : SlotChange pid P P := .edit (.refl P)

/-- Two records with the same pid, state, page table and stack fields. -/
theorem Edit.of_eq {P Q : Proc} (h1 : Q.pid = P.pid) (h2 : Q.state = P.state) (h3 : Q.pagetable = P.pagetable)
    (h4 : Q.start = P.start) (h5 : Q.size = P.size) : Edit P Q :=
  ⟨h1, by rw [h2], by rw [h3], .inl ⟨h4, h5⟩⟩

/-- A slot in use stays in use. -/
theorem Edit.of_live {P Q : Proc} (hP : P.state ≠ .unused) (hQ : Q.state ≠ .unused) (h1 : Q.pid = P.pid)
    (h3 : Q.pagetable = P.pagetable) (h4 : Q.start = P.start) (h5 : Q.size = P.size) : Edit P Q :=
  ⟨h1, iff_of_false hQ hP, by rw [h3], .inl ⟨h4, h5⟩⟩

/-- Every slot is edited in place. -/
def Edits (k k' : Kernel) : Prop := ∀ i, Edit (k.proc i) (k'.proc i)

theorem Edits.refl (k : Kernel) : Edits k k := fun _ => .refl _

theorem Edits.trans {k1 : Kernel} (h1 : Edits k k1) (h2 : Edits k1 k') : Edits k k' := fun i => (h1 i).trans (h2 i)

theorem Edits.setProc {P : Proc} (h : Edit (k.proc i) P) : Edits k (k.setProc i P) := by
  intro j
  rw [Kernel.setProc_apply]
  split_ifs with hj
  · exact hj ▸ h
  · exact .refl _

/-- Another page table for a slot that has one. -/
theorem Edits.setPt {pt pt' : PageTable} {m : Kmem} (h : (k.proc i).pagetable = some pt) :
    Edits k ((k.setMem m).setProc i { k.proc i with pagetable := some pt' }) :=
  Edits.setProc (k := k.setMem m) ⟨rfl, Iff.rfl, by simp [h], .inl ⟨rfl, rfl⟩⟩

/-- Every slot is changed as a step may change it. -/
def Changes (pid : ℤ) (k k' : Kernel) : Prop := ∀ i, SlotChange pid (k.proc i) (k'.proc i)

theorem Edits.changes (h : Edits k k') (pid : ℤ) : Changes pid k k' := fun i => .edit (h i)

/-- One slot changes. -/
theorem Changes.setProc {pid : ℤ} {P : Proc} (h : SlotChange pid (k.proc i) P) : Changes pid k (k.setProc i P) := by
  intro j
  rw [Kernel.setProc_apply]
  split_ifs with hj
  · exact hj ▸ h
  · exact .refl _ _

/-- An edit of the caller comes after. -/
theorem Changes.edit {pid : ℤ} {P : Proc} (h : Changes pid k k') (he : Edit (k.proc i) P) :
    Changes pid k (k'.setProc i P) := by
  intro j
  rw [Kernel.setProc_apply]
  split_ifs with hj
  · exact hj ▸ .edit he
  · exact h j

/-! ## Calls -/

theorem AllocRes.changes (h : AllocRes k none k') : Changes k.nextpid k k' := by
  cases h with
  | noSlot => exact (Edits.refl k).changes _
  | noTrapframe _ _ _ => exact Changes.setProc (.free rfl rfl rfl)
  | noPagetable _ _ _ _ => exact Changes.setProc (.free rfl rfl rfl)

/-- A slot that `allocproc` handed out is freed again, or filled in. -/
theorem AllocRes.then {np : Slot} {P : Proc} {k1 k2 : Kernel} (h : AllocRes k (some np) k1) (hk2 : k2.proc = k1.proc)
    (hP : SlotChange k.nextpid (k.proc np) P) : Changes k.nextpid k (k2.setProc np P) := by
  intro j
  rw [Kernel.setProc_apply]
  split_ifs with hj
  · exact hj ▸ hP
  · rw [hk2]
    cases h with
    | ok _ _ _ =>
      rw [Kernel.setProc_of_ne _ _ hj]
      exact .refl _ _

/-- What `allocproc` put into the slot that it handed out. -/
theorem AllocRes.ok_self {np : Slot} (h : AllocRes k (some np) k') :
    (k.proc np).state = .unused ∧ (k'.proc np).pid = k.nextpid ∧ (k'.proc np).size = 0 ∧
      (k'.proc np).pagetable ≠ none := by
  cases h with
  | ok hi _ _ =>
    rw [Kernel.setProc_self]
    exact ⟨hi, rfl, rfl, by simp [Proc.allocated]⟩

theorem ForkRes.changes (h : ForkRes k p r k') : Changes k.nextpid k k' := by
  cases h with
  | noSlot ha => exact ha.changes
  | noCopy ha _ _ _ => exact ha.then rfl (.free rfl rfl rfl)
  | ok ha _ _ _ _ =>
    obtain ⟨hu, hpid, hsz, -⟩ := ha.ok_self
    exact ha.then rfl (.make hu (by simp [Proc.asChild]) (by simp [Proc.asChild]) hpid (.inl hsz))

theorem ThreadRes.changes {fn arg retfn : ℕ} (h : ThreadRes k p fn arg retfn r k') : Changes k.nextpid k k' := by
  cases h with
  | noSlot ha => exact ha.changes
  | noShare ha _ _ _ _ => exact ha.then rfl (.free rfl rfl rfl)
  | noStack ha _ _ _ _ _ => exact ha.then rfl (.free rfl rfl rfl)
  | ok ha _ _ _ _ _ _ _ =>
    obtain ⟨hu, hpid, -, -⟩ := ha.ok_self
    exact ha.then rfl (.make hu (by simp [Proc.asThread]) (by simp [Proc.asThread]) hpid (.inr ⟨by rw [← hpid]; rfl, rfl⟩))

theorem JoinRes.changes {tid : ℤ} {l : Option Slot} (h : JoinRes k p tid l o k') (hp : (k.proc p).state ≠ .unused) (pid : ℤ) :
    Changes pid k k' := by
  cases h with
  | gone _ => exact Changes.setProc (.edit (.of_eq rfl rfl rfl rfl rfl))
  | reap _ _ _ _ =>
    exact Changes.edit (Changes.setProc (.free rfl rfl rfl)) (.of_eq rfl rfl rfl rfl rfl)
  | sleep _ _ => exact Changes.setProc (.edit (.of_live hp (by simp) rfl rfl rfl rfl))

theorem WaitRes.changes {addr : ℕ} (h : WaitRes k p addr o k') (hp : (k.proc p).state ≠ .unused) (pid : ℤ) :
    Changes pid k k' := by
  cases h with
  | badAddr _ _ => exact Changes.setProc (.edit (.of_eq rfl rfl rfl rfl rfl))
  | reap _ _ _ _ =>
    exact Changes.edit (Changes.setProc (.free rfl rfl rfl)) (.of_eq rfl rfl rfl rfl rfl)
  | nobody _ => exact Changes.setProc (.edit (.of_eq rfl rfl rfl rfl rfl))
  | sleep _ => exact Changes.setProc (.edit (.of_live hp (by simp) rfl rfl rfl rfl))

/-- The loops of `growproc` leave a null page table alone. -/
theorem broadcastPage_edits {l : Slot} {lroot : Pa} {va : ℕ} {pa : Pa} : Gives (fun r => Edits k r.2) (broadcastPage l lroot va pa k) := by
  refine Gives.foldlM (I := fun r : Bool × Kernel => Edits k r.2) (fun s q hs => ?_) (Edits.refl k)
  split_ifs
  · split
    · exact .ok hs
    · rename_i pt hpt
      split_ifs
      · exact .ok hs
      · refine Gives.bind (Q := fun _ => True) (fun _ _ => trivial) fun ⟨found, _, _⟩ _ => ?_
        dsimp only
        split_ifs
        · exact .ok hs
        · exact Gives.bind (Q := fun _ => True) (fun _ _ => trivial) fun _ _ => .ok (hs.trans (.setPt hpt))
  · exact .ok hs

theorem broadcast_edits {l : Slot} {lpt : PageTable} : ∀ {n va : ℕ} {k : Kernel},
    Gives (fun r => Edits k r.2) (broadcast l lpt n va k)
  | 0, _, k => .ok (.refl k)
  | n + 1, va, k => by
    unfold broadcast
    split_ifs
    · exact .ok (.refl k)
    · exact broadcastPage_edits.bind fun _ h => broadcast_edits.bind fun _ h' => .ok (h.trans h')

theorem unbroadcastPage_edits {l : Slot} {lroot : Pa} {va : ℕ} : Gives (Edits k) (unbroadcastPage l lroot va k) := by
  refine Gives.foldlM (I := Edits k) (fun s q hs => ?_) (Edits.refl k)
  split_ifs
  · split
    · exact .ok hs
    · rename_i pt hpt
      split_ifs
      · exact .ok hs
      · exact Gives.bind (Q := fun _ => True) (fun _ _ => trivial) fun _ _ => .ok (hs.trans (.setPt hpt))
  · exact .ok hs

theorem unbroadcast_edits {l : Slot} {lroot : Pa} : ∀ {n va : ℕ} {k : Kernel}, Gives (Edits k) (unbroadcast l lroot n va k)
  | 0, _, k => .ok (.refl k)
  | n + 1, va, k => by
    unfold unbroadcast
    split_ifs
    · exact .ok (.refl k)
    · exact unbroadcastPage_edits.bind fun _ h => fun _ h' => h.trans (unbroadcast_edits _ h')

theorem setGroupSz_edits {l : Slot} {sz : ℕ} : Edits k (setGroupSz k l sz) := by
  intro i
  simp only [setGroupSz]
  split_ifs
  · exact .of_eq rfl rfl rfl rfl rfl
  · exact .refl _

theorem GrowRes.edits {n : ℤ} (h : GrowRes k p n r k') : Edits k k' := by
  cases h with
  | zero _ => exact .refl k
  | nullGrow _ _ _ _ => exact .refl k
  | nullShrink _ _ _ => exact setGroupSz_edits
  | noMem _ _ hpt _ => exact .setPt hpt
  | grow _ _ hpt _ _ hb => exact (Edits.setPt hpt).trans ((broadcast_edits _ hb).trans setGroupSz_edits)
  | shrink _ _ hpt _ hb => exact (Edits.setPt hpt).trans ((unbroadcast_edits _ hb).trans setGroupSz_edits)

theorem ExecBeginRes.edits (h : ExecBeginRes k p o k') : Edits k k' := by
  cases h with
  | noHeader => exact .refl k
  | noPagetable _ _ => exact .refl k
  | ok _ _ => exact Edits.setProc (.of_eq rfl rfl rfl rfl rfl)

theorem ExecRes.edits {pt : PageTable} {sz : ℕ} (h : ExecRes k p pt sz o k') : Edits k k' := by
  cases h with
  | skip => exact .refl k
  | commit _ _ _ _ hold _ => exact Edits.setProc (k := k.setMem _) ⟨rfl, Iff.rfl, by simp [hold], .inl ⟨rfl, rfl⟩⟩
  | _ => exact Edits.setProc (.of_eq rfl rfl rfl rfl rfl)

theorem FileRes.edits (h : FileRes k p k') : Edits k k' := by
  cases h with
  | same => exact .refl k
  | openBad => exact .refl k
  | openNoFd _ _ => exact .refl k
  | noPipe _ => exact .refl k
  | pipeBad _ _ _ _ => exact .refl k
  | _ => exact Edits.setProc (.of_eq rfl rfl rfl rfl rfl)

theorem closeFiles_edits {fr : Frame} (h : closeFiles k p fr = .ok k') : Edits k k' := by
  obtain ⟨fs, m, -, rfl⟩ := closeFiles_inv h
  exact Edits.setProc (.of_eq rfl rfl rfl rfl rfl)

theorem wakeup_edits {c : Option Slot} : Edits k (wakeup k p c) := by
  intro i
  simp only [wakeup]
  split_ifs with h
  · exact .of_live (by simp [h.2.1]) (by simp) rfl rfl rfl rfl
  · exact .refl _

theorem reparent_edits : Edits k (reparent k p) := by
  have hp : Edits k { k with proc := fun i =>
      if (k.proc i).parent = some p then { k.proc i with parent := some k.initproc } else k.proc i } := by
    intro i
    dsimp only
    split_ifs
    · exact .of_eq rfl rfl rfl rfl rfl
    · exact .refl _
  unfold reparent
  dsimp only
  split_ifs
  · exact hp.trans wakeup_edits
  · exact hp

theorem exitEnd_edits {st : ℤ} (hp : (k.proc p).state ≠ .unused) : Edits k (exitEnd k p st) := by
  have h : Edits k (wakeup (reparent k p) p ((reparent k p).proc p).parent) := reparent_edits.trans wakeup_edits
  refine h.trans (Edits.setProc (.of_live ?_ (by simp) rfl rfl rfl rfl))
  exact fun hu => hp ((h p).unused.mp hu)

theorem threadExitEnd_edits (h : threadExitEnd k p = .ok k') (hp : (k.proc p).state ≠ .unused) : Edits k k' := by
  obtain ⟨P, m, hr, rfl⟩ := threadExitEnd_inv h
  refine Edits.trans (Edits.setProc (k := k.setMem m) ?_) wakeup_edits
  rcases releaseStack_inv hr with ⟨pt, pt', hpt, -, -, -, rfl⟩ | ⟨-, rfl, -⟩
  · refine ⟨rfl, iff_of_false (by simp) hp, ?_, .inr ⟨rfl, rfl⟩⟩
    show some pt' = none ↔ (k.proc p).pagetable = none
    simp [hpt]
  · exact .of_live hp (by simp) rfl rfl rfl rfl

theorem kill_edits {pid : ℤ} : Edits k (kill k pid).2 := by
  unfold kill
  split
  · exact .refl k
  · rename_i i _
    refine Edits.setProc ⟨rfl, ?_, Iff.rfl, .inl ⟨rfl, rfl⟩⟩
    dsimp only
    split_ifs with hs
    · simp [hs]
    · rfl

/-! ## Steps -/

/-- **What a step does to the slots.** -/
theorem step_change {a : Action} (hs : Step k a o k') : Changes k.nextpid k k' := by
  have hlive : ∀ {p}, (k.proc p).state = .running → (k.proc p).state ≠ .unused := fun h => by simp [h]
  have ht : ∀ p as, Edits k (k.tidy p as) := fun p as => Edits.setProc (k := k.setAnswers as) (.of_eq rfl rfl rfl rfl rfl)
  have hlive' : ∀ {p} as, (k.proc p).state = .running → ((k.tidy p as).proc p).state ≠ .unused := fun {p} as h =>
    fun hu => hlive h ((ht p as p).unused.mp hu)
  -- a change after `tidy`, seen from before
  have htrans : ∀ {p as k'}, Changes k.nextpid (k.tidy p as) k' → Changes k.nextpid k k' := by
    intro p as k' h i
    rcases h i with h | h | h
    · exact .edit ((ht p as i).trans h)
    · exact .free ‹_› ‹_› ‹_›
    · exact .make ((ht p as i).unused.mp ‹_›) ‹_› ‹_› ‹_› ‹_›
  cases step_inv hs with
  | scheduler hp => exact Changes.setProc (.edit (.of_live (by simp [hp]) (by simp) rfl rfl rfl rfl))
  | yield hp => exact Changes.setProc (.edit (.of_live (hlive hp) (by simp) rfl rfl rfl rfl))
  | @killed p c as k' _ _ _ _ hc => exact (closeFiles_edits hc).changes _
  | @fault p as k' _ _ _ hc =>
    have h1 : Edits k ((k.setAnswers as).setProc p { k.proc p with killed := true }) :=
      Edits.setProc (k := k.setAnswers as) (.of_eq rfl rfl rfl rfl rfl)
    exact (h1.trans (closeFiles_edits hc)).changes _
  | fork _ _ _ hr => exact hr.changes
  | exec _ _ _ hr => exact hr.edits.changes _
  | sbrk _ _ _ hr => exact hr.edits.changes _
  | threadCreate _ _ _ hr => exact hr.changes
  | threadJoin hp _ _ hr => exact hr.changes (hlive hp) _
  | threadExit _ _ _ _ hc => exact (closeFiles_edits hc).changes _
  | leaderExit _ _ _ _ hc => exact (closeFiles_edits hc).changes _
  | exit _ _ _ _ hc => exact (closeFiles_edits hc).changes _
  | wait hp _ _ hr => exact hr.changes (hlive hp) _
  | @kill p pid as _ _ _ =>
    have h : Edits (k.setAnswers as) (kill (k.setAnswers as) (int32 pid)).2 := kill_edits
    exact h.changes _
  | file _ _ _ _ hr => exact hr.edits.changes _
  | resumeWait hp _ hr => exact htrans (hr.changes (hlive' _ hp) _)
  | resumeJoin hp _ hr => exact htrans (hr.changes (hlive' _ hp) _)
  | resumeExit hp _ => exact htrans ((exitEnd_edits (hlive' _ hp)).changes _)
  | resumeThreadExit hp _ hr => exact htrans ((threadExitEnd_edits hr (hlive' _ hp)).changes _)
  | resumeExec _ _ hr => exact htrans (hr.edits.changes _)

/-! ## Unused slots -/

/-- An unused slot has no page table. -/
def Kernel.Bare (k : Kernel) : Prop := ∀ i, (k.proc i).state = .unused → (k.proc i).pagetable = none

theorem step_bare {a : Action} (hs : Step k a o k') (h : k.Bare) : k'.Bare := by
  intro i hi
  rcases step_change hs i with he | ⟨-, hpt, -⟩ | ⟨-, hlive, -, -, -⟩
  · exact he.pagetable.mpr (h i (he.unused.mp hi))
  · exact hpt
  · exact absurd hi hlive

theorem boot_bare (h : Boot k) : k.Bare := by
  obtain ⟨m0, root, tf, pt0, pt, m1, m2, m, -, -, -, -, -, -, -, hp⟩ := boot_inv h
  intro i hi
  rw [hp, Function.update_apply] at hi ⊢
  split_ifs at hi ⊢
  · cases hi
  · rfl

/-- **Unused slots have no page table in any reachable state.** -/
theorem bare_reach {ok : Kernel → Action → Prop} (h : Reach Step ok Boot k) : k.Bare :=
  h.inv (fun _ => boot_bare) fun _ _ _ _ h _ hs => step_bare hs h

end OsLabs.Xv6
