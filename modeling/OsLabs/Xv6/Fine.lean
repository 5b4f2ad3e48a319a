import OsLabs.Xv6.Sane
import OsLabs.Xv6.FileRef

/-!
# OsLabs.Xv6.Fine — what holds of the memory of every slot in every reachable state

* `Proc.Fine e P`: the page table is sane, the table of a process that is no thread holds exactly the pages below its size, and so does the
  table that an `exec` is building; sizes and stacks stay below the trapframe page; an unused slot has nothing, a used one has a page table
  and a trapframe.
* `SameMem P Q`: a change that leaves all this alone.
* `fine_reach`: every slot of every reachable state is fine.
-/

namespace OsLabs.Xv6

open Fallible Lts

variable {k k' k1 : Kernel} {p q i j l : Slot} {P Q : Proc} {pt pt' : PageTable} {m m' : Kmem} {e n : ℕ} {o : Option ℤ} {r : ℤ}

/-- A process that is neither new nor dying has a current directory. -/
def Proc.Home (P : Proc) : Prop :=
  P.state = .unused ∨ P.state = .used ∨ P.state = .zombie ∨ P.frame.dying = true ∨ P.cwd ≠ none

/-- The memory of one slot. -/
structure Proc.Fine (e : ℕ) (P : Proc) : Prop where
  sz : P.sz ≤ TRAPFRAME
  table : ∀ pt, P.pagetable = some pt → Sane e pt
  -- `uvmfirst` does not look at the answer of `mappages`, so the very first page may be missing
  full : P.isThread = false → ∀ pt, P.pagetable = some pt → Full 1 pt P.sz
  exec : ∀ pt sz, P.frame = .exec pt sz → Sane e pt ∧ sz ≤ TRAPFRAME ∧ Full 0 pt sz ∧ AllUser pt
  trapframe : ∀ pa, P.trapframe = some pa → Legal e pa
  father : P.isThread = true → P.father ≠ none
  stack : P.size ≠ 0 → P.start % PGSIZE = 0 ∧ (P.start / PGSIZE < tfPage ∨ MAXVA ≤ P.start)
  threadExit : P.frame = .threadExit → P.state ≠ .unused → P.isThread = true
  bare : P.state = .unused → P.pagetable = none ∧ P.trapframe = none ∧ P.sz = 0 ∧ P.isThread = false
  live : P.state ≠ .unused → P.pagetable ≠ none ∧ P.trapframe ≠ none
  home : P.Home

def Kernel.Fine (e : ℕ) (k : Kernel) : Prop := ∀ i, (k.proc i).Fine e

def Frame.isExec : Frame → Bool
  | .exec _ _ => true
  | _ => false

/-- The memory of the slot is the same; a call that is left or entered is not `exec`. -/
structure SameMem (P Q : Proc) : Prop where
  sz : Q.sz = P.sz
  pagetable : Q.pagetable = P.pagetable
  trapframe : Q.trapframe = P.trapframe
  isThread : Q.isThread = P.isThread
  father : Q.father = P.father
  start : Q.start = P.start
  size : Q.size = P.size
  frame : Q.frame = P.frame ∨ Q.frame.isExec = false ∧ (Q.frame = .threadExit → P.isThread = true)
  unused : Q.state = .unused ↔ P.state = .unused
  home : P.Home → Q.Home

theorem SameMem.refl (P : Proc) : SameMem P P := ⟨rfl, rfl, rfl, rfl, rfl, rfl, rfl, .inl rfl, .rfl, id⟩

theorem SameMem.trans {R : Proc} (h1 : SameMem P Q) (h2 : SameMem Q R) : SameMem P R := by
  refine ⟨h2.sz.trans h1.sz, h2.pagetable.trans h1.pagetable, h2.trapframe.trans h1.trapframe, h2.isThread.trans h1.isThread,
    h2.father.trans h1.father, h2.start.trans h1.start, h2.size.trans h1.size, ?_, h2.unused.trans h1.unused, fun h => h2.home (h1.home h)⟩
  rcases h2.frame with h | ⟨h, h'⟩
  · rw [h]
    exact h1.frame
  · exact .inr ⟨h, fun hr => h1.isThread ▸ h' hr⟩

theorem SameMem.fine (h : SameMem P Q) (hf : P.Fine e) : Q.Fine e where
  sz := h.sz ▸ hf.sz
  table := h.pagetable ▸ hf.table
  full ht pt hpt := by
    rw [h.sz]
    exact hf.full (h.isThread ▸ ht) pt (h.pagetable ▸ hpt)
  exec pt sz hfr := by
    rcases h.frame with h' | ⟨h', -⟩
    · exact hf.exec pt sz (h' ▸ hfr)
    · rw [hfr] at h'
      cases h'
  trapframe := h.trapframe ▸ hf.trapframe
  father ht := h.father ▸ hf.father (h.isThread ▸ ht)
  stack hs := h.start ▸ hf.stack (h.size ▸ hs)
  threadExit hfr hu := by
    rw [h.isThread]
    rcases h.frame with h' | ⟨-, h'⟩
    · exact hf.threadExit (h' ▸ hfr) fun hu' => hu (h.unused.mpr hu')
    · exact h' hfr
  bare hu := by
    rw [h.pagetable, h.trapframe, h.sz, h.isThread]
    exact hf.bare (h.unused.mp hu)
  live hu := by
    rw [h.pagetable, h.trapframe]
    exact hf.live fun hu' => hu (h.unused.mpr hu')
  home := h.home hf.home

/-- Only memory contents and records change, and these leave the memory of their slots alone. -/
def Quiet (k k' : Kernel) : Prop := ∀ j, SameMem (k.proc j) (k'.proc j)

theorem Quiet.refl (k : Kernel) : Quiet k k := fun _ => .refl _

theorem Quiet.trans (h1 : Quiet k k1) (h2 : Quiet k1 k') : Quiet k k' := fun j => (h1 j).trans (h2 j)

theorem Quiet.fine (h : Quiet k k') (hf : k.Fine e) : k'.Fine e := fun j => (h j).fine (hf j)

theorem Quiet.setProc (h : SameMem (k.proc i) P) : Quiet k (k.setProc i P) := by
  intro j
  rw [Kernel.setProc_apply]
  split_ifs with hj
  · exact hj ▸ h
  · exact .refl _

/-- One slot changes. -/
theorem Kernel.Fine.setProc (hf : k.Fine e) (hP : P.Fine e) : (k.setProc i P).Fine e := by
  intro j
  rw [Kernel.setProc_apply]
  split_ifs
  · exact hP
  · exact hf j

/-! ## Steps that leave the memory of every slot alone -/

/-- A process on a CPU that is not dying. -/
structure Proc.Busy (P : Proc) : Prop where
  running : P.state = .running
  dying : P.frame.dying = false

theorem Proc.Busy.of_user (hp : P.state = .running) (hfr : P.frame = .user) : P.Busy := ⟨hp, by rw [hfr]; rfl⟩

theorem Proc.Busy.live (h : P.Busy) : P.state ≠ .unused := by
  rw [h.running]
  decide

theorem Proc.Busy.cwd (h : P.Busy) (hh : P.Home) : P.cwd ≠ none := by
  have hr := h.running
  have hd := h.dying
  rcases hh with h | h | h | h | h
  · rw [hr] at h
    cases h
  · rw [hr] at h
    cases h
  · rw [hr] at h
    cases h
  · rw [hd] at h
    cases h
  · exact h

/-- Another state, another call that is not `exec`. -/
theorem SameMem.enter {fr : Frame} {st : ProcState} {c : Option Slot} (hb : P.Busy) (hst : st ≠ .unused)
    (hfr : fr.isExec = false) (hte : fr = .threadExit → P.isThread = true) :
    SameMem P { P with state := st, chan := c, frame := fr } :=
  ⟨rfl, rfl, rfl, rfl, rfl, rfl, rfl, .inr ⟨hfr, hte⟩, iff_of_false hst hb.live, fun h => .inr (.inr (.inr (.inr (hb.cwd h))))⟩

/-- Back to user space. -/
theorem SameMem.toUser (hb : P.Busy) : SameMem P { P with frame := .user } :=
  ⟨rfl, rfl, rfl, rfl, rfl, rfl, rfl, .inr ⟨rfl, by simp⟩, .rfl, fun h => .inr (.inr (.inr (.inr (hb.cwd h))))⟩

theorem SameMem.setState {st : ProcState} (hu : P.state ≠ .unused) (hn : P.state ≠ .used) (hz : P.state ≠ .zombie) (hst : st ≠ .unused) :
    SameMem P { P with state := st } := by
  refine ⟨rfl, rfl, rfl, rfl, rfl, rfl, rfl, .inl rfl, iff_of_false hst hu, fun h => ?_⟩
  rcases h with h | h | h | h
  · exact absurd h hu
  · exact absurd h hn
  · exact absurd h hz
  · exact .inr (.inr (.inr h))

theorem tidy_quiet (k : Kernel) (p : Slot) (as : List Pa) : Quiet k (k.tidy p as) :=
  Quiet.setProc (k := k.setAnswers as) ⟨rfl, rfl, rfl, rfl, rfl, rfl, rfl, .inl rfl, .rfl, id⟩

theorem tidy_proc (k : Kernel) (p : Slot) (as : List Pa) : (k.tidy p as).proc p = { k.proc p with chan := none } :=
  Kernel.setProc_self _ _ _

theorem tidy_busy {as : List Pa} (hp : (k.proc p).state = .running) (hd : (k.proc p).frame.dying = false) :
    ((k.tidy p as).proc p).Busy := by
  rw [tidy_proc]
  exact ⟨hp, hd⟩

/-- `usertrap` marks a process that faults. -/
theorem fault_quiet (k : Kernel) (p : Slot) (as : List Pa) :
    Quiet k ((k.setAnswers as).setProc p { k.proc p with killed := true }) :=
  Quiet.setProc (k := k.setAnswers as) ⟨rfl, rfl, rfl, rfl, rfl, rfl, rfl, .inl rfl, .rfl, id⟩

theorem closeFiles_quiet {fr : Frame} (h : closeFiles k p fr = .ok k') (hfr : fr.dying = true)
    (hte : fr = .threadExit → (k.proc p).isThread = true) : Quiet k k' := by
  obtain ⟨fs, m, -, rfl⟩ := closeFiles_inv h
  have hx : fr.isExec = false := by
    cases fr with
    | exec pt sz => cases hfr
    | _ => rfl
  exact Quiet.setProc (k := (k.setMem m).setFs _)
    ⟨rfl, rfl, rfl, rfl, rfl, rfl, rfl, .inr ⟨hx, hte⟩, .rfl, fun _ => .inr (.inr (.inr (.inl hfr)))⟩

theorem wakeup_quiet (k : Kernel) (self : Slot) (c : Option Slot) : Quiet k (wakeup k self c) := by
  intro j
  simp only [wakeup]
  split_ifs with h
  · exact .setState (by rw [h.2.1]; decide) (by rw [h.2.1]; decide) (by rw [h.2.1]; decide) (by decide)
  · exact .refl _

theorem reparent_quiet (k : Kernel) (p : Slot) : Quiet k (reparent k p) := by
  have hk : Quiet k { k with proc := fun i =>
      if (k.proc i).parent = some p then { k.proc i with parent := some k.initproc } else k.proc i } := by
    intro j
    dsimp only
    split_ifs
    · exact ⟨rfl, rfl, rfl, rfl, rfl, rfl, rfl, .inl rfl, .rfl, id⟩
    · exact .refl _
  unfold reparent
  dsimp only
  split_ifs
  · exact hk.trans (wakeup_quiet _ _ _)
  · exact hk

theorem exitEnd_quiet {st : ℤ} (hp : (k.proc p).state ≠ .unused) : Quiet k (exitEnd k p st) := by
  have h : Quiet k (wakeup (reparent k p) p ((reparent k p).proc p).parent) := (reparent_quiet k p).trans (wakeup_quiet _ _ _)
  refine h.trans (Quiet.setProc ⟨rfl, rfl, rfl, rfl, rfl, rfl, rfl, .inl rfl, iff_of_false (by simp) ?_, fun _ => .inr (.inr (.inl rfl))⟩)
  exact fun hu => hp ((h p).unused.mp hu)

theorem kill_quiet (k : Kernel) (pid : ℤ) : Quiet k (kill k pid).2 := by
  unfold kill
  split
  · exact .refl k
  · refine Quiet.setProc ⟨rfl, rfl, rfl, rfl, rfl, rfl, rfl, .inl rfl, ?_, ?_⟩
    · dsimp only
      split_ifs with hs
      · simp [hs]
      · rfl
    · rintro (h | h | h | h)
      · exact .inl (by simp [h])
      · exact .inr (.inl (by simp [h]))
      · exact .inr (.inr (.inl (by simp [h])))
      · exact .inr (.inr (.inr h))

theorem FileRes.quiet (h : FileRes k p k') : Quiet k k' := by
  have hof : ∀ {k0 : Kernel} {of : Ofile}, k0.proc = k.proc → Quiet k (k0.setProc p { k.proc p with ofile := of }) := by
    intro k0 of h0 j
    rw [Kernel.setProc_apply, h0]
    split_ifs with hj
    · rw [hj]
      exact ⟨rfl, rfl, rfl, rfl, rfl, rfl, rfl, .inl rfl, .rfl, id⟩
    · exact .refl _
  cases h with
  | same => exact .refl k
  | openBad => exact .refl k
  | openNoFd _ _ => exact .refl k
  | «open» _ _ _ _ _ => exact hof rfl
  | dup _ _ _ => exact hof rfl
  | close _ _ => exact hof rfl
  | noPipe _ => exact .refl k
  | pipeBad _ _ _ _ => exact .refl k
  | pipe _ _ _ _ => exact hof rfl

/-! ## Slots that are given up -/

theorem Proc.Fine.freed (h : P.Fine e) : P.freed.Fine e where
  sz := Nat.zero_le _
  table pt hpt := by cases hpt
  full _ pt hpt := by cases hpt
  exec := h.exec
  trapframe pa hpa := by cases hpa
  father ht := by cases ht
  stack hs := absurd rfl hs
  threadExit _ hu := absurd rfl hu
  bare _ := ⟨rfl, rfl, rfl, rfl⟩
  live hu := absurd rfl hu
  home := .inl rfl

theorem Proc.Fine.freedThread (h : P.Fine e) : P.freedThread.Fine e where
  sz := Nat.zero_le _
  table pt hpt := by cases hpt
  full _ pt hpt := by cases hpt
  exec := h.exec
  trapframe pa hpa := by cases hpa
  father ht := by cases ht
  stack := h.stack
  threadExit _ hu := absurd rfl hu
  bare _ := ⟨rfl, rfl, rfl, rfl⟩
  live hu := absurd rfl hu
  home := .inl rfl

theorem JoinRes.fine {tid : ℤ} {x : Option Slot} (h : JoinRes k p tid x o k') (hf : k.Fine e) (hb : (k.proc p).Busy) :
    k'.Fine e := by
  cases h with
  | gone _ => exact hf.setProc ((SameMem.toUser hb).fine (hf p))
  | reap _ _ _ _ =>
    exact Kernel.Fine.setProc (Kernel.Fine.setProc (k := k.setMem _) hf (hf _).freedThread) ((SameMem.toUser hb).fine (hf p))
  | sleep _ _ => exact hf.setProc ((SameMem.enter hb (by decide) rfl (by simp)).fine (hf p))

theorem WaitRes.fine {addr : ℕ} (h : WaitRes k p addr o k') (hf : k.Fine e) (hb : (k.proc p).Busy) : k'.Fine e := by
  cases h with
  | badAddr _ _ => exact Kernel.Fine.setProc (k := k.setMem _) hf ((SameMem.toUser hb).fine (hf p))
  | reap _ _ _ _ =>
    exact Kernel.Fine.setProc (Kernel.Fine.setProc (k := k.setMem _) hf (hf _).freed) ((SameMem.toUser hb).fine (hf p))
  | nobody _ => exact hf.setProc ((SameMem.toUser hb).fine (hf p))
  | sleep _ => exact hf.setProc ((SameMem.enter hb (by decide) rfl (by simp)).fine (hf p))

/-! ## Slots that are taken -/

/-- **What `allocproc` makes of an unused slot.** -/
theorem AllocRes.taken {np : Slot} (h : AllocRes k (some np) k') (hm : k.mem.OkAt e) : ∃ tf pt, Taken e k k' np tf pt ∧ Sane e pt := by
  have hok := h.okAt hm
  cases h with
  | @ok _ tf pt m1 m2 hi h1 h2 =>
    obtain ⟨ho, hs, hp⟩ := procPagetable_some (kalloc_okAt hm h1) h2
    refine ⟨tf, pt, ⟨hi, Kernel.setProc_self _ _ _, fun j hj => Kernel.setProc_of_ne _ _ hj, ho, hok, kalloc_legal hm h1, fun x => ?_⟩, hs⟩
    have e1 := hp x
    have e2 := kalloc_some h1 x
    rw [Kernel.setProc_mem, Kernel.setMem_mem]
    omega

theorem AllocRes.fine_none (h : AllocRes k none k') (hf : k.Fine e) : k'.Fine e := by
  cases h with
  | noSlot => exact hf
  | noTrapframe _ _ _ => exact Kernel.Fine.setProc (k := k.bumpPid.setMem _) hf (hf _).freed
  | noPagetable _ _ _ _ => exact Kernel.Fine.setProc (k := k.bumpPid.setMem _) hf (hf _).freed

namespace Taken

variable {np : Slot} {tf : Pa}

theorem fine_self (h : Taken e k k1 np tf pt) (hf : k.Fine e) (hs : Sane e pt) : (k1.proc np).Fine e := by
  have hsz := ((hf np).bare h.unused).2.2.1
  rw [h.self]
  exact {
    sz := by
      show (k.proc np).sz ≤ _
      rw [hsz]
      exact Nat.zero_le _
    table := by
      rintro pt' hpt
      rw [← Option.some.inj hpt]
      exact hs
    full := by
      rintro - pt' hpt
      rw [← Option.some.inj hpt]
      show Full 1 pt (k.proc np).sz
      rw [hsz]
      exact h.only.full
    exec := by
      intro pt' sz hfr
      cases hfr
    trapframe := by
      intro pa hpa
      rw [← Option.some.inj hpa]
      exact h.legal
    father := by
      intro ht
      cases ht
    stack := fun hs => absurd rfl hs
    threadExit := by
      intro hfr
      cases hfr
    bare := by
      intro hu
      cases hu
    live := fun _ => ⟨by simp [Proc.allocated], by simp [Proc.allocated]⟩
    home := .inr (.inl rfl) }

theorem fine (h : Taken e k k1 np tf pt) (hf : k.Fine e) (hs : Sane e pt) : k1.Fine e := by
  intro j
  by_cases hj : j = np
  · rw [hj]
    exact h.fine_self hf hs
  · rw [h.other j hj]
    exact hf j

end Taken

theorem ForkRes.fine (h : ForkRes k p r k') (hf : k.Fine e) (hm : k.mem.OkAt e) : k'.Fine e := by
  cases h with
  | noSlot ha => exact ha.fine_none hf
  | noCopy ha _ _ _ =>
    obtain ⟨tf, pt, ht, hs⟩ := ha.taken hm
    exact Kernel.Fine.setProc (k := Kernel.setMem _ _) (ht.fine hf hs) (ht.fine_self hf hs).freed
  | @ok np k1 new new1 m1 c fs ha hpt hu _ _ =>
    obtain ⟨tf, pt, ht, hs⟩ := ha.taken hm
    have hf1 := ht.fine hf hs
    obtain rfl : pt = new := Option.some.inj (ht.pagetable.symm.trans hpt)
    obtain ⟨hs', hfull⟩ := uvmcopyOpt_sane hs ht.okAt (hf1 p).table ht.only.user (hf1 p).sz hu
    refine Kernel.Fine.setProc (k := (k1.setMem m1).setFs _) hf1 ?_
    have hself := hf1 np
    exact {
      sz := (hf1 p).sz
      table := by
        rintro pt' hpt'
        rw [← Option.some.inj hpt']
        exact hs'
      full := by
        rintro - pt' hpt'
        rw [← Option.some.inj hpt']
        exact hfull.mono zero_le_one
      exec := hself.exec
      trapframe := hself.trapframe
      father := hself.father
      stack := hself.stack
      threadExit := by
        intro hfr
        have : (k1.proc np).frame = .threadExit := hfr
        rw [ht.self] at this
        cases this
      bare := by
        intro hu
        cases hu
      live := fun _ => ⟨by simp [Proc.asChild], by simp [Proc.asChild, ht.self, Proc.allocated]⟩
      home := .inr (.inr (.inr (.inr (by simp [Proc.asChild])))) }

/-- The page for the stack of a thread, at an address that may be anywhere. -/
theorem stack_sane {base r : ℕ} (hs : Sane e pt) (hm : m.OkAt e) (hb : base % PGSIZE = 0) (hlt : base < 2 ^ 64)
    (h : uvmalloc pt base (add64 base PGSIZE) true false m = .ok (r, pt', m')) (hr : r ≠ 0) :
    Sane e pt' ∧ (MAXVA ≤ base ∧ pt' = pt ∧ m' = m ∨
      base / PGSIZE < tfPage ∧ Mapped (fun _ => growPerm) (base / PGSIZE) 1 pt pt' m m') := by
  have hnp : npages base = base / PGSIZE := by rw [npages, pgroundup_of_mod hb hlt]
  have hup : pgroundup base = base := pgroundup_of_mod hb hlt
  cases uvmalloc_inv h with
  | same hwrap =>
    refine ⟨hs, .inl ⟨?_, rfl, rfl⟩⟩
    simp only [add64, MAXVA, PGSIZE] at *
    omega
  | noMem _ _ => exact absurd rfl hr
  | @ok _ _ c hle hc hmap htop =>
    have hc1 : c = 1 := by
      rw [hup] at hc
      simp only [add64, PGSIZE] at *
      omega
    rw [hc1] at hmap htop
    rw [hnp] at hmap
    have hle := htop (by omega)
    -- neither the trapframe page nor the trampoline is free to be mapped
    have hnone := hmap.old (base / PGSIZE) le_rfl (by omega)
    have hne1 : base / PGSIZE ≠ tfPage := fun h => hs.shaped.trapf (h ▸ hnone)
    have hne2 : base / PGSIZE ≠ trampPage := fun h => hs.tramp (h ▸ hnone)
    have hv : base / PGSIZE < tfPage := by
      rw [hup] at hle
      simp only [tfPage, trampPage, TRAPFRAME, TRAMPOLINE, MAXVA, PGSIZE] at *
      omega
    exact ⟨hs.mapped hm hmap (by omega) fun _ _ _ => rfl, .inr ⟨hv, hmap⟩⟩

theorem stackBase_mod (pid : ℤ) : stackBase pid % PGSIZE = 0 := by
  unfold stackBase add64 sub64 u64
  simp only [TRAPFRAME, TRAMPOLINE, MAXVA, PGSIZE]
  omega

theorem stackBase_lt (pid : ℤ) : stackBase pid < 2 ^ 64 := Nat.mod_lt _ (by decide)

theorem ThreadRes.fine {fn arg retfn : ℕ} (h : ThreadRes k p fn arg retfn r k') (hf : k.Fine e) (hm : k.mem.OkAt e) : k'.Fine e := by
  cases h with
  | noSlot ha => exact ha.fine_none hf
  | noShare ha _ _ _ _ =>
    obtain ⟨tf, pt, ht, hs⟩ := ha.taken hm
    exact Kernel.Fine.setProc (k := Kernel.setMem _ _) (ht.fine hf hs) (ht.fine_self hf hs).freed
  | noStack ha _ _ _ _ _ =>
    obtain ⟨tf, pt, ht, hs⟩ := ha.taken hm
    exact Kernel.Fine.setProc (k := Kernel.setMem _ _) (ht.fine hf hs) (ht.fine_self hf hs).freed
  | @ok np leader k1 new pt1 pt2 m1 m2 r c fs ha hl hpt hsh hu hr _ _ =>
    obtain ⟨tf, pt, ht, hs⟩ := ha.taken hm
    have hf1 := ht.fine hf hs
    obtain rfl : pt = new := Option.some.inj (ht.pagetable.symm.trans hpt)
    have hs1 := share_sane ht.okAt (hf1 leader).table ht.only hs hsh
    have hm1 : m1.OkAt e := share_okAt ht.okAt _ hsh
    obtain ⟨hs2, hplace⟩ := stack_sane hs1 hm1 (stackBase_mod _) (stackBase_lt _) hu hr
    refine Kernel.Fine.setProc (k := (k1.setMem m2).setFs _) hf1 ?_
    have hself := hf1 np
    exact {
      sz := (hf1 leader).sz
      table := by
        rintro pt' hpt'
        rw [← Option.some.inj hpt']
        exact hs2
      full := by
        intro ht'
        cases ht'
      exec := hself.exec
      trapframe := hself.trapframe
      father := by simp [Proc.asThread]
      stack := fun _ => ⟨stackBase_mod _, hplace.symm.imp (fun h => h.1) fun h => h.1⟩
      threadExit := fun _ _ => rfl
      bare := by
        intro hu
        cases hu
      live := fun _ => ⟨by simp [Proc.asThread], by simp [Proc.asThread, ht.self, Proc.allocated]⟩
      home := .inr (.inr (.inr (.inr (by simp [Proc.asThread])))) }

/-! ## Memory size -/

/-- A new table and a new size. -/
theorem Proc.Fine.resize {sz : ℕ} (h : P.Fine e) (hpt : P.pagetable = some pt) (hs : Sane e pt') (hsz : sz ≤ TRAPFRAME)
    (hfull : P.isThread = false → Full 1 pt' sz) : ({ P with pagetable := some pt', sz := sz } : Proc).Fine e := by
  have hlive : P.state ≠ .unused := fun hu => by
    rw [(h.bare hu).1] at hpt
    cases hpt
  exact {
    sz := hsz
    table := by
      rintro x hx
      rw [← Option.some.inj hx]
      exact hs
    full := by
      rintro ht x hx
      rw [← Option.some.inj hx]
      exact hfull ht
    exec := h.exec
    trapframe := h.trapframe
    father := h.father
    stack := h.stack
    threadExit := h.threadExit
    bare := fun hu => absurd hu hlive
    live := fun hu => ⟨by simp, (h.live hu).2⟩
    home := h.home }

/-- A thread without a table of its own gets a new size. -/
theorem Proc.Fine.setSz {sz : ℕ} (h : P.Fine e) (ht : P.isThread = true) (hsz : sz ≤ TRAPFRAME) : ({ P with sz := sz } : Proc).Fine e :=
  { sz := hsz
    table := h.table
    full := fun ht' => absurd (ht.symm.trans ht') (by simp)
    exec := h.exec
    trapframe := h.trapframe
    father := h.father
    stack := h.stack
    threadExit := h.threadExit
    bare := fun hu => absurd (ht.symm.trans (h.bare hu).2.2.2) (by simp)
    live := h.live
    home := h.home }

/-- How many pages `growproc` adds. -/
theorem grow_range {o r : ℕ} (hor : o ≤ r) (hr : r ≤ TRAPFRAME) :
    (r - pgroundup o + (PGSIZE - 1)) / PGSIZE = npages r - npages o ∧ pgroundup o / PGSIZE = npages o ∧
      npages o + (npages r - npages o) ≤ tfPage := by
  have hT : TRAPFRAME < MAXVA := by decide
  have h1 : npages r ≤ tfPage := npages_le hr
  have h2 : npages o ≤ npages r := npages_mono hor (by omega)
  refine ⟨?_, rfl, by omega⟩
  rw [pgroundup_of_le (by omega), npages_of_le (by omega), npages_of_le (by omega)]
  simp only [PGSIZE]
  omega

/-- A user page that the table maps, as `walkaddr` finds it. -/
theorem walkaddr_of_pte {v : ℕ} {en : Pte} (hw : pt.WF) (hv : v < tfPage) (hen : pt.pte v = some en) (hu : en.perm.u = true) :
    walkaddr pt (v * PGSIZE) = some en.pa := by
  have hdiv : v * PGSIZE / PGSIZE = v := Nat.mul_div_cancel v PGSIZE_pos
  have hlt : ¬ MAXVA ≤ v * PGSIZE := by
    simp only [tfPage, TRAPFRAME, TRAMPOLINE, MAXVA, PGSIZE] at *
    omega
  have hr : pt.reaches (v * PGSIZE) = true := hw v (by rw [hen]; simp)
  unfold walkaddr
  rw [if_neg hlt, hr, hdiv, hen]
  simp [hu]

theorem Kernel.tabs_pos {x : Pa} (hpt : (k.proc q).pagetable = some pt) (hx : x ∈ pt.pages) : 0 < k.tabs x := by
  have h1 : tabOf (k.proc q).pagetable x ≤ ∑ i, tabOf (k.proc i).pagetable x :=
    Finset.single_le_sum (f := fun i => tabOf (k.proc i).pagetable x) (fun _ _ => Nat.zero_le _) (Finset.mem_univ q)
  have h2 : 0 < pt.tab x := List.count_pos_iff.mpr hx
  rw [hpt, tabOf_some] at h1
  unfold Kernel.tabs
  omega

theorem Kernel.legal_of_tabs {x : Pa} (hm : k.mem.OkAt e) (hs : ∀ i pt, (k.proc i).pagetable = some pt → Sane e pt)
    (hx : 0 < k.tabs x) : Legal e x := by
  unfold Kernel.tabs at hx
  by_cases hfree : 0 < k.mem.free x
  · exact hm.2 x (List.count_pos_iff.mp hfree)
  · obtain ⟨i, -, hi⟩ := Finset.sum_pos_iff.mp (show 0 < ∑ q, tabOf (k.proc q).pagetable x by omega)
    cases hpt : (k.proc i).pagetable with
    | none =>
      rw [hpt, tabOf_none] at hi
      omega
    | some pt =>
      rw [hpt, tabOf_some] at hi
      exact (hs i pt hpt).page (List.count_pos_iff.mp hi)

/-- The last loop of `growproc`, slot by slot: `k2` is `k` with other page tables. -/
theorem setGroupSz_fine {k2 : Kernel} {sz : ℕ} {lpt1 : PageTable} {R : PageTable → PageTable → Prop} {lroot : Pa} (hf : k.Fine e)
    (hl : k2.proc l = { k.proc l with pagetable := some lpt1 }) (hlpt : (k.proc l).pagetable ≠ none) (hls : Sane e lpt1)
    (hlf : (k.proc l).isThread = false → Full 1 lpt1 sz) (hsz : sz ≤ TRAPFRAME)
    (hq : ∀ q, q ≠ l → Visit R l lroot q (k.proc q) (k2.proc q))
    (hR : ∀ q x y, (k2.proc q).pagetable = some y → R x y → Sane e x → Sane e y) : (setGroupSz k2 l sz).Fine e := by
  intro q
  have hproc : (setGroupSz k2 l sz).proc q = if inGroup k2 q l then { k2.proc q with sz := sz } else k2.proc q := rfl
  rw [hproc]
  by_cases hql : q = l
  · subst hql
    rw [if_pos (inGroup_iff.mpr (.inl rfl)), hl]
    obtain ⟨lpt, hpt⟩ := Option.ne_none_iff_exists'.mp hlpt
    exact (hf q).resize hpt hls hsz hlf
  rcases hq q hql with ⟨pt, pt', ho, heq, hr⟩ | ⟨-, heq⟩
  · have hthr := ho.1.resolve_left hql
    rw [heq, if_pos (inGroup_iff.mpr (.inr (by rw [heq]; exact hthr)))]
    exact (hf q).resize ho.2.1 (hR q pt pt' (by rw [heq]) hr ((hf q).table pt ho.2.1)) hsz
      fun h => absurd (hthr.1.symm.trans h) (by simp)
  · rw [heq]
    split_ifs with hin
    · rw [inGroup_iff, heq] at hin
      exact (hf q).setSz (hin.resolve_left hql).1 hsz
    · exact hf q

/-- The leader is not visited. -/
theorem Visit.leader {R : PageTable → PageTable → Prop} {P' : Proc} (h : Visit R l pt.root l P P') (hpt : P.pagetable = some pt) : P' = P := by
  rcases h with ⟨pt1, pt2, ho, -⟩ | ⟨-, h⟩
  · rw [Option.some.inj (ho.2.1.symm.trans hpt)] at ho
    exact absurd rfl ho.2.2
  · exact h

/-- How the group of `l` looks like after the leader grew to `sz` bytes and its new pages were broadcast. -/
structure Grew (k : Kernel) (l : Slot) (lpt1 : PageTable) (m : Kmem) (sz : ℕ) (b : Bool) (k2 : Kernel) : Prop where
  le : (k.proc l).sz ≤ sz
  top : sz ≤ TRAPFRAME
  range : npages (k.proc l).sz + (npages sz - npages (k.proc l).sz) ≤ tfPage
  new : ∀ v, npages (k.proc l).sz ≤ v → v < npages sz → ∃ pa, lpt1.pte v = some ⟨pa, growPerm⟩
  leader : k2.proc l = { k.proc l with pagetable := some lpt1 }
  visit : ∀ q, q ≠ l → Visit (Spread (fun v => ⟨(walkaddr lpt1 (v * PGSIZE)).getD 0, growPerm⟩) (npages (k.proc l).sz)
    (npages sz - npages (k.proc l).sz) (b = true)) l lpt1.root q (k.proc q) (k2.proc q)
  tabs : ∀ x, k2.tabs x = ((k.setMem m).setProc l { k.proc l with pagetable := some lpt1 }).tabs x

theorem grew {lpt lpt1 : PageTable} {sz n : ℕ} {b : Bool} {k2 : Kernel} (hs : Sane e lpt) (hlsz : (k.proc l).sz ≤ TRAPFRAME)
    (hu : uvmalloc lpt (k.proc l).sz n true false k.mem = .ok (sz, lpt1, m)) (hsz : sz ≠ 0)
    (hb : broadcast l lpt1 ((sz - pgroundup (k.proc l).sz + (PGSIZE - 1)) / PGSIZE) (pgroundup (k.proc l).sz)
      ((k.setMem m).setProc l { k.proc l with pagetable := some lpt1 }) = .ok (b, k2)) : Grew k l lpt1 m sz b k2 := by
  obtain ⟨-, -, -, hcase⟩ := uvmalloc_held hs.shaped hlsz hu
  have hor : (k.proc l).sz ≤ sz ∧ sz ≤ TRAPFRAME ∧ ∀ v, npages (k.proc l).sz ≤ v → v < npages sz →
      ∃ pa, lpt1.pte v = some ⟨pa, growPerm⟩ := by
    rcases hcase with ⟨h0 | rfl, -⟩ | ⟨-, hg⟩
    · exact absurd h0 hsz
    · exact ⟨le_rfl, hlsz, fun v h1 h2 => by omega⟩
    · exact ⟨hg.le, hg.top, hg.new⟩
  obtain ⟨hle, htop, hnew⟩ := hor
  obtain ⟨hcount, hdiv, hn⟩ := grow_range hle htop
  rw [hcount] at hb
  obtain ⟨hv, htabs⟩ := broadcast_spread (e := fun v => ⟨(walkaddr lpt1 (v * PGSIZE)).getD 0, growPerm⟩)
    (pgroundup_mod _) (by rw [hdiv]; exact hn) (fun _ _ _ => rfl) hb
  rw [hdiv] at hv
  refine ⟨hle, htop, hn, hnew, ?_, fun q hq => ?_, htabs⟩
  · have hvl := hv l
    rw [Kernel.setProc_self] at hvl
    exact hvl.leader rfl
  · have hvq := hv q
    rwa [Kernel.setProc_of_ne _ _ hq, Kernel.setMem_proc] at hvq

/-- How the group of `l` looks like after it shrank to `sz` bytes. -/
structure Shrunk (k : Kernel) (l : Slot) (lpt : PageTable) (sz : ℕ) (k2 : Kernel) : Prop where
  le : sz ≤ (k.proc l).sz
  pages : npages sz ≤ npages (k.proc l).sz
  range : npages sz + (npages (k.proc l).sz - npages sz) ≤ tfPage
  leader : k2.proc l = { k.proc l with pagetable := some (lpt.unmap (npages sz) (npages (k.proc l).sz - npages sz)) }
  visit : ∀ q, q ≠ l → Visit (fun x y => y = x.unmap (npages sz) (npages (k.proc l).sz - npages sz) ∧
    ∀ v, npages sz ≤ v → v < npages sz + (npages (k.proc l).sz - npages sz) → x.pte v ≠ none) l lpt.root q (k.proc q) (k2.proc q)

theorem shrunk {lpt lpt1 : PageTable} {sz n : ℕ} {k2 : Kernel} (hs : Shaped lpt) (hlsz : (k.proc l).sz ≤ TRAPFRAME)
    (hu : uvmdealloc lpt (k.proc l).sz n k.mem = .ok (sz, lpt1, m))
    (hb : unbroadcast l lpt1.root ((pgroundup (k.proc l).sz - pgroundup sz) / PGSIZE) (pgroundup sz)
      ((k.setMem m).setProc l { k.proc l with pagetable := some lpt1 }) = .ok k2) : Shrunk k l lpt sz k2 := by
  have hT : TRAPFRAME < MAXVA := by decide
  obtain ⟨-, -, hle, rfl⟩ := uvmdealloc_held hs hlsz hu
  have hnp : npages sz ≤ npages (k.proc l).sz := npages_mono hle (by omega)
  have hn : npages sz + (npages (k.proc l).sz - npages sz) ≤ tfPage := by
    have := npages_le hlsz
    omega
  have hcount : (pgroundup (k.proc l).sz - pgroundup sz) / PGSIZE = npages (k.proc l).sz - npages sz := by
    rw [pgroundup_eq, pgroundup_eq, ← Nat.sub_mul, Nat.mul_div_cancel _ PGSIZE_pos]
  rw [hcount] at hb
  obtain ⟨hv, -⟩ := unbroadcast_unmap (pgroundup_mod _) (by rw [pgroundup_div]; exact hn) hb
  refine ⟨hle, hnp, hn, ?_, fun q hq => ?_⟩
  · have hvl := hv l
    rw [Kernel.setProc_self] at hvl
    exact hvl.leader rfl
  · have hvq := hv q
    rwa [Kernel.setProc_of_ne _ _ hq, Kernel.setMem_proc] at hvq

theorem GrowRes.fine {n : ℤ} (h : GrowRes k p n r k') (hf : k.Fine e) (hm : k.mem.OkAt e) : k'.Fine e := by
  cases h with
  | zero _ => exact hf
  | nullGrow _ _ _ _ => exact hf
  | @nullShrink l _ _ hpt =>
    have hu : (k.proc l).state = .unused := by
      by_contra hu
      exact ((hf l).live hu).1 hpt
    intro q
    have hproc : (setGroupSz k l (k.proc l).sz).proc q = if inGroup k q l then { k.proc q with sz := (k.proc l).sz } else k.proc q := rfl
    rw [hproc]
    split_ifs with hin
    · rcases inGroup_iff.mp hin with rfl | ⟨ht, -⟩
      · exact hf q
      · exact (hf q).setSz ht (hf l).sz
    · exact hf q
  | @noMem l lpt lpt1 m _ _ hpt hu =>
    have hs := (hf l).table lpt hpt
    refine Kernel.Fine.setProc (k := k.setMem m) hf ((hf l).resize hpt (uvmalloc_sane hs hm (hf l).sz hu) (hf l).sz fun ht => ?_)
    rcases uvmalloc_full hs ((hf l).full ht lpt hpt) (hf l).sz hu with ⟨-, h⟩ | ⟨h0, -, h⟩
    · exact h
    · rwa [Nat.le_zero.mp h0]
  | @grow l lpt lpt1 m sz b k2 _ _ hpt hu hsz hb =>
    have hs := (hf l).table lpt hpt
    have hs1 := uvmalloc_sane hs hm (hf l).sz hu
    have hm1 : m.OkAt e := uvmalloc_okAt hm _ hu
    have hgrew := grew hs (hf l).sz hu hsz hb
    have hnp := npages_le hgrew.top
    have hk1 : ∀ i x, (((k.setMem m).setProc l { k.proc l with pagetable := some lpt1 }).proc i).pagetable = some x → Sane e x := by
      intro i x hx
      rw [Kernel.setProc_apply] at hx
      split_ifs at hx
      · rw [← Option.some.inj hx]
        exact hs1
      · exact (hf i).table x hx
    refine setGroupSz_fine hf hgrew.leader (by rw [hpt]; simp) hs1 (fun ht => ?_) hgrew.top hgrew.visit fun q x y hy hR hx => ?_
    · rcases uvmalloc_full hs ((hf l).full ht lpt hpt) (hf l).sz hu with ⟨h0, -⟩ | ⟨-, -, h⟩
      · exact absurd h0 hsz
      · exact h
    · refine hR.sane hx hgrew.range (fun v h1 h2 => ?_) fun z hz => ?_
      · obtain ⟨pa, hpa⟩ := hgrew.new v h1 (by omega)
        rw [walkaddr_of_pte hs1.shaped.wf (by omega) hpa rfl]
        exact ⟨hs1.user (by omega) hpa, rfl⟩
      · have hpos := Kernel.tabs_pos hy hz
        rw [hgrew.tabs] at hpos
        exact Kernel.legal_of_tabs hm1 hk1 hpos
  | @shrink l lpt lpt1 m sz k2 _ _ hpt hu hb =>
    have hs := (hf l).table lpt hpt
    have hshrunk := shrunk hs.shaped (hf l).sz hu hb
    refine setGroupSz_fine hf hshrunk.leader (by rw [hpt]; simp) (hs.unmap hshrunk.range) (fun ht => ?_) (hshrunk.le.trans (hf l).sz)
      hshrunk.visit fun q x y hy hR hx => ?_
    · exact ((hf l).full ht lpt hpt).shrunk hshrunk.pages
    · rw [hR.1]
      exact hx.unmap hshrunk.range

/-! ## exec and thread_exit -/

theorem ExecBeginRes.fine (h : ExecBeginRes k p o k') (hf : k.Fine e) (hm : k.mem.OkAt e) (hb : (k.proc p).Busy) : k'.Fine e := by
  cases h with
  | noHeader => exact hf
  | noPagetable _ _ => exact hf
  | @ok tf pt m _ h =>
    obtain ⟨ho, hs, -⟩ := procPagetable_some hm h
    refine Kernel.Fine.setProc (k := k.setMem m) hf ?_
    have hp := hf p
    exact { hp with
      exec := by
        intro pt' sz hfr
        obtain ⟨rfl, rfl⟩ := Frame.exec.inj hfr
        exact ⟨hs, Nat.zero_le _, ho.full, ho.allUser⟩
      threadExit := by
        intro hfr
        cases hfr
      home := .inr (.inr (.inr (.inr (hb.cwd hp.home)))) }

theorem ExecRes.fine {sz : ℕ} (h : ExecRes k p pt sz o k') (hf : k.Fine e) (hm : k.mem.OkAt e) (hfr : (k.proc p).frame = .exec pt sz)
    (hb : (k.proc p).Busy) : k'.Fine e := by
  obtain ⟨hs, hsz, hfull, hall⟩ := (hf p).exec pt sz hfr
  have huser : ∀ m, ((k.setMem m).setProc p { k.proc p with frame := .user }).Fine e := fun m =>
    Kernel.Fine.setProc (k := k.setMem m) hf ((SameMem.toUser hb).fine (hf p))
  have hlive : (k.proc p).pagetable ≠ none → (k.proc p).state ≠ .unused := fun hpt hu => hpt ((hf p).bare hu).1
  cases h with
  | skip => exact hf
  | bad _ => exact huser _
  | noMem _ _ => exact huser _
  | badLoad _ _ _ _ => exact huser _
  | @seg pt1 m1 m2 newsz sz1 xw xx img va off fsz hu hsz1 _ =>
    refine Kernel.Fine.setProc (k := k.setMem m2) hf ?_
    have hp := hf p
    exact { hp with
      exec := by
        intro pt' sz' hfr'
        obtain ⟨rfl, rfl⟩ := Frame.exec.inj hfr'
        rcases uvmalloc_full hs hfull hsz hu with ⟨h0, -⟩ | ⟨-, htop, hf'⟩
        · exact absurd h0 hsz1
        · exact ⟨uvmalloc_sane hs hm hsz hu, htop, hf', uvmalloc_allUser hs.shaped hall hsz hu⟩
      threadExit := by
        intro hfr'
        cases hfr'
      home := .inr (.inr (.inr (.inr (hb.cwd hp.home)))) }
  | noStack _ _ => exact huser _
  | badArgs _ _ _ _ _ => exact huser _
  | @commit pt1 pt2 old m1 m2 m sz1 sp entry argv hu hsz1 hc _ hold _ =>
    have hup : pgroundup sz ≤ TRAPFRAME := pgroundup_le hsz
    obtain ⟨hs2, hnone⟩ := uvmclear_sane (uvmalloc_sane hs hm hup hu) hc
    rcases uvmalloc_full hs (hfull.roundup hsz) hup hu with ⟨h0, -⟩ | ⟨-, htop, hf1⟩
    · exact absurd h0 hsz1
    have hf2 : Full 0 pt2 sz1 := ⟨fun v hc hv h => hf1.low v hc hv ((hnone v).mp h), fun v hv hv' => (hnone v).mpr (hf1.high v hv hv')⟩
    refine Kernel.Fine.setProc (k := k.setMem m) hf ?_
    have hb' : ({ k.proc p with pagetable := some pt2, sz := sz1 } : Proc).Busy := ⟨hb.running, hb.dying⟩
    have hp := (SameMem.toUser hb').fine ((hf p).resize hold hs2 htop fun _ => hf2.mono zero_le_one)
    exact { hp with }

/-- The stack release of `thread_exit` keeps the table sane. -/
theorem releaseStack_fine {P P' : Proc} (hf : P.Fine e) (ht : P.isThread = true) (h : releaseStack P m = .ok (P', m')) :
    P'.Fine e ∧ P'.state = P.state := by
  rcases releaseStack_inv h with ⟨pt, pt', hpt, hu, hstart, hsize, rfl⟩ | ⟨-, rfl, -⟩
  · refine ⟨?_, rfl⟩
    have hs := hf.table pt hpt
    have hlt := unmapMapped_lt hu
    obtain ⟨rfl, -⟩ := unmapMapped_inv hs.shaped.wf hu
    have hv : P.start / PGSIZE < tfPage := (hf.stack hsize).2.resolve_right (by omega)
    have hr := hf.resize hpt (hs.unmap (a := P.start / PGSIZE) (n := 1) (by omega)) hf.sz fun ht' => absurd (ht.symm.trans ht') (by simp)
    exact { hr with stack := fun h => absurd rfl h }
  · exact ⟨hf, rfl⟩

theorem threadExitEnd_fine (h : threadExitEnd k p = .ok k') (hf : k.Fine e) (hp : (k.proc p).state = .running)
    (hfr : (k.proc p).frame = .threadExit) : k'.Fine e := by
  obtain ⟨P, m, hr, rfl⟩ := threadExitEnd_inv h
  have hlive : (k.proc p).state ≠ .unused := by rw [hp]; decide
  obtain ⟨hP, hst⟩ := releaseStack_fine (hf p) ((hf p).threadExit hfr hlive) hr
  have hz : ({ P with xstate := 0, state := .zombie } : Proc).Fine e := by
    have hsame : SameMem P { P with xstate := 0, state := .zombie } :=
      ⟨rfl, rfl, rfl, rfl, rfl, rfl, rfl, .inl rfl, iff_of_false (by simp) (by rwa [hst]), fun _ => .inr (.inr (.inl rfl))⟩
    exact hsame.fine hP
  exact (wakeup_quiet _ _ _).fine (Kernel.Fine.setProc (k := k.setMem m) hf hz)

/-! ## Runs -/

theorem step_fine {a : Action} (hs : Step k a o k') (hm : k.mem.OkAt e) (hf : k.Fine e) : k'.Fine e := by
  have ha : ∀ as, (k.setAnswers as).Fine e := fun _ => hf
  have hma : ∀ as, (k.setAnswers as).mem.OkAt e := fun _ => hm
  have ht : ∀ p as, (k.tidy p as).Fine e := fun p as => (tidy_quiet k p as).fine hf
  have hmt : ∀ p as, (k.tidy p as).mem.OkAt e := fun _ _ => hm
  have hlive : ∀ p, (k.proc p).state = .running → (k.proc p).state ≠ .unused := fun p hp => by rw [hp]; decide
  cases step_inv hs with
  | scheduler hp => exact (Quiet.setProc (.setState (by rw [hp]; decide) (by rw [hp]; decide) (by rw [hp]; decide) (by decide))).fine hf
  | yield hp => exact (Quiet.setProc (.setState (by rw [hp]; decide) (by rw [hp]; decide) (by rw [hp]; decide) (by decide))).fine hf
  | killed _ _ _ _ hc => exact (closeFiles_quiet hc rfl (by simp)).fine (ha _)
  | fault _ _ _ hc => exact ((fault_quiet _ _ _).trans (closeFiles_quiet hc rfl (by simp))).fine hf
  | fork _ _ _ hr => exact hr.fine (ha _) (hma _)
  | exec hp hfr _ hr => exact hr.fine (ha _) (hma _) (.of_user hp hfr)
  | sbrk _ _ _ hr => exact hr.fine (ha _) (hma _)
  | threadCreate _ _ _ hr => exact hr.fine (ha _) (hma _)
  | threadJoin hp hfr _ hr => exact hr.fine (ha _) (.of_user hp hfr)
  | threadExit _ _ _ hthr hc => exact (closeFiles_quiet hc rfl fun _ => hthr).fine (ha _)
  | leaderExit _ _ _ _ hc => exact (closeFiles_quiet hc rfl (by simp)).fine (ha _)
  | exit _ _ _ _ hc => exact (closeFiles_quiet hc rfl (by simp)).fine (ha _)
  | wait hp hfr _ hr => exact hr.fine (ha _) (.of_user hp hfr)
  | kill _ _ _ => exact (kill_quiet _ _).fine (ha _)
  | file _ _ _ _ hr => exact hr.quiet.fine (ha _)
  | @resumeWait p _ as _ _ _ hp hfr hr => exact hr.fine (ht p as) (tidy_busy hp (by rw [hfr]; rfl))
  | @resumeJoin p _ as _ _ _ _ hp hfr hr => exact hr.fine (ht p as) (tidy_busy hp (by rw [hfr]; rfl))
  | @resumeExit p _ as _ hp _ =>
    refine (exitEnd_quiet (k := k.tidy p as) ?_).fine (ht p as)
    have := hlive p hp
    simpa [Kernel.tidy] using this
  | @resumeThreadExit p _ as _ hp hfr hr =>
    exact threadExitEnd_fine hr (ht p as) (by simpa [Kernel.tidy] using hp) (by simpa [Kernel.tidy] using hfr)
  | @resumeExec p _ as _ _ _ _ hp hfr hr =>
    exact hr.fine (ht p as) (hmt p as) (by simpa [Kernel.tidy] using hfr) (tidy_busy hp (by rw [hfr]; rfl))

theorem Proc.Fine.zero : Proc.zero.Fine e where
  sz := Nat.zero_le _
  table pt hpt := by cases hpt
  full _ pt hpt := by cases hpt
  exec pt sz hfr := by cases hfr
  trapframe pa hpa := by cases hpa
  father ht := by cases ht
  stack hs := absurd rfl hs
  threadExit hfr := by cases hfr
  bare _ := ⟨rfl, rfl, rfl, rfl⟩
  live hu := absurd rfl hu
  home := .inl rfl

/-- The table of the first process. -/
theorem uvmfirst_sane {src : List UInt8} (ho : OnlyKernel pt) (hs : Sane e pt) (hm : m.OkAt e) (h : uvmfirst pt src m = .ok (pt', m')) :
    Sane e pt' ∧ Full 1 pt' PGSIZE := by
  have hnp : npages PGSIZE = 1 := by decide
  have h1 : 0 / PGSIZE + 1 ≤ tfPage := by decide
  unfold uvmfirst at h
  split_ifs at h
  split at h
  · cases h
  rename_i mem m1 hk
  rw [bind_ok] at h
  obtain ⟨⟨ok, pt1, m2⟩, hmap, h⟩ := h
  obtain ⟨rfl, rfl⟩ := Prod.mk.inj (Except.ok.inj h)
  have hfree : (m1.memset mem 0).free = m1.free := rfl
  have hlow : ∀ v, 1 ≤ v → v < npages PGSIZE → pt1.pte v ≠ none := fun v hc hv => by omega
  cases ok with
  | true =>
    obtain ⟨-, hone⟩ := Mapped.one (f := fun _ => ⟨true, true, true, true⟩) (Nat.zero_mod _) hk hfree hmap rfl
    refine ⟨hs.mapped hm hone h1 fun _ _ _ => rfl, hlow, fun v hv hv' => ?_⟩
    rw [hone.other v (by rw [Nat.zero_div]; omega)]
    exact ho.user v hv'
  | false =>
    obtain ⟨-, pt2, hg, ⟨-, rfl⟩ | ⟨hb, -⟩⟩ := mappages_inv (Nat.zero_mod _) hmap
    · have hm1 : m1.OkAt e := kalloc_okAt hm hk
      have hm1 : (m1.memset mem 0).OkAt e := hm1
      refine ⟨hs.grows hm1 hg, hlow, fun v hv hv' => ?_⟩
      rw [hg.pte]
      exact ho.user v hv'
    · cases hb

theorem boot_fine (h : Boot k) : ∃ e, k.mem.OkAt e ∧ k.Fine e := by
  obtain ⟨m0, root, tf, pt0, pt, m1, m2, m, hf, h1, h2, h3, hmem, -, -, hproc⟩ := boot_inv h
  have h0 : m0.OkAt m0.kend := ⟨rfl, hf.2⟩
  have hm1 := kalloc_okAt h0 h1
  obtain ⟨ho, hs, -⟩ := procPagetable_some hm1 h2
  have hm2 : m2.OkAt m0.kend := procPagetable_okAt hm1 _ h2
  obtain ⟨hs', hfull⟩ := uvmfirst_sane ho hs hm2 h3
  refine ⟨m0.kend, hmem ▸ uvmfirst_okAt hm2 _ h3, fun i => ?_⟩
  rw [hproc, Function.update_apply]
  split_ifs
  · exact {
      sz := show PGSIZE ≤ TRAPFRAME by decide
      table := by
        rintro x hx
        rw [← Option.some.inj hx]
        exact hs'
      full := by
        rintro - x hx
        rw [← Option.some.inj hx]
        exact hfull
      exec := by
        intro x sz hfr
        cases hfr
      trapframe := by
        intro pa hpa
        rw [← Option.some.inj hpa]
        exact kalloc_legal h0 h1
      father := by
        intro ht
        cases ht
      stack := fun hs => absurd rfl hs
      threadExit := by
        intro hfr
        cases hfr
      bare := by
        intro hu
        cases hu
      live := fun _ => ⟨by simp [Proc.first, Proc.allocated], by simp [Proc.first, Proc.allocated]⟩
      home := .inr (.inr (.inr (.inr (by simp [Proc.first])))) }
  · exact .zero

/-- **Every slot of every reachable state is fine.** -/
theorem fine_reach {ok : Kernel → Action → Prop} (h : Reach Step ok Boot k) : ∃ e, k.mem.OkAt e ∧ k.Fine e :=
  h.inv (fun _ => boot_fine) fun _ _ _ _ ⟨e, hm, hf⟩ _ hs => ⟨e, step_okAt hs hm, step_fine hs hm hf⟩

end OsLabs.Xv6
