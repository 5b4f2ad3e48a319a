import OsLabs.Xv6.Trap

/-!
# OsLabs.Xv6.Calls — what each call does to the kernel

One inversion lemma per call: if the call returns, the state it leaves is the old one with named changes, and the parts that run on
page tables, files or physical memory returned too.  Every invariant of the kernel is proved from these lemmas; no later proof
unfolds a call.
-/

namespace OsLabs.Xv6

open Fallible

namespace Kernel

@[simp] theorem setProc_self (k : Kernel) (i : Slot) (P : Proc) : (k.setProc i P).proc i = P := by simp [setProc]

theorem setProc_of_ne (k : Kernel) {i j : Slot} (P : Proc) (h : j ≠ i) : (k.setProc i P).proc j = k.proc j := by
  simp [setProc, Function.update_of_ne h]

theorem setProc_apply (k : Kernel) (i j : Slot) (P : Proc) : (k.setProc i P).proc j = if j = i then P else k.proc j := by
  simp [setProc, Function.update_apply]

@[simp] theorem setProc_setProc (k : Kernel) (i : Slot) (P Q : Proc) : (k.setProc i P).setProc i Q = k.setProc i Q := by
  simp [setProc]

@[simp] theorem setProc_mem (k : Kernel) (i : Slot) (P : Proc) : (k.setProc i P).mem = k.mem := rfl

@[simp] theorem setProc_fs (k : Kernel) (i : Slot) (P : Proc) : (k.setProc i P).fs = k.fs := rfl

@[simp] theorem setProc_initproc (k : Kernel) (i : Slot) (P : Proc) : (k.setProc i P).initproc = k.initproc := rfl

@[simp] theorem setProc_nextpid (k : Kernel) (i : Slot) (P : Proc) : (k.setProc i P).nextpid = k.nextpid := rfl

@[simp] theorem setProc_setMem (k : Kernel) (i : Slot) (P : Proc) (m : Kmem) :
    (k.setProc i P).setMem m = (k.setMem m).setProc i P := rfl

@[simp] theorem setProc_setFs (k : Kernel) (i : Slot) (P : Proc) (fs : Files) :
    (k.setProc i P).setFs fs = (k.setFs fs).setProc i P := rfl

@[simp] theorem setMem_proc (k : Kernel) (m : Kmem) : (k.setMem m).proc = k.proc := rfl

@[simp] theorem setMem_mem (k : Kernel) (m : Kmem) : (k.setMem m).mem = m := rfl

@[simp] theorem setMem_fs (k : Kernel) (m : Kmem) : (k.setMem m).fs = k.fs := rfl

@[simp] theorem setMem_initproc (k : Kernel) (m : Kmem) : (k.setMem m).initproc = k.initproc := rfl

@[simp] theorem setMem_nextpid (k : Kernel) (m : Kmem) : (k.setMem m).nextpid = k.nextpid := rfl

@[simp] theorem setMem_setMem (k : Kernel) (m m' : Kmem) : (k.setMem m).setMem m' = k.setMem m' := rfl

@[simp] theorem setFs_proc (k : Kernel) (fs : Files) : (k.setFs fs).proc = k.proc := rfl

@[simp] theorem setFs_mem (k : Kernel) (fs : Files) : (k.setFs fs).mem = k.mem := rfl

@[simp] theorem setFs_fs (k : Kernel) (fs : Files) : (k.setFs fs).fs = fs := rfl

@[simp] theorem setFs_initproc (k : Kernel) (fs : Files) : (k.setFs fs).initproc = k.initproc := rfl

@[simp] theorem setFs_nextpid (k : Kernel) (fs : Files) : (k.setFs fs).nextpid = k.nextpid := rfl

@[simp] theorem setFs_setMem (k : Kernel) (fs : Files) (m : Kmem) : (k.setFs fs).setMem m = (k.setMem m).setFs fs := rfl

@[simp] theorem setAnswers_proc (k : Kernel) (as : List Pa) : (k.setAnswers as).proc = k.proc := rfl

@[simp] theorem setAnswers_fs (k : Kernel) (as : List Pa) : (k.setAnswers as).fs = k.fs := rfl

@[simp] theorem setAnswers_initproc (k : Kernel) (as : List Pa) : (k.setAnswers as).initproc = k.initproc := rfl

@[simp] theorem setAnswers_nextpid (k : Kernel) (as : List Pa) : (k.setAnswers as).nextpid = k.nextpid := rfl

/-- The kernel after `allocpid`. -/
def bumpPid (k : Kernel) : Kernel := { k with nextpid := int32 (k.nextpid + 1) }

@[simp] theorem bumpPid_proc (k : Kernel) : k.bumpPid.proc = k.proc := rfl

@[simp] theorem bumpPid_mem (k : Kernel) : k.bumpPid.mem = k.mem := rfl

@[simp] theorem bumpPid_fs (k : Kernel) : k.bumpPid.fs = k.fs := rfl

@[simp] theorem bumpPid_initproc (k : Kernel) : k.bumpPid.initproc = k.initproc := rfl

@[simp] theorem bumpPid_nextpid (k : Kernel) : k.bumpPid.nextpid = int32 (k.nextpid + 1) := rfl

end Kernel

variable {k k' : Kernel} {p i : Slot} {o : Option ℤ} {r : ℤ}

/-! ## Freeing and allocating slots -/

/-- The memory part of `freeproc`. -/
def FreeMem (P : Proc) (m m' : Kmem) : Prop :=
  ∃ m1, kfreeOpt P.trapframe m = .ok m1 ∧ procFreepagetableOpt P.pagetable P.sz m1 = .ok m'

theorem freeproc_inv (h : freeproc k i = .ok k') :
    ∃ m, FreeMem (k.proc i) k.mem m ∧ k' = (k.setMem m).setProc i (k.proc i).freed := by
  unfold freeproc at h
  rw [bind_ok] at h
  obtain ⟨m1, h1, h⟩ := h
  rw [bind_ok] at h
  obtain ⟨m2, h2, h⟩ := h
  exact ⟨m2, ⟨m1, h1, h2⟩, (Except.ok.inj h).symm⟩

/-- The memory part of `freeproc_thread`. -/
def FreeThreadMem (P : Proc) (m m' : Kmem) : Prop :=
  ∃ pt pt1 pt2 pt3 m1 m2 m3 m4, P.pagetable = some pt ∧
    unmapShared (pgroundup P.sz / PGSIZE) 0 pt m = .ok (pt1, m1) ∧ unmapMapped pt1 TRAMPOLINE false m1 = .ok (pt2, m2) ∧
    unmapMapped pt2 TRAPFRAME false m2 = .ok (pt3, m3) ∧ uvmfree pt3 0 m3 = .ok m4 ∧ kfreeOpt P.trapframe m4 = .ok m'

theorem freeprocThread_inv (h : freeprocThread k i = .ok k') :
    ∃ m, FreeThreadMem (k.proc i) k.mem m ∧ k' = (k.setMem m).setProc i (k.proc i).freedThread := by
  unfold freeprocThread at h
  split at h
  · cases h
  · rename_i pt hpt
    simp only [bind_ok] at h
    obtain ⟨⟨pt1, m1⟩, h1, ⟨pt2, m2⟩, h2, ⟨pt3, m3⟩, h3, m4, h4, m5, h5, h⟩ := h
    exact ⟨m5, ⟨pt, pt1, pt2, pt3, m1, m2, m3, m4, hpt, h1, h2, h3, h4, h5⟩, (Except.ok.inj h).symm⟩

/-- What `allocproc` can do. -/
inductive AllocRes (k : Kernel) : Option Slot → Kernel → Prop
  | noSlot (h : ∀ i, (k.proc i).state ≠ .unused) : AllocRes k none k
  | noTrapframe {i : Slot} {m1 m : Kmem} (hi : (k.proc i).state = .unused) (h1 : kalloc k.mem = (none, m1))
      (h2 : FreeMem { k.proc i with trapframe := none } m1 m) :
      AllocRes k none ((k.bumpPid.setMem m).setProc i (k.proc i).freed)
  | noPagetable {i : Slot} {tf : Pa} {m1 m2 m : Kmem} (hi : (k.proc i).state = .unused)
      (h1 : kalloc k.mem = (some tf, m1)) (h2 : procPagetable tf m1 = .ok (none, m2))
      (h3 : FreeMem { k.proc i with trapframe := some tf, pagetable := none } m2 m) :
      AllocRes k none ((k.bumpPid.setMem m).setProc i (k.proc i).freed)
  | ok {i : Slot} {tf : Pa} {pt : PageTable} {m1 m : Kmem} (hi : (k.proc i).state = .unused)
      (h1 : kalloc k.mem = (some tf, m1)) (h2 : procPagetable tf m1 = .ok (some pt, m)) :
      AllocRes k (some i) ((k.bumpPid.setMem m).setProc i ((k.proc i).allocated k.nextpid tf pt))

theorem allocproc_inv {np : Option Slot} (h : allocproc k = .ok (np, k')) : AllocRes k np k' := by
  unfold allocproc at h
  split at h
  · rename_i hf
    obtain ⟨rfl, rfl⟩ := Prod.mk.inj (Except.ok.inj h)
    refine .noSlot fun i hi => ?_
    have := List.find?_eq_none.mp hf i (List.mem_finRange i)
    simp [hi] at this
  · rename_i i hf
    have hi : (k.proc i).state = .unused := by simpa using List.find?_some hf
    simp only [allocpid] at h
    split at h
    · rename_i m1 h1
      rw [bind_ok] at h
      obtain ⟨k1, hk1, h⟩ := h
      obtain ⟨rfl, rfl⟩ := Prod.mk.inj (Except.ok.inj h)
      obtain ⟨m, hm, rfl⟩ := freeproc_inv hk1
      rw [Kernel.setProc_self] at hm
      simp only [Kernel.setProc_self, Kernel.setProc_setMem, Kernel.setMem_setMem, Kernel.setProc_setProc]
      exact AllocRes.noTrapframe hi h1 hm
    · rename_i tf m1 h1
      rw [bind_ok] at h
      obtain ⟨⟨pt, m2⟩, h2, h⟩ := h
      cases pt with
      | none =>
        simp only [bind_ok] at h
        obtain ⟨k1, hk1, h⟩ := h
        obtain ⟨rfl, rfl⟩ := Prod.mk.inj (Except.ok.inj h)
        obtain ⟨m, hm, rfl⟩ := freeproc_inv hk1
        rw [Kernel.setProc_self] at hm
        simp only [Kernel.setProc_self, Kernel.setProc_setMem, Kernel.setMem_setMem, Kernel.setProc_setProc]
        exact AllocRes.noPagetable hi h1 h2 hm
      | some pt =>
        obtain ⟨rfl, rfl⟩ := Prod.mk.inj (Except.ok.inj h)
        exact AllocRes.ok hi h1 h2

/-! ## Making processes and threads -/

/-- What `thread_create` can do. -/
inductive ThreadRes (k : Kernel) (p : Slot) (fn arg retfn : ℕ) : ℤ → Kernel → Prop
  | noSlot {k' : Kernel} (h : AllocRes k none k') : ThreadRes k p fn arg retfn (-1) k'
  | noShare {np leader : Slot} {k1 : Kernel} {pt pt1 : PageTable} {m1 m : Kmem} (h : AllocRes k (some np) k1)
      (hl : groupLeader k1 p = some leader) (hpt : (k1.proc np).pagetable = some pt)
      (hs : share (k1.proc leader).pagetable (k1.proc leader).sz pt k1.mem = .ok (false, pt1, m1))
      (hm : FreeMem { k1.proc np with sz := (k1.proc leader).sz, pagetable := some pt1 } m1 m) :
      ThreadRes k p fn arg retfn (-1) ((k1.setMem m).setProc np (k1.proc np).freed)
  | noStack {np leader : Slot} {k1 : Kernel} {pt pt1 pt2 : PageTable} {m1 m2 m : Kmem} (h : AllocRes k (some np) k1)
      (hl : groupLeader k1 p = some leader) (hpt : (k1.proc np).pagetable = some pt)
      (hs : share (k1.proc leader).pagetable (k1.proc leader).sz pt k1.mem = .ok (true, pt1, m1))
      (hu : uvmalloc pt1 (stackBase (k1.proc np).pid) (add64 (stackBase (k1.proc np).pid) PGSIZE) true false m1 =
        .ok (0, pt2, m2))
      (hm : FreeMem { k1.proc np with sz := (k1.proc leader).sz, pagetable := some pt2 } m2 m) :
      ThreadRes k p fn arg retfn (-1) ((k1.setMem m).setProc np (k1.proc np).freed)
  | ok {np leader : Slot} {k1 : Kernel} {pt pt1 pt2 : PageTable} {m1 m2 : Kmem} {r c : ℕ} {fs : Files}
      (h : AllocRes k (some np) k1) (hl : groupLeader k1 p = some leader) (hpt : (k1.proc np).pagetable = some pt)
      (hs : share (k1.proc leader).pagetable (k1.proc leader).sz pt k1.mem = .ok (true, pt1, m1))
      (hu : uvmalloc pt1 (stackBase (k1.proc np).pid) (add64 (stackBase (k1.proc np).pid) PGSIZE) true false m1 =
        .ok (r, pt2, m2)) (hr : r ≠ 0)
      (hf : filedupAll (k1.proc p).ofile k1.fs = .ok fs) (hc : (k1.proc p).cwd = some c)
      (hw : walkaddr pt2 (sub64 (sub64 (add64 (stackBase (k1.proc np).pid) PGSIZE) 1) 16) ≠ none) :
      ThreadRes k p fn arg retfn (k1.proc np).pid (((k1.setMem m2).setFs (fs.idup c)).setProc np
        (({ k1.proc np with sz := (k1.proc leader).sz } : Proc).asThread (k1.proc p) p leader fn arg retfn
          (sub64 (add64 (stackBase (k1.proc np).pid) PGSIZE) 1) (stackBase (k1.proc np).pid) c pt2))

theorem AllocRes.ne {np q : Slot} (h : AllocRes k (some np) k') (hq : (k.proc q).state ≠ .unused) : q ≠ np := by
  rintro rfl
  cases h with
  | ok hi _ _ => exact hq hi

theorem threadCreate_inv {fn arg retfn : ℕ} (hp : (k.proc p).state ≠ .unused)
    (h : threadCreate k p fn arg retfn = .ok (r, k')) : ThreadRes k p fn arg retfn r k' := by
  unfold threadCreate at h
  rw [bind_ok] at h
  obtain ⟨⟨np, k1⟩, hal, h⟩ := h
  have hal := allocproc_inv hal
  cases np with
  | none =>
    obtain ⟨rfl, rfl⟩ := Prod.mk.inj (Except.ok.inj h)
    exact .noSlot hal
  | some np =>
    have hne : p ≠ np := hal.ne hp
    simp only at h
    split at h
    · cases h
    rename_i leader hl
    split at h
    · cases h
    rename_i pt hpt
    rw [bind_ok] at h
    obtain ⟨⟨ok, pt1, m1⟩, hs, h⟩ := h
    cases ok with
    | false =>
      simp only [Bool.not_false, if_true, bind_ok] at h
      obtain ⟨k2, hk2, h⟩ := h
      obtain ⟨rfl, rfl⟩ := Prod.mk.inj (Except.ok.inj h)
      obtain ⟨m, hm, rfl⟩ := freeproc_inv hk2
      rw [Kernel.setProc_self] at hm
      simp only [Kernel.setProc_self, Kernel.setProc_setMem, Kernel.setMem_setMem, Kernel.setProc_setProc]
      exact ThreadRes.noShare hal hl hpt hs hm
    | true =>
      simp only [Bool.not_true, Bool.false_eq_true, if_false] at h
      unfold threadFinish at h
      simp only [Kernel.setProc_self, Kernel.setProc_mem, Kernel.setMem_mem, Kernel.setProc_fs, Kernel.setMem_fs,
        Kernel.setProc_of_ne _ _ hne, Kernel.setMem_proc, Kernel.setProc_setMem, Kernel.setMem_setMem,
        Kernel.setProc_setProc, Kernel.setProc_setFs] at h
      rw [bind_ok] at h
      obtain ⟨⟨r', pt2, m2⟩, hu, h⟩ := h
      simp only at h
      split_ifs at h with hr hw
      · subst hr
        rw [bind_ok] at h
        obtain ⟨k2, hk2, h⟩ := h
        obtain ⟨rfl, rfl⟩ := Prod.mk.inj (Except.ok.inj h)
        obtain ⟨m, hm, rfl⟩ := freeproc_inv hk2
        rw [Kernel.setProc_self] at hm
        simp only [Kernel.setProc_self, Kernel.setProc_setMem, Kernel.setMem_setMem, Kernel.setProc_setProc]
        exact ThreadRes.noStack hal hl hpt hs hu hm
      · rw [bind_ok] at h
        obtain ⟨fs, hf, h⟩ := h
        split at h
        · cases h
        rename_i c hc
        obtain ⟨rfl, rfl⟩ := Prod.mk.inj (Except.ok.inj h)
        exact ThreadRes.ok hal hl hpt hs hu hr hf hc fun hn => hw (by rw [hn]; rfl)

/-- What `fork` can do. -/
inductive ForkRes (k : Kernel) (p : Slot) : ℤ → Kernel → Prop
  | noSlot {k' : Kernel} (h : AllocRes k none k') : ForkRes k p (-1) k'
  | noCopy {np : Slot} {k1 : Kernel} {new new1 : PageTable} {m1 m : Kmem} (h : AllocRes k (some np) k1)
      (hpt : (k1.proc np).pagetable = some new)
      (hu : uvmcopyOpt (k1.proc p).pagetable new (k1.proc p).sz k1.mem = .ok (false, new1, m1))
      (hm : FreeMem { k1.proc np with pagetable := some new1 } m1 m) :
      ForkRes k p (-1) ((k1.setMem m).setProc np (k1.proc np).freed)
  | ok {np : Slot} {k1 : Kernel} {new new1 : PageTable} {m1 : Kmem} {c : ℕ} {fs : Files} (h : AllocRes k (some np) k1)
      (hpt : (k1.proc np).pagetable = some new)
      (hu : uvmcopyOpt (k1.proc p).pagetable new (k1.proc p).sz k1.mem = .ok (true, new1, m1))
      (hf : filedupAll (k1.proc p).ofile k1.fs = .ok fs) (hc : (k1.proc p).cwd = some c) :
      ForkRes k p (k1.proc np).pid (((k1.setMem m1).setFs (fs.idup c)).setProc np
        (({ k1.proc np with pagetable := some new1 } : Proc).asChild (k1.proc p) p c))

theorem fork_inv (hp : (k.proc p).state ≠ .unused) (h : fork k p = .ok (r, k')) : ForkRes k p r k' := by
  unfold fork at h
  rw [bind_ok] at h
  obtain ⟨⟨np, k1⟩, hal, h⟩ := h
  have hal := allocproc_inv hal
  cases np with
  | none =>
    obtain ⟨rfl, rfl⟩ := Prod.mk.inj (Except.ok.inj h)
    exact .noSlot hal
  | some np =>
    have hne : p ≠ np := hal.ne hp
    simp only at h
    split at h
    · cases h
    rename_i new hpt
    rw [bind_ok] at h
    obtain ⟨⟨ok, new1, m1⟩, hu, h⟩ := h
    cases ok with
    | false =>
      simp only [Bool.not_false, if_true, bind_ok] at h
      obtain ⟨k2, hk2, h⟩ := h
      obtain ⟨rfl, rfl⟩ := Prod.mk.inj (Except.ok.inj h)
      obtain ⟨m, hm, rfl⟩ := freeproc_inv hk2
      rw [Kernel.setProc_self] at hm
      simp only [Kernel.setProc_self, Kernel.setProc_setMem, Kernel.setMem_setMem, Kernel.setProc_setProc]
      exact ForkRes.noCopy hal hpt hu hm
    | true =>
      simp only [Bool.not_true, Bool.false_eq_true, if_false, Kernel.setProc_self, Kernel.setProc_fs, Kernel.setMem_fs,
        Kernel.setProc_of_ne _ _ hne, Kernel.setMem_proc, Kernel.setProc_setProc, Kernel.setProc_setFs] at h
      rw [bind_ok] at h
      obtain ⟨fs, hf, h⟩ := h
      split at h
      · cases h
      rename_i c hc
      obtain ⟨rfl, rfl⟩ := Prod.mk.inj (Except.ok.inj h)
      exact ForkRes.ok hal hpt hu hf hc

/-! ## Collecting -/

/-- What a round of `thread_join` can do. -/
inductive JoinRes (k : Kernel) (p : Slot) (tid : ℤ) (l : Option Slot) : Option ℤ → Kernel → Prop
  | gone (h : joinTarget k tid l = none) : JoinRes k p tid l (some (-1)) (k.setProc p { k.proc p with frame := .user })
  | reap {q : Slot} {m : Kmem} (h : joinTarget k tid l = some q) (hz : (k.proc q).state = .zombie) (hpq : p ≠ q)
      (hm : FreeThreadMem (k.proc q) k.mem m) :
      JoinRes k p tid l (some (k.proc q).tid)
        (((k.setMem m).setProc q (k.proc q).freedThread).setProc p { k.proc p with frame := .user })
  | sleep {q : Slot} (h : joinTarget k tid l = some q) (hz : (k.proc q).state ≠ .zombie) :
      JoinRes k p tid l none
        (k.setProc p { k.proc p with chan := some q, state := .sleeping, frame := .join tid l })

theorem joinTarget_some {tid : ℤ} {l : Option Slot} {q : Slot} (h : joinTarget k tid l = some q) :
    (k.proc q).state ≠ .unused ∧ (k.proc q).isThread = true ∧ (k.proc q).father = l ∧ (k.proc q).tid = tid := by
  simpa using List.find?_some h

theorem joinRound_inv {tid : ℤ} {l : Option Slot} (hp : (k.proc p).state = .running)
    (h : joinRound k p tid l = .ok (o, k')) : JoinRes k p tid l o k' := by
  unfold joinRound at h
  split at h
  · rename_i hq
    obtain ⟨rfl, rfl⟩ := Prod.mk.inj (Except.ok.inj h)
    exact .gone hq
  · rename_i q hq
    split_ifs at h with hz
    · rw [bind_ok] at h
      obtain ⟨k1, hk1, h⟩ := h
      obtain ⟨rfl, rfl⟩ := Prod.mk.inj (Except.ok.inj h)
      obtain ⟨m, hm, rfl⟩ := freeprocThread_inv hk1
      have hpq : p ≠ q := by
        rintro rfl
        rw [hp] at hz
        cases hz
      rw [Kernel.setProc_of_ne _ _ hpq, Kernel.setMem_proc]
      exact .reap hq hz hpq hm
    · obtain ⟨rfl, rfl⟩ := Prod.mk.inj (Except.ok.inj h)
      exact .sleep hq hz

/-- What a round of `wait` can do. -/
inductive WaitRes (k : Kernel) (p : Slot) (addr : ℕ) : Option ℤ → Kernel → Prop
  | badAddr {q : Slot} {m : Kmem} (h : zombieChild k p = some q)
      (hc : copyStatus (k.proc p).pagetable addr (k.proc q).xstate k.mem = .ok (false, m)) :
      WaitRes k p addr (some (-1)) ((k.setMem m).setProc p { k.proc p with frame := .user })
  | reap {q : Slot} {m1 m : Kmem} (h : zombieChild k p = some q) (hpq : p ≠ q)
      (hc : copyStatus (k.proc p).pagetable addr (k.proc q).xstate k.mem = .ok (true, m1))
      (hm : FreeMem (k.proc q) m1 m) :
      WaitRes k p addr (some (k.proc q).pid)
        (((k.setMem m).setProc q (k.proc q).freed).setProc p { k.proc p with frame := .user })
  | nobody (h : zombieChild k p = none) :
      WaitRes k p addr (some (-1)) (k.setProc p { k.proc p with frame := .user })
  | sleep (h : zombieChild k p = none) :
      WaitRes k p addr none (k.setProc p { k.proc p with chan := some p, state := .sleeping, frame := .wait addr })

theorem zombieChild_some {q : Slot} (h : zombieChild k p = some q) :
    (k.proc q).parent = some p ∧ (k.proc q).state = .zombie := by
  simpa using List.find?_some h

theorem Kernel.setProc_comm (k : Kernel) {i j : Slot} (h : i ≠ j) (P Q : Proc) :
    (k.setProc i P).setProc j Q = (k.setProc j Q).setProc i P := by
  simp only [Kernel.setProc]
  rw [Function.update_comm h]

theorem waitRound_inv {addr : ℕ} (hp : (k.proc p).state = .running) (h : waitRound k p addr = .ok (o, k')) :
    WaitRes k p addr o k' := by
  unfold waitRound at h
  split at h
  · rename_i q hq
    have hpq : q ≠ p := by
      rintro rfl
      rw [(zombieChild_some hq).2] at hp
      cases hp
    rw [bind_ok] at h
    obtain ⟨⟨ok, m1⟩, hc, h⟩ := h
    cases ok with
    | false =>
      obtain ⟨rfl, rfl⟩ := Prod.mk.inj (Except.ok.inj h)
      exact .badAddr hq hc
    | true =>
      simp only [Bool.not_true, Bool.false_eq_true, if_false, bind_ok] at h
      obtain ⟨k1, hk1, h⟩ := h
      obtain ⟨m, hm, rfl⟩ := freeproc_inv hk1
      obtain ⟨rfl, rfl⟩ := Prod.mk.inj (Except.ok.inj h)
      rw [Kernel.setProc_of_ne _ _ hpq] at hm ⊢
      rw [Kernel.setProc_setMem, Kernel.setMem_setMem, Kernel.setProc_comm _ (Ne.symm hpq)]
      exact .reap hq (Ne.symm hpq) hc hm
  · rename_i hq
    dsimp only at h
    split_ifs at h with hk
    · obtain ⟨rfl, rfl⟩ := Prod.mk.inj (Except.ok.inj h)
      exact .nobody hq
    · obtain ⟨rfl, rfl⟩ := Prod.mk.inj (Except.ok.inj h)
      exact .sleep hq

/-! ## Memory size -/

/-- Only page tables and physical memory differ. -/
def PtOnly (k k' : Kernel) : Prop :=
  ∃ (f : Slot → Option PageTable) (m : Kmem),
    k' = { k with proc := fun i => { k.proc i with pagetable := f i }, mem := m }

theorem PtOnly.refl (k : Kernel) : PtOnly k k := ⟨fun i => (k.proc i).pagetable, k.mem, rfl⟩

theorem PtOnly.trans {k1 k2 k3 : Kernel} (h1 : PtOnly k1 k2) (h2 : PtOnly k2 k3) : PtOnly k1 k3 := by
  obtain ⟨f, m, rfl⟩ := h1
  obtain ⟨g, m', rfl⟩ := h2
  exact ⟨g, m', rfl⟩

theorem PtOnly.setPt (k : Kernel) (q : Slot) (pt : Option PageTable) (m : Kmem) :
    PtOnly k ((k.setMem m).setProc q { k.proc q with pagetable := pt }) := by
  refine ⟨Function.update (fun i => (k.proc i).pagetable) q pt, m, ?_⟩
  simp only [Kernel.setProc, Kernel.setMem, Kernel.mk.injEq, and_self, and_true]
  funext i
  by_cases hi : i = q
  · subst hi
    simp
  · simp [hi]

theorem broadcastPage_ptOnly {leader : Slot} {lroot : Pa} {va : ℕ} {pa : Pa} {b : Bool}
    (h : broadcastPage leader lroot va pa k = .ok (b, k')) : PtOnly k k' := by
  unfold broadcastPage at h
  refine foldlM_inv (I := fun s => PtOnly k s.2) ?_ (PtOnly.refl k) h
  rintro ⟨b, s⟩ q ⟨b', s'⟩ hs h
  dsimp only at h hs ⊢
  split_ifs at h
  · split at h
    · obtain ⟨-, rfl⟩ := Prod.mk.inj (Except.ok.inj h)
      exact hs
    · split_ifs at h
      · obtain ⟨-, rfl⟩ := Prod.mk.inj (Except.ok.inj h)
        exact hs
      · rw [bind_ok] at h
        obtain ⟨⟨found, _, _⟩, hw, h⟩ := h
        dsimp only at h
        split_ifs at h
        · obtain ⟨-, rfl⟩ := Prod.mk.inj (Except.ok.inj h)
          exact hs
        · rw [bind_ok] at h
          obtain ⟨⟨ok, pt, m⟩, hm, h⟩ := h
          obtain ⟨-, rfl⟩ := Prod.mk.inj (Except.ok.inj h)
          exact hs.trans (PtOnly.setPt s q _ m)
  · obtain ⟨-, rfl⟩ := Prod.mk.inj (Except.ok.inj h)
    exact hs

theorem broadcast_ptOnly {leader : Slot} {lpt : PageTable} : ∀ {n va : ℕ} {k k' : Kernel} {b : Bool},
    broadcast leader lpt n va k = .ok (b, k') → PtOnly k k'
  | 0, va, k, k', b, h => by
    obtain ⟨-, rfl⟩ := Prod.mk.inj (Except.ok.inj h)
    exact PtOnly.refl _
  | n + 1, va, k, k', b, h => by
    unfold broadcast at h
    split_ifs at h
    · obtain ⟨-, rfl⟩ := Prod.mk.inj (Except.ok.inj h)
      exact PtOnly.refl _
    · simp only [bind_ok] at h
      obtain ⟨⟨b1, k1⟩, h1, ⟨b2, k2⟩, h2, h⟩ := h
      obtain ⟨-, rfl⟩ := Prod.mk.inj (Except.ok.inj h)
      exact (broadcastPage_ptOnly h1).trans (broadcast_ptOnly h2)

theorem unbroadcastPage_ptOnly {leader : Slot} {lroot : Pa} {va : ℕ}
    (h : unbroadcastPage leader lroot va k = .ok k') : PtOnly k k' := by
  unfold unbroadcastPage at h
  refine foldlM_inv (I := fun s => PtOnly k s) ?_ (PtOnly.refl k) h
  intro s q s' hs h
  dsimp only at h
  split_ifs at h
  · split at h
    · exact Except.ok.inj h ▸ hs
    · split_ifs at h
      · exact Except.ok.inj h ▸ hs
      · rw [bind_ok] at h
        obtain ⟨⟨pt, m⟩, hu, h⟩ := h
        obtain rfl := Except.ok.inj h
        exact hs.trans (PtOnly.setPt s q _ m)
  · exact Except.ok.inj h ▸ hs

theorem unbroadcast_ptOnly {leader : Slot} {lroot : Pa} : ∀ {n va : ℕ} {k k' : Kernel},
    unbroadcast leader lroot n va k = .ok k' → PtOnly k k'
  | 0, va, k, k', h => Except.ok.inj h ▸ PtOnly.refl _
  | n + 1, va, k, k', h => by
    unfold unbroadcast at h
    split_ifs at h
    · exact Except.ok.inj h ▸ PtOnly.refl _
    · rw [bind_ok] at h
      obtain ⟨k1, h1, h2⟩ := h
      exact (unbroadcastPage_ptOnly h1).trans (unbroadcast_ptOnly h2)

/-- What `growproc` can do. -/
inductive GrowRes (k : Kernel) (p : Slot) (n : ℤ) : ℤ → Kernel → Prop
  | zero (hn : n = 0) : GrowRes k p n 0 k
  | nullGrow {l : Slot} {m : Kmem} (hl : groupLeader k p = some l) (hn : 0 < n) (hpt : (k.proc l).pagetable = none)
      (hm : kalloc k.mem = (none, m)) : GrowRes k p n (-1) (k.setMem m)
  | nullShrink {l : Slot} (hl : groupLeader k p = some l) (hn : n < 0) (hpt : (k.proc l).pagetable = none) :
      GrowRes k p n 0 (setGroupSz k l (k.proc l).sz)
  | noMem {l : Slot} {lpt lpt1 : PageTable} {m : Kmem} (hl : groupLeader k p = some l) (hn : 0 < n)
      (hpt : (k.proc l).pagetable = some lpt)
      (hu : uvmalloc lpt (k.proc l).sz (u64 ((k.proc l).sz + n)) true false k.mem = .ok (0, lpt1, m)) :
      GrowRes k p n (-1) ((k.setMem m).setProc l { k.proc l with pagetable := some lpt1 })
  | grow {l : Slot} {lpt lpt1 : PageTable} {m : Kmem} {sz : ℕ} {b : Bool} {k2 : Kernel} (hl : groupLeader k p = some l)
      (hn : 0 < n) (hpt : (k.proc l).pagetable = some lpt)
      (hu : uvmalloc lpt (k.proc l).sz (u64 ((k.proc l).sz + n)) true false k.mem = .ok (sz, lpt1, m)) (hsz : sz ≠ 0)
      (hb : broadcast l lpt1 ((sz - pgroundup (k.proc l).sz + (PGSIZE - 1)) / PGSIZE) (pgroundup (k.proc l).sz)
        ((k.setMem m).setProc l { k.proc l with pagetable := some lpt1 }) = .ok (b, k2)) :
      GrowRes k p n 0 (setGroupSz k2 l sz)
  | shrink {l : Slot} {lpt lpt1 : PageTable} {m : Kmem} {sz : ℕ} {k2 : Kernel} (hl : groupLeader k p = some l)
      (hn : n < 0) (hpt : (k.proc l).pagetable = some lpt)
      (hu : uvmdealloc lpt (k.proc l).sz (u64 ((k.proc l).sz + n)) k.mem = .ok (sz, lpt1, m))
      (hb : unbroadcast l lpt1.root ((pgroundup (k.proc l).sz - pgroundup sz) / PGSIZE) (pgroundup sz)
        ((k.setMem m).setProc l { k.proc l with pagetable := some lpt1 }) = .ok k2) :
      GrowRes k p n 0 (setGroupSz k2 l sz)

theorem growproc_inv {n : ℤ} (h : growproc k p n = .ok (r, k')) : GrowRes k p n r k' := by
  unfold growproc at h
  split at h
  · cases h
  rename_i l hl
  dsimp only at h
  by_cases hn : n = 0
  · rw [if_pos hn] at h
    obtain ⟨rfl, rfl⟩ := Prod.mk.inj (Except.ok.inj h)
    exact .zero hn
  rw [if_neg hn] at h
  split at h
  · rename_i hpt
    split_ifs at h with hn'
    · split at h
      · rename_i m hm
        obtain ⟨rfl, rfl⟩ := Prod.mk.inj (Except.ok.inj h)
        exact .nullGrow hl hn' hpt hm
      · cases h
    · obtain ⟨rfl, rfl⟩ := Prod.mk.inj (Except.ok.inj h)
      exact .nullShrink hl (by omega) hpt
  · rename_i lpt hpt
    split_ifs at h with hn'
    · rw [bind_ok] at h
      obtain ⟨⟨sz, lpt1, m⟩, hu, h⟩ := h
      dsimp only at h
      split_ifs at h with hsz
      · obtain ⟨rfl, rfl⟩ := Prod.mk.inj (Except.ok.inj h)
        exact .noMem hl hn' hpt (hsz ▸ hu)
      · rw [bind_ok] at h
        obtain ⟨⟨b, k2⟩, hb, h⟩ := h
        obtain ⟨rfl, rfl⟩ := Prod.mk.inj (Except.ok.inj h)
        exact .grow hl hn' hpt hu hsz hb
    · rw [bind_ok] at h
      obtain ⟨⟨sz, lpt1, m⟩, hu, h⟩ := h
      rw [bind_ok] at h
      obtain ⟨k2, hb, h⟩ := h
      obtain ⟨rfl, rfl⟩ := Prod.mk.inj (Except.ok.inj h)
      exact .shrink hl (by omega) hpt hu hb

/-! ## exec -/

/-- What the first part of `exec` can do. -/
inductive ExecBeginRes (k : Kernel) (p : Slot) : Option ℤ → Kernel → Prop
  | noHeader : ExecBeginRes k p (some (-1)) k
  | noPagetable {tf : Pa} {m : Kmem} (ht : (k.proc p).trapframe = some tf)
      (h : procPagetable tf k.mem = .ok (none, m)) : ExecBeginRes k p (some (-1)) (k.setMem m)
  | ok {tf : Pa} {pt : PageTable} {m : Kmem} (ht : (k.proc p).trapframe = some tf)
      (h : procPagetable tf k.mem = .ok (some pt, m)) :
      ExecBeginRes k p none ((k.setMem m).setProc p { k.proc p with frame := .exec pt 0 })

theorem execBegin_inv {header : Bool} (h : execBegin k p header = .ok (o, k')) : ExecBeginRes k p o k' := by
  unfold execBegin at h
  split_ifs at h
  · obtain ⟨rfl, rfl⟩ := Prod.mk.inj (Except.ok.inj h)
    exact .noHeader
  · split at h
    · cases h
    rename_i tf ht
    rw [bind_ok] at h
    obtain ⟨⟨pt, m⟩, hpt, h⟩ := h
    cases pt with
    | none =>
      obtain ⟨rfl, rfl⟩ := Prod.mk.inj (Except.ok.inj h)
      exact .noPagetable ht hpt
    | some pt =>
      obtain ⟨rfl, rfl⟩ := Prod.mk.inj (Except.ok.inj h)
      exact .ok ht hpt

/-- What a later part of `exec` can do that holds the page table `pt` of `sz` bytes. -/
inductive ExecRes (k : Kernel) (p : Slot) (pt : PageTable) (sz : ℕ) : Option ℤ → Kernel → Prop
  /-- A program header that is not loaded. -/
  | skip : ExecRes k p pt sz none k
  /-- The `bad` exit before any memory was added. -/
  | bad {m : Kmem} (h : procFreepagetable pt sz k.mem = .ok m) :
      ExecRes k p pt sz (some (-1)) ((k.setMem m).setProc p { k.proc p with frame := .user })
  /-- The `bad` exit when a segment does not fit. -/
  | noMem {pt1 : PageTable} {m1 m : Kmem} {newsz : ℕ} {xw xx : Bool}
      (hu : uvmalloc pt sz newsz xw xx k.mem = .ok (0, pt1, m1)) (h : procFreepagetable pt1 sz m1 = .ok m) :
      ExecRes k p pt sz (some (-1)) ((k.setMem m).setProc p { k.proc p with frame := .user })
  /-- The `bad` exit when a segment cannot be read. -/
  | badLoad {pt1 : PageTable} {m1 m2 m : Kmem} {newsz sz1 : ℕ} {xw xx : Bool} {img : Image} {va off fsz : ℕ}
      (hu : uvmalloc pt sz newsz xw xx k.mem = .ok (sz1, pt1, m1)) (hsz : sz1 ≠ 0)
      (hl : loadseg img pt1 va off fsz m1 = .ok (false, m2)) (h : procFreepagetable pt1 sz1 m2 = .ok m) :
      ExecRes k p pt sz (some (-1)) ((k.setMem m).setProc p { k.proc p with frame := .user })
  /-- A segment was loaded. -/
  | seg {pt1 : PageTable} {m1 m2 : Kmem} {newsz sz1 : ℕ} {xw xx : Bool} {img : Image} {va off fsz : ℕ}
      (hu : uvmalloc pt sz newsz xw xx k.mem = .ok (sz1, pt1, m1)) (hsz : sz1 ≠ 0)
      (hl : loadseg img pt1 va off fsz m1 = .ok (true, m2)) :
      ExecRes k p pt sz none ((k.setMem m2).setProc p { k.proc p with frame := .exec pt1 sz1 })
  /-- The `bad` exit when there is no room for the stack. -/
  | noStack {pt1 : PageTable} {m1 m : Kmem}
      (hu : uvmalloc pt (pgroundup sz) (add64 (pgroundup sz) (2 * PGSIZE)) true false k.mem = .ok (0, pt1, m1))
      (h : procFreepagetable pt1 (pgroundup sz) m1 = .ok m) :
      ExecRes k p pt sz (some (-1)) ((k.setMem m).setProc p { k.proc p with frame := .user })
  /-- The `bad` exit when the arguments do not fit on the stack. -/
  | badArgs {pt1 pt2 : PageTable} {m1 m2 m : Kmem} {sz1 : ℕ} {argv : List (List UInt8)}
      (hu : uvmalloc pt (pgroundup sz) (add64 (pgroundup sz) (2 * PGSIZE)) true false k.mem = .ok (sz1, pt1, m1))
      (hsz : sz1 ≠ 0) (hc : uvmclear pt1 (sub64 sz1 (2 * PGSIZE)) m1 = .ok pt2)
      (hs : pushStack pt2 sz1 argv m1 = (none, m2)) (h : procFreepagetable pt2 sz1 m2 = .ok m) :
      ExecRes k p pt sz (some (-1)) ((k.setMem m).setProc p { k.proc p with frame := .user })
  /-- The switch to the new image. -/
  | commit {pt1 pt2 old : PageTable} {m1 m2 m : Kmem} {sz1 sp entry : ℕ} {argv : List (List UInt8)}
      (hu : uvmalloc pt (pgroundup sz) (add64 (pgroundup sz) (2 * PGSIZE)) true false k.mem = .ok (sz1, pt1, m1))
      (hsz : sz1 ≠ 0) (hc : uvmclear pt1 (sub64 sz1 (2 * PGSIZE)) m1 = .ok pt2)
      (hs : pushStack pt2 sz1 argv m1 = (some sp, m2)) (hold : (k.proc p).pagetable = some old)
      (h : procFreepagetable old (k.proc p).sz m2 = .ok m) :
      ExecRes k p pt sz (some argv.length) ((k.setMem m).setProc p { k.proc p with
        pagetable := some pt2, sz := sz1, tf := { (k.proc p).tf with a1 := sp, epc := entry, sp := sp },
        frame := .user })

theorem execBad_inv {pt : PageTable} {sz : ℕ} {n : Kmem} (h : execBad (k.setMem n) p pt sz = .ok (o, k')) :
    ∃ m, procFreepagetable pt sz n = .ok m ∧ o = some (-1) ∧
      k' = (k.setMem m).setProc p { k.proc p with frame := .user } := by
  unfold execBad at h
  rw [bind_ok] at h
  obtain ⟨m, hm, h⟩ := h
  obtain ⟨rfl, rfl⟩ := Prod.mk.inj (Except.ok.inj h)
  exact ⟨m, hm, rfl, rfl⟩

theorem execSeg_inv {pt : PageTable} {sz : ℕ} {img : Image} {ph : Option Proghdr}
    (h : execSeg k p pt sz img ph = .ok (o, k')) : ExecRes k p pt sz o k' := by
  have hbad : execBad k p pt sz = .ok (o, k') → ExecRes k p pt sz o k' := fun h => by
    obtain ⟨m, hm, rfl, rfl⟩ := execBad_inv (k := k) (n := k.mem) h
    exact .bad hm
  unfold execSeg at h
  split at h
  · exact hbad h
  rename_i ph
  split_ifs at h
  · obtain ⟨rfl, rfl⟩ := Prod.mk.inj (Except.ok.inj h)
    exact .skip
  · exact hbad h
  · exact hbad h
  · exact hbad h
  rw [bind_ok] at h
  obtain ⟨⟨sz1, pt1, m1⟩, hu, h⟩ := h
  dsimp only at h
  split_ifs at h with hsz
  · obtain ⟨m, hm, rfl, rfl⟩ := execBad_inv h
    exact .noMem (hsz ▸ hu) hm
  rw [bind_ok] at h
  obtain ⟨⟨ok, m2⟩, hl, h⟩ := h
  cases ok with
  | false =>
    obtain ⟨m, hm, rfl, rfl⟩ := execBad_inv h
    exact .badLoad hu hsz hl hm
  | true =>
    obtain ⟨rfl, rfl⟩ := Prod.mk.inj (Except.ok.inj h)
    exact .seg hu hsz hl

theorem execEnd_inv {pt : PageTable} {sz entry : ℕ} {argv : List (List UInt8)}
    (h : execEnd k p pt sz entry argv = .ok (o, k')) : ExecRes k p pt sz o k' := by
  unfold execEnd at h
  rw [bind_ok] at h
  obtain ⟨⟨sz1, pt1, m1⟩, hu, h⟩ := h
  dsimp only at h
  split_ifs at h with hsz
  · obtain ⟨m, hm, rfl, rfl⟩ := execBad_inv h
    exact .noStack (hsz ▸ hu) hm
  rw [bind_ok] at h
  obtain ⟨pt2, hc, h⟩ := h
  split at h
  · rename_i m2 hs
    obtain ⟨m, hm, rfl, rfl⟩ := execBad_inv h
    exact .badArgs hu hsz hc hs hm
  · rename_i sp m2 hs
    split at h
    · cases h
    rename_i old hold
    rw [bind_ok] at h
    obtain ⟨m, hm, h⟩ := h
    obtain ⟨rfl, rfl⟩ := Prod.mk.inj (Except.ok.inj h)
    exact .commit hu hsz hc hs hold hm

/-! ## Dying -/

theorem closeFiles_inv {fr : Frame} (h : closeFiles k p fr = .ok k') :
    ∃ fs m, filecloseAll (k.proc p).ofile k.fs k.mem = .ok (fs, m) ∧
      k' = ((k.setMem m).setFs (iputOpt (k.proc p).cwd fs)).setProc p { k.proc p with
        ofile := fun _ => none, cwd := none, frame := fr } := by
  unfold closeFiles at h
  rw [bind_ok] at h
  obtain ⟨⟨fs, m⟩, hc, h⟩ := h
  exact ⟨fs, m, hc, (Except.ok.inj h).symm⟩

theorem exit_inv {status : ℤ} (h : exit k p status = .ok k') :
    p ≠ k.initproc ∧ closeFiles k p (.exit status) = .ok k' := by
  unfold exit at h
  split_ifs at h with h1 h2
  exact ⟨h1, h⟩

/-- `thread_exit` of a thread, or the `exit` it becomes. -/
theorem threadExit_inv (h : threadExit k p = .ok k') :
    ((k.proc p).isThread = true ∧ closeFiles k p .threadExit = .ok k') ∨
      (p ≠ k.initproc ∧ closeFiles k p (.exit 0) = .ok k') := by
  unfold threadExit at h
  split_ifs at h with ht
  · exact .inl ⟨ht, h⟩
  · exact .inr (exit_inv h)

theorem threadExitEnd_inv (h : threadExitEnd k p = .ok k') :
    ∃ P m, releaseStack (k.proc p) k.mem = .ok (P, m) ∧
      k' = wakeup ((k.setMem m).setProc p { P with xstate := 0, state := .zombie }) p (some p) := by
  unfold threadExitEnd at h
  rw [bind_ok] at h
  obtain ⟨⟨P, m⟩, hr, h⟩ := h
  exact ⟨P, m, hr, (Except.ok.inj h).symm⟩

/-- What the stack release leaves of the dying thread. -/
theorem releaseStack_inv {P P' : Proc} {m m' : Kmem} (h : releaseStack P m = .ok (P', m')) :
    (∃ pt pt', P.pagetable = some pt ∧ unmapMapped pt P.start true m = .ok (pt', m') ∧ P.start ≠ 0 ∧ P.size ≠ 0 ∧
      P' = { P with pagetable := some pt', start := 0, size := 0 }) ∨
    ((P.start = 0 ∨ P.size = 0) ∧ P' = P ∧ m' = m) := by
  unfold releaseStack at h
  split_ifs at h with hs
  · split at h
    · cases h
    rename_i pt hpt
    rw [bind_ok] at h
    obtain ⟨⟨pt', m1⟩, hu, h⟩ := h
    obtain ⟨rfl, rfl⟩ := Prod.mk.inj (Except.ok.inj h)
    exact .inl ⟨pt, pt', hpt, hu, hs.1, hs.2, rfl⟩
  · obtain ⟨rfl, rfl⟩ := Prod.mk.inj (Except.ok.inj h)
    exact .inr ⟨by tauto, rfl, rfl⟩

/-! ## Copying to user memory -/

theorem copyout_dataOnly {pt : PageTable} : ∀ {bs : List UInt8} {va : ℕ} {m m' : Kmem} {ok : Bool},
    copyout pt va bs m = (ok, m') → m.DataOnly m'
  | [], va, m, m', ok, h => by
    obtain ⟨-, rfl⟩ := Prod.mk.inj h
    exact .refl _
  | b :: bs, va, m, m', ok, h => by
    unfold copyout at h
    split at h
    · obtain ⟨-, rfl⟩ := Prod.mk.inj h
      exact .refl _
    · exact (Kmem.DataOnly.store _ _ _ _).trans (copyout_dataOnly h)

theorem copyStatus_dataOnly {pt : Option PageTable} {addr : ℕ} {x : ℤ} {m m' : Kmem} {ok : Bool}
    (h : copyStatus pt addr x m = .ok (ok, m')) : m.DataOnly m' := by
  unfold copyStatus at h
  split_ifs at h
  · obtain ⟨-, rfl⟩ := Prod.mk.inj (Except.ok.inj h)
    exact .refl _
  · split at h
    · cases h
    · exact copyout_dataOnly (Except.ok.inj h)

theorem loadsegLoop_dataOnly {img : Image} {pt : PageTable} {va off sz : ℕ} : ∀ {n i : ℕ} {m m' : Kmem} {ok : Bool},
    loadsegLoop img pt va off sz n i m = .ok (ok, m') → m.DataOnly m'
  | 0, i, m, m', ok, h => by
    obtain ⟨-, rfl⟩ := Prod.mk.inj (Except.ok.inj h)
    exact .refl _
  | n + 1, i, m, m', ok, h => by
    unfold loadsegLoop at h
    split at h
    · cases h
    · dsimp only at h
      split_ifs at h
      · obtain ⟨-, rfl⟩ := Prod.mk.inj (Except.ok.inj h)
        exact .refl _
      · exact Kmem.DataOnly.trans ⟨_, rfl⟩ (loadsegLoop_dataOnly h)

theorem loadseg_dataOnly {img : Image} {pt : PageTable} {va off sz : ℕ} {m m' : Kmem} {ok : Bool}
    (h : loadseg img pt va off sz m = .ok (ok, m')) : m.DataOnly m' :=
  loadsegLoop_dataOnly h

theorem pushArgs_dataOnly {pt : PageTable} {base : ℕ} :
    ∀ {args : List (List UInt8)} {argc sp : ℕ} {us : List ℕ} {m m' : Kmem} {x : Option (ℕ × List ℕ)},
      pushArgs pt base args argc sp us m = (x, m') → m.DataOnly m'
  | [], argc, sp, us, m, m', x, h => by
    obtain ⟨-, rfl⟩ := Prod.mk.inj h
    exact .refl _
  | arg :: args, argc, sp, us, m, m', x, h => by
    unfold pushArgs at h
    dsimp only at h
    split_ifs at h
    · obtain ⟨-, rfl⟩ := Prod.mk.inj h
      exact .refl _
    · obtain ⟨-, rfl⟩ := Prod.mk.inj h
      exact .refl _
    · split at h
      · rename_i hc
        obtain ⟨-, rfl⟩ := Prod.mk.inj h
        exact copyout_dataOnly hc
      · rename_i hc
        exact (copyout_dataOnly hc).trans (pushArgs_dataOnly h)

theorem pushStack_dataOnly {pt : PageTable} {sz : ℕ} {argv : List (List UInt8)} {m m' : Kmem} {x : Option ℕ}
    (h : pushStack pt sz argv m = (x, m')) : m.DataOnly m' := by
  unfold pushStack at h
  dsimp only at h
  split at h
  · rename_i ha
    obtain ⟨-, rfl⟩ := Prod.mk.inj h
    exact pushArgs_dataOnly ha
  · rename_i ha
    split_ifs at h
    · obtain ⟨-, rfl⟩ := Prod.mk.inj h
      exact pushArgs_dataOnly ha
    · split at h
      · rename_i hc
        obtain ⟨-, rfl⟩ := Prod.mk.inj h
        exact (pushArgs_dataOnly ha).trans (copyout_dataOnly hc)
      · rename_i hc
        obtain ⟨-, rfl⟩ := Prod.mk.inj h
        exact (pushArgs_dataOnly ha).trans (copyout_dataOnly hc)

/-! ## Descriptors -/

/-- What the calls on descriptors can do. -/
inductive FileRes (k : Kernel) (p : Slot) : Kernel → Prop
  | same : FileRes k p k
  /-- An `open` that gives the inode back. -/
  | openBad {i : ℕ} : FileRes k p (k.setFs ((k.fs.iget i).iput i))
  /-- An `open` that finds no free descriptor. -/
  | openNoFd {i : ℕ} {f : FileId} {fs fs' : Files} {m : Kmem} (ha : filealloc (k.fs.iget i) = some (f, fs))
      (hc : fileclose f fs k.mem = .ok (fs', m)) : FileRes k p ((k.setMem m).setFs (fs'.iput i))
  | open {i : ℕ} {f : FileId} {fs : Files} {F : File} {fd : Fin NOFILE} {of : Ofile}
      (ha : filealloc (k.fs.iget i) = some (f, fs)) (hd : fdalloc (k.proc p).ofile f = some (fd, of))
      (href : F.ref = (fs.ftable f).ref) (hip : F.ip = i) (hty : F.type = .inode ∨ F.type = .device) :
      FileRes k p ((k.setFs (fs.setFile f F)).setProc p { k.proc p with ofile := of })
  | dup {fd0 fd : Fin NOFILE} {f : FileId} {of : Ofile} {fs : Files} (hf : (k.proc p).ofile fd0 = some f)
      (hd : fdalloc (k.proc p).ofile f = some (fd, of)) (h : filedup f k.fs = .ok fs) :
      FileRes k p ((k.setFs fs).setProc p { k.proc p with ofile := of })
  | close {fd : Fin NOFILE} {f : FileId} {fs : Files} {m : Kmem} (hf : (k.proc p).ofile fd = some f)
      (h : fileclose f k.fs k.mem = .ok (fs, m)) :
      FileRes k p (((k.setMem m).setFs fs).setProc p { k.proc p with
        ofile := Function.update (k.proc p).ofile fd none })
  | noPipe {fs : Files} {m : Kmem} (h : pipealloc k.fs k.mem = .ok (none, fs, m)) :
      FileRes k p ((k.setMem m).setFs fs)
  /-- A `pipe` that closes both ends again. -/
  | pipeBad {rf wf : FileId} {fs fs1 fs2 : Files} {m m0 m1 m2 : Kmem}
      (h : pipealloc k.fs k.mem = .ok (some (rf, wf), fs, m)) (hm : m.DataOnly m0)
      (h1 : fileclose rf fs m0 = .ok (fs1, m1)) (h2 : fileclose wf fs1 m1 = .ok (fs2, m2)) :
      FileRes k p ((k.setMem m2).setFs fs2)
  | pipe {rf wf : FileId} {fs : Files} {m m0 : Kmem} {fd0 fd1 : Fin NOFILE} {of0 of : Ofile}
      (h : pipealloc k.fs k.mem = .ok (some (rf, wf), fs, m)) (hm : m.DataOnly m0)
      (h0 : fdalloc (k.proc p).ofile rf = some (fd0, of0)) (h1 : fdalloc of0 wf = some (fd1, of)) :
      FileRes k p (((k.setMem m0).setFs fs).setProc p { k.proc p with ofile := of })

theorem argfd_some {of : Ofile} {n : ℤ} {fd : Fin NOFILE} {f : FileId} (h : argfd of n = some (fd, f)) :
    of fd = some f := by
  unfold argfd at h
  dsimp only at h
  split_ifs at h
  split at h
  · cases h
  · rename_i hf
    obtain ⟨rfl, rfl⟩ := Prod.mk.inj (Option.some.inj h)
    exact hf

theorem sysOpen_inv {path : Option InodeRef} {omode : ℕ} (h : sysOpen k p path omode = .ok (r, k')) :
    FileRes k p k' := by
  unfold sysOpen at h
  split at h
  · obtain ⟨-, rfl⟩ := Prod.mk.inj (Except.ok.inj h)
    exact .same
  rename_i ip
  dsimp only at h
  split at h
  · obtain ⟨-, rfl⟩ := Prod.mk.inj (Except.ok.inj h)
    exact .openBad
  split at h
  · obtain ⟨-, rfl⟩ := Prod.mk.inj (Except.ok.inj h)
    exact .openBad
  split at h
  · obtain ⟨-, rfl⟩ := Prod.mk.inj (Except.ok.inj h)
    exact .openBad
  rename_i f fs ha
  split at h
  · rw [bind_ok] at h
    obtain ⟨⟨fs', m⟩, hc, h⟩ := h
    obtain ⟨-, rfl⟩ := Prod.mk.inj (Except.ok.inj h)
    exact .openNoFd ha hc
  · rename_i fd of hd
    obtain ⟨-, rfl⟩ := Prod.mk.inj (Except.ok.inj h)
    refine .open ha hd ?_ rfl ?_
    · dsimp only
      split_ifs <;> rfl
    · dsimp only
      split_ifs
      · exact .inr rfl
      · exact .inl rfl

theorem sysDup_inv {n : ℤ} (h : sysDup k p n = .ok (r, k')) : FileRes k p k' := by
  unfold sysDup at h
  split at h
  · obtain ⟨-, rfl⟩ := Prod.mk.inj (Except.ok.inj h)
    exact .same
  rename_i hf
  split at h
  · obtain ⟨-, rfl⟩ := Prod.mk.inj (Except.ok.inj h)
    exact .same
  rename_i hd
  rw [bind_ok] at h
  obtain ⟨fs, hdup, h⟩ := h
  obtain ⟨-, rfl⟩ := Prod.mk.inj (Except.ok.inj h)
  exact .dup (argfd_some hf) hd hdup

theorem sysClose_inv {n : ℤ} (h : sysClose k p n = .ok (r, k')) : FileRes k p k' := by
  unfold sysClose at h
  split at h
  · obtain ⟨-, rfl⟩ := Prod.mk.inj (Except.ok.inj h)
    exact .same
  rename_i hf
  rw [bind_ok] at h
  obtain ⟨⟨fs, m⟩, hc, h⟩ := h
  obtain ⟨-, rfl⟩ := Prod.mk.inj (Except.ok.inj h)
  exact .close (argfd_some hf) hc

theorem pipeBad_inv {rf wf : FileId} {fs : Files} {m m0 : Kmem} (ha : pipealloc k.fs k.mem = .ok (some (rf, wf), fs, m))
    (hm : m.DataOnly m0) (h : pipeBad k rf wf fs m0 = .ok (r, k')) : FileRes k p k' := by
  unfold pipeBad at h
  simp only [bind_ok] at h
  obtain ⟨⟨fs1, m1⟩, h1, ⟨fs2, m2⟩, h2, h⟩ := h
  obtain ⟨-, rfl⟩ := Prod.mk.inj (Except.ok.inj h)
  exact .pipeBad ha hm h1 h2

theorem sysPipe_inv {a : ℕ} (h : sysPipe k p a = .ok (r, k')) : FileRes k p k' := by
  unfold sysPipe at h
  rw [bind_ok] at h
  obtain ⟨⟨x, fs, m⟩, ha, h⟩ := h
  rcases x with _ | ⟨rf, wf⟩
  · obtain ⟨-, rfl⟩ := Prod.mk.inj (Except.ok.inj h)
    exact .noPipe ha
  dsimp only at h
  split at h
  · exact pipeBad_inv ha (.refl m) h
  rename_i h0
  split at h
  · exact pipeBad_inv ha (.refl m) h
  rename_i h1
  split at h
  · cases h
  split at h
  · rename_i hc
    exact pipeBad_inv ha (copyout_dataOnly hc) h
  rename_i hc
  split at h
  · rename_i hc'
    exact pipeBad_inv ha ((copyout_dataOnly hc).trans (copyout_dataOnly hc')) h
  · rename_i hc'
    obtain ⟨-, rfl⟩ := Prod.mk.inj (Except.ok.inj h)
    exact .pipe ha ((copyout_dataOnly hc).trans (copyout_dataOnly hc')) h0 h1

end OsLabs.Xv6
