import OsLabs.Xv6.FileSpec
import OsLabs.Xv6.Machine
import Mathlib.Algebra.Order.BigOperators.Group.Finset

/-!
# OsLabs.Xv6.FileRef — open files are counted exactly

`FileInv` is the invariant of whole runs: the reference count of a file is the number of descriptors that stand for it, and a
process that is dying, dead or unused has neither descriptors nor a current directory.  It survives every step, so no run ever
meets the panics of `filedup` and `fileclose`, and a pipe or an inode is held exactly as long as somebody holds a descriptor.
-/

namespace OsLabs.Xv6

open Lts Fallible Tally

variable {k k' k1 : Kernel} {p q : Slot} {f : FileId} {fs : Files} {m : Kmem} {cw : ℕ → ℤ}

/-- Inside `exit` or `thread_exit`, with the files given up. -/
def Frame.dying : Frame → Bool
  | .exit _ | .threadExit => true
  | _ => false

/-- A process that has given up its files, or a slot that never had any. -/
def Proc.Idle (P : Proc) : Prop := P.state = .unused ∨ P.state = .zombie ∨ P.frame.dying = true

/-- No descriptors and no current directory. -/
def Proc.NoFiles (P : Proc) : Prop := (∀ fd, P.ofile fd = none) ∧ P.cwd = none

/-- How many processes have inode `i` as current directory. -/
def Kernel.cwds (k : Kernel) (i : ℕ) : ℤ := ∑ p, if (k.proc p).cwd = some i then 1 else 0

structure FileInv (k : Kernel) : Prop where
  fs : FsInv k.fs k.cwds
  refs : ∀ f, (k.fs.ftable f).ref = ∑ p, (k.proc p).ofile.count f
  idle : ∀ p, (k.proc p).Idle → (k.proc p).NoFiles

/-! ## Steps that leave the files alone -/

structure FileSame (k k' : Kernel) : Prop where
  fs : k'.fs = k.fs
  ofile : ∀ p, (k'.proc p).ofile = (k.proc p).ofile
  cwd : ∀ p, (k'.proc p).cwd = (k.proc p).cwd
  idle : ∀ p, (k'.proc p).Idle → (k.proc p).Idle

namespace FileSame

theorem refl (k : Kernel) : FileSame k k := ⟨rfl, fun _ => rfl, fun _ => rfl, fun _ h => h⟩

theorem trans (h : FileSame k k1) (h' : FileSame k1 k') : FileSame k k' :=
  ⟨h'.fs.trans h.fs, fun p => (h'.ofile p).trans (h.ofile p), fun p => (h'.cwd p).trans (h.cwd p),
    fun p hp => h.idle p (h'.idle p hp)⟩

/-- One process changes, its files do not. -/
theorem setProc {P : Proc} (m : Kmem)
    (h : P.ofile = (k.proc p).ofile ∧ P.cwd = (k.proc p).cwd ∧ (P.Idle → (k.proc p).Idle)) :
    FileSame k ((k.setMem m).setProc p P) := by
  obtain ⟨ho, hc, hi⟩ := h
  refine ⟨rfl, fun q => ?_, fun q => ?_, fun q => ?_⟩
  all_goals
    rw [Kernel.setProc_apply]
    split_ifs with hq
  · rw [hq, ho]
  · rfl
  · rw [hq, hc]
  · rfl
  · rw [hq]
    exact hi
  · exact id

/-- A process goes on, with the files it had. -/
theorem setLive {P : Proc} (m : Kmem) (h : P.ofile = (k.proc p).ofile ∧ P.cwd = (k.proc p).cwd)
    (hs : P.state ≠ .unused ∧ P.state ≠ .zombie) (hf : P.frame.dying = false) :
    FileSame k ((k.setMem m).setProc p P) := by
  refine setProc m ⟨h.1, h.2, ?_⟩
  rintro (h1 | h1 | h1)
  · exact absurd h1 hs.1
  · exact absurd h1 hs.2
  · rw [hf] at h1
    cases h1

/-- The slot changes other than in state and frame. -/
theorem idle_of {P Q : Proc} (hs : P.state = Q.state) (hf : P.frame = Q.frame) (h : P.Idle) : Q.Idle := by
  unfold Proc.Idle at h ⊢
  rwa [← hs, ← hf]

theorem setAnswers (k : Kernel) (as : List Pa) : FileSame k (k.setAnswers as) :=
  ⟨rfl, fun _ => rfl, fun _ => rfl, fun _ h => h⟩

theorem setMem (k : Kernel) (m : Kmem) : FileSame k (k.setMem m) := ⟨rfl, fun _ => rfl, fun _ => rfl, fun _ h => h⟩

theorem bumpPid (k : Kernel) : FileSame k k.bumpPid := ⟨rfl, fun _ => rfl, fun _ => rfl, fun _ h => h⟩

theorem tidy (k : Kernel) (p : Slot) (as : List Pa) : FileSame k (k.tidy p as) := by
  refine (setAnswers k as).trans (setProc (k := k.setAnswers as) (k.setAnswers as).mem ?_)
  exact ⟨rfl, rfl, idle_of rfl rfl⟩

theorem ptOnly (h : PtOnly k k') : FileSame k k' := by
  obtain ⟨g, m, rfl⟩ := h
  exact ⟨rfl, fun _ => rfl, fun _ => rfl, fun _ h => idle_of rfl rfl h⟩

theorem setGroupSz (k : Kernel) (l : Slot) (sz : ℕ) : FileSame k (setGroupSz k l sz) := by
  refine ⟨rfl, fun q => ?_, fun q => ?_, fun q => ?_⟩
  all_goals
    simp only [Xv6.setGroupSz]
    split_ifs
  · rfl
  · rfl
  · rfl
  · rfl
  · exact idle_of rfl rfl
  · exact id

theorem wakeup (k : Kernel) (p : Slot) (c : Option Slot) : FileSame k (wakeup k p c) := by
  refine ⟨rfl, fun q => ?_, fun q => ?_, fun q => ?_⟩
  all_goals
    simp only [Xv6.wakeup]
    split_ifs with h
  · rfl
  · rfl
  · rfl
  · rfl
  · rintro (h1 | h1 | h1)
    · cases h1
    · cases h1
    · exact .inr (.inr h1)
  · exact id

theorem reparent (k : Kernel) (p : Slot) : FileSame k (reparent k p) := by
  have h : FileSame k { k with proc := fun i =>
      if (k.proc i).parent = some p then { k.proc i with parent := some k.initproc } else k.proc i } := by
    refine ⟨rfl, fun q => ?_, fun q => ?_, fun q => ?_⟩
    all_goals
      dsimp only
      split_ifs
    · rfl
    · rfl
    · rfl
    · rfl
    · exact idle_of rfl rfl
    · exact id
  unfold Xv6.reparent
  dsimp only
  split_ifs
  · exact h.trans (wakeup _ _ _)
  · exact h

theorem kill (k : Kernel) (pid : ℤ) : FileSame k (kill k pid).2 := by
  unfold Xv6.kill
  split
  · exact refl k
  · rename_i i _
    refine setProc k.mem ⟨rfl, rfl, ?_⟩
    rintro (h | h | h)
    · split_ifs at h
      exact .inl h
    · split_ifs at h
      exact .inr (.inl h)
    · exact .inr (.inr h)

theorem freed {i : Slot} (m : Kmem) (h : (k.proc i).Idle) : FileSame k ((k.setMem m).setProc i (k.proc i).freed) := by
  refine setProc m ?_
  exact ⟨rfl, rfl, fun _ => h⟩

theorem allocNone (h : AllocRes k none k') : FileSame k k' := by
  cases h with
  | noSlot => exact refl k
  | noTrapframe hi _ _ => exact (bumpPid k).trans (freed (k := k.bumpPid) _ (.inl hi))
  | noPagetable hi _ _ _ => exact (bumpPid k).trans (freed (k := k.bumpPid) _ (.inl hi))

theorem allocSome {np : Slot} (h : AllocRes k (some np) k') : FileSame k k' ∧ (k.proc np).Idle := by
  cases h with
  | ok hi _ _ =>
    refine ⟨(bumpPid k).trans (setLive (k := k.bumpPid) _ ?_ ?_ ?_), .inl hi⟩
    · exact ⟨rfl, rfl⟩
    · exact ⟨by simp [Proc.allocated], by simp [Proc.allocated]⟩
    · rfl

/-- A slot that was allocated and is freed again. -/
theorem allocFreed {np : Slot} (h : AllocRes k (some np) k1) (m : Kmem) :
    FileSame k ((k1.setMem m).setProc np (k1.proc np).freed) := by
  obtain ⟨h1, hnp⟩ := allocSome h
  refine ⟨h1.fs, fun q => ?_, fun q => ?_, fun q => ?_⟩
  all_goals
    rw [Kernel.setProc_apply]
    split_ifs with hq
  · subst hq
    exact h1.ofile q
  · exact h1.ofile q
  · subst hq
    exact h1.cwd q
  · exact h1.cwd q
  · subst hq
    exact fun _ => hnp
  · exact h1.idle q

theorem join {tid : ℤ} {l : Option Slot} {o : Option ℤ} (hp : (k.proc p).state = .running)
    (h : JoinRes k p tid l o k') : FileSame k k' := by
  cases h with
  | gone _ => exact setLive k.mem (by exact ⟨rfl, rfl⟩) (by simp [hp]) (by rfl)
  | @reap q m _ hz hpq _ =>
    have h1 : FileSame k ((k.setMem m).setProc q (k.proc q).freedThread) := by
      refine setProc m ?_
      exact ⟨rfl, rfl, fun _ => .inr (.inl hz)⟩
    have hk : ((k.setMem m).setProc q (k.proc q).freedThread).proc p = k.proc p := Kernel.setProc_of_ne _ _ hpq
    refine h1.trans (setLive (k := (k.setMem m).setProc q (k.proc q).freedThread) m ?_ (by simp [hp]) (by rfl))
    exact ⟨by rw [hk], by rw [hk]⟩
  | sleep _ _ => exact setLive k.mem (by exact ⟨rfl, rfl⟩) (by simp) (by rfl)

theorem wait {addr : ℕ} {o : Option ℤ} (hp : (k.proc p).state = .running)
    (h : WaitRes k p addr o k') : FileSame k k' := by
  cases h with
  | badAddr _ _ => exact setLive _ (by exact ⟨rfl, rfl⟩) (by simp [hp]) (by rfl)
  | @reap q m1 m h hpq _ _ =>
    have h1 : FileSame k ((k.setMem m).setProc q (k.proc q).freed) := freed m (.inr (.inl (zombieChild_some h).2))
    have hk : ((k.setMem m).setProc q (k.proc q).freed).proc p = k.proc p := Kernel.setProc_of_ne _ _ hpq
    refine h1.trans (setLive (k := (k.setMem m).setProc q (k.proc q).freed) m ?_ (by simp [hp]) (by rfl))
    exact ⟨by rw [hk], by rw [hk]⟩
  | nobody _ => exact setLive k.mem (by exact ⟨rfl, rfl⟩) (by simp [hp]) (by rfl)
  | sleep _ => exact setLive k.mem (by exact ⟨rfl, rfl⟩) (by simp) (by rfl)

theorem grow {n r : ℤ} (h : GrowRes k p n r k') : FileSame k k' := by
  cases h with
  | zero _ => exact refl k
  | nullGrow => exact setMem k _
  | nullShrink => exact setGroupSz k _ _
  | noMem => exact ptOnly (PtOnly.setPt k _ _ _)
  | grow _ _ _ _ _ hb =>
    exact (ptOnly ((PtOnly.setPt k _ _ _).trans (broadcast_ptOnly hb))).trans (setGroupSz _ _ _)
  | shrink _ _ _ _ hb =>
    exact (ptOnly ((PtOnly.setPt k _ _ _).trans (unbroadcast_ptOnly hb))).trans (setGroupSz _ _ _)

theorem execBegin {o : Option ℤ} (hp : (k.proc p).state = .running) (h : ExecBeginRes k p o k') : FileSame k k' := by
  cases h with
  | noHeader => exact refl k
  | noPagetable => exact setMem k _
  | ok => exact setLive _ (by exact ⟨rfl, rfl⟩) (by simp [hp]) (by rfl)

theorem exec {pt : PageTable} {sz : ℕ} {o : Option ℤ} (hp : (k.proc p).state = .running)
    (h : ExecRes k p pt sz o k') : FileSame k k' := by
  have bad : ∀ m, FileSame k ((k.setMem m).setProc p { k.proc p with frame := .user }) := fun m =>
    setLive m (by exact ⟨rfl, rfl⟩) (by simp [hp]) (by rfl)
  cases h with
  | skip => exact refl k
  | bad => exact bad _
  | noMem => exact bad _
  | badLoad => exact bad _
  | seg => exact setLive _ (by exact ⟨rfl, rfl⟩) (by simp [hp]) (by rfl)
  | noStack => exact bad _
  | badArgs => exact bad _
  | commit => exact setLive _ (by exact ⟨rfl, rfl⟩) (by simp [hp]) (by rfl)

/-- The end of `exit`: the files went before. -/
theorem exitEnd {st : ℤ} (hp : (k.proc p).frame.dying = true) : FileSame k (exitEnd k p st) := by
  have h := (reparent k p).trans (wakeup (Xv6.reparent k p) p ((Xv6.reparent k p).proc p).parent)
  refine ⟨h.fs, fun q => ?_, fun q => ?_, fun q => ?_⟩
  all_goals
    simp only [Xv6.exitEnd, Kernel.setProc_apply]
    split_ifs with hq
  · subst hq
    exact h.ofile q
  · exact h.ofile q
  · subst hq
    exact h.cwd q
  · exact h.cwd q
  · subst hq
    exact fun _ => .inr (.inr hp)
  · exact h.idle q

theorem threadExitEnd (hp : (k.proc p).frame.dying = true) (h : threadExitEnd k p = .ok k') : FileSame k k' := by
  obtain ⟨P, m, hr, rfl⟩ := threadExitEnd_inv h
  have h1 : FileSame k ((k.setMem m).setProc p { P with xstate := 0, state := .zombie }) := by
    rcases releaseStack_inv hr with ⟨pt, pt', _, _, _, _, rfl⟩ | ⟨_, rfl, _⟩
    · refine setProc m ?_
      exact ⟨rfl, rfl, fun _ => .inr (.inr hp)⟩
    · refine setProc m ?_
      exact ⟨rfl, rfl, fun _ => .inr (.inr hp)⟩
  exact h1.trans (wakeup _ _ _)

end FileSame

theorem FileInv.same (hI : FileInv k) (h : FileSame k k') : FileInv k' := by
  refine ⟨?_, fun f => ?_, fun p hp => ?_⟩
  · have hcw : k'.cwds = k.cwds := by
      funext i
      simp only [Kernel.cwds, h.cwd]
    rw [h.fs, hcw]
    exact hI.fs
  · rw [h.fs, hI.refs f]
    simp only [h.ofile]
  · obtain ⟨h1, h2⟩ := hI.idle p (h.idle p hp)
    exact ⟨by rw [h.ofile]; exact h1, by rw [h.cwd]; exact h2⟩

/-! ## Steps that change the files of one process -/

/-- Process `p` becomes `P` and the file table becomes `fs`; both sides of every count move together. -/
theorem FileInv.setFiles {P : Proc} {c : ℕ → ℤ} (hI : FileInv k) (m : Kmem) (hfs : FsInv fs c)
    (hcw : ∀ i, c i + (if (k.proc p).cwd = some i then 1 else 0) = k.cwds i + (if P.cwd = some i then 1 else 0))
    (href : ∀ f, (fs.ftable f).ref + (k.proc p).ofile.count f = (k.fs.ftable f).ref + P.ofile.count f)
    (hidle : P.Idle → P.NoFiles) : FileInv (((k.setMem m).setFs fs).setProc p P) := by
  have hother : ∀ q, q ≠ p → (((k.setMem m).setFs fs).setProc p P).proc q = k.proc q := fun q hq =>
    Kernel.setProc_of_ne _ _ hq
  refine ⟨?_, fun f => ?_, fun q hq => ?_⟩
  · have hc : (((k.setMem m).setFs fs).setProc p P).cwds = c := by
      funext i
      have h := sum_write (f := fun q => if (k.proc q).cwd = some i then (1 : ℤ) else 0)
        (g := fun q => if ((((k.setMem m).setFs fs).setProc p P).proc q).cwd = some i then (1 : ℤ) else 0) (i := p)
        fun q hq => by rw [hother q hq]
      rw [Kernel.setProc_self] at h
      have h' := hcw i
      simp only [Kernel.cwds] at h' ⊢
      omega
    rw [hc]
    exact hfs
  · have h := sum_write (f := fun q => (k.proc q).ofile.count f)
      (g := fun q => ((((k.setMem m).setFs fs).setProc p P).proc q).ofile.count f) (i := p)
      fun q hq => by rw [hother q hq]
    rw [Kernel.setProc_self] at h
    have h1 := href f
    have h2 := hI.refs f
    show (fs.ftable f).ref = _
    omega
  · rw [Kernel.setProc_apply] at hq ⊢
    split_ifs at hq ⊢ with hqp
    · exact hidle hq
    · exact hI.idle q hq

/-- **Dying.**  The files and the current directory go. -/
theorem FileInv.closeFiles {fr : Frame} (hI : FileInv k) (h : closeFiles k p fr = .ok k') : FileInv k' := by
  obtain ⟨fs, m, hc, rfl⟩ := closeFiles_inv h
  obtain ⟨hfs, hr⟩ := filecloseAll_spec hI.fs hc
  have hcount : ∀ f, Ofile.count (fun _ => none) f = 0 := Ofile.count_none fun _ => rfl
  cases hcwd : (k.proc p).cwd with
  | none =>
    refine hI.setFiles m hfs (fun i => by simp [hcwd]) (fun f => ?_) (fun _ => ⟨fun _ => rfl, rfl⟩)
    simp only [hr, hcount, iputOpt]
    omega
  | some c =>
    refine hI.setFiles (c := fun i => k.cwds i - if c = i then 1 else 0) m (hfs.setIref fun i => ?_) (fun i => ?_)
      (fun f => ?_) (fun _ => ⟨fun _ => rfl, rfl⟩)
    · by_cases hi : i = c
      · subst hi
        simp
      · simp [hi, Ne.symm hi]
    · simp [hcwd]
    · simp only [hcount, iputOpt, Files.iput]
      have := hr f
      omega

/-- **Making a process or thread.**  The new one gets the descriptors and the directory of its maker. -/
theorem FileInv.spawn {np : Slot} {P : Proc} {c : ℕ} (hI : FileInv k1) (hnp : (k1.proc np).NoFiles)
    (hf : filedupAll (k1.proc p).ofile k1.fs = .ok fs) (m : Kmem)
    (ho : P.ofile = fun fd => if ((k1.proc p).ofile fd).isSome then (k1.proc p).ofile fd else (k1.proc np).ofile fd)
    (hc : P.cwd = some c) (hP : ¬ P.Idle) : FileInv (((k1.setMem m).setFs (fs.idup c)).setProc np P) := by
  obtain ⟨hfs, hr⟩ := filedupAll_spec hI.fs hf
  refine hI.setFiles (c := fun i => k1.cwds i + if c = i then 1 else 0) m (hfs.setIref fun i => ?_) (fun i => ?_)
    (fun f => ?_) (fun h => absurd h hP)
  · by_cases hi : i = c
    · subst hi
      simp
    · simp [hi, Ne.symm hi]
  · simp [hnp.2, hc]
  · have h1 : P.ofile.count f = (k1.proc p).ofile.count f := by
      rw [ho, Ofile.count, Ofile.count, tally_orElse fun fd _ => hnp.1 fd]
    rw [h1, Ofile.count_none hnp.1 f, add_zero]
    exact hr f

theorem FileInv.alloc {np : Slot} (hI : FileInv k) (h : AllocRes k (some np) k1) :
    FileInv k1 ∧ (k1.proc np).NoFiles := by
  obtain ⟨hs, hi⟩ := FileSame.allocSome h
  obtain ⟨h1, h2⟩ := hI.idle np hi
  exact ⟨hI.same hs, by rw [hs.ofile]; exact h1, by rw [hs.cwd]; exact h2⟩

theorem FileInv.thread {fn arg retfn : ℕ} {r : ℤ} (hI : FileInv k) (h : ThreadRes k p fn arg retfn r k') :
    FileInv k' := by
  cases h with
  | noSlot h => exact hI.same (.allocNone h)
  | noShare h _ _ _ _ => exact hI.same (.allocFreed h _)
  | noStack h _ _ _ _ _ => exact hI.same (.allocFreed h _)
  | ok h _ _ _ _ _ hf hc =>
    obtain ⟨hI1, hnp⟩ := hI.alloc h
    refine hI1.spawn hnp hf _ rfl rfl ?_
    cases h with
    | ok _ _ _ =>
      rw [Kernel.setProc_self]
      rintro (h | h | h) <;> cases h

theorem FileInv.fork {r : ℤ} (hI : FileInv k) (h : ForkRes k p r k') : FileInv k' := by
  cases h with
  | noSlot h => exact hI.same (.allocNone h)
  | noCopy h _ _ _ => exact hI.same (.allocFreed h _)
  | ok h _ _ hf hc =>
    obtain ⟨hI1, hnp⟩ := hI.alloc h
    refine hI1.spawn hnp hf _ rfl rfl ?_
    cases h with
    | ok _ _ _ =>
      rw [Kernel.setProc_self]
      rintro (h | h | h) <;> cases h

/-! ## Calls on descriptors -/

/-- The file table changes behind the descriptors. -/
theorem FileInv.setFs (hI : FileInv k) (m : Kmem) (hfs : FsInv fs k.cwds)
    (href : ∀ f, (fs.ftable f).ref = (k.fs.ftable f).ref) : FileInv ((k.setMem m).setFs fs) :=
  ⟨hfs, fun f => (href f).trans (hI.refs f), hI.idle⟩

/-- The descriptors of a process that is not dying change together with the counts. -/
theorem FileInv.setOfile {of : Ofile} (hI : FileInv k) (m : Kmem) (hp : ¬ (k.proc p).Idle) (hfs : FsInv fs k.cwds)
    (href : ∀ f, (fs.ftable f).ref + (k.proc p).ofile.count f = (k.fs.ftable f).ref + of.count f) :
    FileInv (((k.setMem m).setFs fs).setProc p { k.proc p with ofile := of }) :=
  hI.setFiles m hfs (fun _ => rfl) href fun h => absurd (FileSame.idle_of rfl rfl h) hp

theorem FsInv.iget {i : ℕ} (hI : FsInv fs cw) : FsInv (fs.iget i) fun j => cw j + if i = j then 1 else 0 := by
  refine hI.setIref fun j => ?_
  by_cases hj : j = i
  · subst hj
    simp
  · simp [hj, Ne.symm hj]

theorem FsInv.iput {i : ℕ} (hI : FsInv fs fun j => cw j + if i = j then 1 else 0) : FsInv (fs.iput i) cw := by
  refine hI.setIref fun j => ?_
  by_cases hj : j = i
  · subst hj
    simp
  · simp [hj, Ne.symm hj]

theorem FileInv.file (hI : FileInv k) (hp : ¬ (k.proc p).Idle) (h : FileRes k p k') : FileInv k' := by
  cases h with
  | same => exact hI
  | openBad => exact hI.setFs k.mem hI.fs.iget.iput fun _ => rfl
  | @openNoFd i f fs fs' m ha hc =>
    obtain ⟨h1, -, -, hr1⟩ := filealloc_spec hI.fs.iget ha
    obtain ⟨h2, -, hr2⟩ := fileclose_spec h1 hc
    refine hI.setFs m h2.iput fun g => ?_
    have e1 : (fs.ftable g).ref = (k.fs.ftable g).ref + if g = f then 1 else 0 := hr1 g
    have e2 : ((fs'.iput i).ftable g).ref = (fs.ftable g).ref - if g = f then 1 else 0 := hr2 g
    omega
  | @«open» i f fs F fd of ha hd href hip hty =>
    obtain ⟨h1, hz, ht, hr1⟩ := filealloc_spec hI.fs.iget ha
    have hf : (fs.ftable f).ref = 1 := by
      have e1 := hr1 f
      rw [if_pos rfl] at e1
      omega
    refine hI.setOfile k.mem hp (h1.setPlain (r := fs.iref) (by simp [ht]) ?_ (by omega) (by omega) fun j => ?_)
      fun g => ?_
    · rcases hty with h | h <;> simp [h]
    · rw [if_neg (File.not_onInode ht j)]
      simp only [File.OnInode, hty, hip, true_and]
      omega
    · have e2 := Ofile.count_fdalloc hd g
      have e1 : (fs.ftable g).ref = (k.fs.ftable g).ref + if g = f then 1 else 0 := hr1 g
      by_cases hg : g = f
      · subst hg
        rw [Files.setFile_self, href]
        omega
      · rw [Files.setFile_of_ne _ _ hg]
        omega
  | dup hf hd h =>
    obtain ⟨h1, hr1⟩ := filedup_spec hI.fs h
    refine hI.setOfile k.mem hp h1 fun g => ?_
    rw [hr1, Ofile.count_fdalloc hd]
    omega
  | close hf h =>
    obtain ⟨h1, -, hr1⟩ := fileclose_spec hI.fs h
    refine hI.setOfile _ hp h1 fun g => ?_
    rw [hr1, Ofile.count_close hf]
    omega
  | noPipe h =>
    obtain ⟨h1, ⟨-, hr1⟩ | ⟨_, _, h0, -⟩⟩ := pipealloc_spec hI.fs h
    · exact hI.setFs _ h1 hr1
    · cases h0
  | pipeBad h hm hc1 hc2 =>
    obtain ⟨h1, ⟨h0, -⟩ | ⟨_, _, h0, hr1⟩⟩ := pipealloc_spec hI.fs h
    · cases h0
    · obtain ⟨rfl, rfl⟩ := Prod.mk.inj (Option.some.inj h0)
      obtain ⟨h2, -, hr2⟩ := fileclose_spec h1 hc1
      obtain ⟨h3, -, hr3⟩ := fileclose_spec h2 hc2
      exact hI.setFs _ h3 fun g => by rw [hr3, hr2, hr1]; omega
  | pipe h hm hd0 hd1 =>
    obtain ⟨h1, ⟨h0, -⟩ | ⟨_, _, h0, hr1⟩⟩ := pipealloc_spec hI.fs h
    · cases h0
    · obtain ⟨rfl, rfl⟩ := Prod.mk.inj (Option.some.inj h0)
      refine hI.setOfile _ hp h1 fun g => ?_
      rw [hr1, Ofile.count_fdalloc hd1, Ofile.count_fdalloc hd0]
      omega

/-! ## Whole runs -/

theorem boot_fileInv (h : Boot k) : FileInv k := by
  obtain ⟨m0, root, tf, pt0, pt, m1, m2, m, -, -, -, -, -, hfs, -, hproc⟩ := boot_inv h
  have hcwd : ∀ q, (k.proc q).cwd = if q = k.initproc then some root else none := fun q => by
    rw [hproc, Function.update_apply]
    split_ifs <;> rfl
  have hof : ∀ q fd, (k.proc q).ofile fd = none := fun q fd => by
    rw [hproc, Function.update_apply]
    split_ifs <;> rfl
  refine ⟨?_, fun f => ?_, fun q hq => ⟨hof q, ?_⟩⟩
  · have hcw : k.cwds = fun i => if root = i then 1 else 0 := by
      funext i
      have h1 : ∀ q, ((k.proc q).cwd = some i) ↔ (q = k.initproc ∧ root = i) := fun q => by
        rw [hcwd]
        split_ifs with hq <;> simp [hq]
      simp only [Kernel.cwds, h1]
      by_cases hi : root = i
      · simp [hi]
      · simp [hi]
    have h0 : FsInv (Kernel.zero m0).fs (fun _ => 0) := by
      refine ⟨fun f => le_rfl, fun f _ => rfl, ?_, ?_, ?_, ?_, ?_, fun i _ => rfl, fun i => ?_⟩
      · intro f g i w h
        cases h.1
      · intro i _ f w h
        cases h.1
      · intro i P hP
        cases hP
      · intro i P hP
        cases hP
      · intro i P hP
        cases hP
      · simp [Kernel.zero, Files.onInode, File.OnInode, File.zero]
    rw [hfs, hcw]
    simpa using h0.iget (i := root)
  · rw [hfs]
    simp only [Ofile.count_none (hof _), Finset.sum_const_zero]
    rfl
  · rw [hcwd]
    by_cases hqi : q = k.initproc
    · rw [hproc, hqi, Function.update_self] at hq
      rcases hq with h | h | h <;> cases h
    · rw [if_neg hqi]

/-- One step of the kernel keeps the counts. -/
theorem step_fileInv {a : Action} {o : Option ℤ} (hI : FileInv k) (h : Step k a o k') : FileInv k' := by
  have hA : ∀ as, FileInv (k.setAnswers as) := fun as => hI.same (.setAnswers k as)
  have hT : ∀ p as, FileInv (k.tidy p as) := fun p as => hI.same (.tidy k p as)
  cases step_inv h with
  | scheduler hp =>
    refine hI.same (FileSame.setProc k.mem ⟨rfl, rfl, ?_⟩)
    rintro (h | h | h)
    · cases h
    · cases h
    · exact .inr (.inr h)
  | yield hp =>
    refine hI.same (FileSame.setProc k.mem ⟨rfl, rfl, ?_⟩)
    rintro (h | h | h)
    · cases h
    · cases h
    · exact .inr (.inr h)
  | killed _ _ _ _ h => exact (hA _).closeFiles h
  | fault _ _ _ h =>
    refine FileInv.closeFiles ?_ h
    refine (hA _).same (FileSame.setProc (k := k.setAnswers _) (k.setAnswers _).mem ?_)
    exact ⟨rfl, rfl, FileSame.idle_of rfl rfl⟩
  | fork _ _ _ h => exact (hA _).fork h
  | exec hp _ _ h => exact (hA _).same (.execBegin (by exact hp) h)
  | sbrk _ _ _ h => exact (hA _).same (.grow h)
  | threadCreate _ _ _ h => exact (hA _).thread h
  | threadJoin hp _ _ h => exact (hA _).same (.join (by exact hp) h)
  | threadExit _ _ _ _ h => exact (hA _).closeFiles h
  | leaderExit _ _ _ _ h => exact (hA _).closeFiles h
  | exit _ _ _ _ h => exact (hA _).closeFiles h
  | wait hp _ _ h => exact (hA _).same (.wait (by exact hp) h)
  | kill _ _ _ => exact (hA _).same (.kill _ _)
  | file hp hfr _ _ h =>
    refine (hA _).file ?_ h
    rintro (h | h | h)
    · exact absurd (hp.symm.trans h) (by decide)
    · exact absurd (hp.symm.trans h) (by decide)
    · rw [Kernel.setAnswers_proc, hfr] at h
      cases h
  | resumeWait hp _ h => exact (hT _ _).same (.wait (by simpa [Kernel.tidy] using hp) h)
  | resumeJoin hp _ h => exact (hT _ _).same (.join (by simpa [Kernel.tidy] using hp) h)
  | resumeExit _ hfr => exact (hT _ _).same (.exitEnd (by simp [Kernel.tidy, hfr, Frame.dying]))
  | resumeThreadExit _ hfr h => exact (hT _ _).same (.threadExitEnd (by simp [Kernel.tidy, hfr, Frame.dying]) h)
  | resumeExec hp _ h => exact (hT _ _).same (.exec (by simpa [Kernel.tidy] using hp) h)

theorem run_fileInv {k0 : Kernel} {tr : Trace} {ok : Kernel → Action → Prop} (h0 : Boot k0) (h : Run Step ok k0 tr k) :
    FileInv k :=
  h.inv (boot_fileInv h0) fun _ _ _ _ hI _ hs => step_fileInv hI hs

/-! ## No panic -/

theorem FileInv.count_le (hI : FileInv k) (p : Slot) (f : FileId) : (k.proc p).ofile.count f ≤ (k.fs.ftable f).ref := by
  rw [hI.refs f]
  exact Finset.single_le_sum (f := fun q => (k.proc q).ofile.count f) (fun q _ => Ofile.count_nonneg _ f)
    (Finset.mem_univ p)

theorem FileInv.ref_pos (hI : FileInv k) {fd : Fin NOFILE} (h : (k.proc p).ofile fd = some f) :
    1 ≤ (k.fs.ftable f).ref :=
  (Ofile.count_pos h).trans (hI.count_le p f)

theorem FileInv.dupOk (hI : FileInv k) (p : Slot) : DupOk k p := fun _ _ h =>
  filedupAll_fails (hI.alloc h).1.fs fun g => (hI.alloc h).1.count_le p g

theorem FileInv.closeFiles_fails {fr : Frame} (hI : FileInv k) : Fails NotFile (Xv6.closeFiles k p fr) :=
  (filecloseAll_fails hI.fs fun g => hI.count_le p g).bind fun _ _ => .ok _

theorem FileInv.exit_fails {st : ℤ} (hI : FileInv k) : Fails NotFile (exit k p st) := by
  unfold exit
  split_ifs
  · exact .error (by decide)
  · exact .error (by decide)
  · exact hI.closeFiles_fails

theorem FileInv.threadExit_fails (hI : FileInv k) : Fails NotFile (threadExit k p) := by
  unfold threadExit
  split_ifs
  · exact hI.closeFiles_fails
  · exact hI.exit_fails

theorem FileInv.sysOpen_fails {path : Option InodeRef} {omode : ℕ} (hI : FileInv k) :
    Fails NotFile (sysOpen k p path omode) := by
  unfold sysOpen
  split
  · exact .ok _
  dsimp only
  split
  · exact .ok _
  split
  · exact .ok _
  split
  · exact .ok _
  rename_i f fs ha
  split
  · refine (fileclose_fails ?_).bind fun _ _ => .ok _
    obtain ⟨-, hz, -, hr⟩ := filealloc_spec hI.fs.iget ha
    rw [hr, hz, if_pos rfl]
    decide
  · exact .ok _

theorem FileInv.sysDup_fails {n : ℤ} (hI : FileInv k) : Fails NotFile (sysDup k p n) := by
  unfold sysDup
  split
  · exact .ok _
  rename_i hf
  split
  · exact .ok _
  · exact (filedup_fails (hI.ref_pos (argfd_some hf))).bind fun _ _ => .ok _

theorem FileInv.sysClose_fails {n : ℤ} (hI : FileInv k) : Fails NotFile (sysClose k p n) := by
  unfold sysClose
  split
  · exact .ok _
  rename_i hf
  exact (fileclose_fails (hI.ref_pos (argfd_some hf))).bind fun _ _ => .ok _

theorem FileInv.sysPipe_fails {a : ℕ} (hI : FileInv k) : Fails NotFile (sysPipe k p a) := by
  refine (pipealloc_fails hI.fs).bind fun ⟨x, fs, m⟩ ha => ?_
  rcases x with _ | ⟨rf, wf⟩
  · exact .ok _
  obtain ⟨hfs, ⟨h0, -⟩ | ⟨_, _, h0, hr⟩⟩ := pipealloc_spec hI.fs ha
  · cases h0
  obtain ⟨rfl, rfl⟩ := Prod.mk.inj (Option.some.inj h0)
  have hbad : ∀ m, Fails NotFile (pipeBad k rf wf fs m) := by
    intro m
    have h1 := hI.fs.nonneg rf
    have h2 := hI.fs.nonneg wf
    refine (fileclose_fails ?_).bind fun ⟨fs1, m1⟩ hc => (fileclose_fails ?_).bind fun _ _ => .ok _
    · rw [hr, if_pos rfl]
      split_ifs <;> omega
    · obtain ⟨-, -, hr1⟩ := fileclose_spec hfs hc
      rw [hr1, hr, if_pos rfl]
      split_ifs <;> omega
  dsimp only
  split
  · exact hbad _
  split
  · exact hbad _
  split
  · exact .error (by decide)
  split
  · exact hbad _
  split
  · exact hbad _
  · exact .ok _

theorem FileInv.syscall_fails {c : Syscall} (hI : FileInv k) (hp : (k.proc p).state ≠ .unused) :
    Fails NotFile (syscall k p c) := by
  cases c with
  | fork => exact (fork_fails hp (hI.dupOk p)).bind fun _ _ => .ok _
  | exec b => exact execBegin_fails
  | sbrk n => exact Fails.bind (growproc_fails.bind fun _ _ => .ok _) fun _ _ => .ok _
  | threadCreate fn arg retfn => exact (threadCreate_fails hp (hI.dupOk p)).bind fun _ _ => .ok _
  | threadJoin tid => exact joinRound_fails
  | threadExit => exact hI.threadExit_fails.bind fun _ _ => .ok _
  | exit st => exact hI.exit_fails.bind fun _ _ => .ok _
  | wait addr => exact waitRound_fails
  | kill pid => exact .ok _
  | «open» path omode => exact hI.sysOpen_fails.bind fun _ _ => .ok _
  | dup fd => exact hI.sysDup_fails.bind fun _ _ => .ok _
  | close fd => exact hI.sysClose_fails.bind fun _ _ => .ok _
  | pipe a => exact hI.sysPipe_fails.bind fun _ _ => .ok _

/-- **No step meets a panic of the file table.** -/
theorem FileInv.step_fails {a : Action} (hI : FileInv k) (ha : a.enabled k = true) : Fails NotFile (step k a) := by
  have hA : ∀ as, FileInv (k.setAnswers as) := fun as => hI.same (.setAnswers k as)
  cases a with
  | scheduler p => exact .ok _
  | yield p => exact .ok _
  | syscall p c as =>
    have hp : (k.proc p).state = .running := by
      simp only [Action.enabled, Bool.and_eq_true, decide_eq_true_eq] at ha
      exact ha.1
    unfold step
    dsimp only
    split_ifs
    · exact (hA as).exit_fails.bind fun _ _ => .ok _
    · exact (hA as).syscall_fails (by simp [hp])
  | fault p as =>
    refine Fails.bind (FileInv.exit_fails ?_) fun _ _ => .ok _
    refine (hA as).same (FileSame.setProc (k := k.setAnswers as) (k.setAnswers as).mem ?_)
    exact ⟨rfl, rfl, FileSame.idle_of rfl rfl⟩
  | resume p inp as =>
    unfold step resume
    dsimp only
    split
    · exact .ok _
    · exact waitRound_fails
    · exact joinRound_fails
    · exact .ok _
    · exact threadExitEnd_fails.bind fun _ _ => .ok _
    · split
      · exact execSeg_fails
      · exact execEnd_fails

/-! ## The result -/

/-- The descriptors of processes in use that stand for `f`. -/
def Kernel.descriptors (k : Kernel) (f : FileId) : Finset (Slot × Fin NOFILE) :=
  Finset.univ.filter fun x => (k.proc x.1).state ≠ .unused ∧ (k.proc x.1).ofile x.2 = some f

theorem FileInv.ref_eq (hI : FileInv k) (f : FileId) : (k.fs.ftable f).ref = (k.descriptors f).card := by
  rw [hI.refs f]
  have h : ∀ p fd, ((k.proc p).state ≠ .unused ∧ (k.proc p).ofile fd = some f) ↔ (k.proc p).ofile fd = some f := by
    intro p fd
    refine ⟨fun h => h.2, fun h => ⟨fun hu => ?_, h⟩⟩
    exact absurd ((hI.idle p (.inl hu)).1 fd ▸ h) (by simp)
  simp only [Kernel.descriptors, h, Finset.card_filter, Ofile.count, tally]
  push_cast
  rw [Fintype.sum_prod_type]

theorem FileInv.type_ne_none (hI : FileInv k) (h : (k.fs.ftable f).type ≠ .none) : (k.descriptors f).Nonempty := by
  by_contra hne
  have h0 := hI.ref_eq f
  rw [Finset.not_nonempty_iff_eq_empty.mp hne] at h0
  exact h (hI.fs.free f h0)

/-- Somebody holds a descriptor of the end `w` of pipe `i`. -/
def Kernel.HoldsEnd (k : Kernel) (i : ℕ) (w : Bool) : Prop := ∃ f, k.fs.IsEnd f i w ∧ (k.descriptors f).Nonempty

theorem FileInv.holdsEnd_iff (hI : FileInv k) (i : ℕ) (w : Bool) : k.HoldsEnd i w ↔ ∃ f, k.fs.IsEnd f i w :=
  ⟨fun ⟨f, hf, _⟩ => ⟨f, hf⟩, fun ⟨f, hf⟩ => ⟨f, hf, hI.type_ne_none (by simp [hf.1])⟩⟩

/-- The files that stand for inode `i` and that somebody holds a descriptor of. -/
def Kernel.openOn (k : Kernel) (i : ℕ) : Finset FileId :=
  Finset.univ.filter fun f => (k.fs.ftable f).OnInode i ∧ (k.descriptors f).Nonempty

theorem FileInv.onInode_eq (hI : FileInv k) (i : ℕ) : k.fs.onInode i = (k.openOn i).card := by
  have h : ∀ f, ((k.fs.ftable f).OnInode i ∧ (k.descriptors f).Nonempty) ↔ (k.fs.ftable f).OnInode i := fun f =>
    ⟨fun h => h.1, fun h => ⟨h, hI.type_ne_none fun ht => File.not_onInode ht i h⟩⟩
  simp only [Kernel.openOn, h, Finset.card_filter, Files.onInode]
  push_cast
  rfl

instance : NeZero NFILE := ⟨by decide⟩

end OsLabs.Xv6
