import OsLabs.Tally
import OsLabs.Xv6.Panics
import OsLabs.Xv6.Steps

/-!
# OsLabs.Xv6.FileSpec — what the file table promises

`FsInv fs cw` ties the file table to the pipes and to the inode counts: a file without references stands for nothing, an end
of a pipe is open exactly when some file stands for it, a pipe exists exactly when one of its ends is open, and the count of
an inode is the number of files and of current directories (`cw`) that name it.  One spec lemma per operation says that it is kept and how the
reference counts change.
-/

namespace OsLabs.Xv6

open Fallible Tally

variable {fs fs' : Files} {f g : FileId} {m m' : Kmem} {cw : ℕ → ℤ}

/-- File `f` stands for the read end (`w` false) or the write end (`w` true) of pipe `i`. -/
def Files.IsEnd (fs : Files) (f : FileId) (i : ℕ) (w : Bool) : Prop :=
  (fs.ftable f).type = .pipe ∧ (fs.ftable f).pipe = i ∧ (fs.ftable f).writable = w

/-- A file that stands for the inode `i`. -/
def File.OnInode (F : File) (i : ℕ) : Prop := (F.type = .inode ∨ F.type = .device) ∧ F.ip = i

instance (F : File) (i : ℕ) : Decidable (F.OnInode i) :=
  inferInstanceAs (Decidable ((F.type = .inode ∨ F.type = .device) ∧ F.ip = i))

/-- How many files stand for the inode `i`. -/
def Files.onInode (fs : Files) (i : ℕ) : ℤ := ∑ f, if (fs.ftable f).OnInode i then 1 else 0

structure FsInv (fs : Files) (cw : ℕ → ℤ) : Prop where
  nonneg : ∀ f, 0 ≤ (fs.ftable f).ref
  free : ∀ f, (fs.ftable f).ref = 0 → (fs.ftable f).type = .none
  unique : ∀ f g i w, fs.IsEnd f i w → fs.IsEnd g i w → f = g
  noPipe : ∀ i, fs.pipe i = none → ∀ f w, ¬ fs.IsEnd f i w
  reads : ∀ i P, fs.pipe i = some P → (P.readopen = true ↔ ∃ f, fs.IsEnd f i false)
  writes : ∀ i P, fs.pipe i = some P → (P.writeopen = true ↔ ∃ f, fs.IsEnd f i true)
  isOpen : ∀ i P, fs.pipe i = some P → P.readopen = true ∨ P.writeopen = true
  fresh : ∀ i, fs.nextPipe ≤ i → fs.pipe i = none
  inode : ∀ i, fs.iref i = fs.onInode i + cw i

namespace Files

@[simp] theorem setFile_self (fs : Files) (f : FileId) (F : File) : (fs.setFile f F).ftable f = F := by simp [setFile]

theorem setFile_of_ne (fs : Files) (F : File) (h : g ≠ f) : (fs.setFile f F).ftable g = fs.ftable g := by
  simp [setFile, Function.update_of_ne h]

theorem isEnd_setFile_of_ne (F : File) (h : g ≠ f) (i : ℕ) (w : Bool) : (fs.setFile f F).IsEnd g i w ↔ fs.IsEnd g i w := by
  simp only [IsEnd, setFile_of_ne fs F h]

/-- A file that stood for nothing stands for inode `i` now, or the other way round. -/
theorem onInode_setFile (fs : Files) (f : FileId) (F : File) (i : ℕ) :
    (fs.setFile f F).onInode i + (if (fs.ftable f).OnInode i then 1 else 0) =
      fs.onInode i + (if F.OnInode i then 1 else 0) := by
  have h := sum_write (f := fun g => if (fs.ftable g).OnInode i then (1 : ℤ) else 0)
    (g := fun g => if ((fs.setFile f F).ftable g).OnInode i then (1 : ℤ) else 0) (i := f)
    fun j hj => by rw [setFile_of_ne fs F hj]
  rw [setFile_self] at h
  exact h

end Files

/-- A write to the table that changes no more than a reference count. -/
theorem FsInv.setRef (hI : FsInv fs cw) {n : ℤ} (h0 : 0 ≤ n) (hn : n = 0 → (fs.ftable f).type = .none) :
    FsInv (fs.setFile f { fs.ftable f with ref := n }) cw := by
  have hend : ∀ g i w, (fs.setFile f { fs.ftable f with ref := n }).IsEnd g i w ↔ fs.IsEnd g i w := by
    intro g i w
    by_cases hg : g = f
    · subst hg
      simp [Files.IsEnd]
    · exact Files.isEnd_setFile_of_ne _ hg i w
  refine ⟨?_, ?_, ?_, ?_, ?_, ?_, hI.isOpen, hI.fresh, ?_⟩
  · intro g
    by_cases hg : g = f
    · subst hg
      simpa using h0
    · rw [Files.setFile_of_ne fs _ hg]
      exact hI.nonneg g
  · intro g
    by_cases hg : g = f
    · subst hg
      simpa using hn
    · rw [Files.setFile_of_ne fs _ hg]
      exact hI.free g
  · intro g g' i w h1 h2
    exact hI.unique g g' i w ((hend g i w).mp h1) ((hend g' i w).mp h2)
  · intro i hi g w h1
    exact hI.noPipe i hi g w ((hend g i w).mp h1)
  · intro i P hP
    simp only [hend]
    exact hI.reads i P hP
  · intro i P hP
    simp only [hend]
    exact hI.writes i P hP
  · intro i
    have h : (fs.setFile f { fs.ftable f with ref := n }).onInode i = fs.onInode i :=
      add_right_cancel (fs.onInode_setFile f { fs.ftable f with ref := n } i)
    rw [h]
    exact hI.inode i

theorem filealloc_inv (h : filealloc fs = some (f, fs')) :
    (fs.ftable f).ref = 0 ∧ fs' = fs.setFile f { fs.ftable f with ref := 1 } := by
  unfold filealloc at h
  split at h
  · cases h
  · rename_i g hg
    obtain ⟨rfl, rfl⟩ := Prod.mk.inj (Option.some.inj h)
    exact ⟨by simpa using List.find?_some hg, rfl⟩

/-- `filealloc` hands out a file that stands for nothing yet, with one reference. -/
theorem filealloc_spec (hI : FsInv fs cw) (h : filealloc fs = some (f, fs')) :
    FsInv fs' cw ∧ (fs.ftable f).ref = 0 ∧ (fs'.ftable f).type = .none ∧
    ∀ g, (fs'.ftable g).ref = (fs.ftable g).ref + if g = f then 1 else 0 := by
  obtain ⟨h0, rfl⟩ := filealloc_inv h
  refine ⟨hI.setRef (by decide) (by simp), h0, by simpa using hI.free f h0, fun g => ?_⟩
  by_cases hg : g = f
  · subst hg
    simp [h0]
  · rw [Files.setFile_of_ne fs _ hg, if_neg hg, add_zero]

theorem filedup_spec (hI : FsInv fs cw) (h : filedup f fs = .ok fs') :
    FsInv fs' cw ∧ ∀ g, (fs'.ftable g).ref = (fs.ftable g).ref + if g = f then 1 else 0 := by
  unfold filedup at h
  split_ifs at h with h1
  obtain rfl := Except.ok.inj h
  refine ⟨hI.setRef (by omega) (by omega), fun g => ?_⟩
  by_cases hg : g = f
  · subst hg
    simp
  · rw [Files.setFile_of_ne fs _ hg, if_neg hg, add_zero]

/-! ## Closing -/

/-- The table after the last reference to `f` went: the file stands for nothing. -/
theorem Files.isEnd_cleared {F : File} (hF : F.type = .none) (g : FileId) (i : ℕ) (w : Bool) :
    (fs.setFile f F).IsEnd g i w ↔ g ≠ f ∧ fs.IsEnd g i w := by
  by_cases hg : g = f
  · subst hg
    simp [Files.IsEnd, hF]
  · rw [Files.isEnd_setFile_of_ne F hg]
    simp [hg]

theorem File.not_onInode {F : File} (hF : F.type = .none) (i : ℕ) : ¬ F.OnInode i := by
  simp [File.OnInode, hF]

/-- The last reference to a file that stood for the end `w` of pipe `i` went, and `pipe i` is now `x`. -/
theorem FsInv.closeEnd {F : File} {i : ℕ} {w : Bool} {P : Pipe} {x : Option Pipe} (hI : FsInv fs cw)
    (hF : F.type = .none) (hF0 : F.ref = 0) (hf : fs.IsEnd f i w) (hP : fs.pipe i = some P)
    (hx : x = if w then (if P.readopen then some { P with writeopen := false } else none)
      else (if P.writeopen then some { P with readopen := false } else none)) :
    FsInv ((fs.setFile f F).setPipe i x) cw := by
  have hend : ∀ g j v, ((fs.setFile f F).setPipe i x).IsEnd g j v ↔ g ≠ f ∧ fs.IsEnd g j v :=
    Files.isEnd_cleared hF
  have hpipe : ∀ j, j ≠ i → ((fs.setFile f F).setPipe i x).pipe j = fs.pipe j := fun j hj => by
    simp [Files.setPipe, Files.setFile, hj]
  have hpipei : ((fs.setFile f F).setPipe i x).pipe i = x := by simp [Files.setPipe]
  -- the end `w` of pipe `i` has no file any more; every other end has the files it had
  have hgone : ¬ ∃ g, g ≠ f ∧ fs.IsEnd g i w := by
    rintro ⟨g, hg, hge⟩
    exact hg (hI.unique g f i w hge hf)
  have hother : ∀ j v, (j, v) ≠ (i, w) → ((∃ g, g ≠ f ∧ fs.IsEnd g j v) ↔ ∃ g, fs.IsEnd g j v) := by
    intro j v hjv
    refine ⟨fun ⟨g, _, hg⟩ => ⟨g, hg⟩, fun ⟨g, hg⟩ => ⟨g, ?_, hg⟩⟩
    rintro rfl
    exact hjv (by rw [← hg.2.1, ← hf.2.1, ← hg.2.2, ← hf.2.2])
  refine ⟨?_, ?_, ?_, ?_, ?_, ?_, ?_, ?_, ?_⟩
  · intro g
    by_cases hg : g = f
    · subst hg
      simp [Files.setPipe, hF0]
    · simpa [Files.setPipe, Files.setFile_of_ne fs F hg] using hI.nonneg g
  · intro g
    by_cases hg : g = f
    · subst hg
      simp [Files.setPipe, hF]
    · simpa [Files.setPipe, Files.setFile_of_ne fs F hg] using hI.free g
  · intro g g' j v h1 h2
    exact hI.unique g g' j v ((hend g j v).mp h1).2 ((hend g' j v).mp h2).2
  · intro j hj g v hg
    rw [hend] at hg
    by_cases hji : j = i
    · subst hji
      rw [hpipei, hx] at hj
      by_cases hv : v = w
      · subst hv
        exact hgone ⟨g, hg⟩
      · have hno : ¬ ∃ g, fs.IsEnd g j v := by
          cases w with
          | true =>
            obtain rfl : v = false := by simpa using hv
            rw [← hI.reads j P hP]
            intro hr
            simp [hr] at hj
          | false =>
            obtain rfl : v = true := by simpa using hv
            rw [← hI.writes j P hP]
            intro hr
            simp [hr] at hj
        exact hno ⟨g, hg.2⟩
    · rw [hpipe j hji] at hj
      exact hI.noPipe j hj g v hg.2
  · intro j Q hQ
    simp only [hend]
    by_cases hji : j = i
    · subst hji
      rw [hpipei, hx] at hQ
      cases w with
      | true =>
        rw [hother j false (by simp), ← hI.reads j P hP]
        simp only [if_true] at hQ
        split_ifs at hQ with hr
        obtain rfl := Option.some.inj hQ
        rfl
      | false =>
        simp only [Bool.false_eq_true, if_false] at hQ
        split_ifs at hQ with hr
        obtain rfl := Option.some.inj hQ
        simpa using hgone
    · rw [hpipe j hji] at hQ
      rw [hother j false (by simp [hji])]
      exact hI.reads j Q hQ
  · intro j Q hQ
    simp only [hend]
    by_cases hji : j = i
    · subst hji
      rw [hpipei, hx] at hQ
      cases w with
      | true =>
        simp only [if_true] at hQ
        split_ifs at hQ with hr
        obtain rfl := Option.some.inj hQ
        simpa using hgone
      | false =>
        rw [hother j true (by simp), ← hI.writes j P hP]
        simp only [Bool.false_eq_true, if_false] at hQ
        split_ifs at hQ with hr
        obtain rfl := Option.some.inj hQ
        rfl
    · rw [hpipe j hji] at hQ
      rw [hother j true (by simp [hji])]
      exact hI.writes j Q hQ
  · intro j Q hQ
    by_cases hji : j = i
    · subst hji
      rw [hpipei, hx] at hQ
      cases w with
      | true =>
        simp only [if_true] at hQ
        split_ifs at hQ with hr
        obtain rfl := Option.some.inj hQ
        exact .inl hr
      | false =>
        simp only [Bool.false_eq_true, if_false] at hQ
        split_ifs at hQ with hr
        obtain rfl := Option.some.inj hQ
        exact .inr hr
    · rw [hpipe j hji] at hQ
      exact hI.isOpen j Q hQ
  · intro j hj
    have hji : j ≠ i := by
      rintro rfl
      exact absurd (hP.symm.trans (hI.fresh j hj)) (by simp)
    rw [hpipe j hji]
    exact hI.fresh j hj
  · intro j
    have h := fs.onInode_setFile f F j
    have hfi : ¬ (fs.ftable f).OnInode j := by simp [File.OnInode, hf.1]
    rw [if_neg hfi, if_neg (File.not_onInode hF j), add_zero, add_zero] at h
    show fs.iref j = (fs.setFile f F).onInode j + cw j
    rw [h]
    exact hI.inode j

/-- What `pipeclose` leaves of the pipe: nothing when the other end is closed too. -/
theorem pipeclose_inv {i : ℕ} {w : Bool} (h : pipeclose i w fs m = .ok (fs', m')) :
    ∃ P, fs.pipe i = some P ∧
      fs' = fs.setPipe i (if w then (if P.readopen then some { P with writeopen := false } else none)
        else (if P.writeopen then some { P with readopen := false } else none)) := by
  unfold pipeclose at h
  split at h
  · cases h
  rename_i P hP
  refine ⟨P, hP, ?_⟩
  dsimp only at h
  cases w with
  | true =>
    simp only [if_true, and_true] at h ⊢
    split_ifs at h with hr
    · rw [bind_ok] at h
      obtain ⟨m1, -, h⟩ := h
      obtain ⟨rfl, -⟩ := Prod.mk.inj (Except.ok.inj h)
      simp [hr]
    · obtain ⟨rfl, -⟩ := Prod.mk.inj (Except.ok.inj h)
      simp [hr]
  | false =>
    simp only [Bool.false_eq_true, if_false, true_and] at h ⊢
    split_ifs at h with hr
    · rw [bind_ok] at h
      obtain ⟨m1, -, h⟩ := h
      obtain ⟨rfl, -⟩ := Prod.mk.inj (Except.ok.inj h)
      simp [hr]
    · obtain ⟨rfl, -⟩ := Prod.mk.inj (Except.ok.inj h)
      simp [hr]

/-- A file that is no end of a pipe is written; the count of its inode follows. -/
theorem FsInv.setPlain {F : File} {r c : ℕ → ℤ} (hI : FsInv fs cw) (hf : (fs.ftable f).type ≠ .pipe)
    (hF : F.type ≠ .pipe) (h0 : 0 ≤ F.ref) (hn : F.ref = 0 → F.type = .none)
    (hr : ∀ i, r i - c i + (if (fs.ftable f).OnInode i then 1 else 0) =
      fs.iref i - cw i + (if F.OnInode i then 1 else 0)) :
    FsInv { fs.setFile f F with iref := r } c := by
  have hend : ∀ g j v, ({ fs.setFile f F with iref := r } : Files).IsEnd g j v ↔ fs.IsEnd g j v := by
    intro g j v
    by_cases hg : g = f
    · subst hg
      have h1 : ¬ ({ fs.setFile g F with iref := r } : Files).IsEnd g j v := fun h => hF (by simpa using h.1)
      exact ⟨fun h => absurd h h1, fun h => absurd h.1 hf⟩
    · exact Files.isEnd_setFile_of_ne F hg j v
  refine ⟨?_, ?_, ?_, ?_, ?_, ?_, hI.isOpen, hI.fresh, ?_⟩
  · intro g
    by_cases hg : g = f
    · subst hg
      simpa using h0
    · simpa [Files.setFile_of_ne fs F hg] using hI.nonneg g
  · intro g
    by_cases hg : g = f
    · subst hg
      simpa using hn
    · simpa [Files.setFile_of_ne fs F hg] using hI.free g
  · intro g g' j v h1 h2
    exact hI.unique g g' j v ((hend g j v).mp h1) ((hend g' j v).mp h2)
  · intro j hj g v hg
    exact hI.noPipe j hj g v ((hend g j v).mp hg)
  · intro j Q hQ
    simp only [hend]
    exact hI.reads j Q hQ
  · intro j Q hQ
    simp only [hend]
    exact hI.writes j Q hQ
  · intro j
    have h1 := fs.onInode_setFile f F j
    have h2 := hI.inode j
    have h3 := hr j
    show r j = (fs.setFile f F).onInode j + c j
    omega

/-- **`fileclose`** drops one reference, and with the last one what the file stood for. -/
theorem fileclose_spec (hI : FsInv fs cw) (h : fileclose f fs m = .ok (fs', m')) :
    FsInv fs' cw ∧ 1 ≤ (fs.ftable f).ref ∧
    ∀ g, (fs'.ftable g).ref = (fs.ftable g).ref - if g = f then 1 else 0 := by
  unfold fileclose at h
  dsimp only at h
  split_ifs at h with h1 h2
  · obtain ⟨rfl, -⟩ := Prod.mk.inj (Except.ok.inj h)
    refine ⟨hI.setRef (by omega) (by omega), by omega, fun g => ?_⟩
    by_cases hg : g = f
    · subst hg
      simp
    · rw [Files.setFile_of_ne fs _ hg, if_neg hg, sub_zero]
  · have hone : (fs.ftable f).ref = 1 := by omega
    have href : ∀ (F : File), F.ref = 0 → ∀ g, ((fs.setFile f F).ftable g).ref =
        (fs.ftable g).ref - if g = f then 1 else 0 := by
      intro F hF g
      by_cases hg : g = f
      · subst hg
        simp [hF, hone]
      · rw [Files.setFile_of_ne fs _ hg, if_neg hg, sub_zero]
    split at h
    · rename_i hty
      obtain ⟨P, hP, rfl⟩ := pipeclose_inv h
      exact ⟨hI.closeEnd rfl rfl ⟨hty, rfl, rfl⟩ hP rfl, by omega, href _ rfl⟩
    · rename_i hty
      obtain ⟨rfl, -⟩ := Prod.mk.inj (Except.ok.inj h)
      refine ⟨hI.setPlain (by simp [hty]) nofun le_rfl (fun _ => rfl) fun i => ?_, by omega, href _ rfl⟩
      by_cases hi : i = (fs.ftable f).ip
      · subst hi
        simp [File.OnInode, hty, Files.setFile]
        omega
      · simp [File.OnInode, Ne.symm hi, Files.setFile, hi]
    · rename_i hty
      obtain ⟨rfl, -⟩ := Prod.mk.inj (Except.ok.inj h)
      refine ⟨hI.setPlain (by simp [hty]) nofun le_rfl (fun _ => rfl) fun i => ?_, by omega, href _ rfl⟩
      by_cases hi : i = (fs.ftable f).ip
      · subst hi
        simp [File.OnInode, hty, Files.setFile]
        omega
      · simp [File.OnInode, Ne.symm hi, Files.setFile, hi]
    · rename_i hty
      obtain ⟨rfl, -⟩ := Prod.mk.inj (Except.ok.inj h)
      refine ⟨hI.setPlain (r := fs.iref) (by simp [hty]) nofun le_rfl (fun _ => rfl) fun i => ?_, by omega, href _ rfl⟩
      simp [File.OnInode, hty]

/-! ## Pipes and inodes -/

/-- Two files that stood for nothing become the ends of a new pipe. -/
theorem FsInv.openPipe {f0 f1 : FileId} {F0 F1 : File} {pa : Pa} (hI : FsInv fs cw) (hne : f0 ≠ f1)
    (h0 : (fs.ftable f0).type = .none) (h1 : (fs.ftable f1).type = .none) (hr0 : 0 < F0.ref) (hr1 : 0 < F1.ref)
    (ht0 : F0.type = .pipe) (ht1 : F1.type = .pipe) (hw0 : F0.writable = false) (hw1 : F1.writable = true)
    (hp0 : F0.pipe = fs.nextPipe) (hp1 : F1.pipe = fs.nextPipe) :
    FsInv (({ fs.setPipe fs.nextPipe (some ⟨pa, true, true⟩) with nextPipe := fs.nextPipe + 1 } : Files).setFile f0 F0
      |>.setFile f1 F1) cw := by
  set n := fs.nextPipe with hn
  have hnone : fs.pipe n = none := hI.fresh n le_rfl
  set fs1 : Files := { fs.setPipe n (some ⟨pa, true, true⟩) with nextPipe := n + 1 } with hfs1
  have hf0 : ((fs1.setFile f0 F0).setFile f1 F1).ftable f0 = F0 := by
    rw [Files.setFile_of_ne _ _ hne, Files.setFile_self]
  have hf1 : ((fs1.setFile f0 F0).setFile f1 F1).ftable f1 = F1 := Files.setFile_self _ _ _
  have hother : ∀ g, g ≠ f0 → g ≠ f1 → ((fs1.setFile f0 F0).setFile f1 F1).ftable g = fs.ftable g := fun g hg0 hg1 => by
    rw [Files.setFile_of_ne _ _ hg1, Files.setFile_of_ne _ _ hg0]
    rfl
  have hend : ∀ g j v, ((fs1.setFile f0 F0).setFile f1 F1).IsEnd g j v ↔
      (g = f0 ∧ j = n ∧ v = false) ∨ (g = f1 ∧ j = n ∧ v = true) ∨ fs.IsEnd g j v := by
    intro g j v
    by_cases hg0 : g = f0
    · subst hg0
      simp only [Files.IsEnd, hf0, ht0, hp0, hw0, true_and, h0, reduceCtorEq, false_and, or_false, hne]
      exact ⟨fun h => ⟨h.1.symm, h.2.symm⟩, fun h => ⟨h.1.symm, h.2.symm⟩⟩
    · by_cases hg1 : g = f1
      · subst hg1
        simp only [Files.IsEnd, hf1, ht1, hp1, hw1, true_and, h1, reduceCtorEq, false_and, or_false, hg0, false_or]
        exact ⟨fun h => ⟨h.1.symm, h.2.symm⟩, fun h => ⟨h.1.symm, h.2.symm⟩⟩
      · simp only [Files.IsEnd, hother g hg0 hg1, hg0, hg1, false_and, false_or]
  have hnoEnd : ∀ g v, ¬ fs.IsEnd g n v := hI.noPipe n hnone
  have hpipe : ∀ j, j ≠ n → ((fs1.setFile f0 F0).setFile f1 F1).pipe j = fs.pipe j := fun j hj => by
    simp [hfs1, Files.setFile, Files.setPipe, hj]
  have hpipen : ((fs1.setFile f0 F0).setFile f1 F1).pipe n = some ⟨pa, true, true⟩ := by
    simp [hfs1, Files.setFile, Files.setPipe]
  refine ⟨?_, ?_, ?_, ?_, ?_, ?_, ?_, ?_, ?_⟩
  · intro g
    by_cases hg0 : g = f0
    · rw [hg0, hf0]
      omega
    · by_cases hg1 : g = f1
      · rw [hg1, hf1]
        omega
      · rw [hother g hg0 hg1]
        exact hI.nonneg g
  · intro g hg
    by_cases hg0 : g = f0
    · rw [hg0, hf0] at hg
      omega
    · by_cases hg1 : g = f1
      · rw [hg1, hf1] at hg
        omega
      · rw [hother g hg0 hg1] at hg ⊢
        exact hI.free g hg
  · intro g g' j v h h'
    rw [hend] at h h'
    rcases h with ⟨rfl, rfl, rfl⟩ | ⟨rfl, rfl, rfl⟩ | h
    · rcases h' with ⟨rfl, -, -⟩ | ⟨-, -, h'⟩ | h'
      · rfl
      · cases h'
      · exact absurd h' (hnoEnd g' false)
    · rcases h' with ⟨-, -, h'⟩ | ⟨rfl, -, -⟩ | h'
      · cases h'
      · rfl
      · exact absurd h' (hnoEnd g' true)
    · rcases h' with ⟨-, rfl, -⟩ | ⟨-, rfl, -⟩ | h'
      · exact absurd h (hnoEnd g v)
      · exact absurd h (hnoEnd g v)
      · exact hI.unique g g' j v h h'
  · intro j hj g v h
    have hjn : j ≠ n := by
      rintro rfl
      exact absurd (hpipen.symm.trans hj) (by simp)
    rw [hpipe j hjn] at hj
    rw [hend] at h
    rcases h with ⟨-, h, -⟩ | ⟨-, h, -⟩ | h
    · exact hjn h
    · exact hjn h
    · exact hI.noPipe j hj g v h
  · intro j Q hQ
    simp only [hend]
    by_cases hjn : j = n
    · subst hjn
      obtain rfl := Option.some.inj (hpipen.symm.trans hQ)
      simp
    · rw [hpipe j hjn] at hQ
      simpa [hjn] using hI.reads j Q hQ
  · intro j Q hQ
    simp only [hend]
    by_cases hjn : j = n
    · subst hjn
      obtain rfl := Option.some.inj (hpipen.symm.trans hQ)
      simp
    · rw [hpipe j hjn] at hQ
      simpa [hjn] using hI.writes j Q hQ
  · intro j Q hQ
    by_cases hjn : j = n
    · subst hjn
      obtain rfl := Option.some.inj (hpipen.symm.trans hQ)
      simp
    · rw [hpipe j hjn] at hQ
      exact hI.isOpen j Q hQ
  · intro j hj
    have hj' : n + 1 ≤ j := hj
    rw [hpipe j (by omega)]
    exact hI.fresh j (by omega)
  · intro j
    have e0 := fs1.onInode_setFile f0 F0 j
    have e1 := (fs1.setFile f0 F0).onInode_setFile f1 F1 j
    have hF0 : ¬ F0.OnInode j := by simp [File.OnInode, ht0]
    have hF1 : ¬ F1.OnInode j := by simp [File.OnInode, ht1]
    have hg1 : (fs1.setFile f0 F0).ftable f1 = fs.ftable f1 := Files.setFile_of_ne _ _ (Ne.symm hne)
    have hg0 : (fs1.ftable f0).type = .none := h0
    rw [if_neg (File.not_onInode hg0 j), if_neg hF0, add_zero, add_zero] at e0
    rw [hg1, if_neg (File.not_onInode h1 j), if_neg hF1, add_zero, add_zero] at e1
    show fs.iref j = _ + cw j
    rw [e1, e0]
    exact hI.inode j

/-- **`pipealloc`** hands out the two ends of a new pipe, or leaves the reference counts as they were. -/
theorem pipealloc_spec {r : Option (FileId × FileId)} (hI : FsInv fs cw) (h : pipealloc fs m = .ok (r, fs', m')) :
    FsInv fs' cw ∧ ((r = none ∧ ∀ g, (fs'.ftable g).ref = (fs.ftable g).ref) ∨
      ∃ f0 f1, r = some (f0, f1) ∧ ∀ g, (fs'.ftable g).ref =
        (fs.ftable g).ref + (if g = f0 then 1 else 0) + (if g = f1 then 1 else 0)) := by
  unfold pipealloc at h
  split at h
  · simp only [Except.ok.injEq, Prod.mk.injEq] at h
    obtain ⟨rfl, rfl, -⟩ := h
    exact ⟨hI, .inl ⟨rfl, fun _ => rfl⟩⟩
  rename_i f0 fs1 h0
  obtain ⟨hI1, -, ht0, hr0⟩ := filealloc_spec hI h0
  split at h
  · rw [bind_ok] at h
    obtain ⟨⟨fs2, m2⟩, hc, h⟩ := h
    simp only [Except.ok.injEq, Prod.mk.injEq] at h
    obtain ⟨rfl, rfl, -⟩ := h
    obtain ⟨hI2, -, hr2⟩ := fileclose_spec hI1 hc
    exact ⟨hI2, .inl ⟨rfl, fun g => by rw [hr2, hr0]; omega⟩⟩
  rename_i f1 fs2 h1
  obtain ⟨hI2, hz1, ht1, hr1⟩ := filealloc_spec hI1 h1
  have hne : f0 ≠ f1 := by
    rintro rfl
    have h2 := hr0 f0
    rw [if_pos rfl] at h2
    have h3 := hI.nonneg f0
    omega
  split at h
  · simp only [bind_ok] at h
    obtain ⟨⟨fs3, m3⟩, hc, ⟨fs4, m4⟩, hc', h⟩ := h
    simp only [Except.ok.injEq, Prod.mk.injEq] at h
    obtain ⟨rfl, rfl, -⟩ := h
    obtain ⟨hI3, -, hr3⟩ := fileclose_spec hI2 hc
    obtain ⟨hI4, -, hr4⟩ := fileclose_spec hI3 hc'
    exact ⟨hI4, .inl ⟨rfl, fun g => by rw [hr4, hr3, hr1, hr0]; omega⟩⟩
  · rename_i pa m3 hk
    simp only [Except.ok.injEq, Prod.mk.injEq] at h
    obtain ⟨rfl, rfl, -⟩ := h
    have ht0' : (fs2.ftable f0).type = .none := by
      obtain ⟨-, rfl⟩ := filealloc_inv h1
      rw [Files.setFile_of_ne _ _ hne]
      exact ht0
    have href : ∀ g, (fs2.ftable g).ref =
        (fs.ftable g).ref + (if g = f0 then 1 else 0) + (if g = f1 then 1 else 0) := fun g => by
      rw [hr1, hr0]
    have hpos0 : 0 < (fs2.ftable f0).ref := by
      have := hI.nonneg f0
      rw [href, if_pos rfl, if_neg hne]
      omega
    have hpos1 : 0 < (fs2.ftable f1).ref := by
      have := hI.nonneg f1
      rw [href, if_pos rfl, if_neg (Ne.symm hne)]
      omega
    refine ⟨hI2.openPipe hne ht0' ht1 hpos0 ?_ rfl rfl rfl rfl rfl rfl, .inr ⟨f0, f1, rfl, fun g => ?_⟩⟩
    · rw [Files.setFile_of_ne _ _ (Ne.symm hne)]
      exact hpos1
    · rw [← href g]
      by_cases hg1 : g = f1
      · subst hg1
        rw [Files.setFile_self, Files.setFile_of_ne _ _ (Ne.symm hne)]
        rfl
      · rw [Files.setFile_of_ne _ _ hg1]
        by_cases hg0 : g = f0
        · subst hg0
          rw [Files.setFile_self]
          rfl
        · rw [Files.setFile_of_ne _ _ hg0]
          rfl

/-- Only the counts of inodes change, together with the current directories. -/
theorem FsInv.setIref {r c : ℕ → ℤ} (hI : FsInv fs cw) (hr : ∀ i, r i - fs.iref i = c i - cw i) :
    FsInv { fs with iref := r } c := by
  refine ⟨hI.nonneg, hI.free, hI.unique, hI.noPipe, hI.reads, hI.writes, hI.isOpen, hI.fresh, fun i => ?_⟩
  have := hI.inode i
  have := hr i
  show r i = fs.onInode i + c i
  omega

/-! ## Descriptor tables -/

/-- The number of descriptors in `of` that stand for `f`. -/
def Ofile.count (of : Ofile) (f : FileId) : ℤ := tally of f

theorem Ofile.count_nonneg (of : Ofile) (f : FileId) : 0 ≤ of.count f := Int.natCast_nonneg _

theorem Ofile.count_none {of : Ofile} (h : ∀ fd, of fd = none) (f : FileId) : of.count f = 0 := by
  simp [Ofile.count, tally_none h]

theorem Ofile.count_pos {of : Ofile} {fd : Fin NOFILE} (h : of fd = some f) : 1 ≤ of.count f := by
  unfold Ofile.count
  exact_mod_cast tally_pos h

/-- A free descriptor is taken. -/
theorem Ofile.count_fdalloc {of of' : Ofile} {fd : Fin NOFILE} (h : fdalloc of f = some (fd, of')) (g : FileId) :
    of'.count g = of.count g + if g = f then 1 else 0 := by
  unfold fdalloc at h
  split at h
  · cases h
  · rename_i fd' hfd
    obtain ⟨rfl, rfl⟩ := Prod.mk.inj (Option.some.inj h)
    have hnone : of fd' = none := by simpa using List.find?_some hfd
    have := tally_write (f := of) (g := Function.update of fd' (some f)) (i := fd')
      (fun j hj => Function.update_of_ne hj _ _) g
    simp only [hnone, reduceCtorEq, if_false, add_zero, Function.update_self, Option.some.injEq] at this
    simp only [Ofile.count, this, Nat.cast_add, Nat.cast_ite, Nat.cast_one, Nat.cast_zero, eq_comm (a := f)]

/-- A descriptor is given up. -/
theorem Ofile.count_close {of : Ofile} {fd : Fin NOFILE} (h : of fd = some f) (g : FileId) :
    Ofile.count (Function.update of fd none) g = of.count g - if g = f then 1 else 0 := by
  have := tally_write (f := of) (g := Function.update of fd none) (i := fd)
    (fun j hj => Function.update_of_ne hj _ _) g
  simp only [h, Option.some.injEq, Function.update_self, reduceCtorEq, if_false, add_zero] at this
  simp only [Ofile.count, ← this, Nat.cast_add, Nat.cast_ite, Nat.cast_one, Nat.cast_zero, eq_comm (a := f)]
  omega

/-- One step of the `filedup` loop. -/
def dupStep (of : Ofile) (fs : Files) (fd : Fin NOFILE) : Except Panic Files :=
  match of fd with
  | none => .ok fs
  | some f => filedup f fs

theorem dupStep_spec {of : Ofile} {fd : Fin NOFILE} (hI : FsInv fs cw) (h : dupStep of fs fd = .ok fs') :
    FsInv fs' cw ∧ ∀ g, (fs'.ftable g).ref = (fs.ftable g).ref + if of fd = some g then 1 else 0 := by
  unfold dupStep at h
  split at h
  · rename_i hn
    obtain rfl := Except.ok.inj h
    exact ⟨hI, by simp [hn]⟩
  · rename_i f hf
    obtain ⟨hI', hr⟩ := filedup_spec hI h
    exact ⟨hI', fun g => by simp [hr, hf, eq_comm]⟩

theorem dupList_spec (of : Ofile) : ∀ {l : List (Fin NOFILE)} {fs fs' : Files}, FsInv fs cw →
    l.foldlM (dupStep of) fs = .ok fs' →
    FsInv fs' cw ∧ ∀ g, (fs'.ftable g).ref = (fs.ftable g).ref + (l.countP fun fd => of fd = some g)
  | [], fs, fs', hI, h => by
    rw [List.foldlM_nil, pure_ok] at h
    subst h
    exact ⟨hI, by simp⟩
  | fd :: l, fs, fs', hI, h => by
    rw [List.foldlM_cons, bind_ok] at h
    obtain ⟨fs1, h1, h2⟩ := h
    obtain ⟨hI1, hr1⟩ := dupStep_spec hI h1
    obtain ⟨hI2, hr2⟩ := dupList_spec of hI1 h2
    refine ⟨hI2, fun g => ?_⟩
    rw [hr2, hr1, List.countP_cons]
    by_cases hg : of fd = some g
    · simp [hg]
      omega
    · simp [hg]

/-- **The `filedup` loop** adds one reference for every descriptor. -/
theorem filedupAll_spec {of : Ofile} (hI : FsInv fs cw) (h : filedupAll of fs = .ok fs') :
    FsInv fs' cw ∧ ∀ g, (fs'.ftable g).ref = (fs.ftable g).ref + of.count g := by
  obtain ⟨hI', hr⟩ := dupList_spec of hI h
  exact ⟨hI', fun g => by rw [hr, Ofile.count, tally_eq_countP]⟩

/-- One step of the `fileclose` loop. -/
def closeStep (of : Ofile) (s : Files × Kmem) (fd : Fin NOFILE) : Except Panic (Files × Kmem) :=
  match of fd with
  | none => .ok s
  | some f => fileclose f s.1 s.2

theorem closeStep_spec {of : Ofile} {fd : Fin NOFILE} (hI : FsInv fs cw) (h : closeStep of (fs, m) fd = .ok (fs', m')) :
    FsInv fs' cw ∧ ∀ g, (fs'.ftable g).ref = (fs.ftable g).ref - if of fd = some g then 1 else 0 := by
  unfold closeStep at h
  split at h
  · rename_i hn
    obtain ⟨rfl, rfl⟩ := Prod.mk.inj (Except.ok.inj h)
    exact ⟨hI, by simp [hn]⟩
  · rename_i f hf
    obtain ⟨hI', -, hr⟩ := fileclose_spec hI h
    exact ⟨hI', fun g => by simp [hr, hf, eq_comm]⟩

theorem closeList_spec (of : Ofile) : ∀ {l : List (Fin NOFILE)} {fs fs' : Files} {m m' : Kmem}, FsInv fs cw →
    l.foldlM (closeStep of) (fs, m) = .ok (fs', m') →
    FsInv fs' cw ∧ ∀ g, (fs'.ftable g).ref = (fs.ftable g).ref - (l.countP fun fd => of fd = some g)
  | [], fs, fs', m, m', hI, h => by
    rw [List.foldlM_nil, pure_ok] at h
    obtain ⟨rfl, rfl⟩ := Prod.mk.inj h
    exact ⟨hI, by simp⟩
  | fd :: l, fs, fs', m, m', hI, h => by
    rw [List.foldlM_cons, bind_ok] at h
    obtain ⟨⟨fs1, m1⟩, h1, h2⟩ := h
    obtain ⟨hI1, hr1⟩ := closeStep_spec hI h1
    obtain ⟨hI2, hr2⟩ := closeList_spec of hI1 h2
    refine ⟨hI2, fun g => ?_⟩
    rw [hr2, hr1, List.countP_cons]
    by_cases hg : of fd = some g
    · simp [hg]
      omega
    · simp [hg]

/-- **The `fileclose` loop** drops one reference for every descriptor. -/
theorem filecloseAll_spec {of : Ofile} (hI : FsInv fs cw) (h : filecloseAll of fs m = .ok (fs', m')) :
    FsInv fs' cw ∧ ∀ g, (fs'.ftable g).ref = (fs.ftable g).ref - of.count g := by
  obtain ⟨hI', hr⟩ := closeList_spec of hI h
  exact ⟨hI', fun g => by rw [hr, Ofile.count, tally_eq_countP]⟩

/-! ## No panic -/

theorem filedup_fails (h : 1 ≤ (fs.ftable f).ref) : Fails NotFile (filedup f fs) := by
  unfold filedup
  rw [if_neg (by omega)]
  exact .ok _

theorem pipeclose_fails {i : ℕ} {w : Bool} : Fails NotFile (pipeclose i w fs m) := by
  unfold pipeclose
  split
  · exact .error (by decide)
  · dsimp only
    generalize (if w = true then _ else _ : Pipe) = P
    split_ifs
    · exact kfree_fails.bind fun _ _ => .ok _
    · exact .ok _

theorem fileclose_fails (h : 1 ≤ (fs.ftable f).ref) : Fails NotFile (fileclose f fs m) := by
  unfold fileclose
  dsimp only
  rw [if_neg (by omega)]
  split_ifs
  · exact .ok _
  · split
    · exact pipeclose_fails
    · exact .ok _
    · exact .ok _
    · exact .ok _

theorem pipealloc_fails (hI : FsInv fs cw) : Fails NotFile (pipealloc fs m) := by
  unfold pipealloc
  split
  · exact .ok _
  rename_i f0 fs1 h0
  obtain ⟨hI1, -, -, hr0⟩ := filealloc_spec hI h0
  have hnn := hI.nonneg f0
  have h01 : 1 ≤ (fs1.ftable f0).ref := by
    rw [hr0, if_pos rfl]
    omega
  split
  · exact (fileclose_fails h01).bind fun _ _ => .ok _
  rename_i f1 fs2 h1
  obtain ⟨hI2, -, -, hr1⟩ := filealloc_spec hI1 h1
  split
  · rename_i m1 _
    have h02 : 1 ≤ (fs2.ftable f0).ref := by
      rw [hr1]
      split_ifs <;> omega
    refine (fileclose_fails h02).bind fun ⟨fs3, m3⟩ hc => ?_
    obtain ⟨hI3, -, hr3⟩ := fileclose_spec hI2 hc
    refine Fails.bind (fileclose_fails ?_) fun _ _ => .ok _
    have hnn1 := hI1.nonneg f1
    have hz := (filealloc_inv h1).1
    have hne : f1 ≠ f0 := by
      rintro rfl
      omega
    rw [hr3, hr1, if_pos rfl, if_neg hne]
    omega
  · exact .ok _

/-- The `filedup` loop does not panic when every descriptor's file has a reference. -/
theorem filedupAll_fails {of : Ofile} (hI : FsInv fs cw) (h : ∀ g, of.count g ≤ (fs.ftable g).ref) :
    Fails NotFile (filedupAll of fs) := by
  have hpos : ∀ fd f, of fd = some f → 1 ≤ (fs.ftable f).ref := fun fd f hf => (Ofile.count_pos hf).trans (h f)
  refine Fails.foldlM (f := dupStep of) (I := fun s => FsInv s cw ∧ ∀ fd f, of fd = some f → 1 ≤ (s.ftable f).ref)
    ?_ ?_ ⟨hI, hpos⟩
  · intro s fd s' hs hd
    obtain ⟨hI', hr⟩ := dupStep_spec hs.1 hd
    refine ⟨hI', fun fd' f hf => ?_⟩
    have := hs.2 fd' f hf
    rw [hr]
    split_ifs <;> omega
  · intro s fd hs
    unfold dupStep
    split
    · exact .ok _
    · rename_i f hf
      exact filedup_fails (hs.2 fd f hf)

theorem closeList_fails (of : Ofile) : ∀ {l : List (Fin NOFILE)} {fs : Files} {m : Kmem}, FsInv fs cw →
    (∀ g, ((l.countP fun fd => of fd = some g : ℕ) : ℤ) ≤ (fs.ftable g).ref) →
    Fails NotFile (l.foldlM (closeStep of) (fs, m))
  | [], fs, m, _, _ => by
    rw [List.foldlM_nil]
    exact .ok _
  | fd :: l, fs, m, hI, h => by
    rw [List.foldlM_cons]
    refine Fails.bind ?_ fun ⟨fs1, m1⟩ h1 => ?_
    · unfold closeStep
      split
      · exact .ok _
      · rename_i f hf
        refine fileclose_fails ?_
        have := h f
        rw [List.countP_cons] at this
        simp only [hf, decide_true, if_true] at this
        push_cast at this
        show 1 ≤ (fs.ftable f).ref
        omega
    · obtain ⟨hI1, hr1⟩ := closeStep_spec hI h1
      refine closeList_fails of hI1 fun g => ?_
      have := h g
      rw [List.countP_cons] at this
      rw [hr1]
      by_cases hg : of fd = some g
      · simp only [hg, decide_true, if_true] at this ⊢
        push_cast at this
        omega
      · simp only [hg, decide_false, Bool.false_eq_true, if_false] at this ⊢
        push_cast at this
        omega

/-- The `fileclose` loop does not panic when every descriptor is counted. -/
theorem filecloseAll_fails {of : Ofile} (hI : FsInv fs cw) (h : ∀ g, of.count g ≤ (fs.ftable g).ref) :
    Fails NotFile (filecloseAll of fs m) :=
  closeList_fails of hI fun g => by
    have := h g
    rwa [Ofile.count, tally_eq_countP] at this

end OsLabs.Xv6
