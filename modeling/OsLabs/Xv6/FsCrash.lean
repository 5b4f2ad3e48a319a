import OsLabs.Xv6.FsFiles

/-!
# OsLabs.Xv6.FsCrash — what a crash leaves of the files (fs.c, log.c)

The disk of `FsFiles` is what `bread` shows.  Beside it stands `saved`, what the log has put on the disk: `commit` copies the blocks that
`log_write` has got, a buffer that it has not got may be recycled and read again, and after a crash `saved` is all there is.

* `Covered`: a call has changed nothing but what it has logged; `step_covered`.
* `CrashAbs`: the files now, and those of the last commit.
* `crash_refine`: every run, with crashes at any time between two calls, does that.
* `crash_owned`: the bit map that a crash leaves fits the files that it leaves.
-/

namespace OsLabs.Xv6.Inodes

open Lts (Run Ev always)

structure Machine where
  sys : Sys
  saved : Disk

inductive Event
  | call (a : Act)
  | commit
  | recycle (b : ℕ)
  | crash

/-- What `commit` writes: the blocks that have been logged. -/
def install (sb : Superblock) (d saved : Disk) : Disk where
  bit r := if bblock sb r ∈ d.logged then d.bit r else saved.bit r
  block b := if b ∈ d.logged then d.block b else saved.block b
  dinode i := if iblock sb i ∈ d.logged then d.dinode i else saved.dinode i
  logged := []

def mstep (sb : Superblock) (m : Machine) : Event → Option (Out × Machine)
  | .call a => (step sb m.sys a).map fun r => (r.1, ⟨r.2, m.saved⟩)
  | .commit => some (⟨0, []⟩, ⟨⟨m.sys.tab, { m.sys.d with logged := [] }⟩, install sb m.sys.d m.saved⟩)
  -- a buffer that the log has pinned stays
  | .recycle b =>
    if b ∈ m.sys.d.logged then none
    else some (⟨0, []⟩, ⟨⟨m.sys.tab, { m.sys.d with block := Function.update m.sys.d.block b (m.saved.block b) }⟩, m.saved⟩)
  | .crash => some (⟨0, []⟩, ⟨⟨m.saved.dinode, m.saved⟩, m.saved⟩)

def MStep (sb : Superblock) (m : Machine) (e : Event) (o : Out) (m' : Machine) : Prop := mstep sb m e = some (o, m')

/-- No copy from the caller's memory fails. -/
def Act.Copies : Act → Prop
  | .write _ _ n room _ => n ≤ room
  | .read _ _ _ _ => True
  | .trunc _ => True
  | .load _ => True

def Mapped (_ : Machine) : Event → Prop
  | .call a => a.Uints ∧ a.Copies
  | .commit => True
  | .recycle _ => True
  | .crash => True

instance copiesDecidable : ∀ a : Act, Decidable a.Copies
  | .write _ _ n room _ => inferInstanceAs (Decidable (n ≤ room))
  | .read _ _ _ _ => .isTrue trivial
  | .trunc _ => .isTrue trivial
  | .load _ => .isTrue trivial

instance mappedDecidable (m : Machine) : ∀ e, Decidable (Mapped m e)
  | .call a => @instDecidableAnd a.Uints a.Copies (uintsDecidable m.sys a) (copiesDecidable a)
  | .commit => .isTrue trivial
  | .recycle _ => .isTrue trivial
  | .crash => .isTrue trivial

/-- **The files with crashes**: what they hold now, and what they held at the last commit. -/
inductive CrashAbs : (ℕ → List ℕ) × (ℕ → List ℕ) → Event → Out → (ℕ → List ℕ) × (ℕ → List ℕ) → Prop
  | call {f f' g : ℕ → List ℕ} {a : Act} {o : Out} (h : AbsStep f a o f') : CrashAbs (f, g) (.call a) o (f', g)
  | commit {f g : ℕ → List ℕ} : CrashAbs (f, g) .commit ⟨0, []⟩ (f, f)
  | recycle {f g : ℕ → List ℕ} {b : ℕ} : CrashAbs (f, g) (.recycle b) ⟨0, []⟩ (f, g)
  | crash {f g : ℕ → List ℕ} : CrashAbs (f, g) .crash ⟨0, []⟩ (g, g)

variable {sb : Superblock} {first k n room b bn tot off tot' off' addr inum idx j : ℕ} {src : ℕ → ℕ} {ip ip' : Inode} {d d' d'' : Disk}

/-! ## What is changed is logged -/

/-- Between `d` and `d'` nothing has changed but what `log_write` has got. -/
structure Covered (sb : Superblock) (d d' : Disk) : Prop where
  sub : ∀ x ∈ d.logged, x ∈ d'.logged
  bit : ∀ r, bblock sb r ∉ d'.logged → d'.bit r = d.bit r
  block : ∀ b, b ∉ d'.logged → d'.block b = d.block b
  dinode : ∀ i, iblock sb i ∉ d'.logged → d'.dinode i = d.dinode i

namespace Covered

theorem refl (sb : Superblock) (d : Disk) : Covered sb d d := ⟨fun _ h => h, fun _ _ => rfl, fun _ _ => rfl, fun _ _ => rfl⟩

theorem trans (h : Covered sb d d') (h' : Covered sb d' d'') : Covered sb d d'' where
  sub x hx := h'.sub x (h.sub x hx)
  bit r hr := (h'.bit r hr).trans (h.bit r fun hm => hr (h'.sub _ hm))
  block b hb := (h'.block b hb).trans (h.block b fun hm => hb (h'.sub _ hm))
  dinode i hi := (h'.dinode i hi).trans (h.dinode i fun hm => hi (h'.sub _ hm))

/-- A block is changed, and then logged. -/
theorem logWrite (hl : d'.logged = d.logged) (hbit : ∀ r, bblock sb r ≠ b → d'.bit r = d.bit r) (hblock : ∀ x, x ≠ b → d'.block x = d.block x)
    (hdi : ∀ i, iblock sb i ≠ b → d'.dinode i = d.dinode i) : Covered sb d (logWrite d' b) where
  sub _ hx := List.mem_cons_of_mem _ (hl.symm ▸ hx)
  bit r hr := hbit r fun h => hr (h ▸ List.mem_cons_self)
  block x hx := hblock x fun h => hx (h ▸ List.mem_cons_self)
  dinode i hi := hdi i fun h => hi (h ▸ List.mem_cons_self)

/-- A bit of the bit map. -/
theorem mark (sb : Superblock) (d : Disk) (r : ℕ) (v : Bool) :
    Covered sb d (Inodes.logWrite { d with bit := Function.update d.bit r v } (bblock sb r)) := by
  refine logWrite rfl (fun x hx => Function.update_of_ne (fun h => hx ?_) _ _) (fun _ _ => rfl) fun _ _ => rfl
  rw [h]

/-- The contents of a block. -/
theorem write (sb : Superblock) (d : Disk) (b : ℕ) (v : Bytes) :
    Covered sb d (Inodes.logWrite { d with block := Function.update d.block b v } b) :=
  logWrite rfl (fun _ _ => rfl) (fun _ hx => Function.update_of_ne hx _ _) fun _ _ => rfl

end Covered

theorem balloc_covered (sb : Superblock) (d : Disk) : Covered sb d (balloc sb d).2 := by
  rcases balloc_cases sb d with ⟨r, -, -, h⟩ | ⟨-, h⟩
  · rw [h]
    exact (Covered.mark sb d r true).trans (Covered.write sb _ r _)
  · rw [h]
    exact .refl sb d

theorem bfree_covered (h : bfree sb d b = some d') : Covered sb d d' := by
  unfold bfree at h
  split_ifs at h
  obtain rfl := Option.some.inj h
  exact .mark sb d b false

theorem loadAddr_covered (sb : Superblock) (ip : Inode) (k : ℕ) (d : Disk) : Covered sb d (loadAddr sb ip k d).2.2 := by
  unfold loadAddr
  dsimp only
  split_ifs
  · exact balloc_covered sb d
  · exact balloc_covered sb d
  · exact .refl sb d

theorem loadEntry_covered (sb : Superblock) (addr bn : ℕ) (d : Disk) : Covered sb d (loadEntry sb addr bn d).2 := by
  unfold loadEntry
  dsimp only
  split_ifs
  · exact balloc_covered sb d
  · exact (balloc_covered sb d).trans (Covered.write sb _ addr _)
  · exact .refl sb d

theorem bmap_covered (h : bmap sb ip bn d = some (addr, ip', d')) : Covered sb d d' := by
  unfold bmap at h
  dsimp only at h
  split_ifs at h
  · have h1 := loadAddr_covered sb ip bn d
    rwa [Option.some.inj h] at h1
  · obtain ⟨-, h2⟩ := Prod.mk.inj (Option.some.inj h)
    have h1 := loadAddr_covered sb ip NDIRECT d
    rwa [h2] at h1
  · obtain ⟨-, h2⟩ := Prod.mk.inj (Option.some.inj h)
    obtain ⟨-, rfl⟩ := Prod.mk.inj h2
    exact (loadAddr_covered sb ip NDIRECT d).trans (loadEntry_covered sb _ _ _)

theorem iupdate_covered (sb : Superblock) (inum : ℕ) (ip : Inode) (d : Disk) : Covered sb d (iupdate sb inum ip d) := by
  refine Covered.logWrite rfl (fun _ _ => rfl) (fun _ _ => rfl) fun i hi => Function.update_of_ne (fun h => hi ?_) _ _
  rw [h]

/-- The loop of `writei`, where every copy succeeds. -/
theorem writeLoop_covered (hroom : n ≤ room) (h : writeLoop sb src room n k tot off ip d = some (tot', off', ip', d')) : Covered sb d d' := by
  induction k generalizing tot off ip d with
  | zero => cases h
  | succ k ih =>
    rw [writeLoop] at h
    by_cases hlt : tot < n
    · rw [if_pos hlt] at h
      cases hb : bmap sb ip (off / BSIZE) d with
      | none =>
        rw [hb] at h
        cases h
      | some r =>
        obtain ⟨addr, ip1, d1⟩ := r
        rw [hb] at h
        dsimp only at h
        have hc := bmap_covered hb
        by_cases ha : addr = 0
        · rw [if_pos ha] at h
          cases h
          exact hc
        · rw [if_neg ha, if_neg (by omega)] at h
          exact (hc.trans (Covered.write sb d1 addr _)).trans (ih h)
    · rw [if_neg hlt] at h
      cases h
      exact .refl sb _

theorem writei_covered {ret : ℤ} (hroom : n ≤ room) (h : writei sb src room inum ip off n d = some (ret, ip', d')) : Covered sb d d' := by
  unfold writei at h
  split_ifs at h
  · cases h
    exact .refl sb _
  · cases h
    exact .refl sb _
  · cases hw : writeLoop sb src room n (n + 1) 0 off ip d with
    | none =>
      rw [hw] at h
      cases h
    | some r =>
      obtain ⟨tot, off1, ip1, d1⟩ := r
      rw [hw] at h
      cases h
      exact (writeLoop_covered hroom hw).trans (iupdate_covered sb inum _ d1)

theorem truncDirect_covered (h : truncDirect sb k idx ip d = some (ip', d')) : Covered sb d d' := by
  induction k generalizing idx ip d with
  | zero =>
    cases h
    exact .refl sb _
  | succ k ih =>
    rw [truncDirect] at h
    by_cases h0 : ip.addrs idx = 0
    · rw [if_pos h0] at h
      exact ih h
    · rw [if_neg h0] at h
      cases hb : bfree sb d (ip.addrs idx) with
      | none =>
        rw [hb] at h
        cases h
      | some d1 =>
        rw [hb] at h
        exact (bfree_covered hb).trans (ih h)

theorem truncIndirect_covered {a : Bytes} (h : truncIndirect sb a k j d = some d') : Covered sb d d' := by
  induction k generalizing j d with
  | zero =>
    cases h
    exact .refl sb _
  | succ k ih =>
    rw [truncIndirect] at h
    by_cases h0 : word a j = 0
    · rw [if_pos h0] at h
      exact ih h
    · rw [if_neg h0] at h
      cases hb : bfree sb d (word a j) with
      | none =>
        rw [hb] at h
        cases h
      | some d1 =>
        rw [hb] at h
        exact (bfree_covered hb).trans (ih h)

theorem truncRest_covered (h : truncRest sb ip d = some (ip', d')) : Covered sb d d' := by
  unfold truncRest at h
  by_cases h0 : ip.addrs NDIRECT = 0
  · rw [if_pos h0] at h
    cases h
    exact .refl sb _
  · rw [if_neg h0] at h
    cases hi : truncIndirect sb (d.block (ip.addrs NDIRECT)) NINDIRECT 0 d with
    | none =>
      rw [hi] at h
      cases h
    | some d1 =>
      rw [hi] at h
      dsimp only at h
      cases hb : bfree sb d1 (ip.addrs NDIRECT) with
      | none =>
        rw [hb] at h
        cases h
      | some d2 =>
        rw [hb] at h
        cases h
        exact (truncIndirect_covered hi).trans (bfree_covered hb)

theorem itrunc_covered (h : itrunc sb inum ip d = some (ip', d')) : Covered sb d d' := by
  unfold itrunc at h
  cases hd : truncDirect sb NDIRECT 0 ip d with
  | none =>
    rw [hd] at h
    cases h
  | some r =>
    obtain ⟨ip1, d1⟩ := r
    rw [hd] at h
    dsimp only at h
    cases hr : truncRest sb ip1 d1 with
    | none =>
      rw [hr] at h
      cases h
    | some r =>
      obtain ⟨ip2, d2⟩ := r
      rw [hr] at h
      cases h
      exact ((truncDirect_covered hd).trans (truncRest_covered hr)).trans (iupdate_covered sb inum _ d2)

/-! ## Runs with crashes -/

variable {s t : Sys} {a : Act} {o : Out} {m m' : Machine} {e : Event} {tr : List (Ev Machine Event Out)}

theorem step_covered (S : Sound sb first s.tab s.d) (hu : a.Uints) (hc : a.Copies) (hst : step sb s a = some (o, t)) : Covered sb s.d t.d := by
  cases a with
  | write i off n room src =>
    obtain ⟨⟨ret, ip, d'⟩, h, he⟩ := Option.map_eq_some_iff.mp hst
    obtain ⟨-, rfl⟩ := Prod.mk.inj he
    exact writei_covered hc h
  | read i off n room =>
    obtain ⟨⟨ret, data, ip, d'⟩, h, he⟩ := Option.map_eq_some_iff.mp hst
    obtain ⟨-, rfl⟩ := Prod.mk.inj he
    obtain ⟨ret', data', h', -⟩ := readi_spec S i room hu.1 hu.2
    rw [h] at h'
    cases h'
    exact .refl sb _
  | trunc i =>
    obtain ⟨⟨ip, d'⟩, h, he⟩ := Option.map_eq_some_iff.mp hst
    obtain ⟨-, rfl⟩ := Prod.mk.inj he
    exact itrunc_covered h
  | load i =>
    obtain ⟨-, rfl⟩ := Prod.mk.inj (Option.some.inj hst)
    exact .refl sb _

/-- **The invariant**: the disk in the buffers and the one that a crash leaves are sound, and they differ in logged blocks only. -/
structure Safe (sb : Superblock) (first : ℕ) (m : Machine) : Prop where
  now : Sound sb first m.sys.tab m.sys.d
  kept : Sound sb first m.saved.dinode m.saved
  covered : Covered sb m.saved m.sys.d
  clean : m.saved.logged = []

/-- The files now and those of the last commit. -/
def Machine.files (m : Machine) : (ℕ → List ℕ) × (ℕ → List ℕ) := (content m.sys.tab m.sys.d, content m.saved.dinode m.saved)

/-- What `commit` writes is all that has changed. -/
theorem install_eq (h : Covered sb d' d) : install sb d d' = { d with logged := [] } := by
  have hbit : (fun r => if bblock sb r ∈ d.logged then d.bit r else d'.bit r) = d.bit := by
    ext1 r
    split_ifs with hr
    · rfl
    · exact (h.bit r hr).symm
  have hblock : (fun b => if b ∈ d.logged then d.block b else d'.block b) = d.block := by
    ext1 b
    split_ifs with hb
    · rfl
    · exact (h.block b hb).symm
  have hdinode : (fun i => if iblock sb i ∈ d.logged then d.dinode i else d'.dinode i) = d.dinode := by
    ext1 i
    split_ifs with hi
    · rfl
    · exact (h.dinode i hi).symm
  unfold install
  rw [hbit, hblock, hdinode]

theorem mstep_keeps (I : Safe sb first m) (hok : Mapped m e) (hst : MStep sb m e o m') : Safe sb first m' ∧ CrashAbs m.files e o m'.files := by
  cases e with
  | call a =>
    obtain ⟨⟨o', t⟩, h, he⟩ := Option.map_eq_some_iff.mp hst
    obtain ⟨rfl, rfl⟩ := Prod.mk.inj he
    obtain ⟨S, A⟩ := step_keeps I.now hok.1 h
    exact ⟨⟨S, I.kept, I.covered.trans (step_covered I.now hok.1 hok.2 h), I.clean⟩, .call A⟩
  | commit =>
    obtain ⟨rfl, rfl⟩ := Prod.mk.inj (Option.some.inj hst)
    have hS : Sound sb first m.sys.tab { m.sys.d with logged := [] } :=
      ⟨I.now.owned.congr (fun _ => rfl) rfl rfl, I.now.mapped, I.now.bound, I.now.synced⟩
    have hdi : m.sys.d.dinode = m.sys.tab := I.now.synced
    have hinst := install_eq I.covered
    refine ⟨⟨hS, ?_, ?_, rfl⟩, ?_⟩
    · dsimp only
      rw [hinst]
      exact (congrArg (fun tab => Sound sb first tab { m.sys.d with logged := [] }) hdi).mpr hS
    · dsimp only
      rw [hinst]
      exact .refl sb _
    · unfold Machine.files
      dsimp only
      rw [hinst]
      dsimp only
      rw [hdi]
      exact .commit
  | recycle b =>
    unfold MStep mstep at hst
    dsimp only at hst
    split_ifs at hst with hb
    obtain ⟨rfl, rfl⟩ := Prod.mk.inj (Option.some.inj hst)
    -- the buffer holds what is on the disk
    have hsame : Function.update m.sys.d.block b (m.saved.block b) = m.sys.d.block := by
      rw [← I.covered.block b hb]
      exact Function.update_eq_self _ _
    rw [hsame]
    exact ⟨I, .recycle⟩
  | crash =>
    obtain ⟨rfl, rfl⟩ := Prod.mk.inj (Option.some.inj hst)
    exact ⟨⟨I.kept, I.kept, .refl sb _, I.clean⟩, .crash⟩

/-- A new disk, and the machine that has booted from it. -/
def start (first : ℕ) : Machine := ⟨mkfs first, (mkfs first).d⟩

theorem start_safe (hpos : 0 < first) (hsize : sb.size ≤ UINT) : Safe sb first (start first) :=
  ⟨mkfs_sound hpos hsize, mkfs_sound hpos hsize, .refl sb _, rfl⟩

theorem run_safe (hpos : 0 < first) (hsize : sb.size ≤ UINT) (hr : Run (MStep sb) Mapped (start first) tr m) : Safe sb first m :=
  hr.inv (start_safe hpos hsize) fun _ _ _ _ I hok hst => (mstep_keeps I hok hst).1

/-- What a run does to the files. -/
def crashEv (e : Ev Machine Event Out) : Ev ((ℕ → List ℕ) × (ℕ → List ℕ)) Event Out := ⟨e.pre.files, e.act, e.out, e.post.files⟩

/-- **Crashes.**  In every run in which no copy from a caller's memory fails, with commits, recycled buffers and crashes between any two calls,
the files are lists of bytes, and a crash takes every file back to what it was at the last commit. -/
theorem crash_refine (hpos : 0 < first) (hsize : sb.size ≤ UINT) (hr : Run (MStep sb) Mapped (start first) tr m) :
    Run CrashAbs always (fun _ => [], fun _ => []) (tr.map crashEv) m.files := by
  induction hr with
  | nil => exact .nil
  | @snoc tr u t a o hr hok hst ih =>
    rw [List.map_append]
    exact ih.snoc trivial (mstep_keeps (run_safe hpos hsize hr) hok hst).2

/-- A run that a computation finds. -/
theorem exists_crash_run (events : List Event) {P : List (Ev Machine Event Out) → Machine → Prop} [∀ tr m, Decidable (P tr m)]
    (h : (Lts.execute (mstep ⟨8, 2, 1⟩) Mapped (start 4) events).any (fun x => decide (P x.1 x.2)) = true) :
    ∃ tr m, Run (MStep ⟨8, 2, 1⟩) Mapped (start 4) tr m ∧ P tr m :=
  Lts.exists_run_of_execute (fun _ _ _ _ h => h) h

/-- Committed, overwritten, and back after the crash. -/
theorem exists_back_run : ∃ tr m, Run (MStep ⟨8, 2, 1⟩) Mapped (start 4) tr m ∧
    (tr.map fun e => e.out.data) = [[], [], [], [1, 2, 3], [], [7, 8, 9]] :=
  exists_crash_run [.call (.write 1 0 3 3 fun x => x + 7), .commit, .call (.write 1 0 3 3 fun x => x + 1), .call (.read 1 0 3 3), .crash,
    .call (.read 1 0 3 3)] (by decide +kernel)

theorem crash_refine_back : ∃ tr m, Run (MStep ⟨8, 2, 1⟩) Mapped (start 4) tr m ∧
    (tr.map fun e => e.out.data) = [[], [], [], [1, 2, 3], [], [7, 8, 9]] ∧
    Run CrashAbs always (fun _ => [], fun _ => []) (tr.map crashEv) m.files := by
  obtain ⟨tr, m, hr, h⟩ := exists_back_run
  exact ⟨tr, m, hr, h, crash_refine (by decide) (by decide) hr⟩

/-- **Blocks after a crash.**  At any time of such a run the disk that a crash would leave has its blocks in order: a block of the data area
is marked exactly if it belongs to one place of one of the files that the crash leaves. -/
theorem crash_owned (hpos : 0 < first) (hsize : sb.size ≤ UINT) (hr : Run (MStep sb) Mapped (start first) tr m) {r : ℕ} (h1 : first ≤ r)
    (h2 : r < sb.size) : m.saved.bit r = true ↔ ∃! p, allHeld m.saved.dinode m.saved p = r :=
  (run_safe hpos hsize hr).kept.owned.bit_iff h1 h2

theorem crash_owned_back : ∃ tr m, Run (MStep ⟨8, 2, 1⟩) Mapped (start 4) tr m ∧
    (tr.map fun e => e.out.data) = [[], [], [], [1, 2, 3], [], [7, 8, 9]] ∧
    (m.saved.bit 4 = true ↔ ∃! p, allHeld m.saved.dinode m.saved p = 4) := by
  obtain ⟨tr, m, hr, h⟩ := exists_back_run
  exact ⟨tr, m, hr, h, crash_owned (by decide) (by decide) hr (by decide) (by decide)⟩

end OsLabs.Xv6.Inodes
