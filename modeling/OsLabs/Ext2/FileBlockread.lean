import Mathlib.Data.Nat.Basic
import Mathlib.Tactic.IntervalCases
import OsLabs.Fallible

/-!
# OsLabs.Ext2.FileBlockread — one block of a file (ext2/ext2access.c)

The block pointers of a file are 32-bit numbers and the byte offsets made of them are 32-bit products.  `file_blockread` checks its range,
follows the pointers with the buffer as scratch space, reads the block, and says how much of it belongs to the file.

* `calculateOffsets`, `fileBlockread`: the program; the double and the triple range of `calculate_offsets` are not written yet and end in
  its `assert(0)`.
* `Disk.pointed`, `fileBlock`: what a pointer, and what a block number of a file, stand for.
* `fetch_eq`: the two assertions around `lseek` and `read`; `fileBlockread_direct`, `fileBlockread_single`, `fileBlockread_past`: the three
  ways through the function.
-/

namespace OsLabs.Ext2

open OsLabs.Fallible

/-! ## The disk image -/

/-- The file that holds the image. -/
structure Disk where
  size : ℕ
  byte : ℕ → UInt8

/-- An open descriptor of it. -/
structure Fd where
  disk : Disk
  offset : ℕ

/-- The bytes from `buffer` on. -/
abbrev Buffer := ℕ → UInt8

/-- The buffer with `n` bytes of the image in its first places, those from `off` on. -/
def Disk.load (d : Disk) (n off : ℕ) (buffer : Buffer) : Buffer :=
  fun i => if i < n then d.byte (off + i) else buffer i

/-- The most that one `read` returns on Linux. -/
def maxRead : ℕ := 0x7ffff000

/-- `res = lseek(fd, off, SEEK_SET)`, with `res` an `int`.  A position behind the end of the file is allowed. -/
def lseek (fd : Fd) (off : UInt32) : Int32 × Fd := (off.toInt32, { fd with offset := off.toNat })

/-- `res = read(fd, buffer, n)`. -/
def read (fd : Fd) (buffer : Buffer) (n : UInt32) : Int32 × Buffer × Fd :=
  let got := min (min n.toNat maxRead) (fd.disk.size - fd.offset)
  (Int32.ofNat got, fd.disk.load got fd.offset buffer, { fd with offset := fd.offset + got })

/-- `((os_uint32_t *) buffer)[i]`. -/
def word (buffer : Buffer) (i : ℕ) : UInt32 :=
  (buffer (4 * i)).toUInt32 ||| (buffer (4 * i + 1)).toUInt32 <<< 8 ||| (buffer (4 * i + 2)).toUInt32 <<< 16 |||
    (buffer (4 * i + 3)).toUInt32 <<< 24

/-- A failed `assert` ends the program. -/
inductive Stop
  | abort
  deriving DecidableEq, Repr

def cAssert (c : Bool) : Except Stop Unit := if c then .ok () else .error .abort

/-- The two assertions with which each step fetches a block. -/
def fetch (fd : Fd) (blockSize blk : UInt32) (buffer : Buffer) : Except Stop (Buffer × Fd) := do
  let (res, fd) := lseek fd (blk * blockSize)
  cAssert (res.toUInt32 == blk * blockSize)
  let (res, buffer, fd) := read fd buffer blockSize
  cAssert (res.toUInt32 == blockSize)
  return (buffer, fd)

/-! ## The program -/

/-- What the program reads of `struct os_inode_t`. -/
structure Inode where
  iSize : UInt32
  iBlock : Vector UInt32 15

/-- `file_inode.i_block[i]`. -/
def Inode.pointer (inode : Inode) (i : ℕ) : UInt32 := inode.iBlock.getD i 0

/-- What it reads of `struct os_fs_metadata_t`. -/
structure Metadata where
  blockSize : UInt32

structure Offsets where
  direct : Int32
  indirect : Int32
  double : Int32
  triple : Int32
  deriving DecidableEq, Repr

def calculateOffsets (blocknum blocksize : UInt32) : Except Stop Offsets :=
  if blocknum ≤ 11 then .ok ⟨blocknum.toInt32, -1, -1, -1⟩
  else if blocknum - 12 < blocksize / 4 then .ok ⟨-1, (blocknum - 12).toInt32, -1, -1⟩
  -- "add some code here": both branches that are left do nothing, and `assert(0)` follows
  else .error .abort

/-- The variables that one step of `file_blockread` leaves to the next: `range_in_hole`, the block number that it found, and the buffer. -/
structure Walk where
  hole : Bool
  blk : UInt32
  buffer : Buffer
  fd : Fd

/-- The entry at `index` of the block `blk`. -/
def follow (blockSize : UInt32) (index : Int32) (blk : UInt32) (w : Walk) : Except Stop Walk := do
  let (buffer, fd) ← fetch w.fd blockSize blk w.buffer
  cAssert (index.toUInt32 < blockSize / 4)
  return ⟨false, word buffer index.toUInt32.toNat, buffer, fd⟩

/-- Step 3. -/
def tripleStep (inode : Inode) (blockSize : UInt32) (o : Offsets) (w : Walk) : Except Stop Walk :=
  if o.triple ≠ -1 ∧ inode.pointer 14 = 0 then .ok { w with hole := true, blk := 0 }
  else if o.triple ≠ -1 then do
    cAssert (o.double != -1)
    cAssert (o.indirect != -1)
    cAssert (o.direct == -1)
    follow blockSize o.triple (inode.pointer 14) w
  else .ok { w with blk := 0 }

/-- Steps 4 and 5: one level of indirection, with `index` into it.  Its block number is `root`, or what the level `above` has found. -/
def levelStep (blockSize : UInt32) (index above : Int32) (root : UInt32) (expected : Bool) (w : Walk) : Except Stop Walk :=
  if w.hole = false ∧ index ≠ -1 then do
    cAssert expected
    let blk := if above = -1 then root else w.blk
    if blk = 0 then .ok { w with hole := true, blk := 0 } else follow blockSize index blk w
  else .ok { w with blk := 0 }

def doubleStep (inode : Inode) (blockSize : UInt32) (o : Offsets) : Walk → Except Stop Walk :=
  levelStep blockSize o.double o.triple (inode.pointer 13) (o.indirect != -1 && o.direct == -1)

def singleStep (inode : Inode) (blockSize : UInt32) (o : Offsets) : Walk → Except Stop Walk :=
  levelStep blockSize o.indirect o.double (inode.pointer 12) (o.direct == -1)

/-- Step 6.  The number of the data block is not compared with 0. -/
def directStep (inode : Inode) (blockSize : UInt32) (o : Offsets) (w : Walk) : Except Stop (Buffer × Fd) := do
  let blk ← if w.hole = false ∧ o.direct ≠ -1 then do
      cAssert (o.direct < 12)
      pure (inode.pointer o.direct.toUInt32.toNat)
    else pure w.blk
  if w.hole = true then return (fun i => if i < blockSize.toNat then 0 else w.buffer i, w.fd)
  else fetch w.fd blockSize blk w.buffer

/-- Step 7. -/
def tail (inode : Inode) (blockSize blocknum : UInt32) : UInt32 :=
  let diff := inode.iSize - blocknum * blockSize
  if blockSize ≤ diff then blockSize else diff

def fileBlockread (inode : Inode) (fd : Fd) (metadata : Metadata) (blocknum : UInt32) (buffer : Buffer) :
    Except Stop (UInt32 × Buffer × Fd) :=
  if inode.iSize ≤ blocknum * metadata.blockSize then .ok (-1, buffer, fd)
  else do
    let o ← calculateOffsets blocknum metadata.blockSize
    let w ← tripleStep inode metadata.blockSize o ⟨false, 0, buffer, fd⟩
    let w ← doubleStep inode metadata.blockSize o w
    let w ← singleStep inode metadata.blockSize o w
    let (buffer, fd) ← directStep inode metadata.blockSize o w
    return (tail inode metadata.blockSize blocknum, buffer, fd)

/-! ## What one fetch does -/

/-- A block that one `read` gets: it ends within the image. -/
def Disk.Whole (d : Disk) (blockSize off : ℕ) : Prop := blockSize ≤ maxRead ∧ off + blockSize ≤ d.size

instance (d : Disk) (blockSize off : ℕ) : Decidable (d.Whole blockSize off) := inferInstanceAs (Decidable (_ ∧ _))

section Steps

variable {inode : Inode} {fd : Fd} {metadata : Metadata} {bs blk blocknum : UInt32} {buffer : Buffer}

theorem cAssert_bind {α : Type} {c : Bool} (f : Unit → Except Stop α) :
    (cAssert c >>= f) = if c then f () else .error .abort := by
  unfold cAssert
  split_ifs <;> rfl

theorem toUInt32_ofNat {n : ℕ} (h : n < 2 ^ 32) : (Int32.ofNat n).toUInt32.toNat = n := by
  rw [Int32.toUInt32_ofNat', UInt32.toNat_ofNat_of_lt' h]

/-- **One fetch** ends the program, or fills the buffer from the 32-bit product on. -/
theorem fetch_eq (h : 0 < bs.toNat) : fetch fd bs blk buffer =
    if fd.disk.Whole bs.toNat (blk * bs).toNat then
      .ok (fd.disk.load bs.toNat (blk * bs).toNat buffer, { fd with offset := (blk * bs).toNat + bs.toNat })
    else .error .abort := by
  have hgot : ∀ got, got ≤ maxRead → (((Int32.ofNat got).toUInt32 == bs) = true ↔ got = bs.toNat) := by
    intro got hle
    rw [beq_iff_eq, ← UInt32.toNat_inj, toUInt32_ofNat (hle.trans_lt (by decide))]
  simp only [fetch, lseek, read, cAssert_bind, UInt32.toUInt32_toInt32, beq_self_eq_true, if_true]
  rw [if_congr (hgot _ ((min_le_left _ _).trans (min_le_right _ _))) rfl rfl]
  by_cases hw : fd.disk.Whole bs.toNat (blk * bs).toNat
  · have hm : min (min bs.toNat maxRead) (fd.disk.size - (blk * bs).toNat) = bs.toNat := by
      rw [min_eq_left hw.1, min_eq_left (by have := hw.2; omega)]
    rw [if_pos hw, hm, if_pos rfl]
    rfl
  · rw [if_neg hw, if_neg]
    intro hm
    refine hw ⟨?_, ?_⟩ <;> omega

/-! ## The ways through the function -/

theorem direct_index (h : blocknum ≤ 11) : blocknum.toInt32 ≠ -1 ∧ blocknum.toInt32 < 12 := by
  have hn : blocknum.toNat ≤ 11 := UInt32.le_iff_toNat_le.mp h
  rw [← UInt32.ofNat_toNat (x := blocknum)]
  generalize blocknum.toNat = n at hn
  interval_cases n <;> decide

/-- An index below `block_size / 4` is not the mark for "not needed". -/
theorem indirect_index {i : UInt32} (h : i < bs / 4) : i.toInt32 ≠ -1 := by
  intro he
  have hi : i = 4294967295 := by
    rw [← UInt32.toUInt32_toInt32 i, he]
    rfl
  subst hi
  have hlt := UInt32.lt_iff_toNat_lt.mp h
  rw [UInt32.toNat_div] at hlt
  have hbs := bs.toNat_lt
  have h1 : (4294967295 : UInt32).toNat = 4294967295 := rfl
  have h4 : (4 : UInt32).toNat = 4 := rfl
  rw [h1, h4] at hlt
  omega

theorem fileBlockread_past (h : inode.iSize ≤ blocknum * metadata.blockSize) :
    fileBlockread inode fd metadata blocknum buffer = .ok (-1, buffer, fd) := if_pos h

variable (hin : ¬ inode.iSize ≤ blocknum * metadata.blockSize)
include hin

theorem fileBlockread_direct (h : blocknum ≤ 11) : fileBlockread inode fd metadata blocknum buffer =
    (fetch fd metadata.blockSize (inode.pointer blocknum.toNat) buffer >>= fun r =>
      .ok (tail inode metadata.blockSize blocknum, r)) := by
  obtain ⟨hne, hlt⟩ := direct_index h
  rw [fileBlockread, if_neg hin, calculateOffsets, if_pos h]
  simp [ok_bind, tripleStep, doubleStep, singleStep, levelStep, directStep, hne, hlt, cAssert_bind, pure, Except.pure]

theorem fileBlockread_single (h : ¬ blocknum ≤ 11) (hs : blocknum - 12 < metadata.blockSize / 4) :
    fileBlockread inode fd metadata blocknum buffer =
      if inode.pointer 12 = 0 then
        .ok (tail inode metadata.blockSize blocknum, fun i => if i < metadata.blockSize.toNat then 0 else buffer i, fd)
      else fetch fd metadata.blockSize (inode.pointer 12) buffer >>= fun r =>
        fetch r.2 metadata.blockSize (word r.1 (blocknum - 12).toNat) r.1 >>= fun r =>
          .ok (tail inode metadata.blockSize blocknum, r) := by
  have hne := indirect_index hs
  rw [fileBlockread, if_neg hin, calculateOffsets, if_neg h, if_pos hs]
  generalize blocknum - 12 = i at hs hne
  by_cases hp : inode.pointer 12 = 0
  · simp [ok_bind, tripleStep, doubleStep, singleStep, levelStep, directStep, hne, hp, cAssert_bind, pure, Except.pure]
  · simp [ok_bind, tripleStep, doubleStep, singleStep, levelStep, directStep, follow, hne, hp, hs, cAssert_bind, pure, Except.pure]

/-- **Behind the singly indirect range** nothing is returned. -/
theorem fileBlockread_beyond (h : ¬ blocknum ≤ 11) (hs : ¬ blocknum - 12 < metadata.blockSize / 4) :
    fileBlockread inode fd metadata blocknum buffer = .error .abort := by
  rw [fileBlockread, if_neg hin, calculateOffsets, if_neg h, if_neg hs]
  rfl

end Steps

/-! ## What a block of a file is -/

/-- The bytes from `off` on. -/
def Disk.block (d : Disk) (off : ℕ) : Buffer := fun i => d.byte (off + i)

/-- What the pointer `p` stands for: zeros, or the block with this number, if the image has one. -/
def Disk.pointed (d : Disk) (blockSize p : ℕ) : Option Buffer :=
  if p = 0 then some fun _ => 0 else if p * blockSize + blockSize ≤ d.size then some (d.block (p * blockSize)) else none

/-- Block `n` of the file, in the direct or the singly indirect range.  A hole in the place of the indirect block is a block of holes. -/
def fileBlock (d : Disk) (inode : Inode) (blockSize n : ℕ) : Option Buffer :=
  if n < 12 then d.pointed blockSize (inode.pointer n).toNat
  else (d.pointed blockSize (inode.pointer 12).toNat).bind fun b => d.pointed blockSize (word b (n - 12)).toNat

/-- The promise of `file_blockread` for a block of the file. -/
def ReadsBlock (inode : Inode) (fd : Fd) (metadata : Metadata) (blocknum : UInt32) (buffer : Buffer) : Prop :=
  ∃ n buf fd', fileBlockread inode fd metadata blocknum buffer = .ok (n, buf, fd') ∧
    n.toNat = min metadata.blockSize.toNat (inode.iSize.toNat - blocknum.toNat * metadata.blockSize.toNat) ∧
    ∃ data ∈ fileBlock fd.disk inode metadata.blockSize.toNat blocknum.toNat, ∀ i < metadata.blockSize.toNat, buf i = data i

/-! ## What the 32-bit offsets show of it -/

/-- Two places with the same bytes. -/
def Disk.Same (d : Disk) (blockSize a b : ℕ) : Prop := ∀ i < blockSize, d.byte (a + i) = d.byte (b + i)

/-- A place with zeros only. -/
def Disk.Blank (d : Disk) (blockSize a : ℕ) : Prop := ∀ i < blockSize, d.byte (a + i) = 0

/-- At the 32-bit offset of the block number `seen` the image has what the pointer `p` stands for. -/
def Shows (d : Disk) (bs seen p : UInt32) : Prop :=
  d.Whole bs.toNat (seen * bs).toNat ∧
    if p = 0 then d.Blank bs.toNat (seen * bs).toNat
    else p.toNat * bs.toNat + bs.toNat ≤ d.size ∧ d.Same bs.toNat (seen * bs).toNat (p.toNat * bs.toNat)

/-- The condition on the pointers on the way to block `n`. -/
def WellPlaced (d : Disk) (inode : Inode) (bs : UInt32) (n : ℕ) : Prop :=
  if n < 12 then Shows d bs (inode.pointer n) (inode.pointer n)
  else inode.pointer 12 = 0 ∨
    d.Whole bs.toNat (inode.pointer 12 * bs).toNat ∧ (inode.pointer 12).toNat * bs.toNat + bs.toNat ≤ d.size ∧
      Shows d bs (word (d.block (inode.pointer 12 * bs).toNat) (n - 12))
        (word (d.block ((inode.pointer 12).toNat * bs.toNat)) (n - 12))

section Spec

variable {inode : Inode} {fd : Fd} {metadata : Metadata} {bs seen p blocknum : UInt32} {buffer : Buffer} {d : Disk}

theorem toNat_eq_zero {x : UInt32} : x.toNat = 0 ↔ x = 0 := by
  rw [← UInt32.toNat_inj]
  rfl

theorem load_apply {n off i : ℕ} (h : i < n) : d.load n off buffer i = d.byte (off + i) := if_pos h

theorem mem_pointed {data : Buffer} : data ∈ d.pointed bs.toNat p.toNat ↔
    if p = 0 then data = fun _ => 0
    else p.toNat * bs.toNat + bs.toNat ≤ d.size ∧ data = d.block (p.toNat * bs.toNat) := by
  unfold Disk.pointed
  by_cases hp : p = 0
  · rw [if_pos (toNat_eq_zero.mpr hp), if_pos hp, Option.mem_some_iff, eq_comm]
  · rw [if_neg (mt toNat_eq_zero.mp hp), if_neg hp]
    by_cases hd : p.toNat * bs.toNat + bs.toNat ≤ d.size
    · rw [if_pos hd, Option.mem_some_iff, eq_comm]
      exact (and_iff_right hd).symm
    · rw [if_neg hd]
      exact ⟨fun h => absurd h (Option.not_mem_none _), fun h => absurd h.1 hd⟩

/-- **A fetch of the block number `seen`** puts into the buffer what `p` stands for iff the offset of `seen` shows that. -/
theorem fetch_pointed_iff (h : 0 < bs.toNat) :
    (∃ r, fetch fd bs seen buffer = .ok r ∧ ∃ data ∈ fd.disk.pointed bs.toNat p.toNat, ∀ i < bs.toNat, r.1 i = data i) ↔
      Shows fd.disk bs seen p := by
  rw [fetch_eq h]
  unfold Shows
  by_cases hw : fd.disk.Whole bs.toNat (seen * bs).toNat
  · rw [if_pos hw, and_iff_right hw]
    constructor
    · rintro ⟨r, hr, data, hdata, hi⟩
      obtain rfl := Except.ok.inj hr
      rw [mem_pointed] at hdata
      split_ifs at hdata ⊢ with hp
      · subst hdata
        exact fun i hlt => (load_apply hlt).symm.trans (hi i hlt)
      · obtain ⟨hd, rfl⟩ := hdata
        exact ⟨hd, fun i hlt => (load_apply hlt).symm.trans (hi i hlt)⟩
    · intro hs
      by_cases hp : p = 0
      · rw [if_pos hp] at hs
        exact ⟨_, rfl, _, mem_pointed.mpr (by rw [if_pos hp]), fun i hlt => (load_apply hlt).trans (hs i hlt)⟩
      · rw [if_neg hp] at hs
        refine ⟨_, rfl, _, mem_pointed.mpr (by rw [if_neg hp]; exact ⟨hs.1, rfl⟩), fun i hlt => ?_⟩
        exact (load_apply hlt).trans (hs.2 i hlt)
  · rw [if_neg hw]
    exact ⟨fun ⟨_, hr, _⟩ => Except.noConfusion rfl rfl (heq_of_eq hr), fun hs => absurd hs.1 hw⟩

/-- An entry of a block that was read whole. -/
theorem word_load {n off i : ℕ} (h : i < n / 4) : word (d.load n off buffer) i = word (d.block off) i := by
  unfold word Disk.block
  rw [load_apply (by omega), load_apply (by omega), load_apply (by omega), load_apply (by omega)]

/-- **The length** of a block whose 32-bit product is below the size. -/
theorem toNat_tail (h : blocknum * bs < inode.iSize) :
    (tail inode bs blocknum).toNat = min bs.toNat (inode.iSize.toNat - (blocknum * bs).toNat) := by
  have hsub : (inode.iSize - blocknum * bs).toNat = inode.iSize.toNat - (blocknum * bs).toNat :=
    UInt32.toNat_sub_of_le _ _ (UInt32.le_of_lt h)
  unfold tail
  dsimp only
  split_ifs with hle
  · rw [UInt32.le_iff_toNat_le, hsub] at hle
    rw [min_eq_left hle]
  · rw [UInt32.le_iff_toNat_le, hsub] at hle
    rw [min_eq_right (by omega), hsub]

theorem le_iff_product (h : blocknum.toNat * bs.toNat < 2 ^ 32) :
    inode.iSize ≤ blocknum * bs ↔ inode.iSize.toNat ≤ blocknum.toNat * bs.toNat := by
  rw [UInt32.le_iff_toNat_le, UInt32.toNat_mul, Nat.mod_eq_of_lt h]

/-- Inside the file the promise is one about the bytes only. -/
theorem readsBlock_iff {x : Except Stop (Buffer × Fd)} (hin : blocknum.toNat * metadata.blockSize.toNat < inode.iSize.toNat)
    (h : fileBlockread inode fd metadata blocknum buffer = (x >>= fun r => .ok (tail inode metadata.blockSize blocknum, r))) :
    ReadsBlock inode fd metadata blocknum buffer ↔ ∃ r, x = .ok r ∧
      ∃ data ∈ fileBlock fd.disk inode metadata.blockSize.toNat blocknum.toNat, ∀ i < metadata.blockSize.toNat, r.1 i = data i := by
  have hsmall := hin.trans inode.iSize.toNat_lt
  have hprod : (blocknum * metadata.blockSize).toNat = blocknum.toNat * metadata.blockSize.toNat := by
    rw [UInt32.toNat_mul, Nat.mod_eq_of_lt hsmall]
  have htail := toNat_tail (UInt32.lt_iff_toNat_lt.mpr (hprod.trans_lt hin))
  rw [hprod] at htail
  unfold ReadsBlock
  rw [h]
  constructor
  · rintro ⟨n, buf, fd', hr, -, hdata⟩
    obtain ⟨r, hx, hr⟩ := bind_ok.mp hr
    cases hr
    exact ⟨(buf, fd'), hx, hdata⟩
  · rintro ⟨r, hx, hdata⟩
    exact ⟨_, r.1, r.2, bind_ok.mpr ⟨r, hx, rfl⟩, htail, hdata⟩

theorem word_zero (i : ℕ) : word (fun _ => 0) i = 0 := by
  dsimp only [word]
  decide

theorem pointed_zero (blockSize : ℕ) : d.pointed blockSize 0 = some fun _ => 0 := if_pos rfl

/-- A pointer that is not 0 and whose byte offset is no more than 32 bits: the block must lie in the image. -/
theorem shows_self_iff (hp : p ≠ 0) (h : p.toNat * bs.toNat < 2 ^ 32) :
    Shows d bs p p ↔ d.Whole bs.toNat (p.toNat * bs.toNat) := by
  have hprod : (p * bs).toNat = p.toNat * bs.toNat := by rw [UInt32.toNat_mul, Nat.mod_eq_of_lt h]
  unfold Shows
  rw [if_neg hp, hprod]
  exact ⟨fun hs => hs.1, fun hw => ⟨hw, hw.2, fun _ _ => rfl⟩⟩

/-- **A hole** that the function does not see is read from the first block of the image. -/
theorem shows_zero_iff : Shows d bs 0 0 ↔ d.Whole bs.toNat 0 ∧ d.Blank bs.toNat 0 := by
  unfold Shows
  rw [if_pos rfl, UInt32.zero_mul, UInt32.toNat_zero]

/-- **A block of the file, holes and tail.**  In the direct and the singly indirect range the block is read iff the offsets show what the
pointers on the way to it stand for. -/
theorem fileBlockread_holes_tail_iff {k : ℕ} (hbs : metadata.blockSize.toNat = 1024 * 2 ^ k)
    (hr : blocknum.toNat < 12 + metadata.blockSize.toNat / 4)
    (hin : blocknum.toNat * metadata.blockSize.toNat < inode.iSize.toNat) :
    ReadsBlock inode fd metadata blocknum buffer ↔ WellPlaced fd.disk inode metadata.blockSize blocknum.toNat := by
  have hpos : 0 < metadata.blockSize.toNat := by
    rw [hbs]
    positivity
  have hnot : ¬ inode.iSize ≤ blocknum * metadata.blockSize := by
    rw [le_iff_product (hin.trans inode.iSize.toNat_lt)]
    omega
  unfold WellPlaced
  by_cases h : blocknum ≤ 11
  · have h12 : blocknum.toNat < 12 := Nat.lt_succ_of_le (UInt32.le_iff_toNat_le.mp h)
    rw [readsBlock_iff hin (fileBlockread_direct hnot h), if_pos h12, ← fetch_pointed_iff hpos, fileBlock, if_pos h12]
  have h12 : ¬ blocknum.toNat < 12 := fun hlt => h (UInt32.le_iff_toNat_le.mpr (Nat.le_of_lt_succ hlt))
  have hsub : (blocknum - 12).toNat = blocknum.toNat - 12 :=
    UInt32.toNat_sub_of_le _ _ (UInt32.le_iff_toNat_le.mpr (Nat.le_of_not_lt h12))
  have hidx : blocknum.toNat - 12 < metadata.blockSize.toNat / 4 := by omega
  have hs : blocknum - 12 < metadata.blockSize / 4 := by
    rw [UInt32.lt_iff_toNat_lt, hsub, UInt32.toNat_div]
    exact hidx
  have hsingle : fileBlockread inode fd metadata blocknum buffer = _ := fileBlockread_single hnot h hs
  rw [if_neg h12]
  by_cases hp : inode.pointer 12 = 0
  · -- the indirect block is a hole: zeros, without a read
    rw [if_pos hp] at hsingle
    rw [readsBlock_iff (x := .ok _) hin hsingle]
    refine iff_of_true ⟨_, rfl, fun _ => 0, ?_, fun i hi => if_pos hi⟩ (Or.inl hp)
    rw [fileBlock, if_neg h12, hp, UInt32.toNat_zero, pointed_zero, Option.bind_some, word_zero, UInt32.toNat_zero, pointed_zero]
    rfl
  · rw [if_neg hp] at hsingle
    rw [readsBlock_iff hin (hsingle.trans (bind_assoc _ _ _).symm), or_iff_right hp, fetch_eq hpos, fileBlock, if_neg h12, hsub]
    by_cases hw : fd.disk.Whole metadata.blockSize.toNat (inode.pointer 12 * metadata.blockSize).toNat
    · rw [if_pos hw, and_iff_right hw, ok_bind, word_load hidx]
      by_cases hd : (inode.pointer 12).toNat * metadata.blockSize.toNat + metadata.blockSize.toNat ≤ fd.disk.size
      · rw [and_iff_right hd, ← fetch_pointed_iff hpos, Option.mem_def.mp (mem_pointed.mpr (by rw [if_neg hp]; exact ⟨hd, rfl⟩))]
        rfl
      · refine iff_of_false ?_ fun h => hd h.1
        rintro ⟨-, -, data, hdata, -⟩
        obtain ⟨ind, hind, -⟩ := Option.bind_eq_some_iff.mp hdata
        have hblk := mem_pointed.mp (Option.mem_def.mpr hind)
        rw [if_neg hp] at hblk
        exact hd hblk.1
    · rw [if_neg hw]
      exact iff_of_false (fun ⟨_, hr, _⟩ => Except.noConfusion rfl rfl (heq_of_eq hr)) fun h => hw h.1

end Spec

/-- An image of four blocks: the first one is not empty, the second begins with the block number 3. -/
def sampleDisk : Disk := ⟨4096, fun i => if i = 0 then 0xeb else if i = 1024 then 3 else if 3072 ≤ i then 7 else 0⟩

/-- A file of 13 blocks and a half: its first block is a hole, its indirect block is block 1. -/
def sampleInode : Inode := ⟨13824, #v[0, 2, 2, 2, 2, 2, 2, 2, 2, 2, 2, 2, 1, 0, 0]⟩

theorem sampleInode_block_twelve : ReadsBlock sampleInode ⟨sampleDisk, 0⟩ ⟨1024⟩ 12 fun _ => 1 := by
  refine (fileBlockread_holes_tail_iff (k := 0) (by decide) (by decide) (by decide)).mpr (Or.inr ⟨by decide, by decide, ?_⟩)
  exact (shows_self_iff (by decide) (by decide)).mpr (by decide)

theorem sampleInode_block_zero : ¬ ReadsBlock sampleInode ⟨sampleDisk, 0⟩ ⟨1024⟩ 0 fun _ => 1 := by
  rw [readsBlock_iff (by decide) (fileBlockread_direct (by decide) (by decide))]
  intro h
  have hblank := (shows_zero_iff.mp ((fetch_pointed_iff (by decide)).mp h)).2
  exact absurd (hblank 0 (by decide)) (by decide)

/-! ## The range check -/

section Range

variable {inode : Inode} {fd : Fd} {metadata : Metadata} {blocknum : UInt32} {buffer : Buffer}

/-- What is returned for a block that passes the check. -/
theorem fileBlockread_ok {n : UInt32} {buf : Buffer} {fd' : Fd} (hin : ¬ inode.iSize ≤ blocknum * metadata.blockSize)
    (h : fileBlockread inode fd metadata blocknum buffer = .ok (n, buf, fd')) : n = tail inode metadata.blockSize blocknum := by
  rw [fileBlockread, if_neg hin] at h
  obtain ⟨_, -, h⟩ := bind_ok.mp h
  obtain ⟨_, -, h⟩ := bind_ok.mp h
  obtain ⟨_, -, h⟩ := bind_ok.mp h
  obtain ⟨_, -, h⟩ := bind_ok.mp h
  obtain ⟨_, -, h⟩ := bind_ok.mp h
  exact (Prod.mk.inj (pure_ok.mp h)).1.symm

/-- The function returns -1 iff the 32-bit product is not below the size. -/
theorem fileBlockread_neg_one_iff {k : ℕ} (hbs : metadata.blockSize.toNat = 1024 * 2 ^ k) :
    (∃ buf fd', fileBlockread inode fd metadata blocknum buffer = .ok (-1, buf, fd')) ↔
      inode.iSize ≤ blocknum * metadata.blockSize := by
  constructor
  · rintro ⟨buf, fd', h⟩
    by_contra hin
    -- the length of a block is a multiple of 1024 or less than that, and -1 is the largest number
    have htail := toNat_tail (UInt32.not_le.mp hin)
    rw [← fileBlockread_ok hin h] at htail
    have h1 : (-1 : UInt32).toNat = 4294967295 := rfl
    have hlt := metadata.blockSize.toNat_lt
    omega
  · intro h
    exact ⟨buffer, fd, fileBlockread_past h⟩

/-- **Past the end of the file.**  -1 is returned exactly for the blocks at or behind the end, iff the product does not wrap around to a
number below the size. -/
theorem fileBlockread_range_iff {k : ℕ} (hbs : metadata.blockSize.toNat = 1024 * 2 ^ k) :
    ((∃ buf fd', fileBlockread inode fd metadata blocknum buffer = .ok (-1, buf, fd')) ↔
        inode.iSize.toNat ≤ blocknum.toNat * metadata.blockSize.toNat) ↔
      blocknum.toNat * metadata.blockSize.toNat < 2 ^ 32 ∨
        inode.iSize.toNat ≤ blocknum.toNat * metadata.blockSize.toNat % 2 ^ 32 := by
  rw [fileBlockread_neg_one_iff hbs, UInt32.le_iff_toNat_le, UInt32.toNat_mul]
  have hsize := inode.iSize.toNat_lt
  have hmod := Nat.mod_le (blocknum.toNat * metadata.blockSize.toNat) (2 ^ 32)
  constructor
  · intro h
    by_cases hw : blocknum.toNat * metadata.blockSize.toNat < 2 ^ 32
    · exact Or.inl hw
    · exact Or.inr (h.mpr (by omega))
  · rintro (h | h)
    · rw [Nat.mod_eq_of_lt h]
    · exact ⟨fun _ => h.trans hmod, fun _ => h⟩

end Range

theorem fileBlockread_at_end : (∃ buf fd', fileBlockread sampleInode ⟨sampleDisk, 0⟩ ⟨1024⟩ 14 (fun _ => 1) = .ok (-1, buf, fd')) ↔
    13824 ≤ 14 * 1024 :=
  (fileBlockread_range_iff (k := 0) (by decide)).mpr (Or.inl (by decide))

/-- The product of the block number 2²² and 1024 is 0. -/
theorem fileBlockread_wraps : ¬ ((∃ buf fd', fileBlockread sampleInode ⟨sampleDisk, 0⟩ ⟨1024⟩ 4194304 (fun _ => 1) = .ok (-1, buf, fd')) ↔
    13824 ≤ 4194304 * 1024) := by
  intro h
  have hle := (fileBlockread_neg_one_iff (k := 0) (by decide)).mp (h.mpr (by decide))
  exact absurd hle (by decide)

end OsLabs.Ext2
