import OsLabs.Holdings
import Mathlib.Algebra.Order.Ring.Int
import Mathlib.Data.List.Basic
import Mathlib.Tactic.SplitIfs

/-!
# OsLabs.Xv6.FsBlocks — block allocation and the block map of an inode (fs.c)

The disk as one transaction sees it: what `bread` returns is what was last written.  Every operation runs under the lock of its inode.

* `balloc`, `bfree`: the bit map.
* `bmap`: the block of a file, allocated if there is none yet; the indirect block holds its block numbers as four bytes each.
* `iupdate`, `itrunc`, `readi`, `writei`: the operations on an inode.
* `logged`: the blocks that `log_write` has got, the last one first.
-/

namespace OsLabs.Xv6.Inodes

def BSIZE : ℕ := 1024

def NDIRECT : ℕ := 12

/-- `BSIZE / sizeof(uint)` -/
def NINDIRECT : ℕ := 256

def MAXFILE : ℕ := NDIRECT + NINDIRECT

/-- Bits in a block of the bit map. -/
def BPB : ℕ := BSIZE * 8

/-- Inodes in a block. -/
def IPB : ℕ := 16

/-- How many values a `uint` has. -/
def UINT : ℕ := 2 ^ 32

/-- `struct superblock`: what these functions use of it. -/
structure Superblock where
  size : ℕ
  inodestart : ℕ
  bmapstart : ℕ

abbrev Bytes := ℕ → ℕ

/-- Number `j` of a block of `uint`s. -/
def word (b : Bytes) (j : ℕ) : ℕ := b (4 * j) + 256 * b (4 * j + 1) + 65536 * b (4 * j + 2) + 16777216 * b (4 * j + 3)

def setWord (b : Bytes) (j x : ℕ) : Bytes := fun o =>
  if o = 4 * j then x % 256
  else if o = 4 * j + 1 then x / 256 % 256
  else if o = 4 * j + 2 then x / 65536 % 256
  else if o = 4 * j + 3 then x / 16777216 % 256
  else b o

/-- `struct inode` and `struct dinode`: the fields that are on the disk. -/
structure Inode where
  type : ℕ
  major : ℕ
  minor : ℕ
  nlink : ℕ
  size : ℕ
  addrs : ℕ → ℕ

/-- The bit map, the other blocks, and the inodes in their blocks. -/
structure Disk where
  bit : ℕ → Bool
  block : ℕ → Bytes
  dinode : ℕ → Inode
  logged : List ℕ

variable (sb : Superblock)

/-- `IBLOCK(i, sb)` -/
def iblock (inum : ℕ) : ℕ := inum / IPB + sb.inodestart

/-- `BBLOCK(b, sb)` -/
def bblock (b : ℕ) : ℕ := b / BPB + sb.bmapstart

/-- `log_write` -/
def logWrite (d : Disk) (b : ℕ) : Disk := { d with logged := b :: d.logged }

def bzero (d : Disk) (bno : ℕ) : Disk := logWrite { d with block := Function.update d.block bno fun _ => 0 } bno

/-- The inner loop of `balloc`: `k` bits of the block that begins with bit `b`, from `bi` on. -/
def scanBits (d : Disk) (b : ℕ) : ℕ → ℕ → Option ℕ
  | 0, _ => none
  | k + 1, bi =>
    if b + bi < sb.size then if d.bit (b + bi) = false then some (b + bi) else scanBits d b k (bi + 1)
    else none

/-- The outer loop, over at most `k` blocks of the bit map. -/
def scanBlocks (d : Disk) : ℕ → ℕ → Option ℕ
  | 0, _ => none
  | k + 1, b =>
    if b < sb.size then
      match scanBits sb d b BPB 0 with
      | some r => some r
      | none => scanBlocks d k (b + BPB)
    else none

/-- `balloc`: 0 if there is no free block. -/
def balloc (d : Disk) : ℕ × Disk :=
  match scanBlocks sb d sb.size 0 with
  | some r => (r, bzero (logWrite { d with bit := Function.update d.bit r true } (bblock sb r)) r)
  | none => (0, d)

/-- `bfree`; it panics if the block is free. -/
def bfree (d : Disk) (b : ℕ) : Option Disk :=
  if d.bit b = false then none else some (logWrite { d with bit := Function.update d.bit b false } (bblock sb b))

/-- The block number `addrs[k]`, allocated if it is 0; `bmap` does that for a direct block and for the indirect one. -/
def loadAddr (ip : Inode) (k : ℕ) (d : Disk) : ℕ × Inode × Disk :=
  if ip.addrs k = 0 then
    let r := balloc sb d
    if r.1 = 0 then (0, ip, r.2) else (r.1, { ip with addrs := Function.update ip.addrs k r.1 }, r.2)
  else (ip.addrs k, ip, d)

/-- Number `bn` of the indirect block `addr`, allocated if it is 0. -/
def loadEntry (addr bn : ℕ) (d : Disk) : ℕ × Disk :=
  if word (d.block addr) bn = 0 then
    let r := balloc sb d
    if r.1 = 0 then (0, r.2)
    else (r.1, logWrite { r.2 with block := Function.update r.2.block addr (setWord (r.2.block addr) bn r.1) } addr)
  else (word (d.block addr) bn, d)

/-- `bmap`: the block, 0 if there is no space; it panics if `bn` is out of range. -/
def bmap (ip : Inode) (bn : ℕ) (d : Disk) : Option (ℕ × Inode × Disk) :=
  if bn < NDIRECT then some (loadAddr sb ip bn d)
  else
    let bn := bn - NDIRECT
    if bn < NINDIRECT then
      let r := loadAddr sb ip NDIRECT d
      if r.1 = 0 then some (0, r.2)
      else
        let e := loadEntry sb r.1 bn r.2.2
        some (e.1, r.2.1, e.2)
    else none

def iupdate (inum : ℕ) (ip : Inode) (d : Disk) : Disk :=
  logWrite { d with dinode := Function.update d.dinode inum ip } (iblock sb inum)

/-- The first loop of `itrunc`. -/
def truncDirect : ℕ → ℕ → Inode → Disk → Option (Inode × Disk)
  | 0, _, ip, d => some (ip, d)
  | k + 1, i, ip, d =>
    if ip.addrs i = 0 then truncDirect k (i + 1) ip d
    else
      match bfree sb d (ip.addrs i) with
      | none => none
      | some d => truncDirect k (i + 1) { ip with addrs := Function.update ip.addrs i 0 } d

/-- The second loop, over the numbers in the indirect block. -/
def truncIndirect (a : Bytes) : ℕ → ℕ → Disk → Option Disk
  | 0, _, d => some d
  | k + 1, j, d =>
    if word a j = 0 then truncIndirect a k (j + 1) d
    else
      match bfree sb d (word a j) with
      | none => none
      | some d => truncIndirect a k (j + 1) d

/-- The part of `itrunc` about the indirect block. -/
def truncRest (ip : Inode) (d : Disk) : Option (Inode × Disk) :=
  if ip.addrs NDIRECT = 0 then some (ip, d)
  else
    match truncIndirect sb (d.block (ip.addrs NDIRECT)) NINDIRECT 0 d with
    | none => none
    | some d =>
      match bfree sb d (ip.addrs NDIRECT) with
      | none => none
      | some d => some ({ ip with addrs := Function.update ip.addrs NDIRECT 0 }, d)

def itrunc (inum : ℕ) (ip : Inode) (d : Disk) : Option (Inode × Disk) :=
  match truncDirect sb NDIRECT 0 ip d with
  | none => none
  | some (ip, d) =>
    match truncRest sb ip d with
    | none => none
    | some (ip, d) =>
      let ip := { ip with size := 0 }
      some (ip, iupdate sb inum ip d)

/-- The loop of `readi`, with `n - tot` bytes to go; `room` bytes can be copied out.  The bytes delivered, and the return value if it is -1. -/
def readLoop (room n : ℕ) : ℕ → ℕ → ℕ → Inode → Disk → Option (ℤ × List ℕ × Inode × Disk)
  | 0, _, _, _, _ => none
  | k + 1, tot, off, ip, d =>
    if tot < n then
      match bmap sb ip (off / BSIZE) d with
      | none => none
      | some (addr, ip, d) =>
        if addr = 0 then some (tot, [], ip, d)
        else
          let m := min (n - tot) (BSIZE - off % BSIZE)
          let chunk := (List.range m).map fun i => d.block addr (off % BSIZE + i)
          if room < tot + m then some (-1, chunk.take (room - tot), ip, d)
          else (readLoop room n k (tot + m) (off + m) ip d).map fun r => (r.1, chunk ++ r.2.1, r.2.2)
    else some (tot, [], ip, d)

def readi (room : ℕ) (ip : Inode) (off n : ℕ) (d : Disk) : Option (ℤ × List ℕ × Inode × Disk) :=
  if off > ip.size ∨ (off + n) % UINT < off then some (0, [], ip, d)
  else
    let n := if (off + n) % UINT > ip.size then ip.size - off else n
    readLoop sb room n (n + 1) 0 off ip d

/-- Bytes put into a block. -/
def patch (b : Bytes) (o m : ℕ) (src : ℕ → ℕ) : Bytes := fun x => if o ≤ x ∧ x < o + m then src (x - o) else b x

/-- `either_copyin` into the buffer of a block. -/
def fill (d : Disk) (addr o m : ℕ) (src : ℕ → ℕ) : Disk := { d with block := Function.update d.block addr (patch (d.block addr) o m src) }

/-- The loop of `writei`: `src` are the bytes at `src`, of which `room` can be copied in. -/
def writeLoop (src : ℕ → ℕ) (room n : ℕ) : ℕ → ℕ → ℕ → Inode → Disk → Option (ℕ × ℕ × Inode × Disk)
  | 0, _, _, _, _ => none
  | k + 1, tot, off, ip, d =>
    if tot < n then
      match bmap sb ip (off / BSIZE) d with
      | none => none
      | some (addr, ip, d) =>
        if addr = 0 then some (tot, off, ip, d)
        else
          let m := min (n - tot) (BSIZE - off % BSIZE)
          -- a copy that fails has changed the buffer up to there, and `log_write` is not called
          if room < tot + m then some (tot, off, ip, fill d addr (off % BSIZE) (room - tot) fun i => src (tot + i))
          else
            writeLoop src room n k (tot + m) (off + m) ip (logWrite (fill d addr (off % BSIZE) m fun i => src (tot + i)) addr)
    else some (tot, off, ip, d)

def writei (src : ℕ → ℕ) (room inum : ℕ) (ip : Inode) (off n : ℕ) (d : Disk) : Option (ℤ × Inode × Disk) :=
  if off > ip.size ∨ (off + n) % UINT < off then some (-1, ip, d)
  else if (off + n) % UINT > MAXFILE * BSIZE then some (-1, ip, d)
  else
    match writeLoop sb src room n (n + 1) 0 off ip d with
    | none => none
    | some (tot, off, ip, d) =>
      let ip := if off > ip.size then { ip with size := off } else ip
      some (tot, ip, iupdate sb inum ip d)

/-! ## Numbers in a block -/

section Words

variable {b : Bytes} {j k x o : ℕ}

theorem word_setWord (hx : x < UINT) : word (setWord b j x) j = x := by
  unfold word setWord UINT at *
  rw [if_pos rfl, if_neg (by omega), if_pos rfl, if_neg (by omega), if_neg (by omega), if_pos rfl, if_neg (by omega), if_neg (by omega),
    if_neg (by omega), if_pos rfl]
  omega

theorem word_setWord_of_ne (hk : k ≠ j) : word (setWord b j x) k = word b k := by
  have h : ∀ o, o / 4 = k → setWord b j x o = b o := by
    intro o ho
    unfold setWord
    rw [if_neg (by omega), if_neg (by omega), if_neg (by omega), if_neg (by omega)]
  unfold word
  rw [h _ (by omega), h _ (by omega), h _ (by omega), h _ (by omega)]

theorem word_zero (j : ℕ) : word (fun _ => 0) j = 0 := rfl

end Words

/-! ## The bit map -/

section Bitmap

variable {sb : Superblock} {d : Disk} {b k bi r : ℕ}

theorem scanBits_some (h : scanBits sb d b k bi = some r) : r < sb.size ∧ d.bit r = false := by
  induction k generalizing bi with
  | zero => cases h
  | succ k ih =>
    rw [scanBits] at h
    split_ifs at h with h1 h2
    · obtain rfl := Option.some.inj h
      exact ⟨h1, h2⟩
    · exact ih h

theorem scanBits_none (h : scanBits sb d b k bi = none) : ∀ x, b + bi ≤ x → x < b + bi + k → x < sb.size → d.bit x = true := by
  induction k generalizing bi with
  | zero => exact fun x h1 h2 => absurd h2 (by omega)
  | succ k ih =>
    intro x h1 h2 h3
    rw [scanBits] at h
    split_ifs at h with h4 h5
    · by_cases hx : x = b + bi
      · rw [hx]
        exact Bool.eq_true_of_not_eq_false h5
      · exact ih h x (by omega) (by omega) h3
    · omega

theorem scanBlocks_some (h : scanBlocks sb d k b = some r) : r < sb.size ∧ d.bit r = false := by
  induction k generalizing b with
  | zero => cases h
  | succ k ih =>
    rw [scanBlocks] at h
    split_ifs at h with h1
    cases hs : scanBits sb d b BPB 0 with
    | none =>
      rw [hs] at h
      exact ih h
    | some x =>
      rw [hs] at h
      obtain rfl := Option.some.inj h
      exact scanBits_some hs

theorem scanBlocks_none (h : scanBlocks sb d k b = none) (hk : sb.size ≤ b + k) : ∀ x, b ≤ x → x < sb.size → d.bit x = true := by
  induction k generalizing b with
  | zero => exact fun x h1 h2 => absurd h2 (by omega)
  | succ k ih =>
    intro x h1 h2
    rw [scanBlocks, if_pos (by omega)] at h
    cases hs : scanBits sb d b BPB 0 with
    | none =>
      rw [hs] at h
      have hB : 0 < BPB := by decide
      by_cases hx : x < b + BPB
      · exact scanBits_none hs x h1 hx h2
      · exact ih h (by omega) x (by omega) h2
    | some r =>
      rw [hs] at h
      cases h

/-- **`balloc`.**  A free block, marked and zeroed; or all blocks are in use. -/
theorem balloc_cases (sb : Superblock) (d : Disk) :
    (∃ r, r < sb.size ∧ d.bit r = false ∧ balloc sb d =
      (r, bzero (logWrite { d with bit := Function.update d.bit r true } (bblock sb r)) r)) ∨
    ((∀ x, x < sb.size → d.bit x = true) ∧ balloc sb d = (0, d)) := by
  unfold balloc
  cases hs : scanBlocks sb d sb.size 0 with
  | some r =>
    obtain ⟨h1, h2⟩ := scanBlocks_some hs
    exact .inl ⟨r, h1, h2, rfl⟩
  | none => exact .inr ⟨fun x hx => scanBlocks_none hs (by omega) x (Nat.zero_le _) hx, rfl⟩

end Bitmap

end OsLabs.Xv6.Inodes
