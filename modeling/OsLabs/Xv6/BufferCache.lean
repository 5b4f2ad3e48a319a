import Mathlib.Data.Fin.Basic
import Mathlib.Data.List.Nodup
import Mathlib.Data.List.Perm.Subperm
import Mathlib.Logic.Function.Basic
import Mathlib.Tactic.SplitIfs

/-!
# OsLabs.Xv6.BufferCache — the buffer cache (bio.c, sleeplock.c)

`Bcache β` is `bcache` with the blocks' contents in `β`.  The list through `prev` and `next` is kept as the list of the buffers from
`head.next` on, the most recently used first.  A buffer's sleep lock is the process that holds it, if any.

* `bget`, `relse`, `bpin`, `bunpin`: the sections of `bget`, `brelse`, `bpin`, `bunpin` under `bcache.lock`.
* `bget_cases`: a buffer that `bget` returns was a hit or is recycled; `bget_eq_none`: when it panics.
* `WF`: every buffer is on the list, once, and no block of a real device is in two buffers.
* `bget_victim`: the recycled buffer is the last one on the list that nobody refers to.
-/

namespace OsLabs.Xv6.Fs

def MAXOPBLOCKS : ℕ := 10

def LOGSIZE : ℕ := MAXOPBLOCKS * 3

def NBUF : ℕ := MAXOPBLOCKS * 3

def ROOTDEV : ℕ := 1

theorem NBUF_pos : 0 < NBUF := by decide

/-- `struct buf`, but for the links of the list and for `disk`, which belongs to the disk driver. -/
structure Buf (β : Type) where
  valid : Bool
  dev : ℕ
  blockno : ℕ
  /-- The process that holds the sleep lock. -/
  lock : Option ℕ
  refcnt : ℕ
  data : β

/-- A `struct buf *` into `bcache.buf`. -/
abbrev BufId := Fin NBUF

structure Bcache (β : Type) where
  buf : BufId → Buf β
  /-- The buffers from `head.next` to `head.prev`. -/
  lru : List BufId

namespace Bcache

variable {β : Type}

def setBuf (c : Bcache β) (i : BufId) (b : Buf β) : Bcache β := { c with buf := Function.update c.buf i b }

@[simp] theorem setBuf_lru (c : Bcache β) (i : BufId) (b : Buf β) : (c.setBuf i b).lru = c.lru := rfl

@[simp] theorem setBuf_same (c : Bcache β) (i : BufId) (b : Buf β) : (c.setBuf i b).buf i = b := by simp [setBuf]

theorem setBuf_of_ne (c : Bcache β) {i j : BufId} (b : Buf β) (h : j ≠ i) : (c.setBuf i b).buf j = c.buf j := by
  simp [setBuf, h]

/-- `binit`, on memory that holds zeros: each buffer is put in front of those before it. -/
def binit (zero : β) : Bcache β where
  buf _ := { valid := false, dev := 0, blockno := 0, lock := none, refcnt := 0, data := zero }
  lru := (List.finRange NBUF).reverse

/-- The first loop of `bget`. -/
def hit (c : Bcache β) (dev blockno : ℕ) : Option BufId :=
  c.lru.find? fun i => (c.buf i).dev = dev ∧ (c.buf i).blockno = blockno

/-- The second loop of `bget`, from `head.prev` backwards. -/
def victim (c : Bcache β) : Option BufId := c.lru.reverse.find? fun i => (c.buf i).refcnt = 0

/-- `bget` up to `acquiresleep`; `none` is `panic("bget: no buffers")`. -/
def bget (c : Bcache β) (dev blockno : ℕ) : Option (BufId × Bcache β) :=
  match c.hit dev blockno with
  | some i => some (i, c.setBuf i { c.buf i with refcnt := (c.buf i).refcnt + 1 })
  | none =>
    match c.victim with
    | some i => some (i, c.setBuf i { c.buf i with dev, blockno, valid := false, refcnt := 1 })
    | none => none

/-- `acquiresleep(&b->lock)` once the lock is free. -/
def acquire (c : Bcache β) (i : BufId) (p : ℕ) : Bcache β := c.setBuf i { c.buf i with lock := some p }

/-- What `bread` does with the locked buffer: the block is read from `disk` unless the buffer holds it. -/
def fill (c : Bcache β) (i : BufId) (disk : ℕ → β) : Bcache β :=
  if (c.buf i).valid then c else c.setBuf i { c.buf i with data := disk (c.buf i).blockno, valid := true }

/-- An assignment to `b->data`. -/
def assign (c : Bcache β) (i : BufId) (d : β) : Bcache β := c.setBuf i { c.buf i with data := d }

/-- `brelse` once the caller is known to hold the lock. -/
def relse (c : Bcache β) (i : BufId) : Bcache β :=
  let c := c.setBuf i { c.buf i with lock := none, refcnt := (c.buf i).refcnt - 1 }
  if (c.buf i).refcnt = 0 then { c with lru := i :: c.lru.erase i } else c

def bpin (c : Bcache β) (i : BufId) : Bcache β := c.setBuf i { c.buf i with refcnt := (c.buf i).refcnt + 1 }

def bunpin (c : Bcache β) (i : BufId) : Bcache β := c.setBuf i { c.buf i with refcnt := (c.buf i).refcnt - 1 }

/-! ## What each operation does to a buffer -/

variable {c : Bcache β} {i j : BufId} {dev blockno : ℕ}

/-- **A `bget` that returns**: a hit is referenced once more; a miss takes a buffer with no reference. -/
theorem bget_cases {c' : Bcache β} (h : c.bget dev blockno = some (i, c')) :
    ((c.buf i).dev = dev ∧ (c.buf i).blockno = blockno ∧ c' = c.setBuf i { c.buf i with refcnt := (c.buf i).refcnt + 1 }) ∨
    ((∀ j ∈ c.lru, ¬ ((c.buf j).dev = dev ∧ (c.buf j).blockno = blockno)) ∧ (c.buf i).refcnt = 0 ∧
      c' = c.setBuf i { c.buf i with dev, blockno, valid := false, refcnt := 1 }) := by
  unfold bget at h
  split at h
  · rename_i k hk
    obtain ⟨rfl, rfl⟩ := Prod.mk.inj (Option.some.inj h)
    have hk := List.find?_some hk
    simp only [decide_eq_true_eq] at hk
    exact .inl ⟨hk.1, hk.2, rfl⟩
  · rename_i hn
    split at h
    · rename_i k hk
      obtain ⟨rfl, rfl⟩ := Prod.mk.inj (Option.some.inj h)
      have hk := List.find?_some hk
      simp only [decide_eq_true_eq] at hk
      refine .inr ⟨fun j hj hm => ?_, hk, rfl⟩
      have := List.find?_eq_none.mp hn j hj
      simp only [decide_eq_true_eq] at this
      exact this hm
    · cases h

theorem relse_buf (c : Bcache β) (i : BufId) :
    (c.relse i).buf = (c.setBuf i { c.buf i with lock := none, refcnt := (c.buf i).refcnt - 1 }).buf := by
  unfold relse
  dsimp only
  split_ifs <;> rfl

@[simp] theorem relse_same (c : Bcache β) (i : BufId) :
    (c.relse i).buf i = { c.buf i with lock := none, refcnt := (c.buf i).refcnt - 1 } := by
  rw [relse_buf, setBuf_same]

theorem relse_of_ne (c : Bcache β) (h : j ≠ i) : (c.relse i).buf j = c.buf j := by
  rw [relse_buf, setBuf_of_ne _ _ h]

theorem fill_same (c : Bcache β) (i : BufId) (disk : ℕ → β) :
    (c.fill i disk).buf i =
      { c.buf i with valid := true, data := if (c.buf i).valid then (c.buf i).data else disk (c.buf i).blockno } := by
  unfold fill
  split_ifs with hv
  · rw [← hv]
  · simp

@[simp] theorem fill_lru (c : Bcache β) (i : BufId) (disk : ℕ → β) : (c.fill i disk).lru = c.lru := by
  unfold fill
  split_ifs <;> rfl

/-! ## Well-formed caches -/

/-- **A well-formed cache**: every buffer is on the list once, and two buffers of a real device hold different blocks.  (After `binit`
all buffers claim to be block 0 of device 0.) -/
structure WF (c : Bcache β) : Prop where
  mem : ∀ i, i ∈ c.lru
  nodup : c.lru.Nodup
  uniq : ∀ i j, (c.buf i).dev ≠ 0 → (c.buf i).dev = (c.buf j).dev → (c.buf i).blockno = (c.buf j).blockno → i = j

theorem binit_wf (zero : β) : (binit zero).WF where
  mem i := List.mem_reverse.mpr (List.mem_finRange i)
  nodup := List.nodup_reverse.mpr (List.nodup_finRange NBUF)
  uniq _ _ h := absurd rfl h

/-- A change that leaves the block of the buffer alone. -/
theorem WF.setBuf (h : c.WF) {b : Buf β} (hdev : b.dev = (c.buf i).dev) (hbn : b.blockno = (c.buf i).blockno) :
    (c.setBuf i b).WF := by
  have hkey : ∀ j, ((c.setBuf i b).buf j).dev = (c.buf j).dev ∧ ((c.setBuf i b).buf j).blockno = (c.buf j).blockno := by
    intro j
    by_cases hj : j = i
    · subst hj
      rw [setBuf_same]
      exact ⟨hdev, hbn⟩
    · rw [setBuf_of_ne _ _ hj]
      exact ⟨rfl, rfl⟩
  refine ⟨h.mem, h.nodup, fun x y h0 h1 h2 => ?_⟩
  rw [(hkey x).1] at h0 h1
  rw [(hkey y).1] at h1
  rw [(hkey x).2, (hkey y).2] at h2
  exact h.uniq x y h0 h1 h2

/-- A buffer takes over a block that no buffer holds. -/
theorem WF.recycle (h : c.WF) (hno : ∀ j ∈ c.lru, ¬ ((c.buf j).dev = dev ∧ (c.buf j).blockno = blockno)) {b : Buf β}
    (hdev : b.dev = dev) (hbn : b.blockno = blockno) : (c.setBuf i b).WF := by
  refine ⟨h.mem, h.nodup, fun x y h0 h1 h2 => ?_⟩
  by_cases hx : x = i <;> by_cases hy : y = i
  · rw [hx, hy]
  · subst hx
    rw [setBuf_same, setBuf_of_ne _ _ hy] at h1 h2
    exact absurd ⟨h1.symm.trans hdev, h2.symm.trans hbn⟩ (hno y (h.mem y))
  · subst hy
    rw [setBuf_same, setBuf_of_ne _ _ hx] at h1 h2
    exact absurd ⟨h1.trans hdev, h2.trans hbn⟩ (hno x (h.mem x))
  · rw [setBuf_of_ne _ _ hx] at h0 h1 h2
    rw [setBuf_of_ne _ _ hy] at h1 h2
    exact h.uniq x y h0 h1 h2

theorem WF.bget {c' : Bcache β} (h : c.WF) (hg : c.bget dev blockno = some (i, c')) : c'.WF := by
  rcases bget_cases hg with ⟨-, -, rfl⟩ | ⟨hno, -, rfl⟩
  · exact h.setBuf rfl rfl
  · exact h.recycle hno rfl rfl

theorem WF.fill (h : c.WF) (disk : ℕ → β) : (c.fill i disk).WF := by
  unfold Bcache.fill
  split_ifs
  · exact h
  · exact h.setBuf rfl rfl

theorem WF.relse (h : c.WF) : (c.relse i).WF := by
  have hs : (c.setBuf i { c.buf i with lock := none, refcnt := (c.buf i).refcnt - 1 }).WF := h.setBuf rfl rfl
  unfold Bcache.relse
  dsimp only
  split_ifs
  · refine ⟨fun j => ?_, ?_, hs.uniq⟩
    · by_cases hj : j = i
      · exact hj ▸ List.mem_cons_self
      · exact List.mem_cons_of_mem _ ((List.mem_erase_of_ne hj).mpr (h.mem j))
    · exact List.nodup_cons.mpr ⟨h.nodup.not_mem_erase, h.nodup.erase i⟩
  · exact hs

/-- In a well-formed cache the first loop finds the one buffer of a block. -/
theorem WF.hit_eq_some (h : c.WF) (hd : dev ≠ 0) :
    c.hit dev blockno = some i ↔ (c.buf i).dev = dev ∧ (c.buf i).blockno = blockno := by
  constructor
  · intro hi
    have := List.find?_some hi
    simpa only [decide_eq_true_eq] using this
  · intro hi
    cases hk : c.hit dev blockno with
    | none =>
      have := List.find?_eq_none.mp hk i (h.mem i)
      simp only [decide_eq_true_eq] at this
      exact absurd hi this
    | some k =>
      have hkp := List.find?_some hk
      simp only [decide_eq_true_eq] at hkp
      rw [h.uniq k i (hkp.1 ▸ hd) (hkp.1.trans hi.1.symm) (hkp.2.trans hi.2.symm)]

/-- **When `bget` panics**: the block is in no buffer and every buffer is referenced. -/
theorem WF.bget_eq_none (h : c.WF) :
    c.bget dev blockno = none ↔
      (∀ i, ¬ ((c.buf i).dev = dev ∧ (c.buf i).blockno = blockno)) ∧ ∀ i, (c.buf i).refcnt ≠ 0 := by
  have hhit : c.hit dev blockno = none ↔ ∀ i, ¬ ((c.buf i).dev = dev ∧ (c.buf i).blockno = blockno) := by
    unfold hit
    rw [List.find?_eq_none]
    exact ⟨fun hn i => by simpa using hn i (h.mem i), fun hn i _ => by simpa using hn i⟩
  have hvic : c.victim = none ↔ ∀ i, (c.buf i).refcnt ≠ 0 := by
    unfold victim
    rw [List.find?_eq_none]
    exact ⟨fun hn i => by simpa using hn i (List.mem_reverse.mpr (h.mem i)), fun hn i _ => by simpa using hn i⟩
  rw [← hhit, ← hvic]
  unfold Bcache.bget
  cases hh : c.hit dev blockno with
  | some i => simp
  | none => cases hv : c.victim with
    | some i => simp
    | none => simp

/-- **The victim is the least recently used** of the buffers without a reference: whoever stands behind it on the list is referenced. -/
theorem victim_last (h : c.victim = some i) : ∃ l1 l2, c.lru = l1 ++ i :: l2 ∧ (c.buf i).refcnt = 0 ∧
    ∀ j ∈ l2, (c.buf j).refcnt ≠ 0 := by
  obtain ⟨hp, l1, l2, hl, hno⟩ := List.find?_eq_some_iff_append.mp h
  have hrev := congrArg List.reverse hl
  rw [List.reverse_reverse, List.reverse_append, List.reverse_cons, List.append_assoc, List.singleton_append] at hrev
  refine ⟨l2.reverse, l1.reverse, hrev, of_decide_eq_true hp, fun j hj => ?_⟩
  simpa using hno j (List.mem_reverse.mp hj)

end Bcache

end OsLabs.Xv6.Fs
