import Mathlib.Algebra.Order.Ring.Nat

/-!
# OsLabs.Xv6.Layout — address arithmetic and limits of the kernel (riscv.h, memlayout.h, param.h)

Addresses are `uint64` values, kept as natural numbers below `2 ^ 64`; the operations that can leave that range (`add64`,
`sub64`, `pgroundup`) reduce modulo `2 ^ 64` as the C code does.
-/

namespace OsLabs.Xv6

def PGSIZE : ℕ := 4096

/-- One beyond the highest virtual address. -/
def MAXVA : ℕ := 2 ^ 38

def TRAMPOLINE : ℕ := MAXVA - PGSIZE

def TRAPFRAME : ℕ := TRAMPOLINE - PGSIZE

def KERNBASE : ℕ := 0x80000000

def PHYSTOP : ℕ := KERNBASE + 128 * 1024 * 1024

def NPROC : ℕ := 64

theorem NPROC_pos : 0 < NPROC := by decide

def NOFILE : ℕ := 16

def NFILE : ℕ := 100

def NDEV : ℤ := 10

def MAXARG : ℕ := 32

/-- A `struct proc *` into `proc[NPROC]`. -/
abbrev Slot := Fin NPROC

/-- A physical address. -/
abbrev Pa := ℕ

/-- The largest `int`. -/
def INTMAX : ℤ := 2 ^ 31 - 1

/-- A C `int` after an addition: wrapped into 32 bits. -/
def int32 (x : ℤ) : ℤ := (x + 2 ^ 31) % 2 ^ 32 - 2 ^ 31

/-- Conversion to `uint64`. -/
def u64 (x : ℤ) : ℕ := (x % 2 ^ 64).toNat

def add64 (a b : ℕ) : ℕ := (a + b) % 2 ^ 64

def sub64 (a b : ℕ) : ℕ := (a + (2 ^ 64 - b % 2 ^ 64)) % 2 ^ 64

/-- `PGROUNDUP(sz)`. -/
def pgroundup (sz : ℕ) : ℕ := (sz + (PGSIZE - 1)) % 2 ^ 64 / PGSIZE * PGSIZE

/-- `PGROUNDDOWN(a)`. -/
def pgrounddown (a : ℕ) : ℕ := a / PGSIZE * PGSIZE

/-- The number of pages of a process of `sz` bytes. -/
def npages (sz : ℕ) : ℕ := pgroundup sz / PGSIZE

/-- The page number of the trapframe page. -/
def tfPage : ℕ := TRAPFRAME / PGSIZE

/-- The page number of the trampoline page. -/
def trampPage : ℕ := TRAMPOLINE / PGSIZE

/-- The permission bits of a leaf PTE. -/
structure Perm where
  r : Bool
  w : Bool
  x : Bool
  u : Bool
deriving DecidableEq, Repr

/-- A valid leaf PTE (`PTE_V` set): the physical page and the permission bits. -/
structure Pte where
  pa : Pa
  perm : Perm
deriving DecidableEq, Repr

/-- The kernel's panics that the modelled functions can reach. -/
inductive Panic
  | kfree
  | walk
  | mappagesSize
  | mappagesRemap
  | uvmunmapNotAligned
  | uvmunmapWalk
  | uvmunmapNotMapped
  | uvmunmapNotLeaf
  | freewalkLeaf
  | uvmcopyNoPte
  | uvmcopyNotPresent
  | uvmclear
  | uvmfirst
  | loadseg
  | filedup
  | fileclose
  | initExiting
  | threadCreateStack
  /-- A kernel page fault: a null pointer was followed. -/
  | kerneltrap
deriving DecidableEq, Repr

/-- A counter that is incremented stays positive until it overflows. -/
theorem int32_succ {n : ℤ} (h0 : 0 < n) (h1 : n ≤ INTMAX) : int32 (n + 1) = n + 1 ∨ int32 (n + 1) < 0 := by
  simp only [int32, INTMAX] at *
  omega

theorem int32_le (x : ℤ) : int32 x ≤ INTMAX := by
  simp only [int32, INTMAX]
  omega

theorem pgroundup_of_le {sz : ℕ} (h : sz ≤ MAXVA) : pgroundup sz = (sz + 4095) / 4096 * 4096 := by
  have h1 : sz + (PGSIZE - 1) < 2 ^ 64 := by
    simp only [MAXVA, PGSIZE] at h ⊢
    omega
  unfold pgroundup
  rw [Nat.mod_eq_of_lt h1]
  rfl

theorem npages_of_le {sz : ℕ} (h : sz ≤ MAXVA) : npages sz = (sz + 4095) / 4096 := by
  unfold npages
  rw [pgroundup_of_le h]
  exact Nat.mul_div_cancel _ (by decide)

end OsLabs.Xv6
