import OsLabs.Fallible
import OsLabs.Xv6.Layout
import Mathlib.Data.List.Perm.Basic
import Mathlib.Logic.Function.Basic

/-!
# OsLabs.Xv6.Kalloc — the physical page allocator (kalloc.c)

`kalloc` is demonic: it returns whichever free page it likes, or none.  A call is run with a list of `answers`, one for each
`kalloc` it makes; an answer that is not on the free list (such as address `0`), or a missing one, makes that `kalloc`
return 0.  `kfree` keeps its sanity check and puts the page back.
-/

namespace OsLabs.Xv6

/-- Physical memory as the allocator sees it. -/
structure Kmem where
  /-- `end`, the first address after the kernel; `kernel.ld` sets it. -/
  kend : ℕ
  /-- The physical page of the trampoline code; `kernel.ld` places it in the kernel's text. -/
  trampoline : Pa
  freelist : List Pa
  /-- What the next calls of `kalloc` answer. -/
  answers : List Pa
  /-- The bytes of every page, by offset. -/
  data : Pa → ℕ → UInt8

namespace Kmem

/-- `memset(pa, v, PGSIZE)`. -/
def memset (m : Kmem) (pa : Pa) (v : UInt8) : Kmem :=
  { m with data := Function.update m.data pa (fun _ => v) }

/-- `memmove(dst, src, PGSIZE)`. -/
def memmove (m : Kmem) (dst src : Pa) : Kmem :=
  { m with data := Function.update m.data dst (m.data src) }

/-- Store one byte at physical address `pa + off`. -/
def store (m : Kmem) (pa : Pa) (off : ℕ) (b : UInt8) : Kmem :=
  { m with data := Function.update m.data pa (Function.update (m.data pa) off b) }

/-- How often page `x` is on the free list. -/
def free (m : Kmem) (x : Pa) : ℕ := m.freelist.count x

@[simp] theorem memset_free (m : Kmem) (pa : Pa) (v : UInt8) : (m.memset pa v).free = m.free := rfl

@[simp] theorem memmove_free (m : Kmem) (d s : Pa) : (m.memmove d s).free = m.free := rfl

/-- Only the contents of pages differ. -/
def DataOnly (m m' : Kmem) : Prop := ∃ d, m' = { m with data := d }

theorem DataOnly.refl (m : Kmem) : DataOnly m m := ⟨m.data, rfl⟩

theorem DataOnly.trans {m1 m2 m3 : Kmem} (h1 : DataOnly m1 m2) (h2 : DataOnly m2 m3) : DataOnly m1 m3 := by
  obtain ⟨d, rfl⟩ := h1
  obtain ⟨d', rfl⟩ := h2
  exact ⟨d', rfl⟩

theorem DataOnly.free {m m' : Kmem} (h : DataOnly m m') : m'.free = m.free := by
  obtain ⟨d, rfl⟩ := h
  rfl

theorem DataOnly.store (m : Kmem) (pa : Pa) (o : ℕ) (b : UInt8) : DataOnly m (m.store pa o b) := ⟨_, rfl⟩

end Kmem

/-- `kalloc`: a free page, filled with junk, or none. -/
def kalloc (m : Kmem) : Option Pa × Kmem :=
  match m.answers with
  | [] => (none, m)
  | pa :: as =>
    if pa ∈ m.freelist then
      (some pa, { m with freelist := m.freelist.erase pa, answers := as }.memset pa 5)
    else (none, { m with answers := as })

/-- `kfree`: fill with junk and put the page at the head of the free list. -/
def kfree (pa : Pa) (m : Kmem) : Except Panic Kmem :=
  if pa % PGSIZE ≠ 0 ∨ pa < m.kend ∨ PHYSTOP ≤ pa then .error .kfree
  else .ok { m.memset pa 1 with freelist := pa :: m.freelist }

/-- `if(pa) kfree(pa)`. -/
def kfreeOpt (pa : Option Pa) (m : Kmem) : Except Panic Kmem :=
  match pa with
  | none => .ok m
  | some pa => kfree pa m

/-- `if(do_free) kfree(pa)`. -/
def kfreeIf (doFree : Bool) (pa : Pa) (m : Kmem) : Except Panic Kmem :=
  if doFree then kfree pa m else .ok m

/-- One for the page `pa`, zero for every other. -/
def single (pa x : Pa) : ℕ := if pa = x then 1 else 0

theorem kalloc_none {m m' : Kmem} (h : kalloc m = (none, m')) : m'.free = m.free := by
  unfold kalloc at h
  split at h
  · obtain ⟨-, rfl⟩ := Prod.mk.inj h
    rfl
  · split_ifs at h with hmem
    · cases h
    · obtain ⟨-, rfl⟩ := Prod.mk.inj h
      rfl

/-- A page that `kalloc` hands out was free, and is free once less. -/
theorem kalloc_some {m m' : Kmem} {pa : Pa} (h : kalloc m = (some pa, m')) (x : Pa) :
    m'.free x + single pa x = m.free x := by
  unfold kalloc at h
  split at h
  · cases h
  · split_ifs at h with hmem
    · obtain ⟨hpa, rfl⟩ := Prod.mk.inj h
      obtain rfl := Option.some.inj hpa
      show (m.freelist.erase _).count x + single _ x = m.freelist.count x
      rw [(List.perm_cons_erase hmem).count_eq, List.count_cons]
      simp [single]
    · cases h

theorem kfree_free {m m' : Kmem} {pa : Pa} (h : kfree pa m = .ok m') (x : Pa) : m'.free x = m.free x + single pa x := by
  unfold kfree at h
  split_ifs at h
  obtain rfl := Except.ok.inj h
  show (pa :: m.freelist).count x = m.freelist.count x + single pa x
  rw [List.count_cons]
  simp [single]

end OsLabs.Xv6
