import OsLabs.Xv6.Kalloc

/-!
# OsLabs.Xv6.Vm — user page tables (vm.c)

A page table is its root page, the directory pages hanging from it, and its leaf PTEs by page number.  A directory page is
keyed by its level and by the part of the address above what it covers, so `walk` finds a level-0 entry exactly when both
directory pages on the path exist; it may add the missing ones.  The pages of one table are its own: the model is exact as
long as no physical page is handed out twice.

Loops of the source that step through addresses page by page recurse on the number of pages left.
-/

namespace OsLabs.Xv6

structure PageTable where
  root : Pa
  /-- The page-table pages below the root: `((level, va >> PXSHIFT (level + 1)), page)`. -/
  dirs : List ((ℕ × ℕ) × Pa)
  /-- The leaf PTEs with `PTE_V` set, by page number `va / PGSIZE`. -/
  pte : ℕ → Option Pte

namespace PageTable

def key (level va : ℕ) : ℕ × ℕ := (level, va / 2 ^ (12 + 9 * (level + 1)))

/-- The level-`level` page-table page on the path to `va`. -/
def dir (pt : PageTable) (level va : ℕ) : Option Pa := pt.dirs.lookup (key level va)

def addDir (pt : PageTable) (level va : ℕ) (pa : Pa) : PageTable :=
  { pt with dirs := (key level va, pa) :: pt.dirs }

def setPte (pt : PageTable) (v : ℕ) (e : Option Pte) : PageTable :=
  { pt with pte := Function.update pt.pte v e }

/-- Both page-table pages on the path to `va` exist. -/
def reaches (pt : PageTable) (va : ℕ) : Bool := (pt.dir 1 va).isSome && (pt.dir 0 va).isSome

/-- The page-table pages, root included. -/
def pages (pt : PageTable) : List Pa := pt.root :: pt.dirs.map Prod.snd

/-- Some level-0 page-table page holds a valid leaf. -/
def hasLeaf (pt : PageTable) : Bool :=
  pt.dirs.any fun d => d.1.1 == 0 && (List.range 512).any fun i => (pt.pte (d.1.2 * 512 + i)).isSome

end PageTable

/-- One round of the loop in `walk`: follow the entry, or make the page-table page when `alloc` says so. -/
def walkLevel (pt : PageTable) (level va : ℕ) (alloc : Bool) (m : Kmem) : Bool × PageTable × Kmem :=
  if (pt.dir level va).isSome then (true, pt, m)
  else if !alloc then (false, pt, m)
  else
    match kalloc m with
    | (none, m) => (false, pt, m)
    | (some pa, m) => (true, pt.addDir level va pa, m.memset pa 0)

/-- `walk`: whether the level-0 entry of `va` exists (`&pagetable[PX(0, va)]`, or 0). -/
def walk (pt : PageTable) (va : ℕ) (alloc : Bool) (m : Kmem) : Except Panic (Bool × PageTable × Kmem) :=
  if MAXVA ≤ va then .error .walk
  else
    match walkLevel pt 1 va alloc m with
    | (false, pt, m) => .ok (false, pt, m)
    | (true, pt, m) => .ok (walkLevel pt 0 va alloc m)

/-- `walkaddr`: the physical page of a user address, or none. -/
def walkaddr (pt : PageTable) (va : ℕ) : Option Pa :=
  if MAXVA ≤ va then none
  else if !pt.reaches va then none
  else
    match pt.pte (va / PGSIZE) with
    | none => none
    | some e => if e.perm.u then some e.pa else none

/-- The loop of `mappages`: `n + 1` pages from `a`. -/
def mappagesLoop (perm : Perm) : ℕ → ℕ → Pa → PageTable → Kmem → Except Panic (Bool × PageTable × Kmem)
  | n, a, pa, pt, m => do
    let (found, pt, m) ← walk pt a true m
    if !found then .ok (false, pt, m)
    else if (pt.pte (a / PGSIZE)).isSome then .error .mappagesRemap
    else
      let pt := pt.setPte (a / PGSIZE) (some ⟨pa, perm⟩)
      match n with
      | 0 => .ok (true, pt, m)
      | n + 1 => mappagesLoop perm n (a + PGSIZE) (pa + PGSIZE) pt m

/-- `mappages`: true for 0, false for -1. -/
def mappages (pt : PageTable) (va size : ℕ) (pa : Pa) (perm : Perm) (m : Kmem) :
    Except Panic (Bool × PageTable × Kmem) :=
  if size = 0 then .error .mappagesSize
  else mappagesLoop perm ((pgrounddown (va + size - 1) - pgrounddown va) / PGSIZE) (pgrounddown va) pa pt m

/-- The loop of `uvmunmap`: `n` pages from `a`. -/
def uvmunmapLoop (doFree : Bool) : ℕ → ℕ → PageTable → Kmem → Except Panic (PageTable × Kmem)
  | 0, _, pt, m => .ok (pt, m)
  | n + 1, a, pt, m => do
    let (found, pt, m) ← walk pt a false m
    if !found then .error .uvmunmapWalk
    else
      match pt.pte (a / PGSIZE) with
      | none => .error .uvmunmapNotMapped
      | some e =>
        -- `PTE_FLAGS(*pte) == PTE_V`
        if e.perm = ⟨false, false, false, false⟩ then .error .uvmunmapNotLeaf
        else do
          let m ← kfreeIf doFree e.pa m
          uvmunmapLoop doFree n (a + PGSIZE) (pt.setPte (a / PGSIZE) none) m

def uvmunmap (pt : PageTable) (va npg : ℕ) (doFree : Bool) (m : Kmem) : Except Panic (PageTable × Kmem) :=
  if va % PGSIZE ≠ 0 then .error .uvmunmapNotAligned
  else uvmunmapLoop doFree npg va pt m

/-- `walk`, and `uvmunmap` of that one page if it is mapped. -/
def unmapMapped (pt : PageTable) (va : ℕ) (doFree : Bool) (m : Kmem) : Except Panic (PageTable × Kmem) := do
  let (found, pt, m) ← walk pt va false m
  if found && (pt.pte (va / PGSIZE)).isSome then uvmunmap pt va 1 doFree m else .ok (pt, m)

/-- `uvmcreate`: an empty page table, or none. -/
def uvmcreate (m : Kmem) : Option PageTable × Kmem :=
  match kalloc m with
  | (none, m) => (none, m)
  | (some pa, m) => (some ⟨pa, [], fun _ => none⟩, m.memset pa 0)

/-- `uvmdealloc`: returns the new size. -/
def uvmdealloc (pt : PageTable) (oldsz newsz : ℕ) (m : Kmem) : Except Panic (ℕ × PageTable × Kmem) :=
  if oldsz ≤ newsz then .ok (oldsz, pt, m)
  else if pgroundup newsz < pgroundup oldsz then do
    let (pt, m) ← uvmunmap pt (pgroundup newsz) ((pgroundup oldsz - pgroundup newsz) / PGSIZE) true m
    .ok (newsz, pt, m)
  else .ok (newsz, pt, m)

/-- The loop of `uvmalloc`: `n` pages from `a`; on failure everything from `oldsz` up to `a` is given back. -/
def uvmallocLoop (perm : Perm) (oldsz : ℕ) : ℕ → ℕ → PageTable → Kmem → Except Panic (Bool × PageTable × Kmem)
  | 0, _, pt, m => .ok (true, pt, m)
  | n + 1, a, pt, m =>
    match kalloc m with
    | (none, m) => do
      let (_, pt, m) ← uvmdealloc pt a oldsz m
      .ok (false, pt, m)
    | (some mem, m) => do
      let (ok, pt, m) ← mappages pt a PGSIZE mem perm (m.memset mem 0)
      if ok then uvmallocLoop perm oldsz n (a + PGSIZE) pt m
      else do
        let m ← kfree mem m
        let (_, pt, m) ← uvmdealloc pt a oldsz m
        .ok (false, pt, m)

/-- `uvmalloc`: the new size, or 0 on error.  `xw` and `xx` are the `PTE_W` and `PTE_X` bits of `xperm`. -/
def uvmalloc (pt : PageTable) (oldsz newsz : ℕ) (xw xx : Bool) (m : Kmem) : Except Panic (ℕ × PageTable × Kmem) :=
  if newsz < oldsz then .ok (oldsz, pt, m)
  else do
    let a := pgroundup oldsz
    let (ok, pt, m) ← uvmallocLoop ⟨true, xw, xx, true⟩ a ((newsz - a + (PGSIZE - 1)) / PGSIZE) a pt m
    .ok (if ok then newsz else 0, pt, m)

/-- `kfree` of every page of a list. -/
def kfreeAll : List Pa → Kmem → Except Panic Kmem
  | [], m => .ok m
  | pa :: pas, m => do
    let m ← kfree pa m
    kfreeAll pas m

/-- `freewalk`: give the page-table pages back; a leaf that is still valid is a panic. -/
def freewalk (pt : PageTable) (m : Kmem) : Except Panic Kmem :=
  if pt.hasLeaf then .error .freewalkLeaf else kfreeAll pt.pages m

def uvmfree (pt : PageTable) (sz : ℕ) (m : Kmem) : Except Panic Kmem :=
  if 0 < sz then do
    let (pt, m) ← uvmunmap pt 0 (pgroundup sz / PGSIZE) true m
    freewalk pt m
  else freewalk pt m

/-- The loop of `uvmcopy`: `n` pages from `i`; false for the error exit. -/
def uvmcopyLoop (old : PageTable) : ℕ → ℕ → PageTable → Kmem → Except Panic (Bool × PageTable × Kmem)
  | 0, _, new, m => .ok (true, new, m)
  | n + 1, i, new, m => do
    let (found, _, m) ← walk old i false m
    if !found then .error .uvmcopyNoPte
    else
      match old.pte (i / PGSIZE) with
      | none => .error .uvmcopyNotPresent
      | some e =>
        match kalloc m with
        | (none, m) => do
          let (new, m) ← uvmunmap new 0 (i / PGSIZE) true m
          .ok (false, new, m)
        | (some mem, m) => do
          let (ok, new, m) ← mappages new i PGSIZE mem e.perm (m.memmove mem e.pa)
          if ok then uvmcopyLoop old n (i + PGSIZE) new m
          else do
            let m ← kfree mem m
            let (new, m) ← uvmunmap new 0 (i / PGSIZE) true m
            .ok (false, new, m)

/-- `uvmcopy`: true for 0, false for -1. -/
def uvmcopy (old new : PageTable) (sz : ℕ) (m : Kmem) : Except Panic (Bool × PageTable × Kmem) :=
  uvmcopyLoop old ((sz + (PGSIZE - 1)) / PGSIZE) 0 new m

/-- `uvmclear`: take `PTE_U` off one page. -/
def uvmclear (pt : PageTable) (va : ℕ) (m : Kmem) : Except Panic PageTable := do
  let (found, pt, _) ← walk pt va false m
  if !found then .error .uvmclear
  else .ok (pt.setPte (va / PGSIZE) ((pt.pte (va / PGSIZE)).map fun e => { e with perm := { e.perm with u := false } }))

/-- `copyout`, byte by byte: false for -1.  A page that is not mapped for the user stops it. -/
def copyout (pt : PageTable) : ℕ → List UInt8 → Kmem → Bool × Kmem
  | _, [], m => (true, m)
  | dstva, b :: bs, m =>
    match walkaddr pt (pgrounddown dstva) with
    | none => (false, m)
    | some pa => copyout pt (add64 dstva 1) bs (m.store pa (dstva % PGSIZE) b)

/-- `uvmfirst`: one page at address 0 for the first process, holding `src`. -/
def uvmfirst (pt : PageTable) (src : List UInt8) (m : Kmem) : Except Panic (PageTable × Kmem) :=
  if PGSIZE ≤ src.length then .error .uvmfirst else
  match kalloc m with
  | (none, _) => .error .kerneltrap
  | (some mem, m) => do
    let (_, pt, m) ← mappages pt 0 PGSIZE mem ⟨true, true, true, true⟩ (m.memset mem 0)
    .ok (pt, { m with data := Function.update m.data mem fun i => src.getD i 0 })

end OsLabs.Xv6
