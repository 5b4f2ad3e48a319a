import OsLabs.Xv6.Pages
import OsLabs.Xv6.Slots
import OsLabs.Xv6.VmSpec
import OsLabs.Xv6.Machine

/-!
# OsLabs.Xv6.CleanFail — a `thread_create` that runs out of memory

Three of the places in `thread_create` can run out of memory: `allocproc`, a page-table page in the share loop, the stack page.
`allocproc` takes back what it took.  The other two call `freeproc` on the half-made thread, whose size is already that of the
leader: `freeproc` unmaps and frees every page below that size, so it panics on a page that was not shared yet and gives the
leader's pages away otherwise.

* `procPagetable_total`, `allocproc_total`: what `allocproc` does, in terms of how many pages `kalloc` serves.
* `shareLoop_inv`: a share loop that fails leaves a hole below the size.
* `clean_iff`: when a failed `thread_create` leaves everything as it was.
-/

namespace OsLabs.Xv6

open Fallible Lts

variable {e : ℕ} {m m' : Kmem} {pt pt' : PageTable} {k k' : Kernel} {p np : Slot}

/-! ## Giving pages back -/

theorem kfree_total {pa : Pa} (hm : m.OkAt e) (h : Legal e pa) : ∃ m', kfree pa m = .ok m' ∧ m'.OkAt e := by
  have hok : ∃ m', kfree pa m = .ok m' := by
    unfold kfree
    rw [if_neg]
    · exact ⟨_, rfl⟩
    · rw [hm.1]
      simpa [not_or, Legal] using h
  obtain ⟨m', h'⟩ := hok
  exact ⟨m', h', kfree_okAt hm m' h'⟩

theorem kfreeAll_free : ∀ {l : List Pa} {m m' : Kmem}, kfreeAll l m = .ok m' → ∀ x, m'.free x = m.free x + l.count x
  | [], m, m', h, x => by
    obtain rfl := Except.ok.inj h
    simp
  | pa :: l, m, m', h, x => by
    unfold kfreeAll at h
    rw [bind_ok] at h
    obtain ⟨m1, h1, h⟩ := h
    rw [kfreeAll_free h x, kfree_free h1 x, List.count_cons]
    simp only [single, beq_iff_eq]
    omega

theorem kfreeAll_total : ∀ {l : List Pa} {m : Kmem}, m.OkAt e → (∀ pa ∈ l, Legal e pa) → ∃ m', kfreeAll l m = .ok m'
  | [], m, _, _ => ⟨m, rfl⟩
  | pa :: l, m, hm, hl => by
    obtain ⟨m1, h1, hm1⟩ := kfree_total hm (hl pa (by simp))
    obtain ⟨m2, h2⟩ := kfreeAll_total hm1 fun x hx => hl x (List.mem_cons_of_mem _ hx)
    exact ⟨m2, by unfold kfreeAll; rw [bind_ok]; exact ⟨m1, h1, h2⟩⟩

theorem freewalk_free (h : freewalk pt m = .ok m') (x : Pa) : m'.free x = m.free x + pt.tab x := by
  unfold freewalk at h
  split_ifs at h
  exact kfreeAll_free h x

theorem freewalk_total (hm : m.OkAt e) (hl : pt.hasLeaf = false) (hp : ∀ pa ∈ pt.pages, Legal e pa) :
    ∃ m', freewalk pt m = .ok m' := by
  unfold freewalk
  rw [hl]
  exact kfreeAll_total hm hp

theorem hasLeaf_of_none (h : ∀ v, pt.pte v = none) : pt.hasLeaf = false := by
  simp [PageTable.hasLeaf, h]

/-- `walk` that only looks. -/
theorem walk_look {va : ℕ} (hva : va < MAXVA) : walk pt va false m = .ok (pt.reaches va, pt, m) := by
  unfold walk
  rw [if_neg (by omega)]
  unfold walkLevel
  simp only [PageTable.reaches]
  cases h1 : (pt.dir 1 va).isSome <;> cases h0 : (pt.dir 0 va).isSome <;> simp [h0]

/-- `uvmunmap` of one mapped page that is kept. -/
theorem uvmunmap_keep {va : ℕ} {x : Pte} (ha : va % PGSIZE = 0) (hva : va < MAXVA) (hr : pt.reaches va = true)
    (hx : pt.pte (va / PGSIZE) = some x) (hp : x.perm ≠ ⟨false, false, false, false⟩) :
    uvmunmap pt va 1 false m = .ok (pt.setPte (va / PGSIZE) none, m) := by
  unfold uvmunmap
  rw [if_neg (by omega)]
  unfold uvmunmapLoop
  rw [bind_ok]
  refine ⟨_, walk_look hva, ?_⟩
  dsimp only
  rw [hr, hx]
  simp only [Bool.not_true, Bool.false_eq_true, if_false, if_neg hp]
  rfl

/-- A page table with the trampoline and the trapframe page and nothing else. -/
structure OnlyKernel (pt : PageTable) : Prop where
  tramp : ∃ x, pt.pte trampPage = some x ∧ x.perm ≠ ⟨false, false, false, false⟩ ∧ x.perm.u = false
  trapf : ∃ x, pt.pte tfPage = some x ∧ x.perm ≠ ⟨false, false, false, false⟩ ∧ x.perm.u = false
  other : ∀ v, v ≠ trampPage → v ≠ tfPage → pt.pte v = none
  reachTramp : pt.reaches TRAMPOLINE = true
  reachTrapf : pt.reaches TRAPFRAME = true

theorem OnlyKernel.grows (h : OnlyKernel pt) (hg : Grows pt pt' m m') : OnlyKernel pt' := by
  refine ⟨?_, ?_, ?_, hg.reaches h.reachTramp, hg.reaches h.reachTrapf⟩
  · rw [hg.pte]
    exact h.tramp
  · rw [hg.pte]
    exact h.trapf
  · rw [hg.pte]
    exact h.other

theorem OnlyKernel.user (h : OnlyKernel pt) (v : ℕ) (hv : v < tfPage) : pt.pte v = none := by
  have ht : tfPage < trampPage := by decide
  exact h.other v (by omega) (by omega)

theorem npages_zero : npages 0 = 0 := by decide

/-- Such a page table can be freed, as long as no page below the size is left. -/
theorem OnlyKernel.free_total {sz : ℕ} (h : OnlyKernel pt) (hsz : npages sz = 0) (hm : m.OkAt e)
    (hp : ∀ pa ∈ pt.pages, Legal e pa) : ∃ m', procFreepagetable pt sz m = .ok m' := by
  obtain ⟨x, hx, hxp, -⟩ := h.tramp
  obtain ⟨y, hy, hyp, -⟩ := h.trapf
  have hu1 : uvmunmap pt TRAMPOLINE 1 false m = .ok (pt.setPte trampPage none, m) :=
    uvmunmap_keep (by decide) (by decide) h.reachTramp hx hxp
  have hy' : (pt.setPte trampPage none).pte tfPage = some y := by
    rw [PageTable.setPte_of_ne _ _ (by decide), hy]
  have hu2 : uvmunmap (pt.setPte trampPage none) TRAPFRAME 1 false m =
      .ok ((pt.setPte trampPage none).setPte tfPage none, m) :=
    uvmunmap_keep (by decide) (by decide) h.reachTrapf hy' hyp
  have hnone : ∀ v, ((pt.setPte trampPage none).setPte tfPage none).pte v = none := by
    intro v
    rw [PageTable.setPte_apply, PageTable.setPte_apply]
    split_ifs with h1 h2
    · rfl
    · rfl
    · exact h.other v h2 h1
  obtain ⟨m', hf⟩ : ∃ m', freewalk ((pt.setPte trampPage none).setPte tfPage none) m = .ok m' :=
    freewalk_total hm (hasLeaf_of_none hnone) hp
  refine ⟨m', ?_⟩
  unfold procFreepagetable
  rw [bind_ok]
  refine ⟨_, hu1, ?_⟩
  rw [bind_ok]
  refine ⟨_, hu2, ?_⟩
  unfold uvmfree
  split_ifs
  · rw [bind_ok]
    refine ⟨((pt.setPte trampPage none).setPte tfPage none, m), ?_, hf⟩
    unfold uvmunmap
    rw [if_neg (by decide), pgroundup_div, hsz]
    rfl
  · exact hf

/-- **`proc_freepagetable`.**  Every page below the size was mapped; these pages and those of the table are free now. -/
theorem procFreepagetable_inv {sz : ℕ} (h : procFreepagetable pt sz m = .ok m') :
    (∀ v, v < npages sz → pt.pte v ≠ none) ∧ npages sz ≤ tfPage ∧ ∃ f : ℕ → Option Pte,
      (∀ v, v ≠ trampPage → v ≠ tfPage → f v = pt.pte v) ∧
      ∀ x, m'.free x = m.free x + leaves f 0 (npages sz) x + pt.tab x := by
  unfold procFreepagetable at h
  simp only [bind_ok] at h
  obtain ⟨⟨pt1, m1⟩, h1, ⟨pt2, m2⟩, h2, h⟩ := h
  obtain ⟨-, rfl, hf1, -⟩ := uvmunmap_inv h1
  obtain ⟨-, rfl, hf2, -⟩ := uvmunmap_inv h2
  dsimp only at h
  have hpte : ∀ v, ((pt.unmap (TRAMPOLINE / PGSIZE) 1).unmap (TRAPFRAME / PGSIZE) 1).pte v ≠ none → pt.pte v ≠ none := by
    intro v hv
    rw [PageTable.unmap_apply, PageTable.unmap_apply] at hv
    split_ifs at hv
    · exact absurd rfl hv
    · exact absurd rfl hv
    · exact hv
  have hother : ∀ v, v ≠ trampPage → v ≠ tfPage →
      ((pt.unmap (TRAMPOLINE / PGSIZE) 1).unmap (TRAPFRAME / PGSIZE) 1).pte v = pt.pte v := by
    intro v ht hf
    rw [PageTable.unmap_apply, PageTable.unmap_apply, if_neg, if_neg]
    · exact fun hv => ht (show v = TRAMPOLINE / PGSIZE by omega)
    · exact fun hv => hf (show v = TRAPFRAME / PGSIZE by omega)
  have hm2 : ∀ x, m2.free x = m.free x := fun x => by simpa [hf1 x] using hf2 x
  unfold uvmfree at h
  split_ifs at h with hsz
  · rw [bind_ok] at h
    obtain ⟨⟨pt3, m3⟩, h3, h⟩ := h
    obtain ⟨-, rfl, hf3, hall⟩ := uvmunmap_inv h3
    rw [Nat.zero_div, pgroundup_div] at hf3 hall
    refine ⟨fun v hv => hpte v (hall v (by omega) (by omega)), ?_, _, hother, fun x => ?_⟩
    · -- the trapframe page is not mapped any more
      by_contra hlt
      refine hall tfPage (by omega) (by omega) ?_
      rw [PageTable.unmap_apply, if_pos ⟨le_rfl, Nat.lt_succ_self _⟩]
    rw [freewalk_free h x, hf3, hm2]
    simp
  · obtain rfl : sz = 0 := by omega
    rw [npages_zero]
    refine ⟨fun v hv => by omega, by omega, _, hother, fun x => ?_⟩
    rw [freewalk_free h x, hm2]
    simp

/-! ## allocproc -/

/-- Whether `kalloc` would give `n` pages in a row. -/
def serves : ℕ → Kmem → Bool
  | 0, _ => true
  | n + 1, m =>
    match kalloc m with
    | (none, _) => false
    | (some _, m) => serves n m

theorem serves_none {n : ℕ} (h : kalloc m = (none, m')) : serves (n + 1) m = false := by
  simp [serves, h]

theorem serves_some {n : ℕ} {pa : Pa} (h : kalloc m = (some pa, m')) : serves (n + 1) m = serves n m' := by
  simp [serves, h]

theorem kalloc_dataOnly (h : m.DataOnly m') : (kalloc m').1 = (kalloc m).1 ∧ (kalloc m).2.DataOnly (kalloc m').2 := by
  obtain ⟨d, rfl⟩ := h
  unfold kalloc
  dsimp only
  split
  · exact ⟨rfl, _, rfl⟩
  · split_ifs
    · exact ⟨rfl, _, rfl⟩
    · exact ⟨rfl, _, rfl⟩

/-- What the pages hold does not matter. -/
theorem serves_dataOnly : ∀ {n : ℕ} {m m' : Kmem}, m.DataOnly m' → serves n m' = serves n m
  | 0, _, _, _ => rfl
  | n + 1, m, m', h => by
    obtain ⟨h1, h2⟩ := kalloc_dataOnly h
    rcases hk : kalloc m with ⟨_ | pa, m1⟩ <;> rcases hk' : kalloc m' with ⟨_ | pa', m1'⟩ <;> rw [hk, hk'] at h1
    · rw [serves_none hk, serves_none hk']
    · cases h1
    · cases h1
    · rw [serves_some hk, serves_some hk']
      rw [hk, hk'] at h2
      exact serves_dataOnly h2

theorem serves_memset (n : ℕ) (m : Kmem) (pa : Pa) (v : UInt8) : serves n (m.memset pa v) = serves n m :=
  serves_dataOnly ⟨_, rfl⟩

/-- `walkLevel` that has no page for the missing page-table page. -/
theorem walkLevel_noPage {level va : ℕ} (h : pt.dir level va = none) (hk : kalloc m = (none, m')) :
    walkLevel pt level va true m = (false, pt, m') := by
  simp [walkLevel, h, hk]

/-- `walkLevel` that makes the missing page-table page. -/
theorem walkLevel_newPage {level va : ℕ} {pa : Pa} (h : pt.dir level va = none) (hk : kalloc m = (some pa, m')) :
    walkLevel pt level va true m = (true, pt.addDir level va pa, m'.memset pa 0) := by
  simp [walkLevel, h, hk]

theorem walkLevel_found {level va : ℕ} {alloc : Bool} (h : (pt.dir level va).isSome = true) :
    walkLevel pt level va alloc m = (true, pt, m) := by
  unfold walkLevel
  rw [if_pos h]

/-- `mappages` of one page is `walk` and one entry. -/
theorem mappages_one {va : ℕ} {pa : Pa} {perm : Perm} (ha : va % PGSIZE = 0) : mappages pt va PGSIZE pa perm m =
    (walk pt va true m >>= fun r =>
      if !r.1 then .ok (false, r.2.1, r.2.2)
      else if (r.2.1.pte (va / PGSIZE)).isSome then .error .mappagesRemap
      else .ok (true, r.2.1.setPte (va / PGSIZE) (some ⟨pa, perm⟩), r.2.2)) := by
  have hn : (pgrounddown (va + PGSIZE - 1) - pgrounddown va) / PGSIZE = 0 := by
    simp only [pgrounddown, PGSIZE] at *
    omega
  unfold mappages
  rw [if_neg (by decide), hn, pgrounddown_of_mod ha]
  unfold mappagesLoop
  rfl

theorem mappages_new {va : ℕ} {pa : Pa} {perm : Perm} (ha : va % PGSIZE = 0) (hw : walk pt va true m = .ok (true, pt', m'))
    (hn : pt'.pte (va / PGSIZE) = none) :
    mappages pt va PGSIZE pa perm m = .ok (true, pt'.setPte (va / PGSIZE) (some ⟨pa, perm⟩), m') := by
  rw [mappages_one ha, hw]
  show (if (pt'.pte (va / PGSIZE)).isSome = true then _ else _) = _
  simp only [hn, Option.isSome_none, Bool.false_eq_true, if_false]

/-- Pages that were all free are legal. -/
theorem legal_of_tab (hm : m.OkAt e) (h : ∀ x, pt.tab x ≤ m.free x) : ∀ pa ∈ pt.pages, Legal e pa := by
  intro pa hpa
  have h1 : 0 < pt.tab pa := List.count_pos_iff.mpr hpa
  exact hm.2 pa (List.count_pos_iff.mp (h1.trans_le (h pa)))

/-- The page table that `uvmcreate` makes. -/
def emptyTable (r : Pa) : PageTable := ⟨r, [], fun _ => none⟩

theorem emptyTable_tab (r x : Pa) : (emptyTable r).tab x = single r x := by
  show [r].count x = _
  simp [single, List.count_cons]

/-- The page table that `proc_pagetable` makes of three pages. -/
def kernelTable (r d1 d0 tf tr : Pa) : PageTable :=
  (((emptyTable r).addDir 1 TRAMPOLINE d1).addDir 0 TRAMPOLINE d0).setPte trampPage
    (some ⟨tr, true, false, true, false⟩) |>.setPte tfPage (some ⟨tf, true, true, false, false⟩)

theorem kernelTable_only (r d1 d0 tf tr : Pa) : OnlyKernel (kernelTable r d1 d0 tf tr) := by
  refine ⟨⟨⟨tr, true, false, true, false⟩, ?_, by simp, rfl⟩, ⟨⟨tf, true, true, false, false⟩, ?_, by simp, rfl⟩, fun v h1 h2 => ?_,
    rfl, rfl⟩
  · unfold kernelTable
    rw [PageTable.setPte_of_ne _ _ (by decide), PageTable.setPte_self]
  · exact PageTable.setPte_self _ _ _
  · unfold kernelTable
    rw [PageTable.setPte_of_ne _ _ h2, PageTable.setPte_of_ne _ _ h1]
    rfl

theorem kernelTable_tab (r d1 d0 tf tr x : Pa) :
    (kernelTable r d1 d0 tf tr).tab x = single r x + single d1 x + single d0 x := by
  show [r, d0, d1].count x = _
  simp only [List.count_cons, List.count_nil, single, beq_iff_eq]
  omega

/-- `proc_pagetable` once the root page is there. -/
theorem procPagetable_root {tf r : Pa} {m1 : Kmem} (hk : kalloc m = (some r, m1)) : procPagetable tf m =
    (mappages (emptyTable r) TRAMPOLINE PGSIZE m1.trampoline ⟨true, false, true, false⟩ (m1.memset r 0) >>= fun t =>
      if !t.1 then do
        let m ← uvmfree t.2.1 0 t.2.2
        .ok (none, m)
      else do
        let (ok, pt, m) ← mappages t.2.1 TRAPFRAME PGSIZE tf ⟨true, true, false, false⟩ t.2.2
        if !ok then do
          let (pt, m) ← uvmunmap pt TRAMPOLINE 1 false m
          let m ← uvmfree pt 0 m
          .ok (none, m)
        else .ok (some pt, m)) := by
  simp only [procPagetable, uvmcreate, hk]
  rfl

/-- No page-table page for the trampoline: everything goes back. -/
theorem procPagetable_noTable {tf r : Pa} {m1 m2 : Kmem} {pt1 : PageTable} (hm : m.OkAt e) (hk : kalloc m = (some r, m1))
    (hw : walk (emptyTable r) TRAMPOLINE true (m1.memset r 0) = .ok (false, pt1, m2)) :
    ∃ m', procPagetable tf m = .ok (none, m') ∧ m'.OkAt e ∧ m'.free = m.free := by
  have hm1 : m1.OkAt e := kalloc_okAt hm hk
  have hm2 : m2.OkAt e := walk_okAt (m := m1.memset r 0) hm1 _ hw
  obtain ⟨-, hg, -, -⟩ := walk_inv hw
  have hpages : ∀ x, m2.free x + pt1.tab x = m.free x := by
    intro x
    have h1 := hg.pages x
    have h2 := kalloc_some hk x
    rw [emptyTable_tab, Kmem.memset_free] at h1
    omega
  have hnone : ∀ v, pt1.pte v = none := fun v => by rw [hg.pte]; rfl
  obtain ⟨m', hf⟩ := freewalk_total hm2 (hasLeaf_of_none hnone)
    (legal_of_tab hm fun x => by have := hpages x; omega)
  refine ⟨m', ?_, freewalk_okAt hm2 _ hf, funext fun x => by rw [freewalk_free hf x, hpages x]⟩
  rw [procPagetable_root hk, mappages_one (by decide), hw]
  show (freewalk pt1 m2 >>= fun m => .ok (none, m)) = _
  rw [hf]
  rfl

/-- **`proc_pagetable`.**  It needs three pages; with fewer it gives back what it took. -/
theorem procPagetable_total (tf : Pa) (hm : m.OkAt e) :
    (serves 3 m = false ∧ ∃ m', procPagetable tf m = .ok (none, m') ∧ m'.OkAt e ∧ m'.free = m.free) ∨
    (serves 3 m = true ∧ ∃ pt m', procPagetable tf m = .ok (some pt, m') ∧ OnlyKernel pt ∧
      ∀ x, m'.free x + pt.tab x = m.free x) := by
  -- the root page
  rcases hk1 : kalloc m with ⟨_ | r, m1⟩
  · refine .inl ⟨serves_none hk1, m1, ?_, kalloc_okAt hm hk1, kalloc_none hk1⟩
    simp [procPagetable, uvmcreate, hk1]
  have hs1 : serves 3 m = serves 2 (m1.memset r 0) := by
    rw [serves_some hk1, serves_memset]
  -- the two page-table pages on the path to the trampoline
  rcases hk2 : kalloc (m1.memset r 0) with ⟨_ | d1, m2⟩
  · have hw : walk (emptyTable r) TRAMPOLINE true (m1.memset r 0) = .ok (false, emptyTable r, m2) := by
      unfold walk
      rw [if_neg (by decide), walkLevel_noPage rfl hk2]
    exact .inl ⟨by rw [hs1, serves_none hk2], procPagetable_noTable hm hk1 hw⟩
  have hs2 : serves 2 (m1.memset r 0) = serves 1 (m2.memset d1 0) := by
    rw [serves_some hk2, serves_memset]
  rcases hk3 : kalloc (m2.memset d1 0) with ⟨_ | d0, m3⟩
  · have hw : walk (emptyTable r) TRAMPOLINE true (m1.memset r 0) =
        .ok (false, (emptyTable r).addDir 1 TRAMPOLINE d1, m3) := by
      unfold walk
      rw [if_neg (by decide), walkLevel_newPage rfl hk2]
      dsimp only
      rw [walkLevel_noPage rfl hk3]
    exact .inl ⟨by rw [hs1, hs2, serves_none hk3], procPagetable_noTable hm hk1 hw⟩
  have hw1 : walk (emptyTable r) TRAMPOLINE true (m1.memset r 0) =
      .ok (true, ((emptyTable r).addDir 1 TRAMPOLINE d1).addDir 0 TRAMPOLINE d0, m3.memset d0 0) := by
    unfold walk
    rw [if_neg (by decide), walkLevel_newPage rfl hk2]
    dsimp only
    rw [walkLevel_newPage rfl hk3]
  -- the trapframe page lies in the same level-0 page
  have hw2 : ∀ x, walk ((((emptyTable r).addDir 1 TRAMPOLINE d1).addDir 0 TRAMPOLINE d0).setPte trampPage (some x))
      TRAPFRAME true (m3.memset d0 0) =
      .ok (true, (((emptyTable r).addDir 1 TRAMPOLINE d1).addDir 0 TRAMPOLINE d0).setPte trampPage (some x),
        m3.memset d0 0) := by
    intro x
    unfold walk
    rw [if_neg (by decide), walkLevel_found rfl]
    dsimp only
    rw [walkLevel_found rfl]
  refine .inr ⟨by rw [hs1, hs2, serves_some hk3]; rfl, kernelTable r d1 d0 tf m1.trampoline, m3.memset d0 0, ?_,
    kernelTable_only _ _ _ _ _, fun x => ?_⟩
  · rw [procPagetable_root hk1, mappages_new (by decide) hw1 rfl, bind_ok]
    refine ⟨_, rfl, ?_⟩
    simp only [Bool.not_true, Bool.false_eq_true, if_false, bind_ok]
    exact ⟨_, mappages_new (by decide) (hw2 _) rfl, rfl⟩
  · have h1 := kalloc_some hk1 x
    have h2 := kalloc_some hk2 x
    have h3 := kalloc_some hk3 x
    rw [Kmem.memset_free] at h2 h3
    rw [kernelTable_tab, Kmem.memset_free]
    omega

/-- **Nothing happened.**  What was in use is as it was, what was unused is unused, and the same pages are free. -/
structure Clean (k k' : Kernel) : Prop where
  live : ∀ i, (k.proc i).state ≠ .unused → k'.proc i = k.proc i
  unused : ∀ i, (k.proc i).state = .unused →
    k'.proc i = k.proc i ∨ ∃ fr, k'.proc i = { (k.proc i).freed with frame := fr }
  pages : ∀ x, k'.mem.free x = k.mem.free x

/-- An unused slot was taken and given up again. -/
theorem Clean.of_freed {i : Slot} {f : Frame} (hi : (k.proc i).state = .unused)
    (hself : k'.proc i = { (k.proc i).freed with frame := f }) (hne : ∀ j, j ≠ i → k'.proc j = k.proc j)
    (hpages : ∀ x, k'.mem.free x = k.mem.free x) : Clean k k' := by
  refine ⟨fun j hj => hne j fun h => hj (h ▸ hi), fun j _ => ?_, hpages⟩
  by_cases h : j = i
  · subst h
    exact .inr ⟨f, hself⟩
  · exact .inl (hne j h)

/-- A slot that `allocproc` took: the trapframe page `tf`, the page table `pt`, nothing else. -/
structure Taken (e : ℕ) (k k1 : Kernel) (np : Slot) (tf : Pa) (pt : PageTable) : Prop where
  unused : (k.proc np).state = .unused
  self : k1.proc np = (k.proc np).allocated k.nextpid tf pt
  other : ∀ i, i ≠ np → k1.proc i = k.proc i
  only : OnlyKernel pt
  okAt : k1.mem.OkAt e
  legal : Legal e tf
  pages : ∀ x, k1.mem.free x + pt.tab x + single tf x = k.mem.free x

theorem freeproc_total {i : Slot} (hm : k.mem.OkAt e) (hb : (k.proc i).pagetable = none)
    (ht : ∀ tf, (k.proc i).trapframe = some tf → Legal e tf) : ∃ k', freeproc k i = .ok k' := by
  obtain ⟨m1, h1⟩ : ∃ m1, kfreeOpt (k.proc i).trapframe k.mem = .ok m1 := by
    cases htf : (k.proc i).trapframe with
    | none => exact ⟨_, rfl⟩
    | some tf =>
      obtain ⟨m1, h1, -⟩ := kfree_total hm (ht tf htf)
      exact ⟨m1, h1⟩
  refine ⟨(k.setMem m1).setProc i (k.proc i).freed, ?_⟩
  unfold freeproc
  simp only [bind_ok]
  exact ⟨m1, h1, m1, by rw [hb]; rfl, rfl⟩

/-- `allocproc` does not panic. -/
theorem allocproc_returns (hm : k.mem.OkAt e) (hb : k.Bare) : ∃ r, allocproc k = .ok r := by
  unfold allocproc
  split
  · exact ⟨_, rfl⟩
  rename_i i hf
  have hi : (k.proc i).state = .unused := by simpa using List.find?_some hf
  dsimp only [allocpid]
  split
  · rename_i m1 hk
    obtain ⟨k1, hk1⟩ := freeproc_total (k := ((Kernel.bumpPid k).setMem m1).setProc i
      { k.proc i with pid := k.nextpid, state := .used, trapframe := none }) (i := i) (kalloc_okAt hm hk)
      (by rw [Kernel.setProc_self]; exact hb i hi) (by rw [Kernel.setProc_self]; nofun)
    exact ⟨(none, k1), bind_ok.mpr ⟨k1, hk1, rfl⟩⟩
  · rename_i tf m1 hk
    rcases procPagetable_total tf (kalloc_okAt hm hk) with ⟨-, m2, hp, hm2, -⟩ | ⟨-, pt, m2, hp, -⟩
    · obtain ⟨k1, hk1⟩ := freeproc_total (k := ((Kernel.bumpPid k).setMem m2).setProc i
        { k.proc i with pid := k.nextpid, state := .used, trapframe := some tf, pagetable := none }) (i := i) hm2
        (by rw [Kernel.setProc_self]) fun x hx => by
          rw [Kernel.setProc_self] at hx
          exact Option.some.inj hx ▸ kalloc_legal hm hk
      exact ⟨(none, k1), bind_ok.mpr ⟨(none, m2), hp, bind_ok.mpr ⟨k1, hk1, rfl⟩⟩⟩
    · exact ⟨_, bind_ok.mpr ⟨(some pt, m2), hp, rfl⟩⟩

/-- **`allocproc`.**  It needs a slot and four pages; otherwise it leaves everything as it was. -/
theorem allocproc_total (hm : k.mem.OkAt e) (hb : k.Bare) :
    (((∀ i, (k.proc i).state ≠ .unused) ∨ serves 4 k.mem = false) ∧ ∃ k1, allocproc k = .ok (none, k1) ∧ Clean k k1) ∨
    ((∃ i, (k.proc i).state = .unused) ∧ serves 4 k.mem = true ∧
      ∃ np k1 tf pt, allocproc k = .ok (some np, k1) ∧ Taken e k k1 np tf pt) := by
  obtain ⟨⟨np, k1⟩, hal⟩ := allocproc_returns hm hb
  cases allocproc_inv hal with
  | noSlot hn => exact .inl ⟨.inl hn, k, hal, ⟨fun _ _ => rfl, fun _ _ => .inl rfl, fun _ => rfl⟩⟩
  | @noTrapframe i m1 m2 hi h1 h2 =>
    refine .inl ⟨.inr (serves_none h1), _, hal, Clean.of_freed hi (Kernel.setProc_self _ _ _)
      (fun j hj => Kernel.setProc_of_ne _ _ hj) fun x => ?_⟩
    obtain ⟨m3, h3, h4⟩ := h2
    obtain rfl := Except.ok.inj h3
    rw [show ({ k.proc i with trapframe := none } : Proc).pagetable = none from hb i hi] at h4
    obtain rfl := Except.ok.inj h4
    exact congrFun (kalloc_none h1) x
  | @noPagetable i tf m1 m2 m3 hi h1 h2 h3 =>
    have hok : m1.OkAt e := kalloc_okAt hm h1
    rcases procPagetable_total tf hok with ⟨hs, m4, hp, -, hfree⟩ | ⟨-, pt, m4, hp, -⟩
    · rw [h2] at hp
      obtain ⟨-, rfl⟩ := Prod.mk.inj (Except.ok.inj hp)
      refine .inl ⟨.inr ((serves_some h1).trans hs), _, hal, Clean.of_freed hi (Kernel.setProc_self _ _ _)
        (fun j hj => Kernel.setProc_of_ne _ _ hj) fun x => ?_⟩
      obtain ⟨m5, h5, h6⟩ := h3
      obtain rfl := Except.ok.inj h6
      have e1 := kfree_free h5 x
      have e2 := kalloc_some h1 x
      rw [hfree] at e1
      show m5.free x = _
      omega
    · rw [h2] at hp
      cases hp
  | @ok i tf pt m1 m2 hi h1 h2 =>
    have hok : m1.OkAt e := kalloc_okAt hm h1
    rcases procPagetable_total tf hok with ⟨-, m4, hp, -⟩ | ⟨hs, pt1, m4, hp, honly, hpages⟩
    · rw [h2] at hp
      cases hp
    · rw [h2] at hp
      obtain ⟨hpt, rfl⟩ := Prod.mk.inj (Except.ok.inj hp)
      obtain rfl := Option.some.inj hpt
      refine .inr ⟨⟨i, hi⟩, (serves_some h1).trans hs, i, _, tf, pt, hal, hi, Kernel.setProc_self _ _ _,
        fun j hj => Kernel.setProc_of_ne _ _ hj, honly, procPagetable_okAt hok _ h2, kalloc_legal hm h1, fun x => ?_⟩
      have e1 := kalloc_some h1 x
      have e2 := hpages x
      show m2.free x + _ + _ = _
      omega

/-! ## The share loop and the stack -/

/-- **The share loop.**  It only takes page-table pages; when it fails, the page it stopped at is not mapped. -/
theorem shareLoop_inv {lpt : PageTable} : ∀ {n va : ℕ} {pt pt' : PageTable} {m m' : Kmem} {b : Bool}, va % PGSIZE = 0 →
    (∀ v, va / PGSIZE ≤ v → v < tfPage → pt.pte v = none) → shareLoop lpt n va pt m = .ok (b, pt', m') →
    (∀ x, m'.free x + pt'.tab x = m.free x + pt.tab x) ∧ (∀ v, va / PGSIZE + n ≤ v → pt'.pte v = pt.pte v) ∧
    (b = false → ∃ v, v < va / PGSIZE + n ∧ pt'.pte v = none)
  | 0, va, pt, pt', m, m', b, _, _, h => by
    simp only [shareLoop, Except.ok.injEq, Prod.mk.injEq] at h
    obtain ⟨rfl, rfl, rfl⟩ := h
    exact ⟨fun _ => rfl, fun _ _ => rfl, nofun⟩
  | n + 1, va, pt, pt', m, m', b, ha, hnone, h => by
    have hnext : ∀ {pt1 : PageTable} {m1 : Kmem}, (∀ v, va / PGSIZE + 1 ≤ v → v < tfPage → pt1.pte v = none) →
        shareLoop lpt n (va + PGSIZE) pt1 m1 = .ok (b, pt', m') →
        (∀ x, m'.free x + pt'.tab x = m1.free x + pt1.tab x) ∧
        (∀ v, va / PGSIZE + (n + 1) ≤ v → pt'.pte v = pt1.pte v) ∧
        (b = false → ∃ v, v < va / PGSIZE + (n + 1) ∧ pt'.pte v = none) := by
      intro pt1 m1 h1 hs
      rw [← add_PGSIZE_div] at h1
      obtain ⟨hp, ho, hb⟩ := shareLoop_inv (add_PGSIZE_mod ha) h1 hs
      rw [add_PGSIZE_div] at ho hb
      refine ⟨hp, fun v hv => ho v (by omega), fun hf => ?_⟩
      obtain ⟨v, hv, hv'⟩ := hb hf
      exact ⟨v, by omega, hv'⟩
    have hskip : ∀ v, va / PGSIZE + 1 ≤ v → v < tfPage → pt.pte v = none := fun v hv => hnone v (by omega)
    unfold shareLoop at h
    split_ifs at h with htf
    · simp only [Except.ok.injEq, Prod.mk.injEq] at h
      obtain ⟨rfl, rfl, rfl⟩ := h
      exact ⟨fun _ => rfl, fun _ _ => rfl, nofun⟩
    rw [bind_ok] at h
    obtain ⟨⟨found, lpt1, m1⟩, hw, h⟩ := h
    obtain ⟨-, -, -, hlook⟩ := walk_inv hw
    obtain ⟨-, -, rfl⟩ := hlook rfl
    dsimp only at h
    split at h
    · exact hnext hskip h
    rename_i x _
    split_ifs at h
    · rw [bind_ok] at h
      obtain ⟨⟨ok, pt1, m2⟩, hmap, h⟩ := h
      obtain ⟨-, pt2, hg, ⟨rfl, rfl⟩ | ⟨rfl, -, -, rfl⟩⟩ := mappages_inv ha hmap
      · simp only [Bool.false_eq_true, if_false, Except.ok.injEq, Prod.mk.injEq] at h
        obtain ⟨rfl, rfl, rfl⟩ := h
        refine ⟨hg.pages, fun v _ => by rw [hg.pte], fun _ => ⟨va / PGSIZE, by omega, ?_⟩⟩
        rw [hg.pte]
        exact hnone _ le_rfl ((lt_tfPage_iff ha).mpr (by omega))
      · have h1 : ∀ v, va / PGSIZE + 1 ≤ v → v < tfPage →
            (pt2.setPte (va / PGSIZE) (some ⟨x.pa, x.perm⟩)).pte v = none := fun v hv hv' => by
          rw [PageTable.setPte_of_ne _ _ (by omega), hg.pte]
          exact hskip v hv hv'
        obtain ⟨hp, ho, hb⟩ := hnext h1 h
        refine ⟨fun y => (hp y).trans (hg.pages y), fun v hv => ?_, hb⟩
        rw [ho v hv, PageTable.setPte_of_ne _ _ (by omega), hg.pte]
    · exact hnext hskip h

theorem share_inv {lpt : Option PageTable} {sz : ℕ} {b : Bool} (ho : OnlyKernel pt)
    (h : share lpt sz pt m = .ok (b, pt', m')) :
    (∀ x, m'.free x + pt'.tab x = m.free x + pt.tab x) ∧ (∀ v, npages sz ≤ v → pt'.pte v = pt.pte v) ∧
    (b = false → ∃ v, v < npages sz ∧ pt'.pte v = none) ∧ (npages sz = 0 → b = true ∧ pt' = pt ∧ m' = m) := by
  cases lpt with
  | none =>
    unfold share at h
    dsimp only at h
    split_ifs at h
    simp only [Except.ok.injEq, Prod.mk.injEq] at h
    obtain ⟨rfl, rfl, rfl⟩ := h
    exact ⟨fun _ => rfl, fun _ _ => rfl, nofun, fun _ => ⟨rfl, rfl, rfl⟩⟩
  | some lpt =>
    unfold share at h
    dsimp only at h
    obtain ⟨hp, hother, hb⟩ := shareLoop_inv rfl (fun v _ => ho.user v) h
    refine ⟨hp, fun v hv => hother v (by simpa [pgroundup_div] using hv), fun hf => ?_, fun hn => ?_⟩
    · obtain ⟨v, hv, hv'⟩ := hb hf
      exact ⟨v, by simpa [pgroundup_div] using hv, hv'⟩
    · rw [pgroundup_div, hn] at h
      simp only [shareLoop, Except.ok.injEq, Prod.mk.injEq] at h
      obtain ⟨rfl, rfl, rfl⟩ := h
      exact ⟨rfl, rfl, rfl⟩

/-- `uvmalloc` of a stack page returns 0 only when there was no page for it. -/
theorem stack_grows {base : ℕ} (h : uvmalloc pt base (add64 base PGSIZE) true false m = .ok (0, pt', m')) :
    Grows pt pt' m m' := by
  generalize hr : 0 = r at h
  cases uvmalloc_inv h with
  | same hlt => omega
  | noMem _ hg => exact hg
  | ok hle _ _ _ =>
    -- a stack that ends at 0 would have to start there
    exfalso
    simp only [add64, PGSIZE] at *
    omega

/-! ## thread_create -/

/-- Whether an allocation fails in `thread_create`: `allocproc` gives no slot, the share loop has no page for the page table,
or there is no page for the stack. -/
def allocFails (k : Kernel) (p : Slot) : Bool :=
  match allocproc k with
  | .ok (some np, k1) =>
    match groupLeader k1 p, (k1.proc np).pagetable with
    | some l, some pt =>
      match share (k1.proc l).pagetable (k1.proc l).sz pt k1.mem with
      | .ok (false, _, _) => true
      | .ok (true, pt1, m1) =>
        match uvmalloc pt1 (stackBase (k1.proc np).pid) (add64 (stackBase (k1.proc np).pid) PGSIZE) true false m1 with
        | .ok (r, _, _) => r == 0
        | .error _ => false
      | .error _ => false
    | _, _ => false
  | _ => true

/-- The half-made thread in slot `np` that the error exits give to `freeproc`. -/
def half (k1 : Kernel) (np l : Slot) (pt : PageTable) (m : Kmem) : Kernel :=
  (k1.setMem m).setProc np { k1.proc np with sz := (k1.proc l).sz, pagetable := some pt }

/-- What the error exits return. -/
def giveUp (k1 : Kernel) (np l : Slot) (pt : PageTable) (m : Kmem) : Except Panic (ℤ × Kernel) := do
  let k ← freeproc (half k1 np l pt m) np
  .ok (-1, k)

/-- The three places where an allocation can fail, and what `thread_create` does there. -/
theorem allocFails_cases (fn arg retfn : ℕ) (h : allocFails k p = true) :
    (∀ np k1, allocproc k ≠ .ok (some np, k1)) ∨
    ∃ np k1 l pt pt1 m1 pt2 m2, allocproc k = .ok (some np, k1) ∧ groupLeader k1 p = some l ∧
      (k1.proc np).pagetable = some pt ∧ threadCreate k p fn arg retfn = giveUp k1 np l pt2 m2 ∧
      (share (k1.proc l).pagetable (k1.proc l).sz pt k1.mem = .ok (false, pt2, m2) ∨
        share (k1.proc l).pagetable (k1.proc l).sz pt k1.mem = .ok (true, pt1, m1) ∧
        uvmalloc pt1 (stackBase (k1.proc np).pid) (add64 (stackBase (k1.proc np).pid) PGSIZE) true false m1 =
          .ok (0, pt2, m2)) := by
  unfold allocFails at h
  split at h
  · rename_i np k1 hal
    split at h
    · rename_i l pt hl hpt
      split at h
      · rename_i pt1 m1 hs
        refine .inr ⟨np, k1, l, pt, pt1, m1, pt1, m1, hal, hl, hpt, ?_, .inl hs⟩
        simp only [threadCreate, hal, ok_bind, hl, hpt, hs, Bool.not_false, if_true]
        rfl
      · rename_i pt1 m1 hs
        split at h
        · rename_i r pt2 m2 hu
          obtain rfl : r = 0 := by simpa using h
          refine .inr ⟨np, k1, l, pt, pt1, m1, pt2, m2, hal, hl, hpt, ?_, .inr ⟨hs, hu⟩⟩
          simp only [threadCreate, hal, ok_bind, hl, hpt, hs, Bool.not_true, Bool.false_eq_true, if_false, threadFinish,
            Kernel.setProc_self, Kernel.setProc_mem, Kernel.setMem_mem, hu, if_true, Kernel.setProc_setMem,
            Kernel.setMem_setMem, Kernel.setProc_setProc]
          rfl
        · cases h
      · cases h
    · cases h
  · rename_i hno
    exact .inl fun np k1 hal => hno np k1 hal

/-- The condition on the state before the call: no slot, no four pages for `allocproc`, or a leader without a page. -/
def CleanExit (k : Kernel) (p : Slot) : Prop :=
  (∀ i, (k.proc i).state ≠ .unused) ∨ serves 4 k.mem = false ∨
    ∀ l, groupLeader k p = some l → npages (k.proc l).sz = 0

namespace Taken

variable {k1 : Kernel} {tf : Pa} {l : Slot} {pt2 : PageTable} {m2 : Kmem}

theorem sz (h : Taken e k k1 np tf pt) (l : Slot) : (k1.proc l).sz = (k.proc l).sz := by
  by_cases hl : l = np
  · subst hl
    rw [h.self]
    rfl
  · rw [h.other l hl]

theorem leader (h : Taken e k k1 np tf pt) (hp : (k.proc p).state ≠ .unused) : groupLeader k1 p = groupLeader k p := by
  unfold groupLeader
  rw [h.other p fun hpn => hp (hpn ▸ h.unused)]

theorem pagetable (h : Taken e k k1 np tf pt) : (k1.proc np).pagetable = some pt := by
  rw [h.self]
  rfl

/-- **An error exit that returns.**  Every page below the leader's size was mapped in the half-made thread, and is free once
more than before. -/
theorem giveUp_inv {r : ℤ} (h : Taken e k k1 np tf pt) (hpages : ∀ x, m2.free x + pt2.tab x = k1.mem.free x + pt.tab x)
    (hg : giveUp k1 np l pt2 m2 = .ok (r, k')) :
    (∀ v, v < npages (k.proc l).sz → pt2.pte v ≠ none) ∧ ∃ f : ℕ → Option Pte,
      (∀ v, v ≠ trampPage → v ≠ tfPage → f v = pt2.pte v) ∧
      ∀ x, k'.mem.free x = k.mem.free x + leaves f 0 (npages (k.proc l).sz) x := by
  unfold giveUp at hg
  rw [bind_ok] at hg
  obtain ⟨k2, hk2, hg⟩ := hg
  obtain ⟨-, rfl⟩ := Prod.mk.inj (Except.ok.inj hg)
  obtain ⟨m, ⟨m3, h3, h4⟩, rfl⟩ := freeproc_inv hk2
  simp only [half, Kernel.setProc_self, Kernel.setProc_mem, Kernel.setMem_mem] at h3 h4
  rw [h.self] at h3
  obtain ⟨hall, -, f, hf, hfree⟩ := procFreepagetable_inv h4
  rw [h.sz] at hall hfree
  refine ⟨hall, f, hf, fun x => ?_⟩
  have e1 := hfree x
  have e2 := kfree_free h3 x
  have e3 := hpages x
  have e4 := h.pages x
  show m.free x = _
  omega

/-- With no page below the leader's size, the error exit gives back exactly what was taken. -/
theorem giveUp_clean (h : Taken e k k1 np tf pt) (hm : k.mem.OkAt e) (hm2 : m2.OkAt e) (hg : Grows pt pt2 k1.mem m2)
    (hsz : npages (k.proc l).sz = 0) : ∃ k', giveUp k1 np l pt2 m2 = .ok (-1, k') ∧ Clean k k' := by
  have hpages : ∀ x, m2.free x + pt2.tab x + single tf x = k.mem.free x := by
    intro x
    have e1 := hg.pages x
    have e2 := h.pages x
    omega
  obtain ⟨m3, h3, hm3⟩ := kfree_total hm2 h.legal
  obtain ⟨m4, h4⟩ := (h.only.grows hg).free_total hsz hm3 (legal_of_tab hm fun x => by have := hpages x; omega)
  have hg4 : giveUp k1 np l pt2 m2 = .ok (-1, (((half k1 np l pt2 m2).setMem m4).setProc np
      ((half k1 np l pt2 m2).proc np).freed)) := by
    unfold giveUp freeproc
    simp only [half, Kernel.setProc_self, Kernel.setProc_mem, Kernel.setMem_mem, bind_ok]
    rw [h.sz, h.self]
    exact ⟨_, ⟨m3, h3, m4, h4, rfl⟩, rfl⟩
  refine ⟨_, hg4, Clean.of_freed (f := .user) h.unused ?_ (fun j hj => ?_) fun x => ?_⟩
  · simp only [half, Kernel.setProc_self]
    rw [h.self]
    rfl
  · rw [Kernel.setProc_of_ne _ _ hj, ← h.other j hj]
    exact Kernel.setProc_of_ne _ _ hj
  · obtain ⟨-, f, -, hfree⟩ := h.giveUp_inv hg.pages hg4
    rw [hfree, hsz, leaves_zero, add_zero]

end Taken

/-- **When a `thread_create` that runs out of memory leaves everything as it was.** -/
theorem clean_iff {fn arg retfn : ℕ} (hm : k.mem.OkAt e) (hb : k.Bare) (hp : (k.proc p).state ≠ .unused)
    (hf : allocFails k p = true) :
    (∃ k', threadCreate k p fn arg retfn = .ok (-1, k') ∧ Clean k k') ↔ CleanExit k p := by
  rcases allocproc_total hm hb with ⟨hcond, k1, hal, hclean⟩ | ⟨⟨i, hi⟩, h4, np, k1, tf, pt, hal, ht⟩
  · -- `allocproc` fails
    refine iff_of_true ⟨k1, ?_, hclean⟩ (hcond.elim .inl fun h => .inr (.inl h))
    simp only [threadCreate, hal, ok_bind]
  rcases allocFails_cases fn arg retfn hf with hno | ⟨np', k1', l, pt', pt1, m1, pt2, m2, hal', hl, hpt, htc, hcase⟩
  · exact absurd hal (hno np k1)
  obtain ⟨hnp, rfl⟩ := Prod.mk.inj (Except.ok.inj (hal.symm.trans hal'))
  obtain rfl := Option.some.inj hnp
  obtain rfl := Option.some.inj (ht.pagetable.symm.trans hpt)
  -- past `allocproc`, what counts is whether the leader has a page
  have hcond : CleanExit k p ↔ npages (k.proc l).sz = 0 := by
    rw [ht.leader hp] at hl
    constructor
    · rintro (h | h | h)
      · exact absurd hi (h i)
      · rw [h4] at h
        cases h
      · exact h l hl
    · intro h
      refine .inr (.inr fun l' hl' => ?_)
      obtain rfl := Option.some.inj (hl.symm.trans hl')
      exact h
  rw [hcond, htc]
  rcases hcase with hs | ⟨hs, hu⟩
  · -- the share loop stopped at a page that `freeproc` then wants to unmap
    rw [ht.sz] at hs
    obtain ⟨hpages, -, hhole, hzero⟩ := share_inv ht.only hs
    obtain ⟨v, hv, hnone⟩ := hhole rfl
    refine iff_of_false ?_ (by omega)
    rintro ⟨k', hg, -⟩
    exact (ht.giveUp_inv hpages hg).1 v hv hnone
  · rw [ht.sz] at hs
    obtain ⟨hpages, -, -, hzero⟩ := share_inv ht.only hs
    have hg := stack_grows hu
    constructor
    · -- the page at address 0 would be free once more than before
      rintro ⟨k', hk', hclean⟩
      by_contra hne
      have hpages2 : ∀ x, m2.free x + pt2.tab x = k1.mem.free x + pt.tab x := fun x => (hg.pages x).trans (hpages x)
      obtain ⟨hall, f, hfo, hfree⟩ := ht.giveUp_inv hpages2 hk'
      obtain ⟨x, hx⟩ := Option.ne_none_iff_exists'.mp (hall 0 (by omega))
      have e1 := hfree x.pa
      have e2 := hclean.pages x.pa
      have e3 := leaf_le_leaves (f := f) (a := 0) (n := npages (k.proc l).sz) le_rfl (by omega) x.pa
      rw [hfo 0 (by decide) (by decide), hx, leaf_some, single, if_pos rfl] at e3
      omega
    · intro hsz
      obtain ⟨-, rfl, rfl⟩ := hzero hsz
      exact ht.giveUp_clean hm (uvmalloc_okAt ht.okAt _ hu) hg hsz

/-- **`thread_create` fails cleanly** exactly when `allocproc` already fails or the leader has no page to share: in every reachable
state, for every caller and every way in which an allocation can fail. -/
theorem threadCreate_clean_iff {as : List Pa} {fn arg retfn : ℕ} (hr : Reach Step always Boot k)
    (hp : (k.proc p).state = .running) (hf : allocFails (k.setAnswers as) p = true) :
    (∃ k', threadCreate (k.setAnswers as) p fn arg retfn = .ok (-1, k') ∧ Clean (k.setAnswers as) k') ↔
      CleanExit (k.setAnswers as) p := by
  obtain ⟨e, hm⟩ := okAt_reach hr
  have hm' : (k.setAnswers as).mem.OkAt e := hm
  have hb : k.Bare := bare_reach hr
  have hb' : (k.setAnswers as).Bare := hb
  have hp' : ((k.setAnswers as).proc p).state ≠ .unused := by
    rw [Kernel.setAnswers_proc, hp]
    decide
  exact clean_iff hm' hb' hp' hf

/-- The first process finds no free page. -/
theorem threadCreate_clean_small : ∃ k, Reach Step always Boot k ∧ (k.proc 0).state = .running ∧
    allocFails (k.setAnswers []) 0 = true ∧
    ((∃ k', threadCreate (k.setAnswers []) 0 0 0 0 = .ok (-1, k') ∧ Clean (k.setAnswers []) k') ↔
      CleanExit (k.setAnswers []) 0) := by
  obtain ⟨tr, k, hrun, hp, hf⟩ := exists_run always small [.scheduler 0]
    (fun _ k => (k.proc 0).state = .running ∧ allocFails (k.setAnswers []) 0 = true) (by decide +kernel)
  have hr : Reach Step always Boot k := ⟨small, tr, small_boot, hrun⟩
  exact ⟨k, hr, hp, hf, threadCreate_clean_iff hr hp hf⟩

/-- The first process has one page.  Six pages are enough to share it but not for a stack: the call returns -1 with the page of the
first process on the free list. -/
theorem threadCreate_frees_page : ¬ ∀ (k : Kernel) (p : Slot) (as : List Pa) (fn arg retfn : ℕ),
    Reach Step always Boot k → (k.proc p).state = .running → allocFails (k.setAnswers as) p = true →
    ∃ k', threadCreate (k.setAnswers as) p fn arg retfn = .ok (-1, k') ∧ Clean (k.setAnswers as) k' := by
  intro h
  obtain ⟨tr, k, hrun, hp, hf, hfree⟩ := exists_run always small [.scheduler 0]
    (fun _ k => (k.proc 0).state = .running ∧ allocFails (k.setAnswers (pages 20 6)) 0 = true ∧
      ((threadCreate (k.setAnswers (pages 20 6)) 0 0 0 0).toOption.any fun r => r.2.mem.free (page 4) == 1) = true ∧
      k.mem.free (page 4) = 0) (by decide +kernel)
  obtain ⟨k', hk', hclean⟩ := h k 0 (pages 20 6) 0 0 0 ⟨small, tr, small_boot, hrun⟩ hp hf
  rw [hk'] at hfree
  have h1 : k'.mem.free (page 4) = 1 := by simpa [Except.toOption] using hfree.1
  have h0 : k'.mem.free (page 4) = 0 := (hclean.pages (page 4)).trans hfree.2
  omega

end OsLabs.Xv6
