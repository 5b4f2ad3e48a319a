import OsLabs.Xv6.Broadcast

/-!
# OsLabs.Xv6.Sane — the page tables of a reachable kernel

* `Sane e pt`: the trampoline and the trapframe page are mapped, nothing lies above them, every entry can be read, and every page of the
  table and every user page is one that `kfree` accepts.
* `Full c pt sz`: the user pages are exactly those below `sz`, where the first `c` of them may be missing.
* `uvmalloc_sane`, `uvmcopyOpt_sane`, `share_sane`, …: the functions of `vm.c` and the loops of `proc.c` keep both.
-/

namespace OsLabs.Xv6

open Fallible

variable {pt pt' : PageTable} {m m' : Kmem} {va a n e c : ℕ} {b : Bool} {x : Pa}

/-- A page table as the kernel makes them. -/
structure Sane (e : ℕ) (pt : PageTable) : Prop where
  shaped : Shaped pt
  tramp : pt.pte trampPage ≠ none
  top : ∀ v, trampPage < v → pt.pte v = none
  perm : ∀ v en, v < tfPage → pt.pte v = some en → en.perm.r = true
  kperm : ∀ v en, tfPage ≤ v → pt.pte v = some en → en.perm ≠ ⟨false, false, false, false⟩
  legal : ∀ x, 0 < pt.held x → Legal e x

/-- The user pages of `pt` are those below `sz`; the first `c` may be missing. -/
structure Full (c : ℕ) (pt : PageTable) (sz : ℕ) : Prop where
  low : ∀ v, c ≤ v → v < npages sz → pt.pte v ≠ none
  high : ∀ v, npages sz ≤ v → v < tfPage → pt.pte v = none

/-- A page that is mapped is mapped somewhere. -/
theorem exists_of_leaves {f : ℕ → Option Pte} (h : 0 < leaves f a n x) : ∃ v en, a ≤ v ∧ v < a + n ∧ f v = some en ∧ en.pa = x := by
  obtain ⟨i, hi, hpos⟩ := Finset.sum_pos_iff.mp h
  rw [Finset.mem_range] at hi
  cases hf : f (a + i) with
  | none =>
    rw [hf, leaf_none] at hpos
    omega
  | some en =>
    rw [hf, leaf_some] at hpos
    refine ⟨a + i, en, by omega, by omega, hf, ?_⟩
    by_contra hne
    rw [single, if_neg hne] at hpos
    omega

/-- The pages of the table and the user pages, one by one. -/
theorem legal_held (hp : ∀ y ∈ pt.pages, Legal e y) (hu : ∀ v en, v < tfPage → pt.pte v = some en → Legal e en.pa) :
    ∀ x, 0 < pt.held x → Legal e x := by
  intro x hx
  by_cases ht : 0 < pt.tab x
  · exact hp x (List.count_pos_iff.mp ht)
  · rw [PageTable.held] at hx
    obtain ⟨v, en, -, hv, hen, rfl⟩ := exists_of_leaves (show 0 < leaves pt.pte 0 tfPage x by omega)
    exact hu v en (by omega) hen

theorem tfPage_lt_trampPage : tfPage < trampPage := by decide

namespace Sane

/-- The kernel's own pages stay, and new entries can be read. -/
theorem change (h : Sane e pt) (hs : Shaped pt') (hl : ∀ x, 0 < pt'.held x → Legal e x)
    (hpte : ∀ v, pt'.pte v = pt.pte v ∨ v < tfPage ∧ ∀ en, pt'.pte v = some en → en.perm.r = true) : Sane e pt' := by
  have ht := tfPage_lt_trampPage
  refine ⟨hs, ?_, fun v hv => ?_, fun v en hv hen => ?_, fun v en hv hen => ?_, hl⟩
  · rcases hpte trampPage with h' | ⟨h', -⟩
    · rw [h']
      exact h.tramp
    · omega
  · rcases hpte v with h' | ⟨h', -⟩
    · rw [h']
      exact h.top v hv
    · omega
  · rcases hpte v with h' | ⟨-, h'⟩
    · exact h.perm v en hv (h' ▸ hen)
    · exact h' en hen
  · rcases hpte v with h' | ⟨h', -⟩
    · exact h.kperm v en hv (h' ▸ hen)
    · omega

/-- Pages that come from the free list or from the table itself are legal. -/
theorem legal_of_held (h : Sane e pt) (hm : m.OkAt e) (hle : ∀ x, pt'.held x ≤ m.free x + pt.held x) :
    ∀ x, 0 < pt'.held x → Legal e x := by
  intro x hx
  by_cases hp : 0 < pt.held x
  · exact h.legal x hp
  · have hfree : 0 < m.free x := by
      have := hle x
      omega
    exact hm.2 x (List.count_pos_iff.mp hfree)

theorem held_of_entry {v : ℕ} {en : Pte} (hv : v < tfPage) (hen : pt.pte v = some en) : 0 < pt.held en.pa := by
  have h := @leaf_le_held pt _ hv en.pa
  rw [hen, leaf_some, single, if_pos rfl] at h
  omega

/-- A user page is legal. -/
theorem user (h : Sane e pt) {v : ℕ} {en : Pte} (hv : v < tfPage) (hen : pt.pte v = some en) : Legal e en.pa :=
  h.legal _ (held_of_entry hv hen)

/-- A page of the table is legal. -/
theorem page (h : Sane e pt) {y : Pa} (hy : y ∈ pt.pages) : Legal e y := by
  refine h.legal y ?_
  have h1 : 0 < pt.tab y := List.count_pos_iff.mpr hy
  rw [PageTable.held]
  omega

/-- The same when only the pages of the table are counted. -/
theorem page_of_tab (h : Sane e pt) (hm : m.OkAt e) (htab : ∀ x, m'.free x + pt'.tab x = m.free x + pt.tab x) {y : Pa}
    (hy : y ∈ pt'.pages) : Legal e y := by
  have hpos : 0 < pt'.tab y := List.count_pos_iff.mpr hy
  have := htab y
  by_cases hp : 0 < pt.tab y
  · exact h.page (List.count_pos_iff.mp hp)
  · exact hm.2 y (List.count_pos_iff.mp (show 0 < m.free y by omega))

theorem grows (h : Sane e pt) (hm : m.OkAt e) (hg : Grows pt pt' m m') : Sane e pt' := by
  refine h.change (h.shaped.grows hg) (h.legal_of_held hm fun x => ?_) fun v => .inl (by rw [hg.pte])
  have := hg.held x
  omega

theorem unmap (h : Sane e pt) (hn : a + n ≤ tfPage) : Sane e (pt.unmap a n) := by
  refine h.change (h.shaped.unmap hn) (fun x hx => h.legal x ?_) fun v => ?_
  · have := @unmap_held pt _ _ hn x
    omega
  · rw [PageTable.unmap_apply]
    split_ifs with hv
    · exact .inr ⟨by omega, fun en hen => by cases hen⟩
    · exact .inl rfl

/-- New pages from the allocator. -/
theorem mapped {perm : ℕ → Perm} (h : Sane e pt) (hm : m.OkAt e) (hmap : Mapped perm a n pt pt' m m') (hn : a + n ≤ tfPage)
    (hr : ∀ v, a ≤ v → v < a + n → (perm v).r = true) : Sane e pt' := by
  refine h.change (hmap.shaped hn h.shaped) (h.legal_of_held hm fun x => ?_) fun v => ?_
  · have := hmap.held hn x
    omega
  · by_cases hv : a ≤ v ∧ v < a + n
    · obtain ⟨pa, hpa⟩ := hmap.new v hv.1 hv.2
      refine .inr ⟨by omega, fun en hen => ?_⟩
      rw [hpa] at hen
      rw [← Option.some.inj hen]
      exact hr v hv.1 hv.2
    · exact .inl (hmap.other v hv)

end Sane

/-- The table that `proc_pagetable` makes. -/
theorem OnlyKernel.sane (h : OnlyKernel pt) (hp : ∀ y ∈ pt.pages, Legal e y) : Sane e pt := by
  obtain ⟨x, hx, hxp, -⟩ := h.tramp
  obtain ⟨y, hy, hyp, -⟩ := h.trapf
  have ht := tfPage_lt_trampPage
  have hnone : ∀ v en, v < tfPage → pt.pte v ≠ some en := fun v en hv hen => absurd (hen.symm.trans (h.user v hv)) (by simp)
  refine ⟨h.shaped, by rw [hx]; simp, fun v hv => h.other v (by omega) (by omega), fun v en hv hen => absurd hen (hnone v en hv),
    fun v en hv hen => ?_, legal_held hp fun v en hv hen => absurd hen (hnone v en hv)⟩
  by_cases h1 : v = trampPage
  · rw [h1, hx] at hen
    rw [← Option.some.inj hen]
    exact hxp
  by_cases h2 : v = tfPage
  · rw [h2, hy] at hen
    rw [← Option.some.inj hen]
    exact hyp
  · rw [h.other v h1 h2] at hen
    cases hen

/-! ## The functions of vm.c -/

/-- **`proc_pagetable`** makes a sane table without user pages. -/
theorem procPagetable_some {tf : Pa} (hm : m.OkAt e) (h : procPagetable tf m = .ok (some pt, m')) :
    OnlyKernel pt ∧ Sane e pt ∧ ∀ x, m'.free x + pt.tab x = m.free x := by
  rcases procPagetable_total tf hm with ⟨-, m1, h1, -⟩ | ⟨-, pt1, m1, h1, ho, hp⟩
  · rw [h] at h1
    cases h1
  · rw [h] at h1
    obtain ⟨rfl, rfl⟩ : pt = pt1 ∧ m' = m1 := by simpa using h1
    refine ⟨ho, ho.sane (legal_of_tab hm fun x => ?_), hp⟩
    have := hp x
    omega

theorem OnlyKernel.full (h : OnlyKernel pt) : Full c pt 0 :=
  ⟨fun v _ hv => by rw [npages_zero] at hv; omega, fun v _ hv => h.user v hv⟩

theorem Full.grown {perm : Perm} {o r : ℕ} (h : Full c pt o) (hg : Grown perm o r pt pt') : Full c pt' r := by
  have hT : TRAPFRAME < MAXVA := by decide
  have htop := hg.top
  have hle : npages o ≤ npages r := npages_mono hg.le (by omega)
  refine ⟨fun v hc hv => ?_, fun v hv hv' => ?_⟩
  · by_cases ho : v < npages o
    · rw [hg.other v (by omega)]
      exact h.low v hc ho
    · obtain ⟨pa, hpa⟩ := hg.new v (by omega) hv
      rw [hpa]
      simp
  · rw [hg.other v (by omega)]
    exact h.high v (by omega) hv'

theorem Full.mono {d sz : ℕ} (h : Full c pt sz) (hcd : c ≤ d) : Full d pt sz :=
  ⟨fun v hv => h.low v (hcd.trans hv), h.high⟩

theorem Full.congr {sz : ℕ} (h : Full c pt sz) (hpte : pt'.pte = pt.pte) : Full c pt' sz :=
  ⟨fun v hc hv => hpte ▸ h.low v hc hv, fun v hv hv' => hpte ▸ h.high v hv hv'⟩

theorem npages_pgroundup {sz : ℕ} (h : sz ≤ TRAPFRAME) : npages (pgroundup sz) = npages sz := by
  have hT : TRAPFRAME < MAXVA := by decide
  have hup := pgroundup_le h
  rw [npages_of_mod (pgroundup_mod _) (by omega), npages]

/-- A full table is full up to the next page boundary. -/
theorem Full.roundup {sz : ℕ} (h : Full c pt sz) (hsz : sz ≤ TRAPFRAME) : Full c pt (pgroundup sz) := by
  have hnp := npages_pgroundup hsz
  exact ⟨fun v hc hv => h.low v hc (hnp ▸ hv), fun v hv => h.high v (hnp ▸ hv)⟩

theorem Full.shrunk {o r : ℕ} (h : Full c pt o) (hle : npages r ≤ npages o) :
    Full c (pt.unmap (npages r) (npages o - npages r)) r := by
  refine ⟨fun v hc hv => ?_, fun v hv hv' => ?_⟩
  · rw [PageTable.unmap_apply, if_neg (by omega)]
    exact h.low v hc (by omega)
  · rw [PageTable.unmap_apply]
    split_ifs
    · rfl
    · exact h.high v (by omega) hv'

theorem uvmalloc_sane {o r : ℕ} {xw xx : Bool} (hs : Sane e pt) (hm : m.OkAt e) (ho : o ≤ TRAPFRAME)
    (h : uvmalloc pt o n xw xx m = .ok (r, pt', m')) : Sane e pt' := by
  obtain ⟨hs', -, hheld, hcase⟩ := uvmalloc_held hs.shaped ho h
  refine hs.change hs' (hs.legal_of_held hm fun x => ?_) fun v => ?_
  · have := hheld x
    omega
  · rcases hcase with ⟨-, hpte⟩ | ⟨-, hg⟩
    · exact .inl (by rw [hpte])
    · by_cases hv : npages o ≤ v ∧ v < npages r
      · obtain ⟨pa, hpa⟩ := hg.new v hv.1 hv.2
        refine .inr ⟨by have := npages_le hg.top; omega, fun en hen => ?_⟩
        rw [hpa] at hen
        rw [← Option.some.inj hen]
      · exact .inl (hg.other v hv)

/-- Every page below the trapframe is the user's: so it is in a table that `exec` builds, until it takes `PTE_U` off the guard page. -/
def AllUser (pt : PageTable) : Prop := ∀ v en, v < tfPage → pt.pte v = some en → en.perm.u = true

theorem OnlyKernel.allUser (h : OnlyKernel pt) : AllUser pt := fun v en hv hen => by
  rw [h.user v hv] at hen
  cases hen

theorem uvmalloc_allUser {o r : ℕ} {xw xx : Bool} (hs : Shaped pt) (hu : AllUser pt) (ho : o ≤ TRAPFRAME)
    (h : uvmalloc pt o n xw xx m = .ok (r, pt', m')) : AllUser pt' := by
  obtain ⟨-, -, -, ⟨-, hpte⟩ | ⟨-, hg⟩⟩ := uvmalloc_held hs ho h
  · intro v en hv hen
    exact hu v en hv (hpte ▸ hen)
  · intro v en hv hen
    by_cases hvr : npages o ≤ v ∧ v < npages r
    · obtain ⟨pa, hpa⟩ := hg.new v hvr.1 hvr.2
      rw [hpa] at hen
      rw [← Option.some.inj hen]
    · exact hu v en hv (hg.other v hvr ▸ hen)

/-- Growing a full table. -/
theorem uvmalloc_full {o r : ℕ} {xw xx : Bool} (hs : Sane e pt) (hf : Full c pt o) (ho : o ≤ TRAPFRAME)
    (h : uvmalloc pt o n xw xx m = .ok (r, pt', m')) : (r = 0 ∧ Full c pt' o) ∨ (o ≤ r ∧ r ≤ TRAPFRAME ∧ Full c pt' r) := by
  obtain ⟨-, -, -, hcase⟩ := uvmalloc_held hs.shaped ho h
  rcases hcase with ⟨rfl | rfl, hpte⟩ | ⟨-, hg⟩
  · exact .inl ⟨rfl, hf.congr hpte⟩
  · exact .inr ⟨le_rfl, ho, hf.congr hpte⟩
  · exact .inr ⟨hg.le, hg.top, hf.grown hg⟩

theorem uvmclear_sane (hs : Sane e pt) (h : uvmclear pt va m = .ok pt') : Sane e pt' ∧ ∀ v, pt'.pte v = none ↔ pt.pte v = none := by
  obtain ⟨hs', hheld⟩ := uvmclear_held hs.shaped h
  unfold uvmclear at h
  rw [bind_ok] at h
  obtain ⟨⟨found, pt1, m1⟩, hw, h⟩ := h
  obtain ⟨-, -, -, hlook⟩ := walk_inv hw
  obtain ⟨-, rfl, -⟩ := hlook rfl
  dsimp only at h
  split_ifs at h
  obtain rfl := Except.ok.inj h
  have hnone : ∀ v, (pt1.setPte (va / PGSIZE) ((pt1.pte (va / PGSIZE)).map fun e => { e with perm := { e.perm with u := false } })).pte v =
      none ↔ pt1.pte v = none := by
    intro v
    rw [PageTable.setPte_apply]
    split_ifs with hv
    · rw [hv, Option.map_eq_none_iff]
    · rfl
  refine ⟨⟨hs', ?_, fun v hv => (hnone v).mpr (hs.top v hv), fun v en hv hen => ?_, fun v en hv hen => ?_,
    fun x hx => hs.legal x ?_⟩, hnone⟩
  · exact fun h => hs.tramp ((hnone _).mp h)
  · rw [PageTable.setPte_apply] at hen
    split_ifs at hen with hva
    · obtain ⟨en', hen', rfl⟩ := Option.map_eq_some_iff.mp hen
      exact hs.perm v en' hv (hva ▸ hen')
    · exact hs.perm v en hv hen
  · rw [PageTable.setPte_apply] at hen
    split_ifs at hen with hva
    · -- the kernel's own pages have no `PTE_U` to lose
      obtain ⟨en', hen', rfl⟩ := Option.map_eq_some_iff.mp hen
      have hu := hs.shaped.high v en' hv (hva ▸ hen')
      have hk := hs.kperm v en' hv (hva ▸ hen')
      rwa [show ({ en'.perm with u := false } : Perm) = en'.perm by rw [← hu]]
    · exact hs.kperm v en hv hen
  · rw [← hheld]
    exact hx

/-! ## fork -/

/-- The permissions of an entry of `pt`. -/
def permOf (pt : PageTable) (v : ℕ) : Perm := ((pt.pte v).map Pte.perm).getD ⟨false, false, false, false⟩

theorem permOf_some {v : ℕ} {en : Pte} (h : pt.pte v = some en) : permOf pt v = en.perm := by simp [permOf, h]

/-- Pages below `i` given back. -/
theorem uvmunmap_undone {pt1 : PageTable} {m1 : Kmem} {c : ℕ} (hg : Grows pt pt1 m m1) (h : uvmunmap pt1 0 c true m1 = .ok (pt', m')) :
    Undone 0 c pt pt' m m' := by
  obtain ⟨-, rfl, hfree, -⟩ := uvmunmap_inv h
  rw [Nat.zero_div] at hfree ⊢
  refine ⟨by simp only [PageTable.unmap, hg.pte], hg.root, hg.dir, fun x => ?_⟩
  have h1 := hg.pages x
  have h2 := hfree x
  rw [if_pos rfl, hg.pte] at h2
  rw [PageTable.unmap_tab]
  omega

/-- **The loop of `uvmcopy`**: new pages with the permissions of the old ones, or everything given back. -/
theorem uvmcopyLoop_inv {old : PageTable} : ∀ {n i : ℕ} {new new' : PageTable} {m m' : Kmem} {b : Bool}, i % PGSIZE = 0 →
    uvmcopyLoop old n i new m = .ok (b, new', m') →
    (b = true ∧ Mapped (permOf old) (i / PGSIZE) n new new' m m' ∧ ∀ v, i / PGSIZE ≤ v → v < i / PGSIZE + n → old.pte v ≠ none) ∨
    (b = false ∧ Undone 0 (i / PGSIZE) new new' m m')
  | 0, i, new, new', m, m', b, _, h => by
    simp only [uvmcopyLoop, Except.ok.injEq, Prod.mk.injEq] at h
    obtain ⟨rfl, rfl, rfl⟩ := h
    exact .inl ⟨rfl, .zero _ _, fun v h1 h2 => by omega⟩
  | n + 1, i, new, new', m, m', b, ha, h => by
    unfold uvmcopyLoop at h
    rw [bind_ok] at h
    obtain ⟨⟨found, old1, m1⟩, hw, h⟩ := h
    obtain ⟨-, -, -, hlook⟩ := walk_inv hw
    obtain ⟨-, -, rfl⟩ := hlook rfl
    dsimp only at h
    split_ifs at h
    split at h
    · cases h
    rename_i en hen
    split at h
    · rename_i m2 hk
      rw [bind_ok] at h
      obtain ⟨⟨new1, m3⟩, hu, h⟩ := h
      simp only [Except.ok.injEq, Prod.mk.injEq] at h
      obtain ⟨rfl, rfl, rfl⟩ := h
      have hg : Grows new new m1 m2 := ⟨rfl, rfl, fun _ _ h => h, fun x => by rw [kalloc_none hk]⟩
      exact .inr ⟨rfl, uvmunmap_undone hg hu⟩
    · rename_i mem m2 hk
      rw [bind_ok] at h
      obtain ⟨⟨ok, new1, m3⟩, hm, h⟩ := h
      have hfree : (m2.memmove mem en.pa).free = m2.free := rfl
      cases ok with
      | true =>
        obtain ⟨-, h1⟩ := Mapped.one (f := permOf old) ha hk hfree hm (permOf_some hen)
        rcases uvmcopyLoop_inv (add_PGSIZE_mod ha) h with ⟨rfl, h2, hold⟩ | ⟨rfl, h2⟩
        · rw [add_PGSIZE_div] at h2 hold
          refine .inl ⟨rfl, Nat.add_comm 1 n ▸ h1.append h2, fun v hv hv' => ?_⟩
          by_cases hvi : v = i / PGSIZE
          · rw [hvi, hen]
            simp
          · exact hold v (by omega) (by omega)
        · rw [add_PGSIZE_div] at h2
          have h1' : Mapped (permOf old) (0 + i / PGSIZE) 1 new new1 m1 m3 := by rwa [zero_add]
          exact .inr ⟨rfl, h1'.undone h2⟩
      | false =>
        simp only [Bool.false_eq_true, if_false, bind_ok] at h
        obtain ⟨m4, hf, ⟨new2, m5⟩, hu, h⟩ := h
        simp only [Except.ok.injEq, Prod.mk.injEq] at h
        obtain ⟨rfl, rfl, rfl⟩ := h
        obtain ⟨-, pt1, hg, ⟨-, rfl⟩ | ⟨hb, -⟩⟩ := mappages_inv ha hm
        · have hg' : Grows new new1 m1 m4 := ⟨hg.pte, hg.root, hg.dir, fun x => by
            have e1 := hg.pages x
            have e2 := kalloc_some hk x
            have e3 := kfree_free hf x
            rw [hfree] at e1
            omega⟩
          exact .inr ⟨rfl, uvmunmap_undone hg' hu⟩
        · cases hb

/-- The pages of a process of `sz` bytes, as `uvmcopy` counts them. -/
theorem copy_npages {sz : ℕ} (h : sz ≤ TRAPFRAME) : (sz + (PGSIZE - 1)) / PGSIZE = npages sz := by
  have hT : TRAPFRAME < MAXVA := by decide
  rw [npages_of_le (by omega)]
  rfl

/-- **`uvmcopy`** into a table without user pages. -/
theorem uvmcopyOpt_sane {old : Option PageTable} {sz : ℕ} (hs : Sane e pt) (hm : m.OkAt e) (hold : ∀ x, old = some x → Sane e x)
    (hu : ∀ v, v < tfPage → pt.pte v = none) (hsz : sz ≤ TRAPFRAME) (h : uvmcopyOpt old pt sz m = .ok (true, pt', m')) :
    Sane e pt' ∧ Full 0 pt' sz := by
  cases old with
  | none =>
    unfold uvmcopyOpt at h
    dsimp only at h
    split_ifs at h with h0
    simp only [Except.ok.injEq, Prod.mk.injEq, true_and] at h
    obtain ⟨rfl, rfl⟩ := h
    rw [h0]
    exact ⟨hs, fun v _ hv => by rw [npages_zero] at hv; omega, fun v _ hv => hu v hv⟩
  | some old =>
    obtain ⟨-, hmap, hsome⟩ | ⟨hb, -⟩ := uvmcopyLoop_inv (Nat.zero_mod _) h
    · rw [copy_npages hsz, Nat.zero_div] at hmap hsome
      have hn : 0 + npages sz ≤ tfPage := by
        have := npages_le hsz
        omega
      refine ⟨hs.mapped hm hmap hn fun v h1 h2 => ?_, fun v _ hv => ?_, fun v hv hv' => ?_⟩
      · obtain ⟨en, hen⟩ := Option.ne_none_iff_exists'.mp (hsome v h1 h2)
        rw [permOf_some hen]
        exact (hold old rfl).perm v en (by omega) hen
      · obtain ⟨pa, hpa⟩ := hmap.new v (Nat.zero_le _) (by omega)
        rw [hpa]
        simp
      · rw [hmap.other v (by omega)]
        exact hu v hv'
    · cases hb

/-! ## Threads -/

/-- **A new thread's table** after the share loop. -/
theorem share_sane {lpt : Option PageTable} {sz : ℕ} (hm : m.OkAt e) (hl : ∀ x, lpt = some x → Sane e x) (ho : OnlyKernel pt)
    (hs : Sane e pt) (h : share lpt sz pt m = .ok (true, pt', m')) : Sane e pt' := by
  obtain ⟨hs', hpte⟩ := share_pte (fun x hx => (hl x hx).shaped.wf) ho h
  obtain ⟨htab, -⟩ := share_inv ho h
  have huser : ∀ v en, v < tfPage → pt'.pte v = some en → Legal e en.pa ∧ en.perm.r = true := by
    intro v en hv hen
    rw [hpte] at hen
    split_ifs at hen with hr
    · obtain ⟨hen, -⟩ := userPte_eq_some.mp hen
      cases lpt with
      | none => cases hen
      | some lpt => exact ⟨(hl lpt rfl).user hv hen, (hl lpt rfl).perm v en hv hen⟩
    · exact absurd (hen.symm.trans (ho.user v hv)) (by simp)
  refine hs.change hs' (legal_held (fun y hy => ?_) fun v en hv hen => (huser v en hv hen).1) fun v => ?_
  · exact hs.page_of_tab hm htab hy
  · by_cases hv : v < tfPage
    · exact .inr ⟨hv, fun en hen => (huser v en hv hen).2⟩
    · exact .inl (by rw [hpte, if_neg (by omega)])

/-- **The broadcast** in one member: `e v` are entries of the leader. -/
theorem Spread.sane {en : ℕ → Pte} {f : Prop} (h : Spread en a n f pt pt') (hs : Sane e pt) (hn : a + n ≤ tfPage)
    (hen : ∀ v, a ≤ v → v < a + n → Legal e (en v).pa ∧ (en v).perm.r = true) (hp : ∀ y ∈ pt'.pages, Legal e y) : Sane e pt' := by
  refine hs.change (h.shaped hs.shaped) (legal_held hp fun v y hv hy => ?_) fun v => ?_
  · rcases h.pte v with heq | ⟨h1, h2, -, hnew⟩
    · exact hs.user hv (heq ▸ hy)
    · rw [← Option.some.inj (hnew.symm.trans hy)]
      exact (hen v h1 h2).1
  · rcases h.pte v with heq | ⟨h1, h2, -, hnew⟩
    · exact .inl heq
    · refine .inr ⟨by omega, fun y hy => ?_⟩
      rw [← Option.some.inj (hnew.symm.trans hy)]
      exact (hen v h1 h2).2

end OsLabs.Xv6
