import OsLabs.Xv6.CleanFail

/-!
# OsLabs.Xv6.Held — the pages that a page table holds

`held pt x` counts page `x` among the pages of the table itself and the user pages mapped below `TRAPFRAME`.  For a table that nobody shares
every function on page tables moves pages between the free list and `held`, and loses none.

* `Shaped`: what every page table of the kernel looks like; a user page lies below the trapframe page.
* `uvmalloc_held`, `uvmdealloc_held`, `uvmcopyOpt_held`, …: free pages and held pages together stay the same, or get fewer.
* `FreeMem.held`, `FreeThreadMem.held`: what `freeproc` and `freeproc_thread` give back.
* `share_pte`: a share loop that goes through copies exactly the user pages.
-/

namespace OsLabs.Xv6

open Fallible

variable {pt pt' : PageTable} {m m' : Kmem} {va a n : ℕ} {b : Bool} {x : Pa}

/-- How often `x` is a page of the table, or mapped as a user page. -/
def PageTable.held (pt : PageTable) (x : Pa) : ℕ := pt.tab x + leaves pt.pte 0 tfPage x

/-- A page table with its trapframe page, whose user pages lie below that. -/
structure Shaped (pt : PageTable) : Prop where
  wf : pt.WF
  trapf : pt.pte tfPage ≠ none
  high : ∀ v e, tfPage ≤ v → pt.pte v = some e → e.perm.u = false

namespace Shaped

theorem grows (h : Shaped pt) (hg : Grows pt pt' m m') : Shaped pt' := by
  refine ⟨hg.wf h.wf, ?_, ?_⟩
  · rw [hg.pte]
    exact h.trapf
  · rw [hg.pte]
    exact h.high

/-- An entry below the trapframe page changes. -/
theorem setPte {e : Option Pte} (h : Shaped pt) (hr : pt.reaches va = true) (hv : va / PGSIZE < tfPage) :
    Shaped (pt.setPte (va / PGSIZE) e) := by
  refine ⟨h.wf.setPte hr, ?_, fun v y hy => ?_⟩
  · rw [PageTable.setPte_of_ne _ _ (by omega)]
    exact h.trapf
  · rw [PageTable.setPte_of_ne _ _ (by omega)]
    exact h.high v y hy

theorem unmap (h : Shaped pt) (hn : a + n ≤ tfPage) : Shaped (pt.unmap a n) := by
  refine ⟨h.wf.unmap a n, ?_, fun v y hy => ?_⟩
  · rw [PageTable.unmap_apply, if_neg (by omega)]
    exact h.trapf
  · rw [PageTable.unmap_apply, if_neg (by omega)]
    exact h.high v y hy

end Shaped

theorem OnlyKernel.shaped (h : OnlyKernel pt) : Shaped pt := by
  obtain ⟨x, hx, -, hxu⟩ := h.tramp
  obtain ⟨y, hy, -, hyu⟩ := h.trapf
  have hcase : ∀ v, pt.pte v ≠ none → v = trampPage ∨ v = tfPage := by
    intro v hv
    by_contra hne
    rw [not_or] at hne
    exact hv (h.other v hne.1 hne.2)
  refine ⟨fun v hv => ?_, by rw [hy]; simp, fun v e _ he => ?_⟩
  · rcases hcase v hv with rfl | rfl
    · exact h.reachTramp
    · exact h.reachTrapf
  · rcases hcase v (by rw [he]; simp) with rfl | rfl
    · rw [Option.some.inj (hx.symm.trans he)] at hxu
      exact hxu
    · rw [Option.some.inj (hy.symm.trans he)] at hyu
      exact hyu

/-- A table with nothing but the kernel's pages. -/
theorem OnlyKernel.held (h : OnlyKernel pt) (x : Pa) : pt.held x = pt.tab x := by
  have h0 : leaves pt.pte 0 tfPage x = 0 :=
    Finset.sum_eq_zero fun i hi => by rw [h.user (0 + i) (by simpa using hi), leaf_none]
  rw [PageTable.held, h0, add_zero]

theorem Grows.held (h : Grows pt pt' m m') (x : Pa) : m'.free x + pt'.held x = m.free x + pt.held x := by
  have h1 := h.pages x
  rw [PageTable.held, PageTable.held, h.pte]
  omega

/-- Entries taken away below the trapframe page. -/
theorem unmap_held (hn : a + n ≤ tfPage) (x : Pa) : (pt.unmap a n).held x + leaves pt.pte a n x = pt.held x := by
  have hsplit : ∀ f : ℕ → Option Pte, leaves f 0 tfPage x =
      leaves f 0 a x + leaves f a n x + leaves f (a + n) (tfPage - (a + n)) x := by
    intro f
    have h1 := leaves_add f 0 a (n + (tfPage - (a + n))) x
    have h2 := leaves_add f a n (tfPage - (a + n)) x
    rw [show a + (n + (tfPage - (a + n))) = tfPage by omega, zero_add] at h1
    omega
  have h1 : leaves (pt.unmap a n).pte 0 a x = leaves pt.pte 0 a x :=
    congrFun (leaves_congr fun v _ hv => by rw [PageTable.unmap_apply, if_neg (by omega)]) x
  have h2 : leaves (pt.unmap a n).pte a n x = 0 := by
    refine Finset.sum_eq_zero fun i hi => ?_
    rw [PageTable.unmap_apply, if_pos ⟨by omega, by have := Finset.mem_range.mp hi; omega⟩, leaf_none]
  have h3 : leaves (pt.unmap a n).pte (a + n) (tfPage - (a + n)) x = leaves pt.pte (a + n) (tfPage - (a + n)) x :=
    congrFun (leaves_congr fun v hv _ => by rw [PageTable.unmap_apply, if_neg (by omega)]) x
  rw [PageTable.held, PageTable.held, hsplit (pt.unmap a n).pte, hsplit pt.pte, PageTable.unmap_tab, h1, h2, h3]
  omega

/-- A user page is held. -/
theorem leaf_le_held {v : ℕ} (hv : v < tfPage) (x : Pa) : leaf (pt.pte v) x ≤ pt.held x := by
  have h := leaf_le_leaves (f := pt.pte) (a := 0) (n := tfPage) (Nat.zero_le v) (by omega) x
  rw [PageTable.held]
  omega

/-! ## Mapping and unmapping -/

/-- New pages mapped below the trapframe page. -/
theorem Mapped.held {perm : ℕ → Perm} (h : Mapped perm a n pt pt' m m') (hn : a + n ≤ tfPage) (x : Pa) :
    m'.free x + pt'.held x = m.free x + pt.held x := by
  have h1 := @unmap_held pt' _ _ hn x
  have h2 := @unmap_held pt _ _ hn x
  have h3 := h.pages x
  have h4 : (pt'.unmap a n).pte = (pt.unmap a n).pte := by
    funext v
    rw [PageTable.unmap_apply, PageTable.unmap_apply]
    split_ifs with hv
    · rfl
    · exact h.other v hv
  have h5 : leaves pt.pte a n x = 0 := by
    refine Finset.sum_eq_zero fun i hi => ?_
    rw [h.old (a + i) (by omega) (by have := Finset.mem_range.mp hi; omega), leaf_none]
  simp only [PageTable.held, PageTable.unmap_tab] at h1 h2 ⊢
  rw [h4] at h1
  omega

theorem Mapped.shaped {perm : ℕ → Perm} (h : Mapped perm a n pt pt' m m') (hn : a + n ≤ tfPage) (hs : Shaped pt) :
    Shaped pt' := by
  refine ⟨h.wf hs.wf, ?_, fun v y hv => ?_⟩
  · rw [h.other tfPage (by omega)]
    exact hs.trapf
  · rw [h.other v (by omega)]
    exact hs.high v y hv

/-- New pages do not go past the trapframe page, which is mapped. -/
theorem Mapped.le {perm : ℕ → Perm} (h : Mapped perm a n pt pt' m m') (ha : a ≤ tfPage) (hs : Shaped pt) :
    a + n ≤ tfPage := by
  by_contra hlt
  exact hs.trapf (h.old tfPage ha (by omega))

theorem npages_le {sz : ℕ} (h : sz ≤ TRAPFRAME) : npages sz ≤ tfPage := by
  have hT : TRAPFRAME < MAXVA := by decide
  rw [npages_of_le (by omega)]
  simp only [tfPage, TRAPFRAME, TRAMPOLINE, MAXVA, PGSIZE] at *
  omega

theorem pgroundup_le {sz : ℕ} (h : sz ≤ TRAPFRAME) : pgroundup sz ≤ TRAPFRAME := by
  have hT : TRAPFRAME < MAXVA := by decide
  rw [pgroundup_of_le (by omega)]
  simp only [TRAPFRAME, TRAMPOLINE, MAXVA, PGSIZE] at *
  omega

/-- What `uvmalloc` does to a table whose size is `o`: the new size, and the entries below the trapframe page. -/
structure Grown (perm : Perm) (o r : ℕ) (pt pt' : PageTable) : Prop where
  le : o ≤ r
  top : r ≤ TRAPFRAME
  old : ∀ v, npages o ≤ v → v < npages r → pt.pte v = none
  new : ∀ v, npages o ≤ v → v < npages r → ∃ pa, pt'.pte v = some ⟨pa, perm⟩
  other : ∀ v, ¬ (npages o ≤ v ∧ v < npages r) → pt'.pte v = pt.pte v

/-- **`uvmalloc`.**  It keeps the shape and loses no page; it leaves the entries alone, or adds those of the new pages. -/
theorem uvmalloc_held {o r : ℕ} {xw xx : Bool} (hs : Shaped pt) (ho : o ≤ TRAPFRAME)
    (h : uvmalloc pt o n xw xx m = .ok (r, pt', m')) :
    Shaped pt' ∧ pt'.root = pt.root ∧ (∀ x, m'.free x + pt'.held x = m.free x + pt.held x) ∧
    ((r = 0 ∨ r = o) ∧ pt'.pte = pt.pte ∨ r = n ∧ Grown ⟨true, xw, xx, true⟩ o r pt pt') := by
  cases uvmalloc_inv h with
  | same _ => exact ⟨hs, rfl, fun _ => rfl, .inl ⟨.inr rfl, rfl⟩⟩
  | noMem _ hg => exact ⟨hs.grows hg, hg.root, hg.held, .inl ⟨.inl rfl, hg.pte⟩⟩
  | @ok _ _ c hon hc hm hle =>
    have hn := hm.le (npages_le ho) hs
    have hT : TRAPFRAME < MAXVA := by decide
    have hup := pgroundup_le ho
    have ho' : npages o = (o + 4095) / 4096 := npages_of_le (by omega)
    have hup' : pgroundup o = (o + 4095) / 4096 * 4096 := pgroundup_of_le (by omega)
    have htop : n ≤ TRAPFRAME := by
      simp only [tfPage, TRAPFRAME, TRAMPOLINE, MAXVA, PGSIZE] at *
      omega
    have hnp : npages n = npages o + c := by
      rw [npages_of_le (by omega), ho']
      simp only [tfPage, TRAPFRAME, TRAMPOLINE, MAXVA, PGSIZE] at *
      omega
    refine ⟨hm.shaped hn hs, hm.root, hm.held hn, .inr ⟨rfl, hon, htop, fun v h1 h2 => ?_, fun v h1 h2 => ?_, fun v hv => ?_⟩⟩
    · exact hm.old v h1 (by omega)
    · exact hm.new v h1 (by omega)
    · exact hm.other v (by omega)

/-- **`uvmdealloc`.**  The pages above the new size are free now. -/
theorem uvmdealloc_held {o r : ℕ} (hs : Shaped pt) (ho : o ≤ TRAPFRAME) (h : uvmdealloc pt o n m = .ok (r, pt', m')) :
    Shaped pt' ∧ (∀ x, m'.free x + pt'.held x = m.free x + pt.held x) ∧ r ≤ o ∧
    pt' = pt.unmap (npages r) (npages o - npages r) := by
  have hT : TRAPFRAME < MAXVA := by decide
  obtain ⟨rfl, rfl, hfree⟩ := uvmdealloc_inv (by omega) h
  have hle : npages (min o n) ≤ npages o := npages_mono (by omega) (by omega)
  have hn : npages (min o n) + (npages o - npages (min o n)) ≤ tfPage := by
    have := npages_le ho
    omega
  refine ⟨hs.unmap hn, fun x => ?_, by omega, rfl⟩
  have h1 := hfree x
  have h2 := @unmap_held pt _ _ hn x
  omega

/-- `uvmunmap` with `do_free` of pages below the trapframe page. -/
theorem uvmunmap_held (hs : Shaped pt) (hn : va / PGSIZE + n ≤ tfPage) (h : uvmunmap pt va n true m = .ok (pt', m')) :
    Shaped pt' ∧ ∀ x, m'.free x + pt'.held x = m.free x + pt.held x := by
  obtain ⟨-, rfl, hfree, -⟩ := uvmunmap_inv h
  refine ⟨hs.unmap hn, fun x => ?_⟩
  have h1 := hfree x
  have h2 := @unmap_held pt _ _ hn x
  rw [if_pos rfl] at h1
  omega

/-! ## fork -/

/-- The loop of `uvmcopy`.  On failure the pages copied so far are given back. -/
theorem uvmcopyLoop_held {old : PageTable} : ∀ {n i : ℕ} {new new' : PageTable} {m m' : Kmem} {b : Bool}, i % PGSIZE = 0 →
    i / PGSIZE ≤ tfPage → Shaped new → uvmcopyLoop old n i new m = .ok (b, new', m') →
    Shaped new' ∧ ∀ x, m'.free x + new'.held x = m.free x + new.held x
  | 0, i, new, new', m, m', b, _, _, hs, h => by
    simp only [uvmcopyLoop, Except.ok.injEq, Prod.mk.injEq] at h
    obtain ⟨rfl, rfl, rfl⟩ := h
    exact ⟨hs, fun _ => rfl⟩
  | n + 1, i, new, new', m, m', b, ha, hi, hs, h => by
    unfold uvmcopyLoop at h
    rw [bind_ok] at h
    obtain ⟨⟨found, old1, m1⟩, hw, h⟩ := h
    obtain ⟨-, -, -, hlook⟩ := walk_inv hw
    obtain ⟨-, -, rfl⟩ := hlook rfl
    dsimp only at h
    split_ifs at h
    split at h
    · cases h
    rename_i e _
    split at h
    · rename_i m2 hk
      rw [bind_ok] at h
      obtain ⟨⟨new1, m3⟩, hu, h⟩ := h
      simp only [Except.ok.injEq, Prod.mk.injEq] at h
      obtain ⟨rfl, rfl, rfl⟩ := h
      obtain ⟨hs1, hp⟩ := uvmunmap_held hs (by rwa [Nat.zero_div, zero_add]) hu
      exact ⟨hs1, fun x => by rw [hp, kalloc_none hk]⟩
    · rename_i mem m2 hk
      rw [bind_ok] at h
      obtain ⟨⟨ok, new1, m3⟩, hm, h⟩ := h
      have hfree : (m2.memmove mem e.pa).free = m2.free := rfl
      cases ok with
      | true =>
        obtain ⟨-, h1⟩ := Mapped.one (f := fun _ => e.perm) ha hk hfree hm rfl
        have hle := h1.le hi hs
        rw [← add_PGSIZE_div] at hle
        obtain ⟨hs1, hp⟩ := uvmcopyLoop_held (add_PGSIZE_mod ha) hle (h1.shaped (by rwa [← add_PGSIZE_div]) hs) h
        exact ⟨hs1, fun x => (hp x).trans (h1.held (by rwa [← add_PGSIZE_div]) x)⟩
      | false =>
        simp only [Bool.false_eq_true, if_false, bind_ok] at h
        obtain ⟨m4, hf, ⟨new2, m5⟩, hu, h⟩ := h
        simp only [Except.ok.injEq, Prod.mk.injEq] at h
        obtain ⟨rfl, rfl, rfl⟩ := h
        obtain ⟨-, pt1, hg, ⟨-, rfl⟩ | ⟨hb, -⟩⟩ := mappages_inv ha hm
        · obtain ⟨hs2, hp⟩ := uvmunmap_held (hs.grows hg) (by rwa [Nat.zero_div, zero_add]) hu
          refine ⟨hs2, fun x => ?_⟩
          have e1 := hp x
          have e2 := kfree_free hf x
          have e3 := hg.held x
          have e4 := kalloc_some hk x
          rw [hfree] at e3
          omega
        · cases hb

/-- **`uvmcopy`** into a new page table. -/
theorem uvmcopyOpt_held {old : Option PageTable} {sz : ℕ} (hs : Shaped pt)
    (h : uvmcopyOpt old pt sz m = .ok (b, pt', m')) :
    Shaped pt' ∧ ∀ x, m'.free x + pt'.held x = m.free x + pt.held x := by
  cases old with
  | none =>
    unfold uvmcopyOpt at h
    dsimp only at h
    split_ifs at h
    simp only [Except.ok.injEq, Prod.mk.injEq] at h
    obtain ⟨rfl, rfl, rfl⟩ := h
    exact ⟨hs, fun _ => rfl⟩
  | some old =>
    have h0 : 0 / PGSIZE ≤ tfPage := by simp
    exact uvmcopyLoop_held (Nat.zero_mod _) h0 hs h

/-! ## exec -/

/-- `uvmclear` takes a permission away, no page. -/
theorem uvmclear_held (hs : Shaped pt) (h : uvmclear pt va m = .ok pt') : Shaped pt' ∧ ∀ x, pt'.held x = pt.held x := by
  unfold uvmclear at h
  rw [bind_ok] at h
  obtain ⟨⟨found, pt1, m1⟩, hw, h⟩ := h
  obtain ⟨-, -, -, hlook⟩ := walk_inv hw
  obtain ⟨hf, rfl, rfl⟩ := hlook rfl
  dsimp only at h
  split_ifs at h with hfound
  obtain rfl := Except.ok.inj h
  have hr : pt1.reaches va = true := by
    rw [← hf]
    simpa using hfound
  refine ⟨⟨hs.wf.setPte hr, ?_, fun v y hv hy => ?_⟩, fun x => ?_⟩
  · rw [PageTable.setPte_apply]
    split_ifs with hv
    · rw [← hv]
      simpa using hs.trapf
    · exact hs.trapf
  · rw [PageTable.setPte_apply] at hy
    split_ifs at hy with hva
    · obtain ⟨e, -, rfl⟩ := Option.map_eq_some_iff.mp hy
      rfl
    · exact hs.high v y hv hy
  · rw [PageTable.held, PageTable.held, PageTable.setPte_tab]
    refine congrArg _ (congrFun (leaves_congr_pa fun v => ?_) x)
    rw [PageTable.setPte_apply]
    split_ifs with hv
    · rw [hv, Option.map_map]
      rfl
    · rfl

/-! ## Freeing -/

/-- **`proc_freepagetable`** gives back no more than the table holds. -/
theorem procFreepagetable_held {sz : ℕ} (h : procFreepagetable pt sz m = .ok m') (x : Pa) :
    m'.free x ≤ m.free x + pt.held x := by
  obtain ⟨-, hle, f, hf, hfree⟩ := procFreepagetable_inv h
  have ht : tfPage < trampPage := by decide
  have h1 : leaves f 0 (npages sz) x = leaves pt.pte 0 (npages sz) x :=
    congrFun (leaves_congr fun v _ hv => hf v (by omega) (by omega)) x
  have h2 := leaves_add pt.pte 0 (npages sz) (tfPage - npages sz) x
  rw [show npages sz + (tfPage - npages sz) = tfPage by omega] at h2
  rw [hfree, h1, PageTable.held]
  omega

/-- The count of a page that may be missing. -/
def onePage (pa : Option Pa) (x : Pa) : ℕ :=
  match pa with
  | none => 0
  | some pa => single pa x

theorem kfreeOpt_free {pa : Option Pa} (h : kfreeOpt pa m = .ok m') (x : Pa) : m'.free x = m.free x + onePage pa x := by
  cases pa with
  | none =>
    obtain rfl := Except.ok.inj h
    rfl
  | some pa => exact kfree_free h x

/-- **`freeproc`** gives back the trapframe page and no more than the page table holds. -/
theorem FreeMem.held {P : Proc} (h : FreeMem P m m') (x : Pa) :
    m'.free x ≤ m.free x + onePage P.trapframe x + P.pagetable.elim 0 fun pt => pt.held x := by
  obtain ⟨m1, h1, h2⟩ := h
  rw [← kfreeOpt_free h1]
  cases hpt : P.pagetable with
  | none =>
    rw [hpt] at h2
    obtain rfl := Except.ok.inj h2
    rw [Option.elim_none, add_zero]
  | some pt =>
    rw [hpt] at h2
    rw [Option.elim_some]
    exact procFreepagetable_held h2 x

/-- **`freeproc_thread`** gives back the trapframe page and the pages of the table itself. -/
theorem FreeThreadMem.held {P : Proc} (h : FreeThreadMem P m m') (hs : ∀ pt, P.pagetable = some pt → Shaped pt) (x : Pa) :
    m'.free x = m.free x + onePage P.trapframe x + P.pagetable.elim 0 fun pt => pt.tab x := by
  obtain ⟨pt, pt1, pt2, pt3, m1, m2, m3, m4, hpt, h1, h2, h3, h4, h5⟩ := h
  have hw := (hs pt hpt).wf
  obtain ⟨rfl, hf1⟩ := unmapShared_inv hw h1
  obtain ⟨rfl, hf2⟩ := unmapMapped_inv (hw.unmap _ _) h2
  obtain ⟨rfl, hf3⟩ := unmapMapped_inv ((hw.unmap _ _).unmap _ _) h3
  unfold uvmfree at h4
  rw [if_neg (lt_irrefl 0)] at h4
  have hf4 := freewalk_free h4 x
  have e2 := hf2 x
  have e3 := hf3 x
  simp only [Bool.false_eq_true, if_false, add_zero] at e2 e3
  rw [kfreeOpt_free h5, hf4, e3, e2, hf1, hpt]
  simp only [PageTable.unmap_tab, Option.elim_some]
  omega

/-! ## Sharing -/

/-- The entry of a page table that may be missing. -/
def pteOf (pt : Option PageTable) (v : ℕ) : Option Pte := pt.bind fun pt => pt.pte v

@[simp] theorem pteOf_none (v : ℕ) : pteOf none v = none := rfl

@[simp] theorem pteOf_some (pt : PageTable) (v : ℕ) : pteOf (some pt) v = pt.pte v := rfl

/-- An entry that the user may use. -/
def userPte (e : Option Pte) : Option Pte := e.filter fun e => e.perm.u

theorem userPte_eq_some {e : Option Pte} {x : Pte} : userPte e = some x ↔ e = some x ∧ x.perm.u = true :=
  Option.filter_eq_some_iff

/-- **The share loop** over pages that are not mapped yet. -/
theorem shareLoop_pte {lpt : PageTable} (hl : lpt.WF) : ∀ {n va : ℕ} {pt pt' : PageTable} {m m' : Kmem}, va % PGSIZE = 0 →
    Shaped pt → (∀ v, va / PGSIZE ≤ v → v < tfPage → pt.pte v = none) → shareLoop lpt n va pt m = .ok (true, pt', m') →
    Shaped pt' ∧ ∀ v, pt'.pte v =
      if va / PGSIZE ≤ v ∧ v < va / PGSIZE + n ∧ v < tfPage then userPte (lpt.pte v) else pt.pte v
  | 0, va, pt, pt', m, m', _, hs, _, h => by
    simp only [shareLoop, Except.ok.injEq, Prod.mk.injEq, true_and] at h
    obtain ⟨rfl, rfl⟩ := h
    exact ⟨hs, fun v => by rw [if_neg (by omega)]⟩
  | n + 1, va, pt, pt', m, m', ha, hs, hnone, h => by
    unfold shareLoop at h
    split_ifs at h with htf
    · simp only [Except.ok.injEq, Prod.mk.injEq, true_and] at h
      obtain ⟨rfl, rfl⟩ := h
      have : tfPage ≤ va / PGSIZE := by
        have := (lt_tfPage_iff ha).not
        omega
      exact ⟨hs, fun v => by rw [if_neg (by omega)]⟩
    have hva : va / PGSIZE < tfPage := (lt_tfPage_iff ha).mpr (by omega)
    rw [bind_ok] at h
    obtain ⟨⟨found, lpt1, m1⟩, hw, h⟩ := h
    obtain ⟨-, -, -, hlook⟩ := walk_inv hw
    obtain ⟨rfl, rfl, rfl⟩ := hlook rfl
    -- the page that this round is about, and the rest of the loop
    have hnext : ∀ {pt1 : PageTable} {m2 : Kmem}, Shaped pt1 → pt1.pte (va / PGSIZE) = userPte (lpt1.pte (va / PGSIZE)) →
        (∀ v, v ≠ va / PGSIZE → pt1.pte v = pt.pte v) → shareLoop lpt1 n (va + PGSIZE) pt1 m2 = .ok (true, pt', m') →
        Shaped pt' ∧ ∀ v, pt'.pte v =
          if va / PGSIZE ≤ v ∧ v < va / PGSIZE + (n + 1) ∧ v < tfPage then userPte (lpt1.pte v) else pt.pte v := by
      intro pt1 m2 hs1 hself hother hrec
      obtain ⟨hs', hpte⟩ := shareLoop_pte hl (add_PGSIZE_mod ha) hs1
        (fun v hv hv' => by
          rw [add_PGSIZE_div] at hv
          rw [hother v (by omega)]
          exact hnone v (by omega) hv') hrec
      refine ⟨hs', fun v => ?_⟩
      rw [hpte, add_PGSIZE_div]
      by_cases hv : v = va / PGSIZE
      · rw [if_neg (by omega), if_pos (by omega), hv, hself]
      · rw [hother v hv]
        by_cases hr : va / PGSIZE + 1 ≤ v ∧ v < va / PGSIZE + 1 + n ∧ v < tfPage
        · rw [if_pos hr, if_pos (by omega)]
        · rw [if_neg hr, if_neg (by omega)]
    have hskip : userPte (lpt1.pte (va / PGSIZE)) = none → pt.pte (va / PGSIZE) = userPte (lpt1.pte (va / PGSIZE)) := by
      intro hu
      rw [hu]
      exact hnone _ le_rfl hva
    dsimp only at h
    split at h
    · rename_i hno
      refine hnext hs (hskip ?_) (fun _ _ => rfl) h
      cases he : lpt1.pte (va / PGSIZE) with
      | none => rfl
      | some e => simp [hl.reaches (by rw [he]; simp), he] at hno
    · rename_i e he
      have he : lpt1.pte (va / PGSIZE) = some e := by
        split_ifs at he
        exact he
      split_ifs at h with hu
      · rw [bind_ok] at h
        obtain ⟨⟨ok, pt1, m2⟩, hm, h⟩ := h
        obtain ⟨-, pt2, hg, ⟨rfl, rfl⟩ | ⟨rfl, -, hr, rfl⟩⟩ := mappages_inv ha hm
        · simp at h
        · refine hnext ((hs.grows hg).setPte hr hva) ?_ (fun v hv => ?_) h
          · rw [PageTable.setPte_self]
            exact (userPte_eq_some.mpr ⟨he, hu⟩).symm
          · rw [PageTable.setPte_of_ne _ _ hv, hg.pte]
      · refine hnext hs (hskip ?_) (fun _ _ => rfl) h
        simp [userPte, he, hu]

/-- **What a new thread shares**: exactly the user pages of its leader below the size. -/
theorem share_pte {lpt : Option PageTable} {sz : ℕ} (hl : ∀ x, lpt = some x → x.WF) (ho : OnlyKernel pt)
    (h : share lpt sz pt m = .ok (true, pt', m')) :
    Shaped pt' ∧ ∀ v, pt'.pte v = if v < npages sz ∧ v < tfPage then userPte (pteOf lpt v) else pt.pte v := by
  cases lpt with
  | none =>
    unfold share at h
    dsimp only at h
    split_ifs at h
    simp only [Except.ok.injEq, Prod.mk.injEq, true_and] at h
    obtain ⟨rfl, rfl⟩ := h
    refine ⟨ho.shaped, fun v => ?_⟩
    split_ifs with hv
    · exact ho.user v hv.2
    · rfl
  | some lpt =>
    unfold share at h
    dsimp only at h
    obtain ⟨hs, hpte⟩ := shareLoop_pte (hl lpt rfl) (Nat.zero_mod _) ho.shaped (fun v _ => ho.user v) h
    refine ⟨hs, fun v => ?_⟩
    rw [hpte, Nat.zero_div, pgroundup_div, pteOf_some]
    by_cases hn : v < npages sz ∧ v < tfPage
    · rw [if_pos (by omega), if_pos hn]
    · rw [if_neg (by omega), if_neg hn]

/-! ## Boot -/

/-- The page of the first process. -/
theorem uvmfirst_held {src : List UInt8} (hs : Shaped pt) (h : uvmfirst pt src m = .ok (pt', m')) :
    Shaped pt' ∧ ∀ x, m'.free x + pt'.held x ≤ m.free x + pt.held x := by
  unfold uvmfirst at h
  split_ifs at h
  split at h
  · cases h
  rename_i mem m1 hk
  rw [bind_ok] at h
  obtain ⟨⟨ok, pt1, m2⟩, hm, h⟩ := h
  obtain ⟨rfl, rfl⟩ := Prod.mk.inj (Except.ok.inj h)
  have hfree : (m1.memset mem 0).free = m1.free := rfl
  cases ok with
  | true =>
    obtain ⟨-, h1⟩ := Mapped.one (f := fun _ => ⟨true, true, true, true⟩) (Nat.zero_mod _) hk hfree hm rfl
    have hle := h1.le (by simp) hs
    exact ⟨h1.shaped hle hs, fun x => (h1.held hle x).le⟩
  | false =>
    obtain ⟨-, pt2, hg, ⟨-, rfl⟩ | ⟨hb, -⟩⟩ := mappages_inv (Nat.zero_mod _) hm
    · refine ⟨hs.grows hg, fun x => ?_⟩
      have e1 := hg.held x
      have e2 := kalloc_some hk x
      rw [hfree] at e1
      show m2.free x + _ ≤ _
      omega
    · cases hb

end OsLabs.Xv6
