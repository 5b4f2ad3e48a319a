import OsLabs.Xv6.Calls
import Mathlib.Algebra.Order.BigOperators.Group.Finset

/-!
# OsLabs.Xv6.VmSpec — what the functions on page tables do

Each function that returns is described by what it does to the leaf PTEs and by where the physical pages go.  Pages are
counted one at a time: for a page `x`, `m.free x`, `pt.tab x` and `leaves f a n x` say how often it is on the free list, a page
of the table itself, and mapped at one of the `n` page numbers from `a` on.  Nothing is lost and nothing is handed out twice
as long as the sum of these counts stays.

* `Grows`: only page-table pages were added.
* `walk_inv`, `mappages_inv`, `uvmunmap_inv`, `uvmalloc_inv`, …: one lemma per function.
-/

namespace OsLabs.Xv6

open Fallible

variable {pt pt' : PageTable} {m m' : Kmem} {va a n : ℕ} {b : Bool}

/-! ## Page numbers -/

theorem PGSIZE_pos : 0 < PGSIZE := by decide

theorem add_PGSIZE_div (a : ℕ) : (a + PGSIZE) / PGSIZE = a / PGSIZE + 1 := Nat.add_div_right a PGSIZE_pos

theorem add_PGSIZE_mod {a : ℕ} (h : a % PGSIZE = 0) : (a + PGSIZE) % PGSIZE = 0 := by
  rw [Nat.add_mod_right, h]

theorem pgrounddown_of_mod {a : ℕ} (h : a % PGSIZE = 0) : pgrounddown a = a := by
  unfold pgrounddown
  exact Nat.div_mul_cancel (Nat.dvd_of_mod_eq_zero h)

theorem pgroundup_mod (a : ℕ) : pgroundup a % PGSIZE = 0 := Nat.mul_mod_left _ _

/-- A page-aligned address is its own `PGROUNDUP`. -/
theorem pgroundup_of_mod {a : ℕ} (h : a % PGSIZE = 0) (hlt : a < 2 ^ 64) : pgroundup a = a := by
  simp only [pgroundup, PGSIZE] at *
  omega

theorem lt_tfPage_iff {a : ℕ} (h : a % PGSIZE = 0) : a / PGSIZE < tfPage ↔ a < TRAPFRAME := by
  simp only [tfPage, TRAPFRAME, TRAMPOLINE, MAXVA, PGSIZE] at *
  omega

/-! ## Page-table pages -/

namespace PageTable

/-- How often page `x` is a page of the table itself. -/
def tab (pt : PageTable) (x : Pa) : ℕ := pt.pages.count x

/-- A leaf PTE sits in a page-table page that `walk` finds. -/
def WF (pt : PageTable) : Prop := ∀ v, pt.pte v ≠ none → pt.reaches (v * PGSIZE) = true

theorem key_div (level va : ℕ) : key level (va / PGSIZE * PGSIZE) = key level va := by
  have h : va / PGSIZE * PGSIZE / 2 ^ 12 = va / 2 ^ 12 := Nat.mul_div_cancel (va / PGSIZE) PGSIZE_pos
  simp only [key, pow_add 2 12, ← Nat.div_div_eq_div_mul, h]

/-- `walk` looks at the page number only. -/
theorem reaches_div (pt : PageTable) (va : ℕ) : pt.reaches (va / PGSIZE * PGSIZE) = pt.reaches va := by
  simp only [reaches, dir, key_div]

theorem WF.reaches (h : pt.WF) {va : ℕ} (hv : pt.pte (va / PGSIZE) ≠ none) : pt.reaches va = true := by
  rw [← reaches_div]
  exact h _ hv

@[simp] theorem setPte_self (pt : PageTable) (v : ℕ) (e : Option Pte) : (pt.setPte v e).pte v = e := by simp [setPte]

theorem setPte_of_ne (pt : PageTable) {v w : ℕ} (e : Option Pte) (h : w ≠ v) : (pt.setPte v e).pte w = pt.pte w := by
  simp [setPte, h]

theorem setPte_apply (pt : PageTable) (v w : ℕ) (e : Option Pte) :
    (pt.setPte v e).pte w = if w = v then e else pt.pte w := by
  simp [setPte, Function.update_apply]

/-- Forget the entries at the `n` page numbers from `a` on. -/
def unmap (pt : PageTable) (a n : ℕ) : PageTable :=
  { pt with pte := fun v => if a ≤ v ∧ v < a + n then none else pt.pte v }

theorem unmap_apply (pt : PageTable) (a n v : ℕ) :
    (pt.unmap a n).pte v = if a ≤ v ∧ v < a + n then none else pt.pte v := rfl

theorem unmap_zero (pt : PageTable) (a : ℕ) : pt.unmap a 0 = pt := by
  have h : (fun v => if a ≤ v ∧ v < a + 0 then none else pt.pte v) = pt.pte := by
    funext v
    rw [if_neg (by omega)]
  simp only [unmap, h]

theorem unmap_succ (pt : PageTable) (a n : ℕ) : (pt.setPte a none).unmap (a + 1) n = pt.unmap a (n + 1) := by
  have h : (fun v => if a + 1 ≤ v ∧ v < a + 1 + n then none else (pt.setPte a none).pte v) =
      fun v => if a ≤ v ∧ v < a + (n + 1) then none else pt.pte v := by
    funext v
    rw [setPte_apply]
    by_cases hv : v = a
    · subst hv
      rw [if_neg (by omega), if_pos rfl, if_pos (by omega)]
    · rw [if_neg hv]
      by_cases hr : a + 1 ≤ v ∧ v < a + 1 + n
      · rw [if_pos hr, if_pos (by omega)]
      · rw [if_neg hr, if_neg (by omega)]
  simp only [unmap, setPte] at h ⊢
  rw [h]

theorem unmap_one (pt : PageTable) (a : ℕ) : pt.unmap a 1 = pt.setPte a none := by
  rw [← unmap_succ, unmap_zero]

/-- Nothing to forget where nothing is mapped. -/
theorem unmap_one_none (pt : PageTable) {a : ℕ} (h : pt.pte a = none) : pt.unmap a 1 = pt := by
  have h' : (fun v => if a ≤ v ∧ v < a + 1 then none else pt.pte v) = pt.pte := by
    funext v
    split_ifs with hv
    · rw [show v = a by omega, h]
    · rfl
  simp only [unmap, h']

theorem WF.unmap (h : pt.WF) (a n : ℕ) : (pt.unmap a n).WF := by
  intro v hv
  rw [unmap_apply] at hv
  split_ifs at hv
  · exact absurd rfl hv
  · exact h v hv

@[simp] theorem unmap_tab (pt : PageTable) (a n : ℕ) : (pt.unmap a n).tab = pt.tab := rfl

@[simp] theorem setPte_tab (pt : PageTable) (v : ℕ) (e : Option Pte) : (pt.setPte v e).tab = pt.tab := rfl

end PageTable

/-- Only page-table pages were added. -/
structure Grows (pt pt' : PageTable) (m m' : Kmem) : Prop where
  pte : pt'.pte = pt.pte
  root : pt'.root = pt.root
  dir : ∀ l va, (pt.dir l va).isSome = true → (pt'.dir l va).isSome = true
  pages : ∀ x, m'.free x + pt'.tab x = m.free x + pt.tab x

namespace Grows

theorem refl (pt : PageTable) (m : Kmem) : Grows pt pt m m := ⟨rfl, rfl, fun _ _ h => h, fun _ => rfl⟩

theorem trans {pt1 : PageTable} {m1 : Kmem} (h : Grows pt pt1 m m1) (h' : Grows pt1 pt' m1 m') : Grows pt pt' m m' :=
  ⟨h'.pte.trans h.pte, h'.root.trans h.root, fun l va hd => h'.dir l va (h.dir l va hd),
    fun x => (h'.pages x).trans (h.pages x)⟩

theorem reaches (h : Grows pt pt' m m') {va : ℕ} (hr : pt.reaches va = true) : pt'.reaches va = true := by
  simp only [PageTable.reaches, Bool.and_eq_true] at hr ⊢
  exact ⟨h.dir 1 va hr.1, h.dir 0 va hr.2⟩

theorem wf (h : Grows pt pt' m m') (hw : pt.WF) : pt'.WF := by
  intro v hv
  rw [h.pte] at hv
  exact h.reaches (hw v hv)

end Grows

/-! ## walk and mappages -/

theorem walkLevel_inv {level : ℕ} {alloc : Bool} (h : walkLevel pt level va alloc m = (b, pt', m')) :
    Grows pt pt' m m' ∧ (b = true → (pt'.dir level va).isSome = true) ∧
    (alloc = false → b = (pt.dir level va).isSome ∧ pt' = pt ∧ m' = m) := by
  unfold walkLevel at h
  split_ifs at h with hd ha
  · simp only [Prod.mk.injEq] at h
    obtain ⟨rfl, rfl, rfl⟩ := h
    exact ⟨.refl _ _, fun _ => hd, fun _ => ⟨hd.symm, rfl, rfl⟩⟩
  · simp only [Prod.mk.injEq] at h
    obtain ⟨rfl, rfl, rfl⟩ := h
    exact ⟨.refl _ _, nofun, fun _ => ⟨by simpa using hd, rfl, rfl⟩⟩
  · have hal : alloc = false → False := by simpa using ha
    split at h
    · rename_i m1 hk
      simp only [Prod.mk.injEq] at h
      obtain ⟨rfl, rfl, rfl⟩ := h
      exact ⟨⟨rfl, rfl, fun _ _ h => h, fun x => by rw [kalloc_none hk]⟩, nofun, fun h => absurd h hal⟩
    · rename_i pa m1 hk
      simp only [Prod.mk.injEq] at h
      obtain ⟨rfl, rfl, rfl⟩ := h
      refine ⟨⟨rfl, rfl, fun l v hv => ?_, fun x => ?_⟩, fun _ => ?_, fun h => absurd h hal⟩
      · show (List.lookup _ (_ :: pt.dirs)).isSome = true
        rw [List.lookup_cons]
        split
        · rfl
        · exact hv
      · have hfree := kalloc_some hk x
        simp only [PageTable.tab, PageTable.pages, PageTable.addDir, List.map_cons, List.count_cons, Kmem.memset_free,
          single, beq_iff_eq] at hfree ⊢
        omega
      · simp [PageTable.dir, PageTable.addDir]

/-- **`walk`.**  Without `alloc` it only looks. -/
theorem walk_inv {alloc : Bool} (h : walk pt va alloc m = .ok (b, pt', m')) :
    va < MAXVA ∧ Grows pt pt' m m' ∧ (b = true → pt'.reaches va = true) ∧
    (alloc = false → b = pt.reaches va ∧ pt' = pt ∧ m' = m) := by
  unfold walk at h
  split_ifs at h with hva
  refine ⟨by omega, ?_⟩
  split at h
  · rename_i pt1 m1 h1
    simp only [Except.ok.injEq, Prod.mk.injEq] at h
    obtain ⟨rfl, rfl, rfl⟩ := h
    obtain ⟨hg, -, hn⟩ := walkLevel_inv h1
    refine ⟨hg, nofun, fun ha => ?_⟩
    obtain ⟨hb, rfl, rfl⟩ := hn ha
    exact ⟨by simp [PageTable.reaches, ← hb], rfl, rfl⟩
  · rename_i pt1 m1 h1
    obtain ⟨hg1, hb1, hn1⟩ := walkLevel_inv h1
    obtain ⟨hg2, hb2, hn2⟩ := walkLevel_inv (Except.ok.inj h)
    refine ⟨hg1.trans hg2, fun hb => ?_, fun ha => ?_⟩
    · simp only [PageTable.reaches, Bool.and_eq_true]
      exact ⟨hg2.dir 1 va (hb1 rfl), hb2 hb⟩
    · obtain ⟨hb, rfl, rfl⟩ := hn1 ha
      obtain ⟨hb', rfl, rfl⟩ := hn2 ha
      exact ⟨by simp [PageTable.reaches, ← hb, ← hb'], rfl, rfl⟩

/-- **`mappages`** of one page: the entry is new, or there was no page for the table and only that changed. -/
theorem mappages_inv {pa : Pa} {perm : Perm} (ha : va % PGSIZE = 0)
    (h : mappages pt va PGSIZE pa perm m = .ok (b, pt', m')) :
    va < MAXVA ∧ ∃ pt1, Grows pt pt1 m m' ∧ (b = false ∧ pt' = pt1 ∨
      b = true ∧ pt.pte (va / PGSIZE) = none ∧ pt1.reaches va = true ∧
        pt' = pt1.setPte (va / PGSIZE) (some ⟨pa, perm⟩)) := by
  have hn : (pgrounddown (va + PGSIZE - 1) - pgrounddown va) / PGSIZE = 0 := by
    simp only [pgrounddown, PGSIZE] at *
    omega
  unfold mappages at h
  rw [if_neg (by decide), hn, pgrounddown_of_mod ha] at h
  unfold mappagesLoop at h
  rw [bind_ok] at h
  obtain ⟨⟨found, pt1, m1⟩, hw, h⟩ := h
  obtain ⟨hva, hg, hf, -⟩ := walk_inv hw
  refine ⟨hva, pt1, ?_⟩
  dsimp only at h
  split_ifs at h with h1 h2
  · simp only [Except.ok.injEq, Prod.mk.injEq] at h
    obtain ⟨rfl, rfl, rfl⟩ := h
    exact ⟨hg, .inl ⟨rfl, rfl⟩⟩
  · simp only [Except.ok.injEq, Prod.mk.injEq] at h
    obtain ⟨rfl, rfl, rfl⟩ := h
    refine ⟨hg, .inr ⟨rfl, ?_, hf (by simpa using h1), rfl⟩⟩
    rw [← hg.pte]
    simpa using h2

theorem PageTable.WF.setPte (h : pt.WF) {e : Option Pte} (hr : pt.reaches va = true) :
    (pt.setPte (va / PGSIZE) e).WF := by
  intro v hv
  rw [PageTable.setPte_apply] at hv
  split_ifs at hv with hva
  · subst hva
    exact (PageTable.reaches_div pt va).trans hr
  · exact h v hv

/-! ## Mapped pages -/

/-- One if the entry maps page `x`. -/
def leaf (e : Option Pte) (x : Pa) : ℕ :=
  match e with
  | none => 0
  | some e => single e.pa x

/-- How often page `x` is mapped at the `n` page numbers from `a` on. -/
def leaves (f : ℕ → Option Pte) (a n : ℕ) (x : Pa) : ℕ := ∑ i ∈ Finset.range n, leaf (f (a + i)) x

@[simp] theorem leaf_none (x : Pa) : leaf none x = 0 := rfl

@[simp] theorem leaf_some (e : Pte) (x : Pa) : leaf (some e) x = single e.pa x := rfl

@[simp] theorem leaves_zero (f : ℕ → Option Pte) (a : ℕ) (x : Pa) : leaves f a 0 x = 0 := rfl

/-- The first page number split off. -/
theorem leaves_succ (f : ℕ → Option Pte) (a n : ℕ) (x : Pa) :
    leaves f a (n + 1) x = leaf (f a) x + leaves f (a + 1) n x := by
  unfold leaves
  rw [Finset.sum_range_succ']
  simp only [add_zero, Nat.add_assoc, Nat.add_comm 1]
  rw [Nat.add_comm]

theorem leaves_add (f : ℕ → Option Pte) (a n k : ℕ) (x : Pa) :
    leaves f a (n + k) x = leaves f a n x + leaves f (a + n) k x := by
  unfold leaves
  rw [Finset.sum_range_add]
  simp only [Nat.add_assoc]

theorem leaves_one (f : ℕ → Option Pte) (a : ℕ) (x : Pa) : leaves f a 1 x = leaf (f a) x := by
  simp [leaves]

theorem leaves_congr {f g : ℕ → Option Pte} {a n : ℕ} (h : ∀ v, a ≤ v → v < a + n → f v = g v) :
    leaves f a n = leaves g a n := by
  funext x
  refine Finset.sum_congr rfl fun i hi => ?_
  rw [h (a + i) (by omega) (by have := Finset.mem_range.mp hi; omega)]

/-- Only the physical pages count. -/
theorem leaves_congr_pa {f g : ℕ → Option Pte} {a n : ℕ} (h : ∀ v, (f v).map Pte.pa = (g v).map Pte.pa) :
    leaves f a n = leaves g a n := by
  funext x
  refine Finset.sum_congr rfl fun i _ => ?_
  have := h (a + i)
  cases hf : f (a + i) <;> cases hg : g (a + i) <;> rw [hf, hg] at this <;> simp_all [leaf]

/-- A mapped page is counted. -/
theorem leaf_le_leaves {f : ℕ → Option Pte} {a n v : ℕ} (h1 : a ≤ v) (h2 : v < a + n) (x : Pa) :
    leaf (f v) x ≤ leaves f a n x := by
  obtain ⟨i, rfl⟩ := Nat.exists_eq_add_of_le h1
  exact Finset.single_le_sum (f := fun i => leaf (f (a + i)) x) (fun _ _ => Nat.zero_le _)
    (Finset.mem_range.mpr (by omega))

/-! ## uvmunmap -/

theorem uvmunmapLoop_inv {d : Bool} : ∀ {n a : ℕ} {pt pt' : PageTable} {m m' : Kmem}, a % PGSIZE = 0 →
    uvmunmapLoop d n a pt m = .ok (pt', m') →
    pt' = pt.unmap (a / PGSIZE) n ∧ (∀ x, m'.free x = m.free x + if d then leaves pt.pte (a / PGSIZE) n x else 0) ∧
    ∀ v, a / PGSIZE ≤ v → v < a / PGSIZE + n → pt.pte v ≠ none
  | 0, a, pt, pt', m, m', _, h => by
    obtain ⟨rfl, rfl⟩ := Prod.mk.inj (Except.ok.inj h)
    exact ⟨(PageTable.unmap_zero _ _).symm, fun x => by simp, fun v h1 h2 => by omega⟩
  | n + 1, a, pt, pt', m, m', ha, h => by
    unfold uvmunmapLoop at h
    rw [bind_ok] at h
    obtain ⟨⟨found, pt1, m1⟩, hw, h⟩ := h
    obtain ⟨-, -, -, hn⟩ := walk_inv hw
    obtain ⟨rfl, rfl, rfl⟩ := hn rfl
    dsimp only at h
    split_ifs at h
    split at h
    · cases h
    rename_i e he
    split_ifs at h
    rw [bind_ok] at h
    obtain ⟨m2, hk, h⟩ := h
    obtain ⟨rfl, hfree, hsome⟩ := uvmunmapLoop_inv (add_PGSIZE_mod ha) h
    rw [add_PGSIZE_div] at hfree hsome ⊢
    have hpte : ∀ v, a / PGSIZE + 1 ≤ v → (pt1.setPte (a / PGSIZE) none).pte v = pt1.pte v := fun v hv =>
      PageTable.setPte_of_ne _ _ (by omega)
    refine ⟨PageTable.unmap_succ _ _ _, fun x => ?_, fun v h1 h2 => ?_⟩
    · rw [hfree, leaves_succ, he, leaf_some, leaves_congr fun v hv _ => hpte v hv]
      unfold kfreeIf at hk
      cases d with
      | true =>
        have := kfree_free hk x
        simp only [if_true]
        omega
      | false =>
        obtain rfl := Except.ok.inj hk
        simp
    · by_cases hv : v = a / PGSIZE
      · rw [hv, he]
        simp
      · rw [← hpte v (by omega)]
        exact hsome v (by omega) (by omega)

/-- **`uvmunmap`.**  Every page was mapped; with `do_free` the pages are free now. -/
theorem uvmunmap_inv {d : Bool} (h : uvmunmap pt va n d m = .ok (pt', m')) :
    va % PGSIZE = 0 ∧ pt' = pt.unmap (va / PGSIZE) n ∧
    (∀ x, m'.free x = m.free x + if d then leaves pt.pte (va / PGSIZE) n x else 0) ∧
    ∀ v, va / PGSIZE ≤ v → v < va / PGSIZE + n → pt.pte v ≠ none := by
  unfold uvmunmap at h
  split_ifs at h with ha
  have ha : va % PGSIZE = 0 := by omega
  exact ⟨ha, uvmunmapLoop_inv ha h⟩

theorem unmapMapped_lt {d : Bool} (h : unmapMapped pt va d m = .ok (pt', m')) : va < MAXVA := by
  unfold unmapMapped at h
  rw [bind_ok] at h
  obtain ⟨_, hwalk, -⟩ := h
  exact (walk_inv hwalk).1

theorem unmapMapped_inv {d : Bool} (hw : pt.WF) (h : unmapMapped pt va d m = .ok (pt', m')) :
    pt' = pt.unmap (va / PGSIZE) 1 ∧ ∀ x, m'.free x = m.free x + if d then leaf (pt.pte (va / PGSIZE)) x else 0 := by
  unfold unmapMapped at h
  rw [bind_ok] at h
  obtain ⟨⟨found, pt1, m1⟩, hwalk, h⟩ := h
  obtain ⟨-, -, -, hn⟩ := walk_inv hwalk
  obtain ⟨rfl, rfl, rfl⟩ := hn rfl
  dsimp only at h
  split_ifs at h with hm
  · obtain ⟨-, rfl, hfree, -⟩ := uvmunmap_inv h
    exact ⟨rfl, fun x => by rw [hfree, leaves_one]⟩
  · obtain ⟨rfl, rfl⟩ := Prod.mk.inj (Except.ok.inj h)
    have hnone : pt1.pte (va / PGSIZE) = none := by
      by_contra hne
      rw [hw.reaches hne] at hm
      simp [Option.isSome_iff_ne_none, hne] at hm
    exact ⟨(PageTable.unmap_one_none _ hnone).symm, fun x => by simp [hnone]⟩

theorem unmapShared_inv : ∀ {n va : ℕ} {pt pt' : PageTable} {m m' : Kmem}, pt.WF →
    unmapShared n va pt m = .ok (pt', m') → pt' = pt.unmap (va / PGSIZE) n ∧ m'.free = m.free
  | 0, va, pt, pt', m, m', _, h => by
    obtain ⟨rfl, rfl⟩ := Prod.mk.inj (Except.ok.inj h)
    exact ⟨(PageTable.unmap_zero _ _).symm, rfl⟩
  | n + 1, va, pt, pt', m, m', hw, h => by
    unfold unmapShared at h
    rw [bind_ok] at h
    obtain ⟨⟨pt1, m1⟩, h1, h⟩ := h
    obtain ⟨rfl, hf1⟩ := unmapMapped_inv hw h1
    obtain ⟨rfl, hf2⟩ := unmapShared_inv (hw.unmap _ _) h
    refine ⟨?_, hf2.trans (funext fun x => by simpa using hf1 x)⟩
    rw [add_PGSIZE_div, PageTable.unmap_one, PageTable.unmap_succ]

/-! ## Growing and shrinking -/

theorem pgroundup_div (sz : ℕ) : pgroundup sz / PGSIZE = npages sz := rfl

theorem pgroundup_eq (sz : ℕ) : pgroundup sz = npages sz * PGSIZE :=
  (Nat.div_mul_cancel (Nat.dvd_of_mod_eq_zero (pgroundup_mod sz))).symm

theorem npages_mono {s t : ℕ} (hst : s ≤ t) (ht : t ≤ MAXVA) : npages s ≤ npages t := by
  rw [npages_of_le ht, npages_of_le (hst.trans ht)]
  omega

theorem npages_of_mod {a : ℕ} (h : a % PGSIZE = 0) (hle : a ≤ MAXVA) : npages a = a / PGSIZE := by
  rw [npages_of_le hle]
  simp only [PGSIZE] at *
  omega

/-- **`uvmdealloc`** unmaps and frees the pages above the new size. -/
theorem uvmdealloc_inv {o r : ℕ} (ho : o ≤ MAXVA) (h : uvmdealloc pt o n m = .ok (r, pt', m')) :
    r = min o n ∧ pt' = pt.unmap (npages r) (npages o - npages r) ∧
    ∀ x, m'.free x = m.free x + leaves pt.pte (npages r) (npages o - npages r) x := by
  unfold uvmdealloc at h
  split_ifs at h with h1 h2
  · simp only [Except.ok.injEq, Prod.mk.injEq] at h
    obtain ⟨rfl, rfl, rfl⟩ := h
    refine ⟨by omega, ?_, fun x => ?_⟩
    · rw [Nat.sub_self, PageTable.unmap_zero]
    · rw [Nat.sub_self, leaves_zero, add_zero]
  · rw [bind_ok] at h
    obtain ⟨⟨pt1, m1⟩, hu, h⟩ := h
    simp only [Except.ok.injEq, Prod.mk.injEq] at h
    obtain ⟨rfl, rfl, rfl⟩ := h
    obtain ⟨-, rfl, hfree, -⟩ := uvmunmap_inv hu
    have hn : (pgroundup o - pgroundup n) / PGSIZE = npages o - npages n := by
      rw [pgroundup_of_le ho, pgroundup_of_le (by omega), npages_of_le ho, npages_of_le (by omega)]
      simp only [PGSIZE]
      omega
    rw [hn, pgroundup_div] at hfree ⊢
    exact ⟨by omega, rfl, fun x => by simpa using hfree x⟩
  · simp only [Except.ok.injEq, Prod.mk.injEq] at h
    obtain ⟨rfl, rfl, rfl⟩ := h
    have hn : npages o - npages n = 0 := by
      rw [pgroundup_of_le ho, pgroundup_of_le (by omega)] at h2
      rw [npages_of_le ho, npages_of_le (by omega)]
      omega
    refine ⟨by omega, ?_, fun x => ?_⟩
    · rw [hn, PageTable.unmap_zero]
    · rw [hn, leaves_zero, add_zero]

/-- `n` new pages were mapped from the page number `a` on. -/
structure Mapped (perm : ℕ → Perm) (a n : ℕ) (pt pt' : PageTable) (m m' : Kmem) : Prop where
  root : pt'.root = pt.root
  dir : ∀ l va, (pt.dir l va).isSome = true → (pt'.dir l va).isSome = true
  wf : pt.WF → pt'.WF
  other : ∀ v, ¬ (a ≤ v ∧ v < a + n) → pt'.pte v = pt.pte v
  old : ∀ v, a ≤ v → v < a + n → pt.pte v = none
  new : ∀ v, a ≤ v → v < a + n → ∃ pa, pt'.pte v = some ⟨pa, perm v⟩
  pages : ∀ x, m'.free x + pt'.tab x + leaves pt'.pte a n x = m.free x + pt.tab x

theorem Mapped.zero {perm : ℕ → Perm} (pt : PageTable) (m : Kmem) : Mapped perm a 0 pt pt m m :=
  ⟨rfl, fun _ _ h => h, fun h => h, fun _ _ => rfl, fun v h1 h2 => by omega, fun v h1 h2 => by omega, fun x => by simp⟩

/-- One page from `kalloc` is mapped. -/
theorem Mapped.one {pt1 : PageTable} {perm : Perm} {f : ℕ → Perm} {m1 m2 : Kmem} {mem : Pa} (ha : va % PGSIZE = 0)
    (hk : kalloc m = (some mem, m1)) (hm : m2.free = m1.free)
    (h : mappages pt va PGSIZE mem perm m2 = .ok (true, pt1, m')) (hf : f (va / PGSIZE) = perm) :
    va < MAXVA ∧ Mapped f (va / PGSIZE) 1 pt pt1 m m' := by
  obtain ⟨hva, pt2, hg, ⟨hb, -⟩ | ⟨-, hnone, hr, rfl⟩⟩ := mappages_inv ha h
  · cases hb
  refine ⟨hva, hg.root, hg.dir, fun hw => (hg.wf hw).setPte hr, fun v hv => ?_, fun v h1 h2 => ?_, fun v h1 h2 => ?_,
    fun x => ?_⟩
  · rw [PageTable.setPte_of_ne _ _ (by omega), hg.pte]
  · rw [show v = va / PGSIZE by omega, hnone]
  · obtain rfl : v = va / PGSIZE := by omega
    exact ⟨mem, by rw [PageTable.setPte_self, hf]⟩
  · have h1 := hg.pages x
    have h2 := kalloc_some hk x
    rw [leaves_one, PageTable.setPte_self, leaf_some, PageTable.setPte_tab]
    rw [hm] at h1
    show _ + _ + single mem x = _
    omega

/-- Pages mapped below pages mapped later. -/
theorem Mapped.append {pt1 : PageTable} {perm : ℕ → Perm} {m1 : Kmem} {k : ℕ} (h1 : Mapped perm a n pt pt1 m m1)
    (h2 : Mapped perm (a + n) k pt1 pt' m1 m') : Mapped perm a (n + k) pt pt' m m' := by
  have hlow : ∀ v, v < a + n → pt'.pte v = pt1.pte v := fun v hv => h2.other v (by omega)
  refine ⟨h2.root.trans h1.root, fun l va h => h2.dir l va (h1.dir l va h), fun h => h2.wf (h1.wf h), fun v hv => ?_,
    fun v hv1 hv2 => ?_, fun v hv1 hv2 => ?_, fun x => ?_⟩
  · rw [h2.other v (by omega), h1.other v (by omega)]
  · by_cases hv : v < a + n
    · exact h1.old v hv1 hv
    · rw [← h1.other v (by omega)]
      exact h2.old v (by omega) (by omega)
  · by_cases hv : v < a + n
    · rw [hlow v hv]
      exact h1.new v hv1 hv
    · exact h2.new v (by omega) (by omega)
  · have e1 := h1.pages x
    have e2 := h2.pages x
    rw [leaves_add, leaves_congr fun v _ hv => hlow v hv]
    omega

theorem MAXVA_mod : MAXVA % PGSIZE = 0 := by decide

/-- The pages from `o` to `a` were unmapped and freed; page-table pages may have been added. -/
structure Undone (o n : ℕ) (pt pt' : PageTable) (m m' : Kmem) : Prop where
  pte : pt'.pte = (pt.unmap o n).pte
  root : pt'.root = pt.root
  dir : ∀ l va, (pt.dir l va).isSome = true → (pt'.dir l va).isSome = true
  pages : ∀ x, m'.free x + pt'.tab x = m.free x + pt.tab x + leaves pt.pte o n x

/-- `uvmdealloc` back to where a failed loop started. -/
theorem uvmdealloc_undone {pt1 : PageTable} {m1 : Kmem} {o r : ℕ} (ha : a % PGSIZE = 0) (ho : o % PGSIZE = 0)
    (hoa : o ≤ a) (hle : o = a ∨ a ≤ MAXVA) (hg : Grows pt pt1 m m1) (h : uvmdealloc pt1 a o m1 = .ok (r, pt', m')) :
    Undone (o / PGSIZE) (a / PGSIZE - o / PGSIZE) pt pt' m m' := by
  rcases hle with rfl | hle
  · unfold uvmdealloc at h
    rw [if_pos le_rfl] at h
    simp only [Except.ok.injEq, Prod.mk.injEq] at h
    obtain ⟨rfl, rfl, rfl⟩ := h
    rw [Nat.sub_self]
    exact ⟨by rw [PageTable.unmap_zero, hg.pte], hg.root, hg.dir, fun x => by simpa using hg.pages x⟩
  · obtain ⟨rfl, rfl, hfree⟩ := uvmdealloc_inv hle h
    rw [Nat.min_eq_right hoa, npages_of_mod ha hle, npages_of_mod ho (hoa.trans hle), hg.pte] at hfree
    rw [Nat.min_eq_right hoa, npages_of_mod ha hle, npages_of_mod ho (hoa.trans hle)]
    refine ⟨by simp only [PageTable.unmap, hg.pte], hg.root, hg.dir, fun x => ?_⟩
    have h1 := hg.pages x
    have h2 := hfree x
    rw [PageTable.unmap_tab]
    omega

/-- Pages that were mapped after `pt` and are gone again. -/
theorem Mapped.undone {pt1 : PageTable} {perm : ℕ → Perm} {m1 : Kmem} {o k : ℕ} (h1 : Mapped perm (o + n) k pt pt1 m m1)
    (h2 : Undone o (n + k) pt1 pt' m1 m') : Undone o n pt pt' m m' := by
  refine ⟨funext fun v => ?_, h2.root.trans h1.root, fun l va h => h2.dir l va (h1.dir l va h), fun x => ?_⟩
  · rw [h2.pte, PageTable.unmap_apply, PageTable.unmap_apply]
    by_cases hv : o ≤ v ∧ v < o + n
    · rw [if_pos (by omega), if_pos hv]
    · rw [if_neg hv]
      by_cases hv' : o + n ≤ v ∧ v < o + n + k
      · rw [if_pos (by omega), h1.old v hv'.1 hv'.2]
      · rw [if_neg (by omega), h1.other v hv']
  · have e1 := h1.pages x
    have e2 := h2.pages x
    have e3 := leaves_add pt1.pte o n k x
    have e4 : leaves pt1.pte o n x = leaves pt.pte o n x :=
      congrFun (leaves_congr fun v _ hv => h1.other v (by omega)) x
    omega

/-- The loop of `uvmalloc`.  When it fails it has unmapped everything from `o` on. -/
theorem uvmallocLoop_inv {perm : Perm} {o : ℕ} : ∀ {n a : ℕ} {pt pt' : PageTable} {m m' : Kmem} {b : Bool},
    a % PGSIZE = 0 → o % PGSIZE = 0 → o ≤ a → (o = a ∨ a ≤ MAXVA) →
    uvmallocLoop perm o n a pt m = .ok (b, pt', m') →
    (b = true ∧ Mapped (fun _ => perm) (a / PGSIZE) n pt pt' m m' ∧ (n ≠ 0 → a + n * PGSIZE ≤ MAXVA)) ∨
    (b = false ∧ Undone (o / PGSIZE) (a / PGSIZE - o / PGSIZE) pt pt' m m')
  | 0, a, pt, pt', m, m', b, _, _, _, _, h => by
    simp only [uvmallocLoop, Except.ok.injEq, Prod.mk.injEq] at h
    obtain ⟨rfl, rfl, rfl⟩ := h
    exact .inl ⟨rfl, .zero _ _, fun h => absurd rfl h⟩
  | n + 1, a, pt, pt', m, m', b, ha, ho, hoa, hle, h => by
    unfold uvmallocLoop at h
    split at h
    · rename_i m1 hk
      rw [bind_ok] at h
      obtain ⟨⟨r, pt1, m2⟩, hd, h⟩ := h
      simp only [Except.ok.injEq, Prod.mk.injEq] at h
      obtain ⟨rfl, rfl, rfl⟩ := h
      have hg : Grows pt pt m m1 := ⟨rfl, rfl, fun _ _ h => h, fun x => by rw [kalloc_none hk]⟩
      exact .inr ⟨rfl, uvmdealloc_undone ha ho hoa hle hg hd⟩
    · rename_i mem m1 hk
      rw [bind_ok] at h
      obtain ⟨⟨ok, pt1, m2⟩, hm, h⟩ := h
      dsimp only at h
      split_ifs at h with hok
      · subst hok
        have hfree : (m1.memset mem 0).free = m1.free := rfl
        obtain ⟨hva, h1⟩ := Mapped.one (f := fun _ => perm) ha hk hfree hm rfl
        have hva' : a + PGSIZE ≤ MAXVA := by
          have := MAXVA_mod
          simp only [MAXVA, PGSIZE] at *
          omega
        rcases uvmallocLoop_inv (add_PGSIZE_mod ha) ho (by omega) (.inr hva') h with ⟨rfl, h2, hn⟩ | ⟨rfl, h2⟩
        · rw [add_PGSIZE_div] at h2
          refine .inl ⟨rfl, Nat.add_comm 1 n ▸ h1.append h2, fun _ => ?_⟩
          rw [Nat.succ_mul]
          by_cases hn0 : n = 0
          · subst hn0
            omega
          · have := hn hn0
            omega
        · have hdiv : o / PGSIZE ≤ a / PGSIZE := Nat.div_le_div_right hoa
          have e1 : o / PGSIZE + (a / PGSIZE - o / PGSIZE) = a / PGSIZE := by omega
          have e2 : (a + PGSIZE) / PGSIZE - o / PGSIZE = a / PGSIZE - o / PGSIZE + 1 := by
            rw [add_PGSIZE_div]
            omega
          rw [e2] at h2
          rw [← e1] at h1
          exact .inr ⟨rfl, h1.undone h2⟩
      · rw [bind_ok] at h
        obtain ⟨m3, hf, h⟩ := h
        rw [bind_ok] at h
        obtain ⟨⟨r, pt2, m4⟩, hd, h⟩ := h
        simp only [Except.ok.injEq, Prod.mk.injEq] at h
        obtain ⟨rfl, rfl, rfl⟩ := h
        obtain ⟨-, pt3, hg, ⟨-, rfl⟩ | ⟨hb, -⟩⟩ := mappages_inv ha hm
        · have hg' : Grows pt pt1 m m3 := ⟨hg.pte, hg.root, hg.dir, fun x => by
            have e1 := hg.pages x
            have e2 := kalloc_some hk x
            have e3 := kfree_free hf x
            rw [Kmem.memset_free] at e1
            omega⟩
          exact .inr ⟨rfl, uvmdealloc_undone ha ho hoa hle hg' hd⟩
        · exact absurd hb hok

/-- What `uvmalloc` can do. -/
inductive UvmallocRes (pt : PageTable) (o n : ℕ) (perm : Perm) (m : Kmem) : ℕ → PageTable → Kmem → Prop
  | same (h : n < o) : UvmallocRes pt o n perm m o pt m
  | noMem {pt' : PageTable} {m' : Kmem} (h : o ≤ n) (hg : Grows pt pt' m m') : UvmallocRes pt o n perm m 0 pt' m'
  | ok {pt' : PageTable} {m' : Kmem} {c : ℕ} (h : o ≤ n) (hc : c = (n - pgroundup o + (PGSIZE - 1)) / PGSIZE)
      (hm : Mapped (fun _ => perm) (npages o) c pt pt' m m') (hle : c ≠ 0 → pgroundup o + c * PGSIZE ≤ MAXVA) :
      UvmallocRes pt o n perm m n pt' m'

theorem uvmalloc_inv {o r : ℕ} {xw xx : Bool} (h : uvmalloc pt o n xw xx m = .ok (r, pt', m')) :
    UvmallocRes pt o n ⟨true, xw, xx, true⟩ m r pt' m' := by
  unfold uvmalloc at h
  split_ifs at h with hno
  · simp only [Except.ok.injEq, Prod.mk.injEq] at h
    obtain ⟨rfl, rfl, rfl⟩ := h
    exact .same hno
  · rw [bind_ok] at h
    obtain ⟨⟨ok, pt1, m1⟩, hl, h⟩ := h
    simp only [Except.ok.injEq, Prod.mk.injEq] at h
    obtain ⟨rfl, rfl, rfl⟩ := h
    have hmod := pgroundup_mod o
    rcases uvmallocLoop_inv hmod hmod le_rfl (.inl rfl) hl with ⟨rfl, hm, hle⟩ | ⟨rfl, hu⟩
    · rw [if_pos rfl]
      exact .ok (by omega) rfl hm hle
    · rw [Nat.sub_self] at hu
      have hg : Grows pt pt1 m m1 :=
        ⟨by rw [hu.pte, PageTable.unmap_zero], hu.root, hu.dir, fun x => by simpa using hu.pages x⟩
      simp only [Bool.false_eq_true, if_false]
      exact .noMem (by omega) hg

end OsLabs.Xv6
