import OsLabs.Xv6.Fine

/-!
# OsLabs.Xv6.Total — when the memory functions return

For the page tables of a reachable kernel the panics of `vm.c` come down to which pages are mapped.

* `uvmunmap_ok_iff`: every page of the range is mapped.
* `hasLeaf_iff`, `freewalk_ok_iff`: no page is mapped any more.
* `procFreepagetable_ok_iff`: exactly the pages below the size are mapped.
* `freeprocThread_total`, `freeprocThread_leaf`: no page is mapped from the size up to the trapframe page, or there is one.
-/

namespace OsLabs.Xv6

open Fallible

variable {pt pt' : PageTable} {m m' : Kmem} {k k' : Kernel} {va a n e : ℕ} {d : Bool}

/-! ## uvmunmap -/

theorem kfreeIf_total {pa : Pa} (hm : m.OkAt e) (h : d = true → Legal e pa) : ∃ m', kfreeIf d pa m = .ok m' ∧ m'.OkAt e := by
  cases d with
  | false => exact ⟨m, rfl, hm⟩
  | true => exact kfree_total hm (h rfl)

/-- The loop returns when every page is mapped, can be told from a directory, and may be freed where that is asked for. -/
theorem uvmunmapLoop_total : ∀ {n a : ℕ} {pt : PageTable} {m : Kmem}, a % PGSIZE = 0 → a / PGSIZE + n ≤ trampPage + 1 → pt.WF → m.OkAt e →
    (∀ v, a / PGSIZE ≤ v → v < a / PGSIZE + n →
      ∃ en, pt.pte v = some en ∧ en.perm ≠ ⟨false, false, false, false⟩ ∧ (d = true → Legal e en.pa)) →
    ∃ r, uvmunmapLoop d n a pt m = .ok r
  | 0, a, pt, m, _, _, _, _, _ => ⟨_, rfl⟩
  | n + 1, a, pt, m, ha, hn, hw, hm, hall => by
    have hlt : a < MAXVA := by
      simp only [trampPage, TRAMPOLINE, MAXVA, PGSIZE] at *
      omega
    obtain ⟨en, hen, hp, hl⟩ := hall (a / PGSIZE) le_rfl (by omega)
    have hr : pt.reaches a = true := hw.reaches (by rw [hen]; simp)
    obtain ⟨m1, hk, hm1⟩ := kfreeIf_total (d := d) hm hl
    obtain ⟨r, hrest⟩ := @uvmunmapLoop_total n (a + PGSIZE) (pt.setPte (a / PGSIZE) none) _ (add_PGSIZE_mod ha)
      (by rw [add_PGSIZE_div]; omega) (hw.setPte hr) hm1 fun v h1 h2 => by
        rw [add_PGSIZE_div] at h1 h2
        rw [PageTable.setPte_of_ne _ _ (by omega)]
        exact hall v (by omega) (by omega)
    refine ⟨r, ?_⟩
    unfold uvmunmapLoop
    rw [bind_ok]
    refine ⟨_, walk_look hlt, ?_⟩
    dsimp only
    rw [hr, hen]
    simp only [Bool.not_true, Bool.false_eq_true, if_false, if_neg hp]
    rw [bind_ok]
    exact ⟨m1, hk, hrest⟩

/-- An entry below the trapframe page can be told from a directory. -/
theorem Sane.leaf (h : Sane e pt) {v : ℕ} {en : Pte} (hen : pt.pte v = some en) : en.perm ≠ ⟨false, false, false, false⟩ := by
  by_cases hv : v < tfPage
  · intro hp
    have hr := h.perm v en hv hen
    rw [hp] at hr
    cases hr
  · exact h.kperm v en (by omega) hen

/-- **`uvmunmap`** of user pages returns iff all of them are mapped. -/
theorem uvmunmap_ok_iff (hs : Sane e pt) (hm : m.OkAt e) (ha : va % PGSIZE = 0) (hn : va / PGSIZE + n ≤ tfPage) :
    (∃ r, uvmunmap pt va n d m = .ok r) ↔ ∀ v, va / PGSIZE ≤ v → v < va / PGSIZE + n → pt.pte v ≠ none := by
  have ht : tfPage < trampPage := by decide
  constructor
  · rintro ⟨⟨pt', m'⟩, h⟩
    exact (uvmunmap_inv h).2.2.2
  · intro hall
    obtain ⟨r, hr⟩ := uvmunmapLoop_total (d := d) (n := n) ha (by omega) hs.shaped.wf hm fun v h1 h2 => by
      obtain ⟨en, hen⟩ := Option.ne_none_iff_exists'.mp (hall v h1 h2)
      exact ⟨en, hen, hs.leaf hen, fun _ => hs.user (by omega) hen⟩
    refine ⟨r, ?_⟩
    unfold uvmunmap
    rw [if_neg (by omega)]
    exact hr

/-- The kernel's own pages can always be unmapped. -/
theorem Sane.unmap_kernel (h : Sane e pt) (ha : va % PGSIZE = 0) (hva : va < MAXVA) (hpte : pt.pte (va / PGSIZE) ≠ none) :
    uvmunmap pt va 1 false m = .ok (pt.unmap (va / PGSIZE) 1, m) := by
  obtain ⟨en, hen⟩ := Option.ne_none_iff_exists'.mp hpte
  rw [PageTable.unmap_one]
  exact uvmunmap_keep ha hva (h.shaped.wf.reaches hpte) hen (h.leaf hen)

/-! ## Freeing a table -/

theorem pxshift (v : ℕ) : PageTable.key 0 (v * PGSIZE) = (0, v / 512) := by
  unfold PageTable.key
  rw [show 2 ^ (12 + 9 * (0 + 1)) = PGSIZE * 512 by decide, ← Nat.div_div_eq_div_mul, Nat.mul_div_cancel v PGSIZE_pos]

/-- `freewalk` sees every page that is mapped. -/
theorem hasLeaf_iff (hw : pt.WF) : pt.hasLeaf = true ↔ ∃ v, pt.pte v ≠ none := by
  unfold PageTable.hasLeaf
  rw [List.any_eq_true]
  constructor
  · rintro ⟨d, -, hd⟩
    rw [Bool.and_eq_true, List.any_eq_true] at hd
    obtain ⟨-, i, -, hi⟩ := hd
    exact ⟨_, Option.isSome_iff_ne_none.mp hi⟩
  · rintro ⟨v, hv⟩
    have hr : pt.reaches (v * PGSIZE) = true := hw v hv
    unfold PageTable.reaches at hr
    rw [Bool.and_eq_true] at hr
    -- the level-0 page on the path holds the entry at index `v % 512`
    obtain ⟨d, hd, hkey⟩ := List.lookup_isSome_iff.mp hr.2
    rw [pxshift, beq_iff_eq] at hkey
    refine ⟨d, hd, ?_⟩
    rw [Bool.and_eq_true, List.any_eq_true, ← hkey]
    refine ⟨rfl, v % 512, List.mem_range.mpr (Nat.mod_lt _ (by decide)), ?_⟩
    rw [Nat.div_add_mod']
    exact Option.isSome_iff_ne_none.mpr hv

theorem freewalk_ok_iff (hw : pt.WF) (hm : m.OkAt e) (hp : ∀ y ∈ pt.pages, Legal e y) :
    (∃ m', freewalk pt m = .ok m') ↔ ∀ v, pt.pte v = none := by
  constructor
  · rintro ⟨m', h⟩ v
    unfold freewalk at h
    split_ifs at h with hl
    by_contra hv
    exact hl ((hasLeaf_iff hw).mpr ⟨v, hv⟩)
  · intro hnone
    exact freewalk_total hm (hasLeaf_of_none hnone) hp

/-- A table without the kernel's own pages and without its first `n` pages. -/
def PageTable.stripped (pt : PageTable) (n : ℕ) : PageTable := ((pt.unmap trampPage 1).unmap tfPage 1).unmap 0 n

theorem PageTable.stripped_none (hs : Sane e pt) (n : ℕ) :
    (∀ v, (pt.stripped n).pte v = none) ↔ ∀ v, n ≤ v → v < tfPage → pt.pte v = none := by
  have ht : trampPage = tfPage + 1 := by decide
  unfold PageTable.stripped
  constructor
  · intro h v h1 h2
    have hv := h v
    rwa [unmap_apply, if_neg (by omega), unmap_apply, if_neg (by omega), unmap_apply, if_neg (by omega)] at hv
  · intro h v
    rw [unmap_apply, unmap_apply, unmap_apply]
    split_ifs with h1 h2 h3
    · rfl
    · rfl
    · rfl
    · by_cases hv : v < tfPage
      · exact h v (by omega) hv
      · exact hs.top v (by omega)

/-- **`proc_freepagetable`** returns iff the user pages are exactly those below the size. -/
theorem procFreepagetable_ok_iff {sz : ℕ} (hs : Sane e pt) (hm : m.OkAt e) (hsz : sz ≤ TRAPFRAME) :
    (∃ m', procFreepagetable pt sz m = .ok m') ↔ Full 0 pt sz := by
  have ht : trampPage = tfPage + 1 := by decide
  have hnp : npages sz ≤ tfPage := npages_le hsz
  have h1 : uvmunmap pt TRAMPOLINE 1 false m = .ok (pt.unmap trampPage 1, m) := hs.unmap_kernel (by decide) (by decide) hs.tramp
  have htf : (pt.unmap trampPage 1).pte tfPage ≠ none := by
    rw [PageTable.unmap_apply, if_neg (by omega)]
    exact hs.shaped.trapf
  obtain ⟨en, hen⟩ := Option.ne_none_iff_exists'.mp htf
  have hw1 := hs.shaped.wf.unmap trampPage 1
  have hen' : pt.pte tfPage = some en := by rwa [PageTable.unmap_apply, if_neg (by omega)] at hen
  have h2 : uvmunmap (pt.unmap trampPage 1) TRAPFRAME 1 false m = .ok ((pt.unmap trampPage 1).unmap tfPage 1, m) := by
    rw [PageTable.unmap_one _ tfPage]
    exact uvmunmap_keep (by decide) (by decide) (hw1.reaches htf) hen (hs.leaf hen')
  have hpages : ∀ c, ∀ y ∈ (pt.stripped c).pages, Legal e y := fun c y hy => hs.page hy
  have hwf : ∀ c, (pt.stripped c).WF := fun c => (hw1.unmap _ _).unmap _ _
  have heq : procFreepagetable pt sz m = uvmfree ((pt.unmap trampPage 1).unmap tfPage 1) sz m := by
    unfold procFreepagetable
    rw [h1, ok_bind]
    dsimp only
    rw [h2, ok_bind]
  rw [heq]
  unfold uvmfree
  split_ifs with h0
  · have hlow : ∀ v, v < npages sz → ((pt.unmap trampPage 1).unmap tfPage 1).pte v = pt.pte v := fun v hv => by
      rw [PageTable.unmap_apply, if_neg (by omega), PageTable.unmap_apply, if_neg (by omega)]
    constructor
    · rintro ⟨m', h⟩
      rw [bind_ok] at h
      obtain ⟨⟨pt3, m3⟩, h3, h⟩ := h
      have hm3 : m3.OkAt e := uvmunmap_okAt hm _ h3
      obtain ⟨-, rfl, -, hall⟩ := uvmunmap_inv h3
      rw [Nat.zero_div, pgroundup_div] at hall h
      have hnone := (freewalk_ok_iff (hwf _) hm3 (hpages _)).mp ⟨m', h⟩
      exact ⟨fun v _ hv => hlow v hv ▸ hall v (by omega) (by omega), (PageTable.stripped_none hs _).mp hnone⟩
    · intro hf
      obtain ⟨⟨pt3, m3⟩, h3⟩ : ∃ r, uvmunmap ((pt.unmap trampPage 1).unmap tfPage 1) 0 (pgroundup sz / PGSIZE) true m = .ok r := by
        obtain ⟨r, hr⟩ := @uvmunmapLoop_total _ true (npages sz) 0 ((pt.unmap trampPage 1).unmap tfPage 1) _
          (Nat.zero_mod _) (by rw [Nat.zero_div]; omega) (hw1.unmap _ _) hm fun v _ hv => by
            rw [Nat.zero_div] at hv
            obtain ⟨en, hen⟩ := Option.ne_none_iff_exists'.mp (hf.low v (Nat.zero_le _) (by omega))
            exact ⟨en, by rw [hlow v (by omega), hen], hs.leaf hen, fun _ => hs.user (by omega) hen⟩
        exact ⟨r, hr⟩
      have hm3 : m3.OkAt e := uvmunmap_okAt hm _ h3
      obtain ⟨-, rfl, -, -⟩ := uvmunmap_inv h3
      rw [Nat.zero_div, pgroundup_div] at h3
      obtain ⟨m', hm'⟩ := (freewalk_ok_iff (hwf _) hm3 (hpages _)).mpr ((PageTable.stripped_none hs _).mpr hf.high)
      exact ⟨m', bind_ok.mpr ⟨_, h3, hm'⟩⟩
  · obtain rfl : sz = 0 := by omega
    have hst : pt.stripped 0 = (pt.unmap trampPage 1).unmap tfPage 1 := PageTable.unmap_zero _ _
    rw [← hst, freewalk_ok_iff (hwf _) hm (hpages _), PageTable.stripped_none hs]
    constructor
    · intro h
      exact ⟨fun v _ hv => by rw [npages_zero] at hv; omega, by rwa [npages_zero]⟩
    · intro h
      have hh := h.high
      rwa [npages_zero] at hh

/-! ## freeproc_thread -/

/-- A page that is kept can be unmapped whether it is mapped or not. -/
theorem unmapMapped_keep (hw : pt.WF) (ha : va % PGSIZE = 0) (hva : va < MAXVA)
    (hp : ∀ en, pt.pte (va / PGSIZE) = some en → en.perm ≠ ⟨false, false, false, false⟩) :
    unmapMapped pt va false m = .ok (pt.unmap (va / PGSIZE) 1, m) := by
  unfold unmapMapped
  rw [walk_look hva, ok_bind]
  dsimp only
  cases hpte : pt.pte (va / PGSIZE) with
  | none =>
    rw [if_neg (by simp), PageTable.unmap_one_none _ hpte]
  | some en =>
    have hr : pt.reaches va = true := hw.reaches (by rw [hpte]; simp)
    rw [if_pos (by simp [hr]), PageTable.unmap_one]
    exact uvmunmap_keep ha hva hr hpte (hp en hpte)

theorem unmapShared_total : ∀ {n va : ℕ} {pt : PageTable}, va % PGSIZE = 0 → va / PGSIZE + n ≤ trampPage + 1 → pt.WF →
    (∀ v en, pt.pte v = some en → en.perm ≠ ⟨false, false, false, false⟩) → unmapShared n va pt m = .ok (pt.unmap (va / PGSIZE) n, m)
  | 0, va, pt, _, _, _, _ => by
    rw [PageTable.unmap_zero]
    rfl
  | n + 1, va, pt, ha, hn, hw, hp => by
    have hlt : va < MAXVA := by
      simp only [trampPage, TRAMPOLINE, MAXVA, PGSIZE] at *
      omega
    unfold unmapShared
    rw [unmapMapped_keep hw ha hlt (hp _), ok_bind]
    dsimp only
    rw [unmapShared_total (add_PGSIZE_mod ha) (by rw [add_PGSIZE_div]; omega) (hw.unmap _ _) fun v en hen => ?_, add_PGSIZE_div,
      PageTable.unmap_one, PageTable.unmap_succ]
    rw [PageTable.unmap_apply] at hen
    split_ifs at hen
    exact hp v en hen

theorem PageTable.unmap_comm (pt : PageTable) (a n b c : ℕ) : (pt.unmap a n).unmap b c = (pt.unmap b c).unmap a n := by
  unfold PageTable.unmap
  congr 1
  funext v
  dsimp only
  split_ifs <;> rfl

/-- **`freeproc_thread`** comes down to `freewalk` of what is left of the table. -/
theorem freeprocThread_eq {i : Slot} (hs : Sane e pt) (hsz : (k.proc i).sz ≤ TRAPFRAME) (hpt : (k.proc i).pagetable = some pt) :
    freeprocThread k i = (do
      let m ← freewalk (pt.stripped (npages (k.proc i).sz)) k.mem
      let m ← kfreeOpt (k.proc i).trapframe m
      .ok ((k.setMem m).setProc i (k.proc i).freedThread)) := by
  have ht : tfPage < trampPage := by decide
  have hnp := npages_le hsz
  have hperm : ∀ v en, pt.pte v = some en → en.perm ≠ ⟨false, false, false, false⟩ := fun v en hen => hs.leaf hen
  have hsub : ∀ (q : PageTable) (a n : ℕ), (∀ v en, q.pte v = some en → en.perm ≠ ⟨false, false, false, false⟩) →
      ∀ v en, (q.unmap a n).pte v = some en → en.perm ≠ ⟨false, false, false, false⟩ := by
    intro q a n hq v en hen
    rw [PageTable.unmap_apply] at hen
    split_ifs at hen
    exact hq v en hen
  have hw := hs.shaped.wf
  unfold freeprocThread
  rw [hpt]
  dsimp only
  rw [unmapShared_total (Nat.zero_mod _) (by rw [Nat.zero_div, pgroundup_div]; omega) hw hperm, ok_bind, Nat.zero_div, pgroundup_div]
  dsimp only
  rw [unmapMapped_keep (hw.unmap _ _) (by decide) (by decide) (hsub _ _ _ hperm _), ok_bind]
  dsimp only
  rw [unmapMapped_keep ((hw.unmap _ _).unmap _ _) (by decide) (by decide) (hsub _ _ _ (hsub _ _ _ hperm) _), ok_bind]
  dsimp only
  unfold uvmfree PageTable.stripped
  rw [if_neg (lt_irrefl 0), PageTable.unmap_comm _ tfPage 1, PageTable.unmap_comm _ trampPage 1]
  rfl

/-- A page above the size makes it panic. -/
theorem freeprocThread_leaf {i : Slot} (hf : (k.proc i).Fine e) (hpt : (k.proc i).pagetable = some pt) {v : ℕ}
    (h1 : npages (k.proc i).sz ≤ v) (h2 : v < tfPage) (hv : pt.pte v ≠ none) : freeprocThread k i = .error .freewalkLeaf := by
  have hs := hf.table pt hpt
  have hw : (pt.stripped (npages (k.proc i).sz)).WF := ((hs.shaped.wf.unmap _ _).unmap _ _).unmap _ _
  have hleaf : (pt.stripped (npages (k.proc i).sz)).hasLeaf = true := by
    rw [hasLeaf_iff hw]
    by_contra hno
    push Not at hno
    exact hv ((PageTable.stripped_none hs _).mp hno v h1 h2)
  rw [freeprocThread_eq hs hf.sz hpt]
  unfold freewalk
  rw [if_pos hleaf]
  rfl

/-- Without one it returns. -/
theorem freeprocThread_total {i : Slot} (hf : (k.proc i).Fine e) (hm : k.mem.OkAt e) (hpt : (k.proc i).pagetable = some pt)
    (hnone : ∀ v, npages (k.proc i).sz ≤ v → v < tfPage → pt.pte v = none) : ∃ k', freeprocThread k i = .ok k' := by
  have hs := hf.table pt hpt
  have hw : (pt.stripped (npages (k.proc i).sz)).WF := ((hs.shaped.wf.unmap _ _).unmap _ _).unmap _ _
  obtain ⟨m1, h1⟩ := (freewalk_ok_iff hw hm fun y hy => hs.page hy).mpr ((PageTable.stripped_none hs _).mpr hnone)
  have hm1 : m1.OkAt e := freewalk_okAt hm _ h1
  obtain ⟨m2, h2⟩ : ∃ m2, kfreeOpt (k.proc i).trapframe m1 = .ok m2 := by
    cases htf : (k.proc i).trapframe with
    | none => exact ⟨m1, rfl⟩
    | some tf =>
      obtain ⟨m2, h2, -⟩ := kfree_total hm1 (hf.trapframe tf htf)
      exact ⟨m2, h2⟩
  rw [freeprocThread_eq hs hf.sz hpt, h1, ok_bind, h2, ok_bind]
  exact ⟨_, rfl⟩

end OsLabs.Xv6
