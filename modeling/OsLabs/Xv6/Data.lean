import OsLabs.Xv6.Total

/-!
# OsLabs.Xv6.Data — which pages the memory functions write

* `Draws m m'`: no page was added to the free list, and the pages that were not on it keep their bytes.  Every function that allocates is
  such a step, also when it fails and gives back what it had.
* `uvmallocLoop_zero`: a page that was added holds zeros.
* `uvmcopyLoop_copy`: a page of the copy holds the bytes of the page it was made from.
* `uvmunmap_data`, `kfreeAll_data`: freeing writes the freed pages only.
-/

namespace OsLabs.Xv6

open Fallible

variable {pt pt' : PageTable} {m m' m0 : Kmem} {k k' : Kernel} {va a n e : ℕ} {b d : Bool}

/-- Only pages that were free have been written, and none has been added to the free ones. -/
structure Draws (m m' : Kmem) : Prop where
  free : ∀ x, m'.free x ≤ m.free x
  data : ∀ x, m.free x = 0 → m'.data x = m.data x

namespace Draws

theorem refl (m : Kmem) : Draws m m := ⟨fun _ => le_rfl, fun _ _ => rfl⟩

theorem trans {m1 : Kmem} (h1 : Draws m m1) (h2 : Draws m1 m') : Draws m m' := by
  refine ⟨fun x => (h2.free x).trans (h1.free x), fun x hx => ?_⟩
  have h := h1.free x
  rw [h2.data x (by omega), h1.data x hx]

/-- A page that was free is written. -/
theorem write {m1 m2 : Kmem} {pa : Pa} (h : Draws m m1) (hpa : 0 < m.free pa) (hf : m2.free = m1.free)
    (hd : ∀ x, x ≠ pa → m2.data x = m1.data x) : Draws m m2 := by
  refine ⟨fun x => hf ▸ h.free x, fun x hx => ?_⟩
  have hne : x ≠ pa := by
    rintro rfl
    omega
  rw [hd x hne, h.data x hx]

theorem memset {m1 : Kmem} {pa : Pa} (h : Draws m m1) (hpa : 0 < m.free pa) (v : UInt8) : Draws m (m1.memset pa v) :=
  h.write hpa rfl fun _ hx => Function.update_of_ne hx _ _

theorem memmove {m1 : Kmem} {pa : Pa} (h : Draws m m1) (hpa : 0 < m.free pa) (s : Pa) : Draws m (m1.memmove pa s) :=
  h.write hpa rfl fun _ hx => Function.update_of_ne hx _ _

end Draws

/-! ## Allocating -/

/-- A page that `kalloc` hands out was free. -/
theorem kalloc_pos {pa : Pa} (h : kalloc m = (some pa, m')) : 0 < m.free pa := by
  have hx := kalloc_some h pa
  have h1 : single pa pa = 1 := if_pos rfl
  omega

theorem kalloc_draws {o : Option Pa} (h : kalloc m = (o, m')) : Draws m m' := by
  unfold kalloc at h
  split at h
  · obtain ⟨-, rfl⟩ := Prod.mk.inj h
    exact .refl m
  · rename_i pa as _
    split_ifs at h with hmem
    · obtain ⟨-, rfl⟩ := Prod.mk.inj h
      have h0 : Draws m { m with freelist := m.freelist.erase pa, answers := as } :=
        ⟨fun x => List.erase_sublist.count_le x, fun _ _ => rfl⟩
      exact h0.memset (List.count_pos_iff.mpr hmem) 5
    · obtain ⟨-, rfl⟩ := Prod.mk.inj h
      exact ⟨fun _ => le_rfl, fun _ _ => rfl⟩

theorem walkLevel_draws {level : ℕ} {alloc : Bool} (h : walkLevel pt level va alloc m = (b, pt', m')) : Draws m m' := by
  unfold walkLevel at h
  split_ifs at h
  · simp only [Prod.mk.injEq] at h
    exact h.2.2 ▸ .refl m
  · simp only [Prod.mk.injEq] at h
    exact h.2.2 ▸ .refl m
  · split at h
    · rename_i m1 hk
      simp only [Prod.mk.injEq] at h
      exact h.2.2 ▸ kalloc_draws hk
    · rename_i pa m1 hk
      simp only [Prod.mk.injEq] at h
      exact h.2.2 ▸ (kalloc_draws hk).memset (kalloc_pos hk) 0

theorem walk_draws {alloc : Bool} (h : walk pt va alloc m = .ok (b, pt', m')) : Draws m m' := by
  unfold walk at h
  split_ifs at h
  split at h
  · rename_i pt1 m1 h1
    simp only [Except.ok.injEq, Prod.mk.injEq] at h
    exact h.2.2 ▸ walkLevel_draws h1
  · rename_i pt1 m1 h1
    exact (walkLevel_draws h1).trans (walkLevel_draws (Except.ok.inj h))

theorem mappages_draws {pa : Pa} {perm : Perm} (ha : va % PGSIZE = 0) (h : mappages pt va PGSIZE pa perm m = .ok (b, pt', m')) :
    Draws m m' := by
  rw [mappages_one ha, bind_ok] at h
  obtain ⟨⟨found, pt1, m1⟩, hw, h⟩ := h
  have hd := walk_draws hw
  dsimp only at h
  split_ifs at h
  · simp only [Except.ok.injEq, Prod.mk.injEq] at h
    exact h.2.2 ▸ hd
  · simp only [Except.ok.injEq, Prod.mk.injEq] at h
    exact h.2.2 ▸ hd

/-! ## Freeing -/

theorem kfree_data {pa x : Pa} (h : kfree pa m = .ok m') (hx : x ≠ pa) : m'.data x = m.data x := by
  unfold kfree at h
  split_ifs at h
  obtain rfl := Except.ok.inj h
  exact Function.update_of_ne hx _ _

theorem kfreeAll_data : ∀ {l : List Pa} {m m' : Kmem} {x : Pa}, kfreeAll l m = .ok m' → x ∉ l → m'.data x = m.data x
  | [], m, m', x, h, _ => by
    obtain rfl := Except.ok.inj h
    rfl
  | pa :: l, m, m', x, h, hx => by
    unfold kfreeAll at h
    rw [bind_ok] at h
    obtain ⟨m1, h1, h⟩ := h
    rw [List.mem_cons, not_or] at hx
    rw [kfreeAll_data h hx.2, kfree_data h1 hx.1]

theorem freewalk_data {x : Pa} (h : freewalk pt m = .ok m') (hx : x ∉ pt.pages) : m'.data x = m.data x := by
  unfold freewalk at h
  split_ifs at h
  exact kfreeAll_data h hx

/-- **`uvmunmap`** writes the pages it frees. -/
theorem uvmunmapLoop_data {x : Pa} : ∀ {n a : ℕ} {pt pt' : PageTable} {m m' : Kmem}, a % PGSIZE = 0 →
    uvmunmapLoop d n a pt m = .ok (pt', m') →
    (d = true → ∀ v en, a / PGSIZE ≤ v → v < a / PGSIZE + n → pt.pte v = some en → en.pa ≠ x) → m'.data x = m.data x
  | 0, a, pt, pt', m, m', _, h, _ => by
    obtain ⟨rfl, rfl⟩ := Prod.mk.inj (Except.ok.inj h)
    rfl
  | n + 1, a, pt, pt', m, m', ha, h, hx => by
    unfold uvmunmapLoop at h
    rw [bind_ok] at h
    obtain ⟨⟨found, pt1, m1⟩, hw, h⟩ := h
    obtain ⟨-, -, -, hn⟩ := walk_inv hw
    obtain ⟨rfl, rfl, rfl⟩ := hn rfl
    dsimp only at h
    split_ifs at h
    split at h
    · cases h
    rename_i en hen
    split_ifs at h
    rw [bind_ok] at h
    obtain ⟨m2, hk, h⟩ := h
    rw [uvmunmapLoop_data (add_PGSIZE_mod ha) h fun hd v en' h1 h2 hen' => ?_]
    · unfold kfreeIf at hk
      split_ifs at hk with hd
      · exact kfree_data hk (Ne.symm (hx hd _ en le_rfl (by omega) hen))
      · obtain rfl := Except.ok.inj hk
        rfl
    · rw [add_PGSIZE_div] at h1 h2
      rw [PageTable.setPte_of_ne _ _ (by omega)] at hen'
      exact hx hd v en' (by omega) (by omega) hen'

theorem uvmunmap_data {x : Pa} (h : uvmunmap pt va n d m = .ok (pt', m'))
    (hx : d = true → ∀ v en, va / PGSIZE ≤ v → v < va / PGSIZE + n → pt.pte v = some en → en.pa ≠ x) : m'.data x = m.data x := by
  unfold uvmunmap at h
  split_ifs at h with ha
  exact uvmunmapLoop_data (by omega) h hx

/-! ## Loops that map new pages -/

/-- A loop that started in the memory `m0` has mapped the `n` pages from `o` on, all from the free list. -/
structure Drawn (m0 : Kmem) (o n : ℕ) (pt : PageTable) (m : Kmem) : Prop where
  free : ∀ x, m.free x + leaves pt.pte o n x ≤ m0.free x
  data : ∀ x, m0.free x = 0 → m.data x = m0.data x

namespace Drawn

variable {o : ℕ} {perm : Perm} {mem : Pa} {m1 m2 m3 m4 : Kmem} {pt1 : PageTable}

theorem start (pt : PageTable) (m : Kmem) (o : ℕ) : Drawn m o 0 pt m := ⟨fun x => by simp, fun _ _ => rfl⟩

theorem draws (h : Drawn m0 o n pt m) : Draws m0 m := ⟨fun x => le_trans (Nat.le_add_right _ _) (h.free x), h.data⟩

/-- Another step that leaves the entries alone. -/
theorem goOn {q : PageTable} (h : Drawn m0 o n pt m) (hd : Draws m m1) (hq : q.pte = pt.pte) : Drawn m0 o n q m1 := by
  refine ⟨fun x => ?_, (h.draws.trans hd).data⟩
  have h1 := h.free x
  have h2 := hd.free x
  rw [hq]
  omega

/-- A mapped page was free at the start. -/
theorem pos (h : Drawn m0 o n pt m) {v : ℕ} {en : Pte} (h1 : o ≤ v) (h2 : v < o + n) (hen : pt.pte v = some en) : 0 < m0.free en.pa := by
  have h3 := leaf_le_leaves (f := pt.pte) h1 h2 en.pa
  have h4 := h.free en.pa
  rw [hen, leaf_some] at h3
  have h5 : single en.pa en.pa = 1 := if_pos rfl
  omega

/-- The pages are given back. -/
theorem unmap (h : Drawn m0 o n pt m) (hva : va / PGSIZE = o) (hu : uvmunmap pt va n true m = .ok (pt', m')) : Draws m0 m' := by
  refine ⟨fun x => ?_, fun x hx => ?_⟩
  · obtain ⟨-, -, hf, -⟩ := uvmunmap_inv hu
    have h1 := hf x
    rw [if_pos rfl, hva] at h1
    have h2 := h.free x
    omega
  · rw [uvmunmap_data hu fun _ v en h1 h2 hen => ?_, h.data x hx]
    rintro rfl
    rw [hva] at h1 h2
    have := h.pos h1 h2 hen
    omega

/-- A page from `kalloc` is written and mapped next. -/
theorem map (h : Drawn m0 o n pt m) (ha : va % PGSIZE = 0) (hva : va / PGSIZE = o + n) (hk : kalloc m = (some mem, m1))
    (hf : m2.free = m1.free) (hd : ∀ x, x ≠ mem → m2.data x = m1.data x)
    (hm : mappages pt va PGSIZE mem perm m2 = .ok (true, pt1, m3)) : Drawn m0 o (n + 1) pt1 m3 := by
  have hw : Draws m m2 := (kalloc_draws hk).write (kalloc_pos hk) hf hd
  have hd3 := mappages_draws ha hm
  obtain ⟨-, pt2, hg, ⟨hb, -⟩ | ⟨-, hold, -, rfl⟩⟩ := mappages_inv ha hm
  · cases hb
  refine ⟨fun x => ?_, (h.draws.trans (hw.trans hd3)).data⟩
  have h1 := h.free x
  have h2 := kalloc_some hk x
  have h3 := hd3.free x
  have h4 : leaves (pt2.setPte (va / PGSIZE) (some ⟨mem, perm⟩)).pte o n x = leaves pt.pte o n x := by
    refine congrFun (leaves_congr fun v _ hv => ?_) x
    rw [PageTable.setPte_of_ne _ _ (by omega), hg.pte]
  have h5 : leaf ((pt2.setPte (va / PGSIZE) (some ⟨mem, perm⟩)).pte (o + n)) x = single mem x := by
    rw [← hva, PageTable.setPte_apply, if_pos rfl, leaf_some]
  rw [hf] at h3
  rw [leaves_add, leaves_one, h4, h5]
  omega

/-- A page from `kalloc` could not be mapped and is freed again. -/
theorem giveUp (h : Drawn m0 o n pt m) (ha : va % PGSIZE = 0) (hk : kalloc m = (some mem, m1)) (hf : m2.free = m1.free)
    (hd : ∀ x, x ≠ mem → m2.data x = m1.data x) (hm : mappages pt va PGSIZE mem perm m2 = .ok (false, pt1, m3))
    (hfree : kfree mem m3 = .ok m4) : Drawn m0 o n pt1 m4 := by
  have hw : Draws m m2 := (kalloc_draws hk).write (kalloc_pos hk) hf hd
  have hd3 := hw.trans (mappages_draws ha hm)
  obtain ⟨-, pt2, hg, ⟨-, rfl⟩ | ⟨hb, -⟩⟩ := mappages_inv ha hm
  · refine h.goOn ⟨fun x => ?_, fun x hx => ?_⟩ hg.pte
    · have h1 := (mappages_draws ha hm).free x
      have h2 := kalloc_some hk x
      have h3 := kfree_free hfree x
      rw [hf] at h1
      omega
    · have hne : x ≠ mem := by
        rintro rfl
        have := kalloc_pos hk
        omega
      rw [kfree_data hfree hne, hd3.data x hx]
  · cases hb

end Drawn

/-- `uvmdealloc` back to where a failed loop started. -/
theorem Drawn.dealloc {o r : ℕ} (h : Drawn m0 (o / PGSIZE) (a / PGSIZE - o / PGSIZE) pt m) (ha : a % PGSIZE = 0) (ho : o % PGSIZE = 0)
    (hle : o = a ∨ a ≤ MAXVA) (hd : uvmdealloc pt a o m = .ok (r, pt', m')) : Draws m0 m' := by
  unfold uvmdealloc at hd
  split_ifs at hd with h1 h2
  · simp only [Except.ok.injEq, Prod.mk.injEq] at hd
    exact hd.2.2 ▸ h.draws
  · rw [bind_ok] at hd
    obtain ⟨⟨pt1, m1⟩, hu, hd⟩ := hd
    simp only [Except.ok.injEq, Prod.mk.injEq] at hd
    obtain ⟨-, -, rfl⟩ := hd
    have haM : a ≤ MAXVA := hle.resolve_left (by omega)
    have hlt : MAXVA < 2 ^ 64 := by decide
    rw [pgroundup_of_mod ho (by omega), pgroundup_of_mod ha (by omega)] at hu
    have hn : (a - o) / PGSIZE = a / PGSIZE - o / PGSIZE := by
      simp only [PGSIZE] at *
      omega
    rw [hn] at hu
    exact h.unmap rfl hu
  · simp only [Except.ok.injEq, Prod.mk.injEq] at hd
    exact hd.2.2 ▸ h.draws

theorem uvmallocLoop_draws {perm : Perm} {o : ℕ} (ho : o % PGSIZE = 0) : ∀ {n a : ℕ} {pt pt' : PageTable} {m m' : Kmem} {b : Bool},
    a % PGSIZE = 0 → o ≤ a → (o = a ∨ a ≤ MAXVA) → Drawn m0 (o / PGSIZE) (a / PGSIZE - o / PGSIZE) pt m →
    uvmallocLoop perm o n a pt m = .ok (b, pt', m') → Draws m0 m'
  | 0, a, pt, pt', m, m', b, _, _, _, hd, h => by
    simp only [uvmallocLoop, Except.ok.injEq, Prod.mk.injEq] at h
    exact h.2.2 ▸ hd.draws
  | n + 1, a, pt, pt', m, m', b, ha, hoa, hle, hd, h => by
    unfold uvmallocLoop at h
    split at h
    · rename_i m1 hk
      rw [bind_ok] at h
      obtain ⟨⟨r, pt1, m2⟩, hde, h⟩ := h
      simp only [Except.ok.injEq, Prod.mk.injEq] at h
      exact h.2.2 ▸ (hd.goOn (kalloc_draws hk) rfl).dealloc ha ho hle hde
    · rename_i mem m1 hk
      have hset : ∀ x, x ≠ mem → (m1.memset mem 0).data x = m1.data x := fun x hx => Function.update_of_ne hx _ _
      have hfree : (m1.memset mem 0).free = m1.free := rfl
      rw [bind_ok] at h
      obtain ⟨⟨ok, pt1, m2⟩, hm, h⟩ := h
      have hlt := (mappages_inv ha hm).1
      have hle' : a + PGSIZE ≤ MAXVA := by
        simp only [MAXVA, PGSIZE] at *
        omega
      have hdiv : o / PGSIZE ≤ a / PGSIZE := Nat.div_le_div_right hoa
      dsimp only at h
      split_ifs at h with hok
      · subst hok
        refine uvmallocLoop_draws ho (add_PGSIZE_mod ha) (by omega) (.inr hle') ?_ h
        rw [add_PGSIZE_div, Nat.sub_add_comm hdiv]
        exact hd.map ha (by omega) hk hfree hset hm
      · obtain rfl : ok = false := by simpa using hok
        rw [bind_ok] at h
        obtain ⟨m3, hf, h⟩ := h
        rw [bind_ok] at h
        obtain ⟨⟨r, pt2, m4⟩, hde, h⟩ := h
        simp only [Except.ok.injEq, Prod.mk.injEq] at h
        exact h.2.2 ▸ (hd.giveUp ha hk hfree hset hm hf).dealloc ha ho hle hde

theorem uvmalloc_draws {o r : ℕ} {xw xx : Bool} (h : uvmalloc pt o n xw xx m = .ok (r, pt', m')) : Draws m m' := by
  unfold uvmalloc at h
  split_ifs at h
  · simp only [Except.ok.injEq, Prod.mk.injEq] at h
    exact h.2.2 ▸ .refl m
  · rw [bind_ok] at h
    obtain ⟨⟨ok, pt1, m1⟩, hl, h⟩ := h
    simp only [Except.ok.injEq, Prod.mk.injEq] at h
    obtain ⟨-, -, rfl⟩ := h
    refine uvmallocLoop_draws (pgroundup_mod o) (pgroundup_mod o) le_rfl (.inl rfl) ?_ hl
    rw [Nat.sub_self]
    exact .start pt m _

/-- No page is on the free list twice. -/
def Kmem.Once (m : Kmem) : Prop := ∀ x, m.free x ≤ 1

theorem Draws.once (h : Draws m m') (hm : m.Once) : m'.Once := fun x => (h.free x).trans (hm x)

/-- A page handed out by a free list without repetitions is not free any more. -/
theorem kalloc_gone {pa : Pa} (hm : m.Once) (h : kalloc m = (some pa, m')) : m'.free pa = 0 := by
  have h1 := kalloc_some h pa
  have h2 := hm pa
  have h3 : single pa pa = 1 := if_pos rfl
  omega

/-- One round of a loop that maps a new page: what was written to it before it was mapped stays. -/
theorem mappages_keeps {mem : Pa} {m1 m2 m3 : Kmem} {perm : Perm} (hm : m.Once) (ha : va % PGSIZE = 0)
    (hk : kalloc m = (some mem, m1)) (hf : m2.free = m1.free) (hmap : mappages pt va PGSIZE mem perm m2 = .ok (true, pt', m3)) :
    m3.free mem = 0 ∧ m3.data mem = m2.data mem ∧ pt'.pte (va / PGSIZE) = some ⟨mem, perm⟩ := by
  have hd := mappages_draws ha hmap
  have h0 : m2.free mem = 0 := by rw [hf, kalloc_gone hm hk]
  have h1 := hd.free mem
  obtain ⟨-, pt2, -, ⟨hb, -⟩ | ⟨-, -, -, rfl⟩⟩ := mappages_inv ha hmap
  · cases hb
  refine ⟨by omega, hd.data mem h0, ?_⟩
  rw [PageTable.setPte_apply, if_pos rfl]

/-- **The pages that `uvmalloc` adds hold zeros.** -/
theorem uvmallocLoop_zero {perm : Perm} {o : ℕ} (ho : o % PGSIZE = 0) : ∀ {n a : ℕ} {pt pt' : PageTable} {m m' : Kmem}, m.Once →
    a % PGSIZE = 0 → o ≤ a → (o = a ∨ a ≤ MAXVA) → uvmallocLoop perm o n a pt m = .ok (true, pt', m') →
    Draws m m' ∧ ∀ v, a / PGSIZE ≤ v → v < a / PGSIZE + n →
      ∃ pa, pt'.pte v = some ⟨pa, perm⟩ ∧ m'.data pa = (fun _ => 0) ∧ m'.free pa = 0
  | 0, a, pt, pt', m, m', _, _, _, _, h => by
    simp only [uvmallocLoop, Except.ok.injEq, Prod.mk.injEq, true_and] at h
    exact ⟨h.2 ▸ .refl m, fun v h1 h2 => by omega⟩
  | n + 1, a, pt, pt', m, m', hm, ha, hoa, hle, h => by
    unfold uvmallocLoop at h
    split at h
    · rw [bind_ok] at h
      obtain ⟨r, -, h⟩ := h
      cases h
    · rename_i mem m1 hk
      have hfree : (m1.memset mem 0).free = m1.free := rfl
      rw [bind_ok] at h
      obtain ⟨⟨ok, pt1, m2⟩, hmap, h⟩ := h
      dsimp only at h
      split_ifs at h with hok
      · subst hok
        have hlt := (mappages_inv ha hmap).1
        have hle' : a + PGSIZE ≤ MAXVA := by
          simp only [MAXVA, PGSIZE] at *
          omega
        have hd2 : Draws m m2 := ((kalloc_draws hk).memset (kalloc_pos hk) 0).trans (mappages_draws ha hmap)
        obtain ⟨hgone, hdata, hpte⟩ := mappages_keeps hm ha hk hfree hmap
        obtain ⟨hd', hrest⟩ := uvmallocLoop_zero ho (hd2.once hm) (add_PGSIZE_mod ha) (by omega) (.inr hle') h
        rw [add_PGSIZE_div] at hrest
        refine ⟨hd2.trans hd', fun v h1 h2 => ?_⟩
        by_cases hv : v = a / PGSIZE
        · -- the rest of the loop leaves this page and its entry alone
          rcases uvmallocLoop_inv (add_PGSIZE_mod ha) ho (by omega) (.inr hle') h with ⟨-, hmapped, -⟩ | ⟨hb, -⟩
          · refine ⟨mem, ?_, ?_, ?_⟩
            · rw [hv, hmapped.other _ (by rw [add_PGSIZE_div]; omega), hpte]
            · rw [hd'.data mem hgone, hdata]
              exact Function.update_self _ _ _
            · have := hd'.free mem
              omega
          · cases hb
        · exact hrest v (by omega) (by omega)
      · rw [bind_ok] at h
        obtain ⟨_, -, h⟩ := h
        rw [bind_ok] at h
        obtain ⟨_, -, h⟩ := h
        cases h

/-! ## uvmcopy -/

theorem uvmcopyLoop_draws {old : PageTable} : ∀ {n i : ℕ} {new new' : PageTable} {m m' : Kmem} {b : Bool}, i % PGSIZE = 0 →
    Drawn m0 0 (i / PGSIZE) new m → uvmcopyLoop old n i new m = .ok (b, new', m') →
    Draws m0 m' ∧ (b = true → Drawn m0 0 (i / PGSIZE + n) new' m')
  | 0, i, new, new', m, m', b, _, hd, h => by
    simp only [uvmcopyLoop, Except.ok.injEq, Prod.mk.injEq] at h
    obtain ⟨-, rfl, rfl⟩ := h
    exact ⟨hd.draws, fun _ => hd⟩
  | n + 1, i, new, new', m, m', b, hi, hd, h => by
    unfold uvmcopyLoop at h
    rw [bind_ok] at h
    obtain ⟨⟨found, ptw, mw⟩, hw, h⟩ := h
    obtain ⟨-, -, -, hlook⟩ := walk_inv hw
    obtain ⟨rfl, rfl, rfl⟩ := hlook rfl
    dsimp only at h
    split_ifs at h
    split at h
    · cases h
    rename_i en hen
    split at h
    · rename_i m1 hk
      rw [bind_ok] at h
      obtain ⟨⟨new1, m2⟩, hu, h⟩ := h
      simp only [Except.ok.injEq, Prod.mk.injEq] at h
      obtain ⟨rfl, rfl, rfl⟩ := h
      exact ⟨(hd.goOn (kalloc_draws hk) rfl).unmap (Nat.zero_div _) hu, by simp⟩
    · rename_i mem m1 hk
      have hset : ∀ x, x ≠ mem → (m1.memmove mem en.pa).data x = m1.data x := fun x hx => Function.update_of_ne hx _ _
      have hfree : (m1.memmove mem en.pa).free = m1.free := rfl
      rw [bind_ok] at h
      obtain ⟨⟨ok, new1, m2⟩, hm, h⟩ := h
      dsimp only at h
      split_ifs at h with hok
      · subst hok
        have hd2 := hd.map hi (by omega) hk hfree hset hm
        rw [← add_PGSIZE_div] at hd2
        obtain ⟨hdraws, hdrawn⟩ := uvmcopyLoop_draws (add_PGSIZE_mod hi) hd2 h
        refine ⟨hdraws, fun hb => ?_⟩
        have h3 := hdrawn hb
        rwa [add_PGSIZE_div, Nat.add_assoc, Nat.add_comm 1 n] at h3
      · obtain rfl : ok = false := by simpa using hok
        rw [bind_ok] at h
        obtain ⟨m3, hf, h⟩ := h
        rw [bind_ok] at h
        obtain ⟨⟨new2, m4⟩, hu, h⟩ := h
        simp only [Except.ok.injEq, Prod.mk.injEq] at h
        obtain ⟨rfl, rfl, rfl⟩ := h
        exact ⟨(hd.giveUp hi hk hfree hset hm hf).unmap (Nat.zero_div _) hu, by simp⟩

/-- **A page of the copy holds the bytes of the page it was made from**, as long as the original is not on the free list. -/
theorem uvmcopyLoop_copy {old : PageTable} : ∀ {n i : ℕ} {new new' : PageTable} {m m' : Kmem}, m.Once → i % PGSIZE = 0 →
    (∀ v en, i / PGSIZE ≤ v → v < i / PGSIZE + n → old.pte v = some en → m.free en.pa = 0) →
    uvmcopyLoop old n i new m = .ok (true, new', m') → Draws m m' ∧ ∀ v, i / PGSIZE ≤ v → v < i / PGSIZE + n →
      ∃ en pa, old.pte v = some en ∧ new'.pte v = some ⟨pa, en.perm⟩ ∧ m'.data pa = m.data en.pa
  | 0, i, new, new', m, m', _, _, _, h => by
    simp only [uvmcopyLoop, Except.ok.injEq, Prod.mk.injEq, true_and] at h
    exact ⟨h.2 ▸ .refl m, fun v h1 h2 => by omega⟩
  | n + 1, i, new, new', m, m', hm, hi, hold, h => by
    unfold uvmcopyLoop at h
    rw [bind_ok] at h
    obtain ⟨⟨found, ptw, mw⟩, hw, h⟩ := h
    obtain ⟨-, -, -, hlook⟩ := walk_inv hw
    obtain ⟨rfl, rfl, rfl⟩ := hlook rfl
    dsimp only at h
    split_ifs at h
    split at h
    · cases h
    rename_i en hen
    split at h
    · rw [bind_ok] at h
      obtain ⟨_, -, h⟩ := h
      cases h
    · rename_i mem m1 hk
      have hfree : (m1.memmove mem en.pa).free = m1.free := rfl
      rw [bind_ok] at h
      obtain ⟨⟨ok, new1, m2⟩, hmap, h⟩ := h
      dsimp only at h
      split_ifs at h with hok
      · subst hok
        have hd2 : Draws mw m2 := ((kalloc_draws hk).memmove (kalloc_pos hk) en.pa).trans (mappages_draws hi hmap)
        have hfree0 := hold _ en le_rfl (by omega) hen
        obtain ⟨hgone, hdata, hpte⟩ := mappages_keeps hm hi hk hfree hmap
        have hold' : ∀ v en', (i + PGSIZE) / PGSIZE ≤ v → v < (i + PGSIZE) / PGSIZE + n → ptw.pte v = some en' → m2.free en'.pa = 0 := by
          intro v en' h1 h2 hen'
          rw [add_PGSIZE_div] at h1 h2
          have h3 := hold v en' (by omega) (by omega) hen'
          have h4 := hd2.free en'.pa
          omega
        obtain ⟨hd', hrest⟩ := uvmcopyLoop_copy (hd2.once hm) (add_PGSIZE_mod hi) hold' h
        rw [add_PGSIZE_div] at hrest
        refine ⟨hd2.trans hd', fun v h1 h2 => ?_⟩
        by_cases hv : v = i / PGSIZE
        · obtain ⟨-, hmapped, -⟩ | ⟨hb, -⟩ := uvmcopyLoop_inv (add_PGSIZE_mod hi) h
          · refine ⟨en, mem, by rw [hv, hen], ?_, ?_⟩
            · rw [hv, hmapped.other _ (by rw [add_PGSIZE_div]; omega), hpte]
            · have hsrc : m1.data en.pa = mw.data en.pa := (kalloc_draws hk).data en.pa hfree0
              rw [hd'.data mem hgone, hdata, ← hsrc]
              exact Function.update_self _ _ _
          · cases hb
        · obtain ⟨en', pa, ho, hn, hdat⟩ := hrest v (by omega) (by omega)
          refine ⟨en', pa, ho, hn, ?_⟩
          rw [hdat, hd2.data _ (hold v en' (by omega) (by omega) ho)]
      · rw [bind_ok] at h
        obtain ⟨_, -, h⟩ := h
        rw [bind_ok] at h
        obtain ⟨_, -, h⟩ := h
        cases h

/-! ## Page tables -/

/-- The pages of the table come from the free list of `m0`. -/
structure Rooted (m0 : Kmem) (pt : PageTable) (m : Kmem) : Prop where
  free : ∀ x, m.free x + pt.tab x ≤ m0.free x
  data : ∀ x, m0.free x = 0 → m.data x = m0.data x

namespace Rooted

theorem draws (h : Rooted m0 pt m) : Draws m0 m := ⟨fun x => le_trans (Nat.le_add_right _ _) (h.free x), h.data⟩

theorem mappages {pa : Pa} {perm : Perm} (h : Rooted m0 pt m) (ha : va % PGSIZE = 0)
    (hm : mappages pt va PGSIZE pa perm m = .ok (b, pt', m')) : Rooted m0 pt' m' := by
  refine ⟨fun x => ?_, (h.draws.trans (mappages_draws ha hm)).data⟩
  obtain ⟨-, pt1, hg, ⟨-, rfl⟩ | ⟨-, -, -, rfl⟩⟩ := mappages_inv ha hm
  · have h1 := h.free x
    have h2 := hg.pages x
    omega
  · have h1 := h.free x
    have h2 := hg.pages x
    rw [PageTable.setPte_tab]
    omega

/-- The table is given back. -/
theorem freewalk (h : Rooted m0 pt m) (hf : freewalk pt m = .ok m') : Draws m0 m' := by
  refine ⟨fun x => ?_, fun x hx => ?_⟩
  · rw [freewalk_free hf]
    exact h.free x
  · have h1 := h.free x
    have h2 : x ∉ pt.pages := List.count_eq_zero.mp (show pt.tab x = 0 by omega)
    rw [freewalk_data hf h2, h.data x hx]

end Rooted

/-- **`proc_freepagetable`** writes the pages below the size and those of the table. -/
theorem procFreepagetable_data {sz : ℕ} {x : Pa} (h : procFreepagetable pt sz m = .ok m') (hp : x ∉ pt.pages)
    (hu : ∀ v en, v < npages sz → pt.pte v = some en → en.pa ≠ x) : m'.data x = m.data x := by
  have hsub : ∀ v en, ((pt.unmap (TRAMPOLINE / PGSIZE) 1).unmap (TRAPFRAME / PGSIZE) 1).pte v = some en → pt.pte v = some en := by
    intro v en hen
    rw [PageTable.unmap_apply, PageTable.unmap_apply] at hen
    split_ifs at hen
    exact hen
  unfold procFreepagetable at h
  simp only [bind_ok] at h
  obtain ⟨⟨pt1, m1⟩, h1, ⟨pt2, m2⟩, h2, h⟩ := h
  have hm1 : m1.data x = m.data x := uvmunmap_data h1 (by simp)
  have hm2 : m2.data x = m1.data x := uvmunmap_data h2 (by simp)
  obtain ⟨-, rfl, -, -⟩ := uvmunmap_inv h1
  obtain ⟨-, rfl, -, -⟩ := uvmunmap_inv h2
  unfold uvmfree at h
  split_ifs at h with hsz
  · rw [bind_ok] at h
    obtain ⟨⟨pt3, m3⟩, h3, h⟩ := h
    have hm3 : m3.data x = m2.data x := uvmunmap_data h3 fun _ v en _ hv hen => by
      rw [Nat.zero_div, pgroundup_div, Nat.zero_add] at hv
      exact hu v en hv (hsub v en hen)
    obtain ⟨-, rfl, -, -⟩ := uvmunmap_inv h3
    rw [freewalk_data h hp, hm3, hm2, hm1]
  · rw [freewalk_data h hp, hm2, hm1]

theorem uvmcreate_rooted (h : uvmcreate m = (some pt, m')) : Rooted m pt m' := by
  unfold uvmcreate at h
  split at h
  · cases h
  rename_i pa m1 hk
  simp only [Prod.mk.injEq, Option.some.injEq] at h
  obtain ⟨rfl, rfl⟩ := h
  refine ⟨fun x => ?_, ((kalloc_draws hk).memset (kalloc_pos hk) 0).data⟩
  have h1 := kalloc_some hk x
  have h2 : (⟨pa, [], fun _ => none⟩ : PageTable).tab x = single pa x := emptyTable_tab pa x
  rw [Kmem.memset_free, h2, h1]

theorem uvmcreate_none (h : uvmcreate m = (none, m')) : Draws m m' := by
  unfold uvmcreate at h
  split at h
  · rename_i m1 hk
    simp only [Prod.mk.injEq, true_and] at h
    exact h ▸ kalloc_draws hk
  · cases h

theorem procPagetable_draws {tf : Pa} {o : Option PageTable} (h : procPagetable tf m = .ok (o, m')) :
    Draws m m' ∧ ∀ pt, o = some pt → Rooted m pt m' := by
  unfold procPagetable at h
  split at h
  · rename_i m1 h1
    obtain ⟨rfl, rfl⟩ := Prod.mk.inj (Except.ok.inj h)
    exact ⟨uvmcreate_none h1, fun pt hpt => by cases hpt⟩
  rename_i pt1 m1 h1
  have hr1 := uvmcreate_rooted h1
  rw [bind_ok] at h
  obtain ⟨⟨ok2, pt2, m2⟩, h2, h⟩ := h
  have hr2 := hr1.mappages (by decide) h2
  dsimp only at h
  split_ifs at h with hok
  · rw [bind_ok] at h
    obtain ⟨m3, h3, h⟩ := h
    obtain ⟨rfl, rfl⟩ := Prod.mk.inj (Except.ok.inj h)
    unfold uvmfree at h3
    rw [if_neg (lt_irrefl 0)] at h3
    exact ⟨hr2.freewalk h3, fun pt hpt => by cases hpt⟩
  rw [bind_ok] at h
  obtain ⟨⟨ok3, pt3, m3⟩, h3, h⟩ := h
  have hr3 := hr2.mappages (by decide) h3
  dsimp only at h
  split_ifs at h with hok3
  · rw [bind_ok] at h
    obtain ⟨⟨pt4, m4⟩, h4, h⟩ := h
    rw [bind_ok] at h
    obtain ⟨m5, h5, h⟩ := h
    obtain ⟨rfl, rfl⟩ := Prod.mk.inj (Except.ok.inj h)
    unfold uvmfree at h5
    rw [if_neg (lt_irrefl 0)] at h5
    have hr4 : Rooted m pt4 m4 := by
      refine ⟨fun x => ?_, fun x hx => ?_⟩
      · obtain ⟨-, rfl, hf, -⟩ := uvmunmap_inv h4
        have h6 := hf x
        have h7 := hr3.free x
        simp only [Bool.false_eq_true, if_false, add_zero] at h6
        rw [PageTable.unmap_tab, h6]
        exact h7
      · rw [uvmunmap_data h4 (by simp), hr3.data x hx]
    exact ⟨hr4.freewalk h5, fun pt hpt => by cases hpt⟩
  · obtain ⟨rfl, rfl⟩ := Prod.mk.inj (Except.ok.inj h)
    refine ⟨hr3.draws, fun pt hpt => ?_⟩
    rw [← Option.some.inj hpt]
    exact hr3

end OsLabs.Xv6
