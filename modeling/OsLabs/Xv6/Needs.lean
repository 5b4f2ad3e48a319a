import OsLabs.Xv6.Data

/-!
# OsLabs.Xv6.Needs — how many pages the memory functions take

`kalloc` is demonic, so whether an allocation fails is a question of how many calls in a row it serves.

* `Takes c m m'`: `c` pages were handed out on the way from `m` to `m'`.
* `walkNeeds`, `mapNeeds`: the pages that a walk, or a loop that maps new pages, asks for; they depend on which page-table pages exist.
* `walk_takes`, `mappages_takes`, `uvmcopyLoop_takes`: the function succeeds and takes them, or `kalloc` does not serve as many.
-/

namespace OsLabs.Xv6

open Fallible

variable {pt pt' : PageTable} {m m' m1 : Kmem} {va a n c d : ℕ} {b : Bool}

/-- The page that the `n`-th next call of `kalloc` hands out. -/
def handed : ℕ → Kmem → Option Pa
  | 0, m => (kalloc m).1
  | n + 1, m =>
    match kalloc m with
    | (none, _) => none
    | (some _, m) => handed n m

theorem handed_some {pa : Pa} (h : kalloc m = (some pa, m')) (n : ℕ) : handed (n + 1) m = handed n m' := by
  simp [handed, h]

theorem handed_dataOnly : ∀ {n : ℕ} {m m' : Kmem}, m.DataOnly m' → handed n m' = handed n m
  | 0, _, _, h => (kalloc_dataOnly h).1
  | n + 1, m, m', h => by
    obtain ⟨h1, h2⟩ := kalloc_dataOnly h
    rcases hk : kalloc m with ⟨_ | pa, m1⟩ <;> rcases hk' : kalloc m' with ⟨_ | pa', m1'⟩ <;> rw [hk, hk'] at h1
    · simp [handed, hk, hk']
    · cases h1
    · cases h1
    · rw [handed_some hk, handed_some hk']
      rw [hk, hk'] at h2
      exact handed_dataOnly h2

/-- On the way from `m` to `m'` exactly `c` pages were handed out. -/
structure Takes (c : ℕ) (m m' : Kmem) : Prop where
  count : ∀ n, serves (c + n) m = serves n m'
  next : ∀ n, handed (c + n) m = handed n m'

namespace Takes

theorem zero (m : Kmem) : Takes 0 m m := ⟨fun n => by rw [Nat.zero_add], fun n => by rw [Nat.zero_add]⟩

theorem trans (h1 : Takes c m m1) (h2 : Takes d m1 m') : Takes (c + d) m m' :=
  ⟨fun n => by rw [Nat.add_assoc, h1.count, h2.count], fun n => by rw [Nat.add_assoc, h1.next, h2.next]⟩

theorem alloc {pa : Pa} (h : kalloc m = (some pa, m')) : Takes 1 m m' :=
  ⟨fun n => by rw [Nat.add_comm, serves_some h], fun n => by rw [Nat.add_comm, handed_some h]⟩

theorem dataOnly (h : Takes c m m1) (hd : m1.DataOnly m') : Takes c m m' :=
  ⟨fun n => by rw [h.count, serves_dataOnly hd], fun n => by rw [h.next, handed_dataOnly hd]⟩

/-- What is not served after `c` pages is not served from the start. -/
theorem starved (h : Takes c m m') (hn : serves n m' = false) : serves (c + n) m = false := by
  rw [h.count, hn]

theorem serves (h : Takes c m m') : serves c m = true := by
  have := h.count 0
  rwa [Nat.add_zero] at this

end Takes

theorem serves_mono : ∀ {c d : ℕ} {m : Kmem}, c ≤ d → serves c m = false → serves d m = false
  | 0, _, m, _, h => by cases h
  | c + 1, 0, m, hle, _ => by omega
  | c + 1, d + 1, m, hle, h => by
    rcases hk : kalloc m with ⟨_ | pa, m1⟩
    · exact serves_none hk
    · rw [serves_some hk] at h ⊢
      exact serves_mono (by omega) h

/-! ## walk and mappages -/

/-- Which page-table pages there are. -/
def PageTable.keys (pt : PageTable) : List (ℕ × ℕ) := pt.dirs.map Prod.fst

@[simp] theorem PageTable.setPte_keys (pt : PageTable) (v : ℕ) (e : Option Pte) : (pt.setPte v e).keys = pt.keys := rfl

theorem PageTable.dir_isSome {level : ℕ} : (pt.dir level va).isSome = true ↔ PageTable.key level va ∈ pt.keys := by
  unfold PageTable.dir PageTable.keys
  rw [List.lookup_isSome_iff, List.mem_map]
  constructor
  · rintro ⟨d, hd, hk⟩
    exact ⟨d, hd, (beq_iff_eq.mp hk).symm⟩
  · rintro ⟨d, hd, hk⟩
    exact ⟨d, hd, beq_iff_eq.mpr hk.symm⟩

/-- The page-table pages after one level of a walk. -/
def levelKeys (ks : List (ℕ × ℕ)) (level va : ℕ) : List (ℕ × ℕ) :=
  if PageTable.key level va ∈ ks then ks else PageTable.key level va :: ks

/-- The pages that one level of a walk asks for. -/
def levelNeeds (ks : List (ℕ × ℕ)) (level va : ℕ) : ℕ := if PageTable.key level va ∈ ks then 0 else 1

/-- The page-table pages after a walk. -/
def walkKeys (ks : List (ℕ × ℕ)) (va : ℕ) : List (ℕ × ℕ) := levelKeys (levelKeys ks 1 va) 0 va

/-- The pages that a walk asks for. -/
def walkNeeds (ks : List (ℕ × ℕ)) (va : ℕ) : ℕ := levelNeeds ks 1 va + levelNeeds (levelKeys ks 1 va) 0 va

theorem walkLevel_takes {level : ℕ} (h : walkLevel pt level va true m = (b, pt', m')) :
    (b = true ∧ pt'.keys = levelKeys pt.keys level va ∧ Takes (levelNeeds pt.keys level va) m m') ∨
      (b = false ∧ serves (levelNeeds pt.keys level va) m = false) := by
  unfold levelKeys levelNeeds
  by_cases hd : PageTable.key level va ∈ pt.keys
  · rw [walkLevel_found (PageTable.dir_isSome.mpr hd)] at h
    simp only [Prod.mk.injEq] at h
    obtain ⟨rfl, rfl, rfl⟩ := h
    rw [if_pos hd, if_pos hd]
    exact .inl ⟨rfl, rfl, .zero m⟩
  · have hnone : pt.dir level va = none := by
      rw [← Option.not_isSome_iff_eq_none, PageTable.dir_isSome]
      exact hd
    rw [if_neg hd, if_neg hd]
    rcases hk : kalloc m with ⟨_ | pa, m1⟩
    · rw [walkLevel_noPage hnone hk] at h
      simp only [Prod.mk.injEq] at h
      obtain ⟨rfl, rfl, rfl⟩ := h
      exact .inr ⟨rfl, serves_none hk⟩
    · rw [walkLevel_newPage hnone hk] at h
      simp only [Prod.mk.injEq] at h
      obtain ⟨rfl, rfl, rfl⟩ := h
      exact .inl ⟨rfl, rfl, (Takes.alloc hk).dataOnly ⟨_, rfl⟩⟩

theorem walk_takes (h : walk pt va true m = .ok (b, pt', m')) :
    (b = true ∧ pt'.keys = walkKeys pt.keys va ∧ Takes (walkNeeds pt.keys va) m m') ∨
      (b = false ∧ serves (walkNeeds pt.keys va) m = false) := by
  unfold walk at h
  split_ifs at h
  unfold walkKeys walkNeeds
  split at h
  · rename_i pt1 m1 h1
    simp only [Except.ok.injEq, Prod.mk.injEq] at h
    obtain ⟨rfl, rfl, rfl⟩ := h
    rcases walkLevel_takes h1 with ⟨hb, -⟩ | ⟨-, hs⟩
    · cases hb
    · exact .inr ⟨rfl, serves_mono (Nat.le_add_right _ _) hs⟩
  · rename_i pt1 m1 h1
    rcases walkLevel_takes h1 with ⟨-, hk1, ht1⟩ | ⟨hb, -⟩
    · rcases walkLevel_takes (Except.ok.inj h) with ⟨hb, hk2, ht2⟩ | ⟨hb, hs⟩
      · rw [hk1] at hk2 ht2
        exact .inl ⟨hb, hk2, ht1.trans ht2⟩
      · rw [hk1] at hs
        exact .inr ⟨hb, ht1.starved hs⟩
    · cases hb

theorem walk_total {alloc : Bool} (hva : va < MAXVA) : ∃ r, walk pt va alloc m = .ok r := by
  unfold walk
  rw [if_neg (by omega)]
  split
  · exact ⟨_, rfl⟩
  · exact ⟨_, rfl⟩

/-- **`mappages`** of one page that is not mapped yet returns. -/
theorem mappages_total {pa : Pa} {perm : Perm} (ha : va % PGSIZE = 0) (hva : va < MAXVA) (hn : pt.pte (va / PGSIZE) = none) :
    ∃ r, mappages pt va PGSIZE pa perm m = .ok r := by
  obtain ⟨⟨found, pt1, m1⟩, hw⟩ := @walk_total pt m _ true hva
  obtain ⟨-, hg, -, -⟩ := walk_inv hw
  rw [mappages_one ha, hw, ok_bind]
  dsimp only
  rw [hg.pte, hn]
  cases found with
  | false => exact ⟨_, rfl⟩
  | true => exact ⟨_, rfl⟩

theorem mappages_takes {pa : Pa} {perm : Perm} (ha : va % PGSIZE = 0) (h : mappages pt va PGSIZE pa perm m = .ok (b, pt', m')) :
    (b = true ∧ pt'.keys = walkKeys pt.keys va ∧ Takes (walkNeeds pt.keys va) m m') ∨
      (b = false ∧ serves (walkNeeds pt.keys va) m = false) := by
  rw [mappages_one ha, bind_ok] at h
  obtain ⟨⟨found, pt1, m1⟩, hw, h⟩ := h
  dsimp only at h
  split_ifs at h with hf
  · simp only [Except.ok.injEq, Prod.mk.injEq] at h
    obtain ⟨rfl, rfl, rfl⟩ := h
    rcases walk_takes hw with ⟨hb, -⟩ | ⟨-, hs⟩
    · rw [hb] at hf
      cases hf
    · exact .inr ⟨rfl, hs⟩
  · simp only [Except.ok.injEq, Prod.mk.injEq] at h
    obtain ⟨rfl, rfl, rfl⟩ := h
    rcases walk_takes hw with ⟨-, hk, ht⟩ | ⟨hb, -⟩
    · exact .inl ⟨rfl, hk, ht⟩
    · rw [hb] at hf
      exact absurd rfl hf

/-! ## Loops -/

/-- The pages that a loop asks for which maps a new page at each of `n` pages from `a` on. -/
def mapNeeds : ℕ → ℕ → List (ℕ × ℕ) → ℕ
  | 0, _, _ => 0
  | n + 1, a, ks => 1 + walkNeeds ks a + mapNeeds n (a + PGSIZE) (walkKeys ks a)

/-- A page from `kalloc` is written and mapped: the loop took its pages, or there were not enough. -/
theorem alloc_map_takes {mem : Pa} {m2 m3 : Kmem} {perm : Perm} (ha : va % PGSIZE = 0) (hk : kalloc m = (some mem, m1))
    (hd : m1.DataOnly m2) (hm : mappages pt va PGSIZE mem perm m2 = .ok (b, pt', m3)) :
    (b = true ∧ pt'.keys = walkKeys pt.keys va ∧ Takes (1 + walkNeeds pt.keys va) m m3) ∨
      (b = false ∧ serves (1 + walkNeeds pt.keys va) m = false) := by
  have h1 : Takes 1 m m2 := (Takes.alloc hk).dataOnly hd
  rcases mappages_takes ha hm with ⟨hb, hkeys, ht⟩ | ⟨hb, hs⟩
  · exact .inl ⟨hb, hkeys, h1.trans ht⟩
  · exact .inr ⟨hb, h1.starved hs⟩

theorem serves_round (hk : kalloc m = (none, m1)) (c d : ℕ) : serves (1 + c + d) m = false :=
  serves_mono (by omega) (serves_none (n := 0) hk)

theorem uvmallocLoop_takes {perm : Perm} {o : ℕ} : ∀ {n a : ℕ} {pt pt' : PageTable} {m m' : Kmem} {b : Bool}, a % PGSIZE = 0 →
    uvmallocLoop perm o n a pt m = .ok (b, pt', m') →
    (b = true ∧ Takes (mapNeeds n a pt.keys) m m') ∨ (b = false ∧ serves (mapNeeds n a pt.keys) m = false)
  | 0, a, pt, pt', m, m', b, _, h => by
    simp only [uvmallocLoop, Except.ok.injEq, Prod.mk.injEq] at h
    obtain ⟨rfl, rfl, rfl⟩ := h
    exact .inl ⟨rfl, .zero _⟩
  | n + 1, a, pt, pt', m, m', b, ha, h => by
    unfold uvmallocLoop at h
    unfold mapNeeds
    split at h
    · rename_i m1 hk
      rw [bind_ok] at h
      obtain ⟨_, -, h⟩ := h
      simp only [Except.ok.injEq, Prod.mk.injEq] at h
      exact .inr ⟨h.1.symm, serves_round hk _ _⟩
    · rename_i mem m1 hk
      rw [bind_ok] at h
      obtain ⟨⟨ok, pt1, m2⟩, hm, h⟩ := h
      dsimp only at h
      split_ifs at h with hok
      · rcases alloc_map_takes ha hk ⟨_, rfl⟩ hm with ⟨-, hkeys, ht⟩ | ⟨hb, -⟩
        · rw [← hkeys]
          rcases uvmallocLoop_takes (add_PGSIZE_mod ha) h with ⟨hb, ht2⟩ | ⟨hb, hs⟩
          · exact .inl ⟨hb, ht.trans ht2⟩
          · exact .inr ⟨hb, ht.starved hs⟩
        · rw [hb] at hok
          cases hok
      · rw [bind_ok] at h
        obtain ⟨_, -, h⟩ := h
        rw [bind_ok] at h
        obtain ⟨_, -, h⟩ := h
        simp only [Except.ok.injEq, Prod.mk.injEq] at h
        rcases alloc_map_takes ha hk ⟨_, rfl⟩ hm with ⟨hb, -⟩ | ⟨-, hs⟩
        · exact absurd hb hok
        · exact .inr ⟨h.1.symm, serves_mono (Nat.le_add_right _ _) hs⟩

/-- The pages that `uvmalloc` maps are those it was handed. -/
theorem uvmallocLoop_handed {perm : Perm} {o : ℕ} (ho : o % PGSIZE = 0) : ∀ {n a : ℕ} {pt pt' : PageTable} {m m' : Kmem}, a % PGSIZE = 0 →
    o ≤ a → (o = a ∨ a ≤ MAXVA) → uvmallocLoop perm o n a pt m = .ok (true, pt', m') →
    ∀ i, i < n → ∃ pa, pt'.pte (a / PGSIZE + i) = some ⟨pa, perm⟩ ∧ handed (mapNeeds i a pt.keys) m = some pa
  | 0, a, pt, pt', m, m', _, _, _, _, i, hi => by omega
  | n + 1, a, pt, pt', m, m', ha, hoa, hle, h, i, hi => by
    unfold uvmallocLoop at h
    split at h
    · rw [bind_ok] at h
      obtain ⟨_, -, h⟩ := h
      cases h
    · rename_i mem m1 hk
      rw [bind_ok] at h
      obtain ⟨⟨ok, pt1, m2⟩, hm, h⟩ := h
      dsimp only at h
      split_ifs at h with hok
      · subst hok
        have hlt := (mappages_inv ha hm).1
        have hle' : a + PGSIZE ≤ MAXVA := by
          simp only [MAXVA, PGSIZE] at *
          omega
        cases i with
        | zero =>
          refine ⟨mem, ?_, by simp [mapNeeds, handed, hk]⟩
          rcases uvmallocLoop_inv (add_PGSIZE_mod ha) ho (by omega) (.inr hle') h with ⟨-, hmapped, -⟩ | ⟨hb, -⟩
          · obtain ⟨-, pt2, -, ⟨hb, -⟩ | ⟨-, -, -, rfl⟩⟩ := mappages_inv ha hm
            · cases hb
            rw [hmapped.other _ (by rw [add_PGSIZE_div]; omega), PageTable.setPte_apply, if_pos (Nat.add_zero _)]
          · cases hb
        | succ i =>
          rcases alloc_map_takes ha hk ⟨_, rfl⟩ hm with ⟨-, hkeys, ht⟩ | ⟨hb, -⟩
          · obtain ⟨pa, hpa, hh⟩ := uvmallocLoop_handed ho (add_PGSIZE_mod ha) (by omega) (.inr hle') h i (by omega)
            rw [add_PGSIZE_div] at hpa
            refine ⟨pa, by rw [← hpa]; congr 1; omega, ?_⟩
            unfold mapNeeds
            rw [ht.next, ← hkeys, hh]
          · cases hb
      · rw [bind_ok] at h
        obtain ⟨_, -, h⟩ := h
        rw [bind_ok] at h
        obtain ⟨_, -, h⟩ := h
        cases h

theorem uvmcopyLoop_takes {old : PageTable} : ∀ {n i : ℕ} {new new' : PageTable} {m m' : Kmem} {b : Bool}, i % PGSIZE = 0 →
    uvmcopyLoop old n i new m = .ok (b, new', m') →
    (b = true ∧ Takes (mapNeeds n i new.keys) m m') ∨ (b = false ∧ serves (mapNeeds n i new.keys) m = false)
  | 0, i, new, new', m, m', b, _, h => by
    simp only [uvmcopyLoop, Except.ok.injEq, Prod.mk.injEq] at h
    obtain ⟨rfl, rfl, rfl⟩ := h
    exact .inl ⟨rfl, .zero _⟩
  | n + 1, i, new, new', m, m', b, hi, h => by
    unfold uvmcopyLoop at h
    unfold mapNeeds
    rw [bind_ok] at h
    obtain ⟨⟨found, ptw, mw⟩, hw, h⟩ := h
    obtain ⟨-, -, -, hlook⟩ := walk_inv hw
    obtain ⟨rfl, rfl, rfl⟩ := hlook rfl
    dsimp only at h
    split_ifs at h
    split at h
    · cases h
    rename_i en hen
    split at h
    · rename_i m1 hk
      rw [bind_ok] at h
      obtain ⟨_, -, h⟩ := h
      simp only [Except.ok.injEq, Prod.mk.injEq] at h
      exact .inr ⟨h.1.symm, serves_round hk _ _⟩
    · rename_i mem m1 hk
      rw [bind_ok] at h
      obtain ⟨⟨ok, new1, m2⟩, hm, h⟩ := h
      dsimp only at h
      split_ifs at h with hok
      · rcases alloc_map_takes hi hk ⟨_, rfl⟩ hm with ⟨-, hkeys, ht⟩ | ⟨hb, -⟩
        · rw [← hkeys]
          rcases uvmcopyLoop_takes (add_PGSIZE_mod hi) h with ⟨hb, ht2⟩ | ⟨hb, hs⟩
          · exact .inl ⟨hb, ht.trans ht2⟩
          · exact .inr ⟨hb, ht.starved hs⟩
        · rw [hb] at hok
          cases hok
      · rw [bind_ok] at h
        obtain ⟨_, -, h⟩ := h
        rw [bind_ok] at h
        obtain ⟨_, -, h⟩ := h
        simp only [Except.ok.injEq, Prod.mk.injEq] at h
        rcases alloc_map_takes hi hk ⟨_, rfl⟩ hm with ⟨hb, -⟩ | ⟨-, hs⟩
        · exact absurd hb hok
        · exact .inr ⟨h.1.symm, serves_mono (Nat.le_add_right _ _) hs⟩

/-! ## allocproc -/

/-- The page-table pages that `proc_pagetable` makes. -/
def kernelKeys : List (ℕ × ℕ) := walkKeys [] TRAMPOLINE

theorem procPagetable_takes {tf : Pa} (h : procPagetable tf m = .ok (some pt, m')) : pt.keys = kernelKeys ∧ Takes 3 m m' := by
  unfold procPagetable at h
  split at h
  · cases h
  rename_i pt1 m1 h1
  obtain ⟨hk1, ht1⟩ : pt1.keys = [] ∧ Takes 1 m m1 := by
    unfold uvmcreate at h1
    split at h1
    · cases h1
    · rename_i pa m2 hk
      simp only [Prod.mk.injEq, Option.some.injEq] at h1
      obtain ⟨rfl, rfl⟩ := h1
      exact ⟨rfl, (Takes.alloc hk).dataOnly ⟨_, rfl⟩⟩
  rw [bind_ok] at h
  obtain ⟨⟨ok2, pt2, m2⟩, h2, h⟩ := h
  dsimp only at h
  split_ifs at h with hok
  · rw [bind_ok] at h
    obtain ⟨_, -, h⟩ := h
    cases h
  rw [bind_ok] at h
  obtain ⟨⟨ok3, pt3, m3⟩, h3, h⟩ := h
  dsimp only at h
  split_ifs at h with hok3
  · rw [bind_ok] at h
    obtain ⟨_, -, h⟩ := h
    rw [bind_ok] at h
    obtain ⟨_, -, h⟩ := h
    cases h
  simp only [Except.ok.injEq, Prod.mk.injEq, Option.some.injEq] at h
  obtain ⟨rfl, rfl⟩ := h
  rcases mappages_takes (by decide) h2 with ⟨-, hk2, ht2⟩ | ⟨hb, -⟩
  · rcases mappages_takes (by decide) h3 with ⟨-, hk3, ht3⟩ | ⟨hb, -⟩
    · rw [hk1] at hk2 ht2
      rw [hk2] at hk3 ht3
      refine ⟨hk3.trans ?_, (ht1.trans ht2).trans ht3⟩
      decide
    · rw [hb] at hok3
      exact absurd rfl hok3
  · rw [hb] at hok
    exact absurd rfl hok

theorem mapNeeds_mono : ∀ {c n a : ℕ} {ks : List (ℕ × ℕ)}, c ≤ n → mapNeeds c a ks ≤ mapNeeds n a ks
  | 0, _, a, ks, _ => Nat.zero_le _
  | c + 1, 0, a, ks, h => by omega
  | c + 1, n + 1, a, ks, h => by
    unfold mapNeeds
    have := @mapNeeds_mono c n (a + PGSIZE) (walkKeys ks a) (by omega)
    omega

/-! ## When uvmalloc returns -/

/-- A walk along existing page-table pages asks for none. -/
theorem walk_reaches {alloc : Bool} (hva : va < MAXVA) (hr : pt.reaches va = true) : walk pt va alloc m = .ok (true, pt, m) := by
  obtain ⟨h1, h0⟩ : (pt.dir 1 va).isSome = true ∧ (pt.dir 0 va).isSome = true := by
    simpa [PageTable.reaches] using hr
  unfold walk walkLevel
  rw [if_neg (by omega), if_pos h1]
  dsimp only
  rw [if_pos h0]

/-- A page that is mapped is not mapped again. -/
theorem mappages_remap {mem : Pa} {perm : Perm} (hw : pt.WF) (ha : va % PGSIZE = 0) (hva : va < MAXVA) (hpte : pt.pte (va / PGSIZE) ≠ none) :
    mappages pt va PGSIZE mem perm m = .error .mappagesRemap := by
  rw [mappages_one ha, walk_reaches hva (hw.reaches hpte), ok_bind]
  simp [Option.isSome_iff_ne_none.mpr hpte]

/-- **The loop of `uvmalloc`** returns unless it comes to a page that is mapped and `kalloc` still gives a page for it. -/
theorem uvmallocLoop_ok_iff (perm : Perm) {o e : ℕ} (ho : o % PGSIZE = 0) (hr : perm.r = true) : ∀ {n a : ℕ} {pt : PageTable} {m : Kmem},
    a % PGSIZE = 0 → o ≤ a → a / PGSIZE ≤ tfPage → Sane e pt → m.OkAt e → (∀ v, o / PGSIZE ≤ v → v < a / PGSIZE → pt.pte v ≠ none) →
    ((∃ r, uvmallocLoop perm o n a pt m = .ok r) ↔ ∀ v, a / PGSIZE ≤ v → v < a / PGSIZE + n → pt.pte v ≠ none →
      serves (mapNeeds (v - a / PGSIZE) a pt.keys + 1) m = false)
  | 0, a, pt, m, _, _, _, _, _, _ => iff_of_true ⟨_, rfl⟩ fun v h1 h2 => by omega
  | n + 1, a, pt, m, ha, hoa, hle, hs, hm, hlow => by
    have hlt : a < MAXVA := by
      simp only [tfPage, TRAPFRAME, TRAMPOLINE, MAXVA, PGSIZE] at *
      omega
    -- what was mapped so far can be given back
    have hundo : ∀ {pt1 : PageTable} {m1 : Kmem}, Sane e pt1 → m1.OkAt e → pt1.pte = pt.pte → ∃ r, uvmdealloc pt1 a o m1 = .ok r := by
      intro pt1 m1 hs1 hm1 hpte
      unfold uvmdealloc
      split_ifs with h1 h2
      · exact ⟨_, rfl⟩
      · rw [pgroundup_of_mod ha (by simp only [MAXVA] at hlt; omega), pgroundup_of_mod ho (by simp only [MAXVA] at hlt; omega)]
        obtain ⟨r, hr⟩ := (uvmunmap_ok_iff (n := (a - o) / PGSIZE) (d := true) hs1 hm1 ho (by simp only [PGSIZE] at *; omega)).mpr fun v h3 h4 => by
          rw [hpte]
          exact hlow v h3 (by simp only [PGSIZE] at *; omega)
        rw [hr, ok_bind]
        exact ⟨_, rfl⟩
      · exact ⟨_, rfl⟩
    unfold uvmallocLoop
    split
    · rename_i m1 hk
      obtain ⟨r, hr⟩ := hundo hs (kalloc_okAt hm hk) rfl
      rw [hr, ok_bind]
      exact iff_of_true ⟨_, rfl⟩ fun v _ _ _ => serves_mono (Nat.le_add_left _ _) (serves_none (n := 0) hk)
    rename_i mem m1 hk
    by_cases hpte : pt.pte (a / PGSIZE) = none
    · have hm1 : m1.OkAt e := kalloc_okAt hm hk
      have hm1 : (m1.memset mem 0).OkAt e := hm1
      have hfree : (m1.memset mem 0).free = m1.free := rfl
      obtain ⟨⟨ok, pt1, m2⟩, hmap⟩ := @mappages_total _ (m1.memset mem 0) _ mem perm ha hlt hpte
      have hm2 : m2.OkAt e := mappages_okAt hm1 _ hmap
      have hltf : a / PGSIZE < tfPage := lt_of_le_of_ne hle fun h => hs.shaped.trapf (h ▸ hpte)
      rw [hmap, ok_bind]
      dsimp only
      cases ok with
      | true =>
        rw [if_pos rfl]
        obtain ⟨-, hone⟩ := Mapped.one (f := fun _ => perm) ha hk hfree hmap rfl
        obtain ⟨-, hkeys, ht⟩ := (alloc_map_takes ha hk ⟨_, rfl⟩ hmap).resolve_right fun h => by cases h.1
        rw [uvmallocLoop_ok_iff perm ho hr (add_PGSIZE_mod ha) (by omega) (by rw [add_PGSIZE_div]; omega)
          (hs.mapped hm hone (by omega) fun _ _ _ => hr) hm2 fun v h1 h2 => ?_, add_PGSIZE_div]
        · have hsame : ∀ v, a / PGSIZE + 1 ≤ v → (serves (mapNeeds (v - (a / PGSIZE + 1)) (a + PGSIZE) pt1.keys + 1) m2 = false ↔
              serves (mapNeeds (v - a / PGSIZE) a pt.keys + 1) m = false) := by
            intro v hv
            rw [show v - a / PGSIZE = v - (a / PGSIZE + 1) + 1 by omega, mapNeeds, ← hkeys, Nat.add_assoc, ht.count]
          constructor
          · intro h v h1 h2 h3
            by_cases hv : v = a / PGSIZE
            · exact absurd (hv ▸ hpte) h3
            · exact (hsame v (by omega)).mp (h v (by omega) (by omega) (by rw [hone.other v (by omega)]; exact h3))
          · intro h v h1 h2 h3
            rw [hone.other v (by omega)] at h3
            exact (hsame v h1).mpr (h v (by omega) (by omega) h3)
        · rw [add_PGSIZE_div] at h2
          by_cases hv : v = a / PGSIZE
          · obtain ⟨pa, hpa⟩ := hone.new v (by omega) (by omega)
            rw [hpa]
            simp
          · rw [hone.other v (by omega)]
            exact hlow v h1 (by omega)
      | false =>
        rw [if_neg (by simp)]
        obtain ⟨-, hno⟩ := (alloc_map_takes ha hk ⟨_, rfl⟩ hmap).resolve_left fun h => by cases h.1
        obtain ⟨-, pt2, hg, ⟨-, rfl⟩ | ⟨hb, -⟩⟩ := mappages_inv ha hmap
        · obtain ⟨m3, hk3, hm3⟩ := kfree_total hm2 (kalloc_legal hm hk)
          obtain ⟨r, hr⟩ := hundo (hs.grows hm1 hg) hm3 hg.pte
          rw [hk3, ok_bind, hr, ok_bind]
          refine iff_of_true ⟨_, rfl⟩ fun v h1 h2 h3 => ?_
          have hv : v ≠ a / PGSIZE := fun h => h3 (h ▸ hpte)
          refine serves_mono ?_ hno
          rw [show v - a / PGSIZE = v - (a / PGSIZE + 1) + 1 by omega, mapNeeds]
          omega
        · cases hb
    · rw [mappages_remap hs.shaped.wf ha hlt hpte]
      refine iff_of_false (by rintro ⟨r, h⟩; cases h) fun h => ?_
      have hno := h _ le_rfl (by omega) hpte
      rw [Nat.sub_self, mapNeeds, serves_some hk] at hno
      cases hno

/-- The number of pages that `uvmalloc` adds to go from `o` to `n` bytes. -/
def addPages (o n : ℕ) : ℕ := (n - pgroundup o + (PGSIZE - 1)) / PGSIZE

/-- **`uvmalloc`** panics exactly when it comes to a page that is mapped already before `kalloc` runs out. -/
theorem uvmalloc_ok_iff {o e : ℕ} {xw xx : Bool} (hs : Sane e pt) (hm : m.OkAt e) (ho : o ≤ TRAPFRAME) :
    (∃ r, uvmalloc pt o n xw xx m = .ok r) ↔ o ≤ n → ∀ v, npages o ≤ v → v < npages o + addPages o n → pt.pte v ≠ none →
      serves (mapNeeds (v - npages o) (pgroundup o) pt.keys + 1) m = false := by
  unfold uvmalloc
  split_ifs with hno
  · exact iff_of_true ⟨_, rfl⟩ fun h => by omega
  have hmod := pgroundup_mod o
  have hloop := uvmallocLoop_ok_iff ⟨true, xw, xx, true⟩ (n := addPages o n) hmod rfl hmod le_rfl (npages_le ho) hs hm
    fun v h1 h2 => by omega
  rw [pgroundup_div] at hloop
  constructor
  · rintro ⟨r, h⟩ -
    obtain ⟨x, hx, -⟩ := bind_ok.mp h
    exact hloop.mp ⟨x, hx⟩
  · intro h
    obtain ⟨x, hx⟩ := hloop.mpr (h (by omega))
    refine ⟨_, bind_ok.mpr ⟨x, hx, rfl⟩⟩

/-- `uvmalloc` took its pages, or there were not enough. -/
theorem uvmalloc_takes {o r : ℕ} {xw xx : Bool} (hon : o ≤ n) (h : uvmalloc pt o n xw xx m = .ok (r, pt', m')) :
    (r = n ∧ Takes (mapNeeds (addPages o n) (pgroundup o) pt.keys) m m') ∨
      (r = 0 ∧ serves (mapNeeds (addPages o n) (pgroundup o) pt.keys) m = false) := by
  unfold uvmalloc at h
  rw [if_neg (by omega), bind_ok] at h
  obtain ⟨⟨ok, pt1, m1⟩, hl, h⟩ := h
  simp only [Except.ok.injEq, Prod.mk.injEq] at h
  obtain ⟨rfl, rfl, rfl⟩ := h
  rcases uvmallocLoop_takes (pgroundup_mod o) hl with ⟨rfl, ht⟩ | ⟨rfl, hs⟩
  · exact .inl ⟨if_pos rfl, ht⟩
  · exact .inr ⟨if_neg (by simp), hs⟩

end OsLabs.Xv6
