import OsLabs.Xv6.Sbrk
import OsLabs.Xv6.Fork

/-!
# OsLabs.Xv6.Resize — what sbrk does to a thread group

* `NoLeftover`, `uvmalloc_leftover`: a growth that fails halfway keeps the page-table pages that it made on the way.
* `Untouched`, `Resized`: what the caller of `sbrk` expects.
* `sbrk_meets_fits`: when it gets that.
-/

namespace OsLabs.Xv6

open Fallible Lts

variable {k k' : Kernel} {p q l : Slot} {pt pt' lpt : PageTable} {m m' m1 : Kmem} {lroot pa : Pa} {e va a n : ℕ} {as : List Pa} {b : Bool}

/-! ## Page-table pages of a failed growth -/

theorem walkLevel_tab {level : ℕ} {alloc : Bool} (h : walkLevel pt level va alloc m = (b, pt', m')) (x : Pa) : pt.tab x ≤ pt'.tab x := by
  have hg := (walkLevel_inv h).1.pages x
  have hd := (walkLevel_draws h).free x
  omega

theorem walk_tab {alloc : Bool} (h : walk pt va alloc m = .ok (b, pt', m')) (x : Pa) : pt.tab x ≤ pt'.tab x := by
  have hg := (walk_inv h).2.1.pages x
  have hd := (walk_draws h).free x
  omega

/-- A walk that misses a page-table page makes it when `kalloc` gives one. -/
theorem walk_makes (hneed : walkNeeds pt.keys va ≠ 0) (h : walk pt va true m = .ok (b, pt', m')) :
    (serves 1 m = true → ∃ x, pt.tab x < pt'.tab x) ∧ (serves 1 m = false → pt' = pt) := by
  have hlevel : ∀ {level : ℕ} {pt pt' : PageTable} {m m' : Kmem} {b : Bool}, PageTable.key level va ∉ pt.keys →
      walkLevel pt level va true m = (b, pt', m') →
      (serves 1 m = true → ∃ x, pt.tab x < pt'.tab x) ∧ (serves 1 m = false → b = false ∧ pt' = pt) := by
    intro level pt pt' m m' b hkey h
    unfold walkLevel at h
    rw [if_neg (by rwa [PageTable.dir_isSome]), if_neg (by simp)] at h
    rcases hk : kalloc m with ⟨_ | pa, m1⟩ <;> rw [hk] at h <;> simp only [Prod.mk.injEq] at h
    · refine ⟨fun hs => ?_, fun _ => ⟨h.1.symm, h.2.1.symm⟩⟩
      rw [serves_none hk] at hs
      cases hs
    · refine ⟨fun _ => ⟨pa, ?_⟩, fun hs => ?_⟩
      · have hd : pt'.tab pa = pt.tab pa + 1 := by
          rw [← h.2.1]
          simp [PageTable.tab, PageTable.addDir, PageTable.pages, List.count_cons]
          omega
        omega
      · rw [serves_some hk] at hs
        cases hs
  unfold walk at h
  split_ifs at h
  by_cases h1 : PageTable.key 1 va ∈ pt.keys
  · have hw1 : walkLevel pt 1 va true m = (true, pt, m) := by
      unfold walkLevel
      rw [if_pos (PageTable.dir_isSome.mpr h1)]
    rw [hw1] at h
    have h0 : PageTable.key 0 va ∉ pt.keys := by
      intro h0
      simp [walkNeeds, levelNeeds, levelKeys, h1, h0] at hneed
    obtain ⟨hyes, hno⟩ := hlevel h0 (Except.ok.inj h)
    exact ⟨hyes, fun hs => (hno hs).2⟩
  · rcases hw1 : walkLevel pt 1 va true m with ⟨b1, pt1, m1⟩
    rw [hw1] at h
    obtain ⟨hyes, hno⟩ := hlevel h1 hw1
    refine ⟨fun hs => ?_, fun hs => ?_⟩
    · obtain ⟨x, hx⟩ := hyes hs
      refine ⟨x, lt_of_lt_of_le hx ?_⟩
      cases b1 with
      | false =>
        simp only [Except.ok.injEq, Prod.mk.injEq] at h
        rw [← h.2.1]
      | true => exact walkLevel_tab (Except.ok.inj h) x
    · obtain ⟨rfl, rfl⟩ := hno hs
      simp only [Except.ok.injEq, Prod.mk.injEq] at h
      exact h.2.1.symm

/-- While `n` pages are added from `a` on, no page-table page is made before `kalloc` runs out. -/
def NoLeftover (ks : List (ℕ × ℕ)) (a n : ℕ) (m : Kmem) : Prop :=
  ∀ j, j < n → walkNeeds ks (a + j * PGSIZE) ≠ 0 → serves (j + 2) m = false

theorem uvmdealloc_tab {o r : ℕ} (h : uvmdealloc pt o n m = .ok (r, pt', m')) (x : Pa) : pt'.tab x = pt.tab x := by
  unfold uvmdealloc at h
  split_ifs at h
  · simp only [Except.ok.injEq, Prod.mk.injEq] at h
    rw [h.2.1]
  · rw [bind_ok] at h
    obtain ⟨⟨pt1, m1⟩, hu, h⟩ := h
    simp only [Except.ok.injEq, Prod.mk.injEq] at h
    obtain ⟨-, rfl, -⟩ := uvmunmap_inv hu
    rw [← h.2.1]
    rfl
  · simp only [Except.ok.injEq, Prod.mk.injEq] at h
    rw [h.2.1]

/-- A path that exists already needs no page. -/
theorem reaches_of_needs (h : walkNeeds pt.keys va = 0) : pt.reaches va = true ∧ walkKeys pt.keys va = pt.keys := by
  have h1 : PageTable.key 1 va ∈ pt.keys := by
    by_contra h1
    simp [walkNeeds, levelNeeds, h1] at h
  have h0 : PageTable.key 0 va ∈ pt.keys := by
    by_contra h0
    simp [walkNeeds, levelNeeds, levelKeys, h1, h0] at h
  refine ⟨?_, by simp [walkKeys, levelKeys, h1, h0]⟩
  unfold PageTable.reaches
  rw [PageTable.dir_isSome.mpr h1, PageTable.dir_isSome.mpr h0]
  rfl

/-- A page was mapped, or not: what became of the page-table pages. -/
theorem mappages_tab {perm : Perm} (ha : va % PGSIZE = 0) (h : mappages pt va PGSIZE pa perm m = .ok (b, pt', m')) :
    (∀ x, pt.tab x ≤ pt'.tab x) ∧ (walkNeeds pt.keys va ≠ 0 → (serves 1 m = true → ∃ x, pt.tab x < pt'.tab x) ∧
      (serves 1 m = false → b = false ∧ ∀ x, pt'.tab x = pt.tab x)) ∧
    (walkNeeds pt.keys va = 0 → b = true ∧ (∀ x, pt'.tab x = pt.tab x) ∧ pt'.keys = pt.keys ∧ m' = m) := by
  rw [mappages_one ha, bind_ok] at h
  obtain ⟨⟨found, pt1, m1⟩, hw, h⟩ := h
  have hkey : pt'.tab = pt1.tab ∧ pt'.keys = pt1.keys ∧ b = found ∧ m' = m1 := by
    dsimp only at h
    cases found with
    | false =>
      simp only [Bool.not_false, if_true, Except.ok.injEq, Prod.mk.injEq] at h
      obtain ⟨rfl, rfl, rfl⟩ := h
      exact ⟨rfl, rfl, rfl, rfl⟩
    | true =>
      simp only [Bool.not_true, Bool.false_eq_true, if_false] at h
      split_ifs at h
      simp only [Except.ok.injEq, Prod.mk.injEq] at h
      obtain ⟨rfl, rfl, rfl⟩ := h
      exact ⟨rfl, rfl, rfl, rfl⟩
  obtain ⟨htab, hkeys, rfl, rfl⟩ := hkey
  rw [htab, hkeys]
  refine ⟨walk_tab hw, fun hneed => ⟨(walk_makes hneed hw).1, fun hs => ?_⟩, fun hneed => ?_⟩
  · obtain rfl := (walk_makes hneed hw).2 hs
    refine ⟨?_, fun _ => rfl⟩
    rcases walk_takes hw with ⟨-, -, ht⟩ | ⟨hb, -⟩
    · have hserved := ht.serves
      rw [serves_mono (by omega) hs] at hserved
      cases hserved
    · exact hb
  · have hva := (walk_inv hw).1
    rw [walk_reaches hva (reaches_of_needs hneed).1] at hw
    simp only [Except.ok.injEq, Prod.mk.injEq] at hw
    obtain ⟨rfl, rfl, rfl⟩ := hw
    exact ⟨rfl, fun _ => rfl, rfl, rfl⟩

/-- **A failed growth** leaves the page-table pages as they were exactly when it made none. -/
theorem uvmallocLoop_leftover {perm : Perm} {o : ℕ} : ∀ {n a : ℕ} {pt pt' : PageTable} {m m' : Kmem} {b : Bool}, a % PGSIZE = 0 →
    uvmallocLoop perm o n a pt m = .ok (b, pt', m') →
    (∀ x, pt.tab x ≤ pt'.tab x) ∧ (b = false → ((∀ x, pt'.tab x = pt.tab x) ↔ NoLeftover pt.keys a n m))
  | 0, a, pt, pt', m, m', b, _, h => by
    simp only [uvmallocLoop, Except.ok.injEq, Prod.mk.injEq] at h
    obtain ⟨rfl, rfl, rfl⟩ := h
    exact ⟨fun _ => le_rfl, fun hb => by cases hb⟩
  | n + 1, a, pt, pt', m, m', b, ha, h => by
    unfold uvmallocLoop at h
    split at h
    · -- no page at all
      rename_i m1 hk
      rw [bind_ok] at h
      obtain ⟨⟨r, pt1, m2⟩, hd, h⟩ := h
      simp only [Except.ok.injEq, Prod.mk.injEq] at h
      obtain ⟨rfl, rfl, rfl⟩ := h
      have htab := uvmdealloc_tab hd
      exact ⟨fun x => (htab x).ge, fun _ => iff_of_true htab fun j _ _ => serves_mono (by omega) (serves_none (n := 0) hk)⟩
    · rename_i mem m1 hk
      have h2 : ∀ c, serves (c + 1) m = serves c (m1.memset mem 0) := fun c => by
        rw [serves_some hk]
        exact (serves_dataOnly ⟨_, rfl⟩).symm
      rw [bind_ok] at h
      obtain ⟨⟨ok, pt1, m2⟩, hmap, h⟩ := h
      obtain ⟨hle, hneed, hfree⟩ := mappages_tab ha hmap
      dsimp only at h
      split_ifs at h with hok
      · obtain ⟨hmono, hiff⟩ := uvmallocLoop_leftover (add_PGSIZE_mod ha) h
        refine ⟨fun x => (hle x).trans (hmono x), fun hb => ?_⟩
        by_cases h0 : walkNeeds pt.keys a = 0
        · obtain ⟨-, htab, hkeys, rfl⟩ := hfree h0
          have hstep : NoLeftover pt1.keys (a + PGSIZE) n (m1.memset mem 0) ↔ NoLeftover pt.keys a (n + 1) m := by
            rw [hkeys]
            constructor
            · intro hno j hj hw
              cases j with
              | zero =>
                rw [Nat.zero_mul, Nat.add_zero] at hw
                exact absurd h0 hw
              | succ j =>
                rw [show j + 1 + 2 = j + 2 + 1 by omega, h2]
                exact hno j (by omega) (by rwa [Nat.succ_mul, Nat.add_comm (j * PGSIZE), ← Nat.add_assoc] at hw)
            · intro hno j hj hw
              rw [← h2, show j + 2 + 1 = j + 1 + 2 by omega]
              exact hno (j + 1) (by omega) (by rwa [Nat.succ_mul, Nat.add_comm (j * PGSIZE), ← Nat.add_assoc])
          rw [← hstep, ← hiff hb]
          simp only [htab]
        · -- a page-table page was missing, and was made
          have hserved : serves 1 (m1.memset mem 0) = true := by
            by_contra hs
            obtain ⟨hf, -⟩ := (hneed h0).2 (by simpa using hs)
            rw [hf] at hok
            cases hok
          obtain ⟨x, hx⟩ := (hneed h0).1 hserved
          refine iff_of_false (fun h => ?_) fun hno => ?_
          · have := h x
            have := hmono x
            omega
          · have := hno 0 (by omega) (by rwa [Nat.zero_mul, Nat.add_zero])
            rw [Nat.zero_add, show 2 = 1 + 1 from rfl, h2, hserved] at this
            cases this
      · rw [bind_ok] at h
        obtain ⟨m3, hk3, h⟩ := h
        rw [bind_ok] at h
        obtain ⟨⟨r, pt2, m4⟩, hd, h⟩ := h
        simp only [Except.ok.injEq, Prod.mk.injEq] at h
        obtain ⟨rfl, rfl, rfl⟩ := h
        have htab := uvmdealloc_tab hd
        refine ⟨fun x => (hle x).trans (htab x).ge, fun _ => ?_⟩
        have h0 : walkNeeds pt.keys a ≠ 0 := fun h0 => hok (hfree h0).1
        by_cases hs : serves 1 (m1.memset mem 0) = true
        · obtain ⟨x, hx⟩ := (hneed h0).1 hs
          refine iff_of_false (fun h => ?_) fun hno => ?_
          · have := h x
            have := htab x
            omega
          · have := hno 0 (by omega) (by rwa [Nat.zero_mul, Nat.add_zero])
            rw [Nat.zero_add, show 2 = 1 + 1 from rfl, h2, hs] at this
            cases this
        · have hs : serves 1 (m1.memset mem 0) = false := by simpa using hs
          refine iff_of_true (fun x => (htab x).trans (((hneed h0).2 hs).2 x)) fun j _ _ => ?_
          refine serves_mono (c := 2) (by omega) ?_
          rw [show 2 = 1 + 1 from rfl, h2, hs]

theorem uvmalloc_leftover {o : ℕ} {xw xx : Bool} (hs : Shaped pt) (ho : o ≤ TRAPFRAME) (hon : o ≤ n) (h0 : n ≠ 0)
    (h : uvmalloc pt o n xw xx m = .ok (0, pt', m')) : m'.free = m.free ↔ NoLeftover pt.keys (pgroundup o) (addPages o n) m := by
  obtain ⟨-, -, hheld, hcase⟩ := uvmalloc_held hs ho h
  have hpte : pt'.pte = pt.pte := by
    rcases hcase with ⟨-, hpte⟩ | ⟨hr, -⟩
    · exact hpte
    · exact absurd hr.symm h0
  have hfree : m'.free = m.free ↔ ∀ x, pt'.tab x = pt.tab x := by
    have heq : ∀ x, m'.free x + pt'.tab x = m.free x + pt.tab x := fun x => by
      have := hheld x
      simp only [PageTable.held, hpte] at this
      omega
    constructor
    · intro h x
      have := heq x
      rw [h] at this
      omega
    · intro h
      funext x
      have := heq x
      rw [h x] at this
      omega
  rw [hfree]
  unfold uvmalloc at h
  rw [if_neg (by omega), bind_ok] at h
  obtain ⟨⟨ok, pt1, m1⟩, hl, h⟩ := h
  simp only [Except.ok.injEq, Prod.mk.injEq] at h
  obtain ⟨hr, rfl, rfl⟩ := h
  cases ok with
  | true => exact absurd hr h0
  | false => exact (uvmallocLoop_leftover (pgroundup_mod o) hl).2 rfl

/-! ## The bytes of the group -/

theorem broadcastStep_draws {s s' : Bool × Kernel} (ha : va % PGSIZE = 0) (h : broadcastStep l lroot va pa s q = .ok s') :
    Draws s.2.mem s'.2.mem := by
  unfold broadcastStep at h
  split_ifs at h
  swap
  · exact Except.ok.inj h ▸ .refl _
  split at h
  · exact Except.ok.inj h ▸ .refl _
  split_ifs at h
  · exact Except.ok.inj h ▸ .refl _
  rw [bind_ok] at h
  obtain ⟨_, -, h⟩ := h
  dsimp only at h
  split_ifs at h
  · exact Except.ok.inj h ▸ .refl _
  rw [bind_ok] at h
  obtain ⟨⟨ok, pt1, m1⟩, hm, h⟩ := h
  obtain rfl := Except.ok.inj h
  exact mappages_draws ha hm

/-- The broadcast takes pages for page tables from the free list, and writes no other. -/
theorem broadcast_draws : ∀ {n va : ℕ} {k k' : Kernel} {b : Bool}, va % PGSIZE = 0 → broadcast l lpt n va k = .ok (b, k') →
    Draws k.mem k'.mem
  | 0, va, k, k', b, _, h => by
    simp only [broadcast, Except.ok.injEq, Prod.mk.injEq] at h
    exact h.2 ▸ .refl _
  | n + 1, va, k, k', b, ha, h => by
    unfold broadcast at h
    split_ifs at h
    · simp only [Except.ok.injEq, Prod.mk.injEq] at h
      exact h.2 ▸ .refl _
    simp only [bind_ok] at h
    obtain ⟨⟨b1, k1⟩, h1, ⟨b2, k2⟩, h2, h⟩ := h
    obtain ⟨-, rfl⟩ := Prod.mk.inj (Except.ok.inj h)
    rw [broadcastPage_eq] at h1
    have hd1 : Draws k.mem k1.mem := foldlM_inv (I := fun s : Bool × Kernel => Draws k.mem s.2.mem)
      (fun s q s' hs hf => hs.trans (broadcastStep_draws ha hf)) (s := (true, k)) (.refl _) h1
    exact hd1.trans (broadcast_draws (add_PGSIZE_mod ha) h2)

theorem uvmunmapLoop_keeps_mem : ∀ {n a : ℕ} {pt pt' : PageTable} {m m' : Kmem}, uvmunmapLoop false n a pt m = .ok (pt', m') → m' = m
  | 0, a, pt, pt', m, m', h => (Prod.mk.inj (Except.ok.inj h)).2.symm
  | n + 1, a, pt, pt', m, m', h => by
    unfold uvmunmapLoop at h
    rw [bind_ok] at h
    obtain ⟨⟨found, pt1, m1⟩, hw, h⟩ := h
    obtain ⟨-, -, -, hlook⟩ := walk_inv hw
    obtain ⟨-, rfl, rfl⟩ := hlook rfl
    dsimp only at h
    split_ifs at h
    split at h
    · cases h
    split_ifs at h
    rw [bind_ok] at h
    obtain ⟨m2, hk, h⟩ := h
    obtain rfl := Except.ok.inj hk
    exact uvmunmapLoop_keeps_mem h

theorem unbroadcastStep_mem (h : unbroadcastStep l lroot va k q = .ok k') : k'.mem = k.mem := by
  unfold unbroadcastStep at h
  split_ifs at h
  swap
  · rw [← Except.ok.inj h]
  split at h
  · rw [← Except.ok.inj h]
  split_ifs at h
  · rw [← Except.ok.inj h]
  rw [bind_ok] at h
  obtain ⟨⟨pt1, m1⟩, hu, h⟩ := h
  obtain rfl := Except.ok.inj h
  unfold uvmunmap at hu
  split_ifs at hu
  exact uvmunmapLoop_keeps_mem hu

/-- `uvmdealloc` writes the pages that go away. -/
theorem uvmdealloc_data {o r : ℕ} {x : Pa} (h : uvmdealloc pt o n m = .ok (r, pt', m'))
    (hx : ∀ v en, npages r ≤ v → v < npages o → pt.pte v = some en → en.pa ≠ x) : m'.data x = m.data x := by
  unfold uvmdealloc at h
  split_ifs at h with h1 h2
  · simp only [Except.ok.injEq, Prod.mk.injEq] at h
    rw [h.2.2]
  · rw [bind_ok] at h
    obtain ⟨⟨pt1, m1⟩, hu, h⟩ := h
    simp only [Except.ok.injEq, Prod.mk.injEq] at h
    obtain ⟨rfl, rfl, rfl⟩ := h
    refine uvmunmap_data hu fun _ v en h3 h4 => hx v en (by rwa [pgroundup_div] at h3) ?_
    rw [pgroundup_eq o, pgroundup_eq n, ← Nat.sub_mul, Nat.mul_div_cancel _ PGSIZE_pos, Nat.mul_div_cancel _ PGSIZE_pos] at h4
    rw [pgroundup_eq, pgroundup_eq] at h2
    have := Nat.lt_of_mul_lt_mul_right h2
    omega
  · simp only [Except.ok.injEq, Prod.mk.injEq] at h
    rw [h.2.2]

/-- The shrink loop frees no page and writes none. -/
theorem unbroadcast_mem : ∀ {n va : ℕ} {k k' : Kernel}, unbroadcast l lroot n va k = .ok k' → k'.mem = k.mem
  | 0, va, k, k', h => by rw [← Except.ok.inj h]
  | n + 1, va, k, k', h => by
    unfold unbroadcast at h
    split_ifs at h
    · rw [← Except.ok.inj h]
    rw [bind_ok] at h
    obtain ⟨k1, h1, h⟩ := h
    rw [unbroadcastPage_eq] at h1
    have hm1 : k1.mem = k.mem := foldlM_inv (I := fun s : Kernel => s.mem = k.mem)
      (fun s q s' hs hf => (unbroadcastStep_mem hf).trans hs) rfl h1
    exact (unbroadcast_mem h).trans hm1

/-- The same entry, and the same bytes on its page. -/
theorem readByte_congr (hw : pt.WF) (hw' : pt'.WF) (hpte : pt'.pte (va / PGSIZE) = pt.pte (va / PGSIZE))
    (hdata : ∀ en, pt.pte (va / PGSIZE) = some en → m'.data en.pa = m.data en.pa) : readByte pt' m' va = readByte pt m va := by
  have hdiv : pgrounddown va / PGSIZE = va / PGSIZE := Nat.mul_div_cancel _ PGSIZE_pos
  have hreach : ∀ {x : PageTable}, x.WF → x.pte (va / PGSIZE) ≠ none → x.reaches (pgrounddown va) = true := fun hx h => hx _ h
  unfold readByte walkaddr
  rw [hdiv]
  cases hen : pt.pte (va / PGSIZE) with
  | none =>
    rw [hpte, hen]
    split_ifs <;> rfl
  | some en =>
    rw [hreach hw (by rw [hen]; simp), hreach hw' (by rw [hpte, hen]; simp), hpte, hen]
    have := hdata en hen
    dsimp only
    split_ifs <;> simp_all

/-! ## What the caller expects -/

/-- Nothing that a user can see has changed, and the same pages are free. -/
structure Untouched (k k' : Kernel) : Prop where
  sz : ∀ q, (k'.proc q).sz = (k.proc q).sz
  maps : ∀ q v, ((k'.proc q).pagetable.bind fun pt => pt.pte v) = (k.proc q).pagetable.bind fun pt => pt.pte v
  free : k'.mem.free = k.mem.free

/-- The group of `l` has `new` bytes; what every member reads below both sizes is the same, and what a member newly maps is zero. -/
structure Resized (k k' : Kernel) (l : Slot) (new : ℕ) : Prop where
  size : ∀ q, inGroup k q l = true → (k'.proc q).sz = new
  bytes : ∀ q pt, inGroup k q l = true → (k.proc q).pagetable = some pt → ∃ pt', (k'.proc q).pagetable = some pt' ∧
    (∀ va, va < (k.proc l).sz → va < new → readByte pt' k'.mem va = readByte pt k.mem va) ∧
    ∀ v en, pt'.pte v = some en → pt.pte v ≠ some en → k'.mem.data en.pa = fun _ => 0

/-- **`sbrk(n)`** of `p` in the group of `l` returned `r`: it failed and left everything alone, or it returned the old size and did what it is
asked for. -/
def SbrkResult (k : Kernel) (l : Slot) (n r : ℤ) (k' : Kernel) : Prop :=
  (r = -1 ∧ Untouched k k') ∨ (r = (k.proc l).sz ∧ ∃ new : ℕ, (new : ℤ) = (k.proc l).sz + n ∧ Resized k k' l new)

/-- The growth is going to fail: there is no leader to grow, or `kalloc` does not serve the pages. -/
def GrowFails (k : Kernel) (l : Slot) (n : ℤ) : Prop :=
  0 < n ∧ ∀ lpt, (k.proc l).pagetable = some lpt →
    serves (mapNeeds (addPages (k.proc l).sz ((k.proc l).sz + n.toNat)) (pgroundup (k.proc l).sz) lpt.keys) k.mem = false

/-- The calls of `sbrk` that do as they should: a growth that fails makes no page-table page; otherwise the caller knows the size of the group,
and the new size is not negative. -/
structure SbrkFits (k : Kernel) (p l : Slot) (n : ℤ) : Prop where
  ok : GrowOk k l n
  fails : GrowFails k l n → ∀ lpt, (k.proc l).pagetable = some lpt →
    NoLeftover lpt.keys (pgroundup (k.proc l).sz) (addPages (k.proc l).sz ((k.proc l).sz + n.toNat)) k.mem
  caller : ¬ GrowFails k l n → (k.proc p).sz = (k.proc l).sz ∧ 0 ≤ (k.proc l).sz + n
  same : n = 0 → ∀ q, inGroup k q l = true → (k.proc q).sz = (k.proc l).sz

/-- No page of the group is mapped at two places. -/
def OnePlace (k : Kernel) (l : Slot) : Prop :=
  ∀ q q' x x' v v' en en', inGroup k q l = true → inGroup k q' l = true → (k.proc q).pagetable = some x → (k.proc q').pagetable = some x' →
    v < tfPage → v' < tfPage → x.pte v = some en → x'.pte v' = some en' → en.pa = en'.pa → v = v'

theorem PtOnly.inGroup (h : PtOnly k k') : inGroup k' q l = inGroup k q l := by
  obtain ⟨f, m, rfl⟩ := h
  rfl

theorem setGroupSz_member {sz : ℕ} (h : inGroup k q l = true) : (setGroupSz k l sz).proc q = { k.proc q with sz := sz } := by
  show (if inGroup k q l then _ else _) = _
  rw [if_pos h]

/-- The pages that `uvmalloc` adds hold zeros. -/
theorem uvmalloc_zero {o r : ℕ} {xw xx : Bool} (hs : Shaped pt) (ho : o ≤ TRAPFRAME) (hm : m.Once) (hr : r ≠ 0)
    (h : uvmalloc pt o n xw xx m = .ok (r, pt', m')) : ∀ v, npages o ≤ v → v < npages r →
      ∃ pa, pt'.pte v = some ⟨pa, ⟨true, xw, xx, true⟩⟩ ∧ m'.data pa = (fun _ => 0) ∧ m'.free pa = 0 := by
  intro v h1 h2
  obtain ⟨-, -, -, ⟨h0 | rfl, -⟩ | ⟨rfl, hgr⟩⟩ := uvmalloc_held hs ho h
  · exact absurd h0 hr
  · omega
  obtain ⟨hcount, hdiv, -⟩ := grow_range hgr.le hgr.top
  unfold uvmalloc at h
  rw [if_neg (not_lt.mpr hgr.le)] at h
  dsimp only at h
  rw [hcount, bind_ok] at h
  obtain ⟨⟨ok, pt1, m1⟩, hl, h⟩ := h
  simp only [Except.ok.injEq, Prod.mk.injEq] at h
  obtain ⟨hok, rfl, rfl⟩ := h
  cases ok with
  | false => exact absurd hok.symm hr
  | true =>
    have hup := pgroundup_mod o
    exact (uvmallocLoop_zero hup hm hup le_rfl (.inl rfl) hl).2 v (by omega) (by omega)

/-- The bytes below the old size after a growth, and the new pages. -/
theorem Grew.resized {lpt1 : PageTable} {sz : ℕ} {b : Bool} {k2 : Kernel} {n : ℕ} (hg : Grew k l lpt1 m sz b k2) (hf : k.Fine e) (hm : k.mem.OkAt e)
    (ha : k.Apart) (hpt : (k.proc l).pagetable = some lpt) (hu : uvmalloc lpt (k.proc l).sz n true false k.mem = .ok (sz, lpt1, m))
    (hsz : sz ≠ 0) (hp : PtOnly k k2) (hd2 : Draws m k2.mem) : Resized k (setGroupSz k2 l sz) l sz := by
  have hT : TRAPFRAME < MAXVA := by decide
  have hlsz := (hf l).sz
  have hs := (hf l).table lpt hpt
  have hs1 := uvmalloc_sane hs hm hlsz hu
  have hd := uvmalloc_draws hu
  -- the new pages of the leader
  have hnew : ∀ v, npages (k.proc l).sz ≤ v → v < npages sz → ∃ pa, lpt1.pte v = some ⟨pa, growPerm⟩ ∧ k2.mem.data pa = fun _ => 0 := by
    intro v h1 h2
    obtain ⟨pa, hpa, hz, h0⟩ := uvmalloc_zero hs.shaped hlsz ha.once hsz hu v h1 h2
    exact ⟨pa, hpa, by rw [hd2.data pa h0, hz]⟩
  have hold : ∀ v, ¬ (npages (k.proc l).sz ≤ v ∧ v < npages sz) → lpt1.pte v = lpt.pte v := by
    intro v hv
    obtain ⟨-, -, -, ⟨-, hpte⟩ | ⟨-, hgr⟩⟩ := uvmalloc_held hs.shaped hlsz hu
    · rw [hpte]
    · exact hgr.other v hv
  have hlow : ∀ va, va < (k.proc l).sz → va / PGSIZE < npages (k.proc l).sz := fun va hva => by
    rw [npages_of_le (by omega)]
    simp only [PGSIZE]
    omega
  have hkeep : ∀ q x v en, (k.proc q).pagetable = some x → v < tfPage → x.pte v = some en → k2.mem.data en.pa = k.mem.data en.pa :=
    fun q x v en hx hv hen => (hd.trans hd2).data _ (ha.user q x v en hx hv hen)
  refine ⟨fun q hq => ?_, fun q x hq hx => ?_⟩
  · rw [setGroupSz_member (by rw [hp.inGroup, hq])]
  rw [setGroupSz_member (by rw [hp.inGroup, hq])]
  have hnp := npages_le hlsz
  by_cases hql : q = l
  · subst hql
    obtain rfl := Option.some.inj (hpt.symm.trans hx)
    refine ⟨lpt1, by rw [hg.leader], fun va h1 _ => ?_, fun v en hen hne => ?_⟩
    · have := hlow va h1
      exact readByte_congr hs.shaped.wf hs1.shaped.wf (hold _ (by omega)) fun en hen => hkeep q _ _ en hx (by omega) hen
    · by_cases hv : npages (k.proc q).sz ≤ v ∧ v < npages sz
      · obtain ⟨pa, hpa, hz⟩ := hnew v hv.1 hv.2
        rw [hpa] at hen
        rw [← Option.some.inj hen]
        exact hz
      · rw [hold v hv] at hen
        exact absurd hen hne
  · have hsx := (hf q).table x hx
    rcases hg.visit q hql with ⟨y, y', ho, heq, hsp⟩ | ⟨-, heq⟩
    · obtain rfl := Option.some.inj (hx.symm.trans ho.2.1)
      refine ⟨y', by rw [heq], fun va h1 _ => ?_, fun v en hen hne => ?_⟩
      · have := hlow va h1
        refine readByte_congr hsx.shaped.wf (hsp.shaped hsx.shaped).wf ?_ fun en hen => hkeep q _ _ en hx (by omega) hen
        exact (hsp.pte _).resolve_right fun h => by omega
      · rcases hsp.pte v with h | ⟨h1, h2, -, hnew'⟩
        · exact absurd (h ▸ hen) hne
        · obtain ⟨pa, hpa, hz⟩ := hnew v h1 (by omega)
          have hv := npages_le hg.top
          rw [hnew', walkaddr_of_pte hs1.shaped.wf (by omega) hpa rfl] at hen
          rw [← Option.some.inj hen]
          exact hz
    · refine ⟨x, by rw [heq, hx], fun va h1 _ => ?_, fun v en hen hne => absurd hen hne⟩
      have := hlow va h1
      exact readByte_congr hsx.shaped.wf hsx.shaped.wf rfl fun en hen => hkeep q _ _ en hx (by omega) hen

/-- The bytes below the new size after the group shrank. -/
theorem Shrunk.resized {lpt1 : PageTable} {sz n : ℕ} {k2 : Kernel} (hg : Shrunk k l lpt sz k2) (hf : k.Fine e)
    (hone : OnePlace k l) (hpt : (k.proc l).pagetable = some lpt) (hu : uvmdealloc lpt (k.proc l).sz n k.mem = .ok (sz, lpt1, m))
    (hp : PtOnly k k2) (hd2 : k2.mem = m) : Resized k (setGroupSz k2 l sz) l sz := by
  have hnp := npages_le (hf l).sz
  have hlow : ∀ va, va < sz → va / PGSIZE < npages sz := fun va hva => by
    have hT : TRAPFRAME < MAXVA := by decide
    have := (hf l).sz
    have := hg.le
    rw [npages_of_le (by omega)]
    simp only [PGSIZE]
    omega
  have hleader : inGroup k l l = true := inGroup_iff.mpr (.inl rfl)
  -- the pages that are freed are mapped at the top of the leader, and nowhere else
  have hkeep : ∀ q x v en, inGroup k q l = true → (k.proc q).pagetable = some x → v < npages sz → x.pte v = some en →
      k2.mem.data en.pa = k.mem.data en.pa := by
    intro q x v en hq hx hv hen
    have := hg.pages
    rw [hd2]
    refine uvmdealloc_data hu fun v' en' h1 h2 hen' heq => ?_
    have := hone q l x lpt v v' en en' hq hleader hx hpt (by omega) (by omega) hen hen' heq.symm
    obtain ⟨-, -, hle, -⟩ := uvmdealloc_held ((hf l).table lpt hpt).shaped (hf l).sz hu
    omega
  have hread : ∀ q x, inGroup k q l = true → (k.proc q).pagetable = some x →
      (∀ va, va < (k.proc l).sz → va < sz →
        readByte (x.unmap (npages sz) (npages (k.proc l).sz - npages sz)) k2.mem va = readByte x k.mem va) ∧
      ∀ v en, (x.unmap (npages sz) (npages (k.proc l).sz - npages sz)).pte v = some en → x.pte v ≠ some en →
        k2.mem.data en.pa = fun _ => 0 := by
    intro q x hq hx
    have hsx := ((hf q).table x hx).shaped
    refine ⟨fun va _ h2 => ?_, fun v en hen hne => ?_⟩
    · have hv := hlow va h2
      refine readByte_congr hsx.wf (hsx.unmap hg.range).wf ?_ fun en hen => hkeep q x _ en hq hx hv hen
      rw [PageTable.unmap_apply, if_neg (by omega)]
    · rw [PageTable.unmap_apply] at hen
      split_ifs at hen
      exact absurd hen hne
  refine ⟨fun q hq => ?_, fun q x hq hx => ?_⟩
  · rw [setGroupSz_member (by rw [hp.inGroup, hq])]
  rw [setGroupSz_member (by rw [hp.inGroup, hq])]
  by_cases hql : q = l
  · subst hql
    obtain rfl := Option.some.inj (hpt.symm.trans hx)
    exact ⟨_, by rw [hg.leader], hread q _ hq hx⟩
  · rcases hg.visit q hql with ⟨y, y', ho, heq, rfl, -⟩ | ⟨-, heq⟩
    · obtain rfl := Option.some.inj (hx.symm.trans ho.2.1)
      exact ⟨_, by rw [heq], hread q _ hq hx⟩
    · refine ⟨x, by rw [heq, hx], fun va _ h2 => ?_, fun v en hen hne => absurd hen hne⟩
      have hsx := ((hf q).table x hx).shaped
      exact readByte_congr hsx.wf hsx.wf rfl fun en hen => hkeep q x _ en hq hx (hlow va h2) hen

/-! ## growproc and sbrk -/

/-- The new size of a growth. -/
theorem grow_size {n : ℤ} (hf : (k.proc l).Fine e) (hn : IsInt n) (hpos : 0 < n) :
    u64 ((k.proc l).sz + n) = (k.proc l).sz + n.toNat := by
  have hT : TRAPFRAME < 2 ^ 63 := by decide
  have hsz := hf.sz
  unfold IsInt at hn
  rw [u64_of_nonneg (by omega) (by omega)]
  omega

/-- A growth that fails leaves everything alone, but for the pages of the leader's page table. -/
theorem noMem_untouched {n : ℕ} {lpt1 : PageTable} (hf : k.Fine e) (hpt : (k.proc l).pagetable = some lpt) (hn : (k.proc l).sz ≤ n) (h0 : n ≠ 0)
    (hu : uvmalloc lpt (k.proc l).sz n true false k.mem = .ok (0, lpt1, m)) :
    Untouched k ((k.setMem m).setProc l { k.proc l with pagetable := some lpt1 }) ↔
      NoLeftover lpt.keys (pgroundup (k.proc l).sz) (addPages (k.proc l).sz n) k.mem := by
  have hs := ((hf l).table lpt hpt).shaped
  rw [← uvmalloc_leftover hs (hf l).sz hn h0 hu]
  refine ⟨fun h => h.free, fun h => ⟨fun q => ?_, fun q v => ?_, h⟩⟩
  · rw [Kernel.setProc_apply]
    split_ifs with hq
    · rw [hq]
    · rfl
  · rw [Kernel.setProc_apply]
    split_ifs with hq
    · rw [hq, hpt]
      obtain ⟨-, -, -, ⟨-, hpte⟩ | ⟨hr, -⟩⟩ := uvmalloc_held hs (hf l).sz hu
      · show lpt1.pte v = lpt.pte v
        rw [hpte]
      · exact absurd hr.symm h0
    · rfl

/-- **`growproc`.**  What the caller of `sbrk` gets, in each way that the call can go. -/
theorem growproc_meets {n r : ℤ} (hm : k.mem.OkAt e) (hf : k.Fine e) (hn : IsInt n) (hl : groupLeader k p = some l)
    (h : growproc k p n = .ok (r, k')) :
    (SbrkResult k l n (if r < 0 then -1 else (k.proc p).sz) k' → SbrkFits k p l n) ∧
    (k.Apart → OnePlace k l → SbrkFits k p l n → SbrkResult k l n (if r < 0 then -1 else (k.proc p).sz) k') := by
  have hok := (growproc_ok_iff hm hf hn hl).mp ⟨_, h⟩
  -- a call that does not fail returns the size that the caller knows
  have hback : ¬ GrowFails k l n → (n = 0 → ∀ x, Resized k k' l x → ∀ q, inGroup k q l = true → (k.proc q).sz = x) →
      SbrkResult k l n (if (0 : ℤ) < 0 then -1 else (k.proc p).sz) k' → SbrkFits k p l n := by
    rintro hno hz (⟨h1, -⟩ | ⟨h1, x, hx, hres⟩)
    · rw [if_neg (by omega)] at h1
      omega
    · rw [if_neg (by omega)] at h1
      refine ⟨hok, fun hg => absurd hg hno, fun _ => ⟨by omega, by omega⟩, fun h0 q hq => ?_⟩
      rw [hz h0 x hres q hq]
      omega
  have hfwd : ¬ GrowFails k l n → (0 ≤ (k.proc l).sz + n → Resized k k' l ((k.proc l).sz + n).toNat) → SbrkFits k p l n →
      SbrkResult k l n (if (0 : ℤ) < 0 then -1 else (k.proc p).sz) k' := by
    intro hno hres hfit
    obtain ⟨hsz, hnn⟩ := hfit.caller hno
    rw [if_neg (by omega), hsz]
    exact .inr ⟨rfl, _, Int.toNat_of_nonneg hnn, hres hnn⟩
  have hneg : n ≤ 0 → ¬ GrowFails k l n := fun h0 hg => by
    have := hg.1
    omega
  cases growproc_inv h with
  | zero h0 =>
    refine ⟨hback (hneg (by omega)) fun _ x hres q hq => hres.size q hq, fun _ _ hfit => hfwd (hneg (by omega)) (fun _ => ?_) hfit⟩
    rw [show ((k.proc l).sz + n).toNat = (k.proc l).sz by omega]
    exact ⟨hfit.same h0, fun q pt hq hpt => ⟨pt, hpt, fun _ _ _ => rfl, fun v en hen hne => absurd hen hne⟩⟩
  | nullGrow hl' hpos hpt hk =>
    obtain rfl := Option.some.inj (hl.symm.trans hl')
    have hfail : GrowFails k l n := ⟨hpos, fun lpt hlpt => by rw [hpt] at hlpt; cases hlpt⟩
    refine ⟨fun _ => ⟨hok, fun _ lpt hlpt => ?_, fun hno => absurd hfail hno, fun h0 => by omega⟩, fun _ _ _ => .inl ⟨if_pos (by omega), ?_⟩⟩
    · rw [hpt] at hlpt
      cases hlpt
    · exact ⟨fun _ => rfl, fun _ _ => rfl, kalloc_none hk⟩
  | nullShrink hl' hlt hpt =>
    obtain rfl := Option.some.inj (hl.symm.trans hl')
    have hu : (k.proc l).state = .unused := by
      by_contra hu
      exact ((hf l).live hu).1 hpt
    have h0 : (k.proc l).sz = 0 := ((hf l).bare hu).2.2.1
    refine ⟨fun h => ?_, fun _ _ hfit => ?_⟩
    · rcases h with ⟨h1, -⟩ | ⟨-, x, hx, -⟩
      · rw [if_neg (by omega)] at h1
        omega
      · omega
    · have := (hfit.caller (hneg (by omega))).2
      omega
  | @noMem l' lpt lpt1 m hl' hpos hpt hu =>
    obtain rfl := Option.some.inj (hl.symm.trans hl')
    rw [grow_size (hf l) hn hpos] at hu
    have hfail : GrowFails k l n := by
      refine ⟨hpos, fun x hx => ?_⟩
      obtain rfl := Option.some.inj (hpt.symm.trans hx)
      rcases uvmalloc_takes (by omega) hu with ⟨h0, -⟩ | ⟨-, hs⟩
      · omega
      · exact hs
    have hiff := noMem_untouched hf hpt (by omega) (by omega) hu
    constructor
    · rintro (⟨-, hun⟩ | ⟨h1, -⟩)
      · refine ⟨hok, fun _ x hx => ?_, fun hno => absurd hfail hno, fun h0 => by omega⟩
        obtain rfl := Option.some.inj (hpt.symm.trans hx)
        exact hiff.mp hun
      · rw [if_pos (by omega)] at h1
        omega
    · exact fun _ _ hfit => .inl ⟨if_pos (by omega), hiff.mpr (hfit.fails hfail lpt hpt)⟩
  | @grow l' lpt lpt1 m sz b k2 hl' hpos hpt hu hsz hb =>
    obtain rfl := Option.some.inj (hl.symm.trans hl')
    rw [grow_size (hf l) hn hpos] at hu
    obtain ⟨rfl, hserved⟩ : sz = (k.proc l).sz + n.toNat ∧ Takes _ k.mem m := by
      rcases uvmalloc_takes (by omega) hu with h | ⟨h0, -⟩
      · exact h
      · exact absurd h0 hsz
    have hno : ¬ GrowFails k l n := fun hg => by
      have := hg.2 lpt hpt
      rw [hserved.serves] at this
      cases this
    refine ⟨hback hno fun h0 => by omega, fun ha _ => hfwd hno fun _ => ?_⟩
    rw [show ((k.proc l).sz + n).toNat = (k.proc l).sz + n.toNat by omega]
    exact (grew ((hf l).table lpt hpt) (hf l).sz hu hsz hb).resized hf hm ha hpt hu hsz ((PtOnly.setPt k _ _ _).trans (broadcast_ptOnly hb))
      (broadcast_draws (pgroundup_mod _) hb)
  | @shrink l' lpt lpt1 m sz k2 hl' hlt hpt hu hb =>
    obtain rfl := Option.some.inj (hl.symm.trans hl')
    refine ⟨hback (hneg (by omega)) fun h0 => by omega, fun _ hone => hfwd (hneg (by omega)) fun hnn => ?_⟩
    have hT : TRAPFRAME < 2 ^ 63 := by decide
    have hTM : TRAPFRAME < MAXVA := by decide
    have hlsz := (hf l).sz
    obtain ⟨hmin, -, -⟩ := uvmdealloc_inv (by omega) hu
    rw [u64_of_nonneg hnn (by omega)] at hmin
    rw [show ((k.proc l).sz + n).toNat = sz by omega]
    exact (shrunk ((hf l).table lpt hpt).shaped hlsz hu hb).resized hf hone hpt hu ((PtOnly.setPt k _ _ _).trans (unbroadcast_ptOnly hb))
      (unbroadcast_mem hb)

/-- `sbrk(n)` does not panic, and does what it should. -/
def SbrkMeets (k : Kernel) (p : Slot) (n : ℤ) (as : List Pa) : Prop :=
  ∃ r k', step k (.syscall p (.sbrk n) as) = .ok (some r, k') ∧
    ∀ l, groupLeader k p = some l → SbrkResult (k.setAnswers as) l (int32 n) r k'

end OsLabs.Xv6
