import OsLabs.Xv6.GroupExec
import OsLabs.Xv6.StackPlace

/-!
# OsLabs.Xv6.Sbrk — growing and shrinking a thread group

`growproc` grows the leader and repeats the new pages in the other members where they are missing; it shrinks the leader and unmaps the
pages that went away in the other members, without looking whether they are there.

* `broadcast_total`, `unbroadcast_ok_iff`: when the loops over the members return.
* `growproc_ok_iff`, `sbrk_ok_iff`: when `growproc` does.
-/

namespace OsLabs.Xv6

open Fallible Lts

variable {k k' : Kernel} {p q l : Slot} {pt pt' lpt : PageTable} {m m' : Kmem} {lroot pa : Pa} {e va n : ℕ} {as : List Pa}

/-! ## The loops over the members -/

theorem broadcastStep_total {s : Bool × Kernel} (ha : va % PGSIZE = 0) (hva : va < TRAPFRAME)
    (hs : ∀ i x, (s.2.proc i).pagetable = some x → Shaped x) : ∃ s', broadcastStep l lroot va pa s q = .ok s' := by
  have hlt : va < MAXVA := lt_trans hva (by decide)
  unfold broadcastStep
  split_ifs with hin
  swap
  · exact ⟨_, rfl⟩
  split
  · exact ⟨_, rfl⟩
  rename_i pt hpt
  split_ifs with hroot
  · exact ⟨_, rfl⟩
  rw [walk_look hlt, ok_bind]
  dsimp only
  split_ifs with hfound
  · exact ⟨_, rfl⟩
  have hnone : pt.pte (va / PGSIZE) = none := by
    by_contra hpte
    have hw := (hs q pt hpt).wf
    exact hfound (by rw [hw.reaches hpte, Option.isSome_iff_ne_none.mpr hpte]; rfl)
  obtain ⟨r, hr⟩ := @mappages_total _ s.2.mem _ pa growPerm ha hlt hnone
  rw [hr, ok_bind]
  exact ⟨_, rfl⟩

/-- **The broadcast loop** always returns. -/
theorem broadcast_total : ∀ {n va : ℕ} {k : Kernel}, va % PGSIZE = 0 → (∀ i x, (k.proc i).pagetable = some x → Shaped x) →
    ∃ r, broadcast l lpt n va k = .ok r
  | 0, va, k, _, _ => ⟨_, rfl⟩
  | n + 1, va, k, ha, hs => by
    unfold broadcast
    split_ifs with hva
    · exact ⟨_, rfl⟩
    obtain ⟨⟨b, k1⟩, h1, hs1⟩ := foldlM_total (f := broadcastStep l lpt.root va ((walkaddr lpt va).getD 0)) (l := slots) (s := (true, k))
      (I := fun s => ∀ i x, (s.2.proc i).pagetable = some x → Shaped x) hs fun s q _ hI => by
        obtain ⟨s', hs'⟩ := @broadcastStep_total q l lpt.root ((walkaddr lpt va).getD 0) _ _ ha (not_le.mp hva) hI
        refine ⟨s', hs', fun i x hx => ?_⟩
        have hat := broadcastStep_inv (e := fun _ => ⟨(walkaddr lpt va).getD 0, growPerm⟩) ha (not_le.mp hva) rfl hs'
        by_cases hi : i = q
        · subst hi
          rcases hat.self with ⟨y, y', ho, heq, hR⟩ | ⟨-, heq⟩
          · rw [heq] at hx
            rw [← Option.some.inj hx]
            exact hR.shaped (hI i y ho.2.1)
          · exact hI i x (heq ▸ hx)
        · exact hI i x (hat.other i hi ▸ hx)
    rw [broadcastPage_eq, h1, ok_bind]
    obtain ⟨r, hr⟩ := broadcast_total (n := n) (add_PGSIZE_mod ha) hs1
    dsimp only at hr ⊢
    rw [hr, ok_bind]
    exact ⟨_, rfl⟩

theorem unbroadcastStep_total (ha : va % PGSIZE = 0) (hva : va < TRAPFRAME)
    (h : ∀ x, Other l lroot q (k.proc q) x → Sane e x ∧ x.pte (va / PGSIZE) ≠ none) :
    ∃ k', unbroadcastStep l lroot va k q = .ok k' ∧ ∀ c, c ≠ q → k'.proc c = k.proc c := by
  have hlt : va < MAXVA := lt_trans hva (by decide)
  suffices h : ∃ k', unbroadcastStep l lroot va k q = .ok k' by
    obtain ⟨k', hk'⟩ := h
    exact ⟨k', hk', (unbroadcastStep_inv hk').1⟩
  unfold unbroadcastStep
  split_ifs with hin
  swap
  · exact ⟨_, rfl⟩
  split
  · exact ⟨_, rfl⟩
  rename_i pt hpt
  split_ifs with hroot
  · exact ⟨_, rfl⟩
  obtain ⟨hs, hpte⟩ := h pt ⟨inGroup_iff.mp hin, hpt, hroot⟩
  rw [hs.unmap_kernel ha hlt hpte, ok_bind]
  exact ⟨_, rfl⟩

/-- **The shrink loop** returns exactly when every member that it visits maps every page that goes away. -/
theorem unbroadcast_ok_iff : ∀ {n va : ℕ} {k : Kernel}, va % PGSIZE = 0 → va / PGSIZE + n ≤ tfPage →
    (∀ i x, (k.proc i).pagetable = some x → Sane e x) →
    ((∃ k', unbroadcast l lroot n va k = .ok k') ↔
      ∀ q x v, Other l lroot q (k.proc q) x → va / PGSIZE ≤ v → v < va / PGSIZE + n → x.pte v ≠ none) := by
  intro n va k ha hn hs
  constructor
  · rintro ⟨k', h⟩ q x v ho h1 h2
    obtain ⟨hv, -⟩ := unbroadcast_unmap ha hn h
    rcases hv q with ⟨y, y', ho', -, -, hmapped⟩ | ⟨hno, -⟩
    · rw [Option.some.inj (ho.2.1.symm.trans ho'.2.1)]
      exact hmapped v h1 h2
    · exact absurd ho (hno x)
  · intro hall
    induction n generalizing va k with
    | zero => exact ⟨k, rfl⟩
    | succ n ih =>
      have hva : va < TRAPFRAME := (lt_tfPage_iff ha).mp (by omega)
      unfold unbroadcast
      rw [if_neg (by omega)]
      obtain ⟨k1, h1⟩ := foldlM_each_total Kernel.proc (f := unbroadcastStep l lroot va) (l := slots) (s := k)
        (G := fun q P => ∀ x, Other l lroot q P x → Sane e x ∧ x.pte (va / PGSIZE) ≠ none)
        (fun s q hG => unbroadcastStep_total ha hva hG) slots_nodup
        fun q _ x ho => ⟨hs q x ho.2.1, hall q x _ ho le_rfl (by omega)⟩
      rw [← unbroadcastPage_eq] at h1
      have hvisit := unbroadcastPage_visit h1
      rw [h1, ok_bind]
      refine ih (add_PGSIZE_mod ha) (by rw [add_PGSIZE_div]; omega) (fun i x hx => ?_) fun q x v ho h2 h3 => ?_
      · rcases hvisit i with ⟨y, y', ho, heq, rfl, -⟩ | ⟨-, heq⟩
        · rw [heq] at hx
          rw [← Option.some.inj hx]
          exact (hs i y ho.2.1).unmap (by omega)
        · exact hs i x (heq ▸ hx)
      · rw [add_PGSIZE_div] at h2 h3
        rcases hvisit q with ⟨y, y', ho', heq, rfl, -⟩ | ⟨hno, heq⟩
        · rw [heq] at ho
          rw [← Option.some.inj ho.2.1, PageTable.unmap_apply, if_neg (by omega)]
          exact hall q y v ho' (by omega) (by omega)
        · rw [heq] at ho
          exact absurd ho (hno x)

/-! ## growproc -/

/-- **`uvmdealloc`** returns exactly when every page that goes away is mapped. -/
theorem uvmdealloc_ok_iff {o : ℕ} (hs : Sane e pt) (hm : m.OkAt e) (ho : o ≤ TRAPFRAME) :
    (∃ r, uvmdealloc pt o n m = .ok r) ↔ n < o → ∀ v, npages n ≤ v → v < npages o → pt.pte v ≠ none := by
  have hT : TRAPFRAME < MAXVA := by decide
  have hnp := npages_le ho
  unfold uvmdealloc
  split_ifs with h1 h2
  · exact iff_of_true ⟨_, rfl⟩ fun h => by omega
  · have hiff := uvmunmap_ok_iff (n := (pgroundup o - pgroundup n) / PGSIZE) (d := true) hs hm (pgroundup_mod n) (by
      rw [pgroundup_eq, pgroundup_eq, Nat.mul_div_cancel _ PGSIZE_pos, ← Nat.sub_mul, Nat.mul_div_cancel _ PGSIZE_pos]
      rw [pgroundup_eq, pgroundup_eq] at h2
      have := Nat.lt_of_mul_lt_mul_right h2
      omega)
    rw [pgroundup_eq o, pgroundup_eq n, ← Nat.sub_mul, Nat.mul_div_cancel _ PGSIZE_pos, Nat.mul_div_cancel _ PGSIZE_pos] at hiff
    rw [pgroundup_eq o, pgroundup_eq n] at h2 ⊢
    rw [← Nat.sub_mul, Nat.mul_div_cancel _ PGSIZE_pos]
    have hlt := Nat.lt_of_mul_lt_mul_right h2
    constructor
    · rintro ⟨r, h⟩ - v h3 h4
      obtain ⟨x, hx, -⟩ := bind_ok.mp h
      exact hiff.mp ⟨x, hx⟩ v h3 (by omega)
    · intro h
      obtain ⟨x, hx⟩ := hiff.mpr fun v h3 h4 => h (by omega) v h3 (by omega)
      exact ⟨_, bind_ok.mpr ⟨x, hx, rfl⟩⟩
  · refine iff_of_true ⟨_, rfl⟩ fun _ v h3 h4 => ?_
    rw [pgroundup_eq, pgroundup_eq] at h2
    have := Nat.le_of_mul_le_mul_right (not_lt.mp h2) PGSIZE_pos
    omega

/-- The new size as a `uint64`, when it is not negative. -/
theorem u64_of_nonneg {x : ℤ} (h0 : 0 ≤ x) (h1 : x < 2 ^ 64) : u64 x = x.toNat := by
  rw [u64, Int.emod_eq_of_lt h0 h1]

/-- A size below zero wraps around, above every size. -/
theorem u64_of_neg {x : ℤ} (h0 : x < 0) (h1 : -(2 ^ 31) ≤ x) : MAXVA ≤ u64 x := by
  simp only [u64, MAXVA]
  omega

/-- The leader has no page in the way when it grows by `n`, before `kalloc` runs out. -/
def Clear (P : Proc) (lpt : PageTable) (n : ℤ) (m : Kmem) : Prop :=
  ∀ v, npages P.sz ≤ v → v < npages P.sz + addPages P.sz (P.sz + n.toNat) → lpt.pte v ≠ none →
    serves (mapNeeds (v - npages P.sz) (pgroundup P.sz) lpt.keys + 1) m = false

/-- Every page that goes away when the group of `l` shrinks by `-n` is mapped in the leader and in every member that the loop visits. -/
def Covered (k : Kernel) (l : Slot) (lpt : PageTable) (n : ℤ) : Prop :=
  ∀ v, npages ((k.proc l).sz + n).toNat ≤ v → v < npages (k.proc l).sz →
    lpt.pte v ≠ none ∧ ∀ q x, Other l lpt.root q (k.proc q) x → x.pte v ≠ none

/-- When `growproc(n)` does not panic. -/
def GrowOk (k : Kernel) (l : Slot) (n : ℤ) : Prop :=
  match (k.proc l).pagetable with
  | none => 0 < n → serves 1 k.mem = false
  | some lpt => (0 < n → Clear (k.proc l) lpt n k.mem) ∧ (n < 0 → 0 ≤ (k.proc l).sz + n → Covered k l lpt n)

theorem groupLeader_some (hf : (k.proc p).Fine e) : ∃ l, groupLeader k p = some l := by
  unfold groupLeader
  split_ifs with ht
  · exact Option.ne_none_iff_exists'.mp (hf.father ht)
  · exact ⟨p, rfl⟩

/-- The tables after the leader got another one. -/
theorem setLeader_tables {lpt1 : PageTable} {R : PageTable → Prop} (hk : ∀ i x, (k.proc i).pagetable = some x → R x) (h1 : R lpt1) :
    ∀ i x, (((k.setMem m).setProc l { k.proc l with pagetable := some lpt1 }).proc i).pagetable = some x → R x := by
  intro i x hx
  rw [Kernel.setProc_apply] at hx
  split_ifs at hx
  · rw [← Option.some.inj hx]
    exact h1
  · exact hk i x hx

/-- The leader with its own root is not visited, whatever its table. -/
theorem other_setLeader {lpt1 : PageTable} {x : PageTable} (hroot : lpt1.root = lpt.root) (hpt : (k.proc l).pagetable = some lpt) :
    Other l lpt.root q (((k.setMem m).setProc l { k.proc l with pagetable := some lpt1 }).proc q) x ↔ Other l lpt.root q (k.proc q) x := by
  by_cases hq : q = l
  · subst hq
    rw [Kernel.setProc_self]
    refine iff_of_false (fun h => h.2.2 ?_) fun h => h.2.2 ?_
    · rw [← Option.some.inj h.2.1, hroot]
    · rw [← Option.some.inj (hpt.symm.trans h.2.1)]
  · rw [Kernel.setProc_of_ne _ _ hq, Kernel.setMem_proc]

/-- **Growing.** -/
theorem grow_ok_iff {n : ℤ} (hm : k.mem.OkAt e) (hf : k.Fine e) (hn : IsInt n) (hl : groupLeader k p = some l)
    (hpt : (k.proc l).pagetable = some lpt) (hpos : 0 < n) : (∃ r, growproc k p n = .ok r) ↔ Clear (k.proc l) lpt n k.mem := by
  have hT : TRAPFRAME < 2 ^ 63 := by decide
  have hs := (hf l).table lpt hpt
  have hlsz := (hf l).sz
  have hu : u64 ((k.proc l).sz + n) = (k.proc l).sz + n.toNat := by
    unfold IsInt at hn
    rw [u64_of_nonneg (by omega) (by omega)]
    omega
  have hal := @uvmalloc_ok_iff _ _ ((k.proc l).sz + n.toNat) _ _ true false hs hm hlsz
  unfold growproc
  rw [hl]
  dsimp only
  rw [if_neg (by omega), hpt]
  dsimp only
  rw [if_pos hpos, hu]
  constructor
  · rintro ⟨r, h⟩
    obtain ⟨x, hx, -⟩ := bind_ok.mp h
    exact hal.mp ⟨x, hx⟩ (by omega)
  · intro h
    obtain ⟨⟨sz, lpt1, m1⟩, hx⟩ := hal.mpr fun _ => h
    rw [hx, ok_bind]
    dsimp only
    split_ifs
    · exact ⟨_, rfl⟩
    · have hsh := setLeader_tables (m := m1) (l := l) (fun i x hx => ((hf i).table x hx).shaped) (uvmalloc_sane hs hm hlsz hx).shaped
      obtain ⟨r, hr⟩ := @broadcast_total l lpt1 ((sz - pgroundup (k.proc l).sz + (PGSIZE - 1)) / PGSIZE) _ _ (pgroundup_mod _) hsh
      rw [hr, ok_bind]
      exact ⟨_, rfl⟩

/-- **Shrinking.** -/
theorem shrink_ok_iff {n : ℤ} (hm : k.mem.OkAt e) (hf : k.Fine e) (hn : IsInt n) (hl : groupLeader k p = some l)
    (hpt : (k.proc l).pagetable = some lpt) (hneg : n < 0) :
    (∃ r, growproc k p n = .ok r) ↔ (0 ≤ (k.proc l).sz + n → Covered k l lpt n) := by
  have hT : TRAPFRAME < 2 ^ 63 := by decide
  have hTM : TRAPFRAME < MAXVA := by decide
  have hs := (hf l).table lpt hpt
  have hlsz := (hf l).sz
  unfold growproc
  rw [hl]
  dsimp only
  rw [if_neg (by omega), hpt]
  dsimp only
  rw [if_neg (by omega)]
  by_cases hwrap : (k.proc l).sz + n < 0
  · -- the size wraps around: nothing happens
    have hge := u64_of_neg hwrap (by unfold IsInt at hn; omega)
    unfold uvmdealloc
    rw [if_pos (by omega), ok_bind]
    dsimp only
    rw [Nat.sub_self, Nat.zero_div]
    exact iff_of_true ⟨_, rfl⟩ fun h => by omega
  have hu : u64 ((k.proc l).sz + n) = ((k.proc l).sz + n).toNat := u64_of_nonneg (by omega) (by omega)
  have hde := uvmdealloc_ok_iff (n := ((k.proc l).sz + n).toNat) hs hm hlsz
  have hnp : npages ((k.proc l).sz + n).toNat ≤ npages (k.proc l).sz := npages_mono (by omega) (by omega)
  have hnp' := npages_le hlsz
  rw [hu]
  have hloop : ∀ {sz : ℕ} {lpt1 : PageTable} {m1 : Kmem}, uvmdealloc lpt (k.proc l).sz ((k.proc l).sz + n).toNat k.mem = .ok (sz, lpt1, m1) →
      ((∃ k', unbroadcast l lpt1.root ((pgroundup (k.proc l).sz - pgroundup sz) / PGSIZE) (pgroundup sz)
        ((k.setMem m1).setProc l { k.proc l with pagetable := some lpt1 }) = .ok k') ↔
      ∀ q x v, Other l lpt.root q (k.proc q) x → npages ((k.proc l).sz + n).toNat ≤ v → v < npages (k.proc l).sz → x.pte v ≠ none) := by
    intro sz lpt1 m1 hx
    obtain ⟨hsz, hlpt1, -⟩ := uvmdealloc_inv (by omega) hx
    obtain rfl : sz = ((k.proc l).sz + n).toNat := by omega
    have hroot : lpt1.root = lpt.root := by rw [hlpt1]; rfl
    have hcount : (pgroundup (k.proc l).sz - pgroundup ((k.proc l).sz + n).toNat) / PGSIZE =
        npages (k.proc l).sz - npages ((k.proc l).sz + n).toNat := by
      rw [pgroundup_eq, pgroundup_eq, ← Nat.sub_mul, Nat.mul_div_cancel _ PGSIZE_pos]
    have hs1 : Sane e lpt1 := by
      rw [hlpt1]
      exact hs.unmap (by omega)
    rw [hcount, unbroadcast_ok_iff (pgroundup_mod _) (by rw [pgroundup_div]; omega)
      (setLeader_tables (fun i x hx => (hf i).table x hx) hs1), pgroundup_div, hroot]
    constructor
    · intro h q x v ho h1 h2
      exact h q x v ((other_setLeader hroot hpt).mpr ho) h1 (by omega)
    · intro h q x v ho h1 h2
      exact h q x v ((other_setLeader hroot hpt).mp ho) h1 (by omega)
  constructor
  · rintro ⟨r, h⟩ -
    obtain ⟨⟨sz, lpt1, m1⟩, hx, h⟩ := bind_ok.mp h
    obtain ⟨k2, hb, -⟩ := bind_ok.mp h
    intro v h1 h2
    exact ⟨hde.mp ⟨_, hx⟩ (by omega) v h1 h2, fun q x ho => (hloop hx).mp ⟨k2, hb⟩ q x v ho h1 h2⟩
  · intro h
    have hcov := h (by omega)
    obtain ⟨⟨sz, lpt1, m1⟩, hx⟩ := hde.mpr fun _ v h1 h2 => (hcov v h1 h2).1
    obtain ⟨k2, hb⟩ := (hloop hx).mpr fun q x v ho h1 h2 => (hcov v h1 h2).2 q x ho
    exact ⟨_, bind_ok.mpr ⟨_, hx, bind_ok.mpr ⟨k2, hb, rfl⟩⟩⟩

/-- **`growproc`** returns exactly when `GrowOk`. -/
theorem growproc_ok_iff {n : ℤ} (hm : k.mem.OkAt e) (hf : k.Fine e) (hn : IsInt n) (hl : groupLeader k p = some l) :
    (∃ r, growproc k p n = .ok r) ↔ GrowOk k l n := by
  unfold GrowOk
  cases hpt : (k.proc l).pagetable with
  | none =>
    unfold growproc
    rw [hl]
    dsimp only
    rw [hpt]
    dsimp only
    split_ifs with h0 hpos
    · exact iff_of_true ⟨_, rfl⟩ fun h => by omega
    · rcases hk : kalloc k.mem with ⟨_ | pa, m1⟩
      · exact iff_of_true ⟨_, rfl⟩ fun _ => serves_none hk
      · refine iff_of_false (fun ⟨r, h⟩ => by cases h) fun h => ?_
        have hno := h hpos
        rw [serves_some hk] at hno
        cases hno
    · exact iff_of_true ⟨_, rfl⟩ fun h => absurd h hpos
  | some lpt =>
    dsimp only
    rcases lt_trichotomy n 0 with hneg | h0 | hpos
    · rw [shrink_ok_iff hm hf hn hl hpt hneg]
      exact ⟨fun h => ⟨fun h' => by omega, fun _ => h⟩, fun h => h.2 hneg⟩
    · refine iff_of_true ⟨(0, k), ?_⟩ ⟨fun h => by omega, fun h => by omega⟩
      unfold growproc
      rw [hl]
      dsimp only
      rw [if_pos h0]
    · rw [grow_ok_iff hm hf hn hl hpt hpos]
      exact ⟨fun h => ⟨fun _ => h, fun h' => by omega⟩, fun h => h.1 hpos⟩

/-- **`sbrk`** panics exactly when `growproc` comes to a page in the way, or to a page that is missing. -/
theorem sbrk_ok_iff {n : ℤ} (hr : Reach Step always Boot k) (hk : (k.proc p).killed = false) :
    (∃ r, step k (.syscall p (.sbrk n) as) = .ok r) ↔ ∀ l, groupLeader k p = some l → GrowOk (k.setAnswers as) l (int32 n) := by
  obtain ⟨e, hm, hf⟩ := fine_reach hr
  have hm' : (k.setAnswers as).mem.OkAt e := hm
  have hf' : (k.setAnswers as).Fine e := hf
  obtain ⟨l, hl⟩ := groupLeader_some (hf p)
  have hl' : groupLeader (k.setAnswers as) p = some l := hl
  have hiff := growproc_ok_iff hm' hf' (isInt_int32 n) hl'
  rw [step_syscall hk]
  constructor
  · rintro ⟨r, h⟩ l' hl2
    obtain ⟨x, hx, -⟩ := bind_ok.mp h
    obtain ⟨y, hy, -⟩ := bind_ok.mp hx
    rw [← Option.some.inj (hl.symm.trans hl2)]
    exact hiff.mp ⟨y, hy⟩
  · intro h
    obtain ⟨y, hy⟩ := hiff.mpr (h l hl)
    exact ⟨_, bind_ok.mpr ⟨_, bind_ok.mpr ⟨y, hy, rfl⟩, rfl⟩⟩

theorem sbrk_ok_iff_small : ∃ k, Reach Step always Boot k ∧ (k.proc 0).killed = false ∧
    ((∃ r, step k (.syscall 0 (.sbrk 4096) (pages 50 10)) = .ok r) ↔
      ∀ l, groupLeader k 0 = some l → GrowOk (k.setAnswers (pages 50 10)) l (int32 4096)) := by
  obtain ⟨hreach, hk⟩ := endOf_reach small_boot startInit (fun k => (k.proc 0).killed = false) (by decide +kernel)
  exact ⟨_, hreach, hk, sbrk_ok_iff hreach hk⟩

/-- The first process gives up its guard page and its stack; the thread has no guard page to unmap. -/
theorem group_shrink_panics : ¬ ∀ (k : Kernel) (p : Slot) (n : ℤ) (as : List Pa), Reach Step always Boot k → (k.proc p).state = .running →
    (k.proc p).frame = .user → (k.proc p).killed = false → ∃ r, step k (.syscall p (.sbrk n) as) = .ok r := by
  intro hall
  obtain ⟨hreach, hp, hfr, hk, hs⟩ := endOf_reach small_boot runThread
    (fun k => (k.proc 0).state = .running ∧ (k.proc 0).frame.tag = .user ∧ (k.proc 0).killed = false ∧
      (step k (.syscall 0 (.sbrk (-8192)) [])).isOk = false) (by decide +kernel)
  obtain ⟨r, hr⟩ := hall _ 0 (-8192) [] hreach hp (Frame.tag_user hfr) hk
  rw [hr] at hs
  cases hs

end OsLabs.Xv6
