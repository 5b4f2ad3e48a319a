import OsLabs.Tally
import OsLabs.Xv6.Held

/-!
# OsLabs.Xv6.Broadcast — how `growproc` repeats a change of the leader in the other members

`growproc` changes the page table of the leader and then visits every other member, page by page.  The loops are described slot by slot:
which slots they visit, and what they do to the page table there.

* `Other`: the slots that the loops visit.
* `Spread`, `broadcast_spread`: new pages of the leader in the table of another member.
* `unbroadcast_unmap`: pages of the leader that went away.
-/

namespace OsLabs.Xv6

open Fallible Tally

variable {k k' : Kernel} {l q : Slot} {lroot : Pa} {pt pt' : PageTable} {va a n : ℕ} {m m' : Kmem}

/-- The loops of `growproc` visit slot `q` with the record `P` and its page table `pt`. -/
def Other (l : Slot) (lroot : Pa) (q : Slot) (P : Proc) (pt : PageTable) : Prop :=
  (q = l ∨ P.isThread = true ∧ P.father = some l) ∧ P.pagetable = some pt ∧ pt.root ≠ lroot

theorem inGroup_iff : inGroup k q l = true ↔ q = l ∨ (k.proc q).isThread = true ∧ (k.proc q).father = some l := by
  simp [inGroup]

/-- A slot that is visited, with the page table it had and what happens to the slot; or it stays as it is. -/
def Visit (R : PageTable → PageTable → Prop) (l : Slot) (lroot : Pa) (q : Slot) (P P' : Proc) : Prop :=
  (∃ pt pt', Other l lroot q P pt ∧ P' = { P with pagetable := some pt' } ∧ R pt pt') ∨
    ((∀ pt, ¬ Other l lroot q P pt) ∧ P' = P)

theorem Visit.mono {R S : PageTable → PageTable → Prop} {P P' : Proc} (h : Visit R l lroot q P P')
    (hRS : ∀ x y, R x y → S x y) : Visit S l lroot q P P' := by
  rcases h with ⟨pt, pt', ho, rfl, hR⟩ | h
  · exact .inl ⟨pt, pt', ho, rfl, hRS pt pt' hR⟩
  · exact .inr h

/-- Two visits, one after the other, when the first one keeps the root. -/
theorem Visit.trans {R S : PageTable → PageTable → Prop} {P P' P'' : Proc} (h1 : Visit R l lroot q P P')
    (h2 : Visit S l lroot q P' P'') (hroot : ∀ x y, R x y → y.root = x.root) :
    Visit (fun x z => ∃ y, R x y ∧ S y z) l lroot q P P'' := by
  rcases h1 with ⟨pt, pt1, ho, rfl, hR⟩ | ⟨hno, rfl⟩
  · rcases h2 with ⟨pt2, pt3, ho2, rfl, hS⟩ | ⟨hno, -⟩
    · obtain rfl := Option.some.inj ho2.2.1
      exact .inl ⟨pt, pt3, ho, rfl, pt1, hR, hS⟩
    · exact absurd ⟨ho.1, rfl, hroot pt pt1 hR ▸ ho.2.2⟩ (hno pt1)
  · rcases h2 with ⟨pt2, pt3, ho2, -, -⟩ | ⟨-, rfl⟩
    · exact absurd ho2 (hno pt2)
    · exact .inr ⟨hno, rfl⟩

/-- How often `x` is a page of a table that may be missing. -/
def tabOf (pt : Option PageTable) (x : Pa) : ℕ := pt.elim 0 fun pt => pt.tab x

@[simp] theorem tabOf_none (x : Pa) : tabOf none x = 0 := rfl

@[simp] theorem tabOf_some (pt : PageTable) (x : Pa) : tabOf (some pt) x = pt.tab x := rfl

/-- How often `x` is free or a page of some table. -/
def Kernel.tabs (k : Kernel) (x : Pa) : ℕ := k.mem.free x + ∑ q, tabOf (k.proc q).pagetable x

/-- One page table and the free list change. -/
theorem Kernel.tabs_setPt {P : Proc} (hpt : (k.proc q).pagetable = some pt) (hP : P.pagetable = some pt') (x : Pa)
    (h : m.free x + pt'.tab x = k.mem.free x + pt.tab x) : ((k.setMem m).setProc q P).tabs x = k.tabs x := by
  have hsum := sum_write (f := fun q => tabOf (k.proc q).pagetable x)
    (g := fun j => tabOf (((k.setMem m).setProc q P).proc j).pagetable x) (i := q)
    fun j hj => by rw [Kernel.setProc_of_ne _ _ hj, Kernel.setMem_proc]
  rw [Kernel.setProc_self, hpt, hP, tabOf_some, tabOf_some] at hsum
  unfold Kernel.tabs
  rw [Kernel.setProc_mem, Kernel.setMem_mem]
  omega

theorem slots_nodup : slots.Nodup := List.nodup_finRange _

theorem mem_slots (q : Slot) : q ∈ slots := List.mem_finRange q

/-! ## New pages -/

/-- New entries `e` at some of the `n` page numbers from `a` on, where there was none; at all of them when `full`. -/
structure Spread (e : ℕ → Pte) (a n : ℕ) (full : Prop) (pt pt' : PageTable) : Prop where
  root : pt'.root = pt.root
  shaped : Shaped pt → Shaped pt'
  pte : ∀ v, pt'.pte v = pt.pte v ∨ a ≤ v ∧ v < a + n ∧ pt.pte v = none ∧ pt'.pte v = some (e v)
  mapped : full → ∀ v, a ≤ v → v < a + n → pt'.pte v ≠ none

namespace Spread

variable {e : ℕ → Pte} {f g : Prop}

theorem refl (h : f → ∀ v, a ≤ v → v < a + n → pt.pte v ≠ none) : Spread e a n f pt pt :=
  ⟨rfl, id, fun _ => .inl rfl, h⟩

theorem mono (h : Spread e a n f pt pt') (hfg : g → f) : Spread e a n g pt pt' :=
  ⟨h.root, h.shaped, h.pte, fun hg => h.mapped (hfg hg)⟩

/-- What was mapped stays. -/
theorem keeps (h : Spread e a n f pt pt') {v : ℕ} {x : Pte} (hv : pt.pte v = some x) : pt'.pte v = some x := by
  rcases h.pte v with heq | ⟨-, -, hnone, -⟩
  · rw [heq, hv]
  · rw [hv] at hnone
    cases hnone

/-- The first page, then the rest. -/
theorem cons {pt1 : PageTable} (h1 : Spread e a 1 f pt pt1) (h2 : Spread e (a + 1) n g pt1 pt') :
    Spread e a (n + 1) (f ∧ g) pt pt' := by
  refine ⟨h2.root.trans h1.root, fun h => h2.shaped (h1.shaped h), fun v => ?_, fun hfg v hv hv' => ?_⟩
  · rcases h2.pte v with heq | ⟨ha, hb, hnone, hnew⟩
    · rw [heq]
      rcases h1.pte v with h | ⟨ha, hb, hnone, hnew⟩
      · exact .inl h
      · exact .inr ⟨ha, by omega, hnone, hnew⟩
    · rcases h1.pte v with h | ⟨_, hb', -, hnew'⟩
      · exact .inr ⟨by omega, by omega, h ▸ hnone, hnew⟩
      · omega
  · by_cases hva : v = a
    · obtain ⟨x, hx⟩ := Option.ne_none_iff_exists'.mp (h1.mapped hfg.1 v hv (by omega))
      rw [h2.keeps hx]
      simp
    · exact h2.mapped hfg.2 v (by omega) (by omega)

end Spread

/-- The permissions of the pages that `growproc` maps. -/
def growPerm : Perm := ⟨true, true, false, true⟩

/-- What `broadcastPage` does at one slot. -/
def broadcastStep (l : Slot) (lroot : Pa) (va : ℕ) (pa : Pa) (s : Bool × Kernel) (q : Slot) : Except Panic (Bool × Kernel) :=
  if inGroup s.2 q l then
    match (s.2.proc q).pagetable with
    | none => .ok s
    | some pt =>
      if pt.root = lroot then .ok s
      else do
        let (found, _, _) ← walk pt va false s.2.mem
        if found && (pt.pte (va / PGSIZE)).isSome then .ok s
        else do
          let (ok, pt, m) ← mappages pt va PGSIZE pa growPerm s.2.mem
          .ok (s.1 && ok, (s.2.setMem m).setProc q { s.2.proc q with pagetable := some pt })
  else .ok s

theorem broadcastPage_eq (l : Slot) (lroot : Pa) (va : ℕ) (pa : Pa) (k : Kernel) :
    broadcastPage l lroot va pa k = slots.foldlM (broadcastStep l lroot va pa) (true, k) := rfl

/-- The step at slot `q` changes that slot only. -/
structure StepAt (e : ℕ → Pte) (l : Slot) (lroot : Pa) (a : ℕ) (q : Slot) (s s' : Bool × Kernel) : Prop where
  other : ∀ j, j ≠ q → s'.2.proc j = s.2.proc j
  self : Visit (Spread e a 1 (s'.1 = true)) l lroot q (s.2.proc q) (s'.2.proc q)
  flag : s'.1 = true → s.1 = true
  tabs : ∀ x, s'.2.tabs x = s.2.tabs x

/-- A slot that is not visited. -/
theorem StepAt.skip {e : ℕ → Pte} {s : Bool × Kernel} (h : ∀ pt, ¬ Other l lroot q (s.2.proc q) pt) :
    StepAt e l lroot a q s s := ⟨fun _ _ => rfl, .inr ⟨h, rfl⟩, id, fun _ => rfl⟩

theorem broadcastStep_inv {pa : Pa} {e : ℕ → Pte} {s s' : Bool × Kernel} (ha : va % PGSIZE = 0) (hva : va < TRAPFRAME)
    (he : e (va / PGSIZE) = ⟨pa, growPerm⟩) (h : broadcastStep l lroot va pa s q = .ok s') :
    StepAt e l lroot (va / PGSIZE) q s s' := by
  have hv : va / PGSIZE < tfPage := (lt_tfPage_iff ha).mpr hva
  unfold broadcastStep at h
  split_ifs at h with hin
  swap
  · obtain rfl := Except.ok.inj h
    exact .skip fun pt ho => hin (inGroup_iff.mpr ho.1)
  rw [inGroup_iff] at hin
  split at h
  · rename_i hpt
    obtain rfl := Except.ok.inj h
    exact .skip fun pt ho => absurd (hpt.symm.trans ho.2.1) (by simp)
  rename_i pt hpt
  split_ifs at h with hroot
  · obtain rfl := Except.ok.inj h
    refine .skip fun pt1 ho => ho.2.2 ?_
    rw [← Option.some.inj (hpt.symm.trans ho.2.1)]
    exact hroot
  have ho : Other l lroot q (s.2.proc q) pt := ⟨hin, hpt, hroot⟩
  rw [bind_ok] at h
  obtain ⟨⟨found, pt0, m0⟩, hw, h⟩ := h
  dsimp only at h
  split_ifs at h with hf
  · -- mapped already
    obtain rfl := Except.ok.inj h
    refine ⟨fun _ _ => rfl, .inl ⟨pt, pt, ho, ?_, .refl fun _ v h1 h2 => ?_⟩, id, fun _ => rfl⟩
    · rw [← hpt]
    · rw [show v = va / PGSIZE by omega]
      rw [Bool.and_eq_true, Option.isSome_iff_ne_none] at hf
      exact hf.2
  rw [bind_ok] at h
  obtain ⟨⟨ok, pt1, m1⟩, hm, h⟩ := h
  obtain rfl := Except.ok.inj h
  obtain ⟨-, pt2, hg, hcase⟩ := mappages_inv ha hm
  refine ⟨fun j hj => Kernel.setProc_of_ne _ _ hj, .inl ⟨pt, pt1, ho, Kernel.setProc_self _ _ _, ?_⟩, fun hb => ?_, fun x => ?_⟩
  · rcases hcase with ⟨rfl, rfl⟩ | ⟨rfl, hnone, hr, rfl⟩
    · exact ⟨hg.root, fun h => h.grows hg, fun v => .inl (by rw [hg.pte]), fun hb => by simp at hb⟩
    · refine ⟨hg.root, fun h => (h.grows hg).setPte hr hv, fun v => ?_, fun _ v h1 h2 => ?_⟩
      · by_cases hva' : v = va / PGSIZE
        · subst hva'
          exact .inr ⟨le_rfl, by omega, hnone, by rw [PageTable.setPte_self, he]⟩
        · rw [PageTable.setPte_of_ne _ _ hva', hg.pte]
          exact .inl rfl
      · rw [show v = va / PGSIZE by omega, PageTable.setPte_self]
        simp
  · rw [Bool.and_eq_true] at hb
    exact hb.1
  · refine Kernel.tabs_setPt hpt rfl x ?_
    rcases hcase with ⟨-, rfl⟩ | ⟨-, -, -, rfl⟩
    · exact hg.pages x
    · rw [PageTable.setPte_tab]
      exact hg.pages x

/-- One page of the broadcast. -/
theorem broadcastPage_spread {pa : Pa} {b : Bool} {e : ℕ → Pte} (ha : va % PGSIZE = 0) (hva : va < TRAPFRAME)
    (he : e (va / PGSIZE) = ⟨pa, growPerm⟩) (h : broadcastPage l lroot va pa k = .ok (b, k')) :
    (∀ q, Visit (Spread e (va / PGSIZE) 1 (b = true)) l lroot q (k.proc q) (k'.proc q)) ∧ ∀ x, k'.tabs x = k.tabs x := by
  rw [broadcastPage_eq] at h
  have hstep : ∀ s q s', broadcastStep l lroot va pa s q = .ok s' → StepAt e l lroot (va / PGSIZE) q s s' :=
    fun s q s' hs => broadcastStep_inv ha hva he hs
  constructor
  · obtain ⟨-, hall⟩ := foldlM_each (fun s : Bool × Kernel => s.2.proc)
      (R := fun s q P P' => Visit (Spread e (va / PGSIZE) 1 (s.1 = true)) l lroot q P P')
      (fun s q s' hs => ⟨(hstep s q s' hs).other, (hstep s q s' hs).self⟩)
      (fun s q s' c P P' hs hR => hR.mono fun x y hxy => hxy.mono (hstep s q s' hs).flag) slots_nodup h
    exact fun q => hall q (mem_slots q)
  · intro x
    have hinv := foldlM_inv (I := fun s : Bool × Kernel => s.2.tabs x = k.tabs x)
      (fun s q s' hs hf => ((hstep s q s' hf).tabs x).trans hs) (s := (true, k)) rfl h
    exact hinv

/-- **The broadcast loop.**  `e` are the entries of the leader's new pages. -/
theorem broadcast_spread {lpt : PageTable} {e : ℕ → Pte} : ∀ {n va : ℕ} {k k' : Kernel} {b : Bool}, va % PGSIZE = 0 →
    va / PGSIZE + n ≤ tfPage →
    (∀ v, va / PGSIZE ≤ v → v < va / PGSIZE + n → e v = ⟨(walkaddr lpt (v * PGSIZE)).getD 0, growPerm⟩) →
    broadcast l lpt n va k = .ok (b, k') →
    (∀ q, Visit (Spread e (va / PGSIZE) n (b = true)) l lpt.root q (k.proc q) (k'.proc q)) ∧ ∀ x, k'.tabs x = k.tabs x
  | 0, va, k, k', b, _, _, _, h => by
    simp only [broadcast, Except.ok.injEq, Prod.mk.injEq] at h
    obtain ⟨rfl, rfl⟩ := h
    refine ⟨fun q => ?_, fun _ => rfl⟩
    by_cases ho : ∃ pt, Other l lpt.root q (k.proc q) pt
    · obtain ⟨pt, ho⟩ := ho
      exact .inl ⟨pt, pt, ho, by rw [← ho.2.1], .refl fun _ v h1 h2 => by omega⟩
    · exact .inr ⟨fun pt h => ho ⟨pt, h⟩, rfl⟩
  | n + 1, va, k, k', b, ha, hn, he, h => by
    have hva : va < TRAPFRAME := (lt_tfPage_iff ha).mp (by omega)
    have hdiv : va / PGSIZE * PGSIZE = va := Nat.div_mul_cancel (Nat.dvd_of_mod_eq_zero ha)
    unfold broadcast at h
    rw [if_neg (by omega)] at h
    simp only [bind_ok] at h
    obtain ⟨⟨b1, k1⟩, h1, ⟨b2, k2⟩, h2, h⟩ := h
    obtain ⟨rfl, rfl⟩ := Prod.mk.inj (Except.ok.inj h)
    have he1 : e (va / PGSIZE) = ⟨(walkaddr lpt va).getD 0, growPerm⟩ := by
      have := he (va / PGSIZE) le_rfl (by omega)
      rwa [hdiv] at this
    obtain ⟨hv1, ht1⟩ := broadcastPage_spread ha hva he1 h1
    obtain ⟨hv2, ht2⟩ := broadcast_spread (e := e) (add_PGSIZE_mod ha) (by rw [add_PGSIZE_div]; omega)
      (fun v hv hv' => he v (by rw [add_PGSIZE_div] at hv; omega) (by rw [add_PGSIZE_div] at hv'; omega)) h2
    rw [add_PGSIZE_div] at hv2
    refine ⟨fun q => ((hv1 q).trans (hv2 q) fun x y hxy => hxy.root).mono ?_, fun x => (ht2 x).trans (ht1 x)⟩
    rintro x z ⟨y, hxy, hyz⟩
    exact (hxy.cons hyz).mono fun hb => by simpa using hb

/-! ## Pages that go away -/

/-- What `unbroadcastPage` does at one slot. -/
def unbroadcastStep (l : Slot) (lroot : Pa) (va : ℕ) (k : Kernel) (q : Slot) : Except Panic Kernel :=
  if inGroup k q l then
    match (k.proc q).pagetable with
    | none => .ok k
    | some pt =>
      if pt.root = lroot then .ok k
      else do
        let (pt, m) ← uvmunmap pt va 1 false k.mem
        .ok ((k.setMem m).setProc q { k.proc q with pagetable := some pt })
  else .ok k

theorem unbroadcastPage_eq (l : Slot) (lroot : Pa) (va : ℕ) (k : Kernel) :
    unbroadcastPage l lroot va k = slots.foldlM (unbroadcastStep l lroot va) k := rfl

theorem unbroadcastStep_inv (h : unbroadcastStep l lroot va k q = .ok k') :
    (∀ j, j ≠ q → k'.proc j = k.proc j) ∧
    Visit (fun pt pt' => pt' = pt.unmap (va / PGSIZE) 1 ∧ pt.pte (va / PGSIZE) ≠ none) l lroot q (k.proc q) (k'.proc q) ∧
    k'.mem.free = k.mem.free := by
  unfold unbroadcastStep at h
  split_ifs at h with hin
  swap
  · obtain rfl := Except.ok.inj h
    exact ⟨fun _ _ => rfl, .inr ⟨fun pt ho => hin (inGroup_iff.mpr ho.1), rfl⟩, rfl⟩
  rw [inGroup_iff] at hin
  split at h
  · rename_i hpt
    obtain rfl := Except.ok.inj h
    exact ⟨fun _ _ => rfl, .inr ⟨fun pt ho => absurd (hpt.symm.trans ho.2.1) (by simp), rfl⟩, rfl⟩
  rename_i pt hpt
  split_ifs at h with hroot
  · obtain rfl := Except.ok.inj h
    refine ⟨fun _ _ => rfl, .inr ⟨fun pt1 ho => ho.2.2 ?_, rfl⟩, rfl⟩
    rw [← Option.some.inj (hpt.symm.trans ho.2.1)]
    exact hroot
  rw [bind_ok] at h
  obtain ⟨⟨pt1, m1⟩, hu, h⟩ := h
  obtain rfl := Except.ok.inj h
  obtain ⟨-, rfl, hfree, hsome⟩ := uvmunmap_inv hu
  refine ⟨fun j hj => Kernel.setProc_of_ne _ _ hj, .inl ⟨pt, _, ⟨hin, hpt, hroot⟩, Kernel.setProc_self _ _ _, rfl, ?_⟩,
    funext fun x => by simpa using hfree x⟩
  exact hsome _ le_rfl (by omega)

/-- One page of the shrink loop. -/
theorem unbroadcastPage_visit (h : unbroadcastPage l lroot va k = .ok k') (q : Slot) :
    Visit (fun pt pt' => pt' = pt.unmap (va / PGSIZE) 1 ∧ pt.pte (va / PGSIZE) ≠ none) l lroot q (k.proc q) (k'.proc q) := by
  rw [unbroadcastPage_eq] at h
  obtain ⟨-, hv⟩ := foldlM_each Kernel.proc
    (R := fun _ q P P' => Visit (fun pt pt' => pt' = pt.unmap (va / PGSIZE) 1 ∧ pt.pte (va / PGSIZE) ≠ none) l lroot q P P')
    (fun s q s' hs => ⟨(unbroadcastStep_inv hs).1, (unbroadcastStep_inv hs).2.1⟩) (fun _ _ _ _ _ _ _ hR => hR) slots_nodup h
  exact hv q (mem_slots q)

/-- **The shrink loop** unmaps the pages in every other member, where all of them were mapped. -/
theorem unbroadcast_unmap : ∀ {n va : ℕ} {k k' : Kernel}, va % PGSIZE = 0 → va / PGSIZE + n ≤ tfPage →
    unbroadcast l lroot n va k = .ok k' →
    (∀ q, Visit (fun pt pt' => pt' = pt.unmap (va / PGSIZE) n ∧ ∀ v, va / PGSIZE ≤ v → v < va / PGSIZE + n → pt.pte v ≠ none)
      l lroot q (k.proc q) (k'.proc q)) ∧ k'.mem.free = k.mem.free
  | 0, va, k, k', _, _, h => by
    obtain rfl := Except.ok.inj h
    refine ⟨fun q => ?_, rfl⟩
    by_cases ho : ∃ pt, Other l lroot q (k.proc q) pt
    · obtain ⟨pt, ho⟩ := ho
      exact .inl ⟨pt, pt, ho, by rw [← ho.2.1], (PageTable.unmap_zero _ _).symm, fun v h1 h2 => by omega⟩
    · exact .inr ⟨fun pt h => ho ⟨pt, h⟩, rfl⟩
  | n + 1, va, k, k', ha, hn, h => by
    have hva : va < TRAPFRAME := (lt_tfPage_iff ha).mp (by omega)
    unfold unbroadcast at h
    rw [if_neg (by omega), bind_ok] at h
    obtain ⟨k1, h1, h2⟩ := h
    obtain ⟨hv2, hf2⟩ := unbroadcast_unmap (add_PGSIZE_mod ha) (by rw [add_PGSIZE_div]; omega) h2
    have hv1 := unbroadcastPage_visit h1
    rw [unbroadcastPage_eq] at h1
    have hf1 : k1.mem.free = k.mem.free :=
      foldlM_inv (I := fun s : Kernel => s.mem.free = k.mem.free)
        (fun s q s' hs hf => (unbroadcastStep_inv hf).2.2.trans hs) rfl h1
    refine ⟨fun q => ((hv1 q).trans (hv2 q) ?_).mono ?_, hf2.trans hf1⟩
    · rintro x y ⟨rfl, -⟩
      rfl
    · rintro x z ⟨y, ⟨rfl, hx⟩, rfl, hy⟩
      rw [add_PGSIZE_div] at hy ⊢
      refine ⟨by rw [PageTable.unmap_one, PageTable.unmap_succ], fun v h1 h2 => ?_⟩
      by_cases hv : v = va / PGSIZE
      · rw [hv]
        exact hx
      · have := hy v (by omega) (by omega)
        rwa [PageTable.unmap_apply, if_neg (by omega)] at this

end OsLabs.Xv6
