import OsLabs.Xv6.ThreadLife
import OsLabs.Xv6.Killed

/-!
# OsLabs.Xv6.SameSpace — one address space for a thread group

`thread_create` copies the entries of the leader's page table and `growproc` repeats what happens to it in every other member; nothing
looks at whether that worked.

* `tableNeeds`, `visitNeeds`: the page-table pages that the broadcast of `growproc` asks for; `broadcast_served`: when `kalloc` has them, it
  maps every page in every member.
* `SameSpace k l`: the members of the group of `l` see the same memory, but for the stacks of the threads.
* `InStep P L`: the same of the thread `P` and its leader `L`, as the steps keep it; `GrowRes.inStep`, `NewThread.inStep`.
* `step_outside`: what processes outside the group leave alone.
* `same_space`: any sequence of `thread_create` and `sbrk` calls keeps the group together, while stacks stay clear of the program and
  `kalloc` has what the broadcasts ask for.
-/

namespace OsLabs.Xv6

open Fallible Lts

variable {k k' k0 k1 : Kernel} {p q np l : Slot} {pt pt' lpt : PageTable} {m m' : Kmem} {lroot pa : Pa} {e va n c d : ℕ} {a : Action}
  {o : Option ℤ} {as : List Pa}

/-! ## What the broadcast asks for -/

/-- The page-table pages that a loop asks for which maps given pages at each of `n` pages from `a` on. -/
def tableNeeds : ℕ → ℕ → List (ℕ × ℕ) → ℕ
  | 0, _, _ => 0
  | n + 1, a, ks => walkNeeds ks a + tableNeeds n (a + PGSIZE) (walkKeys ks a)

/-- The page-table pages there are in slot `q`, if the loops of `growproc` visit it. -/
def visitKeys (l : Slot) (lroot : Pa) (q : Slot) (P : Proc) : Option (List (ℕ × ℕ)) :=
  if q = l ∨ P.isThread = true ∧ P.father = some l then
    P.pagetable.bind fun pt => if pt.root = lroot then none else some pt.keys
  else none

/-- What the slots of a list need together. -/
def visitNeeds (f : List (ℕ × ℕ) → ℕ) (k : Kernel) (l : Slot) (lroot : Pa) (qs : List Slot) : ℕ :=
  (qs.map fun q => (visitKeys l lroot q (k.proc q)).elim 0 f).sum

theorem visitKeys_other {P : Proc} (h : Other l lroot q P pt) : visitKeys l lroot q P = some pt.keys := by
  unfold visitKeys
  rw [if_pos h.1, h.2.1, Option.bind_some, if_neg h.2.2]

theorem visitKeys_none {P : Proc} (h : ∀ pt, ¬ Other l lroot q P pt) : visitKeys l lroot q P = none := by
  unfold visitKeys
  split_ifs with hq
  · cases hpt : P.pagetable with
    | none => rfl
    | some pt =>
      rw [Option.bind_some, if_pos]
      by_contra hroot
      exact h pt ⟨hq, hpt, hroot⟩
  · rfl

theorem serves_of_le (hcd : c ≤ d) (h : serves d m = true) : serves c m = true := by
  by_contra hc
  rw [serves_mono hcd (by simpa using hc)] at h
  cases h

/-- **One slot of one page.**  The page is mapped, or `kalloc` had no page for it. -/
theorem broadcastStep_served {s s' : Bool × Kernel} (ha : va % PGSIZE = 0)
    (hnew : ∀ pt, Other l lroot q (s.2.proc q) pt → pt.pte (va / PGSIZE) = none) (h : broadcastStep l lroot va pa s q = .ok s')
    (hs : serves ((visitKeys l lroot q (s.2.proc q)).elim 0 (walkNeeds · va)) s.2.mem = true) :
    s'.1 = s.1 ∧ visitKeys l lroot q (s'.2.proc q) = (visitKeys l lroot q (s.2.proc q)).map (walkKeys · va) ∧
      Takes ((visitKeys l lroot q (s.2.proc q)).elim 0 (walkNeeds · va)) s.2.mem s'.2.mem := by
  have hskip : (∀ pt, ¬ Other l lroot q (s.2.proc q) pt) → s' = s → s'.1 = s.1 ∧
      visitKeys l lroot q (s'.2.proc q) = (visitKeys l lroot q (s.2.proc q)).map (walkKeys · va) ∧
        Takes ((visitKeys l lroot q (s.2.proc q)).elim 0 (walkNeeds · va)) s.2.mem s'.2.mem := by
    rintro hno rfl
    rw [visitKeys_none hno]
    exact ⟨rfl, rfl, .zero _⟩
  unfold broadcastStep at h
  split_ifs at h with hin
  swap
  · exact hskip (fun pt ho => hin (inGroup_iff.mpr ho.1)) (Except.ok.inj h).symm
  rw [inGroup_iff] at hin
  split at h
  · rename_i hpt
    exact hskip (fun pt ho => absurd (hpt.symm.trans ho.2.1) (by simp)) (Except.ok.inj h).symm
  rename_i pt hpt
  split_ifs at h with hroot
  · refine hskip (fun pt1 ho => ho.2.2 ?_) (Except.ok.inj h).symm
    rw [← Option.some.inj (hpt.symm.trans ho.2.1)]
    exact hroot
  have ho : Other l lroot q (s.2.proc q) pt := ⟨hin, hpt, hroot⟩
  rw [visitKeys_other ho] at hs ⊢
  rw [bind_ok] at h
  obtain ⟨⟨found, ptw, mw⟩, -, h⟩ := h
  dsimp only at h
  rw [hnew pt ho, Option.isSome_none, Bool.and_false, if_neg (by decide), bind_ok] at h
  obtain ⟨⟨ok, pt1, m1⟩, hm, h⟩ := h
  obtain rfl := Except.ok.inj h
  obtain ⟨-, pt2, hg, hcase⟩ := mappages_inv ha hm
  rcases mappages_takes ha hm with ⟨rfl, hkeys, ht⟩ | ⟨-, hno⟩
  · refine ⟨Bool.and_true _, ?_, ht⟩
    have hroot1 : pt1.root = pt.root := by
      rcases hcase with ⟨hb, -⟩ | ⟨-, -, -, rfl⟩
      · cases hb
      · exact hg.root
    have ho1 : Other l lroot q { s.2.proc q with pagetable := some pt1 } pt1 := ⟨hin, rfl, by rw [hroot1]; exact hroot⟩
    dsimp only
    rw [Kernel.setProc_self, visitKeys_other ho1, hkeys]
    rfl
  · rw [Option.elim_some] at hs
    rw [hs] at hno
    cases hno

/-- **One page**, in the slots of a list. -/
theorem broadcastPage_served (ha : va % PGSIZE = 0) (hva : va < TRAPFRAME) : ∀ {qs : List Slot} {s s' : Bool × Kernel} {c : ℕ}, qs.Nodup →
    (∀ q ∈ qs, ∀ pt, Other l lroot q (s.2.proc q) pt → pt.pte (va / PGSIZE) = none) →
    qs.foldlM (broadcastStep l lroot va pa) s = .ok s' → serves (visitNeeds (walkNeeds · va) s.2 l lroot qs + c) s.2.mem = true →
    s'.1 = s.1 ∧ (∀ q ∈ qs, visitKeys l lroot q (s'.2.proc q) = (visitKeys l lroot q (s.2.proc q)).map (walkKeys · va)) ∧
      (∀ q, q ∉ qs → s'.2.proc q = s.2.proc q) ∧ serves c s'.2.mem = true
  | [], s, s', c, _, _, h, hs => by
    rw [List.foldlM_nil, pure_ok] at h
    subst h
    exact ⟨rfl, fun q hq => absurd hq List.not_mem_nil, fun _ _ => rfl, by rwa [visitNeeds, List.map_nil, List.sum_nil, Nat.zero_add] at hs⟩
  | q :: qs, s, s', c, hnd, hnew, h, hs => by
    rw [List.foldlM_cons, bind_ok] at h
    obtain ⟨s1, h1, h2⟩ := h
    obtain ⟨hq, hnd⟩ := List.nodup_cons.mp hnd
    have hsum : visitNeeds (walkNeeds · va) s.2 l lroot (q :: qs) =
        (visitKeys l lroot q (s.2.proc q)).elim 0 (walkNeeds · va) + visitNeeds (walkNeeds · va) s.2 l lroot qs := by
      rw [visitNeeds, List.map_cons, List.sum_cons, visitNeeds]
    rw [hsum, Nat.add_assoc] at hs
    obtain ⟨hb1, hk1, ht1⟩ := broadcastStep_served ha (hnew q List.mem_cons_self) h1 (serves_of_le (Nat.le_add_right _ _) hs)
    rw [ht1.count] at hs
    have hother : ∀ j, j ≠ q → s1.2.proc j = s.2.proc j :=
      (broadcastStep_inv (e := fun _ => ⟨pa, growPerm⟩) ha hva rfl h1).other
    have hrest : visitNeeds (walkNeeds · va) s1.2 l lroot qs = visitNeeds (walkNeeds · va) s.2 l lroot qs := by
      unfold visitNeeds
      rw [List.map_congr_left fun j hj => by rw [hother j fun hjq => hq (hjq ▸ hj)]]
    rw [← hrest] at hs
    obtain ⟨hb2, hk2, ho2, hc⟩ := broadcastPage_served ha hva hnd
      (fun j hj pt ho => hnew j (List.mem_cons_of_mem _ hj) pt (by rwa [hother j fun hjq => hq (hjq ▸ hj)] at ho)) h2 hs
    refine ⟨hb2.trans hb1, fun j hj => ?_, fun j hj => ?_, hc⟩
    · rcases List.mem_cons.mp hj with rfl | hj
      · rw [ho2 j hq, hk1]
      · rw [hk2 j hj, hother j fun hjq => hq (hjq ▸ hj)]
    · rw [ho2 j fun h => hj (List.mem_cons_of_mem _ h), hother j fun h => hj (h ▸ List.mem_cons_self)]

theorem visitNeeds_add (f g : List (ℕ × ℕ) → ℕ) (k : Kernel) (l : Slot) (lroot : Pa) (qs : List Slot) :
    visitNeeds (fun ks => f ks + g ks) k l lroot qs = visitNeeds f k l lroot qs + visitNeeds g k l lroot qs := by
  unfold visitNeeds
  rw [← List.sum_map_add]
  refine congrArg List.sum (List.map_congr_left fun q _ => ?_)
  cases visitKeys l lroot q (k.proc q) with
  | none => rfl
  | some ks => rfl

/-- **The broadcast loop** maps every page in every member that it visits, when `kalloc` serves the page-table pages. -/
theorem broadcast_served {b : Bool} (ha : va % PGSIZE = 0) (hn : va / PGSIZE + n ≤ tfPage)
    (hnew : ∀ q pt v, Other l lpt.root q (k.proc q) pt → va / PGSIZE ≤ v → v < va / PGSIZE + n → pt.pte v = none)
    (hs : serves (visitNeeds (tableNeeds n va) k l lpt.root slots) k.mem = true) (h : broadcast l lpt n va k = .ok (b, k')) : b = true := by
  induction n generalizing va k k' b with
  | zero => exact (Prod.mk.inj (Except.ok.inj h)).1.symm
  | succ n ih =>
    have hva : va < TRAPFRAME := (lt_tfPage_iff ha).mp (by omega)
    unfold broadcast at h
    rw [if_neg (by omega)] at h
    simp only [bind_ok] at h
    obtain ⟨⟨b1, k1⟩, h1, ⟨b2, k2⟩, h2, h⟩ := h
    obtain ⟨rfl, rfl⟩ := Prod.mk.inj (Except.ok.inj h)
    have hsum : visitNeeds (tableNeeds (n + 1) va) k l lpt.root slots = visitNeeds (walkNeeds · va) k l lpt.root slots +
        visitNeeds (fun ks => tableNeeds n (va + PGSIZE) (walkKeys ks va)) k l lpt.root slots :=
      visitNeeds_add (walkNeeds · va) (fun ks => tableNeeds n (va + PGSIZE) (walkKeys ks va)) k l lpt.root slots
    rw [hsum] at hs
    obtain ⟨hvisit, -⟩ := broadcastPage_spread (e := fun _ => ⟨(walkaddr lpt va).getD 0, growPerm⟩) ha hva rfl h1
    rw [broadcastPage_eq] at h1
    obtain ⟨hb1, hk1, -, hs1⟩ := broadcastPage_served ha hva slots_nodup (fun q _ pt ho => hnew q pt _ ho le_rfl (by omega)) h1 hs
    have hkeys : visitNeeds (fun ks => tableNeeds n (va + PGSIZE) (walkKeys ks va)) k l lpt.root slots =
        visitNeeds (tableNeeds n (va + PGSIZE)) k1 l lpt.root slots := by
      refine congrArg List.sum (List.map_congr_left fun q hq => ?_)
      have hq1 : visitKeys l lpt.root q (k1.proc q) = _ := hk1 q hq
      rw [hq1]
      cases visitKeys l lpt.root q (k.proc q) with
      | none => rfl
      | some ks => rfl
    rw [hkeys] at hs1
    have hnew1 : ∀ q pt v, Other l lpt.root q (k1.proc q) pt → (va + PGSIZE) / PGSIZE ≤ v → v < (va + PGSIZE) / PGSIZE + n →
        pt.pte v = none := by
      intro q pt v ho h3 h4
      rw [add_PGSIZE_div] at h3 h4
      rcases hvisit q with ⟨pt0, pt1, ho0, heq, hsp⟩ | ⟨-, heq⟩
      · rw [heq] at ho
        obtain rfl := Option.some.inj ho.2.1
        rcases hsp.pte v with hv | ⟨h5, h6, -, -⟩
        · rw [hv]
          exact hnew q pt0 v ho0 (by omega) (by omega)
        · omega
      · rw [heq] at ho
        exact hnew q pt v ho (by omega) (by omega)
    have hb2 : b2 = true := ih (add_PGSIZE_mod ha) (by rw [add_PGSIZE_div]; omega) hnew1 hs1 h2
    rw [show b1 = true from hb1, hb2]
    rfl

/-! ## In step with the leader -/

/-- `P` sees the memory of its leader `L`: below the size of the group both may use the same physical pages in the same way, and above it a
thread has its stack page and nothing else. -/
structure SeesSame (P L : Proc) : Prop where
  sz : P.sz = L.sz
  shared : ∀ v, v < npages L.sz → userPte (pteOf P.pagetable v) = userPte (pteOf L.pagetable v)
  own : ∀ v en, npages L.sz ≤ v → userPte (pteOf P.pagetable v) = some en → P.isThread = true ∧ P.size ≠ 0 ∧ v = P.start / PGSIZE

/-- Every live member of the group of `l` sees the memory of `l`. -/
def SameSpace (k : Kernel) (l : Slot) : Prop :=
  ∀ q, (k.proc q).state ≠ .unused → inGroup k q l = true → SeesSame (k.proc q) (k.proc l)

/-- The thread `P` is in step with its leader `L`. -/
structure InStep (P L : Proc) : Prop where
  zombie : P.state ≠ .zombie
  sz : P.sz = L.sz
  root : ∀ pt lpt, P.pagetable = some pt → L.pagetable = some lpt → pt.root ≠ lpt.root
  low : ∀ v, v < npages L.sz → pteOf P.pagetable v = userPte (pteOf L.pagetable v)
  high : ∀ v, npages L.sz ≤ v → v < tfPage → pteOf P.pagetable v ≠ none → P.size ≠ 0 ∧ v = P.start / PGSIZE

/-- Every thread of the group of `l` is in step with it. -/
structure GroupInStep (k : Kernel) (l : Slot) : Prop where
  live : (k.proc l).state ≠ .unused
  zombie : (k.proc l).state ≠ .zombie
  process : (k.proc l).isThread = false
  members : ∀ q, q ≠ l → (k.proc q).state ≠ .unused → inGroup k q l = true → InStep (k.proc q) (k.proc l)

theorem userPte_idem (x : Option Pte) : userPte (userPte x) = userPte x := by
  cases x with
  | none => rfl
  | some en =>
    unfold userPte
    rw [Option.filter_filter]
    simp

/-- What `InStep` keeps track of is what the member sees. -/
theorem InStep.seesSame {P L : Proc} (h : InStep P L) (hf : P.Fine e) (ht : P.isThread = true) : SeesSame P L := by
  refine ⟨h.sz, fun v hv => by rw [h.low v hv, userPte_idem], fun v en hv hen => ?_⟩
  obtain ⟨hen, hu⟩ := userPte_eq_some.mp hen
  by_cases hvt : v < tfPage
  · obtain ⟨h1, h2⟩ := h.high v hv hvt (by rw [hen]; simp)
    exact ⟨ht, h1, h2⟩
  · cases hpt : P.pagetable with
    | none =>
      rw [hpt] at hen
      cases hen
    | some pt =>
      rw [hpt] at hen
      rw [(hf.table pt hpt).shaped.high v en (not_lt.mp hvt) hen] at hu
      cases hu

/-- A leader has no user page above its size. -/
theorem Proc.Fine.seesSame {P : Proc} (hf : P.Fine e) (ht : P.isThread = false) : SeesSame P P := by
  refine ⟨rfl, fun _ _ => rfl, fun v en hv hen => ?_⟩
  obtain ⟨hen, hu⟩ := userPte_eq_some.mp hen
  cases hpt : P.pagetable with
  | none =>
    rw [hpt] at hen
    cases hen
  | some pt =>
    rw [hpt] at hen
    by_cases hvt : v < tfPage
    · exact absurd (hen.symm.trans ((hf.full ht pt hpt).high v hv hvt)) (by simp)
    · rw [(hf.table pt hpt).shaped.high v en (not_lt.mp hvt) hen] at hu
      cases hu

theorem GroupInStep.sameSpace (h : GroupInStep k l) (hf : k.Fine e) : SameSpace k l := by
  intro q hq hin
  by_cases hql : q = l
  · subst hql
    exact (hf q).seesSame h.process
  · exact (h.members q hql hq hin).seesSame (hf q) ((inGroup_iff.mp hin).resolve_left hql).1

/-- The same memory of both is as good. -/
theorem InStep.congr {P L P' L' : Proc} (h : InStep P L) (hP : SameMem P P') (hL : SameMem L L') (hz : P'.state ≠ .zombie) :
    InStep P' L' where
  zombie := hz
  sz := by rw [hP.sz, hL.sz, h.sz]
  root := by
    rw [hP.pagetable, hL.pagetable]
    exact h.root
  low := by
    rw [hP.pagetable, hL.pagetable, hL.sz]
    exact h.low
  high := by
    rw [hP.pagetable, hL.sz, hP.size, hP.start]
    exact h.high

/-! ## Growing and shrinking -/

/-- The page-table pages that the broadcast of a growth by `n` asks for are there, if the pages of the leader are. -/
def BroadcastServed (k : Kernel) (l : Slot) (n : ℤ) : Prop :=
  ∀ lpt ∈ (k.proc l).pagetable,
    serves (mapNeeds (addPages (k.proc l).sz ((k.proc l).sz + n.toNat)) (pgroundup (k.proc l).sz) lpt.keys) k.mem = true →
    serves (mapNeeds (addPages (k.proc l).sz ((k.proc l).sz + n.toNat)) (pgroundup (k.proc l).sz) lpt.keys +
      visitNeeds (tableNeeds (addPages (k.proc l).sz ((k.proc l).sz + n.toNat)) (pgroundup (k.proc l).sz)) k l lpt.root slots) k.mem = true

/-- A growth by `n` does not reach a stack of the group. -/
def StacksClear (k : Kernel) (l : Slot) (n : ℤ) : Prop :=
  ∀ q, (k.proc q).state ≠ .unused → inGroup k q l = true → (k.proc q).size ≠ 0 → npages (k.proc l).sz ≤ (k.proc q).start / PGSIZE →
    npages (k.proc l).sz + addPages (k.proc l).sz ((k.proc l).sz + n.toNat) ≤ (k.proc q).start / PGSIZE

/-- What the broadcast needs does not depend on the leader's own table. -/
theorem visitNeeds_setLeader {f : List (ℕ × ℕ) → ℕ} {lpt1 : PageTable} (hroot : lpt1.root = lpt.root)
    (hpt : (k.proc l).pagetable = some lpt) (qs : List Slot) :
    visitNeeds f ((k.setMem m).setProc l { k.proc l with pagetable := some lpt1 }) l lpt.root qs =
      visitNeeds f k l lpt.root qs := by
  refine congrArg List.sum (List.map_congr_left fun q _ => ?_)
  by_cases hq : q = l
  · subst hq
    have h1 : ∀ P : Proc, ∀ x, P.pagetable = some x → x.root = lpt.root → visitKeys q lpt.root q P = none := fun P x hx hr =>
      visitKeys_none fun y ho => ho.2.2 (by rw [← Option.some.inj (hx.symm.trans ho.2.1), hr])
    rw [Kernel.setProc_self, h1 _ lpt1 rfl hroot, h1 _ lpt hpt rfl]
  · rw [Kernel.setProc_of_ne _ _ hq, Kernel.setMem_proc]

/-- The new pages of the leader are not mapped in any other member: only a stack could be there, and the stacks are further up. -/
theorem grow_clear {n : ℤ} {c : ℕ} (hI : GroupInStep k l) (hf : k.Fine e) (hclear : StacksClear k l n)
    (hpt : (k.proc l).pagetable = some lpt) (hc : c ≤ npages (k.proc l).sz + addPages (k.proc l).sz ((k.proc l).sz + n.toNat)) (htop : c ≤ tfPage) :
    ∀ q pt v, Other l lpt.root q (k.proc q) pt → npages (k.proc l).sz ≤ v → v < c → pt.pte v = none := by
  intro q pt v ho h1 h2
  have hql : q ≠ l := by
    rintro rfl
    exact ho.2.2 (by rw [Option.some.inj (ho.2.1.symm.trans hpt)])
  have hlive : (k.proc q).state ≠ .unused := fun hu => absurd (ho.2.1.symm.trans ((hf q).bare hu).1) (by simp)
  have hin : inGroup k q l = true := inGroup_iff.mpr ho.1
  by_contra hv
  obtain ⟨hsize, hstart⟩ := (hI.members q hql hlive hin).high v h1 (by omega) (by rw [ho.2.1]; exact hv)
  have := hclear q hlive hin hsize (by omega)
  omega

/-- **The broadcast of a growth** maps every new page of the leader in every member that it visits. -/
theorem grow_served {lpt1 : PageTable} {n : ℤ} {sz : ℕ} {b : Bool} {k2 : Kernel} (hI : GroupInStep k l) (hf : k.Fine e)
    (hn : IsInt n) (hpos : 0 < n) (hpt : (k.proc l).pagetable = some lpt) (hserved : BroadcastServed k l n) (hclear : StacksClear k l n)
    (hu : uvmalloc lpt (k.proc l).sz (u64 ((k.proc l).sz + n)) true false k.mem = .ok (sz, lpt1, m)) (hsz : sz ≠ 0)
    (hb : broadcast l lpt1 ((sz - pgroundup (k.proc l).sz + (PGSIZE - 1)) / PGSIZE) (pgroundup (k.proc l).sz)
      ((k.setMem m).setProc l { k.proc l with pagetable := some lpt1 }) = .ok (b, k2)) :
    b = true ∧ ∀ q pt v, Other l lpt.root q (k.proc q) pt → npages (k.proc l).sz ≤ v → v < npages sz → pt.pte v = none := by
  have hs := (hf l).table lpt hpt
  have hlsz := (hf l).sz
  have hroot : lpt1.root = lpt.root := (uvmalloc_held hs.shaped hlsz hu).2.1
  have hgrew := grew hs hlsz hu hsz hb
  rw [grow_size (hf l) hn hpos] at hu
  rcases uvmalloc_takes (Nat.le_add_right _ _) hu with ⟨rfl, ht⟩ | ⟨h0, -⟩
  swap
  · exact absurd h0 hsz
  obtain ⟨hcount, hdiv, hrange⟩ := grow_range hgrew.le hgrew.top
  have hadd : addPages (k.proc l).sz ((k.proc l).sz + n.toNat) = npages ((k.proc l).sz + n.toNat) - npages (k.proc l).sz := hcount
  have hfree := grow_clear hI hf hclear hpt (c := npages ((k.proc l).sz + n.toNat)) (by omega) (npages_le hgrew.top)
  refine ⟨?_, hfree⟩
  have hs2 := hserved lpt hpt ht.serves
  rw [ht.count, hadd, ← visitNeeds_setLeader (m := m) hroot hpt, ← hroot] at hs2
  rw [hcount] at hb
  refine broadcast_served (pgroundup_mod _) (by rw [hdiv]; exact hrange) (fun q pt v ho h1 h2 => ?_) hs2 hb
  rw [hdiv] at h1 h2
  rw [hroot, other_setLeader hroot hpt] at ho
  exact hfree q pt v ho h1 (by omega)

/-- The entries of the leader after `uvmalloc`. -/
theorem uvmalloc_keeps {o r v : ℕ} {xw xx : Bool} (hs : Shaped pt) (ho : o ≤ TRAPFRAME) (h : uvmalloc pt o n xw xx m = .ok (r, pt', m'))
    (hv : ¬ (npages o ≤ v ∧ v < npages r)) : pt'.pte v = pt.pte v := by
  obtain ⟨-, -, -, ⟨-, hpte⟩ | ⟨-, hg⟩⟩ := uvmalloc_held hs ho h
  · rw [hpte]
  · exact hg.other v hv

/-- **`sbrk` of a member** keeps every thread in step. -/
theorem GrowRes.inStep {n r : ℤ} (h : GrowRes k p n r k') (hI : GroupInStep k l) (hf : k.Fine e) (hn : IsInt n)
    (hl : groupLeader k p = some l) (hroom : 0 < n → BroadcastServed k l n ∧ StacksClear k l n) (hq : q ≠ l)
    (hlive : (k.proc q).state ≠ .unused) (hin : inGroup k q l = true) : InStep (k'.proc q) (k'.proc l) := by
  have hM := hI.members q hq hlive hin
  have hself : inGroup k l l = true := inGroup_iff.mpr (.inl rfl)
  have hlsz := (hf l).sz
  have hres := h.resizes q
  have hleader : (k.proc l).pagetable ≠ none := ((hf l).live hI.live).1
  obtain ⟨pt, hpt⟩ := Option.ne_none_iff_exists'.mp ((hf q).live hlive).1
  cases h with
  | zero _ => exact hM
  | nullGrow hl' _ hnone _ =>
    obtain rfl := Option.some.inj (hl.symm.trans hl')
    exact absurd hnone hleader
  | nullShrink hl' _ hnone =>
    obtain rfl := Option.some.inj (hl.symm.trans hl')
    exact absurd hnone hleader
  | @noMem l' lpt lpt1 m hl' _ hlpt hu =>
    obtain rfl := Option.some.inj (hl.symm.trans hl')
    have hs := ((hf l).table lpt hlpt).shaped
    have hpte : ∀ v, lpt1.pte v = lpt.pte v := fun v => uvmalloc_keeps hs hlsz hu fun hv => by
      rw [npages_zero] at hv
      omega
    rw [Kernel.setProc_of_ne _ _ hq, Kernel.setProc_self, Kernel.setMem_proc]
    refine ⟨hM.zombie, hM.sz, fun x y hx hy => ?_, fun v hv => ?_, hM.high⟩
    · rw [← Option.some.inj hy, (uvmalloc_held hs hlsz hu).2.1]
      exact hM.root x lpt hx hlpt
    · rw [hM.low v hv, hlpt, pteOf_some]
      exact congrArg userPte (hpte v).symm
  | @grow l' lpt lpt1 m sz b k2 hl' hpos hlpt hu hsz hb =>
    obtain rfl := Option.some.inj (hl.symm.trans hl')
    have hs := (hf l).table lpt hlpt
    obtain ⟨hserved, hclear⟩ := hroom hpos
    obtain ⟨hb1, hfree⟩ := grow_served hI hf hn hpos hlpt hserved hclear hu hsz hb
    have hg := grew hs hlsz hu hsz hb
    have hroot : lpt1.root = lpt.root := (uvmalloc_held hs.shaped hlsz hu).2.1
    have hp : PtOnly k k2 := (PtOnly.setPt k _ _ _).trans (broadcast_ptOnly hb)
    have hne : pt.root ≠ lpt1.root := by
      rw [hroot]
      exact hM.root pt lpt hpt hlpt
    have hmono : npages (k.proc l).sz ≤ npages sz := npages_mono hg.le (le_trans hg.top (by decide))
    have htop := npages_le hg.top
    obtain ⟨y, y', ho, heq, hsp⟩ := (hg.visit q hq).resolve_right fun h => h.1 pt ⟨inGroup_iff.mp hin, hpt, hne⟩
    obtain rfl := Option.some.inj (hpt.symm.trans ho.2.1)
    rw [setGroupSz_member (by rw [hp.inGroup, hin]), setGroupSz_member (by rw [hp.inGroup, hself]), hg.leader, heq]
    refine ⟨hM.zombie, rfl, fun x z hx hz => ?_, fun v hv => ?_, fun v h1 h2 h3 => ?_⟩
    · rw [← Option.some.inj hx, ← Option.some.inj hz, hsp.root]
      exact hne
    · have hv : v < npages sz := hv
      show y'.pte v = userPte (lpt1.pte v)
      by_cases hold : v < npages (k.proc l).sz
      · have hy : y'.pte v = pt.pte v := (hsp.pte v).resolve_right fun h => by omega
        have hlow := hM.low v hold
        rw [hpt, hlpt] at hlow
        rw [hy, uvmalloc_keeps hs.shaped hlsz hu fun h => by omega]
        exact hlow
      · -- a new page, which `walkaddr` finds in the leader
        obtain ⟨pa, hpa⟩ := hg.new v (by omega) hv
        have hnone := hfree q pt v ⟨inGroup_iff.mp hin, hpt, hM.root pt lpt hpt hlpt⟩ (by omega) hv
        rcases hsp.pte v with h | ⟨-, -, -, hnew⟩
        · exact absurd (h.trans hnone) (hsp.mapped hb1 v (by omega) (by omega))
        · rw [hnew, hpa, walkaddr_of_pte (uvmalloc_held hs.shaped hlsz hu).1.wf (by omega) hpa rfl]
          rfl
    · have h1 : npages sz ≤ v := h1
      have hy : y'.pte v = pt.pte v := (hsp.pte v).resolve_right fun h => by omega
      have h3 : y'.pte v ≠ none := h3
      exact hM.high v (by omega) h2 (by rw [hpt, pteOf_some, ← hy]; exact h3)
  | @shrink l' lpt lpt1 m sz k2 hl' hlt hlpt hu hb =>
    obtain rfl := Option.some.inj (hl.symm.trans hl')
    have hg := shrunk ((hf l).table lpt hlpt).shaped hlsz hu hb
    have hp : PtOnly k k2 := (PtOnly.setPt k _ _ _).trans (unbroadcast_ptOnly hb)
    have hne := hM.root pt lpt hpt hlpt
    obtain ⟨y, y', ho, heq, rfl, -⟩ := (hg.visit q hq).resolve_right fun h => h.1 pt ⟨inGroup_iff.mp hin, hpt, hne⟩
    obtain rfl := Option.some.inj (hpt.symm.trans ho.2.1)
    have hle := hg.pages
    rw [setGroupSz_member (by rw [hp.inGroup, hin]), setGroupSz_member (by rw [hp.inGroup, hself]), hg.leader, heq]
    refine ⟨hM.zombie, rfl, fun x z hx hz => ?_, fun v hv => ?_, fun v h1 h2 h3 => ?_⟩
    · rw [← Option.some.inj hx, ← Option.some.inj hz]
      exact hne
    · have hv : v < npages sz := hv
      have hlow := hM.low v (by omega)
      rw [hpt, hlpt] at hlow
      show (pt.unmap _ _).pte v = userPte ((lpt.unmap _ _).pte v)
      rw [PageTable.unmap_apply, PageTable.unmap_apply, if_neg (by omega), if_neg (by omega)]
      exact hlow
    · have h1 : npages sz ≤ v := h1
      have h3 : (pt.unmap _ _).pte v ≠ none := h3
      rw [PageTable.unmap_apply] at h3
      split_ifs at h3 with hv
      · exact absurd rfl h3
      · exact hM.high v (by omega) h2 (by rw [hpt]; exact h3)

/-! ## New threads -/

/-- **A new thread** is in step, when its stack is above the program and the leader's root was not free. -/
theorem NewThread.inStep {tf stk : Pa} (h : NewThread k p np l tf pt stk k') (hne : np ≠ l) (hlsz : (k.proc l).sz ≤ TRAPFRAME)
    (hstack : npages (k.proc l).sz ≤ stackBase k.nextpid / PGSIZE) (hroot : ∀ lpt ∈ (k.proc l).pagetable, k.mem.free lpt.root = 0) :
    InStep (k'.proc np) (k'.proc l) := by
  have htop := npages_le hlsz
  obtain ⟨hstart, hsize⟩ := h.stack
  rw [h.others l (Ne.symm hne)]
  refine ⟨by rw [h.state]; decide, h.sz, fun x lpt hx hlpt heq => ?_, fun v hv => ?_, fun v h1 h2 h3 => ?_⟩
  · rw [h.pagetable] at hx
    obtain rfl := Option.some.inj hx
    have h1 := h.pages lpt.root
    have h2 := pt.tab_root_pos
    rw [hroot lpt hlpt] at h1
    rw [heq] at h2
    omega
  · rw [h.pagetable, pteOf_some, h.pte v (by omega), if_neg (by omega), if_pos hv]
  · rw [h.pagetable, pteOf_some, h.pte v h2] at h3
    rw [hstart, hsize]
    split_ifs at h3 with hv hlow
    · exact ⟨PGSIZE_pos.ne', hv⟩
    · omega
    · exact absurd rfl h3

/-! ## The steps of others -/

/-- `growproc` leaves everybody alone who is not in the group. -/
theorem GrowRes.outside {n r : ℤ} (h : GrowRes k p n r k') (hf : k.Fine e) (hl : groupLeader k p = some l) (hq : inGroup k q l = false) :
    k'.proc q = k.proc q := by
  have hql : q ≠ l := by
    rintro rfl
    rw [inGroup_iff.mpr (.inl rfl)] at hq
    cases hq
  have hgroup : ∀ {k1 : Kernel} {c : ℕ}, PtOnly k k1 → k1.proc q = k.proc q → (setGroupSz k1 l c).proc q = k.proc q := by
    intro k1 c hp h1
    rw [← h1]
    show (if inGroup k1 q l then _ else _) = _
    rw [hp.inGroup, hq]
    rfl
  have hskip : ∀ {R : PageTable → PageTable → Prop} {lroot : Pa} {P : Proc}, Visit R l lroot q (k.proc q) P → P = k.proc q := by
    rintro R lroot P (⟨x, y, ho, -⟩ | ⟨-, h⟩)
    · rw [inGroup_iff.mpr ho.1] at hq
      cases hq
    · exact h
  cases h with
  | zero _ => rfl
  | nullGrow _ _ _ _ => rfl
  | nullShrink hl' _ _ =>
    obtain rfl := Option.some.inj (hl.symm.trans hl')
    exact hgroup (.refl k) rfl
  | noMem hl' _ _ _ =>
    obtain rfl := Option.some.inj (hl.symm.trans hl')
    exact Kernel.setProc_of_ne _ _ hql
  | @grow l' lpt lpt1 m sz b k2 hl' _ hpt hu hsz hb =>
    obtain rfl := Option.some.inj (hl.symm.trans hl')
    exact hgroup ((PtOnly.setPt k _ _ _).trans (broadcast_ptOnly hb))
      (hskip ((grew ((hf l).table lpt hpt) (hf l).sz hu hsz hb).visit q hql))
  | @shrink l' lpt lpt1 m sz k2 hl' _ hpt hu hb =>
    obtain rfl := Option.some.inj (hl.symm.trans hl')
    exact hgroup ((PtOnly.setPt k _ _ _).trans (unbroadcast_ptOnly hb))
      (hskip ((shrunk ((hf l).table lpt hpt).shaped (hf l).sz hu hb).visit q hql))

/-- **A step of a process outside the group** does not change the memory of a member. -/
theorem step_outside (h : Step k a o k') (hf : k.Fine e) (hq : q ≠ a.slot) (hu : (k.proc q).state ≠ .unused)
    (hz : (k.proc q).state ≠ .zombie) (hg : ∀ g ∈ groupLeader k a.slot, inGroup k q g = false) : SameMem (k.proc q) (k'.proc q) := by
  cases step_other h hq hu hz with
  | same h => exact h ▸ .refl _
  | @grow n r as h =>
    obtain ⟨g, hgl⟩ := groupLeader_some (hf a.slot)
    rw [h.outside (k := k.setAnswers as) hf hgl (hg g hgl)]
    exact .refl _
  | @kill pid as h =>
    subst h
    exact kill_quiet (k.setAnswers as) pid q
  | @exit st as hp h =>
    subst h
    have hlive : ((k.tidy a.slot as).proc a.slot).state ≠ .unused := by
      rw [Kernel.tidy, Kernel.setProc_self]
      show (k.proc a.slot).state ≠ .unused
      rw [hp]
      decide
    rw [← tidy_other k as hq]
    exact exitEnd_quiet hlive q
  | @threadExit as h =>
    obtain ⟨P, m, -, rfl⟩ := threadExitEnd_inv h
    have hsame : (((k.tidy a.slot as).setMem m).setProc a.slot { P with xstate := 0, state := .zombie }).proc q = k.proc q := by
      rw [Kernel.setProc_of_ne _ _ hq, Kernel.setMem_proc, tidy_other k as hq]
    rw [← hsame]
    exact wakeup_quiet _ _ _ q

/-! ## Runs -/

/-- `thread_create` and `sbrk`, and what the scheduler does. -/
def Action.groupCall (k : Kernel) : Action → Bool
  | .scheduler _ | .yield _ => true
  | .syscall q (.sbrk _) _ | .syscall q (.threadCreate _ _ _) _ => !(k.proc q).killed
  | _ => false

/-- What `kalloc` is going to answer. -/
def Action.answers : Action → List Pa
  | .syscall _ _ as | .fault _ as | .resume _ _ as => as
  | _ => []

/-- The members of the group of `l` call `thread_create` and `sbrk` only.  Others may do anything, as long as no stale `father` makes them
take a member for their leader. -/
def GroupCalls (l : Slot) (k : Kernel) (a : Action) : Prop :=
  (inGroup k a.slot l = true → a.groupCall k = true) ∧
    (inGroup k a.slot l = false → ∀ g ∈ groupLeader k a.slot, inGroup k g l = false)

/-- When a member grows the group, `kalloc` serves the broadcast and no stack is in the way; when it makes a thread, the stack is above the
program and the page of the leader's page table is not free. -/
def Roomy (l : Slot) (k : Kernel) (a : Action) : Prop :=
  inGroup k a.slot l = true →
    (∀ n ∈ a.sbrkArg, 0 < n → BroadcastServed (k.setAnswers a.answers) l n ∧ StacksClear k l n) ∧
    (a.creates k = some (a.slot, true) →
      npages (k.proc l).sz ≤ stackBase k.nextpid / PGSIZE ∧ ∀ lpt ∈ (k.proc l).pagetable, k.mem.free lpt.root = 0)

/-- A process without threads. -/
structure Lone (k : Kernel) (l : Slot) : Prop where
  live : (k.proc l).state ≠ .unused
  zombie : (k.proc l).state ≠ .zombie
  process : (k.proc l).isThread = false
  alone : ∀ q, q ≠ l → (k.proc q).state ≠ .unused → inGroup k q l = false

theorem Lone.inStep (h : Lone k l) : GroupInStep k l :=
  ⟨h.live, h.zombie, h.process, fun q hq hlive hin => absurd (hin.symm.trans (h.alone q hq hlive)) (by decide)⟩

/-- The leader of a member. -/
theorem groupLeader_member (ht : (k.proc l).isThread = false) (hp : inGroup k p l = true) : groupLeader k p = some l := by
  unfold groupLeader
  rcases inGroup_iff.mp hp with rfl | ⟨hthr, hf⟩
  · rw [ht]
    rfl
  · rw [hthr, hf]
    rfl

/-- Nobody outside the group makes a member. -/
theorem member_before (h : Step k a o k') (hout : inGroup k a.slot l = false) (hg : ∀ g ∈ groupLeader k a.slot, inGroup k g l = false)
    (hql : q ≠ l) (hq : (k'.proc q).state ≠ .unused) (hin : inGroup k' q l = true) :
    (k.proc q).state ≠ .unused ∧ inGroup k q l = true := by
  obtain ⟨hthr, hfather⟩ := (inGroup_iff.mp hin).resolve_left hql
  obtain ⟨lab, ht, hs⟩ := step_tab h
  cases ht.slot q with
  | stays hl _ _ ht hf _ _ => exact ⟨hl, inGroup_iff.mpr (.inr ⟨ht.symm.trans hthr, hf.symm.trans hfather⟩)⟩
  | unused _ hu => exact absurd hu hq
  | @born p th hlab _ =>
    subst hlab
    have hm := ht.makes hs
    have hp : p = a.slot := by
      have hc := hm.call
      cases a with
      | syscall p' c as =>
        cases c <;> simp only [Action.creates, reduceCtorEq] at hc
        all_goals
          split_ifs at hc
          exact (Prod.mk.inj (Option.some.inj hc)).1.symm
      | _ => cases hc
    have hth : th = true := hm.isThread.symm.trans hthr
    have hlead : groupLeader k p = some l := by
      have hf := hm.father
      rw [hth, if_pos rfl] at hf
      exact hf.symm.trans hfather
    have hno := hg l (Option.mem_def.mpr (hp ▸ hlead))
    rw [inGroup_iff.mpr (.inl rfl)] at hno
    cases hno
  | freed _ _ hu => exact absurd hu hq

/-- The members are the old ones, with the memory that they had. -/
theorem GroupInStep.of_same (hI : GroupInStep k l) (hl : SameMem (k.proc l) (k'.proc l)) (hz : (k'.proc l).state ≠ .zombie)
    (h : ∀ q, q ≠ l → (k'.proc q).state ≠ .unused → inGroup k' q l = true → (k.proc q).state ≠ .unused ∧ inGroup k q l = true ∧
      SameMem (k.proc q) (k'.proc q) ∧ (k'.proc q).state ≠ .zombie) : GroupInStep k' l where
  live := fun hu => hI.live (hl.unused.mp hu)
  zombie := hz
  process := hl.isThread.trans hI.process
  members := by
    intro q hql hq hin
    obtain ⟨hq0, hin0, hsame, hzq⟩ := h q hql hq hin
    exact (hI.members q hql hq0 hin0).congr hsame hl hzq

/-- A member that takes its turn, or ends it. -/
theorem GroupInStep.turn {st : ProcState} (hI : GroupInStep k l) (hst : st ≠ .unused ∧ st ≠ .zombie)
    (hp : (k.proc p).state = .runnable ∨ (k.proc p).state = .running) : GroupInStep (k.setProc p { k.proc p with state := st }) l := by
  have hlive : (k.proc p).state ≠ .unused ∧ (k.proc p).state ≠ .used ∧ (k.proc p).state ≠ .zombie := by
    rcases hp with h | h <;> rw [h] <;> decide
  have hq : Quiet k (k.setProc p { k.proc p with state := st }) := .setProc (.setState hlive.1 hlive.2.1 hlive.2.2 hst.1)
  have hz : ∀ q, (k.proc q).state ≠ .zombie → ((k.setProc p { k.proc p with state := st }).proc q).state ≠ .zombie := by
    intro q hz
    rw [Kernel.setProc_apply]
    split_ifs
    · exact hst.2
    · exact hz
  refine hI.of_same (hq l) (hz l hI.zombie) fun q hql hlive' hin => ?_
  have hlive0 : (k.proc q).state ≠ .unused := fun hu => hlive' ((hq q).unused.mpr hu)
  have hin0 : inGroup k q l = true := by
    rw [inGroup_iff, (hq q).isThread, (hq q).father] at hin
    exact inGroup_iff.mpr hin
  exact ⟨hlive0, hin0, hq q, hz q (hI.members q hql hlive0 hin0).zombie⟩

/-- **Step lemma, others.** -/
theorem GroupInStep.outside (hI : GroupInStep k l) (hf : k.Fine e) (hout : inGroup k a.slot l = false)
    (hg : ∀ g ∈ groupLeader k a.slot, inGroup k g l = false) (h : Step k a o k') : GroupInStep k' l := by
  have hkeep : ∀ q, (k.proc q).state ≠ .unused → (k.proc q).state ≠ .zombie → inGroup k q l = true →
      SameMem (k.proc q) (k'.proc q) ∧ (k'.proc q).state ≠ .zombie := by
    intro q hlive hz hin
    have hqa : q ≠ a.slot := by
      rintro rfl
      rw [hin] at hout
      cases hout
    refine ⟨step_outside h hf hqa hlive hz fun g hgl => ?_, fun hz' => ?_⟩
    · -- a member is in no other group
      have hgl := hg g hgl
      rw [← Bool.not_eq_true, inGroup_iff] at hgl ⊢
      rintro (rfl | ⟨hthr, hfather⟩)
      · exact hgl (inGroup_iff.mp hin)
      · rcases inGroup_iff.mp hin with rfl | ⟨-, hfl⟩
        · rw [hI.process] at hthr
          cases hthr
        · exact hgl (.inl (Option.some.inj (hfather.symm.trans hfl)))
    · rcases (step_kept h hqa hlive hz).state with hs | ⟨-, hs⟩
      · exact hz (hs.symm.trans hz')
      · rw [hs] at hz'
        cases hz'
  obtain ⟨hl, hz⟩ := hkeep l hI.live hI.zombie (inGroup_iff.mpr (.inl rfl))
  refine hI.of_same hl hz fun q hql hq hin => ?_
  obtain ⟨hq0, hin0⟩ := member_before h hout hg hql hq hin
  exact ⟨hq0, hin0, hkeep q hq0 (hI.members q hql hq0 hin0).zombie hin0⟩

/-- **Step lemma, members.** -/
theorem GroupInStep.inside (hI : GroupInStep k l) (hf : k.Fine e) (hm : k.mem.OkAt e) (hin : inGroup k a.slot l = true)
    (hc : a.groupCall k = true) (hroom : Roomy l k a) (h : Step k a o k') : GroupInStep k' l := by
  have hlead := groupLeader_member hI.process hin
  obtain ⟨hgrow, hmake⟩ := hroom hin
  cases step_inv h with
  | scheduler hp => exact hI.turn (by decide) (.inl hp)
  | yield hp => exact hI.turn (by decide) (.inr hp)
  | @sbrk p n as _ _ r' _ _ hk hres =>
    have hI' : GroupInStep (k.setAnswers as) l := ⟨hI.live, hI.zombie, hI.process, hI.members⟩
    have hf' : (k.setAnswers as).Fine e := hf
    have hrs := hres.resizes
    have hstate : ∀ q, (k'.proc q).state = (k.proc q).state ∧ (k'.proc q).isThread = (k.proc q).isThread ∧
        inGroup k' q l = inGroup k q l := by
      intro q
      obtain ⟨pt, sz, hq⟩ := hrs q
      unfold inGroup
      rw [hq]
      exact ⟨rfl, rfl, rfl⟩
    refine ⟨?_, ?_, ?_, fun q hql hq hqin => ?_⟩
    · rw [(hstate l).1]
      exact hI.live
    · rw [(hstate l).1]
      exact hI.zombie
    · rw [(hstate l).2.1]
      exact hI.process
    · rw [(hstate q).1] at hq
      rw [(hstate q).2.2] at hqin
      exact hres.inStep hI' hf' (isInt_int32 n) hlead (fun hpos => hgrow _ rfl hpos) hql hq hqin
  | @threadCreate p fn arg retfn as r _ hp _ hk hres =>
    have hf' : (k.setAnswers as).Fine e := hf
    have hm' : (k.setAnswers as).mem.OkAt e := hm
    have hlive : (k.proc p).state ≠ .unused := by
      rw [hp]
      decide
    have hold : ∀ q, (k.proc q).state ≠ .unused → k'.proc q = k.proc q := fun q hq => hres.proc_live hq
    obtain ⟨hstack, hroot⟩ := hmake (by simp [Action.creates, Action.slot, hk])
    refine ⟨?_, ?_, ?_, fun q hql hq hqin => ?_⟩
    · rw [hold l hI.live]
      exact hI.live
    · rw [hold l hI.live]
      exact hI.zombie
    · rw [hold l hI.live]
      exact hI.process
    · by_cases hq0 : (k.proc q).state = .unused
      · obtain ⟨tf, pt, stk, hn⟩ := hres.newThread hf' hm' hq0 hq hlive hlead hql
        exact hn.inStep hql (hf l).sz hstack hroot
      · have hin0 : inGroup k q l = true := by
          unfold inGroup at hqin ⊢
          rwa [hold q hq0] at hqin
        rw [hold q hq0, hold l hI.live]
        exact hI.members q hql hq0 hin0
  | @killed p c as _ _ _ hk _ _ =>
    cases c <;> simp only [Action.groupCall, hk, Bool.not_true, Bool.false_eq_true] at hc
  | @file p c as _ _ _ _ _ hfile _ =>
    cases c <;> first | (cases hfile; done) | cases hc
  | fault _ _ _ _ => cases hc
  | fork _ _ _ _ => cases hc
  | exec _ _ _ _ => cases hc
  | threadJoin _ _ _ _ => cases hc
  | threadExit _ _ _ _ _ => cases hc
  | leaderExit _ _ _ _ _ => cases hc
  | exit _ _ _ _ _ => cases hc
  | wait _ _ _ _ => cases hc
  | kill _ _ _ => cases hc
  | resumeWait _ _ _ => cases hc
  | resumeJoin _ _ _ => cases hc
  | resumeExit _ _ => cases hc
  | resumeThreadExit _ _ _ => cases hc
  | resumeExec _ _ _ => cases hc

/-- **Step lemma.** -/
theorem GroupInStep.step (hI : GroupInStep k l) (hf : k.Fine e) (hm : k.mem.OkAt e) (hc : GroupCalls l k a) (hroom : Roomy l k a)
    (h : Step k a o k') : GroupInStep k' l := by
  cases hin : inGroup k a.slot l with
  | true => exact hI.inside hf hm hin (hc.1 hin) hroom h
  | false => exact hI.outside hf hin (hc.2 hin) h

instance (k : Kernel) (l : Slot) (n : ℤ) : Decidable (BroadcastServed k l n) :=
  inferInstanceAs (Decidable (∀ lpt ∈ (k.proc l).pagetable, _ → _))

instance (k : Kernel) (l : Slot) (n : ℤ) : Decidable (StacksClear k l n) := Nat.decidableForallFin _

instance (l : Slot) (k : Kernel) (a : Action) : Decidable (GroupCalls l k a) :=
  inferInstanceAs (Decidable (_ ∧ (_ → ∀ g ∈ groupLeader k a.slot, _)))

instance (l : Slot) (k : Kernel) (a : Action) : Decidable (Roomy l k a) :=
  inferInstanceAs (Decidable (_ → (∀ n ∈ a.sbrkArg, _) ∧ (_ → _ ∧ ∀ lpt ∈ (k.proc l).pagetable, _)))

/-- **One address space.**  A process without threads and the threads that it makes call `thread_create` and `sbrk` in any order, whatever
others do.  In every run in which `kalloc` serves the broadcasts and the stacks stay clear of the program, all of them see the same
memory. -/
theorem same_space {tr : Trace} (hr : Reach Step always Boot k0) (h0 : Lone k0 l)
    (h : Run Step (fun k a => GroupCalls l k a ∧ Roomy l k a) k0 tr k) : SameSpace k l := by
  have hinv := h.inv (I := fun k => Reach Step always Boot k ∧ GroupInStep k l) ⟨hr, h0.inStep⟩ fun k a o k' hI ha hs => by
    obtain ⟨hreach, hI⟩ := hI
    obtain ⟨e, hm, hf⟩ := fine_reach hreach
    exact ⟨hreach.step trivial hs, hI.step hf hm ha.1 ha.2 hs⟩
  obtain ⟨e, -, hf⟩ := fine_reach hinv.1
  exact hinv.2.sameSpace hf

/-- The first process makes a thread, the thread grows the group, and the first process shrinks it again. -/
theorem same_space_small : ∃ tr k, Reach Step always Boot awake ∧ Lone awake 0 ∧
    Run Step (fun k a => GroupCalls 0 k a ∧ Roomy 0 k a) awake tr k ∧ (tr.length = 5 ∧ (k.proc 1).isThread = true) ∧ SameSpace k 0 := by
  have hlone : Lone awake 0 := ⟨by decide +kernel, by decide +kernel, by decide +kernel, by decide +kernel⟩
  obtain ⟨tr, k, hrun, hk⟩ := exists_run (fun k a => GroupCalls 0 k a ∧ Roomy 0 k a) awake
    [.syscall 0 (.threadCreate 0 0 0) (pages 20 10), .scheduler 1, .syscall 1 (.sbrk 4096) (pages 40 5), .yield 1,
      .syscall 0 (.sbrk (-4096)) []]
    (fun tr k => tr.length = 5 ∧ (k.proc 1).isThread = true) (by decide +kernel)
  exact ⟨tr, k, awake_reach, hlone, hrun, hk, same_space awake_reach hlone hrun⟩

/-- **A stack in the way.**  Pid 33554430 puts the stack of a thread into page 1, right above the program.  The process grows by one page:
it gets a new page there, and the thread keeps its stack. -/
theorem stack_in_the_way : ¬ ∀ (k0 : Kernel) (l : Slot) (tr : Trace) (k : Kernel), Reach Step always Boot k0 → Lone k0 l →
    Run Step (GroupCalls l) k0 tr k → (∀ e ∈ tr, e.out ≠ some (-1)) → SameSpace k l := by
  intro hall
  have hr : Reach Step always Boot (late 33554430) := by
    have h3 := late_reach 33554427 (by decide)
    rwa [show ((33554427 : ℕ) : ℤ) + 3 = 33554430 by decide] at h3
  have hlone : Lone (late 33554430) 0 := ⟨by decide +kernel, by decide +kernel, by decide +kernel, by decide +kernel⟩
  obtain ⟨tr, k, hrun, hout, hlive, hin, hsz, hne⟩ := exists_run (GroupCalls 0) (late 33554430)
    [.syscall 0 (.threadCreate 0 0 0) (pages 20 10), .syscall 0 (.sbrk 4096) (pages 40 5)]
    (fun tr k => (∀ o ∈ tr.map Ev.out, o ≠ some (-1)) ∧ (k.proc 1).state ≠ .unused ∧ inGroup k 1 0 = true ∧ 1 < npages (k.proc 0).sz ∧
      userPte (pteOf (k.proc 1).pagetable 1) ≠ userPte (pteOf (k.proc 0).pagetable 1)) (by decide +kernel)
  refine hne ((hall _ 0 tr k hr hlone hrun (fun e he => hout _ (List.mem_map_of_mem he)) 1 hlive hin).shared 1 hsz)

end OsLabs.Xv6
