import OsLabs.Xv6.Needs
import OsLabs.Xv6.Killed
import OsLabs.Xv6.Reclaim

/-!
# OsLabs.Xv6.Fork — what the child of `fork` sees

`uvmcopy` was written for a process whose pages are exactly those below its size.  A thread has a hole where its leader has the guard page
of `exec`, and a stack far above its size.

* `Copyable`: the caller's table is of the kind that `uvmcopy` can copy.
* `NoRoom`: there is no slot, or `kalloc` does not serve the pages that `fork` asks for before it comes to a page that is not mapped.
* `fork_copies_iff`: these are the calls that neither panic nor lose a page of the caller.
-/

namespace OsLabs.Xv6

open Fallible Lts

variable {k k' k1 : Kernel} {p np : Slot} {P : Proc} {pt pt' old new new' : PageTable} {m m' m0 : Kmem} {e n i c : ℕ} {r : ℤ} {as : List Pa}

/-! ## When the copy returns -/

/-- **`uvmcopy`** of mapped pages returns. -/
theorem uvmcopyLoop_total (hw : old.WF) : ∀ {n i : ℕ} {new : PageTable} {m : Kmem}, i % PGSIZE = 0 → i / PGSIZE + n ≤ tfPage → Sane e new →
    m.OkAt e → (∀ v, v < i / PGSIZE → new.pte v ≠ none) → (∀ v, i / PGSIZE ≤ v → v < tfPage → new.pte v = none) →
    (∀ v, i / PGSIZE ≤ v → v < i / PGSIZE + n → ∃ en, old.pte v = some en ∧ en.perm.r = true) → ∃ r, uvmcopyLoop old n i new m = .ok r
  | 0, i, new, m, _, _, _, _, _, _, _ => ⟨_, rfl⟩
  | n + 1, i, new, m, hi, hn, hs, hm, hlow, hhigh, hold => by
    have hlt : i < MAXVA := by
      simp only [tfPage, TRAPFRAME, TRAMPOLINE, MAXVA, PGSIZE] at *
      omega
    obtain ⟨en, hen, hr⟩ := hold _ le_rfl (by omega)
    have hreach : old.reaches i = true := hw.reaches (by rw [hen]; simp)
    have hundo : ∀ {new1 : PageTable} {m1 : Kmem}, Sane e new1 → m1.OkAt e → new1.pte = new.pte →
        ∃ r, uvmunmap new1 0 (i / PGSIZE) true m1 = .ok r := by
      intro new1 m1 hs1 hm1 hpte
      refine (uvmunmap_ok_iff hs1 hm1 (Nat.zero_mod _) (by rw [Nat.zero_div]; omega)).mpr fun v _ hv => ?_
      rw [hpte]
      exact hlow v (by rw [Nat.zero_div] at hv; omega)
    unfold uvmcopyLoop
    rw [walk_look hlt, ok_bind]
    dsimp only
    rw [hreach, hen]
    simp only [Bool.not_true, Bool.false_eq_true, if_false]
    split
    · rename_i m1 hk
      obtain ⟨r, hr⟩ := hundo hs (kalloc_okAt hm hk) rfl
      rw [hr, ok_bind]
      exact ⟨_, rfl⟩
    · rename_i mem m1 hk
      have hm1 : (m1.memmove mem en.pa).OkAt e := by
        have h := kalloc_okAt hm hk
        exact h
      obtain ⟨⟨ok, new1, m2⟩, hmap⟩ := @mappages_total _ (m1.memmove mem en.pa) _ mem en.perm hi hlt
        (hhigh _ le_rfl (by omega))
      have hm2 : m2.OkAt e := mappages_okAt hm1 _ hmap
      have hfree : (m1.memmove mem en.pa).free = m1.free := rfl
      rw [hmap, ok_bind]
      dsimp only
      cases ok with
      | true =>
        rw [if_pos rfl]
        obtain ⟨-, hone⟩ := Mapped.one (f := fun _ => en.perm) hi hk hfree hmap rfl
        refine uvmcopyLoop_total hw (add_PGSIZE_mod hi) (by rw [add_PGSIZE_div]; omega) (hs.mapped hm hone (by omega) fun _ _ _ => hr) hm2
          (fun v hv => ?_) (fun v h1 h2 => ?_) (fun v h1 h2 => ?_)
        · rw [add_PGSIZE_div] at hv
          by_cases hvi : v = i / PGSIZE
          · obtain ⟨pa, hpa⟩ := hone.new v (by omega) (by omega)
            rw [hpa]
            simp
          · rw [hone.other v (by omega)]
            exact hlow v (by omega)
        · rw [add_PGSIZE_div] at h1
          rw [hone.other v (by omega)]
          exact hhigh v (by omega) h2
        · rw [add_PGSIZE_div] at h1 h2
          exact hold v (by omega) (by omega)
      | false =>
        rw [if_neg (by simp)]
        obtain ⟨-, pt2, hg, ⟨-, rfl⟩ | ⟨hb, -⟩⟩ := mappages_inv hi hmap
        · obtain ⟨m3, hk3, hm3⟩ := kfree_total hm2 (kalloc_legal hm hk)
          obtain ⟨r, hr⟩ := hundo (hs.grows hm1 hg) hm3 hg.pte
          rw [hk3, ok_bind, hr, ok_bind]
          exact ⟨_, rfl⟩
        · cases hb

/-- A copy that ran out of pages had only come to mapped pages so far. -/
theorem uvmcopyLoop_prefix : ∀ {n i : ℕ} {new : PageTable} {m : Kmem} {r : PageTable × Kmem}, i % PGSIZE = 0 →
    uvmcopyLoop old n i new m = .ok (false, r) →
    ∃ c, c ≤ n ∧ (∀ v, i / PGSIZE ≤ v → v < i / PGSIZE + c → old.pte v ≠ none) ∧ uvmcopyLoop old c i new m = .ok (false, r)
  | 0, i, new, m, r, _, h => by cases h
  | n + 1, i, new, m, r, hi, h => by
    have hfirst : ∀ {c : ℕ}, (∀ v, (i + PGSIZE) / PGSIZE ≤ v → v < (i + PGSIZE) / PGSIZE + c → old.pte v ≠ none) →
        old.pte (i / PGSIZE) ≠ none → ∀ v, i / PGSIZE ≤ v → v < i / PGSIZE + (c + 1) → old.pte v ≠ none := by
      intro c hrest hpte v h1 h2
      by_cases hv : v = i / PGSIZE
      · rwa [hv]
      · exact hrest v (by rw [add_PGSIZE_div]; omega) (by rw [add_PGSIZE_div]; omega)
    unfold uvmcopyLoop at h
    rw [bind_ok] at h
    obtain ⟨⟨found, ptw, mw⟩, hw, h⟩ := h
    dsimp only at h
    split_ifs at h with hf
    split at h
    · cases h
    rename_i en hen
    have hpte : old.pte (i / PGSIZE) ≠ none := by
      rw [hen]
      simp
    split at h
    · rename_i m1 hk
      refine ⟨1, by omega, hfirst (fun v h1 h2 => by omega) hpte, ?_⟩
      unfold uvmcopyLoop
      rw [hw, ok_bind]
      dsimp only
      rw [if_neg hf, hen]
      dsimp only
      rw [hk]
      exact h
    · rename_i mem m1 hk
      rw [bind_ok] at h
      obtain ⟨⟨ok, new1, m2⟩, hm, h⟩ := h
      dsimp only at h
      have hback : ∀ {c : ℕ}, (if ok then uvmcopyLoop old c (i + PGSIZE) new1 m2 else do
          let m ← kfree mem m2
          let x ← uvmunmap new1 0 (i / PGSIZE) true m
          .ok (false, x.1, x.2)) = .ok (false, r) → uvmcopyLoop old (c + 1) i new m = .ok (false, r) := by
        intro c hc
        unfold uvmcopyLoop
        rw [hw, ok_bind]
        dsimp only
        rw [if_neg hf, hen]
        dsimp only
        rw [hk]
        dsimp only
        rw [hm, ok_bind]
        exact hc
      cases ok with
      | true =>
        obtain ⟨c, hc, hmapped, hloop⟩ := uvmcopyLoop_prefix (add_PGSIZE_mod hi) h
        exact ⟨c + 1, by omega, hfirst hmapped hpte, hback hloop⟩
      | false => exact ⟨1, by omega, hfirst (fun v h1 h2 => by omega) hpte, hback (c := 0) h⟩

/-- More pages to copy do not help. -/
theorem uvmcopyLoop_mono : ∀ {c n i : ℕ} {new : PageTable} {m : Kmem} {r : PageTable × Kmem}, c ≤ n →
    uvmcopyLoop old c i new m = .ok (false, r) → uvmcopyLoop old n i new m = .ok (false, r)
  | 0, _, i, new, m, r, _, h => by cases h
  | c + 1, 0, i, new, m, r, hcn, _ => by omega
  | c + 1, n + 1, i, new, m, r, hcn, h => by
    unfold uvmcopyLoop at h ⊢
    rw [bind_ok] at h
    obtain ⟨⟨found, ptw, mw⟩, hw, h⟩ := h
    rw [hw, ok_bind]
    dsimp only at h ⊢
    split_ifs at h with hf
    rw [if_neg hf]
    split at h
    · cases h
    rename_i en hen
    split at h
    · exact h
    · rename_i mem m1 hk
      rw [bind_ok] at h
      obtain ⟨⟨ok, new1, m2⟩, hm, h⟩ := h
      rw [hm, ok_bind]
      dsimp only at h ⊢
      cases ok with
      | true => exact uvmcopyLoop_mono (by omega) h
      | false => exact h

/-! ## Giving a slot back -/

/-- **`freeproc`** of a slot whose pages come from the free list of `m0`, and which has no user page. -/
theorem FreeMem.draws (h : FreeMem P m m') (hsz : npages P.sz = 0)
    (hfree : ∀ x, m.free x + onePage P.trapframe x + (P.pagetable.elim 0 fun pt => pt.tab x) ≤ m0.free x)
    (hdata : ∀ x, m0.free x = 0 → m.data x = m0.data x) : Draws m0 m' := by
  obtain ⟨m1, h1, h2⟩ := h
  have hf1 := fun x => kfreeOpt_free h1 x
  have hd1 : ∀ x, m0.free x = 0 → m1.data x = m0.data x := by
    intro x hx
    cases htf : P.trapframe with
    | none =>
      rw [htf] at h1
      obtain rfl := Except.ok.inj h1
      exact hdata x hx
    | some tf =>
      rw [htf] at h1
      have hne : x ≠ tf := by
        rintro rfl
        have h3 := hfree x
        rw [htf] at h3
        have h4 : onePage (some x) x = 1 := if_pos rfl
        omega
      rw [kfree_data h1 hne, hdata x hx]
  cases hpt : P.pagetable with
  | none =>
    rw [hpt] at h2
    obtain rfl := Except.ok.inj h2
    refine ⟨fun x => ?_, hd1⟩
    have h3 := hfree x
    have h4 := hf1 x
    omega
  | some pt =>
    rw [hpt] at h2
    have hle : ∀ x, m1.free x + pt.tab x ≤ m0.free x := by
      intro x
      have h3 := hfree x
      rw [hpt, Option.elim_some] at h3
      have h4 := hf1 x
      omega
    refine ⟨fun x => ?_, fun x hx => ?_⟩
    · obtain ⟨-, -, f, -, hf⟩ := procFreepagetable_inv h2
      have h3 := hf x
      rw [hsz, leaves_zero] at h3
      have h4 := hle x
      omega
    · have h3 := hle x
      have h4 : x ∉ pt.pages := List.count_eq_zero.mp (show pt.tab x = 0 by omega)
      rw [procFreepagetable_data h2 h4 fun v en hv => by omega, hd1 x hx]

theorem AllocRes.draws {o : Option Slot} (h : AllocRes k o k') (hf : k.Fine e) : Draws k.mem k'.mem := by
  cases h with
  | noSlot _ => exact .refl _
  | @noTrapframe i m1 m hi h1 h2 =>
    refine FreeMem.draws h2 (by show npages (k.proc i).sz = 0; rw [((hf i).bare hi).2.2.1, npages_zero]) (fun x => ?_)
      (kalloc_draws h1).data
    have h3 : (k.proc i).pagetable = none := ((hf i).bare hi).1
    have h4 := (kalloc_draws h1).free x
    simp only [onePage, h3, Option.elim_none]
    omega
  | @noPagetable i tf m1 m2 m hi h1 h2 h3 =>
    have hd := (kalloc_draws h1).trans (procPagetable_draws h2).1
    refine FreeMem.draws h3 (by show npages (k.proc i).sz = 0; rw [((hf i).bare hi).2.2.1, npages_zero]) (fun x => ?_) hd.data
    have h4 := (procPagetable_draws h2).1.free x
    have h5 := kalloc_some h1 x
    simp only [onePage, Option.elim_none]
    omega
  | ok hi h1 h2 => exact (kalloc_draws h1).trans (procPagetable_draws h2).1

/-- The pages that `allocproc` takes. -/
theorem AllocRes.takes (h : AllocRes k (some np) k') (hpt : (k'.proc np).pagetable = some pt) :
    pt.keys = kernelKeys ∧ Takes 4 k.mem k'.mem := by
  cases h with
  | @ok _ tf pt1 m1 m2 hi h1 h2 =>
    rw [Kernel.setProc_self] at hpt
    obtain rfl := Option.some.inj hpt
    obtain ⟨hkeys, ht⟩ := procPagetable_takes h2
    exact ⟨hkeys, (Takes.alloc h1).trans ht⟩

/-! ## The call -/

/-- No page is free that a user can reach, and none is free twice. -/
structure Kernel.Apart (k : Kernel) : Prop where
  once : k.mem.Once
  user : ∀ j pt v en, (k.proc j).pagetable = some pt → v < tfPage → pt.pte v = some en → k.mem.free en.pa = 0

/-- Nothing has happened to another process. -/
structure SameProcs (k k' : Kernel) : Prop where
  live : ∀ j, (k.proc j).state ≠ .unused → k'.proc j = k.proc j
  unused : ∀ j, (k.proc j).state = .unused → (k'.proc j).state = .unused
  bytes : ∀ j pt v en, (k.proc j).pagetable = some pt → v < tfPage → pt.pte v = some en → k'.mem.data en.pa = k.mem.data en.pa

/-- `np` is a new process with a copy of every page that `p` can reach. -/
structure Child (k k' : Kernel) (p np : Slot) : Prop where
  unused : (k.proc np).state = .unused
  state : (k'.proc np).state = .runnable
  thread : (k'.proc np).isThread = false
  other : ∀ j, j ≠ np → k'.proc j = k.proc j
  copy : ∀ pt v en, (k.proc p).pagetable = some pt → pt.pte v = some en → en.perm.u = true → ∃ pt' pa,
    (k'.proc np).pagetable = some pt' ∧ pt'.pte v = some ⟨pa, en.perm⟩ ∧ k'.mem.data pa = k.mem.data en.pa ∧
    -- the copy is not mapped anywhere else
    ∀ j q w en', (k'.proc j).pagetable = some q → w < tfPage → q.pte w = some en' → en'.pa = pa → j = np ∧ w = v

/-- `fork` returns: -1 and nothing happened, or there is a child with a copy of the caller's memory. -/
def Forks (k : Kernel) (p : Slot) (as : List Pa) : Prop :=
  ∃ r k', step k (.syscall p .fork as) = .ok (some r, k') ∧ ((r = -1 ∧ SameProcs k k') ∨ ∃ np, Child k k' p np)

/-- Every page below the size is mapped, and the user can reach none above it. -/
def Copyable (k : Kernel) (p : Slot) : Prop :=
  ∀ pt, (k.proc p).pagetable = some pt → (∀ v, v < npages (k.proc p).sz → pt.pte v ≠ none) ∧
    ∀ v en, npages (k.proc p).sz ≤ v → pt.pte v = some en → en.perm.u = false

/-- There is no slot, or `kalloc` does not serve the pages that `fork` asks for to copy the first `c` pages, which are mapped. -/
def NoRoom (k : Kernel) (p : Slot) : Prop :=
  (∀ i, (k.proc i).state ≠ .unused) ∨ ∃ c pt, (k.proc p).pagetable = some pt ∧ c ≤ npages (k.proc p).sz ∧
    (∀ v, v < c → pt.pte v ≠ none) ∧ serves (4 + mapNeeds c 0 kernelKeys) k.mem = false

theorem two_le_leaves {f : ℕ → Option Pte} {v w : ℕ} {x : Pa} {en en' : Pte} (hv : v < n) (hw : w < n) (hne : v ≠ w) (h1 : f v = some en)
    (h2 : f w = some en') (hx : en.pa = x) (hx' : en'.pa = x) : 2 ≤ leaves f 0 n x := by
  wlog hlt : v < w generalizing v w en en'
  · exact this hw hv (Ne.symm hne) h2 h1 hx' hx (by omega)
  have e1 := leaves_add f 0 w (n - w) x
  rw [Nat.zero_add, show w + (n - w) = n by omega] at e1
  have e2 := leaf_le_leaves (f := f) (a := 0) (n := w) (v := v) (Nat.zero_le _) (by omega) x
  have e3 := leaf_le_leaves (f := f) (a := w) (n := n - w) (v := w) le_rfl (by omega) x
  have e4 : single x x = 1 := if_pos rfl
  rw [h1, leaf_some, hx, e4] at e2
  rw [h2, leaf_some, hx', e4] at e3
  omega

/-- The loop that duplicates descriptors returns. -/
theorem filedupAll_total (hI : FileInv k) (p : Slot) : ∃ fs, filedupAll (k.proc p).ofile k.fs = .ok fs := by
  have honly : Fails (fun e => e = Panic.filedup) (filedupAll (k.proc p).ofile k.fs) := by
    refine Fails.foldlM (I := fun _ => True) (fun _ _ _ _ _ => trivial) (fun fs fd _ => ?_) trivial
    split
    · exact .ok _
    · unfold filedup
      split_ifs
      · exact .error rfl
      · exact .ok _
  cases h : filedupAll (k.proc p).ofile k.fs with
  | ok fs => exact ⟨fs, rfl⟩
  | error e =>
    have h1 := filedupAll_fails hI.fs (fun g => hI.count_le p g) e h
    exact absurd (honly e h) h1.1

section Call

variable (hf : k.Fine e) (hm : k.mem.OkAt e) (hb : (k.proc p).Busy)

include hf hm hb

/-- **`fork` returns** when it can copy, or when it runs out first. -/
theorem fork_total (hI : FileInv k) (hbare : k.Bare) (hc : Copyable k p ∨ NoRoom k p) : ∃ r, fork k p = .ok r := by
  rcases allocproc_total hm hbare with ⟨-, k1, hal, -⟩ | ⟨⟨i, hi⟩, -, np, k1, tf, new, hal, ht⟩
  · unfold fork
    rw [hal, ok_bind]
    exact ⟨_, rfl⟩
  have hres := allocproc_inv hal
  have hpn : p ≠ np := hres.ne hb.live
  have hp1 : k1.proc p = k.proc p := ht.other p hpn
  obtain ⟨pt, hpt⟩ := Option.ne_none_iff_exists'.mp ((hf p).live hb.live).1
  have hs := (hf p).table pt hpt
  have hnp := npages_le (hf p).sz
  obtain ⟨hkeys, htake⟩ := hres.takes ht.pagetable
  obtain ⟨tf', new', ht', hsn⟩ := hres.taken hm
  obtain rfl : new = new' := Option.some.inj (ht.pagetable.symm.trans ht'.pagetable)
  have hcopy : ∀ c, c ≤ npages (k.proc p).sz → (∀ v, v < c → pt.pte v ≠ none) → ∃ r, uvmcopyLoop pt c 0 new k1.mem = .ok r := by
    intro c hle hall
    refine uvmcopyLoop_total hs.shaped.wf (Nat.zero_mod _) (by rw [Nat.zero_div]; omega) hsn ht.okAt (fun v hv => ?_)
      (fun v _ hv => ht.only.user v hv) fun v _ hv => ?_
    · rw [Nat.zero_div] at hv
      omega
    · rw [Nat.zero_div] at hv
      obtain ⟨en, hen⟩ := Option.ne_none_iff_exists'.mp (hall v (by omega))
      exact ⟨en, hen, hs.perm v en (by omega) hen⟩
  obtain ⟨⟨b, new1, m1⟩, hu⟩ : ∃ r, uvmcopyLoop pt (npages (k.proc p).sz) 0 new k1.mem = .ok r := by
    rcases hc with hc | hc | ⟨c, pt', hpt', hle, hall, hserve⟩
    · exact hcopy _ le_rfl (hc pt hpt).1
    · exact absurd hi (hc i)
    · obtain rfl : pt = pt' := Option.some.inj (hpt.symm.trans hpt')
      obtain ⟨⟨b, new1, m1⟩, hu⟩ := hcopy c hle hall
      rw [htake.count] at hserve
      rcases uvmcopyLoop_takes (Nat.zero_mod _) hu with ⟨-, ht2⟩ | ⟨rfl, -⟩
      · rw [hkeys] at ht2
        rw [ht2.serves] at hserve
        cases hserve
      · exact ⟨_, uvmcopyLoop_mono hle hu⟩
  have hopt : uvmcopyOpt (k1.proc p).pagetable new (k1.proc p).sz k1.mem = .ok (b, new1, m1) := by
    rw [hp1, hpt]
    show uvmcopyLoop pt _ 0 new k1.mem = _
    rw [copy_npages (hf p).sz, hu]
  unfold fork
  rw [hal, ok_bind]
  dsimp only
  rw [ht.pagetable]
  dsimp only
  rw [hopt, ok_bind]
  dsimp only
  cases b with
  | false =>
    simp only [Bool.not_false, if_true]
    -- the copy left a table without user pages
    obtain ⟨hb', -⟩ | ⟨-, hundo⟩ := uvmcopyLoop_inv (Nat.zero_mod _) hu
    · cases hb'
    rw [Nat.zero_div] at hundo
    have hg : Grows new new1 k1.mem m1 :=
      ⟨by rw [hundo.pte, PageTable.unmap_zero], hundo.root, hundo.dir, fun x => by simpa using hundo.pages x⟩
    have hm1 : m1.OkAt e := uvmcopyLoop_okAt ht.okAt _ hu
    obtain ⟨m2, h2, hm2⟩ := kfree_total hm1 ht.legal
    have hsz : npages (k1.proc np).sz = 0 := by
      rw [ht.sz, ((hf np).bare ht.unused).2.2.1, npages_zero]
    obtain ⟨m3, h3⟩ := (ht.only.grows hg).free_total hsz hm2 fun y hy => (hsn.grows ht.okAt hg).page hy
    obtain ⟨k2, hk2⟩ : ∃ k2, freeproc ((k1.setMem m1).setProc np { k1.proc np with pagetable := some new1 }) np = .ok k2 := by
      unfold freeproc
      simp only [Kernel.setProc_self, Kernel.setProc_mem, Kernel.setMem_mem, bind_ok]
      refine ⟨_, m2, ?_, m3, h3, rfl⟩
      rw [ht.self]
      exact h2
    exact ⟨(-1, k2), bind_ok.mpr ⟨k2, hk2, rfl⟩⟩
  | true =>
    simp only [Bool.not_true, Bool.false_eq_true, if_false]
    obtain ⟨fs, hdup⟩ := filedupAll_total (hI.alloc hres).1 p
    obtain ⟨c, hcwd⟩ := Option.ne_none_iff_exists'.mp (hb.cwd (hf p).home)
    simp only [Kernel.setProc_of_ne _ _ hpn, Kernel.setMem_proc, Kernel.setProc_fs, Kernel.setMem_fs, hdup, ok_bind]
    rw [hp1, hcwd]
    exact ⟨_, rfl⟩

/-- **A `fork` that returns -1** has left everything as it was. -/
theorem ForkRes.same_or_child (h : ForkRes k p r k') (ha : k.Apart) (hc : Copyable k p ∨ NoRoom k p) :
    (r = -1 ∧ SameProcs k k') ∨ ∃ np, Child k k' p np := by
  have hsame : ∀ {k' : Kernel}, (∀ j, (k.proc j).state ≠ .unused → k'.proc j = k.proc j) →
      (∀ j, (k.proc j).state = .unused → (k'.proc j).state = .unused) → Draws k.mem k'.mem → SameProcs k k' := fun h1 h2 hd =>
    ⟨h1, h2, fun j pt v en hpt hv hen => hd.data _ (ha.user j pt v en hpt hv hen)⟩
  obtain ⟨pt, hpt⟩ := Option.ne_none_iff_exists'.mp ((hf p).live hb.live).1
  have hlive := fun j hj => ForkRes.proc_live (j := j) h hj
  cases h with
  | noSlot hal =>
    exact .inl ⟨rfl, hsame hlive (fun j hj => hal.stays_unused hj) (hal.draws hf)⟩
  | @noCopy np k1 new new1 m1 m hal hnew hu hmem =>
    obtain ⟨tf, new', ht, hsn⟩ := hal.taken hm
    obtain rfl : new' = new := Option.some.inj (ht.pagetable.symm.trans hnew)
    have hp1 : k1.proc p = k.proc p := ht.other p (hal.ne hb.live)
    rw [hp1, hpt] at hu
    have hd1 := (uvmcopyLoop_draws (Nat.zero_mod _) (by rw [Nat.zero_div]; exact .start new' k1.mem 0) hu).1
    obtain ⟨hb', -⟩ | ⟨-, hundo⟩ := uvmcopyLoop_inv (Nat.zero_mod _) hu
    · cases hb'
    rw [Nat.zero_div] at hundo
    refine .inl ⟨rfl, hsame hlive (fun j hj => ?_) ?_⟩
    · rw [Kernel.setProc_apply]
      split_ifs with hjn
      · rfl
      · rw [Kernel.setMem_proc, ht.other j hjn]
        exact hj
    · rw [Kernel.setProc_mem, Kernel.setMem_mem]
      refine hmem.draws ?_ (fun x => ?_) ((hal.draws hf).trans hd1).data
      · show npages (k1.proc np).sz = 0
        rw [ht.sz, ((hf np).bare ht.unused).2.2.1, npages_zero]
      · have h1 := hundo.pages x
        have h2 := ht.pages x
        have h3 : (k1.proc np).trapframe = some tf := by
          rw [ht.self]
          rfl
        simp only [leaves_zero, add_zero] at h1
        show m1.free x + onePage (k1.proc np).trapframe x + new1.tab x ≤ _
        rw [h3]
        show m1.free x + single tf x + new1.tab x ≤ _
        omega
  | @ok np k1 new new1 m1 cd fs hal hnew hu hdup hcwd =>
    obtain ⟨tf, new', ht, hsn⟩ := hal.taken hm
    obtain rfl : new' = new := Option.some.inj (ht.pagetable.symm.trans hnew)
    have hp1 : k1.proc p = k.proc p := ht.other p (hal.ne hb.live)
    have hs := (hf p).table pt hpt
    have hdk := hal.draws hf
    have hnp := npages_le (hf p).sz
    have hfull := (uvmcopyOpt_sane hsn ht.okAt (by rw [hp1]; exact (hf p).table) ht.only.user (by rw [hp1]; exact (hf p).sz) hu).2
    rw [hp1] at hfull
    rw [hp1, hpt] at hu
    have hu : uvmcopyLoop pt (((k.proc p).sz + (PGSIZE - 1)) / PGSIZE) 0 new' k1.mem = .ok (true, new1, m1) := hu
    rw [copy_npages (hf p).sz] at hu
    have hcopyable : Copyable k p := by
      rcases hc with hc | hc | ⟨c, pt', hpt', hle, hall, hserve⟩
      · exact hc
      · exact absurd ht.unused (hc np)
      · -- all pages were served
        obtain ⟨hkeys, htake⟩ := hal.takes ht.pagetable
        rcases uvmcopyLoop_takes (Nat.zero_mod _) hu with ⟨-, ht2⟩ | ⟨hb', -⟩
        · rw [htake.count] at hserve
          have hs2 := serves_mono (@mapNeeds_mono _ _ 0 kernelKeys hle) hserve
          rw [hkeys] at ht2
          rw [ht2.serves] at hs2
          cases hs2
        · cases hb'
    obtain ⟨-, hhigh⟩ := hcopyable pt hpt
    have hold : ∀ v en, v < tfPage → pt.pte v = some en → k1.mem.free en.pa = 0 := fun v en hv hen => by
      have h1 := ha.user p pt v en hpt hv hen
      have h2 := hdk.free en.pa
      omega
    obtain ⟨-, hcopy⟩ := uvmcopyLoop_copy (hdk.once ha.once) (Nat.zero_mod _)
      (fun v en _ hv => hold v en (by rw [Nat.zero_div] at hv; omega)) hu
    have hdrawn := (uvmcopyLoop_draws (Nat.zero_mod _) (by rw [Nat.zero_div]; exact .start new' k1.mem 0) hu).2 rfl
    rw [Nat.zero_div, Nat.zero_add] at hdrawn hcopy
    refine .inr ⟨np, ht.unused, by rw [Kernel.setProc_self]; rfl, ?_, fun j hj => ?_, fun pt0 v en hpt0 hen hu' => ?_⟩
    · rw [Kernel.setProc_self]
      show (k1.proc np).isThread = false
      rw [ht.self]
      rfl
    · rw [Kernel.setProc_of_ne _ _ hj]
      exact ht.other j hj
    · obtain rfl : pt = pt0 := Option.some.inj (hpt.symm.trans hpt0)
      have hv : v < npages (k.proc p).sz := by
        by_contra hge
        rw [hhigh v en (by omega) hen] at hu'
        cases hu'
      obtain ⟨en0, pa, hen0, hpa, hdata⟩ := hcopy v (Nat.zero_le _) hv
      obtain rfl : en = en0 := Option.some.inj (hen.symm.trans hen0)
      have hpos := hdrawn.pos (v := v) (Nat.zero_le _) (by omega) hpa
      refine ⟨new1, pa, by rw [Kernel.setProc_self]; rfl, hpa, ?_, fun j q w en' hq hw hen' hx => ?_⟩
      · show m1.data pa = _
        rw [hdata, hdk.data _ (ha.user p pt v en hpt (by omega) hen)]
      · by_cases hj : j = np
        · subst hj
          rw [Kernel.setProc_self] at hq
          obtain rfl : new1 = q := Option.some.inj hq
          refine ⟨rfl, ?_⟩
          by_contra hne
          have hw' : w < npages (k.proc p).sz := by
            by_contra hge
            rw [hfull.high w (by omega) hw] at hen'
            cases hen'
          have h1 := two_le_leaves hw' hv hne hen' hpa hx rfl
          have h2 := hdrawn.free pa
          have h3 := hdk.free pa
          have h4 := ha.once pa
          omega
        · rw [Kernel.setProc_of_ne _ _ hj] at hq
          have hq : (k1.proc j).pagetable = some q := hq
          rw [ht.other j hj] at hq
          have h1 := ha.user j q w en' hq hw hen'
          have h2 := hdk.free pa
          rw [hx] at h1
          have h3 : 0 < k1.mem.free pa := hpos
          omega

/-- **A `fork` that keeps its promise** could copy, or ran out first. -/
theorem ForkRes.copyable_or_noRoom (h : ForkRes k p r k') (hok : (r = -1 ∧ SameProcs k k') ∨ ∃ np, Child k k' p np) :
    Copyable k p ∨ NoRoom k p := by
  obtain ⟨pt, hpt⟩ := Option.ne_none_iff_exists'.mp ((hf p).live hb.live).1
  have hs := (hf p).table pt hpt
  cases h with
  | noSlot hal =>
    have hstarved : serves 4 k.mem = false → NoRoom k p := fun hno =>
      .inr ⟨0, pt, hpt, Nat.zero_le _, fun v hv => by omega, serves_mono (Nat.le_add_right _ _) hno⟩
    refine .inr ?_
    cases hal with
    | noSlot hno => exact .inl hno
    | noTrapframe _ h1 _ => exact hstarved (serves_none h1)
    | @noPagetable i tf m1 m2 m hi h1 h2 _ =>
      rcases procPagetable_total tf (kalloc_okAt hm h1) with ⟨hno, -⟩ | ⟨-, pt1, m3, h3, -⟩
      · exact hstarved ((serves_some h1).trans hno)
      · rw [h2] at h3
        cases h3
  | @noCopy np k1 new new1 m1 m hal hnew hu hmem =>
    obtain ⟨tf, new', ht, hsn⟩ := hal.taken hm
    obtain rfl : new' = new := Option.some.inj (ht.pagetable.symm.trans hnew)
    rw [ht.other p (hal.ne hb.live), hpt] at hu
    have hu : uvmcopyLoop pt (((k.proc p).sz + (PGSIZE - 1)) / PGSIZE) 0 new' k1.mem = .ok (false, new1, m1) := hu
    rw [copy_npages (hf p).sz] at hu
    obtain ⟨c, hle, hall, hc⟩ := uvmcopyLoop_prefix (Nat.zero_mod _) hu
    rw [Nat.zero_div] at hall
    obtain ⟨hkeys, htake⟩ := hal.takes ht.pagetable
    rcases uvmcopyLoop_takes (Nat.zero_mod _) hc with ⟨hb', -⟩ | ⟨-, hserve⟩
    · cases hb'
    · rw [hkeys] at hserve
      exact .inr (.inr ⟨c, pt, hpt, hle, fun v hv => hall v (Nat.zero_le _) (by omega), htake.starved hserve⟩)
  | @ok np k1 new new1 m1 cd fs hal hnew hu hdup hcwd =>
    obtain ⟨tf, new', ht, hsn⟩ := hal.taken hm
    obtain rfl : new' = new := Option.some.inj (ht.pagetable.symm.trans hnew)
    have hp1 : k1.proc p = k.proc p := ht.other p (hal.ne hb.live)
    have hfull := (uvmcopyOpt_sane hsn ht.okAt (by rw [hp1]; exact (hf p).table) ht.only.user (by rw [hp1]; exact (hf p).sz) hu).2
    rw [hp1] at hfull
    rw [hp1, hpt] at hu
    have hu : uvmcopyLoop pt (((k.proc p).sz + (PGSIZE - 1)) / PGSIZE) 0 new' k1.mem = .ok (true, new1, m1) := hu
    rw [copy_npages (hf p).sz] at hu
    obtain ⟨-, -, hlow⟩ | ⟨hb', -⟩ := uvmcopyLoop_inv (Nat.zero_mod _) hu
    · rw [Nat.zero_div] at hlow
      refine .inl fun pt0 hpt0 => ?_
      obtain rfl : pt = pt0 := Option.some.inj (hpt.symm.trans hpt0)
      refine ⟨fun v hv => hlow v (Nat.zero_le _) (by omega), fun v en hv hen => ?_⟩
      -- a page above the size that the user can reach is missing in the child
      by_contra hu'
      have hu' : en.perm.u = true := by simpa using hu'
      have hvt : v < tfPage := by
        by_contra hge
        rw [hs.shaped.high v en (by omega) hen] at hu'
        cases hu'
      rcases hok with ⟨-, hsame⟩ | ⟨np', hchild⟩
      · have h1 := hsame.unused np ht.unused
        rw [Kernel.setProc_self] at h1
        cases h1
      · have hnp' : np' = np := by
          by_contra hne
          have h1 := hchild.state
          rw [Kernel.setProc_of_ne _ _ hne] at h1
          have h1 : (k1.proc np').state = .runnable := h1
          rw [ht.other np' hne, hchild.unused] at h1
          cases h1
        subst hnp'
        obtain ⟨pt', pa, hpt', hpa, -⟩ := hchild.copy pt v en hpt hen hu'
        rw [Kernel.setProc_self] at hpt'
        obtain rfl : new1 = pt' := Option.some.inj hpt'
        rw [hfull.high v hv hvt] at hpa
        cases hpa
    · cases hb'

end Call

end OsLabs.Xv6
