import OsLabs.Xv6.Fine
import OsLabs.Xv6.Group

/-!
# OsLabs.Xv6.Owner — who owns a physical page

A page of physical memory is free, or belongs to one slot of the process table, or to a pipe.  A slot owns its trapframe page, the pages
of its page table, its user pages, and what an `exec` in progress has built.  A thread does not own the user pages that its leader
maps at the same place; it owns the others, which is its stack.

* `Kernel.owns k q x`: how often slot `q` owns page `x`.
* `Kernel.total k x`: how often `x` is free or owned.  While this is at most one, nothing that is in use is free.
* `Quiet.total_le`, `Kernel.total_write`, `Kernel.total_freed`: a step that leaves the memory of every slot alone, that changes one slot,
  that gives one slot up.
* `fileclose_pages`, `pipealloc_pages`, …: pipes take pages from the free list and give them back.
-/

namespace OsLabs.Xv6

open Fallible Lts Tally

variable {k k' k1 : Kernel} {p q i j l : Slot} {pt pt' : PageTable} {m m' : Kmem} {P P' : Proc} {fs fs' : Files} {e n a v : ℕ} {x : Pa}
  {f f' g g' : ℕ → Option Pte}

/-! ## Counting -/

/-- The entries of `f` without those that map the same page as `g` does. -/
def apart (g f : ℕ → Option Pte) (v : ℕ) : Option Pte := if (f v).map Pte.pa = (g v).map Pte.pa then none else f v

/-- The entries of the leader of `P`. -/
def Kernel.leaderPte (k : Kernel) (P : Proc) (v : ℕ) : Option Pte := P.father.bind fun f => pteOf (k.proc f).pagetable v

/-- The entries that count as the user pages of `P` when its leader has the entries `g`. -/
def Proc.user (P : Proc) (g : ℕ → Option Pte) : ℕ → Option Pte :=
  if P.isThread then apart g (pteOf P.pagetable) else pteOf P.pagetable

/-- What an `exec` in progress has built. -/
def Frame.held : Frame → Pa → ℕ
  | .exec pt _, x => pt.held x
  | _, _ => 0

/-- What the call that `P` is in has built. -/
def Proc.building (P : Proc) (x : Pa) : ℕ := if P.state = .unused then 0 else P.frame.held x

/-- What `P` owns apart from the pages of its page table. -/
def Proc.rest (P : Proc) (g : ℕ → Option Pte) (x : Pa) : ℕ := onePage P.trapframe x + leaves (P.user g) 0 tfPage x + P.building x

/-- How often slot `q` owns page `x`. -/
def Kernel.owns (k : Kernel) (q : Slot) (x : Pa) : ℕ :=
  tabOf (k.proc q).pagetable x + (k.proc q).rest (k.leaderPte (k.proc q)) x

/-- How often `x` holds a pipe. -/
def Files.pipePages (fs : Files) (x : Pa) : ℕ := ∑ i ∈ Finset.range fs.nextPipe, onePage ((fs.pipe i).map Pipe.pa) x

/-- How often page `x` is free or owned. -/
def Kernel.total (k : Kernel) (x : Pa) : ℕ := k.mem.free x + ∑ q, k.owns q x + k.fs.pipePages x

/-- Thread `q` maps at `v` the page that its leader maps there. -/
def Kernel.SharedAt (k : Kernel) (q : Slot) (v : ℕ) : Prop :=
  (k.proc q).isThread = true ∧ ∃ f en en', (k.proc q).father = some f ∧ pteOf (k.proc q).pagetable v = some en ∧
    pteOf (k.proc f).pagetable v = some en' ∧ en.pa = en'.pa

theorem Kernel.leaderPte_some {P : Proc} {c : Slot} (h : P.father = some c) : k.leaderPte P = pteOf (k.proc c).pagetable := by
  funext v
  unfold leaderPte
  rw [h, Option.bind_some]

/-- The pages of the tables apart. -/
theorem Kernel.total_eq (k : Kernel) (x : Pa) :
    k.total x = k.tabs x + ∑ q, (k.proc q).rest (k.leaderPte (k.proc q)) x + k.fs.pipePages x := by
  unfold total tabs owns
  rw [Finset.sum_add_distrib]
  omega

theorem apart_of_none (h : f v = none) : apart g f v = none := by
  unfold apart
  split_ifs
  · rfl
  · exact h

theorem leaf_apart_le (g f : ℕ → Option Pte) (v : ℕ) (x : Pa) : leaf (apart g f v) x ≤ leaf (f v) x := by
  unfold apart
  split_ifs
  · rw [leaf_none]
    exact Nat.zero_le _
  · exact le_rfl

/-- A leader that maps more leaves less to its threads. -/
theorem leaf_apart_grow (h : g v = none ∨ g' v = g v) : leaf (apart g' f v) x ≤ leaf (apart g f v) x := by
  rcases h with h | h
  · have hself : apart g f v = f v := by
      unfold apart
      rw [h]
      split_ifs with hf
      · exact (Option.map_eq_none_iff.mp hf).symm
      · rfl
    rw [hself]
    exact leaf_apart_le g' f v x
  · unfold apart
    rw [h]

theorem leaves_le (h : ∀ v, a ≤ v → v < a + n → leaf (f v) x ≤ leaf (g v) x) : leaves f a n x ≤ leaves g a n x :=
  Finset.sum_le_sum fun i hi => h (a + i) (by omega) (by have := Finset.mem_range.mp hi; omega)

theorem leaves_none (a n : ℕ) (x : Pa) : leaves (fun _ => none) a n x = 0 := Finset.sum_eq_zero fun _ _ => rfl

/-- One entry changes. -/
theorem leaves_write (hv : v < n) (h : ∀ w, w < n → w ≠ v → g w = f w) :
    leaves g 0 n x + leaf (f v) x = leaves f 0 n x + leaf (g v) x := by
  have hsum := sum_write (f := fun i : Fin n => leaf (f i) x) (g := fun i : Fin n => leaf (g i) x) (i := ⟨v, hv⟩) fun j hj =>
    congrArg (leaf · x) (h j j.isLt fun hjv => hj (Fin.ext hjv))
  unfold leaves
  simp only [Nat.zero_add, Finset.sum_range]
  exact hsum

theorem Proc.user_process (h : P.isThread = false) (g : ℕ → Option Pte) : P.user g = pteOf P.pagetable := by
  unfold user
  rw [h]
  rfl

theorem Proc.user_thread (h : P.isThread = true) (g : ℕ → Option Pte) : P.user g = apart g (pteOf P.pagetable) := by
  unfold user
  rw [if_pos h]

/-- Nobody owns more user pages than it maps. -/
theorem Proc.leaf_user_le (P : Proc) (g : ℕ → Option Pte) (v : ℕ) (x : Pa) : leaf (P.user g v) x ≤ leaf (pteOf P.pagetable v) x := by
  unfold user
  split_ifs
  · exact leaf_apart_le _ _ _ _
  · exact le_rfl

/-- Without a page table there are no user pages. -/
theorem Proc.user_none (h : P.pagetable = none) (g : ℕ → Option Pte) : P.user g = fun _ => none := by
  funext v
  have hnone : pteOf P.pagetable v = none := by rw [h, pteOf_none]
  unfold user
  split_ifs
  · exact apart_of_none hnone
  · exact hnone

/-- A page that is not shared is owned. -/
theorem Kernel.user_of_not_shared (h : ¬ k.SharedAt q v) : (k.proc q).user (k.leaderPte (k.proc q)) v = pteOf (k.proc q).pagetable v := by
  unfold Proc.user
  split_ifs with ht
  · unfold apart
    split_ifs with heq
    · cases hen : pteOf (k.proc q).pagetable v with
      | none => rfl
      | some en =>
        rw [hen, Option.map_some] at heq
        obtain ⟨en', hen', hpa⟩ := Option.map_eq_some_iff.mp heq.symm
        obtain ⟨f, hf, hfv⟩ := Option.bind_eq_some_iff.mp hen'
        exact absurd ⟨ht, f, en, en', hf, hen, hfv, hpa.symm⟩ h
    · rfl
  · rfl

/-- The page table of a process and its user pages. -/
theorem tabOf_add_leaves (pt : Option PageTable) (x : Pa) :
    tabOf pt x + leaves (pteOf pt) 0 tfPage x = pt.elim 0 fun pt => pt.held x := by
  cases pt with
  | none =>
    have h : pteOf none = fun _ => none := rfl
    rw [h, leaves_none, tabOf_none, Option.elim_none]
  | some pt =>
    have h : pteOf (some pt) = pt.pte := rfl
    rw [h, tabOf_some, Option.elim_some, PageTable.held]

theorem Frame.held_of_not_exec {fr : Frame} (h : fr.isExec = false) (x : Pa) : fr.held x = 0 := by
  cases fr with
  | exec pt sz => cases h
  | _ => rfl

theorem Proc.building_of_not_exec (h : P.frame.isExec = false) (x : Pa) : P.building x = 0 := by
  unfold building
  rw [Frame.held_of_not_exec h, ite_self]

theorem Proc.building_congr (hst : P'.state = P.state) (hfr : P'.frame = P.frame) (x : Pa) : P'.building x = P.building x := by
  unfold building
  rw [hst, hfr]

theorem Proc.building_exec {sz : ℕ} (hfr : P.frame = .exec pt sz) (hu : P.state ≠ .unused) (x : Pa) : P.building x = pt.held x := by
  unfold building
  rw [if_neg hu, hfr]
  rfl

/-- What a slot owns that shares nothing with its leader. -/
theorem Kernel.owns_of_not_shared (h : ∀ v, v < tfPage → ¬ k.SharedAt q v) (x : Pa) : k.owns q x =
    ((k.proc q).pagetable.elim 0 fun pt => pt.held x) + onePage (k.proc q).trapframe x + (k.proc q).building x := by
  have huser : leaves ((k.proc q).user (k.leaderPte (k.proc q))) 0 tfPage x = leaves (pteOf (k.proc q).pagetable) 0 tfPage x :=
    congrFun (leaves_congr fun v _ hv => Kernel.user_of_not_shared (h v (by omega))) x
  unfold owns Proc.rest
  rw [huser, ← tabOf_add_leaves]
  omega

/-- Nobody owns more than that. -/
theorem Kernel.owns_le (k : Kernel) (q : Slot) (x : Pa) : k.owns q x ≤
    ((k.proc q).pagetable.elim 0 fun pt => pt.held x) + onePage (k.proc q).trapframe x + (k.proc q).building x := by
  have huser : leaves ((k.proc q).user (k.leaderPte (k.proc q))) 0 tfPage x ≤ leaves (pteOf (k.proc q).pagetable) 0 tfPage x :=
    leaves_le fun v _ _ => (k.proc q).leaf_user_le _ v x
  have hheld := tabOf_add_leaves (k.proc q).pagetable x
  unfold owns Proc.rest
  omega

theorem Kernel.owns_eq_held (hpt : (k.proc q).pagetable = some pt) (h : ∀ v, v < tfPage → ¬ k.SharedAt q v) (x : Pa) :
    k.owns q x = pt.held x + onePage (k.proc q).trapframe x + (k.proc q).building x := by
  rw [Kernel.owns_of_not_shared h, hpt, Option.elim_some]

theorem Kernel.owns_le_held (hpt : (k.proc q).pagetable = some pt) (x : Pa) :
    k.owns q x ≤ pt.held x + onePage (k.proc q).trapframe x + (k.proc q).building x := by
  have h := k.owns_le q x
  rwa [hpt, Option.elim_some] at h

/-- A process shares nothing with a leader. -/
theorem Kernel.not_shared (h : (k.proc q).isThread = false) (v : ℕ) : ¬ k.SharedAt q v := fun hs => absurd (hs.1.symm.trans h) (by decide)

/-- A slot that was given up owns nothing. -/
theorem Kernel.owns_unused (hu : (k.proc q).state = .unused) (hpt : (k.proc q).pagetable = none) (htf : (k.proc q).trapframe = none)
    (x : Pa) : k.owns q x = 0 := by
  unfold owns Proc.rest Proc.building
  rw [Proc.user_none hpt, hpt, htf, if_pos hu, leaves_none]
  rfl

theorem Kernel.owns_le_total (k : Kernel) (q : Slot) (x : Pa) : k.mem.free x + k.owns q x ≤ k.total x := by
  have h := Finset.single_le_sum (f := fun q => k.owns q x) (fun _ _ => Nat.zero_le _) (Finset.mem_univ q)
  unfold total
  omega

/-! ## Changes of one slot -/

/-- Every thread has a leader that is a live process. -/
def Kernel.Led (k : Kernel) : Prop :=
  ∀ q, (k.proc q).isThread = true → ∃ f, (k.proc q).father = some f ∧ (k.proc f).state ≠ .unused ∧ (k.proc f).isThread = false

/-- Slot `i` leads a thread, which may have exited. -/
def HasThread (k : Kernel) (i : Slot) : Prop :=
  ∃ q, (k.proc q).state ≠ .unused ∧ (k.proc q).isThread = true ∧ (k.proc q).father = some i

theorem Kernel.Fine.thread_live (hf : k.Fine e) (h : (k.proc q).isThread = true) : (k.proc q).state ≠ .unused := fun hu =>
  absurd (h.symm.trans ((hf q).bare hu).2.2.2) (by decide)

theorem GroupInv.led (h : GroupInv k.tab) (hf : k.Fine e) : k.Led := fun q hq => h q (hf.thread_live hq) hq

theorem Quiet.led (h : Quiet k k') (hL : k.Led) : k'.Led := by
  intro q hq
  obtain ⟨f, hfather, hlive, hthr⟩ := hL q ((h q).isThread ▸ hq)
  exact ⟨f, (h q).father.trans hfather, fun hu => hlive ((h f).unused.mp hu), (h f).isThread.trans hthr⟩

/-- Neither an unused slot nor a thread leads a thread. -/
theorem Kernel.Led.alone (hL : k.Led) (h : (k.proc i).state = .unused ∨ (k.proc i).isThread = true) : ¬ HasThread k i := by
  rintro ⟨q, -, hq, hfather⟩
  obtain ⟨f, hf, hlive, hthr⟩ := hL q hq
  obtain rfl := Option.some.inj (hfather.symm.trans hf)
  rcases h with h | h
  · exact hlive h
  · exact absurd (h.symm.trans hthr) (by decide)

theorem Kernel.Led.leader (hL : k.Led) (hp : (k.proc p).state ≠ .unused) (hl : groupLeader k p = some l) :
    (k.proc l).state ≠ .unused ∧ (k.proc l).isThread = false := by
  unfold groupLeader at hl
  split_ifs at hl with ht
  · obtain ⟨f, hf, hlive, hthr⟩ := hL p ht
    obtain rfl := Option.some.inj (hf.symm.trans hl)
    exact ⟨hlive, hthr⟩
  · obtain rfl := Option.some.inj hl
    exact ⟨hp, by simpa using ht⟩

theorem SameMem.building_le (h : SameMem P P') (x : Pa) : P'.building x ≤ P.building x := by
  rcases h.frame with hfr | ⟨hfr, -⟩
  · unfold Proc.building
    rw [hfr, if_congr h.unused rfl rfl]
  · rw [Proc.building_of_not_exec hfr]
    exact Nat.zero_le _

/-- The user pages that a slot owns get fewer when it and its leader map the same pages at fewer places. -/
theorem Proc.leaves_user_le (hth : P'.isThread = P.isThread) (hpt : P.isThread = false → P'.pagetable = P.pagetable)
    (hg : P.isThread = true → ∀ v, v < tfPage → leaf (apart g' (pteOf P'.pagetable) v) x ≤ leaf (apart g (pteOf P.pagetable) v) x) :
    leaves (P'.user g') 0 tfPage x ≤ leaves (P.user g) 0 tfPage x := by
  cases ht : P.isThread with
  | true =>
    rw [Proc.user_thread (hth.trans ht), Proc.user_thread ht]
    exact leaves_le fun v _ hv => hg ht v (by omega)
  | false => rw [Proc.user_process (hth.trans ht), Proc.user_process ht, hpt ht]

theorem Proc.rest_le (htf : P'.trapframe = P.trapframe) (huser : leaves (P'.user g') 0 tfPage x ≤ leaves (P.user g) 0 tfPage x)
    (hb : P'.building x ≤ P.building x) : P'.rest g' x ≤ P.rest g x := by
  unfold rest
  rw [htf]
  omega

/-- A slot keeps its memory. -/
theorem SameMem.owns_le (h : SameMem (k.proc q) (k'.proc q)) (hg : (k.proc q).isThread = true → ∀ v, v < tfPage →
    leaf (apart (k'.leaderPte (k.proc q)) (pteOf (k.proc q).pagetable) v) x ≤
      leaf (apart (k.leaderPte (k.proc q)) (pteOf (k.proc q).pagetable) v) x) : k'.owns q x ≤ k.owns q x := by
  have hl : k'.leaderPte (k'.proc q) = k'.leaderPte (k.proc q) := by
    unfold Kernel.leaderPte
    rw [h.father]
  have hrest : (k'.proc q).rest (k'.leaderPte (k'.proc q)) x ≤ (k.proc q).rest (k.leaderPte (k.proc q)) x := by
    rw [hl]
    exact Proc.rest_le h.trapframe (Proc.leaves_user_le h.isThread (fun _ => h.pagetable) fun ht v hv => by
      rw [h.pagetable]
      exact hg ht v hv) (h.building_le x)
  unfold Kernel.owns
  rw [h.pagetable]
  omega

/-- **Quiet steps** move pages between the free list and the pipes only. -/
theorem Quiet.total_le (h : Quiet k k') (hx : k'.mem.free x + k'.fs.pipePages x ≤ k.mem.free x + k.fs.pipePages x) :
    k'.total x ≤ k.total x := by
  have hsum : ∑ q, k'.owns q x ≤ ∑ q, k.owns q x := by
    refine Finset.sum_le_sum fun q _ => (h q).owns_le fun _ v _ => le_of_eq ?_
    have hl : k'.leaderPte (k.proc q) = k.leaderPte (k.proc q) := by
      funext v
      unfold Kernel.leaderPte
      cases (k.proc q).father with
      | none => rfl
      | some f => exact congrArg (pteOf · v) (h f).pagetable
    rw [hl]
  unfold Kernel.total
  omega

/-- Memory is taken from the free list. -/
theorem Kernel.setMem_total (h : m.free x ≤ k.mem.free x) : (k.setMem m).total x ≤ k.total x := by
  have hq : Quiet k (k.setMem m) := .refl k
  refine hq.total_le ?_
  rw [Kernel.setMem_mem, Kernel.setMem_fs]
  omega

/-- A step that touches neither memory nor files. -/
theorem Quiet.total_same (h : Quiet k k') (hmem : k'.mem = k.mem) (hfs : k'.fs = k.fs) : k'.total x ≤ k.total x := by
  refine h.total_le ?_
  rw [hmem, hfs]

/-- **One slot changes**, and its threads, if any, do not own more than before. -/
theorem Kernel.total_write (hother : ∀ j, j ≠ i → k'.proc j = k.proc j)
    (hg : ∀ j, j ≠ i → (k.proc j).isThread = true → (k.proc j).father = some i → ∀ v, v < tfPage →
      leaf (apart (pteOf (k'.proc i).pagetable) (pteOf (k.proc j).pagetable) v) x ≤
        leaf (apart (pteOf (k.proc i).pagetable) (pteOf (k.proc j).pagetable) v) x)
    (hx : k'.mem.free x + k'.owns i x + k'.fs.pipePages x ≤ k.mem.free x + k.owns i x + k.fs.pipePages x) : k'.total x ≤ k.total x := by
  have hsum := sum_write_le (f := fun q => k.owns q x) (g := fun q => k'.owns q x) (i := i) fun j hj => by
    refine SameMem.owns_le (by rw [hother j hj]; exact .refl _) fun ht v hv => ?_
    unfold leaderPte
    cases hfather : (k.proc j).father with
    | none => exact le_rfl
    | some f =>
      by_cases hfi : f = i
      · subst hfi
        exact hg j hj ht hfather v hv
      · simp only [Option.bind_some, hother f hfi]
        exact le_rfl
  unfold total
  omega

/-- The slot leads no thread. -/
theorem Kernel.total_alone (hf : k.Fine e) (hother : ∀ j, j ≠ i → k'.proc j = k.proc j) (halone : ¬ HasThread k i)
    (hx : k'.mem.free x + k'.owns i x + k'.fs.pipePages x ≤ k.mem.free x + k.owns i x + k.fs.pipePages x) : k'.total x ≤ k.total x :=
  Kernel.total_write hother (fun j _ ht hfather => absurd ⟨j, hf.thread_live ht, ht, hfather⟩ halone) hx

/-- The slot keeps its page table. -/
theorem Kernel.total_keep (hother : ∀ j, j ≠ i → k'.proc j = k.proc j) (hpt : (k'.proc i).pagetable = (k.proc i).pagetable)
    (hx : k'.mem.free x + k'.owns i x + k'.fs.pipePages x ≤ k.mem.free x + k.owns i x + k.fs.pipePages x) : k'.total x ≤ k.total x :=
  Kernel.total_write hother (fun j _ _ _ v _ => by rw [hpt]) hx

/-- One slot is given up. -/
theorem Kernel.total_freed (hf : k.Fine e) (hother : ∀ j, j ≠ i → k'.proc j = k.proc j) (halone : ¬ HasThread k i)
    (hu : (k'.proc i).state = .unused) (hpt : (k'.proc i).pagetable = none) (htf : (k'.proc i).trapframe = none)
    (hx : k'.mem.free x + k'.fs.pipePages x ≤ k.mem.free x + k.owns i x + k.fs.pipePages x) : k'.total x ≤ k.total x := by
  refine Kernel.total_alone hf hother halone ?_
  rw [Kernel.owns_unused hu hpt htf]
  omega

/-! ## Pipes -/

variable {cw : ℕ → ℤ}

theorem Files.pipePages_congr (hp : fs'.pipe = fs.pipe) (hn : fs'.nextPipe = fs.nextPipe) : fs'.pipePages x = fs.pipePages x := by
  unfold pipePages
  rw [hp, hn]

/-- One pipe changes. -/
theorem Files.pipePages_write {y : Option Pipe} {c : ℕ} (hc : c < fs.nextPipe) :
    (fs.setPipe c y).pipePages x + onePage ((fs.pipe c).map Pipe.pa) x = fs.pipePages x + onePage (y.map Pipe.pa) x := by
  have h := sum_write (f := fun j : Fin fs.nextPipe => onePage ((fs.pipe j).map Pipe.pa) x)
    (g := fun j : Fin fs.nextPipe => onePage (((fs.setPipe c y).pipe j).map Pipe.pa) x) (i := ⟨c, hc⟩) fun j hj => by
      have hne : (j : ℕ) ≠ c := fun h => hj (Fin.ext h)
      simp [setPipe, Function.update_of_ne hne]
  unfold pipePages
  rw [Finset.sum_range, Finset.sum_range]
  have hself : (fs.setPipe c y).pipe c = y := by simp [setPipe]
  rw [hself] at h
  exact h

/-- **`pipeclose`** gives the page of the pipe back with its last end. -/
theorem pipeclose_pages {c : ℕ} {w : Bool} (hfresh : ∀ i, fs.nextPipe ≤ i → fs.pipe i = none) (h : pipeclose c w fs m = .ok (fs', m')) :
    m'.free x + fs'.pipePages x = m.free x + fs.pipePages x := by
  unfold pipeclose at h
  split at h
  · cases h
  rename_i P hP
  have hc : c < fs.nextPipe := not_le.mp fun hle => by rw [hfresh c hle] at hP; cases hP
  have hkeep : ∀ Q : Pipe, Q.pa = P.pa → (fs.setPipe c (some Q)).pipePages x = fs.pipePages x := by
    intro Q hQ
    have e := Files.pipePages_write (x := x) (y := some Q) hc
    rw [hP, Option.map_some, Option.map_some, hQ] at e
    omega
  dsimp only at h
  split_ifs at h
  all_goals try
    rw [bind_ok] at h
    obtain ⟨m1, hk, h⟩ := h
    obtain ⟨rfl, rfl⟩ := Prod.mk.inj (Except.ok.inj h)
    have e1 := kfree_free hk x
    have e2 := Files.pipePages_write (x := x) (y := none) hc
    rw [hP] at e2
    simp only [Option.map_some, Option.map_none, onePage] at e1 e2
    omega
  all_goals
    obtain ⟨rfl, rfl⟩ := Prod.mk.inj (Except.ok.inj h)
    refine congrArg (m.free x + ·) (hkeep _ ?_)
    rfl

theorem fileclose_pages {f : FileId} (hI : FsInv fs cw) (h : fileclose f fs m = .ok (fs', m')) :
    m'.free x + fs'.pipePages x = m.free x + fs.pipePages x := by
  unfold fileclose at h
  dsimp only at h
  split_ifs at h
  · obtain ⟨rfl, rfl⟩ := Prod.mk.inj (Except.ok.inj h)
    rfl
  · split at h
    · refine (pipeclose_pages ?_ h).trans ?_
      · exact hI.fresh
      · rfl
    · obtain ⟨rfl, rfl⟩ := Prod.mk.inj (Except.ok.inj h)
      rfl
    · obtain ⟨rfl, rfl⟩ := Prod.mk.inj (Except.ok.inj h)
      rfl
    · obtain ⟨rfl, rfl⟩ := Prod.mk.inj (Except.ok.inj h)
      rfl

theorem closeList_pages (of : Ofile) : ∀ {fds : List (Fin NOFILE)} {fs fs' : Files} {m m' : Kmem}, FsInv fs cw →
    fds.foldlM (closeStep of) (fs, m) = .ok (fs', m') → m'.free x + fs'.pipePages x = m.free x + fs.pipePages x
  | [], fs, fs', m, m', _, h => by
    rw [List.foldlM_nil, pure_ok] at h
    obtain ⟨rfl, rfl⟩ := Prod.mk.inj h
    rfl
  | fd :: fds, fs, fs', m, m', hI, h => by
    rw [List.foldlM_cons, bind_ok] at h
    obtain ⟨⟨fs1, m1⟩, h1, h2⟩ := h
    obtain ⟨hI1, -⟩ := closeStep_spec hI h1
    rw [closeList_pages of hI1 h2]
    unfold closeStep at h1
    split at h1
    · obtain ⟨rfl, rfl⟩ := Prod.mk.inj (Except.ok.inj h1)
      rfl
    · exact fileclose_pages hI h1

theorem filecloseAll_pages {of : Ofile} (hI : FsInv fs cw) (h : filecloseAll of fs m = .ok (fs', m')) :
    m'.free x + fs'.pipePages x = m.free x + fs.pipePages x := closeList_pages of hI h

theorem filealloc_pages {f : FileId} (h : filealloc fs = some (f, fs')) : fs'.pipePages x = fs.pipePages x := by
  obtain ⟨-, rfl⟩ := filealloc_inv h
  rfl

theorem filedup_pages {f : FileId} (h : filedup f fs = .ok fs') : fs'.pipePages x = fs.pipePages x := by
  unfold filedup at h
  split_ifs at h
  rw [← Except.ok.inj h]
  rfl

theorem filedupAll_pages {of : Ofile} (h : filedupAll of fs = .ok fs') : fs'.pipePages x = fs.pipePages x := by
  refine foldlM_inv (I := fun s : Files => s.pipePages x = fs.pipePages x) (fun s fd s' hs hd => ?_) rfl h
  split at hd
  · rw [← Except.ok.inj hd]
    exact hs
  · rw [filedup_pages hd]
    exact hs

/-- **`pipealloc`** puts the new pipe into a page of its own. -/
theorem pipealloc_pages {y : Option (FileId × FileId)} (hI : FsInv fs cw) (h : pipealloc fs m = .ok (y, fs', m')) :
    m'.free x + fs'.pipePages x = m.free x + fs.pipePages x := by
  unfold pipealloc at h
  split at h
  · simp only [Except.ok.injEq, Prod.mk.injEq] at h
    obtain ⟨-, rfl, rfl⟩ := h
    rfl
  rename_i f0 fs1 h0
  obtain ⟨hI1, -⟩ := filealloc_spec hI h0
  have hp1 : fs1.pipePages x = fs.pipePages x := filealloc_pages h0
  split at h
  · rw [bind_ok] at h
    obtain ⟨⟨fs2, m2⟩, hc, h⟩ := h
    simp only [Except.ok.injEq, Prod.mk.injEq] at h
    obtain ⟨-, rfl, rfl⟩ := h
    rw [fileclose_pages hI1 hc, hp1]
  rename_i f1 fs2 h1
  obtain ⟨hI2, -⟩ := filealloc_spec hI1 h1
  have hp2 : fs2.pipePages x = fs.pipePages x := (filealloc_pages h1).trans hp1
  split at h
  · rename_i m1 hk
    simp only [bind_ok] at h
    obtain ⟨⟨fs3, m3⟩, hc, ⟨fs4, m4⟩, hc', h⟩ := h
    simp only [Except.ok.injEq, Prod.mk.injEq] at h
    obtain ⟨-, rfl, rfl⟩ := h
    rw [fileclose_pages (fileclose_spec hI2 hc).1 hc', fileclose_pages hI2 hc, kalloc_none hk, hp2]
  · rename_i pa m3 hk
    simp only [Except.ok.injEq, Prod.mk.injEq] at h
    obtain ⟨-, rfl, rfl⟩ := h
    have e1 := kalloc_some hk x
    have hfresh := hI2.fresh fs2.nextPipe le_rfl
    have hnew : ({ fs2.setPipe fs2.nextPipe (some ⟨pa, true, true⟩) with nextPipe := fs2.nextPipe + 1 } : Files).pipePages x =
        fs2.pipePages x + single pa x := by
      unfold Files.pipePages
      rw [Finset.sum_range_succ]
      refine congrArg₂ (· + ·) (Finset.sum_congr rfl fun j hj => ?_) (by simp [Files.setPipe, onePage])
      have hne : j ≠ fs2.nextPipe := (Finset.mem_range.mp hj).ne
      simp [Files.setPipe, Function.update_of_ne hne]
    show m3.free x + ({ fs2.setPipe fs2.nextPipe (some ⟨pa, true, true⟩) with nextPipe := fs2.nextPipe + 1 } : Files).pipePages x = _
    rw [hnew, hp2]
    omega

end OsLabs.Xv6
