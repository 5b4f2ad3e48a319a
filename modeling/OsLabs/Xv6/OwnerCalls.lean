import OsLabs.Xv6.Owner
import OsLabs.Xv6.SameSpace

/-!
# OsLabs.Xv6.OwnerCalls — the calls and the owners of their pages

Each lemma says that a call leaves no page with more owners than before: what a slot gets comes from the free list, and what goes to the
free list was owned by the slot that gives it.

* `ForkRes.total_le`, `ThreadRes.total_le`: a new slot takes its pages from the free list; what a new thread maps beside its stack is the
  leader's.
* `GrowRes.total_le`: `sbrk` and its broadcast.
* `ExecRes.total_le`, `WaitRes.total_le`: the old image and the child's pages go back, if nobody else maps them (`SharesNothing`).
* `threadExitEnd_total`, `JoinRes.total_le`: the end of a thread.
* `closeFiles_total`, `FileRes.total_le`: files and pipes.
-/

namespace OsLabs.Xv6

open Fallible Lts Tally

variable {k k' k1 k2 : Kernel} {p q i l np : Slot} {pt pt' lpt : PageTable} {m : Kmem} {e sz v : ℕ} {x : Pa} {r : ℤ} {o : Option ℤ}
  {tf : Pa}

/-! ## Calls that make a slot -/

/-- An `allocproc` that fails gives everything back. -/
theorem AllocRes.total_none (h : AllocRes k none k') (hf : k.Fine e) (hm : k.mem.OkAt e) (hL : k.Led) : k'.total x ≤ k.total x := by
  have hfreed : ∀ {i : Slot} {m : Kmem}, (k.proc i).state = .unused → m.free x ≤ k.mem.free x →
      ((k.bumpPid.setMem m).setProc i (k.proc i).freed).total x ≤ k.total x := by
    intro i m hi hm
    have hself := Kernel.setProc_self (k.bumpPid.setMem m) i (k.proc i).freed
    refine Kernel.total_freed hf (fun j hj => Kernel.setProc_of_ne _ _ hj) (hL.alone (.inl hi)) (by rw [hself]; rfl) (by rw [hself]; rfl)
      (by rw [hself]; rfl) ?_
    rw [Kernel.setProc_mem, Kernel.setProc_fs, Kernel.setMem_mem, Kernel.setMem_fs, Kernel.bumpPid_fs]
    omega
  cases h with
  | noSlot _ => exact le_rfl
  | @noTrapframe i m1 m hi h1 h2 =>
    refine hfreed hi ?_
    have e1 := h2.held x
    rw [kalloc_none h1] at e1
    simpa [onePage, ((hf i).bare hi).1] using e1
  | @noPagetable i tf m1 m2 m hi h1 h2 h3 =>
    refine hfreed hi ?_
    have e1 := h3.held x
    have e2 := kalloc_some h1 x
    rcases procPagetable_total tf (kalloc_okAt hm h1) with ⟨-, m3, hp, -, hfree⟩ | ⟨-, pt, m3, hp, -⟩
    · obtain ⟨-, rfl⟩ := Prod.mk.inj (Except.ok.inj (h2.symm.trans hp))
      rw [hfree] at e1
      simp only [onePage, Option.elim_none, add_zero] at e1
      omega
    · rw [h2] at hp
      cases hp

theorem AllocRes.fs_eq {y : Option Slot} (h : AllocRes k y k') : k'.fs = k.fs := by
  cases h <;> rfl

/-- A slot that `allocproc` took is given up again. -/
theorem Taken.total_freed (h : Taken e k k1 np tf pt) (hf : k.Fine e) (hL : k.Led) (hfs : k1.fs = k.fs)
    (hx : m.free x ≤ k.mem.free x) : ((k1.setMem m).setProc np (k1.proc np).freed).total x ≤ k.total x := by
  have hself := Kernel.setProc_self (k1.setMem m) np (k1.proc np).freed
  refine Kernel.total_freed hf (fun j hj => ?_) (hL.alone (.inl h.unused)) (by rw [hself]; rfl) (by rw [hself]; rfl) (by rw [hself]; rfl) ?_
  · rw [Kernel.setProc_of_ne _ _ hj]
    exact h.other j hj
  · rw [Kernel.setProc_mem, Kernel.setProc_fs, Kernel.setMem_mem, Kernel.setMem_fs, hfs]
    omega

/-- **`freeproc`** of a slot that has a trapframe page and a page table. -/
theorem FreeMem.held_some {P : Proc} {m' : Kmem} (h : FreeMem P m m') (hpt : P.pagetable = some pt) (htf : P.trapframe = some tf) (x : Pa) :
    m'.free x ≤ m.free x + single tf x + pt.held x := by
  have h1 := h.held x
  rw [hpt, htf, onePage, Option.elim_some] at h1
  exact h1

/-- **`fork`** copies into pages from the free list. -/
theorem ForkRes.total_le (h : ForkRes k p r k') (hf : k.Fine e) (hm : k.mem.OkAt e) (hL : k.Led) : k'.total x ≤ k.total x := by
  cases h with
  | noSlot ha => exact ha.total_none hf hm hL
  | @noCopy np k1 new new1 m1 m ha hpt hu hfm =>
    obtain ⟨tf, pt, ht, hs⟩ := ha.taken hm
    obtain rfl := Option.some.inj (ht.pagetable.symm.trans hpt)
    refine ht.total_freed hf hL ha.fs_eq ?_
    obtain ⟨-, hheld⟩ := uvmcopyOpt_held ht.only.shaped hu
    have htf : (k1.proc np).trapframe = some tf := by rw [ht.self]; rfl
    have e1 := hfm.held_some rfl htf x
    have e2 := hheld x
    have e3 := ht.pages x
    rw [ht.only.held] at e2
    omega
  | @ok np k1 new new1 m1 c fs ha hpt hu hdup hcwd =>
    obtain ⟨tf, pt, ht, hs⟩ := ha.taken hm
    obtain rfl := Option.some.inj (ht.pagetable.symm.trans hpt)
    obtain ⟨-, hheld⟩ := uvmcopyOpt_held ht.only.shaped hu
    have e2 := hheld x
    have e3 := ht.pages x
    have hpipes : fs.pipePages x = k.fs.pipePages x := by rw [filedupAll_pages hdup, ha.fs_eq]
    have htf : (k1.proc np).trapframe = some tf := by rw [ht.self]; rfl
    have hthr : (k1.proc np).isThread = false := by rw [ht.self]; rfl
    have hfr : (k1.proc np).frame = .user := by rw [ht.self]; rfl
    rw [ht.only.held] at e2
    have hself := Kernel.setProc_self ((k1.setMem m1).setFs (fs.idup c)) np
      (({ k1.proc np with pagetable := some new1 } : Proc).asChild (k1.proc p) p c)
    have hother : ∀ j, j ≠ np → (((k1.setMem m1).setFs (fs.idup c)).setProc np
        (({ k1.proc np with pagetable := some new1 } : Proc).asChild (k1.proc p) p c)).proc j = k.proc j := fun j hj =>
      (Kernel.setProc_of_ne _ _ hj).trans (ht.other j hj)
    refine Kernel.total_alone hf hother (hL.alone (.inl ht.unused)) ?_
    -- the child owns its trapframe page and what its page table holds
    have howns := Kernel.owns_le_held (k := ((k1.setMem m1).setFs (fs.idup c)).setProc np
        (({ k1.proc np with pagetable := some new1 } : Proc).asChild (k1.proc p) p c)) (by rw [hself]; rfl) x
    rw [Proc.building_of_not_exec (by rw [hself, Proc.asChild, hfr]; rfl), hself] at howns
    have htf' : (({ k1.proc np with pagetable := some new1 } : Proc).asChild (k1.proc p) p c).trapframe = some tf := htf
    have hidup : (fs.idup c).pipePages x = fs.pipePages x := Files.pipePages_congr rfl rfl
    rw [htf', onePage] at howns
    rw [Kernel.setProc_mem, Kernel.setProc_fs, Kernel.setFs_mem, Kernel.setMem_mem, Kernel.setFs_fs, hidup, hpipes]
    omega

/-- A step that leaves nothing behind. -/
theorem Clean.total_le (h : Clean k k') (hf : k.Fine e) (hL : k.Led) (hfs : k'.fs.pipePages x = k.fs.pipePages x) :
    k'.total x ≤ k.total x := by
  have hsum : ∑ q, k'.owns q x ≤ ∑ q, k.owns q x := by
    refine Finset.sum_le_sum fun q _ => ?_
    by_cases hu : (k.proc q).state = .unused
    · have hnone : k'.owns q x = 0 := by
        obtain ⟨hpt, htf, -⟩ := (hf q).bare hu
        rcases h.unused q hu with heq | ⟨fr, heq⟩
        · exact Kernel.owns_unused (by rw [heq]; exact hu) (by rw [heq]; exact hpt) (by rw [heq]; exact htf) x
        · exact Kernel.owns_unused (by rw [heq]; rfl) (by rw [heq]; rfl) (by rw [heq]; rfl) x
      rw [hnone]
      exact Nat.zero_le _
    · refine SameMem.owns_le (by rw [h.live q hu]; exact .refl _) fun ht v _ => le_of_eq ?_
      obtain ⟨f, hfather, hlive, -⟩ := hL q ht
      rw [Kernel.leaderPte_some hfather, Kernel.leaderPte_some hfather, h.live f hlive]
  have hfree := h.pages x
  unfold Kernel.total
  omega

theorem ThreadRes.pipePages {fn arg retfn : ℕ} (h : ThreadRes k p fn arg retfn r k') : k'.fs.pipePages x = k.fs.pipePages x := by
  cases h with
  | noSlot ha => rw [ha.fs_eq]
  | noShare ha _ _ _ _ => rw [Kernel.setProc_fs, Kernel.setMem_fs, ha.fs_eq]
  | noStack ha _ _ _ _ _ => rw [Kernel.setProc_fs, Kernel.setMem_fs, ha.fs_eq]
  | @ok _ _ _ _ _ _ _ _ _ c fs ha _ _ _ _ _ hdup _ _ =>
    have hidup : (fs.idup c).pipePages x = fs.pipePages x := Files.pipePages_congr rfl rfl
    rw [Kernel.setProc_fs, Kernel.setFs_fs, hidup, filedupAll_pages hdup, ha.fs_eq]

/-- A `thread_create` that gets all its pages makes a thread. -/
theorem threadCreate_makes {fn arg retfn : ℕ} (hp : (k.proc p).state ≠ .unused) (hserved : allocFails k p = false)
    (h : threadCreate k p fn arg retfn = .ok (r, k')) : ∃ np, (k.proc np).state = .unused ∧ (k'.proc np).state ≠ .unused := by
  unfold threadCreate at h
  rw [bind_ok] at h
  obtain ⟨⟨np, k1⟩, hal, h⟩ := h
  unfold allocFails at hserved
  rw [hal] at hserved
  cases np with
  | none => cases hserved
  | some np =>
    have hal := allocproc_inv hal
    have hne : p ≠ np := hal.ne hp
    dsimp only at h hserved
    split at h
    · cases h
    rename_i leader hl
    rw [hl] at hserved
    split at h
    · cases h
    rename_i pt hpt
    rw [hpt] at hserved
    dsimp only at hserved
    rw [bind_ok] at h
    obtain ⟨⟨ok, pt1, m1⟩, hs, h⟩ := h
    rw [hs] at hserved
    cases ok with
    | false => cases hserved
    | true =>
      dsimp only at hserved
      simp only [Bool.not_true, Bool.false_eq_true, if_false] at h
      unfold threadFinish at h
      simp only [Kernel.setProc_self, Kernel.setProc_mem, Kernel.setMem_mem] at h
      rw [bind_ok] at h
      obtain ⟨⟨r', pt2, m2⟩, hu, h⟩ := h
      rw [hu] at hserved
      have hr : r' ≠ 0 := by simpa using hserved
      dsimp only at h
      rw [if_neg hr] at h
      split_ifs at h
      rw [bind_ok] at h
      obtain ⟨fs, -, h⟩ := h
      split at h
      · cases h
      obtain ⟨-, rfl⟩ := Prod.mk.inj (Except.ok.inj h)
      refine ⟨np, hal.ok_self.1, ?_⟩
      rw [Kernel.setProc_self]
      simp [Proc.asThread]

theorem ThreadRes.frame_new {fn arg retfn : ℕ} (h : ThreadRes k p fn arg retfn r k') (h0 : (k.proc np).state = .unused)
    (h1 : (k'.proc np).state ≠ .unused) : (k'.proc np).frame = .user := by
  cases h with
  | noSlot hal => exact absurd (hal.stays_unused h0) h1
  | noShare hal _ _ _ _ => exact absurd (hal.freed_unused h0) h1
  | noStack hal _ _ _ _ _ => exact absurd (hal.freed_unused h0) h1
  | @ok np' _ _ _ _ _ _ _ _ _ _ hal _ _ _ _ _ _ _ _ =>
    obtain rfl : np = np' := by
      by_contra hn
      refine h1 ?_
      rw [Kernel.setProc_of_ne _ _ hn]
      exact (congrArg Proc.state (hal.other hn)).trans h0
    rw [Kernel.setProc_self]
    cases hal with
    | ok _ _ _ => simp [Proc.asThread, Proc.allocated]

/-- What a new thread maps that its leader does not is its stack. -/
theorem NewThread.own_pages {stk : Pa} (h : NewThread k p np l tf pt stk k') (hne : np ≠ l) (x : Pa) :
    leaves ((k'.proc np).user (k'.leaderPte (k'.proc np))) 0 tfPage x ≤ single stk x := by
  have hleader : k'.leaderPte (k'.proc np) = pteOf (k.proc l).pagetable := by
    rw [Kernel.leaderPte_some h.father, h.others l (Ne.symm hne)]
  have huser : (k'.proc np).user (k'.leaderPte (k'.proc np)) = apart (pteOf (k.proc l).pagetable) pt.pte := by
    rw [Proc.user_thread h.thread, hleader, h.pagetable]
    rfl
  have hstack := leaves_write (f := fun _ => none) (g := fun v => if v = stackBase k.nextpid / PGSIZE then some ⟨stk, growPerm⟩ else none)
    (x := x) h.place fun w _ hw => if_neg hw
  rw [leaves_none, leaf_none, if_pos rfl, leaf_some, Nat.add_zero, Nat.zero_add] at hstack
  rw [huser, ← hstack]
  refine leaves_le fun v _ hv => ?_
  have hpte := h.pte v (by omega)
  by_cases hs : v = stackBase k.nextpid / PGSIZE
  · rw [if_pos hs] at hpte ⊢
    rw [← hpte]
    exact leaf_apart_le _ _ _ _
  · -- any other page is the leader's
    have hnone : apart (pteOf (k.proc l).pagetable) pt.pte v = none := by
      unfold apart
      rw [if_neg hs] at hpte
      split_ifs with heq
      · rfl
      · rw [hpte] at heq ⊢
        split_ifs at heq ⊢
        · cases hu : userPte (pteOf (k.proc l).pagetable v) with
          | none => rfl
          | some en =>
            rw [hu, (userPte_eq_some.mp hu).1] at heq
            exact absurd rfl heq
        · rfl
    rw [hnone, leaf_none]
    exact Nat.zero_le _

/-- **`thread_create`** takes the trapframe page, the page table and the stack from the free list. -/
theorem ThreadRes.total_le {fn arg retfn : ℕ} (h : ThreadRes k p fn arg retfn r k') (hf : k.Fine e) (hm : k.mem.OkAt e) (hL : k.Led)
    (hp : (k.proc p).state ≠ .unused) (h0 : (k.proc np).state = .unused) (h1 : (k'.proc np).state ≠ .unused) : k'.total x ≤ k.total x := by
  obtain ⟨l, hl⟩ := groupLeader_some (hf p)
  have hne : np ≠ l := by
    rintro rfl
    exact (hL.leader hp hl).1 h0
  obtain ⟨tf, pt, stk, hn⟩ := h.newThread hf hm h0 h1 hp hl hne
  refine Kernel.total_alone hf hn.others (hL.alone (.inl h0)) ?_
  have hstack := hn.own_pages hne x
  have hpages := hn.pages x
  have hbuild : (k'.proc np).building x = 0 := Proc.building_of_not_exec (by rw [h.frame_new h0 h1]; rfl) x
  rw [h.pipePages, Kernel.owns, Proc.rest, hbuild, hn.pagetable, tabOf_some, hn.trapframe, onePage]
  generalize leaves ((k'.proc np).user (k'.leaderPte (k'.proc np))) 0 tfPage x = stack at hstack ⊢
  omega

/-! ## sbrk -/

/-- The leader of a group grows.  What its threads own does not get more. -/
theorem grow_leader {n : ℕ} {xw xx : Bool} (hf : k.Fine e) (hpt : (k.proc l).pagetable = some lpt) (hthr : (k.proc l).isThread = false)
    (hu : uvmalloc lpt (k.proc l).sz n xw xx k.mem = .ok (sz, pt', m)) :
    ((k.setMem m).setProc l { k.proc l with pagetable := some pt' }).total x ≤ k.total x := by
  obtain ⟨-, -, hheld, hcase⟩ := uvmalloc_held ((hf l).table lpt hpt).shaped (hf l).sz hu
  have hgrow : ∀ v, lpt.pte v = none ∨ pt'.pte v = lpt.pte v := by
    intro v
    rcases hcase with ⟨-, h⟩ | ⟨-, hg⟩
    · exact .inr (by rw [h])
    · by_cases hv : npages (k.proc l).sz ≤ v ∧ v < npages sz
      · exact .inl (hg.old v hv.1 hv.2)
      · exact .inr (hg.other v hv)
  have hself := Kernel.setProc_self (k.setMem m) l { k.proc l with pagetable := some pt' }
  refine Kernel.total_write (fun j hj => Kernel.setProc_of_ne _ _ hj) (fun j _ _ _ v _ => ?_) ?_
  · rw [hself, hpt]
    exact leaf_apart_grow (hgrow v)
  · have h1 := Kernel.owns_eq_held hpt (fun v _ => Kernel.not_shared hthr v) x
    have h2 := Kernel.owns_le_held (k := (k.setMem m).setProc l { k.proc l with pagetable := some pt' }) (by rw [hself]) x
    have h3 := hheld x
    have htf : (((k.setMem m).setProc l { k.proc l with pagetable := some pt' }).proc l).trapframe = (k.proc l).trapframe := by rw [hself]
    rw [htf, Proc.building_congr (P := k.proc l) (by rw [hself]) (by rw [hself])] at h2
    rw [h1, Kernel.setProc_mem, Kernel.setProc_fs, Kernel.setMem_mem, Kernel.setMem_fs]
    omega

/-- Sizes do not matter. -/
theorem setGroupSz_total (k : Kernel) (l : Slot) (sz : ℕ) (x : Pa) : (setGroupSz k l sz).total x = k.total x := by
  have hproc : ∀ q, ∃ s, (setGroupSz k l sz).proc q = { k.proc q with sz := s } := by
    intro q
    by_cases hin : inGroup k q l = true
    · exact ⟨sz, if_pos hin⟩
    · exact ⟨(k.proc q).sz, if_neg hin⟩
  have hsum : ∑ q, (setGroupSz k l sz).owns q x = ∑ q, k.owns q x := by
    refine Finset.sum_congr rfl fun q _ => ?_
    obtain ⟨s, hq⟩ := hproc q
    have hl : (setGroupSz k l sz).leaderPte ((setGroupSz k l sz).proc q) = k.leaderPte (k.proc q) := by
      funext v
      unfold Kernel.leaderPte
      rw [hq]
      refine congrArg (Option.bind (k.proc q).father) (funext fun f => ?_)
      obtain ⟨s', hf⟩ := hproc f
      rw [hf]
    unfold Kernel.owns Proc.rest Proc.user Proc.building
    rw [hl, hq]
  have hfree : (setGroupSz k l sz).mem = k.mem := rfl
  have hfs : (setGroupSz k l sz).fs = k.fs := rfl
  unfold Kernel.total
  rw [hsum, hfree, hfs]

/-- A leader is not visited. -/
theorem Visit.process {R : PageTable → PageTable → Prop} {lroot : Pa} {P P' : Proc} (h : Visit R l lroot q P P') (hql : q ≠ l)
    (hthr : P.isThread = false) : P' = P := by
  rcases h with ⟨pt, pt', ho, -⟩ | ⟨-, heq⟩
  · exact absurd ((ho.1.resolve_left hql).1.symm.trans hthr) (by decide)
  · exact heq

/-- **The broadcast.**  The new pages in the tables of the threads are the leader's. -/
theorem Grew.total_le {b : Bool} {lpt1 : PageTable} (h : Grew k l lpt1 m sz b k2) (hL : k.Led)
    (hthr : (k.proc l).isThread = false) (hw : lpt1.WF) (hfs : k2.fs = k.fs) (x : Pa) :
    k2.total x ≤ ((k.setMem m).setProc l { k.proc l with pagetable := some lpt1 }).total x := by
  have htabs := h.tabs x
  have hKl := Kernel.setProc_self (k.setMem m) l { k.proc l with pagetable := some lpt1 }
  have hKq : ∀ q, q ≠ l → ((k.setMem m).setProc l { k.proc l with pagetable := some lpt1 }).proc q = k.proc q := fun q hq =>
    Kernel.setProc_of_ne _ _ hq
  have hKfs : ((k.setMem m).setProc l { k.proc l with pagetable := some lpt1 }).fs = k.fs := rfl
  generalize (k.setMem m).setProc l { k.proc l with pagetable := some lpt1 } = K at *
  have hleader : k2.proc l = K.proc l := h.leader.trans hKl.symm
  have hfix : ∀ f, (k.proc f).isThread = false → (k2.proc f).pagetable = (K.proc f).pagetable := by
    intro f hf
    by_cases hfl : f = l
    · rw [hfl, hleader]
    · rw [hKq f hfl, (h.visit f hfl).process hfl hf]
  have hrest : ∀ q, (k2.proc q).rest (k2.leaderPte (k2.proc q)) x ≤ (K.proc q).rest (K.leaderPte (K.proc q)) x := by
    intro q
    by_cases hql : q = l
    · rw [hql, hleader]
      refine Proc.rest_le rfl (Proc.leaves_user_le rfl (fun _ => rfl) fun ht => ?_) le_rfl
      rw [hKl] at ht
      exact absurd (ht.symm.trans hthr) (by decide)
    rw [hKq q hql]
    rcases h.visit q hql with ⟨pt, pt', ho, heq, hS⟩ | ⟨-, heq⟩
    · obtain ⟨hth, hfather⟩ := ho.1.resolve_left hql
      rw [heq]
      refine Proc.rest_le rfl (Proc.leaves_user_le rfl (fun ht => absurd (hth.symm.trans ht) (by decide)) fun _ v hv => ?_)
        (Proc.building_congr rfl rfl x).le
      have h1 : K.leaderPte (k.proc q) v = lpt1.pte v := by rw [Kernel.leaderPte_some hfather, hKl, pteOf_some]
      have h2 : k2.leaderPte { k.proc q with pagetable := some pt' } v = lpt1.pte v := by
        refine (congrFun (Kernel.leaderPte_some hfather) v).trans ?_
        rw [h.leader, pteOf_some]
      unfold apart
      rw [h1, h2, ho.2.1, pteOf_some, pteOf_some]
      rcases hS.pte v with hsame | ⟨hlo, hhi, -, hnew⟩
      · rw [hsame]
      · obtain ⟨pa, hpa⟩ := h.new v hlo (by have := h.range; omega)
        rw [hnew, hpa, walkaddr_of_pte hw hv hpa rfl, Option.map_some, Option.map_some, Option.getD_some, if_pos rfl, leaf_none]
        exact Nat.zero_le _
    · rw [heq]
      refine Proc.rest_le rfl (Proc.leaves_user_le rfl (fun _ => rfl) fun ht v _ => le_of_eq ?_) le_rfl
      obtain ⟨f, hfather, -, hf⟩ := hL q ht
      rw [Kernel.leaderPte_some hfather, Kernel.leaderPte_some hfather, hfix f hf]
  have hsum := Finset.sum_le_sum fun q (_ : q ∈ Finset.univ) => hrest q
  rw [Kernel.total_eq, Kernel.total_eq, htabs, hfs, hKfs]
  omega

/-- Two page tables have two roots. -/
theorem Kernel.roots_ne (hone : ∀ x, k.total x ≤ 1) (hp : (k.proc p).pagetable = some pt) (hq : (k.proc q).pagetable = some pt')
    (hpq : p ≠ q) : pt.root ≠ pt'.root := by
  intro hroot
  have h1 : 1 ≤ k.owns p pt.root := by
    rw [owns, hp, tabOf_some]
    have := pt.tab_root_pos
    omega
  have h2 : 1 ≤ k.owns q pt.root := by
    rw [owns, hq, tabOf_some, hroot]
    have := pt'.tab_root_pos
    omega
  have hpair : k.owns p pt.root + k.owns q pt.root ≤ ∑ q, k.owns q pt.root := by
    rw [← Finset.sum_pair (f := fun q => k.owns q pt.root) hpq]
    exact Finset.sum_le_sum_of_subset (Finset.subset_univ _)
  have hsum := hone pt.root
  unfold total at hsum
  omega

/-- **The shrink loop.**  What the leader gives back leaves the tables of its threads. -/
theorem Shrunk.total_le (h : Shrunk k l lpt sz k2) (hone : ∀ x, k.total x ≤ 1) (hL : k.Led) (hpt : (k.proc l).pagetable = some lpt)
    (hthr : (k.proc l).isThread = false) (hfs : k2.fs = k.fs)
    (hheld : k2.mem.free x + (lpt.unmap (npages sz) (npages (k.proc l).sz - npages sz)).held x = k.mem.free x + lpt.held x) :
    k2.total x ≤ k.total x := by
  have hself : (k2.proc l).pagetable = some (lpt.unmap (npages sz) (npages (k.proc l).sz - npages sz)) := by rw [h.leader]
  have hother : ∀ j, j ≠ l → k2.owns j x ≤ k.owns j x := by
    intro j hj
    have htab : tabOf (k2.proc j).pagetable x = tabOf (k.proc j).pagetable x := (h.visit j hj).tabOf_unmap
    have hrest : (k2.proc j).rest (k2.leaderPte (k2.proc j)) x ≤ (k.proc j).rest (k.leaderPte (k.proc j)) x := by
      rcases h.visit j hj with ⟨pt, pt', ho, heq, rfl, -⟩ | ⟨hno, heq⟩
      · obtain ⟨hth, hfather⟩ := ho.1.resolve_left hj
        rw [heq]
        refine Proc.rest_le rfl (Proc.leaves_user_le rfl (fun ht => absurd (hth.symm.trans ht) (by decide)) fun _ v _ => ?_)
          (Proc.building_congr rfl rfl x).le
        have h1 : k.leaderPte (k.proc j) v = lpt.pte v := by rw [Kernel.leaderPte_some hfather, hpt, pteOf_some]
        have h2 : k2.leaderPte { k.proc j with pagetable := some (pt.unmap (npages sz) (npages (k.proc l).sz - npages sz)) } v =
            (lpt.unmap (npages sz) (npages (k.proc l).sz - npages sz)).pte v := by
          refine (congrFun (Kernel.leaderPte_some hfather) v).trans ?_
          rw [hself, pteOf_some]
        unfold apart
        rw [h1, h2, ho.2.1, pteOf_some, pteOf_some, PageTable.unmap_apply, PageTable.unmap_apply]
        by_cases hv : npages sz ≤ v ∧ v < npages sz + (npages (k.proc l).sz - npages sz)
        · rw [if_pos hv, if_pos hv, if_pos rfl, leaf_none]
          exact Nat.zero_le _
        · rw [if_neg hv, if_neg hv]
      · rw [heq]
        refine Proc.rest_le rfl (Proc.leaves_user_le rfl (fun _ => rfl) fun ht v _ => ?_) le_rfl
        obtain ⟨f, hfather, -, hf⟩ := hL j ht
        by_cases hfl : f = l
        · -- a thread of `l` that is not visited has no page table
          subst hfl
          cases hjpt : (k.proc j).pagetable with
          | none =>
            rw [apart_of_none (pteOf_none v), leaf_none]
            exact Nat.zero_le _
          | some pt => exact absurd ⟨.inr ⟨ht, hfather⟩, hjpt, Kernel.roots_ne hone hjpt hpt hj⟩ (hno pt)
        · rw [Kernel.leaderPte_some hfather, Kernel.leaderPte_some hfather, (h.visit f hfl).process hfl hf]
    unfold Kernel.owns
    omega
  have hsum := sum_write_le (f := fun q => k.owns q x) (g := fun q => k2.owns q x) hother
  have h1 := Kernel.owns_eq_held hpt (fun v _ => Kernel.not_shared hthr v) x
  have h2 := Kernel.owns_le_held hself x
  have htf : (k2.proc l).trapframe = (k.proc l).trapframe := by rw [h.leader]
  rw [htf, Proc.building_congr (P := k.proc l) (by rw [h.leader]) (by rw [h.leader])] at h2
  unfold Kernel.total
  rw [hfs]
  omega

theorem PtOnly.fs_eq (h : PtOnly k k') : k'.fs = k.fs := by
  obtain ⟨f, m, rfl⟩ := h
  rfl

/-- **`sbrk`** moves pages between the free list and the leader. -/
theorem GrowRes.total_le {n : ℤ} (h : GrowRes k p n r k') (hf : k.Fine e) (hm : k.mem.OkAt e) (hL : k.Led) (hone : ∀ x, k.total x ≤ 1)
    (hp : (k.proc p).state ≠ .unused) : k'.total x ≤ k.total x := by
  cases h with
  | zero _ => exact le_rfl
  | nullGrow _ _ _ hk => exact Kernel.setMem_total (by rw [kalloc_none hk])
  | nullShrink hl _ hpt => exact absurd hpt ((hf _).live (hL.leader hp hl).1).1
  | noMem hl _ hpt hu => exact grow_leader hf hpt (hL.leader hp hl).2 hu
  | @grow l lpt lpt1 m sz b k2 hl _ hpt hu hsz hb =>
    have hs := (hf l).table lpt hpt
    have hthr := (hL.leader hp hl).2
    have hw := (uvmalloc_sane hs hm (hf l).sz hu).shaped.wf
    have hgrew := grew hs (hf l).sz hu hsz hb
    rw [setGroupSz_total]
    exact (hgrew.total_le hL hthr hw (broadcast_ptOnly hb).fs_eq x).trans (grow_leader hf hpt hthr hu)
  | @shrink l lpt lpt1 m sz k2 hl _ hpt hu hb =>
    have hs := ((hf l).table lpt hpt).shaped
    have hshrunk := shrunk hs (hf l).sz hu hb
    obtain ⟨-, hheld, -, rfl⟩ := uvmdealloc_held hs (hf l).sz hu
    rw [setGroupSz_total]
    refine hshrunk.total_le hone hL hpt (hL.leader hp hl).2 (unbroadcast_ptOnly hb).fs_eq ?_
    rw [unbroadcast_mem hb]
    exact hheld x

/-! ## exec -/

/-- A slot keeps its memory, but what the call in it has built may change. -/
theorem Kernel.owns_congr (hpt : ∀ j, (k'.proc j).pagetable = (k.proc j).pagetable) (htf : (k'.proc p).trapframe = (k.proc p).trapframe)
    (hth : (k'.proc p).isThread = (k.proc p).isThread) (hfa : (k'.proc p).father = (k.proc p).father) (x : Pa) :
    k'.owns p x + (k.proc p).building x = k.owns p x + (k'.proc p).building x := by
  have hl : k'.leaderPte (k'.proc p) = k.leaderPte (k.proc p) := by
    funext v
    unfold leaderPte
    rw [hfa]
    exact congrArg (Option.bind _) (funext fun f => by rw [hpt f])
  unfold owns Proc.rest Proc.user
  rw [hl, hpt, htf, hth]
  omega

/-- The call in slot `p` builds something else. -/
theorem Kernel.total_building {fr : Frame}
    (hx : m.free x + ({ k.proc p with frame := fr } : Proc).building x ≤ k.mem.free x + (k.proc p).building x) :
    ((k.setMem m).setProc p { k.proc p with frame := fr }).total x ≤ k.total x := by
  have hself := Kernel.setProc_self (k.setMem m) p { k.proc p with frame := fr }
  have hpt : ∀ j, (((k.setMem m).setProc p { k.proc p with frame := fr }).proc j).pagetable = (k.proc j).pagetable := by
    intro j
    rw [Kernel.setProc_apply]
    split_ifs with hj
    · rw [hj]
    · rfl
  have howns := Kernel.owns_congr hpt (by rw [hself]) (by rw [hself]) (by rw [hself]) x
  refine Kernel.total_keep (fun j hj => Kernel.setProc_of_ne _ _ hj) (hpt p) ?_
  rw [hself] at howns
  rw [Kernel.setProc_mem, Kernel.setProc_fs, Kernel.setMem_mem, Kernel.setMem_fs]
  omega

/-- `exec` holds the new page table while it reads the file. -/
theorem ExecBeginRes.total_le (h : ExecBeginRes k p o k') (hm : k.mem.OkAt e) (hp : (k.proc p).state ≠ .unused) :
    k'.total x ≤ k.total x := by
  cases h with
  | noHeader => exact le_rfl
  | @noPagetable tf m _ hpt =>
    refine Kernel.setMem_total ?_
    rcases procPagetable_total tf hm with ⟨-, m3, hp, -, hfree⟩ | ⟨-, pt, m3, hp, -⟩
    · obtain ⟨-, rfl⟩ := Prod.mk.inj (Except.ok.inj (hpt.symm.trans hp))
      rw [hfree]
    · rw [hpt] at hp
      cases hp
  | @ok tf pt m _ hpt =>
    obtain ⟨ho, -, hpages⟩ := procPagetable_some hm hpt
    refine Kernel.total_building ?_
    have hb := Proc.building_exec (P := { k.proc p with frame := .exec pt 0 }) rfl hp x
    have hx := hpages x
    rw [hb, ho.held]
    omega

/-- Slot `p` shares no user page with its leader, and none with its threads. -/
def SharesNothing (k : Kernel) (p : Slot) : Prop :=
  ∀ q v, v < tfPage → (q = p ∨ (k.proc q).father = some p) → ¬ k.SharedAt q v

theorem Kernel.apart_of_not_shared (ht : (k.proc q).isThread = true) (hfather : (k.proc q).father = some p) (h : ¬ k.SharedAt q v) :
    apart (pteOf (k.proc p).pagetable) (pteOf (k.proc q).pagetable) v = pteOf (k.proc q).pagetable v := by
  have huser := Kernel.user_of_not_shared h
  rwa [Proc.user_thread ht, Kernel.leaderPte_some hfather] at huser

/-- **The commit of `exec`.**  The old image goes, so nobody may share it. -/
theorem commit_total {P : Proc} {new built : PageTable} (hs : SharesNothing k p) (hpt : (k.proc p).pagetable = some pt)
    (hst : (k.proc p).state ≠ .unused) (hfr : (k.proc p).frame = .exec built sz) (hP : P.pagetable = some new)
    (htf : P.trapframe = (k.proc p).trapframe) (hPfr : P.frame = .user)
    (hx : m.free x + new.held x ≤ k.mem.free x + pt.held x + built.held x) : ((k.setMem m).setProc p P).total x ≤ k.total x := by
  have hself := Kernel.setProc_self (k.setMem m) p P
  have hb := Proc.building_exec hfr hst x
  have hb0 : P.building x = 0 := Proc.building_of_not_exec (by rw [hPfr]; rfl) x
  refine Kernel.total_write (fun j hj => Kernel.setProc_of_ne _ _ hj) (fun j _ ht hfather v hv => ?_) ?_
  · rw [Kernel.apart_of_not_shared ht hfather (hs j v hv (.inr hfather))]
    exact leaf_apart_le _ _ _ _
  · have h1 := Kernel.owns_eq_held hpt (fun v hv => hs p v hv (.inl rfl)) x
    have h2 := Kernel.owns_le_held (k := (k.setMem m).setProc p P) (by rw [hself]; exact hP) x
    rw [hself, htf, hb0] at h2
    rw [Kernel.setProc_mem, Kernel.setProc_fs, Kernel.setMem_mem, Kernel.setMem_fs]
    omega

/-- **`exec`** gives the pages of the image that it drops back: the new one when it fails, the old one when it commits. -/
theorem ExecRes.total_le (h : ExecRes k p pt sz o k') (hf : k.Fine e) (hfr : (k.proc p).frame = .exec pt sz)
    (hst : (k.proc p).state ≠ .unused) (hcommit : (∃ n : ℕ, o = some (n : ℤ)) → SharesNothing k p) : k'.total x ≤ k.total x := by
  obtain ⟨hs, hsz, -, -⟩ := (hf p).exec pt sz hfr
  have hb := Proc.building_exec hfr hst x
  have hup : pgroundup sz ≤ TRAPFRAME := pgroundup_le hsz
  -- the failing exits
  have hbad : ∀ {m : Kmem}, m.free x ≤ k.mem.free x + pt.held x →
      ((k.setMem m).setProc p { k.proc p with frame := .user }).total x ≤ k.total x := by
    intro m hx
    refine Kernel.total_building ?_
    have hb0 : ({ k.proc p with frame := .user } : Proc).building x = 0 := Proc.building_of_not_exec rfl x
    rw [hb, hb0]
    exact hx
  cases h with
  | skip => exact le_rfl
  | bad h => exact hbad (procFreepagetable_held h x)
  | noMem hu h =>
    obtain ⟨-, -, hheld, -⟩ := uvmalloc_held hs.shaped hsz hu
    refine hbad ?_
    have h1 := procFreepagetable_held h x
    have h2 := hheld x
    omega
  | badLoad hu _ hl h =>
    obtain ⟨-, -, hheld, -⟩ := uvmalloc_held hs.shaped hsz hu
    refine hbad ?_
    have h1 := procFreepagetable_held h x
    have h2 := hheld x
    rw [Kmem.DataOnly.free (loadseg_dataOnly hl)] at h1
    omega
  | @seg pt1 m1 m2 newsz sz1 xw xx img va off fsz hu _ hl =>
    obtain ⟨-, -, hheld, -⟩ := uvmalloc_held hs.shaped hsz hu
    refine Kernel.total_building ?_
    have hb1 := Proc.building_exec (P := { k.proc p with frame := .exec pt1 sz1 }) rfl hst x
    have h2 := hheld x
    rw [hb, hb1, Kmem.DataOnly.free (loadseg_dataOnly hl)]
    omega
  | noStack hu h =>
    obtain ⟨-, -, hheld, -⟩ := uvmalloc_held hs.shaped hup hu
    refine hbad ?_
    have h1 := procFreepagetable_held h x
    have h2 := hheld x
    omega
  | badArgs hu _ hc hpush h =>
    obtain ⟨hs1, -, hheld, -⟩ := uvmalloc_held hs.shaped hup hu
    refine hbad ?_
    have h1 := procFreepagetable_held h x
    have h2 := hheld x
    rw [(uvmclear_held hs1 hc).2 x, Kmem.DataOnly.free (pushStack_dataOnly hpush)] at h1
    omega
  | commit hu _ hc hpush hold h =>
    obtain ⟨hs1, -, hheld, -⟩ := uvmalloc_held hs.shaped hup hu
    refine commit_total (hcommit ⟨_, rfl⟩) hold hst hfr rfl rfl rfl ?_
    have h1 := procFreepagetable_held h x
    have h2 := hheld x
    have h3 := (uvmclear_held hs1 hc).2 x
    rw [Kmem.DataOnly.free (pushStack_dataOnly hpush)] at h1
    omega

/-! ## Exit and collection -/

/-- A slot unmaps a page of its own. -/
theorem Kernel.owns_unmap (hpt : (k.proc p).pagetable = some pt) (hv : v < tfPage) (hns : ¬ k.SharedAt p v)
    (hpt' : (k'.proc p).pagetable = some (pt.unmap v 1)) (htf : (k'.proc p).trapframe = (k.proc p).trapframe)
    (hth : (k'.proc p).isThread = (k.proc p).isThread) (hb : (k'.proc p).building x = (k.proc p).building x)
    (hl : k'.leaderPte (k'.proc p) = k.leaderPte (k.proc p)) : k'.owns p x + leaf (pt.pte v) x = k.owns p x := by
  have hsame : ∀ w, w ≠ v → (pt.unmap v 1).pte w = pt.pte w := fun w hw => by rw [PageTable.unmap_apply, if_neg (by omega)]
  have hgone : (pt.unmap v 1).pte v = none := by rw [PageTable.unmap_apply, if_pos ⟨le_rfl, by omega⟩]
  have hown := Kernel.user_of_not_shared hns
  have hother : ∀ w, w < tfPage → w ≠ v →
      (k'.proc p).user (k.leaderPte (k.proc p)) w = (k.proc p).user (k.leaderPte (k.proc p)) w := by
    intro w _ hw
    unfold Proc.user
    rw [hth, hpt', hpt]
    split_ifs
    · unfold apart
      rw [pteOf_some, pteOf_some, hsame w hw]
    · rw [pteOf_some, pteOf_some, hsame w hw]
  have hnone : (k'.proc p).user (k.leaderPte (k.proc p)) v = none := by
    unfold Proc.user
    rw [hpt']
    split_ifs
    · exact apart_of_none (by rw [pteOf_some, hgone])
    · rw [pteOf_some, hgone]
  have hsum := leaves_write (x := x) hv hother
  rw [hnone, hown, hpt, pteOf_some, leaf_none] at hsum
  unfold owns Proc.rest
  rw [hl, hpt', hpt, tabOf_some, tabOf_some, PageTable.unmap_tab, htf, hb]
  omega

/-- A thread changes, its leader does not. -/
theorem Kernel.Led.leaderPte_eq {P : Proc} (hL : k.Led) (ht : (k.proc p).isThread = true) (hother : ∀ j, j ≠ p → k'.proc j = k.proc j)
    (hP : P.father = (k.proc p).father) : k'.leaderPte P = k.leaderPte (k.proc p) := by
  obtain ⟨f, hfather, -, hfthr⟩ := hL p ht
  have hfp : f ≠ p := by
    rintro rfl
    exact absurd (ht.symm.trans hfthr) (by decide)
  rw [Kernel.leaderPte_some (hP.trans hfather), Kernel.leaderPte_some hfather, hother f hfp]

/-- **The stack release of `thread_exit`**, when the page at `start` is the thread's own. -/
theorem releaseStack_total {P : Proc} {m' : Kmem} (hr : releaseStack (k.proc p) k.mem = .ok (P, m')) (hf : k.Fine e) (hL : k.Led)
    (ht : (k.proc p).isThread = true) (hfr : (k.proc p).frame = .threadExit)
    (hns : (k.proc p).start ≠ 0 → (k.proc p).size ≠ 0 → ¬ k.SharedAt p ((k.proc p).start / PGSIZE)) :
    ((k.setMem m').setProc p { P with xstate := 0, state := .zombie }).total x ≤ k.total x := by
  have hself := Kernel.setProc_self (k.setMem m') p { P with xstate := 0, state := .zombie }
  have hother : ∀ j, j ≠ p → ((k.setMem m').setProc p { P with xstate := 0, state := .zombie }).proc j = k.proc j :=
    fun j hj => Kernel.setProc_of_ne _ _ hj
  have hmem : ((k.setMem m').setProc p { P with xstate := 0, state := .zombie }).mem = m' := rfl
  have hfs : ((k.setMem m').setProc p { P with xstate := 0, state := .zombie }).fs = k.fs := rfl
  generalize (k.setMem m').setProc p { P with xstate := 0, state := .zombie } = K at *
  have hb : (k.proc p).building x = 0 := Proc.building_of_not_exec (by rw [hfr]; rfl) x
  refine Kernel.total_alone hf hother (hL.alone (.inr ht)) ?_
  rw [hmem, hfs]
  rcases releaseStack_inv hr with ⟨pt, pt', hpt, hu, hstart, hsize, rfl⟩ | ⟨-, rfl, rfl⟩
  · have hs := (hf p).table pt hpt
    have hlt := unmapMapped_lt hu
    obtain ⟨rfl, hfree⟩ := unmapMapped_inv hs.shaped.wf hu
    have hv : (k.proc p).start / PGSIZE < tfPage := ((hf p).stack hsize).2.resolve_right (by omega)
    have hx := hfree x
    rw [if_pos rfl] at hx
    have hbK : (K.proc p).building x = 0 := Proc.building_of_not_exec (by rw [hself, hfr]; rfl) x
    have howns : K.owns p x + leaf (pt.pte ((k.proc p).start / PGSIZE)) x = k.owns p x :=
      Kernel.owns_unmap hpt hv (hns hstart hsize) (by rw [hself]) (by rw [hself]) (by rw [hself])
        (hbK.trans hb.symm) (hL.leaderPte_eq ht hother (by rw [hself]))
    omega
  · have hsame : SameMem (k.proc p) (K.proc p) := by
      rw [hself]
      exact ⟨rfl, rfl, rfl, rfl, rfl, rfl, rfl, .inl rfl, iff_of_false (by simp) (hf.thread_live ht), fun _ => .inr (.inr (.inl rfl))⟩
    have howns := hsame.owns_le (x := x) fun _ v _ => by rw [hL.leaderPte_eq ht hother rfl]
    omega

theorem threadExitEnd_total (h : threadExitEnd k p = .ok k') (hf : k.Fine e) (hL : k.Led) (hp : (k.proc p).state ≠ .unused)
    (hfr : (k.proc p).frame = .threadExit)
    (hns : (k.proc p).start ≠ 0 → (k.proc p).size ≠ 0 → ¬ k.SharedAt p ((k.proc p).start / PGSIZE)) : k'.total x ≤ k.total x := by
  obtain ⟨P, m, hr, rfl⟩ := threadExitEnd_inv h
  exact (Quiet.total_same (wakeup_quiet _ _ _) rfl rfl).trans (releaseStack_total hr hf hL ((hf p).threadExit hfr hp) hfr hns)

/-- Back to user space. -/
theorem toUser_total (hb : (k.proc p).Busy) : (k.setProc p { k.proc p with frame := .user }).total x ≤ k.total x :=
  Quiet.total_same (Quiet.setProc (.toUser hb)) rfl rfl

theorem JoinRes.total_le {tid : ℤ} {y : Option Slot} (h : JoinRes k p tid y o k') (hf : k.Fine e) (hL : k.Led) (hb : (k.proc p).Busy) :
    k'.total x ≤ k.total x := by
  cases h with
  | gone _ => exact toUser_total hb
  | @reap q m hq _ hpq hm =>
    have hself := Kernel.setProc_self (k.setMem m) q (k.proc q).freedThread
    have hp1 : ((k.setMem m).setProc q (k.proc q).freedThread).proc p = k.proc p := Kernel.setProc_of_ne _ _ hpq
    have hfreed : ((k.setMem m).setProc q (k.proc q).freedThread).total x ≤ k.total x := by
      obtain ⟨-, ht, -, -⟩ := joinTarget_some hq
      refine Kernel.total_freed hf (fun j hj => Kernel.setProc_of_ne _ _ hj) (hL.alone (.inr ht)) (by rw [hself]; rfl) (by rw [hself]; rfl)
        (by rw [hself]; rfl) ?_
      have hx := hm.held (fun pt hpt => ((hf q).table pt hpt).shaped) x
      have htab : tabOf (k.proc q).pagetable x = (k.proc q).pagetable.elim 0 fun pt => pt.tab x := rfl
      rw [Kernel.setProc_mem, Kernel.setProc_fs, Kernel.setMem_mem, Kernel.setMem_fs, hx, ← htab]
      unfold Kernel.owns Proc.rest
      omega
    have huser := toUser_total (x := x) (k := (k.setMem m).setProc q (k.proc q).freedThread) (p := p) (by rw [hp1]; exact hb)
    rw [hp1] at huser
    exact huser.trans hfreed
  | sleep _ _ => exact Quiet.total_same (Quiet.setProc (.enter hb (by decide) rfl (by simp))) rfl rfl

/-- **`wait`** gives the pages of the child back, which nobody may share. -/
theorem WaitRes.total_le {addr : ℕ} (h : WaitRes k p addr o k') (hf : k.Fine e) (hb : (k.proc p).Busy)
    (hreap : ∀ q m, zombieChild k p = some q → copyStatus (k.proc p).pagetable addr (k.proc q).xstate k.mem = .ok (true, m) →
      ¬ HasThread k q ∧ SharesNothing k q) : k'.total x ≤ k.total x := by
  cases h with
  | @badAddr q m _ hc =>
    have hmem : (k.setMem m).total x ≤ k.total x := Kernel.setMem_total (by rw [Kmem.DataOnly.free (copyStatus_dataOnly hc)])
    exact (toUser_total (k := k.setMem m) hb).trans hmem
  | @reap q m1 m hq hpq hc hm =>
    obtain ⟨halone, hs⟩ := hreap q m1 hq hc
    have hself := Kernel.setProc_self (k.setMem m) q (k.proc q).freed
    have hp1 : ((k.setMem m).setProc q (k.proc q).freed).proc p = k.proc p := Kernel.setProc_of_ne _ _ hpq
    have hfreed : ((k.setMem m).setProc q (k.proc q).freed).total x ≤ k.total x := by
      refine Kernel.total_freed hf (fun j hj => Kernel.setProc_of_ne _ _ hj) halone (by rw [hself]; rfl) (by rw [hself]; rfl)
        (by rw [hself]; rfl) ?_
      have hx := hm.held x
      have howns := Kernel.owns_of_not_shared (fun v hv => hs q v hv (.inl rfl)) x
      rw [Kernel.setProc_mem, Kernel.setProc_fs, Kernel.setMem_mem, Kernel.setMem_fs, howns]
      rw [Kmem.DataOnly.free (copyStatus_dataOnly hc)] at hx
      omega
    have huser := toUser_total (x := x) (k := (k.setMem m).setProc q (k.proc q).freed) (p := p) (by rw [hp1]; exact hb)
    rw [hp1] at huser
    exact huser.trans hfreed
  | nobody _ => exact toUser_total hb
  | sleep _ => exact Quiet.total_same (Quiet.setProc (.enter hb (by decide) rfl (by simp))) rfl rfl

/-! ## Files -/

theorem iputOpt_pages (c : Option ℕ) (fs : Files) : (iputOpt c fs).pipePages x = fs.pipePages x := by
  cases c with
  | none => rfl
  | some i => rfl

/-- The calls that die close their files. -/
theorem closeFiles_total {fr : Frame} (h : closeFiles k p fr = .ok k') (hI : FileInv k) (hfr : fr.dying = true)
    (hte : fr = .threadExit → (k.proc p).isThread = true) : k'.total x ≤ k.total x := by
  have hq := closeFiles_quiet h hfr hte
  obtain ⟨fs, m, hc, rfl⟩ := closeFiles_inv h
  refine hq.total_le ?_
  rw [Kernel.setProc_mem, Kernel.setFs_mem, Kernel.setMem_mem, Kernel.setProc_fs, Kernel.setFs_fs, iputOpt_pages]
  exact (filecloseAll_pages hI.fs hc).le

/-- The calls on descriptors. -/
theorem FileRes.total_le (h : FileRes k p k') (hI : FileInv k) : k'.total x ≤ k.total x := by
  refine h.quiet.total_le (le_of_eq ?_)
  cases h with
  | same => rfl
  | openBad => rfl
  | @openNoFd i f fs fs' m ha hc =>
    have h1 := fileclose_pages (x := x) (filealloc_spec hI.fs.iget ha).1 hc
    rw [filealloc_pages ha] at h1
    exact h1
  | @«open» i f fs F fd of ha _ _ _ _ =>
    have h0 : fs.pipePages x = (k.fs.iget i).pipePages x := filealloc_pages ha
    exact congrArg (k.mem.free x + ·) h0
  | dup _ _ h => exact congrArg (k.mem.free x + ·) (filedup_pages h)
  | close _ h => exact fileclose_pages hI.fs h
  | noPipe h => exact pipealloc_pages hI.fs h
  | @pipeBad rf wf fs fs1 fs2 m m0 m1 m2 h hm h1 h2 =>
    have hI1 := (pipealloc_spec hI.fs h).1
    have e0 := pipealloc_pages (x := x) hI.fs h
    have e1 := fileclose_pages (x := x) hI1 h1
    have e2 := fileclose_pages (x := x) (fileclose_spec hI1 h1).1 h2
    rw [hm.free] at e1
    exact e2.trans (e1.trans e0)
  | @pipe rf wf fs m m0 fd0 fd1 of0 of h hm _ _ =>
    have e0 := pipealloc_pages (x := x) hI.fs h
    rw [← hm.free] at e0
    exact e0

end OsLabs.Xv6
