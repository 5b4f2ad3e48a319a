import OsLabs.Xv6.Resize
import OsLabs.Xv6.Reclaim

/-!
# OsLabs.Xv6.ThreadLife — what the life of a thread costs

A thread takes a trapframe page, a stack page and the pages of its page table.  The stack goes back in `thread_exit`, the rest in
`thread_join`; in between `sbrk` changes the page tables of the whole group.

* `Kernel.acct k l x`: how often page `x` is free, or in a page table, or mapped by the leader `l`.  `sbrk` leaves it alone.
* `Lives`: the invariant of a thread from `thread_create` to `thread_join`.
* `thread_neutral`: when the thread is collected, everything is as if it had never been there, provided that the group never shrank past
  the stack while it was in use.
-/

namespace OsLabs.Xv6

open Fallible Lts Tally

variable {k k' k0 k1 : Kernel} {p q np l : Slot} {pt pt' lpt : PageTable} {m m' : Kmem} {e : ℕ} {as : List Pa} {a : Action} {o : Option ℤ}

/-! ## The account of a group -/

/-- How often page `x` is free, or a page of some page table, or mapped by the leader `l`. -/
def Kernel.acct (k : Kernel) (l : Slot) (x : Pa) : ℕ := k.tabs x + leaves (pteOf (k.proc l).pagetable) 0 tfPage x

theorem Kernel.free_le_acct (k : Kernel) (l : Slot) (x : Pa) : k.mem.free x ≤ k.acct l x :=
  (Nat.le_add_right _ _).trans (Nat.le_add_right _ _)

/-- The same tables and the same free pages. -/
theorem Kernel.acct_congr {x : Pa} (hfree : k'.mem.free x = k.mem.free x)
    (htab : ∀ q, tabOf (k'.proc q).pagetable x = tabOf (k.proc q).pagetable x)
    (hpte : pteOf (k'.proc l).pagetable = pteOf (k.proc l).pagetable) : k'.acct l x = k.acct l x := by
  unfold acct tabs
  rw [hfree, hpte, Finset.sum_congr rfl fun q _ => htab q]

/-- The leader's table takes pages from the free list, or gives them back. -/
theorem Kernel.acct_setLeader {lpt1 : PageTable} {x : Pa} (hpt : (k.proc l).pagetable = some lpt)
    (h : m.free x + lpt1.held x = k.mem.free x + lpt.held x) :
    ((k.setMem m).setProc l { k.proc l with pagetable := some lpt1 }).acct l x = k.acct l x := by
  have hsum := sum_write (f := fun q => tabOf (k.proc q).pagetable x)
    (g := fun j => tabOf (((k.setMem m).setProc l { k.proc l with pagetable := some lpt1 }).proc j).pagetable x) (i := l)
    fun j hj => by rw [Kernel.setProc_of_ne _ _ hj, Kernel.setMem_proc]
  have h1 : pteOf (some lpt1) = lpt1.pte := rfl
  have h2 : pteOf (some lpt) = lpt.pte := rfl
  rw [Kernel.setProc_self, hpt, tabOf_some, tabOf_some] at hsum
  unfold PageTable.held at h
  unfold acct tabs
  rw [Kernel.setProc_self, hpt, h1, h2, Kernel.setProc_mem, Kernel.setMem_mem]
  omega

/-- Another slot than the leader changes its table. -/
theorem Kernel.acct_table {x : Pa} (hother : ∀ i, i ≠ np → (k'.proc i).pagetable = (k.proc i).pagetable) (hne : np ≠ l) :
    k'.acct l x + k.mem.free x + tabOf (k.proc np).pagetable x = k.acct l x + k'.mem.free x + tabOf (k'.proc np).pagetable x := by
  have hsum := sum_write (f := fun i => tabOf (k.proc i).pagetable x) (g := fun i => tabOf (k'.proc i).pagetable x) (i := np)
    fun i hi => by rw [hother i hi]
  unfold acct tabs
  rw [hother l (Ne.symm hne)]
  omega

theorem setGroupSz_pagetable (k : Kernel) (l : Slot) (sz : ℕ) (q : Slot) : ((setGroupSz k l sz).proc q).pagetable = (k.proc q).pagetable := by
  show (if inGroup k q l then { k.proc q with sz := sz } else k.proc q).pagetable = _
  split_ifs <;> rfl

theorem setGroupSz_acct (k : Kernel) (l : Slot) (sz : ℕ) (x : Pa) : (setGroupSz k l sz).acct l x = k.acct l x :=
  Kernel.acct_congr rfl (fun q => by rw [setGroupSz_pagetable]) (by rw [setGroupSz_pagetable])

/-- A member that lost entries still has the pages of its table. -/
theorem Visit.tabOf_unmap {lroot : Pa} {P P' : Proc} {c n : ℕ} {R : PageTable → Prop} {x : Pa}
    (h : Visit (fun y z => z = y.unmap c n ∧ R y) l lroot q P P') : tabOf P'.pagetable x = tabOf P.pagetable x := by
  rcases h with ⟨y, z, ho, rfl, rfl, -⟩ | ⟨-, rfl⟩
  · rw [ho.2.1]
    rfl
  · rfl

/-- **`sbrk` keeps the account**: what the leader takes it takes from the free list, and so do the tables of the others. -/
theorem GrowRes.acct {n r : ℤ} (h : GrowRes k q n r k') (hf : k.Fine e) (hl : groupLeader k q = some l) (x : Pa) :
    k'.acct l x = k.acct l x := by
  cases h with
  | zero _ => rfl
  | nullGrow _ _ _ hk => exact Kernel.acct_congr (by rw [Kernel.setMem_mem, kalloc_none hk]) (fun _ => rfl) rfl
  | nullShrink hl' _ _ =>
    obtain rfl := Option.some.inj (hl.symm.trans hl')
    exact setGroupSz_acct _ _ _ _
  | noMem hl' _ hpt hu =>
    obtain rfl := Option.some.inj (hl.symm.trans hl')
    exact Kernel.acct_setLeader hpt ((uvmalloc_held ((hf l).table _ hpt).shaped (hf l).sz hu).2.2.1 x)
  | @grow l' lpt lpt1 m sz b k2 hl' _ hpt hu hsz hb =>
    obtain rfl := Option.some.inj (hl.symm.trans hl')
    have hs := (hf l).table lpt hpt
    have hg := grew hs (hf l).sz hu hsz hb
    rw [setGroupSz_acct, ← Kernel.acct_setLeader hpt ((uvmalloc_held hs.shaped (hf l).sz hu).2.2.1 x)]
    unfold Kernel.acct
    rw [hg.tabs, hg.leader, Kernel.setProc_self]
  | @shrink l' lpt lpt1 m sz k2 hl' _ hpt hu hb =>
    obtain rfl := Option.some.inj (hl.symm.trans hl')
    have hs := ((hf l).table lpt hpt).shaped
    have hg := shrunk hs (hf l).sz hu hb
    obtain ⟨-, hheld, -, rfl⟩ := uvmdealloc_held hs (hf l).sz hu
    rw [setGroupSz_acct, ← Kernel.acct_setLeader hpt (hheld x)]
    refine Kernel.acct_congr (by rw [unbroadcast_mem hb]) (fun q => ?_) (by rw [hg.leader, Kernel.setProc_self])
    by_cases hq : q = l
    · subst hq
      rw [hg.leader, Kernel.setProc_self]
    · rw [(hg.visit q hq).tabOf_unmap, Kernel.setProc_of_ne _ _ hq, Kernel.setMem_proc]

/-! ## The life of a thread -/

/-- The scheduler, and `sbrk` calls in the group of `l`. -/
inductive SbrkStep (l : Slot) (k : Kernel) : Action → Prop
  | scheduler {q : Slot} : SbrkStep l k (.scheduler q)
  | yield {q : Slot} : SbrkStep l k (.yield q)
  | sbrk {q : Slot} {n : ℤ} {as : List Pa} (hq : groupLeader k q = some l) (hk : (k.proc q).killed = false) :
      SbrkStep l k (.syscall q (.sbrk n) as)

/-- The steps of the life of thread `np` in the group of `l`: `sbrk` calls of the members, the two parts of the thread's own `thread_exit`, and
rounds of `thread_join` that find nothing to collect. -/
inductive LifeStep (np l : Slot) (k : Kernel) : Action → Prop
  | sbrk {a : Action} (h : SbrkStep l k a) : LifeStep np l k a
  | threadExit {as : List Pa} (hk : (k.proc np).killed = false) : LifeStep np l k (.syscall np .threadExit as)
  | exitEnd {inp : ExecInput} {as : List Pa} (hfr : (k.proc np).frame = .threadExit) : LifeStep np l k (.resume np inp as)
  | join {q : Slot} {tid : ℤ} {ls : Option Slot} {a : Action} (h : JoinCall k q tid ls a)
      (hz : ∀ t, joinTarget k tid ls = some t → (k.proc t).state ≠ .zombie) : LifeStep np l k a

/-- The argument of an `sbrk` call. -/
def Action.sbrkArg : Action → Option ℤ
  | .syscall _ (.sbrk n) _ => some (int32 n)
  | _ => none

/-- The group does not shrink from above the stack of `np` to below it while the stack is there. -/
def KeepsStack (np l : Slot) (k : Kernel) (a : Action) : Prop :=
  ∀ n ∈ a.sbrkArg, (k.proc np).size ≠ 0 → n < 0 → 0 ≤ (k.proc l).sz + n →
    npages ((k.proc l).sz + n).toNat ≤ (k.proc np).start / PGSIZE → npages (k.proc l).sz ≤ (k.proc np).start / PGSIZE

instance (np l : Slot) (k : Kernel) (a : Action) : Decidable (KeepsStack np l k a) :=
  inferInstanceAs (Decidable (∀ n ∈ a.sbrkArg, (k.proc np).size ≠ 0 → n < 0 → 0 ≤ (k.proc l).sz + n →
    npages ((k.proc l).sz + n).toNat ≤ (k.proc np).start / PGSIZE → npages (k.proc l).sz ≤ (k.proc np).start / PGSIZE))

/-- The page table of the thread: the pages below the size, the stack `stk`, nothing else; and it is not the leader's. -/
structure LifeTable (P L : Proc) (stk : Option Pa) (pt : PageTable) : Prop where
  root : ∀ lpt, L.pagetable = some lpt → pt.root ≠ lpt.root
  low : ∀ v, v < tfPage → pt.pte v ≠ none → v < npages P.sz ∨ stk ≠ none ∧ v = P.start / PGSIZE
  stack : ∀ s, stk = some s → pt.pte (P.start / PGSIZE) = some ⟨s, growPerm⟩

/-- **The life of a thread** `np` that `p` made in the group of `l` when the state was `k0`: it has its trapframe page `tf`, and its stack page
`stk` until it becomes a zombie. -/
structure Lives (k0 : Kernel) (p np l : Slot) (tf : Pa) (stk : Option Pa) (k : Kernel) : Prop where
  live : (k.proc np).state ≠ .unused
  zombie : (k.proc np).state = .zombie ↔ stk = none
  thread : (k.proc np).isThread = true
  father : (k.proc np).father = some l
  sz : (k.proc np).sz = (k.proc l).sz
  trapframe : (k.proc np).trapframe = some tf
  table : ∃ pt, (k.proc np).pagetable = some pt ∧ LifeTable (k.proc np) (k.proc l) stk pt
  gone : stk = none → (k.proc np).start = 0 ∧ (k.proc np).size = 0
  there : stk ≠ none → (k.proc np).start ≠ 0 ∧ (k.proc np).size ≠ 0
  -- the maker keeps every file open that the thread has
  files : (k.proc np).frame.dying = false → stk ≠ none → (k.proc np).ofile = (k.proc p).ofile
  pages : ∀ x, k.acct l x + single tf x + onePage stk x = k0.acct l x

variable {tf : Pa} {stk : Option Pa}

/-- **Quiet steps.**  Nothing happens to the memory of any slot. -/
theorem Lives.quiet (h : Lives k0 p np l tf stk k) (hq : Quiet k k') (hfree : k'.mem.free = k.mem.free)
    (hz : (k'.proc np).state = .zombie ↔ (k.proc np).state = .zombie)
    (hfiles : (k'.proc np).frame.dying = false → stk ≠ none → (k'.proc np).ofile = (k'.proc p).ofile) : Lives k0 p np l tf stk k' := by
  have hn := hq np
  have hl := hq l
  obtain ⟨pt, hpt, ht⟩ := h.table
  exact {
    live := fun hu => h.live (hn.unused.mp hu)
    zombie := hz.trans h.zombie
    thread := hn.isThread.trans h.thread
    father := hn.father.trans h.father
    sz := by rw [hn.sz, hl.sz, h.sz]
    trapframe := hn.trapframe.trans h.trapframe
    table := ⟨pt, hn.pagetable.trans hpt, by
      refine ⟨fun lpt hlpt => ht.root lpt (hl.pagetable ▸ hlpt), ?_, ?_⟩
      · rw [hn.sz, hn.start]
        exact ht.low
      · rw [hn.start]
        exact ht.stack⟩
    gone := by
      rw [hn.start, hn.size]
      exact h.gone
    there := by
      rw [hn.start, hn.size]
      exact h.there
    files := hfiles
    pages := fun x => by
      have hacct : k'.acct l x = k.acct l x :=
        Kernel.acct_congr (by rw [hfree]) (fun q => by rw [(hq q).pagetable]) (by rw [hl.pagetable])
      rw [hacct, h.pages x] }

/-- A step that leaves the files alone too. -/
theorem Lives.calm (h : Lives k0 p np l tf stk k) (hq : Quiet k k') (hfs : FileSame k k') (hfree : k'.mem.free = k.mem.free)
    (hz : (k'.proc np).state = .zombie ↔ (k.proc np).state = .zombie)
    (hd : (k'.proc np).frame.dying = false → (k.proc np).frame.dying = false) : Lives k0 p np l tf stk k' :=
  h.quiet hq hfree hz fun h1 h2 => by rw [hfs.ofile, hfs.ofile, h.files (hd h1) h2]

/-- What a `growproc` can change of a slot. -/
theorem GrowRes.resizes {n r : ℤ} (h : GrowRes k q n r k') (i : Slot) :
    ∃ pt sz, k'.proc i = { k.proc i with pagetable := pt, sz := sz } := by
  have hpt : ∀ {k1 : Kernel}, PtOnly k k1 → ∃ pt, k1.proc i = { k.proc i with pagetable := pt } := by
    rintro k1 ⟨f, m, rfl⟩
    exact ⟨f i, rfl⟩
  have hgroup : ∀ {k1 : Kernel} {l : Slot} {c : ℕ}, PtOnly k k1 →
      ∃ pt sz, (setGroupSz k1 l c).proc i = { k.proc i with pagetable := pt, sz := sz } := by
    intro k1 l c h1
    obtain ⟨pt, hi⟩ := hpt h1
    have hproc : (setGroupSz k1 l c).proc i = if inGroup k1 i l then { k1.proc i with sz := c } else k1.proc i := rfl
    rw [hproc, hi]
    split_ifs
    · exact ⟨pt, c, rfl⟩
    · exact ⟨pt, (k.proc i).sz, rfl⟩
  cases h with
  | zero _ => exact ⟨(k.proc i).pagetable, (k.proc i).sz, rfl⟩
  | @nullGrow _ m _ _ _ _ => exact ⟨(k.proc i).pagetable, (k.proc i).sz, rfl⟩
  | nullShrink _ _ _ => exact hgroup (.refl k)
  | noMem _ _ _ _ =>
    obtain ⟨pt, h⟩ := hpt (PtOnly.setPt k _ _ _)
    exact ⟨pt, (k.proc i).sz, h⟩
  | grow _ _ _ _ _ hb => exact hgroup ((PtOnly.setPt k _ _ _).trans (broadcast_ptOnly hb))
  | shrink _ _ _ _ hb => exact hgroup ((PtOnly.setPt k _ _ _).trans (unbroadcast_ptOnly hb))

/-- Another size, and other page tables. -/
theorem Lives.resize (h : Lives k0 p np l tf stk k) (pt : PageTable) (hk : ∀ i, ∃ pt sz, k'.proc i = { k.proc i with pagetable := pt, sz := sz })
    (hsz : (k'.proc np).sz = (k'.proc l).sz) (hpt : (k'.proc np).pagetable = some pt) (ht : LifeTable (k'.proc np) (k'.proc l) stk pt)
    (ha : ∀ x, k'.acct l x = k.acct l x) : Lives k0 p np l tf stk k' := by
  obtain ⟨x, sz, hn⟩ := hk np
  obtain ⟨y, sz', hp⟩ := hk p
  refine ⟨?_, ?_, ?_, ?_, hsz, ?_, ⟨pt, hpt, ht⟩, ?_, ?_, ?_, fun x => by rw [ha, h.pages x]⟩
  all_goals rw [hn]
  · exact h.live
  · exact h.zombie
  · exact h.thread
  · exact h.father
  · exact h.trapframe
  · exact h.gone
  · exact h.there
  · rw [hp]
    exact h.files

/-- **`sbrk` of a member.**  The thread's table follows the leader's; its stack stays as long as the group does not shrink past it. -/
theorem GrowRes.lives {n r : ℤ} (h : GrowRes k q n r k') (hL : Lives k0 p np l tf stk k) (hne : np ≠ l) (hf : k.Fine e) (hn : IsInt n)
    (hl : groupLeader k q = some l) (hkeep : (k.proc np).size ≠ 0 → n < 0 → 0 ≤ (k.proc l).sz + n →
      npages ((k.proc l).sz + n).toNat ≤ (k.proc np).start / PGSIZE → npages (k.proc l).sz ≤ (k.proc np).start / PGSIZE) :
    Lives k0 p np l tf stk k' := by
  have hT : TRAPFRAME < MAXVA := by decide
  have hk := h.resizes
  have ha := h.acct hf hl
  obtain ⟨pt, hpt, ht⟩ := hL.table
  have hlsz := (hf l).sz
  have hself : inGroup k l l = true := inGroup_iff.mpr (.inl rfl)
  have hmem : inGroup k np l = true := inGroup_iff.mpr (.inr ⟨hL.thread, hL.father⟩)
  cases h with
  | zero _ => exact hL
  | nullGrow _ _ _ _ => exact hL.resize pt hk hL.sz hpt ht ha
  | nullShrink hl' _ _ =>
    obtain rfl := Option.some.inj (hl.symm.trans hl')
    refine hL.resize pt hk ?_ ?_ ?_ ha
    · rw [setGroupSz_member hmem, setGroupSz_member hself]
    · rw [setGroupSz_member hmem]
      exact hpt
    · rw [setGroupSz_member hmem, setGroupSz_member hself]
      exact ⟨ht.root, fun v h1 h2 => hL.sz ▸ ht.low v h1 h2, ht.stack⟩
  | @noMem l' lpt lpt1 m hl' _ hlpt hu =>
    obtain rfl := Option.some.inj (hl.symm.trans hl')
    have hnp : ((k.setMem m).setProc l { k.proc l with pagetable := some lpt1 }).proc np = k.proc np := by
      rw [Kernel.setProc_of_ne _ _ hne, Kernel.setMem_proc]
    refine hL.resize pt hk ?_ ?_ ?_ ha
    · rw [hnp, Kernel.setProc_self]
      exact hL.sz
    · rw [hnp, hpt]
    · rw [hnp, Kernel.setProc_self]
      refine ⟨fun x hx => ?_, ht.low, ht.stack⟩
      obtain rfl := Option.some.inj hx
      rw [(uvmalloc_held ((hf l).table _ hlpt).shaped hlsz hu).2.1]
      exact ht.root lpt hlpt
  | @grow l' lpt lpt1 m sz b k2 hl' _ hlpt hu hsz hb =>
    obtain rfl := Option.some.inj (hl.symm.trans hl')
    have hs := (hf l).table lpt hlpt
    have hg := grew hs hlsz hu hsz hb
    have hroot : lpt1.root = lpt.root := (uvmalloc_held hs.shaped hlsz hu).2.1
    have hp : PtOnly k k2 := (PtOnly.setPt k _ _ _).trans (broadcast_ptOnly hb)
    have hother : Other l lpt1.root np (k.proc np) pt := ⟨.inr ⟨hL.thread, hL.father⟩, hpt, by
      rw [hroot]
      exact ht.root lpt hlpt⟩
    obtain ⟨y, y', ho, heq, hsp⟩ := (hg.visit np hne).resolve_right fun h => h.1 pt hother
    obtain rfl := Option.some.inj (hpt.symm.trans ho.2.1)
    refine hL.resize y' hk ?_ ?_ ?_ ha
    all_goals rw [setGroupSz_member (by rw [hp.inGroup, hmem])]
    · rw [setGroupSz_member (by rw [hp.inGroup, hself])]
    · rw [heq]
    · rw [setGroupSz_member (by rw [hp.inGroup, hself]), hg.leader, heq]
      refine ⟨fun x hx => ?_, fun v h1 h2 => ?_, fun s hs => hsp.keeps (ht.stack s hs)⟩
      · obtain rfl := Option.some.inj hx
        rw [hsp.root]
        exact hother.2.2
      · have hmono : npages (k.proc l).sz ≤ npages sz := npages_mono hg.le (by have := hg.top; omega)
        rcases hsp.pte v with h | ⟨h3, h4, -, -⟩
        · rw [h] at h2
          rcases ht.low v h1 h2 with h | h
          · rw [hL.sz] at h
            exact .inl (show v < npages sz by omega)
          · exact .inr h
        · exact .inl (show v < npages sz by omega)
  | @shrink l' lpt lpt1 m sz k2 hl' hlt hlpt hu hb =>
    obtain rfl := Option.some.inj (hl.symm.trans hl')
    have hs := ((hf l).table lpt hlpt).shaped
    have hg := shrunk hs hlsz hu hb
    have hp : PtOnly k k2 := (PtOnly.setPt k _ _ _).trans (unbroadcast_ptOnly hb)
    have hother : Other l lpt.root np (k.proc np) pt := ⟨.inr ⟨hL.thread, hL.father⟩, hpt, ht.root lpt hlpt⟩
    obtain ⟨y, y', ho, heq, rfl, -⟩ := (hg.visit np hne).resolve_right fun h => h.1 pt hother
    obtain rfl := Option.some.inj (hpt.symm.trans ho.2.1)
    -- the stack is not among the pages that go away
    have hstack : stk ≠ none → npages sz ≤ (k.proc np).start / PGSIZE → npages (k.proc l).sz ≤ (k.proc np).start / PGSIZE := by
      intro hst hle
      obtain ⟨hmin, -, -⟩ := uvmdealloc_inv (by omega) hu
      by_cases hneg : (k.proc l).sz + n < 0
      · have hge := u64_of_neg hneg (by unfold IsInt at hn; omega)
        rwa [show sz = (k.proc l).sz by omega] at hle
      · rw [u64_of_nonneg (by omega) (by simp only [TRAPFRAME_eq] at hlsz; omega)] at hmin
        refine hkeep (hL.there hst).2 hlt (by omega) ?_
        rwa [show ((k.proc l).sz + n).toNat = sz by omega]
    refine hL.resize (pt.unmap (npages sz) (npages (k.proc l).sz - npages sz)) hk ?_ ?_ ?_ ha
    all_goals rw [setGroupSz_member (by rw [hp.inGroup, hmem])]
    · rw [setGroupSz_member (by rw [hp.inGroup, hself])]
    · rw [heq]
    · rw [setGroupSz_member (by rw [hp.inGroup, hself]), hg.leader, heq]
      refine ⟨fun x hx => ?_, fun v h1 h2 => ?_, fun s hs => ?_⟩
      · obtain rfl := Option.some.inj hx
        exact hother.2.2
      · rw [PageTable.unmap_apply] at h2
        split_ifs at h2 with hv
        · exact absurd rfl h2
        · rcases ht.low v h1 h2 with h | h
          · rw [hL.sz] at h
            exact .inl (show v < npages sz by omega)
          · exact .inr h
      · have hold := ht.stack s hs
        have hin := hstack (by rw [hs]; simp)
        show (pt.unmap _ _).pte ((k.proc np).start / PGSIZE) = _
        rw [PageTable.unmap_apply, if_neg (by omega), hold]

/-! ## The beginning of the thread -/

/-- A table has its root. -/
theorem PageTable.tab_root_pos (pt : PageTable) : 0 < pt.tab pt.root := by
  unfold PageTable.tab PageTable.pages
  rw [List.count_pos_iff]
  exact List.mem_cons_self

/-- The stack of a new thread is at a place where `walkaddr` finds it. -/
theorem stackBase_lt_of_walkaddr {pid : ℤ} (h : walkaddr pt (sub64 (sub64 (add64 (stackBase pid) PGSIZE) 1) 16) ≠ none) :
    stackBase pid < MAXVA := by
  by_contra hge
  refine h ?_
  have hlt := stackBase_lt pid
  have hmod := stackBase_mod pid
  unfold walkaddr
  rw [if_pos]
  simp only [sub64, add64, MAXVA, PGSIZE] at *
  omega

theorem stackBase_ne_zero (pid : ℤ) : stackBase pid ≠ 0 := by
  intro h
  have heq := stackBase_eq pid
  rw [h, TRAPFRAME_eq] at heq
  simp only [PGSIZE] at heq
  omega

/-- **The thread** that a `thread_create` of `p` made in the slot `np`, under the leader `l`, when the state was `k`. -/
structure NewThread (k : Kernel) (p np l : Slot) (tf : Pa) (pt : PageTable) (stk : Pa) (k' : Kernel) : Prop where
  maker : p ≠ np
  others : ∀ i, i ≠ np → k'.proc i = k.proc i
  state : (k'.proc np).state = .runnable
  thread : (k'.proc np).isThread = true
  father : (k'.proc np).father = some l
  sz : (k'.proc np).sz = (k.proc l).sz
  trapframe : (k'.proc np).trapframe = some tf
  pagetable : (k'.proc np).pagetable = some pt
  stack : (k'.proc np).start = stackBase k.nextpid ∧ (k'.proc np).size = PGSIZE
  place : stackBase k.nextpid / PGSIZE < tfPage
  files : ∀ fd, (k'.proc np).ofile fd = if ((k.proc p).ofile fd).isSome then (k.proc p).ofile fd else (k.proc np).ofile fd
  -- the pages that the leader shows to the user, and the stack
  pte : ∀ v, v < tfPage → pt.pte v = if v = stackBase k.nextpid / PGSIZE then some ⟨stk, growPerm⟩
    else if v < npages (k.proc l).sz then userPte (pteOf (k.proc l).pagetable v) else none
  -- trapframe, page table and stack come from the free list
  pages : ∀ x, k'.mem.free x + pt.tab x + single stk x + single tf x = k.mem.free x

/-- **`thread_create`**, as far as the thread is concerned that it makes. -/
theorem ThreadRes.newThread {fn arg retfn : ℕ} {r : ℤ} (h : ThreadRes k p fn arg retfn r k') (hf : k.Fine e) (hm : k.mem.OkAt e)
    (h0 : (k.proc np).state = .unused) (h1 : (k'.proc np).state ≠ .unused) (hp : (k.proc p).state ≠ .unused)
    (hl : groupLeader k p = some l) (hne : np ≠ l) : ∃ tf pt stk, NewThread k p np l tf pt stk k' := by
  cases h with
  | noSlot hal => exact absurd (hal.stays_unused h0) h1
  | noShare hal _ _ _ _ => exact absurd (hal.freed_unused h0) h1
  | noStack hal _ _ _ _ _ => exact absurd (hal.freed_unused h0) h1
  | @ok np' l' k1 pt0 pt1 pt2 m1 m2 sz c fs hal hl' hpt hsh hu hsz hdup hcwd hw =>
    obtain rfl : np = np' := by
      by_contra hn
      refine h1 ?_
      rw [Kernel.setProc_of_ne _ _ hn]
      exact (congrArg Proc.state (hal.other hn)).trans h0
    obtain ⟨tf, pt, ht, hs⟩ := hal.taken hm
    obtain rfl : pt = pt0 := Option.some.inj (ht.pagetable.symm.trans hpt)
    have hpn : p ≠ np := hal.ne hp
    have hkp : k1.proc p = k.proc p := ht.other p hpn
    have hkl : k1.proc l = k.proc l := ht.other l (Ne.symm hne)
    obtain rfl : l = l' := by
      unfold groupLeader at hl hl'
      rw [hkp] at hl'
      exact Option.some.inj (hl.symm.trans hl')
    have hf1 := ht.fine hf hs
    have hs1 := share_sane ht.okAt (hf1 l).table ht.only hs hsh
    have hpid : (k1.proc np).pid = k.nextpid := by rw [ht.self]; rfl
    obtain ⟨-, hplace⟩ := stack_sane hs1 (share_okAt ht.okAt _ hsh) (stackBase_mod _) (stackBase_lt _) hu hsz
    obtain ⟨hv, hmap⟩ := hplace.resolve_left fun h => absurd (stackBase_lt_of_walkaddr hw) (by have := h.1; omega)
    obtain ⟨stk, hstk⟩ := hmap.new _ le_rfl (Nat.lt_succ_self _)
    obtain ⟨-, hpte⟩ := share_pte (fun x hx => ((hf1 l).table x hx).shaped.wf) ht.only hsh
    have hsh' := (share_inv ht.only hsh).1
    rw [hpid] at hv hmap hstk
    have hpages : ∀ x, m2.free x + pt2.tab x + single stk x + single tf x = k.mem.free x := by
      intro x
      have e1 := ht.pages x
      have e2 := hsh' x
      have e3 := hmap.pages x
      rw [leaves_one, hstk, leaf_some] at e3
      dsimp only at e3
      omega
    refine ⟨tf, pt2, stk, ?_⟩
    generalize hK : ((k1.setMem m2).setFs _).setProc np _ = K at h1 ⊢
    have hself := congrArg (fun K : Kernel => K.proc np) hK
    rw [Kernel.setProc_self] at hself
    have hfree : K.mem = m2 := by rw [← hK]; rfl
    refine ⟨hpn, fun i hi => ?_, ?_, ?_, ?_, ?_, ?_, ?_, ?_, hv, fun fd => ?_, fun v hv' => ?_, by rw [hfree]; exact hpages⟩
    · rw [← hK, Kernel.setProc_of_ne _ _ hi]
      exact ht.other i hi
    all_goals try rw [← hself]
    · rfl
    · rfl
    · rfl
    · rw [← hkl]
      rfl
    · show (k1.proc np).trapframe = some tf
      rw [ht.self]
      rfl
    · rfl
    · rw [← hpid]
      exact ⟨rfl, rfl⟩
    · show (if ((k1.proc p).ofile fd).isSome then (k1.proc p).ofile fd else (k1.proc np).ofile fd) = _
      rw [hkp, ht.self]
      rfl
    · by_cases hvs : v = stackBase k.nextpid / PGSIZE
      · rw [if_pos hvs, hvs, hstk]
      · rw [if_neg hvs, hmap.other v (by omega), hpte v, hkl]
        by_cases hlow : v < npages (k.proc l).sz
        · rw [if_pos hlow, if_pos ⟨hlow, hv'⟩]
        · rw [if_neg hlow, if_neg fun h => hlow h.1]
          exact ht.only.user v hv'

/-- **`thread_create`** starts the life of a thread. -/
theorem ThreadRes.lives {fn arg retfn : ℕ} {r : ℤ} (h : ThreadRes k p fn arg retfn r k') (hf : k.Fine e) (hm : k.mem.OkAt e) (hI : FileInv k)
    (hp : (k.proc p).state ≠ .unused) (h0 : (k.proc np).state = .unused) (h1 : (k'.proc np).state ≠ .unused)
    (hl : groupLeader k p = some l) (hne : np ≠ l) (hone : ∀ x, k.acct l x ≤ 1) : ∃ tf stk, Lives k p np l tf stk k' := by
  obtain ⟨tf, pt, stk, hn⟩ := h.newThread hf hm h0 h1 hp hl hne
  have hfiles : (k.proc np).NoFiles := hI.idle np (.inl h0)
  obtain ⟨hstart, hsize⟩ := hn.stack
  refine ⟨tf, some stk, ⟨h1, ?_, hn.thread, hn.father, ?_, hn.trapframe,
    ⟨pt, hn.pagetable, ⟨fun lpt hlpt heq => ?_, fun v hv hvn => ?_, fun s hs => ?_⟩⟩,
    fun hn => absurd hn (by simp), fun _ => ?_, fun _ _ => ?_, fun x => ?_⟩⟩
  · rw [hn.state]
    exact iff_of_false ProcState.noConfusion (by simp)
  · rw [hn.sz, hn.others l (Ne.symm hne)]
  · -- the root was free, and the leader's root is in use
    rw [hn.others l (Ne.symm hne)] at hlpt
    have h2 := pt.tab_root_pos
    have h3 := lpt.tab_root_pos
    have h4 := hn.pages pt.root
    have h5 : tabOf (k.proc l).pagetable pt.root ≤ ∑ i, tabOf (k.proc i).pagetable pt.root :=
      Finset.single_le_sum (f := fun i => tabOf (k.proc i).pagetable pt.root) (fun _ _ => Nat.zero_le _) (Finset.mem_univ l)
    have h6 := hone pt.root
    unfold Kernel.acct Kernel.tabs at h6
    rw [hlpt, tabOf_some] at h5
    rw [← heq] at h3
    omega
  · rw [hn.sz, hstart]
    by_cases hvs : v = stackBase k.nextpid / PGSIZE
    · exact .inr ⟨by simp, hvs⟩
    · rw [hn.pte v hv, if_neg hvs] at hvn
      split_ifs at hvn with hlow
      · exact .inl hlow
      · exact absurd rfl hvn
  · rw [hstart, hn.pte _ hn.place, if_pos rfl, Option.some.inj hs]
  · rw [hstart, hsize]
    exact ⟨stackBase_ne_zero _, PGSIZE_pos.ne'⟩
  · rw [hn.others p hn.maker]
    funext fd
    rw [hn.files fd]
    split_ifs with hfd
    · rfl
    · rw [hfiles.1 fd]
      simpa using (Option.not_isSome_iff_eq_none.mp hfd).symm
  · have hx := @Kernel.acct_table k k' np l x (fun i hi => by rw [hn.others i hi]) hne
    rw [((hf np).bare h0).1, hn.pagetable, tabOf_none, tabOf_some] at hx
    have := hn.pages x
    show k'.acct l x + single tf x + single stk x = k.acct l x
    omega

/-! ## The end of the thread -/

/-- A `fileclose` loop whose files all stay open elsewhere frees no page. -/
theorem closeList_keeps {cw : ℕ → ℤ} (of : Ofile) : ∀ {fds : List (Fin NOFILE)} {fs fs' : Files} {m m' : Kmem}, FsInv fs cw →
    (∀ g, 0 < fds.countP (fun fd => of fd = some g) → (fds.countP (fun fd => of fd = some g) : ℤ) < (fs.ftable g).ref) →
    fds.foldlM (closeStep of) (fs, m) = .ok (fs', m') → m' = m
  | [], fs, fs', m, m', _, _, h => by
    rw [List.foldlM_nil, pure_ok] at h
    exact (Prod.mk.inj h).2.symm
  | fd :: fds, fs, fs', m, m', hI, hmore, h => by
    rw [List.foldlM_cons, bind_ok] at h
    obtain ⟨⟨fs1, m1⟩, h1, h2⟩ := h
    obtain ⟨hI1, hr1⟩ := closeStep_spec hI h1
    have hm1 : m1 = m := by
      unfold closeStep at h1
      split at h1
      · exact (Prod.mk.inj (Except.ok.inj h1)).2.symm
      · rename_i f hf
        -- this is not the last reference
        have hlt := hmore f (by rw [List.countP_cons]; simp [hf])
        rw [List.countP_cons] at hlt
        simp only [hf, decide_true, if_true] at hlt
        unfold fileclose at h1
        dsimp only at h1
        rw [if_neg (by omega), if_pos (by omega)] at h1
        exact (Prod.mk.inj (Except.ok.inj h1)).2.symm
    rw [closeList_keeps of hI1 (fun g hg => ?_) h2, hm1]
    have hlt := hmore g (by rw [List.countP_cons]; omega)
    rw [List.countP_cons] at hlt
    rw [hr1]
    by_cases hf : of fd = some g
    · simp only [hf, decide_true, if_true] at hlt ⊢
      omega
    · simp only [hf, decide_false, if_false] at hlt ⊢
      simpa using hlt

/-- Every file of the slot is open in another slot too. -/
theorem FileInv.closeAll_keeps {fs : Files} (hI : FileInv k) (hpq : p ≠ np) (hof : (k.proc np).ofile = (k.proc p).ofile)
    (h : filecloseAll (k.proc np).ofile k.fs k.mem = .ok (fs, m)) : m = k.mem := by
  refine closeList_keeps (k.proc np).ofile hI.fs (fun g hg => ?_) h
  have hcount : (((List.finRange NOFILE).countP fun fd => (k.proc np).ofile fd = some g : ℕ) : ℤ) = (k.proc np).ofile.count g := by
    rw [Ofile.count, tally_eq_countP]
  have htwo : (k.proc np).ofile.count g + (k.proc p).ofile.count g ≤ ∑ i, (k.proc i).ofile.count g := by
    rw [← Finset.sum_pair (f := fun i => (k.proc i).ofile.count g) (Ne.symm hpq)]
    exact Finset.sum_le_sum_of_subset_of_nonneg (Finset.subset_univ _) fun i _ _ => Ofile.count_nonneg _ _
  rw [hI.refs, hcount]
  rw [← hof] at htwo
  omega

/-- **`thread_exit`**, the files: the maker has them open, so no pipe goes. -/
theorem Lives.threadExit (h : Lives k0 p np l tf stk k) (hp : (k.proc np).state = .running) (hfr : (k.proc np).frame = .user)
    (hI : FileInv k) (hpq : p ≠ np) (hc : closeFiles (k.setAnswers as) np .threadExit = .ok k') : Lives k0 p np l tf stk k' := by
  have hquiet : Quiet k k' := (show Quiet k (k.setAnswers as) from Quiet.refl k).trans (closeFiles_quiet hc rfl fun _ => h.thread)
  obtain ⟨fs, m, hcl, rfl⟩ := closeFiles_inv hc
  have hst : stk ≠ none := fun hn => by
    have := h.zombie.mpr hn
    rw [hp] at this
    cases this
  have hmem : m = (k.setAnswers as).mem :=
    (hI.same (.setAnswers k as)).closeAll_keeps hpq (h.files (by rw [hfr]; rfl) hst) hcl
  refine h.quiet hquiet (by rw [hmem]; rfl) (by rw [Kernel.setProc_self]; rfl) fun hd => ?_
  rw [Kernel.setProc_self] at hd
  cases hd

/-- **`thread_exit`**, the rest: the stack page goes back. -/
theorem Lives.exitEnd (h : Lives k0 p np l tf stk k) (hf : k.Fine e) (hp : (k.proc np).state = .running) (hne : np ≠ l)
    (hend : threadExitEnd k np = .ok k') : Lives k0 p np l tf none k' := by
  obtain ⟨P, m, hrel, rfl⟩ := threadExitEnd_inv hend
  obtain ⟨s, rfl⟩ : ∃ s, stk = some s := by
    refine Option.ne_none_iff_exists'.mp fun hn => ?_
    have := h.zombie.mpr hn
    rw [hp] at this
    cases this
  obtain ⟨hstart, hsize⟩ := h.there (by simp)
  obtain ⟨pt, hpt, ht⟩ := h.table
  obtain ⟨pt0, pt', hpt0, hu, -, -, rfl⟩ | ⟨h0, -⟩ := releaseStack_inv hrel
  swap
  · exact absurd h0 (by tauto)
  obtain rfl := Option.some.inj (hpt.symm.trans hpt0)
  obtain ⟨rfl, hfree⟩ := unmapMapped_inv ((hf np).table pt hpt).shaped.wf hu
  have hl : ∀ {P : Proc}, ((k.setMem m).setProc np P).proc l = k.proc l := fun {P} => by
    rw [Kernel.setProc_of_ne _ _ (Ne.symm hne), Kernel.setMem_proc]
  have hacct : ∀ {P : Proc} {x : Pa}, P.pagetable = some (pt.unmap ((k.proc np).start / PGSIZE) 1) →
      ((k.setMem m).setProc np P).acct l x = k.acct l x + single s x := by
    intro P x hP
    have hx := @Kernel.acct_table k ((k.setMem m).setProc np P) np l x
      (fun i hi => by rw [Kernel.setProc_of_ne _ _ hi, Kernel.setMem_proc]) hne
    rw [hpt, Kernel.setProc_self, Kernel.setProc_mem, Kernel.setMem_mem, hfree, hP, if_pos rfl, ht.stack s rfl] at hx
    have hx : _ + k.mem.free x + pt.tab x = k.acct l x + (k.mem.free x + single s x) + pt.tab x := hx
    omega
  -- before the joiners are woken
  have hz : Lives k0 p np l tf none ((k.setMem m).setProc np { k.proc np with
      pagetable := some (pt.unmap ((k.proc np).start / PGSIZE) 1), start := 0, size := 0, xstate := 0, state := .zombie }) := by
    refine ⟨?_, ?_, ?_, ?_, ?_, ?_, ⟨pt.unmap ((k.proc np).start / PGSIZE) 1, ?_, ?_⟩, ?_, fun h => absurd rfl h, fun _ h => absurd rfl h,
      fun x => ?_⟩
    all_goals try rw [Kernel.setProc_self]
    · exact ProcState.noConfusion
    · exact iff_of_true rfl rfl
    · exact h.thread
    · exact h.father
    · rw [hl]
      exact h.sz
    · exact h.trapframe
    · rw [hl]
      refine ⟨ht.root, fun v h1 h2 => ?_, fun s hs => by cases hs⟩
      rw [PageTable.unmap_apply] at h2
      split_ifs at h2 with hv
      · exact absurd rfl h2
      · refine .inl ((ht.low v h1 h2).resolve_right fun h3 => ?_)
        omega
    · exact fun _ => ⟨rfl, rfl⟩
    · rw [hacct rfl, ← h.pages x]
      simp only [onePage]
      omega
  refine hz.calm (wakeup_quiet _ _ _) (.wakeup _ _ _) rfl ?_ ?_
  · simp [wakeup]
  · simp only [wakeup, ne_eq, not_true_eq_false, false_and, if_false]
    exact id

/-- A round of `thread_join` that collects nothing. -/
theorem Lives.joinRound {tid : ℤ} {ls : Option Slot} (h : Lives k0 p np l tf stk k) (hq : (k.proc q).Busy) (hj : JoinRes k q tid ls o k')
    (hz : ∀ t, joinTarget k tid ls = some t → (k.proc t).state ≠ .zombie) : Lives k0 p np l tf stk k' := by
  have hfs := FileSame.join hq.running hj
  have hst : ∀ {P : Proc}, P.state ≠ .zombie → ((((k.setProc q P).proc np).state = .zombie) ↔ (k.proc np).state = .zombie) := by
    intro P hP
    rw [Kernel.setProc_apply]
    split_ifs with hn
    · rw [hn, hq.running]
      exact iff_of_false hP (by decide)
    · rfl
  have hdy : ∀ {P : Proc}, (((k.setProc q P).proc np).frame.dying = false → (k.proc np).frame.dying = false) := by
    intro P hP
    rw [Kernel.setProc_apply] at hP
    split_ifs at hP with hn
    · rw [hn]
      exact hq.dying
    · exact hP
  cases hj with
  | gone _ => exact h.calm (Quiet.setProc (.toUser hq)) hfs rfl (hst (by rw [hq.running]; decide)) hdy
  | reap ht hzomb _ _ => exact absurd hzomb (hz _ ht)
  | sleep _ _ => exact h.calm (Quiet.setProc (.enter hq (by decide) rfl (by simp))) hfs rfl (hst ProcState.noConfusion) hdy

/-! ## Runs -/

/-- **Step lemma.** -/
theorem Lives.step (h : Lives k0 p np l tf stk k) (hr : Reach Step always Boot k) (hne : np ≠ l) (hpn : p ≠ np)
    (ha : LifeStep np l k a) (hk : KeepsStack np l k a) (hs : Step k a o k') : ∃ stk', Lives k0 p np l tf stk' k' := by
  obtain ⟨e, -, hf⟩ := fine_reach hr
  have hrunning : ∀ {q st}, (k.proc q).state = .runnable ∨ (k.proc q).state = .running → st ≠ .zombie → st ≠ .unused →
      Lives k0 p np l tf stk (k.setProc q { k.proc q with state := st }) := by
    intro q st hq hst hst'
    have h1 : (k.proc q).state ≠ .unused := by rcases hq with hq | hq <;> simp [hq]
    have h2 : (k.proc q).state ≠ .used := by rcases hq with hq | hq <;> simp [hq]
    have h3 : (k.proc q).state ≠ .zombie := by rcases hq with hq | hq <;> simp [hq]
    refine h.calm (Quiet.setProc (.setState h1 h2 h3 hst')) (.setProc (k := k) k.mem ?_) rfl ?_ ?_
    · refine ⟨rfl, rfl, fun hi => ?_⟩
      rcases hi with hi | hi | hi
      · exact absurd hi hst'
      · exact absurd hi hst
      · exact .inr (.inr hi)
    · rw [Kernel.setProc_apply]
      split_ifs with hn
      · rw [hn]
        exact iff_of_false hst h3
      · rfl
    · rw [Kernel.setProc_apply]
      split_ifs with hn
      · rw [hn]
        exact id
      · exact id
  have htidy : ∀ q as, Lives k0 p np l tf stk (k.tidy q as) := by
    intro q as
    refine h.calm (tidy_quiet k q as) (.tidy k q as) rfl ?_ ?_
    all_goals
      unfold Kernel.tidy
      rw [Kernel.setProc_apply]
      split_ifs with hn
    · rw [hn]
    · rfl
    · rw [hn]
      exact id
    · exact id
  have hinv := step_inv hs
  cases ha with
  | sbrk ha =>
    cases ha with
    | scheduler =>
      cases hinv with
      | scheduler hp => exact ⟨stk, hrunning (.inl hp) (by decide) (by decide)⟩
    | yield =>
      cases hinv with
      | yield hp => exact ⟨stk, hrunning (.inr hp) (by decide) (by decide)⟩
    | @sbrk q n as hq hkill =>
      have hL : Lives k0 p np l tf stk (k.setAnswers as) := h.calm (.refl k) (.setAnswers k as) rfl .rfl id
      have hf' : (k.setAnswers as).Fine e := hf
      cases hinv with
      | killed _ _ hk' _ _ => exact absurd (hkill.symm.trans hk') (by decide)
      | sbrk _ _ _ hg => exact ⟨stk, hg.lives hL hne hf' (isInt_int32 n) hq (hk _ rfl)⟩
      | file _ _ _ hc _ => cases hc
  | @threadExit as hkill =>
    obtain ⟨s, tr, h0, hrun⟩ := hr
    obtain ⟨hen, hst⟩ := hs
    obtain ⟨hp, hfr⟩ : (k.proc np).state = .running ∧ (k.proc np).frame = .user := by
      simpa [Action.enabled, Frame.isUser_iff] using hen
    rw [step_syscall hkill] at hst
    obtain ⟨hc, -⟩ := goesOn_ok hst
    unfold Xv6.threadExit at hc
    rw [if_pos (by exact h.thread)] at hc
    exact ⟨stk, h.threadExit hp hfr (run_fileInv h0 hrun) hpn hc⟩
  | @exitEnd inp as hfr =>
    cases hinv with
    | resumeThreadExit hp _ hend =>
      exact ⟨none, (htidy np as).exitEnd ((tidy_quiet k np as).fine hf) (by simpa [Kernel.tidy] using hp) hne hend⟩
    | resumeWait _ hfr' _ => exact absurd (hfr.symm.trans hfr') (by simp)
    | resumeJoin _ hfr' _ => exact absurd (hfr.symm.trans hfr') (by simp)
    | resumeExit _ hfr' => exact absurd (hfr.symm.trans hfr') (by simp)
    | resumeExec _ hfr' _ => exact absurd (hfr.symm.trans hfr') (by simp)
  | @join q tid ls a hj hz =>
    cases hj with
    | @call t as hp hfr hkill ht hl =>
      have hL : Lives k0 p np l tf stk (k.setAnswers as) := h.calm (.refl k) (.setAnswers k as) rfl .rfl id
      cases hinv with
      | killed _ _ hk' _ _ => exact absurd (hkill.symm.trans hk') (by decide)
      | threadJoin _ _ _ hres =>
        rw [ht, hl] at hres
        exact ⟨stk, hL.joinRound ⟨hp, by rw [Kernel.setAnswers_proc, hfr]; rfl⟩ hres hz⟩
      | file _ _ _ hc _ => cases hc
    | @again inp as hp hfr =>
      cases hinv with
      | resumeJoin _ hfr' hres =>
        obtain ⟨rfl, rfl⟩ := Frame.join.inj (hfr.symm.trans hfr')
        refine ⟨stk, (htidy q as).joinRound ⟨by simpa [Kernel.tidy] using hp, by simp [Kernel.tidy, hfr, Frame.dying]⟩ hres fun t ht => ?_⟩
        rw [joinTarget_tidy] at ht
        have := hz t ht
        unfold Kernel.tidy
        rw [Kernel.setProc_apply]
        split_ifs with hn
        · rw [← hn]
          exact this
        · exact this
      | resumeWait _ hfr' _ => exact absurd (hfr.symm.trans hfr') (by simp)
      | resumeThreadExit _ hfr' _ => exact absurd (hfr.symm.trans hfr') (by simp)
      | resumeExit _ hfr' => exact absurd (hfr.symm.trans hfr') (by simp)
      | resumeExec _ hfr' _ => exact absurd (hfr.symm.trans hfr') (by simp)

theorem SbrkStep.acct (ha : SbrkStep l k a) (hf : k.Fine e) (hs : Step k a o k') (x : Pa) : k'.acct l x = k.acct l x := by
  have hstate : ∀ {q : Slot} {st : ProcState}, (k.setProc q { k.proc q with state := st }).acct l x = k.acct l x := by
    intro q st
    have hpt : ∀ i, ((k.setProc q { k.proc q with state := st }).proc i).pagetable = (k.proc i).pagetable := by
      intro i
      rw [Kernel.setProc_apply]
      split_ifs with hi
      · rw [hi]
      · rfl
    exact Kernel.acct_congr (by rw [Kernel.setProc_mem]) (fun i => by rw [hpt]) (by rw [hpt])
  have hinv := step_inv hs
  cases ha with
  | scheduler =>
    cases hinv with
    | scheduler _ => exact hstate
  | yield =>
    cases hinv with
    | yield _ => exact hstate
  | @sbrk q n as hq hkill =>
    have hf' : (k.setAnswers as).Fine e := hf
    cases hinv with
    | killed _ _ hk' _ _ => exact absurd (hkill.symm.trans hk') (by decide)
    | sbrk _ _ _ hg => exact hg.acct hf' hq x
    | file _ _ _ hc _ => cases hc

/-- The account of a run of `sbrk` calls. -/
theorem sbrk_run_acct {tr : Trace} (hr : Reach Step always Boot k0) (hrun : Run Step (SbrkStep l) k0 tr k) (x : Pa) :
    k.acct l x = k0.acct l x := by
  have hinv := hrun.inv (I := fun k => Reach Step always Boot k ∧ k.acct l x = k0.acct l x) ⟨hr, rfl⟩ fun k a o k' hI ha hs => by
    obtain ⟨hk, hacct⟩ := hI
    obtain ⟨e, -, hf⟩ := fine_reach hk
    exact ⟨hk.step trivial hs, (ha.acct hf hs x).trans hacct⟩
  exact hinv.2

/-- `p` makes the thread `np` in the group of `l`. -/
structure Born (k0 : Kernel) (p np l : Slot) (k1 : Kernel) : Prop where
  reach : Reach Step always Boot k0
  call : ∃ fn arg retfn as r, Step k0 (.syscall p (.threadCreate fn arg retfn) as) (some r) k1
  before : (k0.proc np).state = .unused
  after : (k1.proc np).state ≠ .unused
  leader : groupLeader k0 p = some l

/-- A slot that nobody would take for a process or a thread. -/
structure Proc.Cleared (P : Proc) : Prop where
  state : P.state = .unused
  thread : P.isThread = false ∧ P.father = none ∧ P.tid = 0 ∧ P.start = 0 ∧ P.size = 0
  proc : P.pid = 0 ∧ P.parent = none ∧ P.chan = none ∧ P.killed = false ∧ P.xstate = 0
  memory : P.sz = 0 ∧ P.pagetable = none ∧ P.trapframe = none
  files : P.NoFiles

/-- **The thread `np` left no trace** when `q` collected it in state `k`, and the state is `k'` now: its slot is cleared, no other has changed,
and the pages that it had are free, each once.  A run of `sbrk` calls alone that leads from the state `k0` before the thread to the
same page tables leaves the same free pages. -/
structure NoTrace (k0 k : Kernel) (np l q : Slot) (k' : Kernel) : Prop where
  slot : (k'.proc np).Cleared
  others : ∀ i, i ≠ np → i ≠ q → k'.proc i = k.proc i
  caller : ∃ c, k'.proc q = { k.proc q with chan := c, frame := .user }
  pages : ∀ x, k'.acct l x = k0.acct l x
  alone : ∀ tr k4, Run Step (SbrkStep l) k0 tr k4 → (∀ i, (k4.proc i).pagetable = (k'.proc i).pagetable) → k4.mem.free = k'.mem.free
  once : k'.mem.Once

/-- **The life of a thread is neutral.**  It begins in a state in which every page is in one place, under a leader that is not the very slot it gets,
and in between the group never shrinks past the stack: then `thread_join` returns and the thread leaves no trace. -/
theorem thread_neutral {tr : Trace} {tid : ℤ} {ls : Option Slot} (hb : Born k0 p np l k1) (hne : np ≠ l) (hone : ∀ x, k0.acct l x ≤ 1)
    (hrun : Run Step (fun k a => LifeStep np l k a ∧ KeepsStack np l k a) k1 tr k) (hz : (k.proc np).state = .zombie)
    (hj : JoinCall k q tid ls a) (ht : joinTarget k tid ls = some np) :
    ∃ k', step k a = .ok (some (k.proc np).tid, k') ∧ NoTrace k0 k np l q k' := by
  obtain ⟨fn, arg, retfn, as, r, hcall⟩ := hb.call
  obtain ⟨e, hm, hf⟩ := fine_reach hb.reach
  have hm' : (k0.setAnswers as).mem.OkAt e := hm
  have hf' : (k0.setAnswers as).Fine e := hf
  obtain ⟨s, tr0, h0, hrun0⟩ := hb.reach
  have hI : FileInv (k0.setAnswers as) := (run_fileInv h0 hrun0).same (.setAnswers k0 as)
  -- the thread is born
  obtain ⟨tf, stk, hL, hpn⟩ : ∃ tf stk, Lives (k0.setAnswers as) p np l tf stk k1 ∧ p ≠ np := by
    cases step_inv hcall with
    | threadCreate hp _ _ hres =>
      have hlive : (k0.proc p).state ≠ .unused := by rw [hp]; decide
      obtain ⟨tf, stk, hL⟩ := hres.lives hf' hm' hI hlive hb.before hb.after hb.leader hne hone
      exact ⟨tf, stk, hL, fun hpn => hlive (hpn ▸ hb.before)⟩
    | file _ _ _ hc _ => cases hc
  -- it lives until it is collected
  have hinv := hrun.inv (I := fun k => Reach Step always Boot k ∧ ∃ stk, Lives (k0.setAnswers as) p np l tf stk k)
    ⟨hb.reach.step trivial hcall, stk, hL⟩ fun k a o k' hk ha hs => by
      obtain ⟨hreach, stk, hL⟩ := hk
      exact ⟨hreach.step trivial hs, hL.step hreach hne hpn ha.1 ha.2 hs⟩
  obtain ⟨hreach, stk', hL'⟩ := hinv
  obtain rfl := hL'.zombie.mp hz
  obtain ⟨e', hmk, hfk⟩ := fine_reach hreach
  obtain ⟨pt, hpt, htab⟩ := hL'.table
  have hnone : ∀ v, npages (k.proc np).sz ≤ v → v < tfPage → pt.pte v = none := by
    intro v h1 h2
    by_contra hv
    rcases htab.low v h2 hv with h | ⟨h, -⟩
    · omega
    · exact h rfl
  obtain ⟨k', hstep⟩ := join_reaps hj ht hz hfk hmk hpt hnone
  obtain ⟨hself, hothers, hcaller⟩ := join_frees hj ht hz hstep
  have hpages : ∀ x, k'.acct l x = k0.acct l x := by
    intro x
    have hgive := join_gives hj ht hz hfk hpt hstep x
    have hlife : k.acct l x + single tf x + 0 = k0.acct l x := hL'.pages x
    have hx := @Kernel.acct_table k k' np l x (fun i hi => by
      by_cases hiq : i = q
      · obtain ⟨c, hc⟩ := hcaller
        rw [hiq, hc]
      · rw [hothers i hi hiq]) hne
    rw [hpt, hself, tabOf_some] at hx
    rw [hL'.trapframe] at hgive
    have hx : k'.acct l x + k.mem.free x + pt.tab x = k.acct l x + k'.mem.free x + 0 := hx
    have hgive : k'.mem.free x = k.mem.free x + single tf x + pt.tab x := hgive
    omega
  obtain ⟨hstart, hsize⟩ := hL'.gone rfl
  obtain ⟨s', tr', h0', hrun'⟩ := hreach
  have hfiles : (k.proc np).NoFiles := (run_fileInv h0' hrun').idle np (.inr (.inl hz))
  refine ⟨k', hstep, ⟨?_, hothers, hcaller, hpages, fun tr k4 hrun4 hsame => ?_, fun x => ?_⟩⟩
  · rw [hself]
    exact ⟨rfl, ⟨rfl, rfl, rfl, hstart, hsize⟩, ⟨rfl, rfl, rfl, rfl, rfl⟩, ⟨rfl, rfl, rfl⟩, hfiles⟩
  · funext x
    have h4 := sbrk_run_acct hb.reach hrun4 x
    have h5 := hpages x
    unfold Kernel.acct Kernel.tabs at h4 h5
    rw [hsame l, Finset.sum_congr rfl fun i _ => congrArg (tabOf · x) (hsame i)] at h4
    omega
  · exact (k'.free_le_acct l x).trans ((hpages x).le.trans (hone x))

/-! ## Two lives -/

/-- After boot every page is in one place. -/
theorem boot_acct (h : Boot k) (x : Pa) : k.acct k.initproc x ≤ 1 := by
  obtain ⟨m0, root, tf, pt0, pt, m1, m2, m, hf, h1, h2, h3, hmem, -, -, hproc⟩ := boot_inv h
  have h0 : m0.OkAt m0.kend := ⟨rfl, hf.2⟩
  obtain ⟨ho, -, hp⟩ := procPagetable_some (kalloc_okAt h0 h1) h2
  have e0 : m0.free x ≤ 1 := List.nodup_iff_count_le_one.mp hf.1 x
  have e1 := kalloc_some h1 x
  have e2 := hp x
  have e3 := (uvmfirst_held ho.shaped h3).2 x
  rw [ho.held] at e3
  have hsum : ∑ q, tabOf (k.proc q).pagetable x = pt.tab x := by
    rw [Finset.sum_eq_single k.initproc]
    · rw [hproc, Function.update_self]
      rfl
    · intro q _ hq
      rw [hproc, Function.update_of_ne hq]
      rfl
    · exact fun hn => absurd (Finset.mem_univ _) hn
  have hpte : pteOf (k.proc k.initproc).pagetable = pt.pte := by
    rw [hproc, Function.update_self]
    rfl
  unfold PageTable.held at e3
  unfold Kernel.acct Kernel.tabs
  rw [hsum, hpte, hmem]
  omega

theorem Frame.tag_threadExit {fr : Frame} (h : fr.tag = .threadExit) : fr = .threadExit := by
  cases fr with
  | threadExit => rfl
  | _ => cases h

/-- The steps of a life apart from `thread_join`, as a test. -/
def lifeTest (np l : Slot) (k : Kernel) : Action → Bool
  | .scheduler _ => true
  | .yield _ => true
  | .syscall q (.sbrk _) _ => groupLeader k q = some l && !(k.proc q).killed
  | .syscall q .threadExit _ => q = np && !(k.proc np).killed
  | .resume q _ _ => q = np && (k.proc np).frame.tag = .threadExit
  | _ => false

theorem lifeStep_of_test (h : lifeTest np l k a = true) : LifeStep np l k a := by
  unfold lifeTest at h
  split at h
  · exact .sbrk .scheduler
  · exact .sbrk .yield
  · obtain ⟨h1, h2⟩ : groupLeader k _ = some l ∧ (k.proc _).killed = false := by simpa using h
    exact .sbrk (.sbrk h1 h2)
  · obtain ⟨rfl, h2⟩ : _ = np ∧ (k.proc np).killed = false := by simpa using h
    exact .threadExit h2
  · rename_i q _ _
    obtain ⟨rfl, h2⟩ : q = np ∧ (k.proc np).frame.tag = .threadExit := by simpa using h
    exact .exitEnd (Frame.tag_threadExit h2)
  · cases h

/-- What a computation finds after one step and a run. -/
theorem exists_life (ok : Kernel → Action → Prop) [∀ k a, Decidable (ok k a)] (k0 : Kernel) (c : Action) (as : List Action)
    (P : Option ℤ → Kernel → Kernel → Prop) [∀ o k1 k, Decidable (P o k1 k)]
    (h : (stepOpt k0 c).any (fun x => (execute stepOpt ok x.2 as).any fun y => decide (P x.1 x.2 y.2)) = true) :
    ∃ o k1 tr k, Step k0 c o k1 ∧ Run Step ok k1 tr k ∧ P o k1 k := by
  obtain ⟨⟨o, k1⟩, hx, hP⟩ := (Option.any_eq_true _ _).mp h
  obtain ⟨tr, k, hrun, hk⟩ := exists_run ok k1 as (fun _ k => P o k1 k) hP
  exact ⟨o, k1, tr, k, stepOpt_step hx, hrun, hk⟩

/-- The first process makes a thread and grows; the thread exits and is collected. -/
theorem thread_neutral_small : ∃ k1 k tr, Born awake 0 1 0 k1 ∧ (∀ x, awake.acct 0 x ≤ 1) ∧
    Run Step (fun k a => LifeStep 1 0 k a ∧ KeepsStack 1 0 k a) k1 tr k ∧ (k.proc 1).state = .zombie ∧
    JoinCall k 0 2 (some 0) (.syscall 0 (.threadJoin 2) []) ∧ joinTarget k 2 (some 0) = some 1 ∧
    ∃ k', step k (.syscall 0 (.threadJoin 2) []) = .ok (some (k.proc 1).tid, k') ∧ NoTrace awake k 1 0 0 k' := by
  have hone : ∀ x, awake.acct 0 x ≤ 1 := by
    intro x
    have hinit : small.initproc = 0 := by decide +kernel
    have hx := boot_acct small_boot x
    rw [hinit] at hx
    refine le_trans (le_of_eq ?_) hx
    have hpt : ∀ i, (awake.proc i).pagetable = (small.proc i).pagetable := by
      intro i
      unfold awake
      rw [Kernel.setProc_apply]
      split_ifs with hi
      · rw [hi]
      · rfl
    exact Kernel.acct_congr (by rw [awake, Kernel.setProc_mem]) (fun i => by rw [hpt]) (by rw [hpt])
  obtain ⟨o, k1, tr, k, hstep, hrun, ho, h0, h1, hl, hz, hp, hfr, hk, hlead, ht⟩ := exists_life
    (fun k a => lifeTest 1 0 k a = true ∧ KeepsStack 1 0 k a) awake (.syscall 0 (.threadCreate 0 0 0) (pages 20 10))
    [.syscall 0 (.sbrk 4096) (pages 40 5), .scheduler 1, .syscall 1 .threadExit [], .resume 1 (.done 0 []) []]
    (fun o k1 k => o = some 2 ∧ (awake.proc 1).state = .unused ∧ (k1.proc 1).state ≠ .unused ∧ groupLeader awake 0 = some 0 ∧
      (k.proc 1).state = .zombie ∧ (k.proc 0).state = .running ∧ (k.proc 0).frame.tag = .user ∧ (k.proc 0).killed = false ∧
      groupLeader k 0 = some 0 ∧ joinTarget k 2 (some 0) = some 1) (by decide +kernel)
  subst ho
  have hb : Born awake 0 1 0 k1 := ⟨awake_reach, ⟨0, 0, 0, _, 2, hstep⟩, h0, h1, hl⟩
  have hrun' := hrun.mono (show ∀ k a, _ → LifeStep 1 0 k a ∧ KeepsStack 1 0 k a from fun k a h => ⟨lifeStep_of_test h.1, h.2⟩)
  have hj : JoinCall k 0 2 (some 0) (.syscall 0 (.threadJoin 2) []) := .call hp (Frame.tag_user hfr) hk (by decide) hlead
  exact ⟨k1, k, tr, hb, hone, hrun', hz, hj, ht, thread_neutral hb (by decide) hone hrun' hz hj ht⟩

/-- A process of one page maps nothing but that page. -/
theorem Proc.Fine.leaves_zero {P : Proc} {x : Pa} (h : P.Fine e) (ht : P.isThread = false) (hsz : npages P.sz = 1)
    (h0 : (pteOf P.pagetable 0).map Pte.pa ≠ some x) : leaves (pteOf P.pagetable) 0 tfPage x = 0 := by
  by_contra hne
  obtain ⟨v, en, -, hv, hen, hpa⟩ := exists_of_leaves (Nat.pos_of_ne_zero hne)
  cases hpt : P.pagetable with
  | none =>
    rw [hpt] at hen
    cases hen
  | some pt =>
    rw [hpt] at hen h0
    have hv0 : v = 0 := by
      by_contra hv0
      have hnone := (h.full ht pt hpt).high v (by omega) (by omega)
      exact absurd (hen.symm.trans hnone) (by simp)
    rw [hv0] at hen
    rw [hen] at h0
    exact h0 (congrArg some hpa)

/-- **The stack of a late thread.**  Pid 33554430 puts it into page 1, right above the first process.  The process grows over it and shrinks
again, which unmaps the stack without giving it back. -/
theorem late_stack_leaks : ¬ ∀ (k0 k1 k : Kernel) (p np l q : Slot) (tr : Trace) (tid : ℤ) (ls : Option Slot) (a : Action),
    Born k0 p np l k1 → Run Step (LifeStep np l) k1 tr k → (k.proc np).state = .zombie → JoinCall k q tid ls a →
    joinTarget k tid ls = some np → ∃ k', step k a = .ok (some (k.proc np).tid, k') ∧ NoTrace k0 k np l q k' := by
  intro hall
  have hr : Reach Step always Boot (late 33554430) := by
    have h3 := late_reach 33554427 (by decide)
    rwa [show ((33554427 : ℕ) : ℤ) + 3 = 33554430 by decide] at h3
  obtain ⟨o, k1, tr, k, hstep, hrun, ho, h0, h1, hl, hz, hp, hfr, hk, hlead, ht, hfree, hend⟩ := exists_life
    (fun k a => lifeTest 1 0 k a = true) (late 33554430) (.syscall 0 (.threadCreate 0 0 0) (pages 20 10))
    [.syscall 0 (.sbrk 4096) (pages 40 5), .syscall 0 (.sbrk (-4096)) [], .scheduler 1, .syscall 1 .threadExit [],
      .resume 1 (.done 0 []) []]
    (fun o k1 k => o = some 33554430 ∧ ((late 33554430).proc 1).state = .unused ∧ (k1.proc 1).state ≠ .unused ∧
      groupLeader (late 33554430) 0 = some 0 ∧ (k.proc 1).state = .zombie ∧ (k.proc 0).state = .running ∧ (k.proc 0).frame.tag = .user ∧
      (k.proc 0).killed = false ∧ groupLeader k 0 = some 0 ∧ joinTarget k 33554430 (some 0) = some 1 ∧
      (late 33554430).mem.free (page 26) = 1 ∧ (stepOpt k (.syscall 0 (.threadJoin 33554430) [])).any (fun x => decide
        (x.2.mem.free (page 26) = 0 ∧ (∀ q, tabOf (x.2.proc q).pagetable (page 26) = 0) ∧ (x.2.proc 0).sz = 4096 ∧
          (x.2.proc 0).isThread = false ∧ (pteOf (x.2.proc 0).pagetable 0).map Pte.pa ≠ some (page 26))) = true) (by decide +kernel)
  subst ho
  generalize late 33554430 = k0 at hr hstep h0 hl hfree
  have hb : Born k0 0 1 0 k1 := ⟨hr, ⟨0, 0, 0, _, _, hstep⟩, h0, h1, hl⟩
  have hrun' := hrun.mono fun k a h => lifeStep_of_test h
  obtain ⟨k', hk', htrace⟩ := hall _ k1 k 0 1 0 0 tr 33554430 (some 0) (.syscall 0 (.threadJoin 33554430) []) hb hrun' hz
    (.call hp (Frame.tag_user hfr) hk (by decide) hlead) ht
  obtain ⟨o, k2, hstep2, hk2⟩ := exists_step hend
  obtain ⟨-, rfl⟩ := Prod.mk.inj (Except.ok.inj (hk'.symm.trans hstep2.2))
  obtain ⟨hf0, htab, hsz, hthr, hpte⟩ := of_decide_eq_true hk2
  -- the page was free before, and is nowhere now
  have hreach : Reach Step always Boot k' :=
    ((hr.step trivial hstep).run (hrun.mono fun _ _ _ => trivial)).step trivial hstep2
  obtain ⟨e, -, hf⟩ := fine_reach hreach
  generalize page 26 = x at hfree hf0 htab hpte
  have hleaf := (hf 0).leaves_zero hthr (by rw [hsz]; decide) hpte
  have hzero : k'.acct 0 x = 0 := by
    unfold Kernel.acct Kernel.tabs
    rw [hleaf, hf0, Finset.sum_eq_zero fun q _ => htab q, add_zero, add_zero]
  have hpos := k0.free_le_acct 0 x
  rw [hfree, ← htrace.pages x, hzero] at hpos
  exact absurd hpos (by decide)

end OsLabs.Xv6
