import OsLabs.Xv6.OwnerCalls
import OsLabs.Xv6.GroupExec

/-!
# OsLabs.Xv6.PageSafety — pages in use are not free

A thread maps the pages of its leader without counting them, so it matters who gives them back.

* `KeepsOwners`: the calls give back only what their slot owns; what `wait`, `thread_create`, `exec` and `thread_exit` would have to check.
* `step_total`: such a step gives no page another owner.
* `pages_in_use_not_free`: in a run of such steps no page in use is ever on the free list, and none is on it twice.
* `orphan_maps_free_page`: the kernel does not check it, and a `wait` for the leader frees what its thread maps.
-/

namespace OsLabs.Xv6

open Fallible Lts Tally

variable {k k' k0 : Kernel} {p q : Slot} {a : Action} {e v : ℕ} {x : Pa} {o : Option ℤ} {as : List Pa}

/-! ## The guard -/

/-- The calls keep to what their slot owns.

* `wait` frees no process that still has a thread, and none that maps a page of its leader, as an exited thread does.
* `thread_create` fails only where its error exit leaves no page of the leader behind.
* `exec` commits only in a process that shares nothing with its threads or its leader.
* `thread_exit` finds its own page at `start`. -/
structure KeepsOwners (k : Kernel) (a : Action) : Prop where
  wait : ∀ y ∈ a.waitReaps k, ¬ HasThread k y.2 ∧ SharesNothing k y.2
  create : ∀ p fn arg retfn as, a = .syscall p (.threadCreate fn arg retfn) as → (k.proc p).killed = false →
    allocFails (k.setAnswers as) p = true → CleanExit (k.setAnswers as) p
  exec : ∀ p entry argv as pt sz, a = .resume p (.done entry argv) as → (k.proc p).frame = .exec pt sz →
    GivesUp pt sz argv (k.setAnswers as).mem ∨ SharesNothing k p
  exit : ∀ p inp as, a = .resume p inp as → (k.proc p).frame = .threadExit → (k.proc p).start ≠ 0 → (k.proc p).size ≠ 0 →
    ¬ k.SharedAt p ((k.proc p).start / PGSIZE)

theorem KeepsOwners.leaders (h : KeepsOwners k a) : KeepsLeaders k a := fun y hy q hq ht hfather =>
  (h.wait y hy).1 ⟨q, hq, ht, hfather⟩

theorem Quiet.hasThread (h : Quiet k k') : HasThread k' q ↔ HasThread k q := by
  unfold HasThread
  refine exists_congr fun j => ?_
  rw [(h j).isThread, (h j).father, ne_eq, ne_eq, (h j).unused]

theorem Quiet.sharedAt (h : Quiet k k') : k'.SharedAt q v ↔ k.SharedAt q v := by
  unfold Kernel.SharedAt
  rw [(h q).isThread, (h q).father, (h q).pagetable]
  refine and_congr_right fun _ => exists_congr fun f => ?_
  rw [(h f).pagetable]

theorem Quiet.sharesNothing (h : Quiet k k') : SharesNothing k' q ↔ SharesNothing k q := by
  unfold SharesNothing
  refine forall_congr' fun j => forall_congr' fun v => forall_congr' fun _ => ?_
  rw [(h j).father, h.sharedAt]

/-! ## Steps -/

theorem setAnswers_total (k : Kernel) (as : List Pa) (x : Pa) : (k.setAnswers as).total x ≤ k.total x := by
  have hq : Quiet k (k.setAnswers as) := .refl k
  have hfree : (k.setAnswers as).mem.free = k.mem.free := rfl
  refine hq.total_le ?_
  rw [hfree, Kernel.setAnswers_fs]

theorem tidy_total (k : Kernel) (p : Slot) (as : List Pa) (x : Pa) : (k.tidy p as).total x ≤ k.total x := by
  have hfree : (k.tidy p as).mem.free = k.mem.free := rfl
  have hfs : (k.tidy p as).fs = k.fs := rfl
  refine (tidy_quiet k p as).total_le ?_
  rw [hfree, hfs]

theorem execSeg_returns {pt : PageTable} {sz : ℕ} {img : Image} {ph : Option Proghdr} (h : execSeg k p pt sz img ph = .ok (o, k')) :
    o = none ∨ o = some (-1) := by
  have hbad : ∀ {k1 : Kernel} {pt : PageTable} {sz : ℕ}, execBad k1 p pt sz = .ok (o, k') → o = some (-1) := fun h => by
    obtain ⟨-, -, ho, -⟩ := execBad_inv (n := Kernel.mem _) h
    exact ho
  unfold execSeg at h
  split at h
  · exact .inr (hbad h)
  split_ifs at h
  · exact .inl (Prod.mk.inj (Except.ok.inj h)).1.symm
  · exact .inr (hbad h)
  · exact .inr (hbad h)
  · exact .inr (hbad h)
  rw [bind_ok] at h
  obtain ⟨⟨sz1, pt1, m1⟩, -, h⟩ := h
  dsimp only at h
  split_ifs at h
  · exact .inr (hbad h)
  rw [bind_ok] at h
  obtain ⟨⟨ok, m2⟩, -, h⟩ := h
  cases ok with
  | false => exact .inr (hbad h)
  | true => exact .inl (Prod.mk.inj (Except.ok.inj h)).1.symm

/-- **What the allocation of a thread does to the pages**, when it fails and when it does not. -/
theorem threadCreate_total {fn arg retfn : ℕ} {r : ℤ} (hm : k.mem.OkAt e) (hf : k.Fine e) (hL : k.Led) (hp : (k.proc p).state ≠ .unused)
    (hcreate : allocFails k p = true → CleanExit k p) (h : threadCreate k p fn arg retfn = .ok (r, k')) : k'.total x ≤ k.total x := by
  have hres := threadCreate_inv hp h
  cases hfail : allocFails k p with
  | true =>
    have hclean : ∃ k1, threadCreate k p fn arg retfn = .ok (-1, k1) ∧ Clean k k1 :=
      (clean_iff hm (fun i hi => ((hf i).bare hi).1) hp hfail).mpr (hcreate hfail)
    obtain ⟨k1, h1, hclean⟩ := hclean
    obtain ⟨-, rfl⟩ := Prod.mk.inj (Except.ok.inj (h.symm.trans h1))
    exact hclean.total_le hf hL hres.pipePages
  | false =>
    obtain ⟨np, h0, h1⟩ := threadCreate_makes hp hfail h
    exact hres.total_le hf hm hL hp h0 h1

/-- What the end of `exec` does to the pages. -/
theorem execEnd_total {pt : PageTable} {sz entry : ℕ} {argv : List (List UInt8)} (hm : k.mem.OkAt e) (hf : k.Fine e)
    (hst : (k.proc p).state ≠ .unused) (hfr : (k.proc p).frame = .exec pt sz) (hsafe : GivesUp pt sz argv k.mem ∨ SharesNothing k p)
    (h : execEnd k p pt sz entry argv = .ok (o, k')) : k'.total x ≤ k.total x := by
  refine (execEnd_inv h).total_le hf hfr hst ?_
  rintro ⟨n, rfl⟩
  refine hsafe.resolve_left fun hgive => ?_
  rcases @execEnd_cases _ _ _ _ _ entry argv hm hf hfr with ⟨-, k1, h1, -⟩ | ⟨hno, -⟩
  · have hn : some (n : ℤ) = some (-1) := (Prod.mk.inj (Except.ok.inj (h.symm.trans h1))).1
    have := Option.some.inj hn
    omega
  · exact hno hgive

/-- **A step gives no page another owner.** -/
theorem step_total (hs : Step k a o k') (hok : KeepsOwners k a) (hf : k.Fine e) (hm : k.mem.OkAt e) (hI : FileInv k) (hL : k.Led)
    (hone : ∀ x, k.total x ≤ 1) (x : Pa) : k'.total x ≤ k.total x := by
  have ha : ∀ as, (k.setAnswers as).Fine e := fun _ => hf
  have hma : ∀ as, (k.setAnswers as).mem.OkAt e := fun _ => hm
  have hLa : ∀ as, (k.setAnswers as).Led := fun _ => hL
  have hIa : ∀ as, FileInv (k.setAnswers as) := fun as => hI.same (.setAnswers k as)
  have honea : ∀ as x, (k.setAnswers as).total x ≤ 1 := fun as x => (setAnswers_total k as x).trans (hone x)
  have ht : ∀ p as, (k.tidy p as).Fine e := fun p as => (tidy_quiet k p as).fine hf
  have hmt : ∀ p as, (k.tidy p as).mem.OkAt e := fun _ _ => hm
  have hLt : ∀ p as, (k.tidy p as).Led := fun p as => (tidy_quiet k p as).led hL
  have hlive : ∀ {p}, (k.proc p).state = .running → (k.proc p).state ≠ .unused := fun hp => by rw [hp]; decide
  have htl : ∀ p as, (k.proc p).state = .running → ((k.tidy p as).proc p).state ≠ .unused := fun p as hp hu =>
    hlive hp (((tidy_quiet k p as) p).unused.mp hu)
  have hat : ∀ {as}, k'.total x ≤ (k.setAnswers as).total x → k'.total x ≤ k.total x := fun h => h.trans (setAnswers_total k _ x)
  have htt : ∀ {p as}, k'.total x ≤ (k.tidy p as).total x → k'.total x ≤ k.total x := fun h => h.trans (tidy_total k _ _ x)
  cases step_inv hs with
  | scheduler hp =>
    exact Quiet.total_same (Quiet.setProc (.setState (by rw [hp]; decide) (by rw [hp]; decide) (by rw [hp]; decide) (by decide))) rfl rfl
  | yield hp =>
    exact Quiet.total_same (Quiet.setProc (.setState (by rw [hp]; decide) (by rw [hp]; decide) (by rw [hp]; decide) (by decide))) rfl rfl
  | @killed p c as _ _ _ _ _ hc => exact hat (closeFiles_total hc (hIa as) rfl (by simp))
  | @fault p as _ _ _ _ hc =>
    have hsame : FileInv ((k.setAnswers as).setProc p { k.proc p with killed := true }) :=
      (hIa as).same (FileSame.setProc (k := k.setAnswers as) (k.setAnswers as).mem ⟨rfl, rfl, FileSame.idle_of rfl rfl⟩)
    have hfree : ((k.setAnswers as).setProc p { k.proc p with killed := true }).mem.free = k.mem.free := rfl
    exact (closeFiles_total hc hsame rfl (by simp)).trans
      ((fault_quiet k p as).total_le (by rw [hfree, Kernel.setProc_fs, Kernel.setAnswers_fs]))
  | @fork p as _ _ hp _ _ hr => exact hat (hr.total_le (ha as) (hma as) (hLa as))
  | @exec p _ as _ _ hp _ _ hr => exact hat (hr.total_le (hma as) (hlive hp))
  | @sbrk p _ as _ _ _ hp _ _ hr => exact hat (hr.total_le (ha as) (hma as) (hLa as) (honea as) (hlive hp))
  | @threadCreate p fn arg retfn as r _ hp _ hk _ =>
    obtain ⟨r', h, -⟩ := returns_ok ((step_syscall hk).symm.trans hs.2)
    exact hat (threadCreate_total (hma as) (ha as) (hLa as) (hlive hp) (hok.create p fn arg retfn as rfl hk) h)
  | @threadJoin p _ as _ _ hp hfr _ hr => exact hat (hr.total_le (ha as) (hLa as) (.of_user hp hfr))
  | @threadExit p as _ _ _ _ hthr hc => exact hat (closeFiles_total hc (hIa as) rfl fun _ => hthr)
  | @leaderExit p as _ _ _ _ _ hc => exact hat (closeFiles_total hc (hIa as) rfl (by simp))
  | @exit p _ as _ _ _ _ _ hc => exact hat (closeFiles_total hc (hIa as) rfl (by simp))
  | @wait p addr as _ _ hp hfr hk hr =>
    exact hat (hr.total_le (ha as) (.of_user hp hfr) fun q m hz hc => hok.wait (p, q) (waitReaps_syscall hk hz hc))
  | @kill p pid as _ _ _ => exact hat (Quiet.total_same (kill_quiet _ _) (kill_mem _ _) (FileSame.kill _ _).fs)
  | @file p _ as _ _ _ _ _ _ hr => exact hat (hr.total_le (hIa as))
  | @resumeWait p inp as addr _ _ hp hfr hr =>
    refine htt (hr.total_le (ht p as) (tidy_busy hp (by rw [hfr]; rfl)) fun q m hz hc => ?_)
    rw [(tidy_quiet k p as).hasThread, (tidy_quiet k p as).sharesNothing]
    exact hok.wait (p, q) (waitReaps_resume hfr hp hz hc)
  | @resumeJoin p _ as _ _ _ _ hp hfr hr => exact htt (hr.total_le (ht p as) (hLt p as) (tidy_busy hp (by rw [hfr]; rfl)))
  | @resumeExit p _ as _ hp hfr =>
    have hst := htl p as hp
    exact htt (Quiet.total_same (exitEnd_quiet hst) (exitEnd_mem _ _ _)
      (FileSame.exitEnd (by simp [Kernel.tidy, hfr, Frame.dying])).fs)
  | @resumeThreadExit p inp as _ hp hfr hr =>
    refine htt (threadExitEnd_total hr (ht p as) (hLt p as) (htl p as hp) (by rw [tidy_proc]; exact hfr) ?_)
    rw [(tidy_quiet k p as).sharedAt, tidy_proc]
    exact hok.exit p inp as rfl hfr
  | @resumeExec p inp as pt sz _ _ hp hfr hr =>
    have hft : ((k.tidy p as).proc p).frame = .exec pt sz := by simpa [Kernel.tidy] using hfr
    cases inp with
    | seg img ph =>
      have h : execSeg (k.tidy p as) p pt sz img ph = .ok (o, k') := (resume_seg hfr).symm.trans hs.2
      refine htt (hr.total_le (ht p as) hft (htl p as hp) ?_)
      rintro ⟨n, rfl⟩
      rcases execSeg_returns h with hn | hn
      · cases hn
      · have := Option.some.inj hn
        omega
    | done entry argv =>
      have h : execEnd (k.tidy p as) p pt sz entry argv = .ok (o, k') := (resume_done hfr).symm.trans hs.2
      have hmem : (k.tidy p as).mem = (k.setAnswers as).mem := rfl
      refine htt (execEnd_total (hmt p as) (ht p as) (htl p as hp) hft ?_ h)
      rw [hmem, (tidy_quiet k p as).sharesNothing]
      exact hok.exec p entry argv as pt sz rfl hfr

/-! ## Runs -/

/-- **What is in use is not free**: no page that a used slot maps as a user page is on the free list, and no page is on it twice. -/
structure Kernel.Safe (k : Kernel) : Prop where
  mapped : ∀ q pt v en, (k.proc q).state ≠ .unused → (k.proc q).pagetable = some pt → pt.pte v = some en →
    v < tfPage ∨ en.perm.u = true → en.pa ∉ k.mem.freelist
  once : k.mem.freelist.Nodup

/-- A page that a slot counts as its own is owned. -/
theorem Kernel.owns_pos {en : Pte} (hv : v < tfPage) (h : (k.proc q).user (k.leaderPte (k.proc q)) v = some en) : 1 ≤ k.owns q en.pa := by
  have hle := leaf_le_leaves (f := (k.proc q).user (k.leaderPte (k.proc q))) (Nat.zero_le v) (by omega : v < 0 + tfPage) en.pa
  have h1 : leaf (some en) en.pa = 1 := by
    rw [leaf_some]
    exact if_pos rfl
  rw [h, h1] at hle
  unfold owns Proc.rest
  omega

/-- **One owner for every page** is enough. -/
theorem Kernel.safe_of_total (hone : ∀ x, k.total x ≤ 1) (hf : k.Fine e) (hL : k.Led) : k.Safe where
  mapped := by
    intro q pt v en hq hpt hen hu hmem
    have hv : v < tfPage := by
      by_contra hv
      have hhigh := ((hf q).table pt hpt).shaped.high v en (by omega) hen
      rcases hu with h | h
      · exact hv h
      · exact absurd (h.symm.trans hhigh) (by decide)
    have hqen : pteOf (k.proc q).pagetable v = some en := by rw [hpt, pteOf_some, hen]
    have hfree : 1 ≤ k.mem.free en.pa := List.count_pos_iff.mpr hmem
    -- the owner is the slot itself or its leader
    have howner : ∃ f, 1 ≤ k.owns f en.pa := by
      by_cases hsh : k.SharedAt q v
      · obtain ⟨ht, f, en0, en', hfather, hen0, hfv, hpa⟩ := hsh
        obtain rfl := Option.some.inj (hqen.symm.trans hen0)
        obtain ⟨f', hf', -, hfthr⟩ := hL q ht
        obtain rfl := Option.some.inj (hfather.symm.trans hf')
        refine ⟨f, ?_⟩
        rw [hpa]
        exact Kernel.owns_pos hv (by rw [Proc.user_process hfthr, hfv])
      · exact ⟨q, Kernel.owns_pos hv ((Kernel.user_of_not_shared hsh).trans hqen)⟩
    obtain ⟨f, hown⟩ := howner
    have h1 := k.owns_le_total f en.pa
    have h2 := hone en.pa
    omega
  once := List.nodup_iff_count_le_one.mpr fun x => by
    have h1 := k.owns_le_total 0 x
    have h2 := hone x
    have h3 : k.mem.freelist.count x = k.mem.free x := rfl
    omega

/-- After boot the first process owns what is not free. -/
theorem boot_total (h : Boot k) (x : Pa) : k.total x ≤ 1 := by
  obtain ⟨m0, root, tf, pt0, pt, m1, m2, m, hfresh, h1, h2, h3, hmem, hfs, -, hproc⟩ := boot_inv h
  have h0 : m0.OkAt m0.kend := ⟨rfl, hfresh.2⟩
  obtain ⟨ho, -, hp⟩ := procPagetable_some (kalloc_okAt h0 h1) h2
  have e0 : m0.free x ≤ 1 := List.nodup_iff_count_le_one.mp hfresh.1 x
  have e1 := kalloc_some h1 x
  have e2 := hp x
  have e3 := (uvmfirst_held ho.shaped h3).2 x
  rw [ho.held] at e3
  have hself : k.proc k.initproc = Proc.first tf pt root := by rw [hproc, Function.update_self]
  have howns : ∑ q, k.owns q x = k.owns k.initproc x := by
    refine Finset.sum_eq_single k.initproc (fun q _ hq => ?_) fun hn => absurd (Finset.mem_univ _) hn
    have hz : k.proc q = Proc.zero := by rw [hproc, Function.update_of_ne hq]
    exact Kernel.owns_unused (by rw [hz]; rfl) (by rw [hz]; rfl) (by rw [hz]; rfl) x
  have hpt : (k.proc k.initproc).pagetable = some pt := by rw [hself]; rfl
  have hfirst := Kernel.owns_le_held hpt x
  have htf : (k.proc k.initproc).trapframe = some tf := by rw [hself]; rfl
  have hb : (k.proc k.initproc).building x = 0 := Proc.building_of_not_exec (by rw [hself]; rfl) x
  have hpipes : k.fs.pipePages x = 0 := by
    rw [hfs]
    rfl
  rw [htf, onePage, hb] at hfirst
  unfold Kernel.total
  rw [howns, hpipes, hmem]
  omega

/-- The invariants of a run in which the calls keep to what their slot owns. -/
theorem owners_run {tr : Trace} (h0 : Boot k0) (h : Run Step KeepsOwners k0 tr k) :
    (∃ e, k.mem.OkAt e ∧ k.Fine e) ∧ FileInv k ∧ GroupInv k.tab ∧ ∀ x, k.total x ≤ 1 := by
  refine h.inv (I := fun k => (∃ e, k.mem.OkAt e ∧ k.Fine e) ∧ FileInv k ∧ GroupInv k.tab ∧ ∀ x, k.total x ≤ 1)
    ⟨boot_fine h0, boot_fileInv h0, boot_groupInv h0, boot_total h0⟩ ?_
  rintro k a o k' ⟨⟨e, hm, hf⟩, hI, hG, hone⟩ hok hs
  refine ⟨⟨e, step_okAt hs hm, step_fine hs hm hf⟩, step_fileInv hI hs, groupInv_step hG hok.leaders hs, fun x => ?_⟩
  exact (step_total hs hok hf hm hI (hG.led hf) hone x).trans (hone x)

/-- **Pages in use are not free**, in every state of every run whose calls keep to what their slot owns. -/
theorem pages_in_use_not_free {tr : Trace} (h0 : Boot k0) (h : Run Step KeepsOwners k0 tr k) : k.Safe := by
  obtain ⟨⟨e, -, hf⟩, -, hG, hone⟩ := owners_run h0 h
  exact Kernel.safe_of_total hone hf (hG.led hf)

/-- A test for the guard: nobody is collected, no `thread_create` runs out of memory, and no call goes on while there is a thread. -/
def keepsTest (k : Kernel) (a : Action) : Bool :=
  (a.waitReaps k).isNone &&
    match a with
    | .syscall p (.threadCreate _ _ _) as => !allocFails (k.setAnswers as) p
    | .resume _ _ _ => decide (∀ q, (k.proc q).isThread = false)
    | _ => true

theorem keepsOwners_of_test (h : keepsTest k a = true) : KeepsOwners k a := by
  unfold keepsTest at h
  rw [Bool.and_eq_true] at h
  obtain ⟨hw, h⟩ := h
  exact {
    wait := by
      intro y hy
      rw [Option.isNone_iff_eq_none.mp hw] at hy
      cases hy
    create := by
      rintro p fn arg retfn as rfl - hfail
      dsimp only at h
      rw [hfail] at h
      cases h
    exec := by
      rintro p entry argv as pt sz rfl -
      have hno : ∀ q, (k.proc q).isThread = false := of_decide_eq_true h
      exact .inr fun q v _ _ => Kernel.not_shared (hno q) v
    exit := by
      rintro p inp as rfl - - -
      have hno : ∀ q, (k.proc q).isThread = false := of_decide_eq_true h
      exact Kernel.not_shared (hno p) _ }

set_option maxRecDepth 4000 in
/-- The first process makes a thread, which runs. -/
theorem pages_in_use_not_free_run : ∃ k0 tr k, Boot k0 ∧ Run Step KeepsOwners k0 tr k ∧
    ((k.proc 1).state = .running ∧ (k.proc 1).isThread = true) ∧ k.Safe := by
  obtain ⟨tr, k, hrun, hk⟩ := exists_run (fun k a => keepsTest k a = true) small runThread
    (fun _ k => (k.proc 1).state = .running ∧ (k.proc 1).isThread = true) (by decide +kernel)
  have hkeeps : Run Step KeepsOwners small tr k := hrun.mono fun _ _ => keepsOwners_of_test
  exact ⟨small, tr, k, small_boot, hkeeps, hk, pages_in_use_not_free small_boot hkeeps⟩

/-- After `wait` freed the exited leader, its thread still maps the pages of the program, which are on the free list. -/
theorem orphan_maps_free_page : ¬ ∀ (k0 : Kernel) (tr : Trace) (k : Kernel), Boot k0 → Run Step always k0 tr k → k.Safe := by
  intro hall
  obtain ⟨tr, k, hrun, hq, hfree⟩ := exists_run always small orphanThread
    (fun _ k => (k.proc 2).state ≠ .unused ∧
      (pteOf (k.proc 2).pagetable 0).any (fun en => en.perm.u && decide (en.pa ∈ k.mem.freelist)) = true) (by decide +kernel)
  obtain ⟨en, hen, hmem⟩ := (Option.any_eq_true _ _).mp hfree
  obtain ⟨hu, hmem⟩ : en.perm.u = true ∧ en.pa ∈ k.mem.freelist := by simpa using hmem
  obtain ⟨pt, hpt, hv⟩ := Option.bind_eq_some_iff.mp hen
  exact (hall small tr k small_boot hrun).mapped 2 pt 0 en hq hpt hv (.inr hu) hmem

end OsLabs.Xv6
