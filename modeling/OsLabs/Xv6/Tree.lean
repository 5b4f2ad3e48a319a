import OsLabs.Xv6.Machine

/-!
# OsLabs.Xv6.Tree — the process tree

The `parent` of a process is a pointer to a slot.  `exit` hands the children of a dying process to init before its slot can be
reused; `thread_exit` does not.

* `KeepsParents`: no `thread_join` and no `wait` frees a slot that is still somebody's parent.
* `parents_are_makers`: in every run that respects it, the parent of a process is init or the process that made it, and a `wait`
  sees only children of its caller.
-/

namespace OsLabs.Xv6

open Lts

variable {T T' : Tab} {l : TLab} {k k' k0 : Kernel} {p q c : Slot} {o : Option ℤ} {a : Action}

/-! ## The first process -/

/-- The first process never dies and has no parent; an unused slot has none either. -/
structure InitInv (T : Tab) : Prop where
  live : (T.ctl T.initproc).Live
  process : (T.ctl T.initproc).isThread = false
  notZombie : (T.ctl T.initproc).state ≠ .zombie
  notExit : (T.ctl T.initproc).frame ≠ .exit
  notThreadExit : (T.ctl T.initproc).frame ≠ .threadExit
  parent : (T.ctl T.initproc).parent = none
  pid : (T.ctl T.initproc).pid = 1
  unused : ∀ i, (T.ctl i).state = .unused → (T.ctl i).parent = none

/-- What a transition leaves of the first process. -/
theorem InitInv.ctl (hI : InitInv T) (h : TStep T l T') :
    (T'.ctl T.initproc).Live ∧ (T'.ctl T.initproc).state ≠ .zombie ∧ (T'.ctl T.initproc).frame ≠ .exit ∧
    (T'.ctl T.initproc).frame ≠ .threadExit := by
  have hp := hI.process
  cases h.ctl T.initproc with
  | same h _ =>
    rw [h]
    exact ⟨hI.live, hI.notZombie, hI.notExit, hI.notThreadExit⟩
  | move _ _ hc _ hexit hthr _ =>
    refine ⟨by rcases hc with hc | hc <;> simp [Ctl.Live, hc], by rcases hc with hc | hc <;> simp [hc], fun hf => ?_,
      fun hf => ?_⟩
    · rcases hexit hf with h | h
      · exact hI.notExit h
      · exact h rfl
    · rcases hthr hf with h | h
      · exact hI.notThreadExit h
      · exact absurd (h.symm.trans hp) (by decide)
  | killed _ h =>
    rw [h]
    refine ⟨?_, ?_, hI.notExit, hI.notThreadExit⟩
    · simp only [Ctl.Live]
      split_ifs
      · decide
      · exact hI.live
    · dsimp only
      split_ifs
      · decide
      · exact hI.notZombie
  | block _ _ hc _ hfr =>
    refine ⟨by simp [Ctl.Live, hc], by simp [hc], ?_, ?_⟩ <;>
      rcases hfr with hfr | ⟨_, _, _, hfr, _⟩ <;> simp [hfr]
  | failed _ hu _ _ => exact absurd hu hI.live
  | spawned _ hu _ _ => exact absurd hu hI.live
  | exits _ _ hfr _ _ _ => exact absurd hfr hI.notExit
  | bystander _ _ hw =>
    refine ⟨fun hu => hI.live ?_, ?_, ?_, ?_⟩
    · rw [← Tab.reparent_state]
      exact hw.unused_iff.mp hu
    · rcases hw with h | ⟨-, h⟩
      · rw [h, Tab.reparent_state]
        exact hI.notZombie
      · rw [h]
        simp
    · rw [hw.frame, Tab.reparent_frame]
      exact hI.notExit
    · rw [hw.frame, Tab.reparent_frame]
      exact hI.notThreadExit
  | threadExits _ _ hfr _ _ _ => exact absurd hfr hI.notThreadExit
  | woken _ _ h =>
    rw [h]
    split_ifs
    · exact ⟨by simp [Ctl.Live], by simp, hI.notExit, hI.notThreadExit⟩
    · exact ⟨hI.live, hI.notZombie, hI.notExit, hI.notThreadExit⟩
  | reaps _ _ hc _ hfr => exact ⟨.of_running hc, by simp [hc], by simp [hfr], by simp [hfr]⟩
  | reaped _ hz _ => exact absurd hz hI.notZombie

/-- An unused slot has no parent after a transition either. -/
theorem InitInv.unused_parent (hI : InitInv T) (h : TStep T l T') (i : Slot) (hi : (T'.ctl i).state = .unused) :
    (T'.ctl i).parent = none := by
  cases h.ctl i with
  | same h _ =>
    rw [h] at hi ⊢
    exact hI.unused i hi
  | move _ _ hc _ _ _ _ => rcases hc with hc | hc <;> exact absurd (hc.symm.trans hi) (by decide)
  | killed _ h =>
    rw [h] at hi ⊢
    dsimp only at hi
    split_ifs at hi
    exact hI.unused i hi
  | block _ _ hc _ _ => exact absurd (hc.symm.trans hi) (by decide)
  | failed _ _ _ hpar => exact hpar
  | spawned _ _ hs _ => exact absurd (hs.symm.trans hi) (by decide)
  | exits _ _ _ hz _ _ => exact absurd (hz.symm.trans hi) (by decide)
  | @bystander p _ _ hw =>
    have hu : (T.ctl i).state = .unused := by
      rw [← Tab.reparent_state]
      exact hw.unused_iff.mp hi
    rw [hw.sameId.parent]
    simp [Tab.reparent, hI.unused i hu]
  | threadExits _ _ _ hz _ _ => exact absurd (hz.symm.trans hi) (by decide)
  | woken _ _ h =>
    rw [h] at hi ⊢
    split_ifs at hi ⊢ with hs
    exact hI.unused i hi
  | reaps _ _ hc _ _ => exact absurd (hc.symm.trans hi) (by decide)
  | reaped _ _ h =>
    rw [h]
    rfl

/-- **Step lemma.** -/
theorem InitInv.step (hI : InitInv T) (h : TStep T l T') : InitInv T' := by
  obtain ⟨h1, h2, h3, h4⟩ := hI.ctl h
  have hinit := h.initproc_eq
  have hid : (T'.ctl T.initproc).isThread = false ∧ (T'.ctl T.initproc).parent = none ∧
      (T'.ctl T.initproc).pid = 1 := by
    cases h.slot T.initproc with
    | stays _ _ hpid hthr _ _ hpar =>
      refine ⟨hthr.trans hI.process, ?_, hpid.trans hI.pid⟩
      rcases hpar with hpar | ⟨p, -, hp, -⟩
      · exact hpar.trans hI.parent
      · exact absurd (hI.parent.symm.trans hp) (by simp)
    | unused hu _ => exact absurd hu hI.live
    | born _ hu => exact absurd hu hI.live
    | freed _ hz _ => exact absurd hz hI.notZombie
  obtain ⟨h5, h6, h7⟩ := hid
  rw [← hinit] at h1 h2 h3 h4 h5 h6 h7
  exact ⟨h1, h5, h2, h3, h4, h6, h7, hI.unused_parent h⟩

theorem boot_initInv (h : Boot k) : InitInv k.tab := by
  obtain ⟨hi, -, ho⟩ := boot_tab h
  have hi' : k.tab.ctl k.tab.initproc = _ := hi
  refine ⟨?_, ?_, ?_, ?_, ?_, ?_, ?_, fun i hu => ?_⟩
  · rw [hi']
    simp [Ctl.Live]
  · rw [hi']
  · rw [hi']
    simp
  · rw [hi']
    simp
  · rw [hi']
    simp
  · rw [hi']
  · rw [hi']
  · by_cases hii : i = k.initproc
    · rw [hii, Kernel.tab_ctl, hi]
    · rw [Kernel.tab_ctl, ho i hii]

theorem run_initInv {ok : Kernel → Action → Prop} {tr : Trace} (h0 : Boot k0) (h : Run Step ok k0 tr k) : InitInv k.tab :=
  h.inv (I := fun k => InitInv k.tab) (boot_initInv h0) fun _ _ _ _ hI _ hst => by
    obtain ⟨l, ht, -⟩ := step_tab hst
    exact hI.step ht

/-! ## Runs -/

/-- No `thread_join` and no `wait` frees a slot that is still the parent of somebody. -/
def KeepsParents (k : Kernel) (a : Action) : Prop :=
  (∀ x ∈ a.joinReaps k, ∀ c, (k.proc c).state ≠ .unused → (k.proc c).parent ≠ some x.2) ∧
    ∀ x ∈ a.waitReaps k, ∀ c, (k.proc c).state ≠ .unused → (k.proc c).parent ≠ some x.2

instance (k : Kernel) (a : Action) : Decidable (KeepsParents k a) :=
  have := decidableCollected (a.joinReaps k) fun x c => (k.proc c).state ≠ .unused → (k.proc c).parent ≠ some x.2
  have := decidableCollected (a.waitReaps k) fun x c => (k.proc c).state ≠ .unused → (k.proc c).parent ≠ some x.2
  inferInstanceAs (Decidable (_ ∧ _))

/-- In `k` the slot `c` holds what event `e` made for `p`, and its parent is init or still that `p`. -/
structure ChildOf (e : KEv) (p c : Slot) (k : Kernel) : Prop where
  alive : Alive c e.pre.nextpid k
  parent : (k.proc c).parent = some k.initproc ∨ (k.proc c).parent = some p ∧ Alive p (e.pre.proc p).pid k

/-- A child that a step does not free keeps a proper parent. -/
theorem ChildOf.step {e : KEv} (hk : ChildOf e p c k) (hok : KeepsParents k a) (h : TStep k.tab l k'.tab)
    (hs : l.Shows k a o) (hc : (k'.proc c).state ≠ .unused) : ChildOf e p c k' := by
  have hinit : k'.initproc = k.initproc := h.initproc_eq
  cases h.slot c with
  | stays hl _ hpid _ _ _ hpar =>
    refine ⟨⟨hc, hpid.trans hk.alive.2⟩, ?_⟩
    rcases hpar with hpar | ⟨r, -, -, hpar⟩
    · -- the parent pointer is the old one
      have hpar' : (k'.proc c).parent = (k.proc c).parent := hpar
      rw [hpar', hinit]
      refine hk.parent.imp_right fun ⟨hp, ha⟩ => ⟨hp, ?_⟩
      cases h.slot p with
      | stays _ hl' hpid' _ _ _ _ => exact ⟨hl', hpid'.trans ha.2⟩
      | unused hu _ => exact absurd hu ha.1
      | born _ hu => exact absurd hu ha.1
      | freed hlab _ _ =>
        rcases hlab with rfl | rfl
        · exact absurd hp (hok.1 _ hs.2.1 c hl)
        · exact absurd hp (hok.2 _ hs.1 c hl)
    · exact .inl (hinit ▸ hpar)
  | unused _ hu => exact absurd hu hc
  | born _ hu => exact absurd hu hk.alive.1
  | freed _ _ hu => exact absurd hu hc

/-- Every process but the first has been a child of its maker, or of init, since it was made. -/
theorem exists_childOf {tr : Trace} (h0 : Boot k0) (h : Run Step KeepsParents k0 tr k) (c : Slot)
    (hc : (k.proc c).state ≠ .unused) (hi : c ≠ k.initproc) :
    ∃ e p, ∃ th, Makes e p c th ∧ Since tr e (ChildOf e p c) := by
  induction h with
  | nil => exact absurd (congrArg Ctl.state ((boot_tab h0).2.2 c hi)) hc
  | @snoc tr k k' a o hrun hok hst ih =>
    obtain ⟨l, ht, hs⟩ := step_tab hst
    have hinit : k'.initproc = k.initproc := ht.initproc_eq
    cases ht.slot c with
    | stays hl _ _ _ _ _ _ =>
      obtain ⟨e, p, th, hm, hsince⟩ := ih hl (hinit ▸ hi)
      exact ⟨e, p, th, hm, hsince.snoc ((hsince.last hrun).step hok ht hs hc)⟩
    | unused _ hu => exact absurd hu hc
    | @born p th hlab hu =>
      subst hlab
      have hm := ht.makes hs
      obtain ⟨hp, -, -, hother, -, -⟩ := ht.spawn_ctl
      have hne : p ≠ c := by
        rintro rfl
        exact absurd (hp.symm.trans hu) (by decide)
      have hpc : (k'.proc p).ctl = (k.proc p).ctl := hother p hne
      refine ⟨_, p, th, hm, .start ⟨⟨hc, hm.pid⟩, .inr ⟨hm.parent, ?_, congrArg Ctl.pid hpc⟩⟩⟩
      intro hz
      exact absurd (hp.symm.trans ((congrArg Ctl.state hpc).symm.trans hz)) (by decide)
    | freed _ _ hu => exact absurd hu hc

/-- **The process tree.**  In every run in which no `thread_join` and no `wait` frees a slot that is still somebody's parent: the parent of
every process but the first is init, or the process that made it, in its slot with its pid ever since; and whenever a `wait`
runs, every slot that names the caller as its parent was made by that caller, unless the caller is init itself. -/
theorem parents_are_makers {tr : Trace} (h0 : Boot k0) (h : Run Step KeepsParents k0 tr k) :
    (∀ c, (k.proc c).state ≠ .unused → c ≠ k.initproc →
      ∃ e p, ∃ th, Makes e p c th ∧ Since tr e (ChildOf e p c) ∧ ChildOf e p c k) ∧
    Alive k.initproc 1 k ∧
    ∀ w ∈ tr, ∀ r addr, w.act.waitCall w.pre = some (r, addr) → ∀ c, (w.pre.proc c).parent = some r →
      r = w.pre.initproc ∨ ∃ e ∈ tr, ∃ th, Makes e r c th ∧ Alive c e.pre.nextpid w.pre ∧
        Alive r (e.pre.proc r).pid w.pre := by
  refine ⟨fun c hc hi => ?_, ?_, fun w hw r addr _ c hpar => ?_⟩
  · obtain ⟨e, p, th, hm, hsince⟩ := exists_childOf h0 h c hc hi
    exact ⟨e, p, th, hm, hsince, hsince.last h⟩
  · have hI := run_initInv h0 h
    exact ⟨hI.live, hI.pid⟩
  · -- the state in which the `wait` runs is the end of a shorter run
    obtain ⟨u, v, rfl⟩ := List.append_of_mem hw
    obtain ⟨hr1, -, -, -⟩ := h.split
    have hI := run_initInv h0 hr1
    have hc : (w.pre.proc c).state ≠ .unused := fun hu =>
      absurd ((hI.unused c hu).symm.trans hpar) (by simp)
    have hi : c ≠ w.pre.initproc := by
      rintro rfl
      exact absurd (hI.parent.symm.trans hpar) (by simp)
    obtain ⟨e, p, th, hm, hsince⟩ := exists_childOf h0 hr1 c hc hi
    have hk := hsince.last hr1
    rcases hk.parent with hp | ⟨hp, ha⟩
    · exact .inl (Option.some.inj (hpar.symm.trans hp))
    · obtain rfl : r = p := Option.some.inj (hpar.symm.trans hp)
      exact .inr ⟨e, List.mem_append_left _ hsince.mem, th, hm, hk.alive, ha⟩

set_option maxRecDepth 4000 in
/-- The first process forks a child, which exits, and waits for it. -/
theorem parents_are_makers_run : ∃ k0 tr k, Boot k0 ∧ Run Step KeepsParents k0 tr k ∧
    (k.proc 1).state ≠ .unused ∧ (∀ c, (k.proc c).state ≠ .unused → c ≠ k.initproc →
      ∃ e p, ∃ th, Makes e p c th ∧ Since tr e (ChildOf e p c) ∧ ChildOf e p c k) ∧
    Alive k.initproc 1 k ∧
    ∀ w ∈ tr, ∀ r addr, w.act.waitCall w.pre = some (r, addr) → ∀ c, (w.pre.proc c).parent = some r →
      r = w.pre.initproc ∨ ∃ e ∈ tr, ∃ th, Makes e r c th ∧ Alive c e.pre.nextpid w.pre ∧
        Alive r (e.pre.proc r).pid w.pre := by
  obtain ⟨tr, k, hrun, hk⟩ := exists_run KeepsParents small
    (startInit ++ [.syscall 0 .fork (pages 50 20), .scheduler 1, .syscall 1 .fork (pages 70 20), .scheduler 2,
      .syscall 2 (.exit 0) [], .resume 2 (.done 0 []) [], .syscall 1 (.wait 0) []])
    (fun _ k => (k.proc 1).state ≠ .unused) (by decide +kernel)
  exact ⟨small, tr, k, small_boot, hrun, hk, parents_are_makers small_boot hrun⟩

/-- A thread makes a second thread and dies through `thread_exit`; when it is joined the second one has a parent that is an
unused slot. -/
theorem join_frees_parent : ¬ ∀ (k0 : Kernel) (tr : Trace) (k : Kernel), Boot k0 → Run Step always k0 tr k →
    ∀ c, (k.proc c).state ≠ .unused → c ≠ k.initproc →
      ∃ e p, ∃ th, Makes e p c th ∧ Since tr e (ChildOf e p c) ∧ ChildOf e p c k := by
  intro hall
  obtain ⟨tr, k, hrun, hc, hi, hpar, hu⟩ := exists_run always small
    (startInit ++ [.syscall 0 (.threadCreate 0 0 0) (pages 50 15), .scheduler 1,
      .syscall 1 (.threadCreate 0 0 0) (pages 65 15), .syscall 1 .threadExit [], .resume 1 (.done 0 []) [],
      .syscall 0 (.threadJoin 2) []])
    (fun _ k => (k.proc 2).state ≠ .unused ∧ k.initproc = 0 ∧ (k.proc 2).parent = some 1 ∧
      (k.proc 1).state = .unused) (by decide +kernel)
  obtain ⟨e, p, th, -, -, hk⟩ := hall small tr k small_boot hrun 2 hc (by rw [hi]; decide)
  rcases hk.parent with hp | ⟨hp, ha⟩
  · rw [hpar, hi] at hp
    exact absurd hp (by decide)
  · obtain rfl : p = 1 := Option.some.inj (hp.symm.trans hpar)
    exact ha.1 hu

end OsLabs.Xv6
