import OsLabs.Xv6.Machine

/-!
# OsLabs.Xv6.Group — thread groups

A thread knows its group by `father`, a pointer to the leader's slot.  `GroupInv` says that the pointer leads to a live
process that is not a thread.  Nothing but `wait` can break it: it frees an exited leader without looking for threads.

* `KeepsLeaders`: no `wait` frees a process that still has threads.
* `threads_keep_leader`: in every run that respects it, a thread's leader is the process that led the group when the thread was
  made, and only that group counts the thread as a member.
-/

namespace OsLabs.Xv6

open Lts

variable {T T' : Tab} {l : TLab} {k k' k0 : Kernel} {p q f : Slot} {o : Option ℤ} {a : Action}

/-- Every thread has a leader that is a live process. -/
def GroupInv (T : Tab) : Prop :=
  ∀ q, (T.ctl q).Live → (T.ctl q).isThread = true →
    ∃ f, (T.ctl q).father = some f ∧ (T.ctl f).Live ∧ (T.ctl f).isThread = false

/-- The local `leader` of a `thread_join` is the caller's leader. -/
def JoinLocal (T : Tab) : Prop :=
  ∀ p tid l, (T.ctl p).Live → (T.ctl p).frame = .join tid l → l = T.leader p

theorem TStep.joinReap_ctl (h : TStep T (.joinReap p q) T') :
    (T.ctl p).state = .running ∧ p ≠ q ∧ (T.ctl q).state = .zombie ∧ (T.ctl q).isThread = true ∧
    ((T.ctl q).father = T.leader p ∨ (T.ctl p).frame = .join (T.ctl q).tid (T.ctl q).father) ∧
    (T'.ctl q).state = .unused := by
  cases h with
  | joinReap hp hpq hq hqt hqf hl _ _ _ =>
    subst hqf
    refine ⟨hp, hpq, hq, hqt, hl, ?_⟩
    rw [Tab.set_of_ne _ _ (Ne.symm hpq), Tab.set_self]
    rfl

/-- What the leader of a live thread is after a step, when no `wait` frees it. -/
theorem TStep.leader_stays (h : TStep T l T') (hf : (T.ctl f).Live) (hft : (T.ctl f).isThread = false)
    (hw : ∀ p, l ≠ .waitReap p f) :
    (T'.ctl f).Live ∧ (T'.ctl f).isThread = false ∧ (T'.ctl f).pid = (T.ctl f).pid := by
  cases h.slot f with
  | stays _ hl' hpid hthr _ _ _ => exact ⟨hl', hthr.trans hft, hpid⟩
  | unused hu _ => exact absurd hu hf
  | born _ hu => exact absurd hu hf
  | freed hl _ _ =>
    rcases hl with rfl | rfl
    · -- `thread_join` frees threads only
      rw [h.joinReap_ctl.2.2.2.1] at hft
      cases hft
    · exact absurd rfl (hw _)

/-- The leader under which `thread_create` puts a thread is a live process. -/
theorem GroupInv.leader (hI : GroupInv T) (hp : (T.ctl p).Live) (hl : T.leader p = some f) :
    (T.ctl f).Live ∧ (T.ctl f).isThread = false := by
  unfold Tab.leader at hl
  split_ifs at hl with ht
  · obtain ⟨g, hg, hlive, hng⟩ := hI p hp ht
    rw [hg] at hl
    obtain rfl := Option.some.inj hl
    exact ⟨hlive, hng⟩
  · obtain rfl := Option.some.inj hl
    exact ⟨hp, by simpa using ht⟩

/-- **Step lemma.**  The groups survive every transition that frees no leader of a live thread. -/
theorem GroupInv.step (hI : GroupInv T) (h : TStep T l T')
    (hw : ∀ p f, l = .waitReap p f → ∀ q, (T.ctl q).Live → (T.ctl q).isThread = true → (T.ctl q).father ≠ some f) :
    GroupInv T' := by
  intro q hq hqt
  cases h.slot q with
  | stays hl _ _ hthr hfather _ _ =>
    obtain ⟨f, hf, hlive, hnt⟩ := hI q hl (hthr ▸ hqt)
    obtain ⟨h1, h2, -⟩ := h.leader_stays hlive hnt fun p hlab => hw p f hlab q hl (hthr ▸ hqt) hf
    exact ⟨f, hfather.trans hf, h1, h2⟩
  | unused _ hu => exact absurd hu hq
  | @born p th hlab hu =>
    subst hlab
    obtain ⟨hp, -, -, hother, hsome, hc⟩ := h.spawn_ctl
    have hth : th = true := by
      rw [hc] at hqt
      exact hqt
    subst hth
    obtain ⟨f, hf⟩ := Option.isSome_iff_exists.mp (hsome rfl)
    obtain ⟨hlive, hnt⟩ := hI.leader (.of_running hp) hf
    have hne : f ≠ q := by
      rintro rfl
      exact hlive hu
    refine ⟨f, by rw [hc]; simpa using hf, ?_, ?_⟩
    · rw [hother f hne]
      exact hlive
    · rw [hother f hne]
      exact hnt
  | freed _ _ hu => exact absurd hu hq

theorem Tab.leader_eq {T T' : Tab} (h1 : (T'.ctl p).isThread = (T.ctl p).isThread)
    (h2 : (T'.ctl p).father = (T.ctl p).father) : T'.leader p = T.leader p := by
  unfold Tab.leader
  rw [h1, h2]

/-- Who is inside `thread_join` after a transition was in that call before, or just entered it with its own leader. -/
theorem TStep.in_join {tid : ℤ} {x : Option Slot} (h : TStep T l T') (hq : (T'.ctl q).Live)
    (hj : (T'.ctl q).frame = .join tid x) : (T.ctl q).Live ∧ ((T.ctl q).frame = .join tid x ∨ x = T.leader q) := by
  cases h.ctl q with
  | same h _ => exact ⟨h ▸ hq, .inl (h ▸ hj)⟩
  | move _ hp _ _ _ _ hjoin => exact ⟨hp.live, .inl (hjoin tid x hj)⟩
  | killed _ h =>
    rw [h] at hq hj
    refine ⟨fun hu => hq ?_, .inl hj⟩
    simp [hu]
  | block _ hp _ _ hfr =>
    refine ⟨.of_running hp, ?_⟩
    rcases hfr with hfr | ⟨tid', y, i, hfr, -, -, -, -, -, -, hy⟩
    · exact absurd (hj.symm.trans hfr) (by simp)
    · obtain ⟨rfl, rfl⟩ := CFrame.join.inj (hj.symm.trans hfr)
      exact hy.symm
  | failed _ _ h _ => exact absurd h hq
  | spawned _ _ _ hfr => exact absurd (hj.symm.trans hfr) (by simp)
  | exits _ _ _ _ hfr _ => exact absurd (hj.symm.trans hfr) (by simp)
  | bystander _ _ hw =>
    refine ⟨fun hu => hq (hw.unused_iff.mpr (by rwa [Tab.reparent_state])), .inl ?_⟩
    rwa [hw.frame, Tab.reparent_frame] at hj
  | threadExits _ _ _ _ hfr _ => exact absurd (hj.symm.trans hfr) (by simp)
  | woken _ _ h =>
    rw [h] at hq hj
    split_ifs at hq hj with hs
    · exact ⟨by simp [Ctl.Live, hs.1], .inl hj⟩
    · exact ⟨hq, .inl hj⟩
  | reaps _ _ _ _ hfr => exact absurd (hj.symm.trans hfr) (by simp)
  | reaped _ _ h => exact absurd (by rw [h]; rfl) hq

/-- **Step lemma.**  While a process is inside `thread_join` its leader does not change. -/
theorem JoinLocal.step (hJ : JoinLocal T) (h : TStep T l T') : JoinLocal T' := by
  intro q tid x hq hj
  obtain ⟨hl, hj'⟩ := h.in_join hq hj
  have hx : x = T.leader q := hj'.elim (hJ q tid x hl) id
  rw [hx]
  cases h.slot q with
  | stays _ _ _ hthr hfather _ _ => exact (Tab.leader_eq hthr hfather).symm
  | unused hu _ => exact absurd hu hl
  | born _ hu => exact absurd hu hl
  | freed _ _ hu => exact absurd hu hq

/-! ## Runs -/

/-- No `wait` frees a process that still has threads. -/
def KeepsLeaders (k : Kernel) (a : Action) : Prop :=
  ∀ x ∈ a.waitReaps k, ∀ q, (k.proc q).state ≠ .unused → (k.proc q).isThread = true → (k.proc q).father ≠ some x.2

instance (k : Kernel) (a : Action) : Decidable (KeepsLeaders k a) :=
  decidableCollected (a.waitReaps k) fun x q => (k.proc q).state ≠ .unused → (k.proc q).isThread = true → (k.proc q).father ≠ some x.2

/-- `c` counts `q` as a member of its group: by the test of `growproc` and of a new `thread_join`, or by that of the
`thread_join` it is in. -/
def Counts (k : Kernel) (c q : Slot) : Prop :=
  (k.proc c).state ≠ .unused ∧
    ((∃ l, groupLeader k c = some l ∧ inGroup k q l = true) ∨
      ∃ tid l, (k.proc c).frame = .join tid l ∧ (k.proc q).isThread = true ∧ (k.proc q).father = l)

/-- In `k` the slot `q` holds the thread that event `e` made under the leader `f`, and `f` still is that leader. -/
structure LedBy (e : KEv) (q f : Slot) (k : Kernel) : Prop where
  alive : Alive q e.pre.nextpid k
  isThread : (k.proc q).isThread = true
  father : (k.proc q).father = some f
  leader : Alive f (e.pre.proc f).pid k
  process : (k.proc f).isThread = false
  /-- Whoever counts `q` as a member of its group has the leader `f`. -/
  counts : ∀ c, Counts k c q → groupLeader k c = some f

theorem KeepsLeaders.tab (h : KeepsLeaders k a) (hs : (TLab.waitReap p f).Shows k a o) :
    ∀ q, (k.tab.ctl q).Live → (k.tab.ctl q).isThread = true → (k.tab.ctl q).father ≠ some f :=
  h (p, f) (Option.mem_def.mpr hs.1)

theorem boot_groupInv (h : Boot k) : GroupInv k.tab := by
  obtain ⟨hi, -, ho⟩ := boot_tab h
  intro q _ ht
  have hq : (k.proc q).ctl.isThread = false := by
    by_cases hqi : q = k.initproc
    · rw [hqi, hi]
    · rw [ho q hqi]
  rw [Kernel.tab_ctl, hq] at ht
  cases ht

theorem boot_joinLocal (h : Boot k) : JoinLocal k.tab := by
  obtain ⟨hi, -, ho⟩ := boot_tab h
  intro q tid l _ hj
  have hq : (k.proc q).ctl.frame = .user := by
    by_cases hqi : q = k.initproc
    · rw [hqi, hi]
    · rw [ho q hqi]
  rw [Kernel.tab_ctl, hq] at hj
  cases hj

/-- The leader under which a step leaves a live thread is found in the state before. -/
theorem groupInv_step (hI : GroupInv k.tab) (hok : KeepsLeaders k a) (h : Step k a o k') : GroupInv k'.tab := by
  obtain ⟨l, ht, hs⟩ := step_tab h
  refine hI.step ht ?_
  rintro p f rfl
  exact hok.tab hs

theorem joinLocal_step (hJ : JoinLocal k.tab) (h : Step k a o k') : JoinLocal k'.tab := by
  obtain ⟨l, ht, -⟩ := step_tab h
  exact hJ.step ht

/-- Membership tests follow `father`. -/
theorem leader_of_counts {c : Slot} (hI : GroupInv k.tab) (hJ : JoinLocal k.tab) (ht : (k.proc q).isThread = true)
    (hc : Counts k c q) : groupLeader k c = (k.proc q).father := by
  obtain ⟨hlive, hc⟩ := hc
  rcases hc with ⟨l, hl, hin⟩ | ⟨tid, l, hfr, -, hf⟩
  · obtain ⟨-, hnt⟩ := hI.leader (p := c) hlive hl
    unfold inGroup at hin
    rcases Bool.or_eq_true _ _ ▸ hin with h | h
    · -- a leader is not a thread
      obtain rfl : q = l := by simpa using h
      exact absurd (ht.symm.trans hnt) (by decide)
    · obtain ⟨-, hf⟩ : (k.proc q).isThread = true ∧ (k.proc q).father = some l := by simpa using h
      rw [hl, hf]
  · have hj := hJ c tid l hlive (by simp [Proc.ctl, hfr, Frame.tag])
    rw [hf]
    exact hj.symm

/-- A thread that a step does not free stays under its leader, unless a `wait` frees that one. -/
theorem LedBy.step {e : KEv} (hk : LedBy e q f k) (h : TStep k.tab l k'.tab) (hw : ∀ p, l ≠ .waitReap p f)
    (hq : (k'.proc q).state ≠ .unused) (hI : GroupInv k'.tab) (hJ : JoinLocal k'.tab) : LedBy e q f k' := by
  cases h.slot q with
  | stays _ _ hpid hthr hfather _ _ =>
    obtain ⟨h1, h2, h3⟩ := h.leader_stays hk.leader.1 hk.process hw
    have ht : (k'.proc q).isThread = true := hthr.trans hk.isThread
    have hf : (k'.proc q).father = some f := hfather.trans hk.father
    exact {
      alive := ⟨hq, hpid.trans hk.alive.2⟩
      isThread := ht
      father := hf
      leader := ⟨h1, h3.trans hk.leader.2⟩
      process := h2
      counts := fun c hc => (leader_of_counts hI hJ ht hc).trans hf }
  | unused _ hu => exact absurd hu hq
  | born _ hu => exact absurd hu hk.alive.1
  | freed _ _ hu => exact absurd hu hq

/-- A new thread is under the leader of its maker. -/
theorem TStep.ledBy (h : TStep k.tab (.spawn p q true) k'.tab) (hs : (TLab.spawn p q true).Shows k a o)
    (hI : GroupInv k.tab) (hI' : GroupInv k'.tab) (hJ : JoinLocal k'.tab) :
    ∃ f, groupLeader k p = some f ∧ LedBy ⟨k, a, o, k'⟩ q f k' := by
  have hm := h.makes hs
  obtain ⟨hp, hu, -, hother, hsome, -⟩ := h.spawn_ctl
  obtain ⟨f, hlead⟩ := Option.isSome_iff_exists.mp (hsome rfl)
  obtain ⟨hlive, hnt⟩ := hI.leader (.of_running hp) hlead
  have hne : f ≠ q := by
    rintro rfl
    exact hlive hu
  have hf : (k'.proc q).father = some f := hm.father.trans hlead
  have hfc : (k'.proc f).ctl = (k.proc f).ctl := hother f hne
  exact ⟨f, hlead, {
    alive := ⟨fun hz => absurd (hm.state.symm.trans hz) (by decide), hm.pid⟩
    isThread := hm.isThread
    father := hf
    leader := ⟨fun hz => hlive ((congrArg Ctl.state hfc).symm.trans hz), congrArg Ctl.pid hfc⟩
    process := (congrArg Ctl.isThread hfc).trans hnt
    counts := fun c hc => (leader_of_counts hI' hJ hm.isThread hc).trans hf }⟩

/-- The invariants of the groups hold along every run that keeps the leaders. -/
theorem groups_inv {tr : Trace} (h0 : Boot k0) (h : Run Step KeepsLeaders k0 tr k) :
    GroupInv k.tab ∧ JoinLocal k.tab :=
  h.inv (I := fun k => GroupInv k.tab ∧ JoinLocal k.tab) ⟨boot_groupInv h0, boot_joinLocal h0⟩
    fun _ _ _ _ hI hok hst => ⟨groupInv_step hI.1 hok hst, joinLocal_step hI.2 hst⟩

/-- **Threads keep their leader.**  In every run in which no `wait` frees a process that still has threads, every thread was made by a
`thread_create` under the leader it has now, that leader has been the same live process ever since, and nobody outside its
group ever counted the thread as a member. -/
theorem threads_keep_leader {tr : Trace} (h0 : Boot k0) (h : Run Step KeepsLeaders k0 tr k) (q : Slot)
    (hq : (k.proc q).state ≠ .unused) (ht : (k.proc q).isThread = true) :
    ∃ e p f, Makes e p q true ∧ groupLeader e.pre p = some f ∧ Since tr e (LedBy e q f) ∧ LedBy e q f k := by
  suffices hs : ∃ e p f, Makes e p q true ∧ groupLeader e.pre p = some f ∧ Since tr e (LedBy e q f) by
    obtain ⟨e, p, f, hm, hl, hsince⟩ := hs
    exact ⟨e, p, f, hm, hl, hsince, hsince.last h⟩
  induction h with
  | nil =>
    obtain ⟨hi, -, ho⟩ := boot_tab h0
    have hqi : q = k0.initproc := by
      by_contra hne
      exact hq (congrArg Ctl.state (ho q hne))
    subst hqi
    exact absurd (ht.symm.trans (congrArg Ctl.isThread hi)) (by decide)
  | @snoc tr k k' a o hrun hok hst ih =>
    obtain ⟨hI, -⟩ := groups_inv h0 hrun
    obtain ⟨hI', hJ'⟩ := groups_inv h0 (hrun.snoc hok hst)
    obtain ⟨l, htab, hs⟩ := step_tab hst
    cases htab.slot q with
    | stays hl hl' hpid hthr hfather _ _ =>
      obtain ⟨e, p, f, hm, hlead, hsince⟩ := ih hl (hthr.symm.trans ht)
      have hk := hsince.last hrun
      -- no `wait` frees the leader in this step
      refine ⟨e, p, f, hm, hlead, hsince.snoc (hk.step htab ?_ hq hI' hJ')⟩
      rintro p' rfl
      exact hok.tab hs q hl hk.isThread hk.father
    | unused _ hu => exact absurd hu hq
    | @born p th hlab _ =>
      subst hlab
      obtain rfl : th = true := (htab.makes hs).isThread.symm.trans ht
      obtain ⟨f, hlead, hk'⟩ := htab.ledBy hs hI hI' hJ'
      exact ⟨_, p, f, htab.makes hs, hlead, .start hk'⟩
    | freed _ _ hu => exact absurd hu hq

set_option maxRecDepth 4000 in
/-- The first process makes a thread. -/
theorem threads_keep_leader_run : ∃ k0 tr k, Boot k0 ∧ Run Step KeepsLeaders k0 tr k ∧
    ((k.proc 1).state ≠ .unused ∧ (k.proc 1).isThread = true) ∧
    ∃ e p f, Makes e p 1 true ∧ groupLeader e.pre p = some f ∧ Since tr e (LedBy e 1 f) ∧ LedBy e 1 f k := by
  obtain ⟨tr, k, hrun, hk⟩ := exists_run KeepsLeaders small
    (startInit ++ [.syscall 0 (.threadCreate 0 0 0) (pages 50 20)])
    (fun _ k => (k.proc 1).state ≠ .unused ∧ (k.proc 1).isThread = true) (by decide +kernel)
  exact ⟨small, tr, k, small_boot, hrun, hk, threads_keep_leader small_boot hrun 1 hk.1 hk.2⟩

/-- After `wait` freed the exited leader, its thread has a leader that is an unused slot. -/
theorem wait_frees_leader_of_thread : ¬ ∀ (k0 : Kernel) (tr : Trace) (k : Kernel) (q : Slot), Boot k0 →
    Run Step always k0 tr k → (k.proc q).state ≠ .unused → (k.proc q).isThread = true →
    ∃ e p f, Makes e p q true ∧ groupLeader e.pre p = some f ∧ Since tr e (LedBy e q f) ∧ LedBy e q f k := by
  intro hall
  obtain ⟨tr, k, hrun, hq, ht, hf, h1⟩ := exists_run always small orphanThread
    (fun _ k => (k.proc 2).state ≠ .unused ∧ (k.proc 2).isThread = true ∧ (k.proc 2).father = some 1 ∧
      (k.proc 1).state = .unused) (by decide +kernel)
  obtain ⟨e, p, f, -, -, -, hk⟩ := hall small tr k 2 small_boot hrun hq ht
  obtain rfl : f = 1 := Option.some.inj (hk.father.symm.trans hf)
  exact hk.leader.1 h1

end OsLabs.Xv6
