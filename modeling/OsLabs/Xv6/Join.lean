import OsLabs.Xv6.Group

/-!
# OsLabs.Xv6.Join — sleeping and returning in thread_join

* `joiner_target_alive`: whoever sleeps in `thread_join` sleeps on the thread it asked for, and that thread is not dead yet, as
  long as no thread on which someone sleeps dies through `exit` (`ExitWakes`).
* `join_exactly_once`: a thread is joined at most once, by its own group, after it became a zombie, and nothing but that join
  frees its slot, as long as `wait` takes no thread and no leader of threads and pids do not run out (`JoinOwns`).
-/

namespace OsLabs.Xv6

open Lts

variable {T T' : Tab} {l : TLab} {k k' k0 : Kernel} {p q f : Slot} {o : Option ℤ} {a : Action}

/-! ## No lost wakeup -/

/-- A sleeper in `thread_join` sleeps on the thread it asked for, and that thread is not dead. -/
def SleepInv (T : Tab) : Prop :=
  ∀ p tid x, (T.ctl p).state = .sleeping → (T.ctl p).frame = .join tid x →
    ∃ q, (T.ctl p).chan = some q ∧ (T.ctl q).Live ∧ (T.ctl q).state ≠ .zombie ∧ (T.ctl q).isThread = true ∧
      (T.ctl q).father = x ∧ (T.ctl q).tid = tid

/-- Who is asleep after a transition was asleep before it, in the same call on the same channel, or just went to sleep. -/
theorem TStep.asleep (h : TStep T l T') (hp : (T'.ctl p).state = .sleeping) :
    (l = .block p ∧ ((T'.ctl p).frame = .wait ∨ ∃ tid x q, (T'.ctl p).frame = .join tid x ∧ (T'.ctl p).chan = some q ∧
      (T.ctl q).Live ∧ (T.ctl q).state ≠ .zombie ∧ (T.ctl q).isThread = true ∧ (T.ctl q).father = x ∧
      (T.ctl q).tid = tid)) ∨
    ((T.ctl p).state = .sleeping ∧ (T'.ctl p).frame = (T.ctl p).frame ∧
      (T'.ctl p).chan = (T.ctl p).chan ∧ ∀ r, l = .threadExit r → (T.ctl p).chan ≠ some r) := by
  cases h.ctl p with
  | same h hl => exact .inr ⟨h ▸ hp, by rw [h], by rw [h], fun r hr => absurd hr (hl r).2⟩
  | move _ _ hc _ _ _ _ => rcases hc with hc | hc <;> exact absurd (hc.symm.trans hp) (by decide)
  | killed _ h =>
    rw [h] at hp
    dsimp only at hp
    split_ifs at hp with hs
    exact absurd hp hs
  | block hl _ _ _ hfr =>
    refine .inl ⟨hl, hfr.imp_right ?_⟩
    rintro ⟨tid, x, q, h1, h2, h3, h4, h5, h6, h7, -⟩
    exact ⟨tid, x, q, h1, h2, h3, h4, h5, h6, h7⟩
  | failed _ _ h _ => exact absurd (h.symm.trans hp) (by decide)
  | spawned _ _ h _ => exact absurd (h.symm.trans hp) (by decide)
  | exits _ _ _ hz _ _ => exact absurd (hz.symm.trans hp) (by decide)
  | @bystander i hl _ hw =>
    subst hl
    rcases hw with h | ⟨-, h⟩
    · rw [h] at hp ⊢
      refine .inr ⟨by rwa [Tab.reparent_state] at hp, Tab.reparent_frame _ _ _, ?_, by simp⟩
      simp only [Tab.reparent]
      split_ifs <;> rfl
    · rw [h] at hp
      cases hp
  | threadExits _ _ _ hz _ _ => exact absurd (hz.symm.trans hp) (by decide)
  | @woken i hl _ hd =>
    subst hl
    rw [hd] at hp ⊢
    split_ifs at hp ⊢ with hs
    refine .inr ⟨hp, rfl, rfl, ?_⟩
    -- a sleeper on `i` would be awake now
    rintro r hr hcr
    obtain rfl : i = r := by simpa using hr
    exact hs ⟨hp, hcr⟩
  | reaps _ _ hc _ _ => exact absurd (hc.symm.trans hp) (by decide)
  | reaped _ _ h =>
    rw [h] at hp
    cases hp

/-- Only `exit` and `thread_exit` of `q` itself make `q` a zombie. -/
theorem TStep.zombie (h : TStep T l T') (hz : (T'.ctl q).state = .zombie) :
    (T.ctl q).state = .zombie ∨ l = .exit q ∨ l = .threadExit q := by
  cases h.ctl q with
  | same h _ => exact .inl (h ▸ hz)
  | move _ _ hc _ _ _ _ => rcases hc with hc | hc <;> exact absurd (hc.symm.trans hz) (by decide)
  | killed _ h =>
    rw [h] at hz
    dsimp only at hz
    split_ifs at hz with hs
    exact .inl hz
  | block _ _ hc _ _ => exact absurd (hc.symm.trans hz) (by decide)
  | failed _ _ h _ => exact absurd (h.symm.trans hz) (by decide)
  | spawned _ _ h _ => exact absurd (h.symm.trans hz) (by decide)
  | exits hl _ _ _ _ _ => exact .inr (.inl hl)
  | bystander _ _ hw =>
    rcases hw with h | ⟨-, h⟩
    · rw [h, Tab.reparent_state] at hz
      exact .inl hz
    · rw [h] at hz
      cases hz
  | threadExits hl _ _ _ _ _ => exact .inr (.inr hl)
  | woken _ _ h =>
    rw [h] at hz
    split_ifs at hz
    exact .inl hz
  | reaps _ _ hc _ _ => exact absurd (hc.symm.trans hz) (by decide)
  | reaped _ _ h =>
    rw [h] at hz
    cases hz

/-- **Step lemma.**  Sleepers stay on live threads in every transition that is not the `exit` of a thread somebody sleeps on. -/
theorem SleepInv.step (hI : SleepInv T) (h : TStep T l T')
    (hex : ∀ q, l = .exit q → ∀ p tid x, (T.ctl p).state = .sleeping → (T.ctl p).frame = .join tid x →
      (T.ctl p).chan ≠ some q) : SleepInv T' := by
  intro p tid x hp hj
  -- the target before the step, and how it can change
  suffices hs : ∃ q, (T'.ctl p).chan = some q ∧ (T.ctl q).Live ∧ (T.ctl q).state ≠ .zombie ∧
      (T.ctl q).isThread = true ∧ (T.ctl q).father = x ∧ (T.ctl q).tid = tid ∧ l ≠ .exit q ∧ l ≠ .threadExit q by
    obtain ⟨q, hc, hl, hz, ht, hf, hi, h1, h2⟩ := hs
    have hz' : (T'.ctl q).state ≠ .zombie := fun hz' => by
      rcases h.zombie hz' with hz' | hz' | hz'
      · exact hz hz'
      · exact h1 hz'
      · exact h2 hz'
    cases h.slot q with
    | stays _ hl' _ hthr hfather htid _ => exact ⟨q, hc, hl', hz', hthr.trans ht, hfather.trans hf, htid.trans hi⟩
    | unused hu _ => exact absurd hu hl
    | born _ hu => exact absurd hu hl
    | freed _ hu _ => exact absurd hu hz
  rcases h.asleep hp with ⟨rfl, hfr⟩ | ⟨hs, hfr, hch, hthr⟩
  · -- `p` just went to sleep
    rcases hfr with hfr | ⟨tid', y, q, hfr, hc, hl, hz, ht, hf, hi⟩
    · exact absurd (hj.symm.trans hfr) (by simp)
    · obtain ⟨rfl, rfl⟩ := CFrame.join.inj (hj.symm.trans hfr)
      exact ⟨q, hc, hl, hz, ht, hf, hi, by simp, by simp⟩
  · obtain ⟨q, hc, hl, hz, ht, hf, hi⟩ := hI p tid x hs (hfr.symm.trans hj)
    refine ⟨q, hch.trans hc, hl, hz, ht, hf, hi, ?_, fun hlab => hthr q hlab hc⟩
    intro hlab
    exact hex q hlab p tid x hs (hfr.symm.trans hj) hc

def Frame.isJoin : Frame → Bool
  | .join _ _ => true
  | _ => false

/-- No `exit` is completed by a process on which somebody sleeps in `thread_join`. -/
def ExitWakes (k : Kernel) (a : Action) : Prop :=
  ∀ q ∈ a.exits k, ∀ p, (k.proc p).state = .sleeping → (k.proc p).chan = some q → (k.proc p).frame.isJoin = false

instance (k : Kernel) (a : Action) : Decidable (ExitWakes k a) :=
  decidableCollected (a.exits k) fun q p => (k.proc p).state = .sleeping → (k.proc p).chan = some q → (k.proc p).frame.isJoin = false

theorem boot_sleepInv (h : Boot k) : SleepInv k.tab := by
  obtain ⟨hi, -, ho⟩ := boot_tab h
  intro p tid x hp
  by_cases hpi : p = k.initproc
  · rw [hpi, Kernel.tab_ctl, hi] at hp
    cases hp
  · rw [Kernel.tab_ctl, ho p hpi] at hp
    cases hp

theorem sleepInv_step (hI : SleepInv k.tab) (hok : ExitWakes k a) (h : Step k a o k') : SleepInv k'.tab := by
  obtain ⟨l, ht, hs⟩ := step_tab h
  refine hI.step ht ?_
  rintro q rfl p tid x hp hj hc
  have hfr : (k.proc p).frame = .join tid x := Frame.tag_join.mp hj
  have := hok q hs.1 p hp hc
  rw [hfr] at this
  cases this

/-- **No lost wakeup in `thread_join`.**  In every run in which no thread that somebody sleeps on dies through `exit`, a sleeper in
`thread_join(tid)` sleeps on the thread `tid` of its group, and that thread is neither a zombie nor gone. -/
theorem joiner_target_alive {tr : Trace} (h0 : Boot k0) (h : Run Step ExitWakes k0 tr k) (p : Slot) (tid : ℤ)
    (x : Option Slot) (hp : (k.proc p).state = .sleeping) (hj : (k.proc p).frame = .join tid x) :
    ∃ q, (k.proc p).chan = some q ∧ (k.proc q).isThread = true ∧ (k.proc q).tid = tid ∧ (k.proc q).father = x ∧
      (k.proc q).state ≠ .zombie ∧ (k.proc q).state ≠ .unused := by
  have hI : SleepInv k.tab := h.inv (I := fun k => SleepInv k.tab) (boot_sleepInv h0)
    fun _ _ _ _ hI hok hst => sleepInv_step hI hok hst
  obtain ⟨q, hc, hl, hz, ht, hf, hi⟩ := hI p tid x hp (Frame.tag_join.mpr hj)
  exact ⟨q, hc, ht, hi, hf, hz, hl⟩

/-- The first process makes a thread and sleeps until it ends. -/
theorem joiner_target_alive_run : ∃ k0 tr k, Boot k0 ∧ Run Step ExitWakes k0 tr k ∧
    ((k.proc 0).state = .sleeping ∧ (k.proc 0).frame = .join 2 (some 0)) ∧
    ∃ q, (k.proc 0).chan = some q ∧ (k.proc q).isThread = true ∧ (k.proc q).tid = 2 ∧ (k.proc q).father = some 0 ∧
      (k.proc q).state ≠ .zombie ∧ (k.proc q).state ≠ .unused := by
  obtain ⟨tr, k, hrun, hp, hj⟩ := exists_run ExitWakes small
    (startInit ++ [.syscall 0 (.threadCreate 0 0 0) (pages 50 20), .syscall 0 (.threadJoin 2) []])
    (fun _ k => (k.proc 0).state = .sleeping ∧ (k.proc 0).frame.tag = .join 2 (some 0)) (by decide +kernel)
  have hj' := Frame.tag_join.mp hj
  exact ⟨small, tr, k, small_boot, hrun, ⟨hp, hj'⟩, joiner_target_alive small_boot hrun 0 2 (some 0) hp hj'⟩

/-- A thread that somebody joins dies through `exit`, which wakes the parent's channel only: the joiner sleeps on. -/
theorem exit_loses_joiner : ¬ ∀ (k0 : Kernel) (tr : Trace) (k : Kernel) (p : Slot) (tid : ℤ) (x : Option Slot),
    Boot k0 → Run Step always k0 tr k → (k.proc p).state = .sleeping → (k.proc p).frame = .join tid x →
    ∃ q, (k.proc p).chan = some q ∧ (k.proc q).isThread = true ∧ (k.proc q).tid = tid ∧ (k.proc q).father = x ∧
      (k.proc q).state ≠ .zombie ∧ (k.proc q).state ≠ .unused := by
  intro hall
  obtain ⟨tr, k, hrun, hp, hj, hc, hz⟩ := exists_run always small
    (startInit ++ [.syscall 0 (.threadCreate 0 0 0) (pages 50 20), .syscall 0 (.threadJoin 2) [], .scheduler 1,
      .syscall 1 (.exit 0) [], .resume 1 (.done 0 []) []])
    (fun _ k => (k.proc 0).state = .sleeping ∧ (k.proc 0).frame.tag = .join 2 (some 0) ∧
      (k.proc 0).chan = some 1 ∧ (k.proc 1).state = .zombie) (by decide +kernel)
  obtain ⟨q, hq, -, -, -, hz', -⟩ := hall small tr k 0 2 (some 0) small_boot hrun hp (Frame.tag_join.mp hj)
  obtain rfl : q = 1 := Option.some.inj (hq.symm.trans hc)
  exact hz' hz

/-! ## Pids -/

/-- Pids of live processes are positive, below the next pid until that overflows, and different; a tid is a pid. -/
structure PidInv (T : Tab) : Prop where
  range : T.nextpid ≤ INTMAX
  pos : ∀ i, (T.ctl i).Live → 0 < (T.ctl i).pid
  below : 0 < T.nextpid → ∀ i, (T.ctl i).Live → (T.ctl i).pid < T.nextpid
  inj : ∀ i j, (T.ctl i).Live → (T.ctl j).Live → (T.ctl i).pid = (T.ctl j).pid → i = j
  tid : ∀ i, (T.ctl i).Live → (T.ctl i).isThread = true → (T.ctl i).tid = (T.ctl i).pid

/-- A transition that takes a pid. -/
def TLab.takesPid : TLab → Bool
  | .spawn _ _ _ | .failSpawn _ => true
  | _ => false

theorem TStep.nextpid_eq (h : TStep T l T') :
    T'.nextpid = T.nextpid ∨ l.takesPid = true ∧ T'.nextpid = int32 (T.nextpid + 1) := by
  cases h with
  | exit _ _ _ hn _ _ _ _ => exact .inl hn
  | failSpawn _ => exact .inr ⟨rfl, rfl⟩
  | spawn _ _ _ => exact .inr ⟨rfl, rfl⟩
  | _ => exact .inl rfl

/-- The next pid only grows, until it overflows for good. -/
theorem TStep.nextpid_mono (h : TStep T l T') (hr : T.nextpid ≤ INTMAX) (hn : l.takesPid = true → 0 < T.nextpid)
    (h0 : 0 < T'.nextpid) : 0 < T.nextpid ∧ T.nextpid ≤ T'.nextpid := by
  rcases h.nextpid_eq with heq | ⟨hl, heq⟩
  · rw [heq] at h0 ⊢
    exact ⟨h0, le_rfl⟩
  · have hpos := hn hl
    rcases int32_succ hpos hr with h1 | h1
    · omega
    · omega

/-- **Step lemma.** -/
theorem PidInv.step (hI : PidInv T) (h : TStep T l T') (hn : l.takesPid = true → 0 < T.nextpid) : PidInv T' := by
  -- a live slot after the step has its pid from before, or is new
  have hslot : ∀ i, (T'.ctl i).Live →
      ((T.ctl i).Live ∧ (T'.ctl i).pid = (T.ctl i).pid ∧ (T'.ctl i).isThread = (T.ctl i).isThread ∧
        (T'.ctl i).tid = (T.ctl i).tid) ∨
      (0 < T.nextpid ∧ T'.nextpid = int32 (T.nextpid + 1) ∧ (T'.ctl i).pid = T.nextpid ∧
        ((T'.ctl i).isThread = true → (T'.ctl i).tid = T.nextpid) ∧ ∀ j, j ≠ i → T'.ctl j = T.ctl j) := by
    intro i hi
    cases h.slot i with
    | stays hl _ hpid hthr _ htid _ => exact .inl ⟨hl, hpid, hthr, htid⟩
    | unused _ hu => exact absurd hu hi
    | born hlab hu =>
      subst hlab
      obtain ⟨-, -, hnext, hother, -, hc⟩ := h.spawn_ctl
      refine .inr ⟨hn rfl, hnext, by rw [hc], fun ht => ?_, hother⟩
      rw [hc] at ht ⊢
      exact if_pos ht
    | freed _ _ hu => exact absurd hu hi
  refine { range := ?_, pos := ?_, below := ?_, inj := ?_, tid := ?_ }
  · rcases h.nextpid_eq with heq | ⟨-, heq⟩
    · exact heq ▸ hI.range
    · exact heq ▸ int32_le _
  · intro i hi
    rcases hslot i hi with ⟨hl, hpid, -, -⟩ | ⟨h0, -, hpid, -, -⟩
    · exact hpid ▸ hI.pos i hl
    · exact hpid ▸ h0
  · intro h0 i hi
    rcases hslot i hi with ⟨hl, hpid, -, -⟩ | ⟨hpos, hnext, hpid, -, -⟩
    · obtain ⟨h1, h2⟩ := h.nextpid_mono hI.range hn h0
      have := hI.below h1 i hl
      omega
    · rcases int32_succ hpos hI.range with h1 | h1 <;> omega
  · intro i j hi hj hij
    rcases hslot i hi with ⟨hli, hpi, -, -⟩ | ⟨hpos, -, hpi, -, hother⟩
    · rcases hslot j hj with ⟨hlj, hpj, -, -⟩ | ⟨hpos, -, hpj, -, -⟩
      · exact hI.inj i j hli hlj (by rw [← hpi, ← hpj, hij])
      · have := hI.below hpos i hli
        omega
    · by_contra hne
      rw [hother j (Ne.symm hne)] at hj hij
      have := hI.below hpos j hj
      omega
  · intro i hi ht
    rcases hslot i hi with ⟨hl, hpid, hthr, htid⟩ | ⟨-, -, hpid, htid, -⟩
    · rw [htid, hpid]
      exact hI.tid i hl (hthr ▸ ht)
    · rw [htid ht, hpid]

theorem boot_pidInv (h : Boot k) : PidInv k.tab := by
  obtain ⟨hi, hn, ho⟩ := boot_tab h
  have hinit : ∀ i, (k.tab.ctl i).Live → i = k.initproc := fun i hl => by
    by_contra hne
    exact hl (congrArg Ctl.state (ho i hne))
  have hpid : (k.tab.ctl k.initproc).pid = 1 := congrArg Ctl.pid hi
  refine { range := ?_, pos := ?_, below := ?_, inj := ?_, tid := ?_ }
  · rw [Kernel.tab_nextpid, hn]
    decide
  · intro i hl
    rw [hinit i hl, hpid]
    decide
  · intro _ i hl
    rw [hinit i hl, hpid, Kernel.tab_nextpid, hn]
    decide
  · intro i j hl hl' _
    rw [hinit i hl, hinit j hl']
  · intro i hl ht
    rw [hinit i hl] at ht
    exact absurd (ht.symm.trans (congrArg Ctl.isThread hi)) (by decide)

/-! ## Joins and waits -/

theorem Action.creates_only (h : (a.creates k).isSome = true) :
    a.joinCall k = none ∧ a.waitCall k = none ∧ a.exits k = none := by
  cases a with
  | syscall p c as => cases c <;> simp_all [Action.creates, Action.joinCall, Action.waitCall, Action.exits]
  | _ => simp [Action.creates] at h

/-- A round of `thread_join(tid)` sleeps, fails, or frees the thread `tid` and returns its tid. -/
theorem step_join {r : Slot} {tid : ℤ} {x : Option Slot} (h : Step k a o k') (hc : a.joinCall k = some (r, tid, x)) :
    o = none ∨ o = some (-1) ∨ ∃ q, TStep k.tab (.joinReap r q) k'.tab ∧ (k.proc q).tid = tid ∧ o = some tid := by
  obtain ⟨l, ht, hs⟩ := step_tab h
  have hsome : (a.joinCall k).isSome := by rw [hc]; rfl
  cases l with
  | spawn p q th => exact absurd (hc.symm.trans hs.2.2.1) (by simp)
  | failSpawn q => exact absurd (hc.symm.trans hs.2.2.1) (by simp)
  | exit p => exact .inl hs.2
  | joinReap p q =>
    obtain ⟨⟨y, hy⟩, -, ho, -⟩ := hs
    obtain ⟨rfl, htid, -⟩ : r = p ∧ tid = (k.proc q).tid ∧ x = y := by simpa using hc.symm.trans hy
    exact .inr (.inr ⟨q, ht, htid.symm, by rw [ho, htid]⟩)
  | waitReap p q => exact absurd (hc.symm.trans hs.2.2) (by simp)
  | move p => exact (hs (.inl hsome)).imp_right .inl
  | kill i => exact (hs (.inl hsome)).imp_right .inl
  | block p => exact (hs (.inl hsome)).imp_right .inl
  | threadExit p => exact (hs (.inl hsome)).imp_right .inl

/-- A round of `wait` sleeps, fails, or frees a zombie and returns its pid. -/
theorem step_wait (h : Step k a o k') (hc : (a.waitCall k).isSome = true) :
    ((o = none ∨ o = some (-1)) ∧ ∀ i, (k.proc i).state ≠ .unused → (k'.proc i).state ≠ .unused) ∨
    ∃ p q, TStep k.tab (.waitReap p q) k'.tab ∧ a.waitReaps k = some (p, q) ∧ o = some (k.proc q).pid := by
  obtain ⟨l, ht, hs⟩ := step_tab h
  have hlive : (∀ p q, l ≠ .joinReap p q) → (∀ p q, l ≠ .waitReap p q) →
      ∀ i, (k.proc i).state ≠ .unused → (k'.proc i).state ≠ .unused := fun hj hw i hi => by
    cases ht.slot i with
    | stays _ hl' _ _ _ _ _ => exact hl'
    | unused hu _ => exact absurd hu hi
    | born _ hu => exact absurd hu hi
    | freed hl _ _ => rcases hl with hl | hl <;> exact absurd hl (by first | exact hj _ _ | exact hw _ _)
  cases l with
  | spawn p q th => rw [hs.2.2.2] at hc; cases hc
  | failSpawn q => rw [hs.2.2.2] at hc; cases hc
  | exit p => exact .inl ⟨.inl hs.2, hlive (by simp) (by simp)⟩
  | joinReap p q => rw [hs.2.2.2] at hc; cases hc
  | waitReap p q => exact .inr ⟨p, q, ht, hs.1, hs.2.1⟩
  | move p => exact .inl ⟨hs (.inr (.inl hc)), hlive (by simp) (by simp)⟩
  | kill i => exact .inl ⟨hs (.inr (.inl hc)), hlive (by simp) (by simp)⟩
  | block p => exact .inl ⟨hs (.inr (.inl hc)), hlive (by simp) (by simp)⟩
  | threadExit p => exact .inl ⟨hs (.inr (.inl hc)), hlive (by simp) (by simp)⟩

/-- A `fork` or `thread_create` that does not return -1 made something. -/
theorem step_creates {th : Bool} {r : ℤ} (h : Step k a o k') (hc : a.creates k = some (p, th)) (ho : o = some r)
    (hr : r ≠ -1) : ∃ q, TStep k.tab (.spawn p q th) k'.tab ∧ (TLab.spawn p q th).Shows k a o ∧ r = k.nextpid := by
  obtain ⟨l, ht, hs⟩ := step_tab h
  have hsome : (a.creates k).isSome := by rw [hc]; rfl
  obtain ⟨hj, hw, hx⟩ := Action.creates_only hsome
  have hnot : ¬ (o = none ∨ o = some (-1)) := by
    rw [ho]
    simpa using hr
  cases l with
  | spawn p' q th' =>
    obtain ⟨rfl, rfl⟩ : p = p' ∧ th = th' := by simpa using hc.symm.trans hs.1
    exact ⟨q, ht, hs, Option.some.inj (ho.symm.trans hs.2.1)⟩
  | failSpawn q => exact absurd (.inr hs.2.1) hnot
  | exit p => exact absurd (.inl hs.2) hnot
  | joinReap p q =>
    obtain ⟨⟨y, hy⟩, -⟩ := hs
    exact absurd (hj.symm.trans hy) (by simp)
  | waitReap p q =>
    have : a.waitReaps k = none := by simp [Action.waitReaps, hw]
    exact absurd (this.symm.trans hs.1) (by simp)
  | move p => exact absurd (hs (.inr (.inr hsome))) hnot
  | kill i => exact absurd (hs (.inr (.inr hsome))) hnot
  | block p => exact absurd (hs (.inr (.inr hsome))) hnot
  | threadExit p => exact absurd (hs (.inr (.inr hsome))) hnot

/-! ## Runs -/

/-- `wait` frees neither a thread nor a process that still has threads, and no pid is taken after the counter overflowed. -/
def JoinOwns (k : Kernel) (a : Action) : Prop :=
  (∀ x ∈ a.waitReaps k, (k.proc x.2).isThread = false) ∧ KeepsLeaders k a ∧ ((a.creates k).isSome = true → 0 < k.nextpid)

instance (k : Kernel) (a : Action) : Decidable (JoinOwns k a) :=
  have : Decidable (∀ x ∈ a.waitReaps k, (k.proc x.2).isThread = false) := Option.decidableForallMem (a.waitReaps k)
  inferInstanceAs (Decidable (_ ∧ KeepsLeaders k a ∧ ((a.creates k).isSome = true → 0 < k.nextpid)))

theorem JoinOwns.takesPid (hok : JoinOwns k a) (hs : l.Shows k a o) (hl : l.takesPid = true) : 0 < k.tab.nextpid := by
  cases l with
  | spawn p q th => exact hok.2.2 (by rw [hs.1]; rfl)
  | failSpawn q => exact hok.2.2 hs.1
  | _ => cases hl

theorem pidInv_step (hI : PidInv k.tab) (hok : JoinOwns k a) (h : Step k a o k') : PidInv k'.tab := by
  obtain ⟨l, ht, hs⟩ := step_tab h
  exact hI.step ht (hok.takesPid hs)

/-- Nobody has, or will ever have, this pid. -/
def Gone (tid : ℤ) (T : Tab) : Prop :=
  (∀ i, (T.ctl i).Live → (T.ctl i).pid ≠ tid) ∧ (0 < T.nextpid → tid < T.nextpid)

theorem Gone.step {tid : ℤ} (hg : Gone tid T) (hr : T.nextpid ≤ INTMAX) (h : TStep T l T')
    (hn : l.takesPid = true → 0 < T.nextpid) : Gone tid T' := by
  refine ⟨fun i hi => ?_, fun h0 => ?_⟩
  · cases h.slot i with
    | stays hl _ hpid _ _ _ _ => exact hpid ▸ hg.1 i hl
    | unused _ hu => exact absurd hu hi
    | born hlab _ =>
      subst hlab
      obtain ⟨-, -, -, -, -, hc⟩ := h.spawn_ctl
      have := hg.2 (hn rfl)
      rw [hc]
      exact fun heq => absurd heq (by dsimp only; omega)
    | freed _ _ hu => exact absurd hu hi
  · obtain ⟨h1, h2⟩ := h.nextpid_mono hr hn h0
    have := hg.2 h1
    omega

/-- A `thread_join` that frees the thread with pid `tid` leaves nobody with that pid. -/
theorem gone_of_joinReap {r : Slot} (hI : PidInv T) (h : TStep T (.joinReap r q) T') : Gone (T.ctl q).pid T' := by
  obtain ⟨-, -, hz, -, -, hu⟩ := h.joinReap_ctl
  have hl : (T.ctl q).Live := .of_zombie hz
  have hnext : T'.nextpid = T.nextpid := by
    rcases h.nextpid_eq with heq | ⟨hl, -⟩
    · exact heq
    · cases hl
  refine ⟨fun i hi heq => ?_, fun h0 => ?_⟩
  · cases h.slot i with
    | stays hli _ hpid _ _ _ _ =>
      obtain rfl : i = q := hI.inj i q hli hl (hpid ▸ heq)
      exact hi hu
    | unused _ hu => exact hi hu
    | born hlab _ => cases hlab
    | freed _ _ hu => exact hi hu
  · rw [hnext] at h0 ⊢
    exact hI.below h0 q hl

/-- `r`'s `thread_join(tid)` returns `tid` in the event `e`. -/
def JoinReturns (tid : ℤ) (r : Slot) (e : KEv) : Prop :=
  (∃ x, e.act.joinCall e.pre = some (r, tid, x)) ∧ e.out = some tid

/-- What holds of a thread that the event `e` made for `p` in slot `q`, in the run `tr1`, `e`, `tr2`. -/
structure JoinedOnce (tr1 : Trace) (e : KEv) (tr2 : Trace) (p q : Slot) : Prop where
  /-- Two joins do not both return the tid. -/
  once : ∀ u c v d w, tr1 ++ e :: tr2 = u ++ c :: (v ++ d :: w) → ∀ r s, JoinReturns e.pre.nextpid r c →
    ¬ JoinReturns e.pre.nextpid s d
  /-- The join that returns it comes later, finds the thread a zombie, is by a member of the same group, and frees the slot. -/
  caller : ∀ c ∈ tr1 ++ e :: tr2, ∀ r, JoinReturns e.pre.nextpid r c →
    c ∈ tr2 ∧ Alive q e.pre.nextpid c.pre ∧ (c.pre.proc q).state = .zombie ∧ (c.post.proc q).state = .unused ∧
    ∃ f, groupLeader e.pre p = some f ∧ groupLeader c.pre r = some f ∧ Alive f (e.pre.proc f).pid c.pre
  /-- Every other join of the tid that returns gives -1. -/
  others : ∀ c ∈ tr1 ++ e :: tr2, ∀ r x, c.act.joinCall c.pre = some (r, e.pre.nextpid, x) →
    c.out = none ∨ c.out = some (-1) ∨ JoinReturns e.pre.nextpid r c
  /-- Only such a join reclaims the slot. -/
  reclaimed : ∀ u c w, tr2 = u ++ c :: w → (∀ d ∈ u, (d.post.proc q).state ≠ .unused) →
    (c.post.proc q).state = .unused → ∃ r, JoinReturns e.pre.nextpid r c
  /-- No `wait` returns the tid, and no `wait` frees any thread. -/
  wait : ∀ c ∈ tr1 ++ e :: tr2, (c.act.waitCall c.pre).isSome = true → c.out ≠ some e.pre.nextpid ∧
    ∀ i, (c.pre.proc i).state ≠ .unused → (c.pre.proc i).isThread = true → (c.post.proc i).state ≠ .unused

/-- The invariants behind the joins. -/
structure JoinInv (k : Kernel) : Prop where
  group : GroupInv k.tab
  locals : JoinLocal k.tab
  pids : PidInv k.tab

theorem JoinInv.step (hI : JoinInv k) (hok : JoinOwns k a) (h : Step k a o k') : JoinInv k' :=
  ⟨groupInv_step hI.group hok.2.1 h, joinLocal_step hI.locals h, pidInv_step hI.pids hok h⟩

theorem boot_joinInv (h : Boot k) : JoinInv k := ⟨boot_groupInv h, boot_joinLocal h, boot_pidInv h⟩

/-- Nobody has the pid `tid` now. -/
def Absent (tid : ℤ) (k : Kernel) : Prop := ∀ i, (k.proc i).state ≠ .unused → (k.proc i).pid ≠ tid

/-- Along a run the next pid only grows, until it overflows for good. -/
theorem run_nextpid_mono {k1 k2 : Kernel} {tr : Trace} (h : Run Step JoinOwns k1 tr k2) (hI : JoinInv k1)
    (h0 : 0 < k2.nextpid) : 0 < k1.nextpid ∧ k1.nextpid ≤ k2.nextpid := by
  induction h with
  | nil => exact ⟨h0, le_rfl⟩
  | @snoc tr k2 k3 a o hrun hok hst ih =>
    have hI2 : JoinInv k2 := hrun.inv hI fun _ _ _ _ hI hok hst => hI.step hok hst
    obtain ⟨l, ht, hs⟩ := step_tab hst
    obtain ⟨h1, h2⟩ := ht.nextpid_mono hI2.pids.range (hok.takesPid hs) h0
    obtain ⟨h3, h4⟩ := ih h1
    exact ⟨h3, h4.trans h2⟩

/-- A join cannot return a tid that nobody has. -/
theorem Absent.not_joinReturns {e : KEv} {tid : ℤ} {r : Slot} (ha : Absent tid e.pre) (hI : JoinInv e.pre)
    (h : Step e.pre e.act e.out e.post) (h0 : 0 < tid) : ¬ JoinReturns tid r e := by
  rintro ⟨⟨x, hc⟩, ho⟩
  rcases step_join h hc with hn | hn | ⟨q, ht, hq, -⟩
  · exact absurd (ho.symm.trans hn) (by simp)
  · have : tid = -1 := by simpa using ho.symm.trans hn
    omega
  · obtain ⟨-, -, hz, hthr, -, -⟩ := ht.joinReap_ctl
    exact ha q (Ctl.Live.of_zombie hz) ((hI.pids.tid q (.of_zombie hz) hthr).symm.trans hq)

/-- A join that returns the tid of a live thread frees that thread. -/
theorem LedBy.joinReturns {e c : KEv} {r : Slot} (hk : LedBy e q f c.pre) (hI : JoinInv c.pre)
    (h : Step c.pre c.act c.out c.post) (h0 : 0 < e.pre.nextpid) (hj : JoinReturns e.pre.nextpid r c) :
    TStep c.pre.tab (.joinReap r q) c.post.tab := by
  obtain ⟨⟨x, hc⟩, ho⟩ := hj
  rcases step_join h hc with hn | hn | ⟨i, ht, hi, -⟩
  · exact absurd (ho.symm.trans hn) (by simp)
  · have : e.pre.nextpid = -1 := by simpa using ho.symm.trans hn
    omega
  · obtain ⟨-, -, hz, hthr, -, -⟩ := ht.joinReap_ctl
    have hpid := (hI.pids.tid i (.of_zombie hz) hthr).symm.trans hi
    obtain rfl : i = q := hI.pids.inj i q (.of_zombie hz) hk.alive.1 (hpid.trans hk.alive.2.symm)
    exact ht

/-- **The phases of a tid.**  Before its thread is made nobody has it; then the thread has it, under its leader; after the join
nobody has it any more. -/
theorem LedBy.phase {e : KEv} (hk : LedBy e q f k) (hI : JoinInv k) (hok : JoinOwns k a) (h : Step k a o k') :
    LedBy e q f k' ∨ Gone e.pre.nextpid k'.tab := by
  have hI' := hI.step hok h
  obtain ⟨l, ht, hs⟩ := step_tab h
  by_cases hq : (k'.proc q).state = .unused
  · cases ht.slot q with
    | stays _ hl' _ _ _ _ _ => exact absurd hq hl'
    | unused hu _ => exact absurd hu hk.alive.1
    | born _ hu => exact absurd hu hk.alive.1
    | freed hl _ _ =>
      rcases hl with rfl | rfl
      · have hg := gone_of_joinReap hI.pids ht
        exact .inr (hk.alive.2 ▸ hg)
      · exact absurd (hk.isThread.symm.trans (hok.1 _ hs.1)) (by decide)
  · refine .inl (hk.step ht ?_ hq hI'.group hI'.locals)
    rintro p' rfl
    exact hok.2.1.tab hs q hk.alive.1 hk.isThread hk.father

theorem Gone.run {tid : ℤ} {k1 k2 : Kernel} {tr : Trace} (hg : Gone tid k1.tab) (hI : JoinInv k1)
    (h : Run Step JoinOwns k1 tr k2) : JoinInv k2 ∧ Gone tid k2.tab :=
  h.inv (I := fun k => JoinInv k ∧ Gone tid k.tab) ⟨hI, hg⟩ fun _ _ _ _ hI hok hst => by
    obtain ⟨l, ht, hs⟩ := step_tab hst
    exact ⟨hI.1.step hok hst, hI.2.step hI.1.pids.range ht (hok.takesPid hs)⟩

/-- Where an event of the run stands with respect to the tid of the thread that `e` makes. -/
theorem phases {tr1 tr2 : Trace} {e : KEv} (h0 : Boot k0) (h : Run Step JoinOwns k0 (tr1 ++ e :: tr2) k)
    (ht : TStep e.pre.tab (.spawn p q true) e.post.tab) (hs : (TLab.spawn p q true).Shows e.pre e.act e.out) :
    ∃ f, groupLeader e.pre p = some f ∧ LedBy e q f e.post ∧ ∀ c ∈ tr1 ++ e :: tr2,
      Step c.pre c.act c.out c.post ∧ JoinOwns c.pre c.act ∧ JoinInv c.pre ∧
      (Absent e.pre.nextpid c.pre ∨ c = e ∨ c ∈ tr2 ∧ LedBy e q f c.pre) := by
  obtain ⟨hrun1, hok, hst, hrun2⟩ := h.split
  have hinv : ∀ {tr : Trace} {k : Kernel}, Run Step JoinOwns k0 tr k → JoinInv k := fun h =>
    h.inv (boot_joinInv h0) fun _ _ _ _ hI hok hst => hI.step hok hst
  have hpre := hinv hrun1
  have hpost := hpre.step hok hst
  have hpos : 0 < e.pre.nextpid := hok.takesPid hs rfl
  obtain ⟨f, hlead, hled⟩ := ht.ledBy hs hpre.group hpost.group hpost.locals
  refine ⟨f, hlead, hled, fun c hc => ?_⟩
  obtain ⟨⟨tr', hr⟩, hokc, hstc⟩ := h.forall_ev c hc
  refine ⟨hstc, hokc, hinv hr, ?_⟩
  rcases List.mem_append.mp hc with hc | hc
  · -- an earlier event: all pids are below the one that `e` takes
    obtain ⟨u, w, rfl⟩ := List.append_of_mem hc
    obtain ⟨hr1, hok1, hst1, hr2⟩ := hrun1.split
    have hI1 := hinv hr1
    obtain ⟨l, ht1, hs1⟩ := step_tab hst1
    obtain ⟨h1, h2⟩ := run_nextpid_mono hr2 (hI1.step hok1 hst1) hpos
    obtain ⟨h3, h4⟩ := ht1.nextpid_mono hI1.pids.range (hok1.takesPid hs1) h1
    refine .inl fun i hi heq => ?_
    have hlt : (c.pre.proc i).pid < c.pre.nextpid := hI1.pids.below h3 i hi
    have hle : c.pre.nextpid ≤ c.post.nextpid := h4
    omega
  · rcases List.mem_cons.mp hc with rfl | hc'
    · exact .inr (.inl rfl)
    · -- a later event: the thread is there, or joined
      have hph := hrun2.inv_ev (I := fun k => JoinInv k ∧ (LedBy e q f k ∨ Gone e.pre.nextpid k.tab))
        ⟨hpost, .inl hled⟩ fun x a o y hI hok hst => by
          refine ⟨hI.1.step hok hst, ?_⟩
          rcases hI.2 with hk | hg
          · exact hk.phase hI.1 hok hst
          · obtain ⟨l, ht, hs⟩ := step_tab hst
            exact .inr (hg.step hI.1.pids.range ht (hok.takesPid hs))
      rcases (hph c hc').1.2 with hk | hg
      · exact .inr (.inr ⟨hc', hk⟩)
      · exact .inl hg.1

/-- A slot that is never seen unused keeps its process. -/
theorem Alive.run {ok : Kernel → Action → Prop} {pid : ℤ} {k1 k2 : Kernel} {tr : Trace} (h : Run Step ok k1 tr k2)
    (ha : Alive q pid k1) (hl : ∀ e ∈ tr, (e.post.proc q).state ≠ .unused) : Alive q pid k2 := by
  induction h with
  | nil => exact ha
  | @snoc tr k2 k3 a o hrun hok hst ih =>
    have hk := ih fun e he => hl e (List.mem_append_left _ he)
    have hl3 : (k3.proc q).state ≠ .unused := hl ⟨k2, a, o, k3⟩ (by simp)
    obtain ⟨l, ht, -⟩ := step_tab hst
    cases ht.slot q with
    | stays _ _ hpid _ _ _ _ => exact ⟨hl3, hpid.trans hk.2⟩
    | unused hu _ => exact absurd hu hk.1
    | born _ hu => exact absurd hu hk.1
    | freed _ _ hu => exact absurd hu hl3

/-- **Join exactly once.**  In every run in which `wait` frees no thread and no process with threads, and in which the pid counter does
not overflow: a tid that `thread_create` returned is returned by at most one `thread_join`, to a member of the group, when
the thread is a zombie; every other join of it fails; only that join reclaims the slot; no `wait` returns it. -/
theorem join_exactly_once {tr1 tr2 : Trace} {e : KEv} (h0 : Boot k0) (h : Run Step JoinOwns k0 (tr1 ++ e :: tr2) k)
    (p : Slot) (tid : ℤ) (hcr : e.act.creates e.pre = some (p, true)) (hout : e.out = some tid) (htid : tid ≠ -1) :
    tid = e.pre.nextpid ∧ ∃ q, Makes e p q true ∧ JoinedOnce tr1 e tr2 p q := by
  obtain ⟨hrun1, hok, hst, hrun2⟩ := h.split
  obtain ⟨q, ht, hs, heq⟩ := step_creates hst hcr hout htid
  have hpos : 0 < e.pre.nextpid := hok.takesPid hs rfl
  have hcalls : e.act.joinCall e.pre = none ∧ e.act.waitCall e.pre = none :=
    ⟨(Action.creates_only (by rw [hcr]; rfl)).1, (Action.creates_only (by rw [hcr]; rfl)).2.1⟩
  obtain ⟨f, hlead, hled, hph⟩ := phases h0 h ht hs
  -- whoever joins successfully frees the thread
  have hjoin : ∀ c ∈ tr1 ++ e :: tr2, ∀ r, JoinReturns e.pre.nextpid r c →
      c ∈ tr2 ∧ LedBy e q f c.pre ∧ TStep c.pre.tab (.joinReap r q) c.post.tab := by
    intro c hc r hj
    obtain ⟨hstc, -, hI, hcase⟩ := hph c hc
    rcases hcase with ha | rfl | ⟨hc2, hk⟩
    · exact absurd hj (ha.not_joinReturns hI hstc hpos)
    · obtain ⟨⟨x, hx⟩, -⟩ := hj
      exact absurd (hcalls.1.symm.trans hx) (by simp)
    · exact ⟨hc2, hk, hk.joinReturns hI hstc hpos hj⟩
  refine ⟨heq, q, ht.makes hs, { once := ?_, caller := ?_, others := ?_, reclaimed := ?_, wait := ?_ }⟩
  · intro u c v d w htr r s hj hj'
    have hcmem : c ∈ tr1 ++ e :: tr2 := by rw [htr]; simp
    obtain ⟨-, hk, hreap⟩ := hjoin c hcmem r hj
    obtain ⟨hstc, hokc, hI, -⟩ := hph c hcmem
    rw [htr] at h
    obtain ⟨-, -, -, hrest⟩ := h.split
    obtain ⟨hr1, -, hstd, -⟩ := hrest.split
    -- after the first join nobody has the tid
    have hg : Gone e.pre.nextpid c.post.tab := hk.alive.2 ▸ gone_of_joinReap hI.pids hreap
    obtain ⟨hId, hgd⟩ := hg.run (hI.step hokc hstc) hr1
    have had : Absent e.pre.nextpid d.pre := hgd.1
    exact had.not_joinReturns hId hstd hpos hj'
  · intro c hc r hj
    obtain ⟨hc2, hk, hreap⟩ := hjoin c hc r hj
    obtain ⟨-, -, hI, -⟩ := hph c hc
    obtain ⟨hr, -, hz, -, hfa, hu⟩ := hreap.joinReap_ctl
    have hlr : groupLeader c.pre r = some f := by
      rw [← hk.father]
      rcases hfa with hfa | hfa
      · exact hfa.symm
      · exact (hI.locals r _ _ (.of_running hr) hfa).symm
    exact ⟨hc2, hk.alive, hz, hu, f, hlead, hlr, hk.leader⟩
  · intro c hc r x hx
    obtain ⟨hstc, -, -, -⟩ := hph c hc
    rcases step_join hstc hx with hn | hn | ⟨i, -, -, ho⟩
    · exact .inl hn
    · exact .inr (.inl hn)
    · exact .inr (.inr ⟨⟨x, hx⟩, ho⟩)
  · intro u c w htr hlive hu
    subst htr
    obtain ⟨hr1, hokc, hstc, -⟩ := hrun2.split
    have halive := hled.alive.run hr1 hlive
    obtain ⟨-, -, hI, hcase⟩ := hph c (by simp)
    have hk : LedBy e q f c.pre := by
      rcases hcase with ha | rfl | ⟨-, hk⟩
      · exact absurd halive.2 (ha q halive.1)
      · exact absurd ht.spawn_ctl.2.1 halive.1
      · exact hk
    obtain ⟨l, htc, hsc⟩ := step_tab hstc
    cases htc.slot q with
    | stays _ hl' _ _ _ _ _ => exact absurd hu hl'
    | unused hu' _ => exact absurd hu' halive.1
    | born _ hu' => exact absurd hu' halive.1
    | @freed r hl _ _ =>
      rcases hl with rfl | rfl
      · obtain ⟨hcall, -, ho, -⟩ := hsc
        have hq : (c.pre.proc q).tid = e.pre.nextpid := (hI.pids.tid q hk.alive.1 hk.isThread).trans hk.alive.2
        exact ⟨r, by rw [← hq]; exact ⟨hcall, ho⟩⟩
      · exact absurd (hk.isThread.symm.trans (hokc.1 _ hsc.1)) (by decide)
  · intro c hc hw
    obtain ⟨hstc, hokc, hI, hcase⟩ := hph c hc
    rcases step_wait hstc hw with ⟨ho, hlive⟩ | ⟨r, i, htc, hreap, ho⟩
    · refine ⟨fun heq' => ?_, fun j hj _ => hlive j hj⟩
      rcases ho with ho | ho
      · exact absurd (ho.symm.trans heq') (by simp)
      · have : -1 = e.pre.nextpid := by simpa using ho.symm.trans heq'
        omega
    · have hni : (c.pre.proc i).isThread = false := hokc.1 _ hreap
      have hi : (c.pre.proc i).state = .zombie := by
        generalize c.post.tab = T at htc
        cases htc with
        | waitReap _ _ hz _ _ _ _ => exact hz
      refine ⟨fun heq' => ?_, fun j hj hjt => ?_⟩
      · have hpid : (c.pre.proc i).pid = e.pre.nextpid := by simpa using ho.symm.trans heq'
        rcases hcase with ha | rfl | ⟨-, hk⟩
        · exact ha i (fun hu => absurd (hi.symm.trans hu) (by decide)) hpid
        · rw [hcalls.2] at hw
          cases hw
        · obtain rfl : i = q := hI.pids.inj i q (.of_zombie hi) hk.alive.1 (hpid.trans hk.alive.2.symm)
          exact absurd (hni.symm.trans hk.isThread) (by decide)
      · cases htc.slot j with
        | stays _ hl' _ _ _ _ _ => exact hl'
        | unused hu _ => exact absurd hu hj
        | born _ hu => exact absurd hu hj
        | @freed r' hl _ _ =>
          obtain ⟨-, rfl⟩ : r = r' ∧ i = j := by simpa using hl
          exact absurd (hni.symm.trans hjt) (by decide)

set_option maxRecDepth 4000 in
/-- The first process makes a thread, the thread ends, and the join returns its tid. -/
theorem join_exactly_once_run : ∃ k0 tr1 e tr2 k, Boot k0 ∧ Run Step JoinOwns k0 (tr1 ++ e :: tr2) k ∧
    (e.act.creates e.pre = some (0, true) ∧ e.out = some 2) ∧ (∃ c ∈ tr1 ++ e :: tr2, JoinReturns 2 0 c) ∧
    2 = e.pre.nextpid ∧ ∃ q, Makes e 0 q true ∧ JoinedOnce tr1 e tr2 0 q := by
  obtain ⟨tr, k, hrun, hcr, hj⟩ := exists_run JoinOwns small
    (startInit ++ [.syscall 0 (.threadCreate 0 0 0) (pages 50 20), .syscall 0 (.threadJoin 2) [], .scheduler 1,
      .syscall 1 .threadExit [], .resume 1 (.done 0 []) [], .scheduler 0, .resume 0 (.done 0 []) []])
    (fun tr _ => tr[4]?.any (fun e : KEv => decide (e.act.creates e.pre = some (0, true) ∧ e.out = some 2)) = true ∧
      tr[10]?.any (fun e : KEv => decide (e.act.joinCall e.pre = some (0, 2, some 0) ∧ e.out = some 2)) = true)
    (by decide +kernel)
  obtain ⟨u, c, w, htr, hc1, hc2⟩ := exists_cut hj
  obtain ⟨tr1, e, tr2, rfl, he1, he2⟩ := exists_cut hcr
  exact ⟨small, tr1, e, tr2, k, small_boot, hrun, ⟨he1, he2⟩, ⟨c, by rw [htr]; simp, ⟨some 0, hc1⟩, hc2⟩,
    join_exactly_once small_boot hrun 0 2 he1 he2 (by decide)⟩

/-- A process gives its stack and the guard page back and makes a thread.  When the thread is dead the `wait` of its maker
collects it before anybody joins it. -/
theorem wait_collects_thread : ¬ ∀ (k0 : Kernel) (tr1 : Trace) (e : KEv) (tr2 : Trace) (k : Kernel) (p : Slot) (tid : ℤ),
    Boot k0 → Run Step always k0 (tr1 ++ e :: tr2) k → e.act.creates e.pre = some (p, true) → e.out = some tid →
    tid ≠ -1 → tid = e.pre.nextpid ∧ ∃ q, Makes e p q true ∧ JoinedOnce tr1 e tr2 p q := by
  intro hall
  obtain ⟨tr, k, hrun, hcr, hw⟩ := exists_run always small
    (startInit ++ [.syscall 0 (.sbrk (-8192)) [], .syscall 0 (.threadCreate 0 0 0) (pages 50 20), .scheduler 1,
      .syscall 1 .threadExit [], .resume 1 (.done 0 []) [], .syscall 0 (.wait 0) []])
    (fun tr _ => tr[5]?.any (fun e : KEv => decide (e.act.creates e.pre = some (0, true) ∧ e.out = some 2)) = true ∧
      tr[9]?.any (fun e : KEv => decide (e.act.waitCall e.pre = some (0, 0) ∧ e.out = some 2)) = true) (by decide +kernel)
  obtain ⟨u, c, w, htr, hc1, hc2⟩ := exists_cut hw
  obtain ⟨tr1, e, tr2, rfl, he1, he2⟩ := exists_cut hcr
  obtain ⟨hn, q, -, hq⟩ := hall small tr1 e tr2 k 0 2 small_boot hrun he1 he2 (by decide)
  exact (hq.wait c (by rw [htr]; simp) (by rw [hc1]; rfl)).1 (by rw [hc2, hn])

end OsLabs.Xv6
