import OsLabs.Xv6.Table

/-!
# OsLabs.Xv6.History — the life of a slot along a run

A slot of the process table is reused.  `SlotStep` lists what a transition can do to one slot; from it a run gives every
process its birth: the event that made it, after which the slot was never unused (`exists_born`).

* `Makes e p q th`: event `e` is a successful `fork` or `thread_create` of `p` that fills slot `q`.
* `Alive q pid`: slot `q` holds the process with that pid.
-/

namespace OsLabs.Xv6

open Lts

abbrev KEv := Ev Kernel Action (Option ℤ)

abbrev Trace := List KEv

variable {T T' : Tab} {l : TLab} {k k' k0 : Kernel} {p q : Slot} {o : Option ℤ} {a : Action}

/-! ## One slot, one transition -/

/-- What a transition can make of the slot `q`, which holds `d` afterwards: `q` is not touched, acts itself, or is acted on. -/
inductive CtlStep (T : Tab) (l : TLab) (q : Slot) (d : Ctl) : Prop
  | same (h : d = T.ctl q) (hl : ∀ p, l ≠ .exit p ∧ l ≠ .threadExit p)
  | move (hl : l = .move q) (hp : (T.ctl q).Awake) (hc : d.Awake) (hid : Ctl.SameId (T.ctl q) d)
      (hexit : d.frame = .exit → (T.ctl q).frame = .exit ∨ q ≠ T.initproc)
      (hthr : d.frame = .threadExit → (T.ctl q).frame = .threadExit ∨ (T.ctl q).isThread = true)
      (hjoin : ∀ tid x, d.frame = .join tid x → (T.ctl q).frame = .join tid x)
  | killed (hl : l = .kill q) (h : d = { T.ctl q with
      state := if (T.ctl q).state = .sleeping then .runnable else (T.ctl q).state })
  | block (hl : l = .block q) (hp : (T.ctl q).state = .running) (hc : d.state = .sleeping)
      (hid : Ctl.SameId (T.ctl q) d)
      (hfr : d.frame = .wait ∨ ∃ tid x i, d.frame = .join tid x ∧ d.chan = some i ∧ (T.ctl i).Live ∧
        (T.ctl i).state ≠ .zombie ∧ (T.ctl i).isThread = true ∧ (T.ctl i).father = x ∧ (T.ctl i).tid = tid ∧
        (x = T.leader q ∨ (T.ctl q).frame = .join tid x))
  | failed (hl : l = .failSpawn q) (hq : (T.ctl q).state = .unused) (h : d.state = .unused) (hpar : d.parent = none)
  | spawned {p : Slot} {th : Bool} (hl : l = .spawn p q th) (hq : (T.ctl q).state = .unused) (hs : d.state = .runnable)
      (hfr : d.frame = .user)
  | exits (hl : l = .exit q) (hp : (T.ctl q).state = .running) (hfr : (T.ctl q).frame = .exit) (hz : d.state = .zombie)
      (hfr' : d.frame = .exit) (hid : Ctl.SameId ((T.reparent q).ctl q) d)
  | bystander {p : Slot} (hl : l = .exit p) (hq : q ≠ p) (h : Ctl.Woken ((T.reparent p).ctl q) d)
  | threadExits (hl : l = .threadExit q) (hp : (T.ctl q).state = .running) (hfr : (T.ctl q).frame = .threadExit)
      (hz : d.state = .zombie) (hfr' : d.frame = .threadExit) (hid : Ctl.SameId (T.ctl q) d)
  | woken {p : Slot} (hl : l = .threadExit p) (hq : q ≠ p)
      (h : d = if (T.ctl q).state = .sleeping ∧ (T.ctl q).chan = some p then { T.ctl q with state := .runnable }
        else T.ctl q)
  | reaps {i : Slot} (hl : l = .joinReap q i ∨ l = .waitReap q i) (hp : (T.ctl q).state = .running)
      (hc : d.state = .running) (hid : Ctl.SameId (T.ctl q) d) (hfr : d.frame = .user)
  | reaped {p : Slot} (hl : l = .joinReap p q ∨ l = .waitReap p q) (hz : (T.ctl q).state = .zombie)
      (h : d = (T.ctl q).clear)

theorem TStep.ctl (h : TStep T l T') (q : Slot) : CtlStep T l q (T'.ctl q) := by
  cases h with
  | @move p c hp hc hid hexit hthr hjoin =>
    by_cases hq : q = p
    · subst hq
      rw [Tab.set_self]
      exact .move rfl hp hc hid hexit hthr hjoin
    · exact .same (Tab.set_of_ne _ _ hq) (by simp)
  | @kill i =>
    by_cases hq : q = i
    · subst hq
      exact .killed rfl (Tab.set_self _ _ _)
    · exact .same (Tab.set_of_ne _ _ hq) (by simp)
  | @block p c hp hc hid hfr =>
    by_cases hq : q = p
    · subst hq
      rw [Tab.set_self]
      exact .block rfl hp hc hid hfr
    · exact .same (Tab.set_of_ne _ _ hq) (by simp)
  | @failSpawn i f hi =>
    by_cases hq : q = i
    · subst hq
      exact .failed rfl hi (congrArg Ctl.state (Tab.set_self _ _ _)) (congrArg Ctl.parent (Tab.set_self _ _ _))
    · exact .same (Tab.set_of_ne _ _ hq) (by simp)
  | @spawn p i th x _ hi _ =>
    by_cases hq : q = i
    · subst hq
      exact .spawned rfl hi (congrArg Ctl.state (Tab.set_self _ _ _)) (congrArg Ctl.frame (Tab.set_self _ _ _))
    · exact .same (Tab.set_of_ne _ _ hq) (by simp)
  | @exit p _ hp hfr _ _ hz hfr' hid hj =>
    by_cases hq : q = p
    · subst hq
      exact .exits rfl hp hfr hz hfr' hid
    · exact .bystander rfl hq (hj q hq)
  | @threadExit p c hp hfr hc hfr' hid =>
    by_cases hq : q = p
    · subst hq
      rw [Tab.wakeup_self, Tab.set_self]
      exact .threadExits rfl hp hfr hc hfr' hid
    · refine .woken rfl hq ?_
      simp only [Tab.wakeup, Tab.set_of_ne _ _ hq, ne_eq, hq, not_false_eq_true, true_and]
  | @joinReap p i c _ hp hpq hi _ _ _ hc hid hfr =>
    by_cases hq : q = p
    · subst hq
      rw [Tab.set_self]
      exact .reaps (.inl rfl) hp hc hid hfr
    · by_cases hqi : q = i
      · subst hqi
        rw [Tab.set_of_ne _ _ hq, Tab.set_self]
        exact .reaped (.inl rfl) hi rfl
      · exact .same (by rw [Tab.set_of_ne _ _ hq, Tab.set_of_ne _ _ hqi]) (by simp)
  | @waitReap p i c hp hpq hi _ hc hid hfr =>
    by_cases hq : q = p
    · subst hq
      rw [Tab.set_self]
      exact .reaps (.inr rfl) hp hc hid hfr
    · by_cases hqi : q = i
      · subst hqi
        rw [Tab.set_of_ne _ _ hq, Tab.set_self]
        exact .reaped (.inr rfl) hi rfl
      · exact .same (by rw [Tab.set_of_ne _ _ hq, Tab.set_of_ne _ _ hqi]) (by simp)

/-- The life of the slot `q` in a transition. -/
inductive SlotStep (T : Tab) (l : TLab) (T' : Tab) (q : Slot) : Prop
  | stays (hl : (T.ctl q).Live) (hl' : (T'.ctl q).Live) (hpid : (T'.ctl q).pid = (T.ctl q).pid)
      (hthr : (T'.ctl q).isThread = (T.ctl q).isThread) (hfather : (T'.ctl q).father = (T.ctl q).father)
      (htid : (T'.ctl q).tid = (T.ctl q).tid)
      (hparent : (T'.ctl q).parent = (T.ctl q).parent ∨
        ∃ p, l = .exit p ∧ (T.ctl q).parent = some p ∧ (T'.ctl q).parent = some T.initproc)
  | unused (h : (T.ctl q).state = .unused) (h' : (T'.ctl q).state = .unused)
  | born {p : Slot} {th : Bool} (hl : l = .spawn p q th) (h : (T.ctl q).state = .unused)
  | freed {p : Slot} (hl : l = .joinReap p q ∨ l = .waitReap p q) (h : (T.ctl q).state = .zombie)
      (h' : (T'.ctl q).state = .unused)

theorem SlotStep.of_sameId (hl : (T.ctl q).Live) (hl' : (T'.ctl q).Live) (h : Ctl.SameId (T.ctl q) (T'.ctl q)) :
    SlotStep T l T' q :=
  .stays hl hl' h.pid h.isThread h.father h.tid (.inl h.parent)

/-- A slot whose state stays unused or live, with the same identity. -/
theorem SlotStep.of_unused_iff (hu : (T'.ctl q).state = .unused ↔ (T.ctl q).state = .unused)
    (h : Ctl.SameId (T.ctl q) (T'.ctl q)) : SlotStep T l T' q := by
  by_cases hs : (T.ctl q).state = .unused
  · exact .unused hs (hu.mpr hs)
  · exact .of_sameId hs (mt hu.mp hs) h

/-- Reparenting changes the parent of `p`'s children and nothing else. -/
theorem SlotStep.of_reparent (hu : (T'.ctl q).state = .unused ↔ (T.ctl q).state = .unused)
    (h : Ctl.SameId ((T.reparent p).ctl q) (T'.ctl q)) : SlotStep T (.exit p) T' q := by
  by_cases hs : (T.ctl q).state = .unused
  · exact .unused hs (hu.mpr hs)
  by_cases hc : (T.ctl q).parent = some p
  · simp only [Tab.reparent, if_pos hc] at h
    exact .stays hs (mt hu.mp hs) h.pid h.isThread h.father h.tid (.inr ⟨p, rfl, hc, h.parent⟩)
  · simp only [Tab.reparent, if_neg hc] at h
    exact .stays hs (mt hu.mp hs) h.pid h.isThread h.father h.tid (.inl h.parent)

theorem Ctl.Awake.live {c : Ctl} (h : c.Awake) : c.Live := by
  rcases h with h | h <;> simp [Ctl.Live, h]

theorem Ctl.Woken.unused_iff {c d : Ctl} (h : Ctl.Woken c d) : d.state = .unused ↔ c.state = .unused := by
  rcases h with rfl | ⟨hs, rfl⟩
  · rfl
  · simp [hs]

theorem Ctl.Woken.sameId {c d : Ctl} (h : Ctl.Woken c d) : Ctl.SameId c d := by
  rcases h with rfl | ⟨-, rfl⟩
  · exact .refl _
  · exact ⟨rfl, rfl, rfl, rfl, rfl⟩

theorem Ctl.Woken.frame {c d : Ctl} (h : Ctl.Woken c d) : d.frame = c.frame := by
  rcases h with rfl | ⟨-, rfl⟩ <;> rfl

/-- **Every transition does one of four things to a slot.** -/
theorem TStep.slot (h : TStep T l T') (q : Slot) : SlotStep T l T' q := by
  cases h.ctl q with
  | same h _ => exact .of_unused_iff (by rw [h]) (h ▸ .refl _)
  | move _ hp hc hid _ _ _ => exact .of_sameId hp.live hc.live hid
  | killed _ h =>
    refine .of_unused_iff ?_ (by rw [h]; exact ⟨rfl, rfl, rfl, rfl, rfl⟩)
    rw [h]
    dsimp only
    split_ifs with hs <;> simp [hs]
  | block _ hp hc hid _ => exact .of_sameId (.of_running hp) (by simp [Ctl.Live, hc]) hid
  | failed _ hq h _ => exact .unused hq h
  | spawned hl hq _ _ => exact .born hl hq
  | exits hl hp _ hz _ hid =>
    subst hl
    refine .of_reparent ?_ hid
    simp [hp, hz]
  | bystander hl _ hw =>
    subst hl
    exact .of_reparent (hw.unused_iff.trans (by rw [Tab.reparent_state])) hw.sameId
  | threadExits _ hp _ hz _ hid => exact .of_sameId (.of_running hp) (.of_zombie hz) hid
  | woken _ _ h =>
    refine .of_unused_iff ?_ ?_
    · rw [h]
      split_ifs with hs <;> simp [hs]
    · rw [h]
      split_ifs <;> exact ⟨rfl, rfl, rfl, rfl, rfl⟩
  | reaps _ hp hc hid _ => exact .of_sameId (.of_running hp) (.of_running hc) hid
  | reaped hl hz h => exact .freed hl hz (by rw [h]; rfl)

/-! ## Birth -/

/-- Event `e` is a successful `fork` (`th` false) or `thread_create` (`th` true) of `p` that fills slot `q`. -/
structure Makes (e : KEv) (p q : Slot) (th : Bool) : Prop where
  call : e.act.creates e.pre = some (p, th)
  caller : (e.pre.proc p).state = .running
  before : (e.pre.proc q).state = .unused
  out : e.out = some e.pre.nextpid
  pid : (e.post.proc q).pid = e.pre.nextpid
  state : (e.post.proc q).state = .runnable
  parent : (e.post.proc q).parent = some p
  isThread : (e.post.proc q).isThread = th
  father : (e.post.proc q).father = if th then groupLeader e.pre p else none
  tid : (e.post.proc q).tid = if th then e.pre.nextpid else 0

theorem TStep.spawn_ctl {th : Bool} (h : TStep T (.spawn p q th) T') :
    (T.ctl p).state = .running ∧ (T.ctl q).state = .unused ∧ T'.nextpid = int32 (T.nextpid + 1) ∧
    (∀ i, i ≠ q → T'.ctl i = T.ctl i) ∧ (th = true → (T.leader p).isSome) ∧
    T'.ctl q = { T.ctl q with
      state := .runnable, pid := T.nextpid, parent := some p, isThread := th,
      father := if th then T.leader p else none, tid := if th then T.nextpid else 0, frame := .user } := by
  cases h with
  | @spawn _ _ _ f hp hq hf =>
    have hf' : f = if th then T.leader p else none := by
      cases th with
      | false => simpa using hf
      | true =>
        obtain ⟨s, rfl, hs⟩ : ∃ s, f = some s ∧ T.leader p = some s := by simpa using hf
        simp [hs]
    refine ⟨hp, hq, rfl, fun i hi => Tab.set_of_ne _ _ hi, fun hth => ?_, ?_⟩
    · subst hth
      obtain ⟨s, -, hs⟩ : ∃ s, f = some s ∧ T.leader p = some s := by simpa using hf
      simp [hs]
    · rw [← hf']
      exact Tab.set_self _ _ _

theorem TStep.makes {th : Bool} (h : TStep k.tab (.spawn p q th) k'.tab) (hs : (TLab.spawn p q th).Shows k a o) :
    Makes ⟨k, a, o, k'⟩ p q th := by
  obtain ⟨hp, hq, -, -, -, hc⟩ := h.spawn_ctl
  exact {
    call := hs.1
    caller := hp
    before := hq
    out := hs.2.1
    pid := congrArg Ctl.pid hc
    state := congrArg Ctl.state hc
    parent := congrArg Ctl.parent hc
    isThread := congrArg Ctl.isThread hc
    father := congrArg Ctl.father hc
    tid := congrArg Ctl.tid hc }

/-- The table after boot: the first process and nothing else. -/
theorem boot_tab (h : Boot k) :
    (k.proc k.initproc).ctl = ⟨.runnable, none, 1, none, false, none, 0, .user⟩ ∧ k.nextpid = 2 ∧
    ∀ i, i ≠ k.initproc → (k.proc i).ctl = ⟨.unused, none, 0, none, false, none, 0, .user⟩ := by
  obtain ⟨m0, root, tf, pt0, pt, m1, m2, m, -, -, -, -, -, -, hn, hp⟩ := boot_inv h
  refine ⟨?_, hn, fun i hi => ?_⟩
  · rw [hp, Function.update_self]
    rfl
  · rw [hp, Function.update_of_ne hi]
    rfl

theorem TStep.initproc_eq (h : TStep T l T') : T'.initproc = T.initproc := by
  cases h with
  | exit _ _ hi _ _ _ _ _ => exact hi
  | _ => rfl

/-- Slot `q` holds a process with this pid. -/
def Alive (q : Slot) (pid : ℤ) (k : Kernel) : Prop := (k.proc q).state ≠ .unused ∧ (k.proc q).pid = pid

/-- **Every process was made by one event**, and has been in its slot since. -/
theorem exists_born {ok : Kernel → Action → Prop} {tr : Trace} (h0 : Boot k0) (h : Run Step ok k0 tr k) (q : Slot)
    (hq : (k.proc q).state ≠ .unused) (hi : q ≠ k.initproc) :
    ∃ e p, ∃ th, Makes e p q th ∧ Since tr e (Alive q e.pre.nextpid) ∧ (k.proc q).isThread = th ∧
      (k.proc q).father = (e.post.proc q).father ∧ (k.proc q).tid = (e.post.proc q).tid := by
  induction h with
  | nil =>
    have hz : (k0.proc q).state = .unused := congrArg Ctl.state ((boot_tab h0).2.2 q hi)
    exact absurd hz hq
  | @snoc tr k k' a o hrun _ hst ih =>
    obtain ⟨l, ht, hs⟩ := step_tab hst
    have hinit : k'.initproc = k.initproc := ht.initproc_eq
    cases ht.slot q with
    | stays hl hl' hpid hthr hfather htid _ =>
      obtain ⟨e, p, th, hm, hsince, h1, h2, h3⟩ := ih hl (hinit ▸ hi)
      exact ⟨e, p, th, hm, hsince.snoc ⟨hl', hpid.trans (hsince.last hrun).2⟩, hthr.trans h1, hfather.trans h2, htid.trans h3⟩
    | unused _ h' => exact absurd h' hq
    | @born p th hl hu =>
      subst hl
      have hm := ht.makes hs
      exact ⟨_, p, th, hm, .start ⟨hq, hm.pid⟩, hm.isThread, rfl, rfl⟩
    | freed _ _ h' => exact absurd h' hq

end OsLabs.Xv6
