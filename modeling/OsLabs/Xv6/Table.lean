import OsLabs.Xv6.Steps

/-!
# OsLabs.Xv6.Table — what a step does to the process table

The control view of the kernel: of every slot the scheduling state, the identity (pid, parent, thread group) and which call the
process is in, without memory and files.  `TStep` lists the nine things that can happen to it; `step_tab` says that every
step of the kernel is one of them.  The claims about groups, joins, wakeups and parents are proved over `TStep` alone.
-/

namespace OsLabs.Xv6

open Fallible

/-- Which call a process is in, without the data of that call. -/
inductive CFrame
  | user
  | wait
  | join (tid : ℤ) (leader : Option Slot)
  | exit
  | threadExit
  | exec
deriving DecidableEq

def Frame.tag : Frame → CFrame
  | .user => .user
  | .wait _ => .wait
  | .join tid leader => .join tid leader
  | .exit _ => .exit
  | .threadExit => .threadExit
  | .exec _ _ => .exec

theorem Frame.tag_join {fr : Frame} {tid : ℤ} {x : Option Slot} : fr.tag = .join tid x ↔ fr = .join tid x := by
  cases fr <;> simp [Frame.tag]

/-- The control part of a `struct proc`. -/
structure Ctl where
  state : ProcState
  chan : Option Slot
  pid : ℤ
  parent : Option Slot
  isThread : Bool
  father : Option Slot
  tid : ℤ
  frame : CFrame

def Proc.ctl (P : Proc) : Ctl := ⟨P.state, P.chan, P.pid, P.parent, P.isThread, P.father, P.tid, P.frame.tag⟩

namespace Ctl

/-- On a CPU or ready for one. -/
def Awake (c : Ctl) : Prop := c.state = .runnable ∨ c.state = .running

def Live (c : Ctl) : Prop := c.state ≠ .unused

theorem Live.of_running {c : Ctl} (h : c.state = .running) : c.Live := by simp [Live, h]

theorem Live.of_zombie {c : Ctl} (h : c.state = .zombie) : c.Live := by simp [Live, h]

/-- The same incarnation of the same process: only scheduling data differs. -/
structure SameId (c d : Ctl) : Prop where
  pid : d.pid = c.pid
  parent : d.parent = c.parent
  isThread : d.isThread = c.isThread
  father : d.father = c.father
  tid : d.tid = c.tid

theorem SameId.refl (c : Ctl) : SameId c c := ⟨rfl, rfl, rfl, rfl, rfl⟩

/-- As it was, or asleep before and ready now. -/
def Woken (c d : Ctl) : Prop := d = c ∨ c.state = .sleeping ∧ d = { c with state := .runnable }

/-- What `freeproc` and `freeproc_thread` leave in a slot. -/
def clear (c : Ctl) : Ctl := ⟨.unused, none, 0, none, false, none, 0, c.frame⟩

end Ctl

/-- The process table. -/
@[ext] structure Tab where
  ctl : Slot → Ctl
  initproc : Slot
  nextpid : ℤ

def Kernel.tab (k : Kernel) : Tab := ⟨fun i => (k.proc i).ctl, k.initproc, k.nextpid⟩

namespace Tab

def set (T : Tab) (i : Slot) (c : Ctl) : Tab := { T with ctl := Function.update T.ctl i c }

/-- The leader of `p`'s group. -/
def leader (T : Tab) (p : Slot) : Option Slot := if (T.ctl p).isThread then (T.ctl p).father else some p

def wakeup (T : Tab) (self : Slot) (c : Option Slot) : Tab :=
  { T with ctl := fun i =>
      if i ≠ self ∧ (T.ctl i).state = .sleeping ∧ (T.ctl i).chan = c then { T.ctl i with state := .runnable } else T.ctl i }

def reparent (T : Tab) (p : Slot) : Tab :=
  { T with ctl := fun i =>
      if (T.ctl i).parent = some p then { T.ctl i with parent := some T.initproc } else T.ctl i }

@[simp] theorem set_initproc (T : Tab) (i : Slot) (c : Ctl) : (T.set i c).initproc = T.initproc := rfl

@[simp] theorem set_nextpid (T : Tab) (i : Slot) (c : Ctl) : (T.set i c).nextpid = T.nextpid := rfl

@[simp] theorem set_self (T : Tab) (i : Slot) (c : Ctl) : (T.set i c).ctl i = c := by simp [set]

theorem set_of_ne (T : Tab) {i j : Slot} (c : Ctl) (h : j ≠ i) : (T.set i c).ctl j = T.ctl j := by
  simp [set, Function.update_of_ne h]

theorem set_eq_self (T : Tab) (i : Slot) : T.set i (T.ctl i) = T := by
  simp [set]

@[simp] theorem set_set (T : Tab) (i : Slot) (c d : Ctl) : (T.set i c).set i d = T.set i d := by
  simp [set]

theorem set_comm (T : Tab) {i j : Slot} (h : i ≠ j) (c d : Ctl) : (T.set i c).set j d = (T.set j d).set i c := by
  simp only [set, Tab.mk.injEq, and_self, and_true]
  exact Function.update_comm h _ _ _

theorem reparent_frame (T : Tab) (p q : Slot) : ((T.reparent p).ctl q).frame = (T.ctl q).frame := by
  simp only [reparent]
  split_ifs <;> rfl

theorem reparent_state (T : Tab) (p q : Slot) : ((T.reparent p).ctl q).state = (T.ctl q).state := by
  simp only [reparent]
  split_ifs <;> rfl

end Tab

/-- The kinds of transitions of the process table. -/
inductive TLab
  /-- Only scheduling data of `p` changes and `p` stays awake. -/
  | move (p : Slot)
  | kill (i : Slot)
  | block (p : Slot)
  | failSpawn (q : Slot)
  | spawn (p q : Slot) (thread : Bool)
  | exit (p : Slot)
  | threadExit (p : Slot)
  | joinReap (p q : Slot)
  | waitReap (p q : Slot)

/-- **The transitions of the process table.** -/
inductive TStep (T : Tab) : TLab → Tab → Prop
  | move {p : Slot} {c : Ctl} (hp : (T.ctl p).Awake) (hc : c.Awake) (hid : Ctl.SameId (T.ctl p) c)
      (hexit : c.frame = .exit → (T.ctl p).frame = .exit ∨ p ≠ T.initproc)
      (hthr : c.frame = .threadExit → (T.ctl p).frame = .threadExit ∨ (T.ctl p).isThread = true)
      (hjoin : ∀ tid l, c.frame = .join tid l → (T.ctl p).frame = .join tid l) :
      TStep T (.move p) (T.set p c)
  | kill {i : Slot} :
      TStep T (.kill i) (T.set i { T.ctl i with
        state := if (T.ctl i).state = .sleeping then .runnable else (T.ctl i).state })
  /-- `sleep` in the loop of `wait` or of `thread_join`. -/
  | block {p : Slot} {c : Ctl} (hp : (T.ctl p).state = .running) (hc : c.state = .sleeping)
      (hid : Ctl.SameId (T.ctl p) c)
      (hfr : c.frame = .wait ∨ ∃ tid l q, c.frame = .join tid l ∧ c.chan = some q ∧ (T.ctl q).Live ∧
        (T.ctl q).state ≠ .zombie ∧ (T.ctl q).isThread = true ∧ (T.ctl q).father = l ∧ (T.ctl q).tid = tid ∧
        (l = T.leader p ∨ (T.ctl p).frame = .join tid l)) :
      TStep T (.block p) (T.set p c)
  /-- `fork` or `thread_create` used up a pid and gave the slot back. -/
  | failSpawn {q : Slot} {f : CFrame} (hq : (T.ctl q).state = .unused) :
      TStep T (.failSpawn q) { T.set q { (T.ctl q).clear with frame := f } with nextpid := int32 (T.nextpid + 1) }
  | spawn {p q : Slot} {th : Bool} {l : Option Slot} (hp : (T.ctl p).state = .running) (hq : (T.ctl q).state = .unused)
      (hl : if th then ∃ s, l = some s ∧ T.leader p = some s else l = none) :
      TStep T (.spawn p q th) { T.set q { T.ctl q with
        state := .runnable, pid := T.nextpid, parent := some p, isThread := th, father := l,
        tid := if th then T.nextpid else 0, frame := .user } with nextpid := int32 (T.nextpid + 1) }
  /-- The end of `exit`: children go to init, sleepers may wake up, `p` is a zombie. -/
  | exit {p : Slot} {T' : Tab} (hp : (T.ctl p).state = .running) (hfr : (T.ctl p).frame = .exit)
      (hinit : T'.initproc = T.initproc) (hpid : T'.nextpid = T.nextpid)
      (hz : (T'.ctl p).state = .zombie) (hfr' : (T'.ctl p).frame = .exit)
      (hid : Ctl.SameId ((T.reparent p).ctl p) (T'.ctl p))
      (hj : ∀ j, j ≠ p → Ctl.Woken ((T.reparent p).ctl j) (T'.ctl j)) :
      TStep T (.exit p) T'
  /-- The end of `thread_exit`: every sleeper on `p` wakes up, `p` is a zombie. -/
  | threadExit {p : Slot} {c : Ctl} (hp : (T.ctl p).state = .running) (hfr : (T.ctl p).frame = .threadExit)
      (hc : c.state = .zombie) (hfr' : c.frame = .threadExit) (hid : Ctl.SameId (T.ctl p) c) :
      TStep T (.threadExit p) ((T.set p c).wakeup p (some p))
  | joinReap {p q : Slot} {c : Ctl} {l : Option Slot} (hp : (T.ctl p).state = .running) (hpq : p ≠ q)
      (hq : (T.ctl q).state = .zombie) (hqt : (T.ctl q).isThread = true) (hqf : (T.ctl q).father = l)
      (hl : l = T.leader p ∨ (T.ctl p).frame = .join (T.ctl q).tid l)
      (hc : c.state = .running) (hid : Ctl.SameId (T.ctl p) c) (hfr : c.frame = .user) :
      TStep T (.joinReap p q) ((T.set q (T.ctl q).clear).set p c)
  | waitReap {p q : Slot} {c : Ctl} (hp : (T.ctl p).state = .running) (hpq : p ≠ q)
      (hq : (T.ctl q).state = .zombie) (hqp : (T.ctl q).parent = some p)
      (hc : c.state = .running) (hid : Ctl.SameId (T.ctl p) c) (hfr : c.frame = .user) :
      TStep T (.waitReap p q) ((T.set q (T.ctl q).clear).set p c)

/-! ## What the actions are about -/

namespace Action

/-- The `thread_join(tid)` of `p` that an action runs, with its local `leader`. -/
def joinCall (k : Kernel) : Action → Option (Slot × ℤ × Option Slot)
  | .syscall p (.threadJoin t) _ => if (k.proc p).killed then none else some (p, int32 t, groupLeader k p)
  | .resume p _ _ => match (k.proc p).frame with
    | .join tid l => some (p, tid, l)
    | _ => none
  | _ => none

/-- The `wait(addr)` of `p` that an action runs. -/
def waitCall (k : Kernel) : Action → Option (Slot × ℕ)
  | .syscall p (.wait addr) _ => if (k.proc p).killed then none else some (p, addr)
  | .resume p _ _ => match (k.proc p).frame with
    | .wait addr => some (p, addr)
    | _ => none
  | _ => none

/-- The `fork` (false) or `thread_create` (true) of `p` that an action runs. -/
def creates (k : Kernel) : Action → Option (Slot × Bool)
  | .syscall p .fork _ => if (k.proc p).killed then none else some (p, false)
  | .syscall p (.threadCreate _ _ _) _ => if (k.proc p).killed then none else some (p, true)
  | _ => none

/-- The process whose `exit` an action completes. -/
def exits (k : Kernel) : Action → Option Slot
  | .resume p _ _ => match (k.proc p).frame with
    | .exit _ => some p
    | _ => none
  | _ => none

/-- The caller and the thread that the `thread_join` of an action frees. -/
def joinReaps (k : Kernel) (a : Action) : Option (Slot × Slot) :=
  match a.joinCall k with
  | none => none
  | some (p, tid, l) =>
    match joinTarget k tid l with
    | none => none
    | some q => if (k.proc q).state = .zombie then some (p, q) else none

/-- The caller and the child that the `wait` of an action frees: there is one, and its status can be copied out. -/
def waitReaps (k : Kernel) (a : Action) : Option (Slot × Slot) :=
  match a.waitCall k with
  | none => none
  | some (p, addr) =>
    match zombieChild k p with
    | none => none
    | some q =>
      match copyStatus (k.proc p).pagetable addr (k.proc q).xstate k.mem with
      | .ok (true, _) => some (p, q)
      | _ => none

end Action

/-- How a transition of the table shows in the action and in what it returns. -/
def TLab.Shows (k : Kernel) (a : Action) (o : Option ℤ) : TLab → Prop
  | .spawn p _ th => a.creates k = some (p, th) ∧ o = some k.nextpid ∧ a.joinCall k = none ∧ a.waitCall k = none
  | .failSpawn _ => (a.creates k).isSome ∧ o = some (-1) ∧ a.joinCall k = none ∧ a.waitCall k = none
  | .exit p => a.exits k = some p ∧ o = none
  | .joinReap p q => (∃ l, a.joinCall k = some (p, (k.proc q).tid, l)) ∧ a.joinReaps k = some (p, q) ∧
      o = some (k.proc q).tid ∧ a.waitCall k = none
  | .waitReap p q => a.waitReaps k = some (p, q) ∧ o = some (k.proc q).pid ∧ a.joinCall k = none
  | _ => (a.joinCall k).isSome ∨ (a.waitCall k).isSome ∨ (a.creates k).isSome → o = none ∨ o = some (-1)

/-! ## The view of each operation -/

variable {k k' : Kernel} {p q : Slot} {o : Option ℤ} {r : ℤ}

namespace Kernel

@[simp] theorem tab_setProc (k : Kernel) (i : Slot) (P : Proc) : (k.setProc i P).tab = k.tab.set i P.ctl := by
  simp only [tab, Tab.set, Tab.mk.injEq, setProc_initproc, setProc_nextpid, and_true]
  funext j
  by_cases hj : j = i
  · subst hj
    simp
  · simp [setProc_of_ne _ _ hj, hj]

@[simp] theorem tab_setMem (k : Kernel) (m : Kmem) : (k.setMem m).tab = k.tab := rfl

@[simp] theorem tab_setFs (k : Kernel) (fs : Files) : (k.setFs fs).tab = k.tab := rfl

@[simp] theorem tab_setAnswers (k : Kernel) (as : List Pa) : (k.setAnswers as).tab = k.tab := rfl

@[simp] theorem tab_bumpPid (k : Kernel) : k.bumpPid.tab = { k.tab with nextpid := int32 (k.nextpid + 1) } := rfl

@[simp] theorem tab_ctl (k : Kernel) (i : Slot) : k.tab.ctl i = (k.proc i).ctl := rfl

@[simp] theorem tab_initproc (k : Kernel) : k.tab.initproc = k.initproc := rfl

@[simp] theorem tab_nextpid (k : Kernel) : k.tab.nextpid = k.nextpid := rfl

theorem tab_leader (k : Kernel) (p : Slot) : k.tab.leader p = groupLeader k p := rfl

end Kernel

theorem PtOnly.tab (h : PtOnly k k') : k'.tab = k.tab := by
  obtain ⟨f, m, rfl⟩ := h
  rfl

theorem setGroupSz_tab (k : Kernel) (l : Slot) (sz : ℕ) : (setGroupSz k l sz).tab = k.tab := by
  simp only [Kernel.tab, setGroupSz, Tab.mk.injEq, and_true]
  funext i
  split_ifs <;> rfl

theorem wakeup_tab (k : Kernel) (self : Slot) (c : Option Slot) : (wakeup k self c).tab = k.tab.wakeup self c := by
  simp only [Kernel.tab, Tab.wakeup, wakeup, Tab.mk.injEq, and_true]
  funext i
  exact apply_ite Proc.ctl _ _ _

theorem reparent_tab (k : Kernel) (p : Slot) :
    (reparent k p).tab = k.tab.reparent p ∨ (reparent k p).tab = (k.tab.reparent p).wakeup p (some k.initproc) := by
  have hk : Kernel.tab { k with proc := fun i =>
      if (k.proc i).parent = some p then { k.proc i with parent := some k.initproc } else k.proc i } =
      k.tab.reparent p := by
    simp only [Kernel.tab, Tab.reparent, Tab.mk.injEq, and_true]
    funext i
    exact apply_ite Proc.ctl _ _ _
  unfold reparent
  dsimp only
  split_ifs
  · exact .inr (by rw [wakeup_tab, hk])
  · exact .inl hk

theorem Tab.wakeup_woken (T : Tab) (self : Slot) (c : Option Slot) (i : Slot) :
    Ctl.Woken (T.ctl i) ((T.wakeup self c).ctl i) := by
  simp only [Tab.wakeup]
  split_ifs with h
  · exact .inr ⟨h.2.1, rfl⟩
  · exact .inl rfl

theorem Tab.wakeup_self (T : Tab) (self : Slot) (c : Option Slot) : (T.wakeup self c).ctl self = T.ctl self := by
  simp [Tab.wakeup]

theorem Ctl.Woken.trans {c d e : Ctl} (h1 : Ctl.Woken c d) (h2 : Ctl.Woken d e) : Ctl.Woken c e := by
  rcases h1 with rfl | ⟨hs, rfl⟩
  · exact h2
  · rcases h2 with rfl | ⟨hs', -⟩
    · exact .inr ⟨hs, rfl⟩
    · cases hs'

/-- The end of `exit`: the children go to init and sleepers may wake up. -/
theorem exitEnd_tab (k : Kernel) (p : Slot) (st : ℤ) :
    (exitEnd k p st).tab.ctl p = { (k.tab.reparent p).ctl p with state := .zombie } ∧
    (∀ j, j ≠ p → Ctl.Woken ((k.tab.reparent p).ctl j) ((exitEnd k p st).tab.ctl j)) ∧
    (exitEnd k p st).initproc = k.initproc ∧ (exitEnd k p st).nextpid = k.nextpid := by
  have hr : (∀ j, Ctl.Woken ((k.tab.reparent p).ctl j) ((reparent k p).tab.ctl j)) ∧
      (reparent k p).tab.ctl p = (k.tab.reparent p).ctl p ∧ (reparent k p).tab.initproc = k.initproc ∧
      (reparent k p).tab.nextpid = k.nextpid := by
    rcases reparent_tab k p with h | h
    · rw [h]
      exact ⟨fun j => .inl rfl, rfl, rfl, rfl⟩
    · rw [h]
      exact ⟨fun j => Tab.wakeup_woken _ _ _ j, Tab.wakeup_self _ _ _, rfl, rfl⟩
  obtain ⟨hw, hp, hi, hn⟩ := hr
  have hctl : (wakeup (reparent k p) p ((reparent k p).proc p).parent).tab.ctl p = (k.tab.reparent p).ctl p := by
    rw [wakeup_tab, Tab.wakeup_self, hp]
  refine ⟨?_, fun j hj => ?_, hi, hn⟩
  · unfold exitEnd
    dsimp only
    rw [Kernel.tab_setProc, Tab.set_self, ← hctl]
    rfl
  · unfold exitEnd
    dsimp only
    rw [Kernel.tab_setProc, Tab.set_of_ne _ _ hj, wakeup_tab]
    exact (hw j).trans (Tab.wakeup_woken _ _ _ j)

theorem Proc.freed_ctl (P : Proc) : P.freed.ctl = P.ctl.clear := rfl

theorem Proc.freedThread_ctl (P : Proc) : P.freedThread.ctl = P.ctl.clear := rfl

/-- `allocproc` that fails uses up a pid at most. -/
theorem AllocRes.tab_none (h : AllocRes k none k') :
    k' = k ∨ ∃ q fr, (k.proc q).state = .unused ∧
      k'.tab = { k.tab.set q { (k.proc q).ctl.clear with frame := fr } with nextpid := int32 (k.nextpid + 1) } := by
  cases h with
  | noSlot h => exact .inl rfl
  | @noTrapframe q m1 m hi h1 h2 => exact .inr ⟨q, (k.proc q).frame.tag, hi, Kernel.tab_setProc _ _ _⟩
  | @noPagetable q tf m1 m2 m hi h1 h2 h3 => exact .inr ⟨q, (k.proc q).frame.tag, hi, Kernel.tab_setProc _ _ _⟩

theorem AllocRes.unused {np : Slot} (h : AllocRes k (some np) k') : (k.proc np).state = .unused := by
  cases h with
  | ok hi _ _ => exact hi

/-- The slot that `allocproc` hands out. -/
theorem AllocRes.proc_self {np : Slot} (h : AllocRes k (some np) k') :
    ∃ tf pt, k'.proc np = (k.proc np).allocated k.nextpid tf pt := by
  cases h with
  | @ok _ tf pt m1 m hi h1 h2 => exact ⟨tf, pt, Kernel.setProc_self _ _ _⟩

theorem AllocRes.proc_of_ne {np i : Slot} (h : AllocRes k (some np) k') (hi : i ≠ np) : k'.proc i = k.proc i := by
  cases h with
  | ok _ _ _ => exact Kernel.setProc_of_ne _ _ hi

/-- Whatever is put into the slot that `allocproc` handed out, the rest of the table only has a newer `nextpid`. -/
theorem AllocRes.tab_set {np : Slot} (h : AllocRes k (some np) k') (P : Proc) :
    (k'.setProc np P).tab = { k.tab.set np P.ctl with nextpid := int32 (k.nextpid + 1) } := by
  cases h with
  | ok _ _ _ =>
    rw [Kernel.setProc_setProc, Kernel.tab_setProc]
    rfl

/-! ## Every step is a transition of the table -/

/-- A step that leaves the table as it was. -/
theorem TStep.idle (hp : (k.proc p).state = .running) (h : k'.tab = k.tab) : TStep k.tab (.move p) k'.tab := by
  have hm : TStep k.tab (.move p) (k.tab.set p (k.tab.ctl p)) :=
    .move (.inr hp) (.inr hp) (.refl _) .inl .inl fun _ _ => id
  rw [Tab.set_eq_self] at hm
  rw [h]
  exact hm

/-- A step that puts its process into another call, or back into user space. -/
theorem TStep.enter (fr : CFrame) (c : Option Slot) (hp : (k.proc p).state = .running)
    (h : k'.tab = k.tab.set p { (k.proc p).ctl with chan := c, frame := fr })
    (hexit : fr = .exit → (k.proc p).frame.tag = .exit ∨ p ≠ k.initproc)
    (hthr : fr = .threadExit → (k.proc p).frame.tag = .threadExit ∨ (k.proc p).isThread = true)
    (hjoin : ∀ tid l, fr ≠ .join tid l) : TStep k.tab (.move p) k'.tab := by
  rw [h]
  exact .move (.inr hp) (.inr hp) ⟨rfl, rfl, rfl, rfl, rfl⟩ hexit hthr fun tid l h => absurd h (hjoin tid l)

theorem closeFiles_tab {fr : Frame} (h : closeFiles k p fr = .ok k') :
    k'.tab = k.tab.set p { (k.proc p).ctl with frame := fr.tag } := by
  obtain ⟨fs, m, -, rfl⟩ := closeFiles_inv h
  exact Kernel.tab_setProc _ _ _

theorem Kernel.tidy_tab (k : Kernel) (p : Slot) (as : List Pa) :
    (k.tidy p as).tab = k.tab.set p { (k.proc p).ctl with chan := none } :=
  Kernel.tab_setProc _ _ _

/-- A round of `thread_join` that starts in `k0`, the state `k` up to the caller's channel. -/
theorem JoinRes.tab {k0 : Kernel} {c : Option Slot} {tid : ℤ} {l : Option Slot} (h : JoinRes k0 p tid l o k')
    (h0 : k0.tab = k.tab.set p { (k.proc p).ctl with chan := c }) (hp : (k.proc p).state = .running)
    (hl : l = groupLeader k p ∨ (k.proc p).frame = .join tid l) :
    (TStep k.tab (.move p) k'.tab ∧ o = some (-1)) ∨ (TStep k.tab (.block p) k'.tab ∧ o = none) ∨
    ∃ q, TStep k.tab (.joinReap p q) k'.tab ∧ joinTarget k0 tid l = some q ∧ (k.proc q).state = .zombie ∧
      (k.proc q).tid = tid ∧ o = some (k.proc q).tid := by
  have hself : (k0.proc p).ctl = { (k.proc p).ctl with chan := c } := by
    rw [← Kernel.tab_ctl, h0, Tab.set_self]
  have hother : ∀ q, q ≠ p → (k0.proc q).ctl = (k.proc q).ctl := fun q hq => by
    rw [← Kernel.tab_ctl, h0, Tab.set_of_ne _ _ hq, Kernel.tab_ctl]
  have hl' : l = k.tab.leader p ∨ (k.tab.ctl p).frame = .join tid l := by
    rcases hl with hl | hl
    · exact .inl hl
    · exact .inr (by simp [Proc.ctl, hl, Frame.tag])
  cases h with
  | gone h =>
    refine .inl ⟨TStep.enter .user c hp ?_ (by simp) (by simp) (by simp), rfl⟩
    have hc : Proc.ctl { k0.proc p with frame := .user } = { (k0.proc p).ctl with frame := .user } := rfl
    rw [Kernel.tab_setProc, hc, hself, h0, Tab.set_set]
  | @reap q m ht hz hpq hm =>
    obtain ⟨-, hqt, hqf, hqi⟩ := joinTarget_some ht
    have hq := hother q (Ne.symm hpq)
    have hz' : (k.proc q).state = .zombie := (congrArg Ctl.state hq).symm.trans hz
    have htid : (k.proc q).tid = (k0.proc q).tid := (congrArg Ctl.tid hq).symm
    refine .inr (.inr ⟨q, ?_, ht, hz', htid.trans hqi, by rw [htid]⟩)
    have hc : Proc.ctl { k0.proc p with frame := .user } = { (k0.proc p).ctl with frame := .user } := rfl
    rw [Kernel.tab_setProc, Kernel.tab_setProc, Kernel.tab_setMem, h0, hc, hself, Proc.freedThread_ctl, hq,
      Tab.set_comm _ hpq, Tab.set_set]
    refine TStep.joinReap (l := l) hp hpq hz' ((congrArg Ctl.isThread hq).symm.trans hqt)
      ((congrArg Ctl.father hq).symm.trans hqf) ?_ hp ⟨rfl, rfl, rfl, rfl, rfl⟩ rfl
    rcases hl' with hl' | hl'
    · exact .inl hl'
    · exact .inr (by rw [hl', ← hqi, ← htid]; rfl)
  | @sleep q ht hz =>
    obtain ⟨hlive, hqt, hqf, hqi⟩ := joinTarget_some ht
    refine .inr (.inl ⟨?_, rfl⟩)
    have hc : Proc.ctl { k0.proc p with chan := some q, state := .sleeping, frame := .join tid l } =
        { (k0.proc p).ctl with chan := some q, state := .sleeping, frame := .join tid l } := rfl
    rw [Kernel.tab_setProc, h0, hc, hself, Tab.set_set]
    refine .block hp rfl ⟨rfl, rfl, rfl, rfl, rfl⟩ (.inr ⟨tid, l, q, rfl, rfl, ?_⟩)
    -- the target's control data is the same in `k0` and in `k`, up to the channel when it is the caller itself
    have hsame : (k.tab.ctl q).state = (k0.proc q).state ∧ (k.tab.ctl q).isThread = (k0.proc q).isThread ∧
        (k.tab.ctl q).father = (k0.proc q).father ∧ (k.tab.ctl q).tid = (k0.proc q).tid := by
      by_cases hqp : q = p
      · subst hqp
        exact ⟨(congrArg Ctl.state hself).symm, (congrArg Ctl.isThread hself).symm,
          (congrArg Ctl.father hself).symm, (congrArg Ctl.tid hself).symm⟩
      · have hq := hother q hqp
        exact ⟨(congrArg Ctl.state hq).symm, (congrArg Ctl.isThread hq).symm, (congrArg Ctl.father hq).symm,
          (congrArg Ctl.tid hq).symm⟩
    obtain ⟨h1, h2, h3, h4⟩ := hsame
    rw [Ctl.Live, h1, h2, h3, h4]
    exact ⟨hlive, hz, hqt, hqf, hqi, hl'⟩

/-- A round of `wait` that starts in `k0`, the state `k` up to the caller's channel. -/
theorem WaitRes.tab {k0 : Kernel} {c : Option Slot} {addr : ℕ} (h : WaitRes k0 p addr o k')
    (h0 : k0.tab = k.tab.set p { (k.proc p).ctl with chan := c }) (hp : (k.proc p).state = .running) :
    (TStep k.tab (.move p) k'.tab ∧ o = some (-1)) ∨ (TStep k.tab (.block p) k'.tab ∧ o = none) ∨
    ∃ q m, TStep k.tab (.waitReap p q) k'.tab ∧ p ≠ q ∧ zombieChild k0 p = some q ∧ o = some (k.proc q).pid ∧
      copyStatus (k0.proc p).pagetable addr (k0.proc q).xstate k0.mem = .ok (true, m) := by
  have hself : (k0.proc p).ctl = { (k.proc p).ctl with chan := c } := by
    rw [← Kernel.tab_ctl, h0, Tab.set_self]
  have hc : Proc.ctl { k0.proc p with frame := .user } = { (k0.proc p).ctl with frame := .user } := rfl
  cases h with
  | badAddr _ _ =>
    refine .inl ⟨TStep.enter .user c hp ?_ (by simp) (by simp) (by simp), rfl⟩
    rw [Kernel.tab_setProc, Kernel.tab_setMem, hc, hself, h0, Tab.set_set]
  | nobody _ =>
    refine .inl ⟨TStep.enter .user c hp ?_ (by simp) (by simp) (by simp), rfl⟩
    rw [Kernel.tab_setProc, hc, hself, h0, Tab.set_set]
  | @reap q m1 m hz hpq hcs hm =>
    obtain ⟨hqp, hqz⟩ := zombieChild_some hz
    have hq : (k0.proc q).ctl = (k.proc q).ctl := by
      rw [← Kernel.tab_ctl, h0, Tab.set_of_ne _ _ (Ne.symm hpq), Kernel.tab_ctl]
    refine .inr (.inr ⟨q, m1, ?_, hpq, hz, by rw [show (k.proc q).pid = (k0.proc q).pid from (congrArg Ctl.pid hq).symm], hcs⟩)
    rw [Kernel.tab_setProc, Kernel.tab_setProc, Kernel.tab_setMem, h0, hc, hself, Proc.freed_ctl, hq,
      Tab.set_comm _ hpq, Tab.set_set]
    exact .waitReap hp hpq ((congrArg Ctl.state hq).symm.trans hqz) ((congrArg Ctl.parent hq).symm.trans hqp) hp
      ⟨rfl, rfl, rfl, rfl, rfl⟩ rfl
  | sleep _ =>
    refine .inr (.inl ⟨?_, rfl⟩)
    have hc : Proc.ctl { k0.proc p with chan := some p, state := .sleeping, frame := .wait addr } =
        { (k0.proc p).ctl with chan := some p, state := .sleeping, frame := .wait } := rfl
    rw [Kernel.tab_setProc, h0, hc, hself, Tab.set_set]
    exact .block hp rfl ⟨rfl, rfl, rfl, rfl, rfl⟩ (.inl rfl)

/-- What a call that makes a process or a thread does to the table. -/
def SpawnTab (k : Kernel) (p : Slot) (th : Bool) (r : ℤ) (k' : Kernel) : Prop :=
  (k' = k ∧ r = -1) ∨ (∃ q, TStep k.tab (.failSpawn q) k'.tab ∧ r = -1) ∨
    ∃ q, TStep k.tab (.spawn p q th) k'.tab ∧ r = k.nextpid

theorem AllocRes.spawnTab {th : Bool} (h : AllocRes k none k') : SpawnTab k p th (-1) k' := by
  rcases h.tab_none with rfl | ⟨q, fr, hq, ht⟩
  · exact .inl ⟨rfl, rfl⟩
  · refine .inr (.inl ⟨q, ?_, rfl⟩)
    rw [ht]
    exact .failSpawn hq

/-- The slot that `allocproc` handed out is given back. -/
theorem AllocRes.giveBack {th : Bool} {np : Slot} {k1 : Kernel} {m : Kmem} (h : AllocRes k (some np) k1) :
    SpawnTab k p th (-1) ((k1.setMem m).setProc np (k1.proc np).freed) := by
  obtain ⟨tf, pt, hnp⟩ := h.proc_self
  refine .inr (.inl ⟨np, ?_, rfl⟩)
  show TStep k.tab _ (k1.setProc np (k1.proc np).freed).tab
  rw [h.tab_set, hnp]
  exact .failSpawn (f := .user) h.unused

theorem ForkRes.tab (h : ForkRes k p r k') (hp : (k.proc p).state = .running) : SpawnTab k p false r k' := by
  cases h with
  | noSlot h => exact h.spawnTab
  | noCopy h _ _ _ => exact h.giveBack
  | @ok np k1 new new1 m1 c fs h _ _ _ _ =>
    obtain ⟨tf, pt, hnp⟩ := h.proc_self
    refine .inr (.inr ⟨np, ?_, by rw [hnp]; rfl⟩)
    show TStep k.tab _ (k1.setProc np _).tab
    rw [h.tab_set, hnp]
    exact .spawn (l := none) hp h.unused (by simp)

theorem ThreadRes.tab {fn arg retfn : ℕ} (h : ThreadRes k p fn arg retfn r k') (hp : (k.proc p).state = .running) :
    SpawnTab k p true r k' := by
  cases h with
  | noSlot h => exact h.spawnTab
  | noShare h _ _ _ _ => exact h.giveBack
  | noStack h _ _ _ _ _ => exact h.giveBack
  | @ok np leader k1 pt pt1 pt2 m1 m2 r c fs h hl _ _ _ _ _ _ =>
    obtain ⟨tf, pt, hnp⟩ := h.proc_self
    have hne : p ≠ np := h.ne (by rw [hp]; decide)
    have hl' : groupLeader k p = some leader := by
      rw [← hl]
      simp only [groupLeader, h.proc_of_ne hne]
    refine .inr (.inr ⟨np, ?_, by rw [hnp]; rfl⟩)
    show TStep k.tab _ (k1.setProc np _).tab
    rw [h.tab_set, hnp]
    exact .spawn (l := some leader) hp h.unused (by simpa [Kernel.tab_leader] using hl')

theorem GrowRes.tab {n : ℤ} (h : GrowRes k p n r k') : k'.tab = k.tab := by
  have hset : ∀ (l : Slot) (pt : Option PageTable) (m : Kmem),
      ((k.setMem m).setProc l { k.proc l with pagetable := pt }).tab = k.tab :=
    fun l pt m => (PtOnly.setPt k l pt m).tab
  cases h with
  | zero _ => rfl
  | nullGrow _ _ _ _ => rfl
  | nullShrink _ _ _ => exact setGroupSz_tab _ _ _
  | noMem _ _ _ _ => exact hset _ _ _
  | grow _ _ _ _ _ hb => rw [setGroupSz_tab, (broadcast_ptOnly hb).tab, hset]
  | shrink _ _ _ _ hb => rw [setGroupSz_tab, (unbroadcast_ptOnly hb).tab, hset]

theorem FileRes.tab (h : FileRes k p k') : k'.tab = k.tab := by
  have hset : ∀ (m : Kmem) (fs : Files) (of : Ofile),
      (((k.setMem m).setFs fs).setProc p { k.proc p with ofile := of }).tab = k.tab := fun m fs of => by
    rw [Kernel.tab_setProc]
    exact Tab.set_eq_self _ _
  cases h with
  | same => rfl
  | openBad => rfl
  | openNoFd _ _ => rfl
  | «open» _ _ _ _ _ => exact hset k.mem _ _
  | dup _ _ _ => exact hset k.mem _ _
  | close _ _ => exact hset _ _ _
  | noPipe _ => rfl
  | pipeBad _ _ _ _ => rfl
  | pipe _ _ _ _ => exact hset _ _ _

theorem kill_tab (k : Kernel) (pid : ℤ) : (kill k pid).2 = k ∨ ∃ i, TStep k.tab (.kill i) (kill k pid).2.tab := by
  unfold kill
  split
  · exact .inl rfl
  · rename_i i _
    refine .inr ⟨i, ?_⟩
    rw [Kernel.tab_setProc]
    exact .kill

theorem ExecBeginRes.tab (h : ExecBeginRes k p o k') :
    (k'.tab = k.tab ∧ o = some (-1)) ∨ k'.tab = k.tab.set p { (k.proc p).ctl with frame := .exec } := by
  cases h with
  | noHeader => exact .inl ⟨rfl, rfl⟩
  | noPagetable _ _ => exact .inl ⟨rfl, rfl⟩
  | ok _ _ => exact .inr (Kernel.tab_setProc _ _ _)

theorem ExecRes.tab {pt : PageTable} {sz : ℕ} (h : ExecRes k p pt sz o k') (hp : (k.proc p).frame = .exec pt sz) :
    ∃ fr, (fr = .user ∨ fr = .exec) ∧ k'.tab = k.tab.set p { (k.proc p).ctl with frame := fr } := by
  cases h with
  | skip =>
    refine ⟨.exec, .inr rfl, ?_⟩
    have : ({ (k.proc p).ctl with frame := .exec } : Ctl) = k.tab.ctl p := by
      simp [Proc.ctl, hp, Frame.tag]
    rw [this, Tab.set_eq_self]
  | seg _ _ _ => exact ⟨.exec, .inr rfl, Kernel.tab_setProc _ _ _⟩
  | bad _ => exact ⟨.user, .inl rfl, Kernel.tab_setProc _ _ _⟩
  | noMem _ _ => exact ⟨.user, .inl rfl, Kernel.tab_setProc _ _ _⟩
  | badLoad _ _ _ _ => exact ⟨.user, .inl rfl, Kernel.tab_setProc _ _ _⟩
  | noStack _ _ => exact ⟨.user, .inl rfl, Kernel.tab_setProc _ _ _⟩
  | badArgs _ _ _ _ _ => exact ⟨.user, .inl rfl, Kernel.tab_setProc _ _ _⟩
  | commit _ _ _ _ _ _ => exact ⟨.user, .inl rfl, Kernel.tab_setProc _ _ _⟩

/-- Whether `copyout` fails does not depend on what memory holds. -/
theorem copyout_fst (pt : PageTable) : ∀ (bs : List UInt8) (va : ℕ) (m m' : Kmem),
    (copyout pt va bs m).1 = (copyout pt va bs m').1
  | [], _, _, _ => rfl
  | b :: bs, va, m, m' => by
    unfold copyout
    split
    · rfl
    · exact copyout_fst pt bs _ _ _

theorem copyStatus_true {pt : Option PageTable} {addr : ℕ} {x : ℤ} {m m1 : Kmem} (m' : Kmem)
    (h : copyStatus pt addr x m = .ok (true, m1)) : ∃ m1', copyStatus pt addr x m' = .ok (true, m1') := by
  unfold copyStatus at h ⊢
  split_ifs at h ⊢
  · exact ⟨m', rfl⟩
  · cases pt with
    | none => cases h
    | some pt =>
      have hfst := copyout_fst pt (intBytes x) addr m' m
      rw [Except.ok.inj h] at hfst
      exact ⟨(copyout pt addr (intBytes x) m').2, congrArg Except.ok (Prod.ext hfst rfl)⟩

theorem joinTarget_tidy (k : Kernel) (p : Slot) (as : List Pa) (tid : ℤ) (l : Option Slot) :
    joinTarget (k.tidy p as) tid l = joinTarget k tid l := by
  unfold joinTarget
  congr 1
  funext q
  simp only [Kernel.tidy, Kernel.setProc_apply, Kernel.setAnswers_proc]
  split_ifs with h
  · subst h
    rfl
  · rfl

theorem zombieChild_tidy (k : Kernel) (p : Slot) (as : List Pa) : zombieChild (k.tidy p as) p = zombieChild k p := by
  unfold zombieChild
  congr 1
  funext q
  simp only [Kernel.tidy, Kernel.setProc_apply, Kernel.setAnswers_proc]
  split_ifs with h
  · subst h
    rfl
  · rfl

theorem setAnswers_tab_chan (k : Kernel) (p : Slot) (as : List Pa) :
    (k.setAnswers as).tab = k.tab.set p { (k.proc p).ctl with chan := (k.proc p).chan } :=
  (Tab.set_eq_self _ _).symm

/-- A `wait` that frees a child shows in the action. -/
theorem waitReaps_syscall {addr : ℕ} {as : List Pa} {m : Kmem} (hk : (k.proc p).killed = false) (hz : zombieChild k p = some q)
    (hc : copyStatus (k.proc p).pagetable addr (k.proc q).xstate (k.setAnswers as).mem = .ok (true, m)) :
    (Action.syscall p (.wait addr) as).waitReaps k = some (p, q) := by
  obtain ⟨m', hc'⟩ := copyStatus_true k.mem hc
  simp [Action.waitReaps, Action.waitCall, hk, hz, hc']

theorem waitReaps_resume {addr : ℕ} {as : List Pa} {m : Kmem} {inp : ExecInput} (hfr : (k.proc p).frame = .wait addr)
    (hp : (k.proc p).state = .running) (hz : zombieChild (k.tidy p as) p = some q)
    (hc : copyStatus ((k.tidy p as).proc p).pagetable addr ((k.tidy p as).proc q).xstate (k.tidy p as).mem = .ok (true, m)) :
    (Action.resume p inp as).waitReaps k = some (p, q) := by
  rw [zombieChild_tidy] at hz
  obtain ⟨m', hc'⟩ := copyStatus_true k.mem hc
  have hpq : q ≠ p := by
    rintro rfl
    exact absurd (hp.symm.trans (zombieChild_some hz).2) (by decide)
  rw [Kernel.tidy, Kernel.setProc_self, Kernel.setProc_of_ne _ _ hpq] at hc'
  simp only [Kernel.setAnswers_proc] at hc'
  simp [Action.waitReaps, Action.waitCall, hfr, hz, hc']

/-- A call that makes a process shows as such. -/
theorem SpawnTab.shows {a : Action} {k0 : Kernel} {th : Bool} (h : SpawnTab k0 p th r k') (h0 : k0.tab = k.tab)
    (hp : (k.proc p).state = .running) (hc : a.creates k = some (p, th)) (hj : a.joinCall k = none)
    (hw : a.waitCall k = none) : ∃ l, TStep k.tab l k'.tab ∧ l.Shows k a (some r) := by
  have hnext : k0.nextpid = k.nextpid := congrArg Tab.nextpid h0
  rcases h with ⟨rfl, rfl⟩ | ⟨q, ht, rfl⟩ | ⟨q, ht, rfl⟩
  · exact ⟨.move p, TStep.idle hp h0, fun _ => .inr rfl⟩
  · exact ⟨.failSpawn q, h0 ▸ ht, by rw [hc]; rfl, rfl, hj, hw⟩
  · exact ⟨.spawn p q th, h0 ▸ ht, hc, by rw [hnext], hj, hw⟩

/-- **Every step of the kernel is a transition of the process table**, and the action and the value it returns show which. -/
theorem step_tab {a : Action} (h : Step k a o k') : ∃ l, TStep k.tab l k'.tab ∧ l.Shows k a o := by
  have hdies : ∀ {k0 k1 : Kernel} {st : ℤ} {p : Slot}, (k.proc p).state = .running → p ≠ k.initproc →
      closeFiles k0 p (.exit st) = .ok k1 → k0.tab = k.tab → TStep k.tab (.move p) k1.tab := by
    intro k0 k1 st p hp hne hcl h0
    refine TStep.enter .exit (k.proc p).chan hp ?_ (fun _ => .inr hne) (by simp) (by simp)
    rw [closeFiles_tab hcl, h0, ← Kernel.tab_ctl, h0]
    rfl
  cases step_inv h with
  | @scheduler p hp =>
    refine ⟨.move p, ?_, fun _ => .inl rfl⟩
    rw [Kernel.tab_setProc]
    exact .move (.inl hp) (.inr rfl) ⟨rfl, rfl, rfl, rfl, rfl⟩ .inl .inl fun _ _ => id
  | @yield p hp =>
    refine ⟨.move p, ?_, fun _ => .inl rfl⟩
    rw [Kernel.tab_setProc]
    exact .move (.inr hp) (.inl rfl) ⟨rfl, rfl, rfl, rfl, rfl⟩ .inl .inl fun _ _ => id
  | @killed p _ _ _ hp _ _ hne hcl => exact ⟨.move p, hdies hp hne hcl rfl, fun _ => .inl rfl⟩
  | @fault p _ _ hp _ hne hcl =>
    refine ⟨.move p, hdies hp hne hcl ?_, fun _ => .inl rfl⟩
    rw [Kernel.tab_setProc]
    exact Tab.set_eq_self _ _
  | @leaderExit p _ _ hp _ _ hne hcl => exact ⟨.move p, hdies hp hne hcl rfl, fun _ => .inl rfl⟩
  | @exit p _ _ _ hp _ _ hne hcl => exact ⟨.move p, hdies hp hne hcl rfl, fun _ => .inl rfl⟩
  | @threadExit p _ _ hp _ _ ht hcl =>
    refine ⟨.move p, TStep.enter .threadExit (k.proc p).chan hp ?_ (by simp) (fun _ => .inr ht) (by simp),
      fun _ => .inl rfl⟩
    rw [closeFiles_tab hcl]
    rfl
  | @fork p _ _ _ hp _ hk hf =>
    exact (hf.tab hp).shows rfl hp (by simp [Action.creates, hk]) (by simp [Action.joinCall]) (by simp [Action.waitCall])
  | @threadCreate p _ _ _ _ _ _ hp _ hk hf =>
    exact (hf.tab hp).shows rfl hp (by simp [Action.creates, hk]) (by simp [Action.joinCall]) (by simp [Action.waitCall])
  | @exec p _ _ _ _ hp _ _ he =>
    refine ⟨.move p, ?_, by simp [TLab.Shows, Action.joinCall, Action.waitCall, Action.creates]⟩
    rcases he.tab with ⟨ht, -⟩ | ht
    · exact TStep.idle hp ht
    · exact TStep.enter .exec (k.proc p).chan hp ht (by simp) (by simp) (by simp)
  | @sbrk p _ _ _ _ _ hp _ _ hg =>
    exact ⟨.move p, TStep.idle hp hg.tab, by simp [TLab.Shows, Action.joinCall, Action.waitCall, Action.creates]⟩
  | @file p c _ _ _ hp _ _ hc hf =>
    refine ⟨.move p, TStep.idle hp hf.tab, ?_⟩
    cases c <;> simp_all [Syscall.onFiles, TLab.Shows, Action.joinCall, Action.waitCall, Action.creates]
  | @kill p pid as hp _ _ =>
    have hshow : ∀ o, ((Action.syscall p (.kill pid) as).joinCall k).isSome ∨
        ((Action.syscall p (.kill pid) as).waitCall k).isSome ∨
        ((Action.syscall p (.kill pid) as).creates k).isSome → o = none ∨ o = some (-1) := by
      simp [Action.joinCall, Action.waitCall, Action.creates]
    rcases kill_tab (k.setAnswers as) (int32 pid) with hk | ⟨i, hk⟩
    · exact ⟨.move p, TStep.idle hp (by rw [hk]; rfl), hshow _⟩
    · exact ⟨.kill i, hk, hshow _⟩
  | @threadJoin p tid as _ _ hp _ hk hj =>
    have hcall : (Action.syscall p (.threadJoin tid) as).joinCall k = some (p, int32 tid, groupLeader k p) := by
      simp [Action.joinCall, hk]
    rcases hj.tab (setAnswers_tab_chan k p as) hp (.inl rfl) with ⟨ht, rfl⟩ | ⟨ht, rfl⟩ | ⟨q, ht, hq, hz, htid, rfl⟩
    · exact ⟨_, ht, fun _ => .inr rfl⟩
    · exact ⟨_, ht, fun _ => .inl rfl⟩
    · refine ⟨_, ht, ⟨_, by rw [hcall, htid]⟩, ?_, rfl, rfl⟩
      have hq' : joinTarget k (int32 tid) (groupLeader k p) = some q := hq
      simp [Action.joinReaps, hcall, hq', hz]
  | @resumeJoin p inp as tid l _ _ hp hfr hj =>
    have hcall : (Action.resume p inp as).joinCall k = some (p, tid, l) := by
      simp [Action.joinCall, hfr]
    have hwait : (Action.resume p inp as).waitCall k = none := by simp [Action.waitCall, hfr]
    rcases hj.tab (Kernel.tidy_tab k p as) hp (.inr hfr) with ⟨ht, rfl⟩ | ⟨ht, rfl⟩ | ⟨q, ht, hq, hz, htid, rfl⟩
    · exact ⟨_, ht, fun _ => .inr rfl⟩
    · exact ⟨_, ht, fun _ => .inl rfl⟩
    · refine ⟨_, ht, ⟨_, by rw [hcall, htid]⟩, ?_, rfl, hwait⟩
      rw [joinTarget_tidy] at hq
      simp [Action.joinReaps, hcall, hq, hz]
  | @wait p addr as _ _ hp _ hk hw =>
    rcases hw.tab (setAnswers_tab_chan k p as) hp with ⟨ht, rfl⟩ | ⟨ht, rfl⟩ | ⟨q, m, ht, hpq, hq, rfl, hcs⟩
    · exact ⟨_, ht, fun _ => .inr rfl⟩
    · exact ⟨_, ht, fun _ => .inl rfl⟩
    · exact ⟨_, ht, waitReaps_syscall hk hq hcs, rfl, rfl⟩
  | @resumeWait p inp as addr _ _ hp hfr hw =>
    rcases hw.tab (Kernel.tidy_tab k p as) hp with ⟨ht, rfl⟩ | ⟨ht, rfl⟩ | ⟨q, m, ht, hpq, hq, rfl, hcs⟩
    · exact ⟨_, ht, fun _ => .inr rfl⟩
    · exact ⟨_, ht, fun _ => .inl rfl⟩
    · exact ⟨_, ht, waitReaps_resume hfr hp hq hcs, rfl, by simp [Action.joinCall, hfr]⟩
  | @resumeExit p inp as st hp hfr =>
    obtain ⟨hself, hother, hi, hn⟩ := exitEnd_tab (k.tidy p as) p st
    have hre : ∀ j, ((k.tidy p as).tab.reparent p).ctl j = if j = p then { (k.tab.reparent p).ctl p with chan := none }
        else (k.tab.reparent p).ctl j := by
      intro j
      rw [Kernel.tidy_tab]
      by_cases hj : j = p
      · subst hj
        simp only [Tab.reparent, Tab.set_self, if_true, Kernel.tab_ctl]
        by_cases hpar : (k.proc j).ctl.parent = some j <;> simp [hpar]
      · simp only [Tab.reparent, Tab.set_of_ne _ _ hj, if_neg hj]
        rfl
    refine ⟨.exit p, .exit hp (by simp [Proc.ctl, hfr, Frame.tag]) hi hn ?_ ?_ ?_ fun j hj => ?_, ?_, rfl⟩
    · rw [hself]
    · rw [hself, hre, if_pos rfl]
      exact (Tab.reparent_frame _ _ _).trans (by simp [Proc.ctl, hfr, Frame.tag])
    · rw [hself, hre, if_pos rfl]
      exact ⟨rfl, rfl, rfl, rfl, rfl⟩
    · have := hother j hj
      rwa [hre, if_neg hj] at this
    · simp [Action.exits, hfr]
  | @resumeThreadExit p inp as _ hp hfr ht =>
    obtain ⟨P, m, hr, rfl⟩ := threadExitEnd_inv ht
    refine ⟨.threadExit p, ?_, ?_⟩
    · rw [wakeup_tab, Kernel.tab_setProc, Kernel.tab_setMem, Kernel.tidy_tab, Tab.set_set]
      rw [Kernel.tidy, Kernel.setProc_self] at hr
      rcases releaseStack_inv hr with ⟨pt, pt', -, -, -, -, rfl⟩ | ⟨-, rfl, -⟩
      · exact .threadExit hp (by simp [Proc.ctl, hfr, Frame.tag]) rfl (by simp [Proc.ctl, hfr, Frame.tag])
          ⟨rfl, rfl, rfl, rfl, rfl⟩
      · exact .threadExit hp (by simp [Proc.ctl, hfr, Frame.tag]) rfl (by simp [Proc.ctl, hfr, Frame.tag])
          ⟨rfl, rfl, rfl, rfl, rfl⟩
    · simp [TLab.Shows, Action.joinCall, Action.waitCall, Action.creates, hfr]
  | @resumeExec p inp as pt sz _ _ hp hfr he =>
    obtain ⟨fr, hfr', ht⟩ := he.tab (by simpa [Kernel.tidy] using hfr)
    refine ⟨.move p, TStep.enter fr none hp ?_ ?_ ?_ ?_, ?_⟩
    · rw [ht, Kernel.tidy_tab, Tab.set_set]
      simp [Kernel.tidy, Proc.ctl]
    · rcases hfr' with rfl | rfl <;> simp
    · rcases hfr' with rfl | rfl <;> simp
    · rcases hfr' with rfl | rfl <;> simp
    · simp [TLab.Shows, Action.joinCall, Action.waitCall, Action.creates, hfr]

end OsLabs.Xv6
