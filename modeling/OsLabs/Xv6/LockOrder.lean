import Mathlib.Data.Finset.Basic
import OsLabs.Xv6.Locks

/-!
# OsLabs.Xv6.LockOrder — the lock discipline of proc.c

What a piece of code may do next depends on the locks that its CPU holds and on what it knows: the state of its own slot, the unused slot
that `allocproc` has found, and the slot that it is setting up.  `Safe x k` says that the code `k` keeps to the discipline from `x` on:

* it takes `wait_lock` or a lock of a subsystem only with empty hands, a proc lock beside another one only under `wait_lock`, and no lock
  at all under `pid_lock` (`Fits`);
* it writes the state of a slot only under the lock of that slot, and only in the ways of `Writes`;
* it calls `sched` with its own lock alone, and not as a running process.

`call_safe`, `busy_safe`, `enter_safe`, `safe_device`: every call and every interrupt is safe.
-/

namespace OsLabs.Xv6.Locks

/-- What a piece of code has and knows. -/
structure Ctx where
  held : Finset Lock
  st : ProcState
  found : Option Slot
  making : Option Slot

/-- A lock that may be taken beside those in `held`. -/
def Fits (held : Finset Lock) (l : Lock) : Prop :=
  l ∉ held ∧ Lock.pid_lock ∉ held ∧
    match l with
    | .wait_lock => held = ∅
    | .other _ => held = ∅
    | .proc _ => (∃ r, Lock.proc r ∈ held) → Lock.wait_lock ∈ held
    | .pid_lock => True

/-- Code that runs in a process is in one of these states. -/
def Lively (st : ProcState) : Prop := st = .running ∨ st = .runnable ∨ st = .sleeping

/-- The table agrees with what the process `me` knows. -/
structure Knows (me : Option Slot) (x : Ctx) (t : Table) : Prop where
  st : ∀ p, me = some p → (t.proc p).state = x.st
  found : ∀ q, x.found = some q → (t.proc q).state = .unused
  making : ∀ q, x.making = some q → (t.proc q).state = .used

/-- The writes that are allowed from `x`: to one's own slot, and to the slots whose lock is held. -/
structure Writes (me : Option Slot) (x y : Ctx) (t t' : Table) : Prop where
  held : y.held = x.held
  own : ∀ p, me = some p → (t'.proc p).state = y.st
  /-- without the own lock the state is not written -/
  own_lock : ∀ p, me = some p → Lock.proc p ∉ x.held → y.st = x.st
  alive : y.st ≠ .unused ∧ y.st ≠ .used
  other : ∀ q, me ≠ some q → (t'.proc q).state ≠ (t.proc q).state → Lock.proc q ∈ x.held ∧
    ((t.proc q).state = .sleeping ∧ (t'.proc q).state = .runnable ∨
      (t.proc q).state = .zombie ∧ (t'.proc q).state = .unused ∨
      x.making = some q ∧ y.making = none ∧ ((t'.proc q).state = .unused ∨ (t'.proc q).state = .runnable))
  found : y.found = x.found ∨ y.found = none ∨
    ∃ q, y.found = some q ∧ Lock.proc q ∈ x.held ∧ (t.proc q).state = .unused ∧ (t'.proc q).state = .unused
  making : y.making = none ∨ y.making = x.making ∧ Lively y.st

/-- The context of code that begins at an entry. -/
def Entry.ctx : Entry → Ctx
  | .idle => ⟨∅, .running, none, none⟩
  | .waitLoop => ⟨{.wait_lock}, .running, none, none⟩
  | .joinLoop _ _ => ⟨{.wait_lock}, .running, none, none⟩
  | .busy n => ⟨{.other n}, .running, none, none⟩

/-- **The discipline.** -/
def Safe (me : Option Slot) : Ctx → Prog → Prop
  | x, .acquire l k => Fits x.held l ∧ Safe me { x with held := insert l x.held } k
  | x, .release l k => l ∈ x.held ∧ (∀ p, me = some p → l = .proc p → x.st = .running) ∧
      (∀ q, x.found = some q → l ≠ .proc q) ∧ Safe me { x with held := x.held.erase l } k
  | x, .atomic f k => ∀ t b, Knows me x t → ∃ y, Writes me x y t (f t b) ∧ Safe me y (k t b)
  | x, .init q _ k => x.found = some q ∧ x.making = none ∧ (∃ p, me = some p ∧ p ≠ q) ∧ Lively x.st ∧
      Safe me { x with found := none, making := some q } (k true) ∧ Safe me { x with found := none } (k false)
  | x, .sched k => ∃ p, me = some p ∧ x.held = {.proc p} ∧ x.st ≠ .running ∧ x.found = none ∧
      (Lively x.st → Safe me { x with st := .running } k)
  | x, .goto e => x = e.ctx
  | x, .halt => me = none → x.held = ∅

/-! ## Rules -/

section Rules

variable {me : Option Slot} {x : Ctx} {p q : Slot} {k : Prog}

/-- A context that code can be in. -/
structure Ctx.Proper (x : Ctx) : Prop where
  alive : x.st ≠ .unused ∧ x.st ≠ .used
  making : x.making = none ∨ Lively x.st

theorem Ctx.proper_running {held : Finset Lock} {found making : Option Slot} : Ctx.Proper ⟨held, .running, found, making⟩ :=
  ⟨⟨nofun, nofun⟩, .inr (.inl rfl)⟩

/-- No state is written. -/
theorem Writes.same (hx : x.Proper) {t t' : Table} (h : Knows me x t) (hs : ∀ q, (t'.proc q).state = (t.proc q).state) :
    Writes me x x t t' where
  held := rfl
  own p hp := (hs p).trans (h.st p hp)
  own_lock _ _ _ := rfl
  alive := hx.alive
  other q _ hne := absurd (hs q) hne
  found := .inl rfl
  making := hx.making.imp id fun hl => ⟨rfl, hl⟩

theorem safe_read (hx : x.Proper) {k : Table → Bool → Prog} (h : ∀ t b, Knows me x t → Safe me x (k t b)) : Safe me x (read k) :=
  fun t b ht => ⟨x, .same hx ht fun _ => rfl, h t b ht⟩

theorem safe_write (hx : x.Proper) {f : Table → Table} (hs : ∀ t q, ((f t).proc q).state = (t.proc q).state) (h : Safe me x k) :
    Safe me x (write f k) :=
  fun t _ ht => ⟨x, .same hx ht (hs t), h⟩

theorem set_state_of_ne {t : Table} {i : Info} {r : Slot} (h : r ≠ q) : ((t.set q i).proc r).state = (t.proc r).state := by
  simp [Table.set, h]

theorem set_state_self {t : Table} {i : Info} : ((t.set q i).proc q).state = i.state := by
  simp [Table.set]

/-- A write to a slot that keeps its state. -/
theorem set_state {t : Table} {i : Info} (h : i.state = (t.proc q).state) (r : Slot) :
    ((t.set q i).proc r).state = (t.proc r).state := by
  by_cases hr : r = q
  · subst hr
    rw [set_state_self, h]
  · exact set_state_of_ne hr

/-- A write to one's own slot, with its lock held. -/
theorem safe_own {f : Table → Table} (st : ProcState) (hl : Lock.proc p ∈ x.held)
    (hself : ∀ t, ((f t).proc p).state = st) (hne : ∀ t q, q ≠ p → ((f t).proc q).state = (t.proc q).state)
    (hp : Ctx.Proper { x with st := st }) (h : Safe (some p) { x with st := st } k) : Safe (some p) x (write f k) := by
  intro t b ht
  refine ⟨{ x with st := st }, ?_, h⟩
  refine ⟨rfl, ?_, ?_, hp.alive, ?_, .inl rfl, hp.making.imp id fun hlv => ⟨rfl, hlv⟩⟩
  · rintro _ ⟨rfl⟩
    exact hself t
  · rintro _ ⟨rfl⟩ hnl
    exact absurd hl hnl
  · intro q hq hne'
    exact absurd (hne t q fun heq => hq (congrArg some heq.symm)) hne'

/-- `wakeup` makes a sleeper runnable. -/
theorem wake_state (t : Table) (q : Slot) (chan : Option Chan) (r : Slot) :
    ((t.wake q chan).proc r).state = (t.proc r).state ∨
      r = q ∧ (t.proc r).state = .sleeping ∧ ((t.wake q chan).proc r).state = .runnable := by
  unfold Table.wake
  split_ifs with hs
  · by_cases hr : r = q
    · subst hr
      exact .inr ⟨rfl, hs.1, set_state_self⟩
    · exact .inl (set_state_of_ne hr)
  · exact .inl rfl

/-- **`wakeup`.**  Every other proc lock must fit. -/
theorem safe_wakeup (hx : x.Proper) (hf : x.found = none) (hfit : ∀ q, me ≠ some q → Fits x.held (.proc q)) (chan : Option Chan)
    (h : Safe me x k) : ∀ l, Safe me x (wakeup me chan k l)
  | [] => h
  | q :: l => by
    unfold wakeup
    split_ifs with hq
    · exact safe_wakeup hx hf hfit chan h l
    refine ⟨hfit q hq, ?_⟩
    intro t b ht
    refine ⟨{ x with held := insert (.proc q) x.held }, ?_, ?_⟩
    · refine ⟨rfl, ?_, fun _ _ _ => rfl, hx.alive, ?_, .inl rfl, hx.making.imp id fun hl => ⟨rfl, hl⟩⟩
      · intro p hp
        rcases wake_state t q chan p with hs | ⟨rfl, -⟩
        · exact hs.trans (ht.st p hp)
        · exact absurd hp hq
      · intro r _ hne
        obtain ⟨rfl, hs, hs'⟩ := (wake_state t q chan r).resolve_left hne
        exact ⟨Finset.mem_insert_self _ _, .inl ⟨hs, hs'⟩⟩
    · refine ⟨Finset.mem_insert_self _ _, ?_, ?_, ?_⟩
      · rintro p rfl heq
        exact absurd (congrArg some (Lock.proc.inj heq)).symm hq
      · intro r hr
        rw [hf] at hr
        cases hr
      · show Safe me { x with held := (insert (Lock.proc q) x.held).erase (.proc q) } _
        rw [Finset.erase_insert (hfit q hq).1]
        exact safe_wakeup hx hf hfit chan h l

/-- `release` of a lock that is not the own one. -/
theorem safe_release {l : Lock} (hl : l ∉ x.held) (hme : ∀ p, me = some p → l ≠ .proc p) (hf : ∀ q, x.found = some q → l ≠ .proc q)
    (h : Safe me x k) : Safe me { x with held := insert l x.held } (.release l k) := by
  refine ⟨Finset.mem_insert_self _ _, fun p hp heq => absurd heq (hme p hp), hf, ?_⟩
  show Safe me { x with held := (insert l x.held).erase l } k
  rw [Finset.erase_insert hl]
  exact h

/-- `release` of the own lock. -/
theorem safe_release_own (held : Finset Lock) {making : Option Slot} (hl : Lock.proc p ∉ held)
    (h : Safe (some p) ⟨held, .running, none, making⟩ k) :
    Safe (some p) ⟨insert (.proc p) held, .running, none, making⟩ (.release (.proc p) k) := by
  refine ⟨Finset.mem_insert_self _ _, fun _ _ _ => rfl, nofun, ?_⟩
  show Safe (some p) ⟨(insert (Lock.proc p) held).erase (.proc p), .running, none, making⟩ k
  rw [Finset.erase_insert hl]
  exact h

theorem fits_empty (l : Lock) : Fits ∅ l := by
  refine ⟨Finset.notMem_empty _, Finset.notMem_empty _, ?_⟩
  cases l with
  | wait_lock => rfl
  | other n => rfl
  | proc i => rintro ⟨r, hr⟩; exact absurd hr (Finset.notMem_empty _)
  | pid_lock => trivial

/-- A proc lock under `wait_lock`, whatever else is held. -/
theorem fits_proc_wait {held : Finset Lock} (h1 : Lock.proc q ∉ held) (h2 : Lock.pid_lock ∉ held) (h3 : Lock.wait_lock ∈ held) :
    Fits held (.proc q) := ⟨h1, h2, fun _ => h3⟩

/-- A proc lock beside no other one. -/
theorem fits_proc_alone {held : Finset Lock} (h1 : ∀ r, Lock.proc r ∉ held) (h2 : Lock.pid_lock ∉ held) : Fits held (.proc q) :=
  ⟨h1 q, h2, fun ⟨r, hr⟩ => absurd hr (h1 r)⟩

/-- **`sleep`**, called with the lock `lk` alone. -/
theorem safe_sleep {lk : Lock} {making : Option Slot} (chan : Chan) (hlk : ∀ r, lk ≠ .proc r) (hpid : lk ≠ .pid_lock)
    (h : Safe (some p) ⟨{lk}, .running, none, making⟩ k) : Safe (some p) ⟨{lk}, .running, none, making⟩ (sleep p chan lk k) := by
  unfold sleep
  refine ⟨fits_proc_alone (fun r hr => hlk r (Finset.mem_singleton.mp hr).symm) (fun hr => hpid (Finset.mem_singleton.mp hr).symm), ?_⟩
  -- the two locks in the order in which they are released
  have hpair : (insert (Lock.proc p) {lk} : Finset Lock) = insert lk {.proc p} := Finset.pair_comm _ _
  show Safe (some p) ⟨insert (Lock.proc p) {lk}, .running, none, making⟩ _
  rw [hpair]
  refine safe_release (x := ⟨{.proc p}, .running, none, making⟩) (by simpa using hlk p) (fun r _ => hlk r) nofun ?_
  refine safe_own .sleeping (Finset.mem_singleton_self _) (fun t => set_state_self) (fun t q hq => set_state_of_ne hq)
    ⟨⟨nofun, nofun⟩, .inr (.inr (.inr rfl))⟩ ?_
  refine ⟨p, rfl, rfl, nofun, rfl, fun _ => ?_⟩
  refine safe_write Ctx.proper_running (fun t q => set_state (by rfl) q) ?_
  refine safe_release_own ∅ (Finset.notMem_empty _) ?_
  exact ⟨fits_empty lk, h⟩

/-- **`yield`**, without a lock. -/
theorem safe_yield {making : Option Slot} (h : Safe (some p) ⟨∅, .running, none, making⟩ k) :
    Safe (some p) ⟨∅, .running, none, making⟩ (yield p k) := by
  unfold yield
  refine ⟨fits_empty _, ?_⟩
  refine safe_own .runnable (Finset.mem_insert_self _ _) (fun t => set_state_self) (fun t q hq => set_state_of_ne hq)
    ⟨⟨nofun, nofun⟩, .inr (.inr (.inl rfl))⟩ ?_
  refine ⟨p, rfl, rfl, nofun, rfl, fun _ => ?_⟩
  exact safe_release_own ∅ (Finset.notMem_empty _) h

theorem safe_forkret : Safe (some p) ⟨{.proc p}, .running, none, none⟩ (forkret p) :=
  safe_release_own ∅ (Finset.notMem_empty _) rfl

/-- **`killed`**, where the own lock fits. -/
theorem safe_killed {held : Finset Lock} {making : Option Slot} {k : Bool → Prog} (hfit : Fits held (.proc p))
    (h : ∀ b, Safe (some p) ⟨held, .running, none, making⟩ (k b)) : Safe (some p) ⟨held, .running, none, making⟩ (killed p k) := by
  unfold killed
  refine ⟨hfit, safe_read Ctx.proper_running fun t b _ => ?_⟩
  exact safe_release_own _ hfit.1 (h _)

end Rules

/-! ## Every call is safe -/

section Calls

variable {p : Slot} {k : Prog}

theorem safe_goto (e : Entry) : Safe (some p) e.ctx (.goto e) := rfl

theorem safe_idle : Safe (some p) ⟨∅, .running, none, none⟩ (.goto .idle) := rfl

/-- A lock is taken and, when its code is through, given back. -/
theorem safe_release_singleton {l : Lock} {making : Option Slot} (h : Safe (some p) ⟨∅, .running, none, making⟩ k) :
    Safe (some p) ⟨{l}, .running, none, making⟩ (.release l k) := by
  refine ⟨Finset.mem_singleton_self _, fun _ _ _ => rfl, nofun, ?_⟩
  show Safe (some p) ⟨({l} : Finset Lock).erase l, .running, none, making⟩ k
  rw [Finset.erase_singleton]
  exact h

/-- Under `wait_lock` the lock of a slot is taken and given back. -/
theorem safe_release_wait {q : Slot} (h : Safe (some p) ⟨{.wait_lock}, .running, none, none⟩ k) :
    Safe (some p) ⟨insert (.proc q) {.wait_lock}, .running, none, none⟩ (.release (.proc q) k) := by
  refine ⟨Finset.mem_insert_self _ _, fun _ _ _ => rfl, nofun, ?_⟩
  show Safe (some p) ⟨(insert (Lock.proc q) {Lock.wait_lock} : Finset Lock).erase (.proc q), .running, none, none⟩ k
  rw [Finset.erase_insert (by simp)]
  exact h

theorem fits_wait (q : Slot) : Fits {.wait_lock} (.proc q) := fits_proc_wait (by simp) (by simp) (by simp)

/-- **`allocproc`.** -/
theorem safe_allocproc {k : Option Slot → Prog} (hnone : Safe (some p) ⟨∅, .running, none, none⟩ (k none))
    (hsome : ∀ q, q ≠ p → Safe (some p) ⟨{.proc q}, .running, none, some q⟩ (k (some q))) :
    ∀ l, Safe (some p) ⟨∅, .running, none, none⟩ (allocproc k l)
  | [] => hnone
  | q :: l => by
    unfold allocproc
    refine ⟨fits_empty _, ?_⟩
    show Safe (some p) ⟨{.proc q}, .running, none, none⟩ _
    intro t b ht
    dsimp only
    split_ifs with hq
    · have hqp : q ≠ p := by
        rintro rfl
        rw [ht.st q rfl] at hq
        cases hq
      refine ⟨⟨{.proc q}, .running, some q, none⟩, ?_, ?_⟩
      · exact ⟨rfl, ht.st, fun _ _ _ => rfl, ⟨nofun, nofun⟩, fun _ _ hne => absurd rfl hne,
          .inr (.inr ⟨q, rfl, Finset.mem_singleton_self _, hq, hq⟩), .inl rfl⟩
      · refine ⟨⟨by simp, by simp, trivial⟩, ?_⟩
        intro t b ht
        refine ⟨⟨insert .pid_lock {.proc q}, .running, some q, none⟩, .same Ctx.proper_running ht (by exact fun _ => rfl), ?_⟩
        refine safe_release (x := ⟨{.proc q}, .running, some q, none⟩) (l := .pid_lock) (by simp) (by simp) (by simp) ?_
        refine ⟨rfl, rfl, ⟨p, rfl, hqp.symm⟩, .inl rfl, hsome q hqp, ?_⟩
        exact safe_release_singleton hnone
    · refine ⟨⟨{.proc q}, .running, none, none⟩, .same Ctx.proper_running ht fun _ => rfl, ?_⟩
      exact safe_release_singleton (safe_allocproc hnone hsome l)

/-- A write to the slot that is being set up takes it out of the hands of its maker. -/
theorem writes_making {held : Finset Lock} {q : Slot} {t t' : Table} (hqp : q ≠ p) (hl : Lock.proc q ∈ held)
    (ht : Knows (some p) ⟨held, .running, none, some q⟩ t) (hne : ∀ r, r ≠ q → (t'.proc r).state = (t.proc r).state)
    (hq : (t'.proc q).state = .unused ∨ (t'.proc q).state = .runnable) :
    Writes (some p) ⟨held, .running, none, some q⟩ ⟨held, .running, none, none⟩ t t' := by
  refine ⟨rfl, ?_, fun _ _ _ => rfl, ⟨nofun, nofun⟩, ?_, .inl rfl, .inl rfl⟩
  · rintro _ ⟨rfl⟩
    exact (hne p hqp.symm).trans (ht.st p rfl)
  · intro r _ hr
    by_cases hrq : r = q
    · subst hrq
      exact ⟨hl, .inr (.inr ⟨rfl, rfl, hq⟩)⟩
    · exact absurd (hne r hrq) hr

theorem safe_launch {q : Slot} (hqp : q ≠ p) : Safe (some p) ⟨{.proc q}, .running, none, some q⟩ (launch p q) := by
  unfold launch
  refine safe_release_singleton ⟨fits_empty _, ?_⟩
  show Safe (some p) ⟨{.wait_lock}, .running, none, some q⟩ _
  refine safe_write Ctx.proper_running (fun t r => set_state (by rfl) r) ?_
  refine safe_release_singleton ⟨fits_empty _, ?_⟩
  show Safe (some p) ⟨{.proc q}, .running, none, some q⟩ _
  intro t b ht
  refine ⟨⟨{.proc q}, .running, none, none⟩, ?_, safe_release_singleton safe_idle⟩
  exact writes_making hqp (Finset.mem_singleton_self _) ht (fun r hr => set_state_of_ne hr) (.inr set_state_self)

theorem safe_fill {q : Slot} (hqp : q ≠ p) {f : Table → Info → Info} (hf : ∀ t x, (f t x).state = x.state) :
    Safe (some p) ⟨{.proc q}, .running, none, some q⟩ (fill p q f) := by
  intro t b ht
  cases b with
  | true =>
    exact ⟨_, .same Ctx.proper_running ht fun r => set_state (hf t _) r, safe_launch hqp⟩
  | false =>
    refine ⟨⟨{.proc q}, .running, none, none⟩, ?_, safe_release_singleton safe_idle⟩
    exact writes_making hqp (Finset.mem_singleton_self _) ht (fun r hr => set_state_of_ne hr) (.inl set_state_self)

theorem safe_fork : Safe (some p) ⟨∅, .running, none, none⟩ (fork p) := by
  refine safe_allocproc safe_idle (fun q hqp => ?_) slots
  exact safe_fill hqp (by exact fun _ _ => rfl)

theorem safe_threadCreate : Safe (some p) ⟨∅, .running, none, none⟩ (threadCreate p) := by
  refine safe_allocproc safe_idle (fun q hqp => ?_) slots
  exact safe_fill hqp (by exact fun _ _ => rfl)

/-- Freeing a zombie, under its lock. -/
theorem writes_free {q : Slot} {t t' : Table} (ht : Knows (some p) ⟨insert (.proc q) {.wait_lock}, .running, none, none⟩ t)
    (h : t' = t.free q ∧ (t.proc q).state = .zombie ∨ t' = t) :
    Writes (some p) ⟨insert (.proc q) {.wait_lock}, .running, none, none⟩ ⟨insert (.proc q) {.wait_lock}, .running, none, none⟩ t t' := by
  rcases h with ⟨rfl, hz⟩ | rfl
  · have hqp : q ≠ p := by
      rintro rfl
      rw [ht.st q rfl] at hz
      cases hz
    refine ⟨rfl, ?_, fun _ _ _ => rfl, ⟨nofun, nofun⟩, ?_, .inl rfl, .inl rfl⟩
    · rintro _ ⟨rfl⟩
      exact (set_state_of_ne hqp.symm).trans (ht.st p rfl)
    · intro r _ hr
      by_cases hrq : r = q
      · subst hrq
        exact ⟨Finset.mem_insert_self _ _, .inr (.inl ⟨hz, set_state_self⟩)⟩
      · exact absurd (set_state_of_ne hrq) hr
  · exact .same Ctx.proper_running ht fun _ => rfl

/-- **The scan of `thread_join`.** -/
theorem safe_joinScan (tid : ℤ) (leader : Option Slot) :
    ∀ l, Safe (some p) ⟨{.wait_lock}, .running, none, none⟩ (joinScan p tid leader l)
  | [] => safe_release_singleton safe_idle
  | q :: l => by
    unfold joinScan
    refine safe_read Ctx.proper_running fun t b _ => ?_
    split_ifs
    · refine ⟨fits_wait q, ?_⟩
      intro t b ht
      refine ⟨⟨insert (.proc q) {.wait_lock}, .running, none, none⟩, writes_free ht ?_, ?_⟩
      · dsimp only
        split_ifs with hz
        · exact .inl ⟨rfl, hz⟩
        · exact .inr rfl
      · dsimp only
        split_ifs
        · exact safe_release_wait (safe_release_singleton safe_idle)
        · exact safe_release_wait (safe_sleep _ nofun nofun (safe_goto (.joinLoop tid leader)))
    · exact safe_joinScan tid leader l

/-- **The scan of `wait`.** -/
theorem safe_waitScan : ∀ (l : List Slot) (havekids : Bool), Safe (some p) ⟨{.wait_lock}, .running, none, none⟩ (waitScan p havekids l)
  | [], true => by
    rw [waitScan, if_pos rfl]
    refine safe_killed (fits_wait p) fun b => ?_
    cases b with
    | true => exact safe_release_singleton safe_idle
    | false => exact safe_sleep _ nofun nofun (safe_goto .waitLoop)
  | [], false => by
    rw [waitScan, if_neg nofun]
    exact safe_release_singleton safe_idle
  | q :: l, havekids => by
    unfold waitScan
    refine safe_read Ctx.proper_running fun t b _ => ?_
    split_ifs
    · refine ⟨fits_wait q, ?_⟩
      intro t ok ht
      refine ⟨⟨insert (.proc q) {.wait_lock}, .running, none, none⟩, writes_free ht ?_, ?_⟩
      · dsimp only
        split_ifs with hz
        · exact .inl ⟨rfl, hz.1⟩
        · exact .inr rfl
      · dsimp only
        split_ifs
        · exact safe_release_wait (safe_release_singleton safe_idle)
        · exact safe_release_wait (safe_waitScan l true)
    · exact safe_waitScan l havekids

/-- **`reparent`.** -/
theorem safe_reparent (h : Safe (some p) ⟨{.wait_lock}, .running, none, none⟩ k) :
    ∀ l, Safe (some p) ⟨{.wait_lock}, .running, none, none⟩ (reparent p k l)
  | [] => h
  | pp :: l => by
    unfold reparent
    intro t b ht
    refine ⟨⟨{.wait_lock}, .running, none, none⟩, .same Ctx.proper_running ht fun q => ?_, ?_⟩
    · dsimp only
      split_ifs
      · exact set_state (by rfl) q
      · rfl
    · dsimp only
      split_ifs
      · exact safe_wakeup Ctx.proper_running rfl (fun q _ => fits_wait q) _ (safe_reparent h l) slots
      · exact safe_reparent h l

/-- The last steps of a dying process: `wait_lock` goes, the own lock stays. -/
theorem safe_sched_zombie : Safe (some p) ⟨insert (.proc p) {.wait_lock}, .zombie, none, none⟩ (.release .wait_lock (.sched .halt)) := by
  have hpair : (insert (Lock.proc p) {Lock.wait_lock} : Finset Lock) = insert .wait_lock {.proc p} := Finset.pair_comm _ _
  rw [hpair]
  refine safe_release (x := ⟨{.proc p}, .zombie, none, none⟩) (l := .wait_lock) (by simp) (by simp) (by simp) ?_
  exact ⟨p, rfl, rfl, nofun, rfl, fun h => by rcases h with h | h | h <;> cases h⟩

/-- Becoming a zombie under both locks. -/
theorem safe_zombie (h : Safe (some p) ⟨insert (.proc p) {.wait_lock}, .zombie, none, none⟩ k) :
    Safe (some p) ⟨insert (.proc p) {.wait_lock}, .running, none, none⟩ (write (·.setState p .zombie) k) :=
  safe_own .zombie (x := ⟨insert (.proc p) {.wait_lock}, .running, none, none⟩) (Finset.mem_insert_self _ _)
    (fun _ => set_state_self) (fun _ _ hq => set_state_of_ne hq) ⟨⟨nofun, nofun⟩, .inl rfl⟩ h

theorem safe_exit : Safe (some p) ⟨∅, .running, none, none⟩ (exit p) := by
  refine safe_read Ctx.proper_running fun t b _ => ?_
  split_ifs
  · exact nofun
  refine ⟨fits_empty _, safe_reparent ?_ slots⟩
  refine safe_read Ctx.proper_running fun t b _ => ?_
  refine safe_wakeup Ctx.proper_running rfl (fun q _ => fits_wait q) _ ?_ slots
  exact ⟨fits_wait p, safe_zombie safe_sched_zombie⟩

/-- **`thread_exit`** is the one place where two proc locks are held at once: `wakeup` runs with the own lock and `wait_lock`. -/
theorem safe_threadExit : Safe (some p) ⟨∅, .running, none, none⟩ (threadExit p) := by
  refine safe_read Ctx.proper_running fun t b _ => ?_
  split_ifs
  · refine ⟨fits_empty _, fits_wait p, safe_zombie ?_⟩
    refine safe_wakeup (x := ⟨insert (.proc p) {.wait_lock}, .zombie, none, none⟩) ⟨⟨nofun, nofun⟩, .inl rfl⟩ rfl (fun q hq => ?_) _
      safe_sched_zombie slots
    have hqp : q ≠ p := fun heq => hq (congrArg some heq.symm)
    exact fits_proc_wait (by simpa using hqp) (by simp) (by simp)
  · exact safe_exit

theorem safe_kill (pid : ℤ) : ∀ l, Safe (some p) ⟨∅, .running, none, none⟩ (kill pid l)
  | [] => safe_idle
  | q :: l => by
    unfold kill
    refine ⟨fits_empty _, ?_⟩
    show Safe (some p) ⟨{.proc q}, .running, none, none⟩ _
    intro t b ht
    refine ⟨⟨{.proc q}, .running, none, none⟩, ?_, ?_⟩
    · dsimp only
      split_ifs with hpid hs
      · -- only another process can be found sleeping
        have hqp : q ≠ p := by
          rintro rfl
          rw [ht.st q rfl] at hs
          cases hs
        refine ⟨rfl, ?_, fun _ _ _ => rfl, ⟨nofun, nofun⟩, ?_, .inl rfl, .inl rfl⟩
        · rintro _ ⟨rfl⟩
          exact (set_state_of_ne hqp.symm).trans (ht.st p rfl)
        · intro r _ hr
          by_cases hrq : r = q
          · subst hrq
            exact ⟨Finset.mem_singleton_self _, .inl ⟨hs, set_state_self⟩⟩
          · exact absurd (set_state_of_ne hrq) hr
      · exact .same Ctx.proper_running ht fun r => set_state (by rfl) r
      · exact .same Ctx.proper_running ht fun _ => rfl
    · refine safe_release_singleton ?_
      split_ifs
      · exact safe_idle
      · exact safe_kill pid l

theorem safe_setkilled (h : Safe (some p) ⟨∅, .running, none, none⟩ k) : Safe (some p) ⟨∅, .running, none, none⟩ (setkilled p k) := by
  refine ⟨fits_empty _, ?_⟩
  show Safe (some p) ⟨{.proc p}, .running, none, none⟩ _
  exact safe_write Ctx.proper_running (fun t r => set_state (by rfl) r) (safe_release_singleton h)

/-- A proc lock under the lock of a subsystem. -/
theorem fits_other (n : ℕ) (q : Slot) : Fits {.other n} (.proc q) := fits_proc_alone (by simp) (by simp)

/-- **Every call of a process is safe.** -/
theorem call_safe (c : Call) : Safe (some p) Entry.idle.ctx (c.prog p) := by
  cases c with
  | fork => exact safe_fork
  | threadCreate => exact safe_threadCreate
  | threadJoin tid => exact safe_read Ctx.proper_running fun t b _ => ⟨fits_empty _, safe_goto (.joinLoop tid _)⟩
  | threadExit => exact safe_threadExit
  | exit => exact safe_exit
  | wait => exact ⟨fits_empty _, safe_goto .waitLoop⟩
  | kill pid => exact safe_kill pid slots
  | killed => exact safe_killed (fits_empty _) fun _ => safe_idle
  | setkilled => exact safe_setkilled safe_idle
  | lock n => exact ⟨fits_empty _, safe_goto (.busy n)⟩

theorem busy_safe (n : ℕ) (c : BusyCall) : Safe (some p) (Entry.busy n).ctx (c.prog p n) := by
  cases c with
  | wakeup chan => exact safe_wakeup Ctx.proper_running rfl (fun q _ => fits_other n q) _ (safe_goto (.busy n)) slots
  | sleep chan => exact safe_sleep chan nofun nofun (safe_goto (.busy n))
  | killed => exact safe_killed (fits_other n p) fun _ => safe_goto (.busy n)
  | unlock => exact safe_release_singleton safe_idle

/-- What follows an entry is safe there. -/
theorem enter_safe {e : Entry} {c : Choice} {k : Prog} (h : Machine.enter p e c = some k) : Safe (some p) e.ctx k := by
  cases e with
  | idle =>
    cases c with
    | call c =>
      obtain rfl := Option.some.inj h
      exact call_safe c
    | _ => cases h
  | waitLoop =>
    cases c with
    | go b =>
      obtain rfl := Option.some.inj h
      exact safe_waitScan slots false
    | _ => cases h
  | joinLoop tid leader =>
    cases c with
    | go b =>
      obtain rfl := Option.some.inj h
      exact safe_joinScan tid leader slots
    | _ => cases h
  | busy n =>
    cases c with
    | busy c =>
      obtain rfl := Option.some.inj h
      exact busy_safe n c
    | _ => cases h

/-- **A device interrupt**, without a lock. -/
theorem safe_device {me : Option Slot} {x : Ctx} (hx : x.Proper) (hf : x.found = none) (hh : x.held = ∅) (n : ℕ) (chan : Chan)
    (h : Safe me x k) : Safe me x (device me n chan k) := by
  refine ⟨hh ▸ fits_empty _, ?_⟩
  have hx' : Ctx.Proper { x with held := insert (.other n) x.held } := ⟨hx.alive, hx.making⟩
  refine safe_wakeup hx' hf (fun q _ => ?_) _ ?_ slots
  · show Fits (insert (Lock.other n) x.held) (.proc q)
    rw [hh]
    exact fits_other n q
  · exact safe_release (by simp [hh]) (by simp) (by simp) h

end Calls

end OsLabs.Xv6.Locks
