import Mathlib.Data.Finset.Card
import OsLabs.Xv6.LockOrder

/-!
# OsLabs.Xv6.Deadlock — the CPUs keep to the lock order

`Inv` ties the locks that each CPU holds to a context in which its code is safe, and asks the same of the code of each process that is on
no CPU.  A step of one CPU keeps it: what the others know of a slot's state is protected by the lock of that slot, or by the fact that only
its maker sees a slot that is being set up.

* `Leaves`, `Inv.next`: what a step of one CPU leaves to the others.
* `Inv.step`, `reachable_inv`: every reachable machine has the invariant.
* `level`, `Inv.level_lt`: a measure that falls along every edge of the waits-for relation, so it has no cycle.
* `lock_discipline`.
-/

namespace OsLabs.Xv6.Locks

namespace Machine

variable {κ : Type*}

/-- The code that a CPU runs, and the process it is in. -/
def code (m : Machine κ) (c : κ) : Option (Option Slot × Prog) :=
  match m.cpu c with
  | .run p => some (some p, m.cont p)
  | .intr k _ => some (none, k)
  | _ => none

/-- The lock of the scheduler itself. -/
def Mode.held : Mode → Finset Lock
  | .test i => {.proc i}
  | .back i => {.proc i}
  | _ => ∅

def state (m : Machine κ) (p : Slot) : ProcState := (m.table.proc p).state

/-- The CPU holds exactly these locks. -/
structure Has (m : Machine κ) (c : κ) (held : Finset Lock) : Prop where
  holds : ∀ l, m.holder l = some c ↔ l ∈ held
  noff : m.noff c = held.card

/-- The code on the CPU is in the context `x`; `mk` says which slot each process is setting up. -/
structure CodeOk (m : Machine κ) (mk : Slot → Option Slot) (c : κ) (me : Option Slot) (x : Ctx) : Prop where
  has : m.Has c x.held
  own : ∀ p, me = some p → m.state p = x.st ∧ mk p = x.making
  own_lock : ∀ p, me = some p → Lock.proc p ∉ x.held → x.st = .running
  none_making : me = none → x.making = none
  proper : x.Proper
  found : ∀ q, x.found = some q → Lock.proc q ∈ x.held ∧ m.state q = .unused

/-- **The invariant**, with the slots that are being set up. -/
structure Inv (m : Machine κ) (mk : Slot → Option Slot) : Prop where
  sched : ∀ c, m.code c = none → m.Has c (Mode.held (m.cpu c))
  code : ∀ c me k, m.code c = some (me, k) → ∃ x, m.CodeOk mk c me x ∧ Safe me x k
  /-- a process is on one CPU at most -/
  once : ∀ c c' p, m.cpu c = .run p → m.cpu c' = .run p → c = c'
  /-- the code of a process that waits for a CPU is safe with its own lock -/
  parked : ∀ p, (∀ c, m.cpu c ≠ .run p) → m.state p = .runnable ∨ m.state p = .sleeping →
    Safe (some p) ⟨{.proc p}, .running, none, mk p⟩ (m.cont p)
  mk_used : ∀ p q, mk p = some q → m.state q = .used ∧ m.cont q = forkret q
  mk_inj : ∀ p p' q, mk p = some q → mk p' = some q → p = p'
  mk_lively : ∀ p, mk p ≠ none → Lively (m.state p)

section

variable {m m' : Machine κ} {mk mk' : Slot → Option Slot} {c c' : κ} {me : Option Slot} {k : Prog} {x : Ctx}

/-- Who is in a slot's code knows its state. -/
theorem Inv.state_of_run (h : Inv m mk) {p : Slot} (hc : m.cpu c = .run p) :
    (m.state p ≠ .unused ∧ m.state p ≠ .used) ∧ (m.holder (.proc p) ≠ some c → m.state p = .running) := by
  obtain ⟨x, hx, -⟩ := h.code c (some p) (m.cont p) (by simp [Machine.code, hc])
  rw [(hx.own p rfl).1]
  refine ⟨hx.proper.alive, fun hne => hx.own_lock p rfl fun hm => hne ((hx.has.holds _).mpr hm)⟩

/-- What the code knows is so. -/
theorem Inv.knows (h : Inv m mk) (hx : m.CodeOk mk c me x) : Knows me x m.table where
  st p hp := (hx.own p hp).1
  found q hq := (hx.found q hq).2
  making q hq := by
    cases me with
    | none =>
      rw [hx.none_making rfl] at hq
      cases hq
    | some p => exact (h.mk_used p q ((hx.own p rfl).2.trans hq)).1

/-- The own process stays alive. -/
theorem CodeOk.lively (hx : m.CodeOk mk c me x) (p : Slot) (hp : me = some p) (hne : mk p ≠ none) : Lively (m.state p) := by
  obtain ⟨h1, h2⟩ := hx.own p hp
  rw [h1]
  exact hx.proper.making.resolve_left (h2 ▸ hne)

/-- Without a lock a process is running and has nothing in its hands but the slot that it is setting up. -/
theorem CodeOk.bare {p : Slot} (hx : m.CodeOk mk c (some p) x) (hn : m.noff c = 0) : x = ⟨∅, .running, none, mk p⟩ := by
  obtain ⟨held, st, found, making⟩ := x
  have hheld : held = ∅ := Finset.card_eq_zero.mp (hx.has.noff.symm.trans hn)
  have hst : st = .running := hx.own_lock p rfl (by simp [hheld])
  have hfound : found = none := by
    cases hf : found with
    | none => rfl
    | some q =>
      have hq := (hx.found q hf).1
      simp [hheld] at hq
  have hmaking : mk p = making := (hx.own p rfl).2
  rw [hheld, hst, hfound, hmaking]

/-- A change of a slot's state that code with context `x` makes to another slot. -/
inductive Change (m m' : Machine κ) (mk mk' : Slot → Option Slot) (me : Option Slot) (q : Slot) : Prop
  | wake (h : m.state q = .sleeping) (h' : m'.state q = .runnable)
  | free (h : m.state q = .zombie) (h' : m'.state q = .unused)
  | drop {p : Slot} (hp : me = some p) (h : mk p = some q) (hn : mk' p = none) (h' : m'.state q = .unused ∨ m'.state q = .runnable)
  | take {p : Slot} (hp : me = some p) (h : m.state q = .unused) (h' : m'.state q = .used)

/-- What one step of the code on CPU `c` leaves as it is. -/
structure Leaves (m m' : Machine κ) (mk mk' : Slot → Option Slot) (c : κ) (me : Option Slot) : Prop where
  cpu : ∀ c', c' ≠ c → m'.cpu c' = m.cpu c'
  run : ∀ p, m'.cpu c = .run p ↔ m.cpu c = .run p
  mine : ∀ p, m.cpu c = .run p ↔ me = some p
  holder : ∀ c', c' ≠ c → ∀ l, m'.holder l = some c' ↔ m.holder l = some c'
  noff : ∀ c', c' ≠ c → m'.noff c' = m.noff c'
  cont : ∀ p, me ≠ some p → m'.cont p = m.cont p ∨ m.state p = .unused ∧ m'.cont p = forkret p
  state : ∀ q, me ≠ some q → m'.state q = m.state q ∨ m.holder (.proc q) = some c ∧ Change m m' mk mk' me q
  making : ∀ p, me ≠ some p → mk' p = mk p
  making_me : ∀ p q, me = some p → mk' p = some q → mk p = some q ∨ m.state q = .unused ∧ m'.state q = .used ∧ m'.cont q = forkret q
  lively : ∀ p, me = some p → mk' p ≠ none → Lively (m'.state p)

/-- Another CPU's process keeps its state. -/
theorem Leaves.state_run (hf : Leaves m m' mk mk' c me) (h : Inv m mk) (hne : c' ≠ c) {p : Slot} (hp : m.cpu c' = .run p) :
    me ≠ some p ∧ m'.state p = m.state p := by
  have hme : me ≠ some p := fun heq => hne (h.once c' c p hp ((hf.mine p).mpr heq))
  refine ⟨hme, ?_⟩
  rcases hf.state p hme with hs | ⟨hl, hch⟩
  · exact hs
  -- without its lock the other process is running, and nobody changes that
  obtain ⟨⟨hu, hus⟩, hrun⟩ := h.state_of_run hp
  have hr := hrun (by rw [hl]; exact fun heq => hne (Option.some.inj heq).symm)
  cases hch with
  | wake hs => rw [hr] at hs; cases hs
  | free hs => rw [hr] at hs; cases hs
  | drop _ hmk => exact absurd (h.mk_used _ _ hmk).1 hus
  | take _ hs => exact absurd hs hu

/-- A slot that is being set up stays so until its maker lets it go. -/
theorem Leaves.used_stays (hf : Leaves m m' mk mk' c me) (h : Inv m mk) {q : Slot} (hu : m.state q = .used)
    (hkeep : ∀ p, me = some p → mk p = some q → mk' p ≠ none) : m'.state q = .used ∧ m'.cont q = m.cont q := by
  have hqm : me ≠ some q := by
    intro heq
    obtain ⟨⟨-, hnu⟩, -⟩ := h.state_of_run ((hf.mine q).mpr heq)
    exact hnu hu
  constructor
  · rcases hf.state q hqm with hst | ⟨-, hch⟩
    · exact hst.trans hu
    cases hch with
    | wake hs => rw [hu] at hs; cases hs
    | free hs => rw [hu] at hs; cases hs
    | drop hp hmk hn => exact absurd hn (hkeep _ hp hmk)
    | take _ hs => rw [hu] at hs; cases hs
  · rcases hf.cont q hqm with hcq | ⟨hun, -⟩
    · exact hcq
    · rw [hu] at hun; cases hun

theorem Leaves.mk_used (hf : Leaves m m' mk mk' c me) (h : Inv m mk) {p q : Slot} (hpq : mk' p = some q) :
    m'.state q = .used ∧ m'.cont q = forkret q := by
  -- the maker is `p` before the step too, unless it has just taken the slot
  have hold : mk p = some q → m'.state q = .used ∧ m'.cont q = forkret q := by
    intro hmk
    obtain ⟨hu, hcont⟩ := h.mk_used p q hmk
    obtain ⟨h1, h2⟩ := hf.used_stays h hu (by
      intro p' _ hmk'
      obtain rfl := h.mk_inj p p' q hmk hmk'
      rw [hpq]
      exact nofun)
    exact ⟨h1, h2.trans hcont⟩
  by_cases hp : me = some p
  · rcases hf.making_me p q hp hpq with hmk | ⟨-, h2⟩
    · exact hold hmk
    · exact h2
  · exact hold ((hf.making p hp).symm.trans hpq)

theorem Leaves.mk_inj (hf : Leaves m m' mk mk' c me) (h : Inv m mk) {p p' q : Slot} (hp : mk' p = some q) (hp' : mk' p' = some q) :
    p = p' := by
  by_cases heq : me = some p
  · by_cases heq' : me = some p'
    · exact Option.some.inj (heq.symm.trans heq')
    · rw [hf.making p' heq'] at hp'
      rcases hf.making_me p q heq hp with hmk | ⟨hun, -⟩
      · exact h.mk_inj p p' q hmk hp'
      · rw [(h.mk_used p' q hp').1] at hun; cases hun
  · rw [hf.making p heq] at hp
    by_cases heq' : me = some p'
    · rcases hf.making_me p' q heq' hp' with hmk | ⟨hun, -⟩
      · exact h.mk_inj p p' q hp hmk
      · rw [(h.mk_used p q hp).1] at hun; cases hun
    · rw [hf.making p' heq'] at hp'
      exact h.mk_inj p p' q hp hp'

/-- A process of another CPU, or of none, stays alive. -/
theorem Leaves.lively_stays (hf : Leaves m m' mk mk' c me) {p : Slot} (hp : me ≠ some p) (h : Lively (m.state p)) (hmk : ∀ r, mk r ≠ some p) :
    Lively (m'.state p) := by
  rcases hf.state p hp with hst | ⟨-, hch⟩
  · rwa [hst]
  cases hch with
  | wake _ h' => exact .inr (.inl h')
  | free hs =>
    rw [hs] at h
    rcases h with h | h | h <;> cases h
  | drop _ hr => exact absurd hr (hmk _)
  | take _ hs =>
    rw [hs] at h
    rcases h with h | h | h <;> cases h

theorem Leaves.parked (hf : Leaves m m' mk mk' c me) (h : Inv m mk) {p : Slot} (hp : me ≠ some p) (hno : ∀ c, m.cpu c ≠ .run p)
    (hst : m'.state p = .runnable ∨ m'.state p = .sleeping) : Safe (some p) ⟨{.proc p}, .running, none, mk' p⟩ (m'.cont p) := by
  rw [hf.making p hp]
  have hcont : m.state p ≠ .unused → m'.cont p = m.cont p := by
    intro hne
    rcases hf.cont p hp with hc | ⟨hun, -⟩
    · exact hc
    · exact absurd hun hne
  rcases hf.state p hp with hs | ⟨-, hch⟩
  · rw [hs] at hst
    rw [hcont (by rintro hun; rw [hun] at hst; rcases hst with h | h <;> cases h)]
    exact h.parked p hno hst
  cases hch with
  | wake hs =>
    rw [hcont (by rw [hs]; exact nofun)]
    exact h.parked p hno (.inr hs)
  | free _ h' =>
    rw [h'] at hst
    rcases hst with h | h <;> cases h
  | drop _ hmk =>
    -- a new process starts at `forkret`
    obtain ⟨hu, hc⟩ := h.mk_used _ p hmk
    have hnone : mk p = none := by
      by_contra hne
      rcases h.mk_lively p hne with hl | hl | hl <;> rw [hu] at hl <;> cases hl
    rw [hcont (by rw [hu]; exact nofun), hc, hnone]
    exact safe_forkret
  | take _ _ h' =>
    rw [h'] at hst
    rcases hst with h | h <;> cases h

/-- The code of another CPU is in the context it was in. -/
theorem Leaves.code (hf : Leaves m m' mk mk' c me) (h : Inv m mk) (hne : c' ≠ c) {me' : Option Slot} {k' : Prog}
    (hc : m'.code c' = some (me', k')) : ∃ y, m'.CodeOk mk' c' me' y ∧ Safe me' y k' := by
  have hme : ∀ p, me' = some p → m.cpu c' = .run p := by
    rintro p rfl
    unfold Machine.code at hc
    rw [hf.cpu c' hne] at hc
    split at hc
    · rename_i q hq
      obtain ⟨heq, -⟩ := Prod.mk.inj (Option.some.inj hc)
      rw [hq, Option.some.inj heq]
    · obtain ⟨heq, -⟩ := Prod.mk.inj (Option.some.inj hc)
      cases heq
    · cases hc
  have hcode : m.code c' = some (me', k') := by
    unfold Machine.code at hc ⊢
    rw [hf.cpu c' hne] at hc
    split at hc
    · rename_i q hq
      obtain ⟨rfl, rfl⟩ := Prod.mk.inj (Option.some.inj hc)
      obtain ⟨hqm, -⟩ := hf.state_run h hne hq
      rcases hf.cont q hqm with hcont | ⟨hun, -⟩
      · rw [hcont]
      · exact absurd hun (h.state_of_run hq).1.1
    · exact hc
    · cases hc
  obtain ⟨y, hy, hs⟩ := h.code c' me' k' hcode
  refine ⟨y, ⟨⟨?_, ?_⟩, ?_, hy.own_lock, hy.none_making, hy.proper, ?_⟩, hs⟩
  · intro l
    rw [hf.holder c' hne, hy.has.holds]
  · rw [hf.noff c' hne, hy.has.noff]
  · intro p hp
    obtain ⟨hpm, hst⟩ := hf.state_run h hne (hme p hp)
    rw [hst, hf.making p hpm]
    exact hy.own p hp
  · intro q hq
    obtain ⟨hl, hu⟩ := hy.found q hq
    refine ⟨hl, ?_⟩
    have hqm : me ≠ some q := by
      intro heq
      exact (h.state_of_run ((hf.mine q).mpr heq)).1.1 hu
    rcases hf.state q hqm with hst | ⟨hl', -⟩
    · exact hst.trans hu
    · rw [(hy.has.holds _).mpr hl] at hl'
      exact absurd (Option.some.inj hl') hne

/-- **The other CPUs and the waiting processes** are as they were, so the invariant is kept when the code itself is safe. -/
theorem Inv.next (h : Inv m mk) (hf : Leaves m m' mk mk' c me) (hc : m'.code c = some (me, k)) (hx : m'.CodeOk mk' c me x)
    (hs : Safe me x k) : Inv m' mk' := by
  have hrun : ∀ c' p, m'.cpu c' = .run p ↔ m.cpu c' = .run p := by
    intro c' p
    by_cases hne : c' = c
    · subst hne
      exact hf.run p
    · rw [hf.cpu c' hne]
  refine ⟨?_, ?_, ?_, ?_, fun p q hpq => hf.mk_used h hpq, fun p p' q hp hp' => hf.mk_inj h hp hp', ?_⟩
  · intro c' hn
    have hne : c' ≠ c := by
      rintro rfl
      rw [hc] at hn
      cases hn
    have hn' : m.code c' = none := by
      unfold Machine.code at hn ⊢
      rw [hf.cpu c' hne] at hn
      split at hn
      · cases hn
      · cases hn
      · rfl
    obtain ⟨h1, h2⟩ := h.sched c' hn'
    rw [hf.cpu c' hne]
    exact ⟨fun l => (hf.holder c' hne l).trans (h1 l), (hf.noff c' hne).trans h2⟩
  · intro c' me' k' hc'
    by_cases hne : c' = c
    · subst hne
      rw [hc] at hc'
      obtain ⟨rfl, rfl⟩ := Prod.mk.inj (Option.some.inj hc')
      exact ⟨x, hx, hs⟩
    · exact hf.code h hne hc'
  · intro c1 c2 p h1 h2
    exact h.once c1 c2 p ((hrun c1 p).mp h1) ((hrun c2 p).mp h2)
  · intro p hno hst
    have hno' : ∀ c', m.cpu c' ≠ .run p := fun c' heq => hno c' ((hrun c' p).mpr heq)
    exact hf.parked h (fun heq => hno' c ((hf.mine p).mpr heq)) hno' hst
  · intro p hp
    by_cases heq : me = some p
    · exact hf.lively p heq hp
    · rw [hf.making p heq] at hp
      have hl := h.mk_lively p hp
      refine hf.lively_stays heq hl fun r hr => ?_
      rw [(h.mk_used r p hr).1] at hl
      rcases hl with hl | hl | hl <;> cases hl

/-- **A turn of the scheduler**, or a process that leaves its CPU: the CPU's mode changes, and at most one runnable process starts to
run. -/
theorem Inv.turn (h : Inv m mk) (hcpu : ∀ c', c' ≠ c → m'.cpu c' = m.cpu c')
    (hholder : ∀ c', c' ≠ c → ∀ l, m'.holder l = some c' ↔ m.holder l = some c') (hnoff : ∀ c', c' ≠ c → m'.noff c' = m.noff c')
    (hstate : ∀ q, m'.state q = m.state q ∨ m.state q = .runnable ∧ m'.state q = .running ∧ m'.cpu c = .run q)
    (hcont : ∀ q, m'.cont q = m.cont q ∨ m.cpu c = .run q)
    (hsched : m'.code c = none → m'.Has c (Mode.held (m'.cpu c)))
    (hcode : ∀ me k, m'.code c = some (me, k) → ∃ x, m'.CodeOk mk c me x ∧ Safe me x k)
    (honce : ∀ p c', c' ≠ c → m'.cpu c = .run p → m.cpu c' ≠ .run p)
    (hpark : ∀ p, m.cpu c = .run p → m'.state p = .runnable ∨ m'.state p = .sleeping →
      Safe (some p) ⟨{.proc p}, .running, none, mk p⟩ (m'.cont p)) : Inv m' mk := by
  -- a process on another CPU
  have hother : ∀ c' p, c' ≠ c → m.cpu c' = .run p → m'.state p = m.state p ∧ m'.cont p = m.cont p := by
    intro c' p hne hp
    refine ⟨(hstate p).resolve_right fun hr => honce p c' hne hr.2.2 hp, (hcont p).resolve_right fun hr => ?_⟩
    exact hne (h.once c' c p hp hr)
  refine ⟨?_, ?_, ?_, ?_, ?_, h.mk_inj, ?_⟩
  · intro c' hn
    by_cases hne : c' = c
    · subst hne
      exact hsched hn
    · unfold Machine.code at hn
      rw [hcpu c' hne] at hn ⊢
      have hn' : m.code c' = none := by
        unfold Machine.code
        split at hn
        · cases hn
        · cases hn
        · rfl
      obtain ⟨h1, h2⟩ := h.sched c' hn'
      exact ⟨fun l => (hholder c' hne l).trans (h1 l), (hnoff c' hne).trans h2⟩
  · intro c' me' k' hc'
    by_cases hne : c' = c
    · subst hne
      exact hcode me' k' hc'
    · have hc : m.code c' = some (me', k') ∧ ∀ p, me' = some p → m.cpu c' = .run p := by
        unfold Machine.code at hc' ⊢
        rw [hcpu c' hne] at hc'
        split at hc'
        · rename_i p hp
          rw [(hother c' p hne hp).2] at hc'
          refine ⟨hc', fun q hq => ?_⟩
          obtain ⟨rfl, -⟩ := Prod.mk.inj (Option.some.inj hc')
          rw [hp, Option.some.inj hq]
        · refine ⟨hc', fun q hq => ?_⟩
          obtain ⟨rfl, -⟩ := Prod.mk.inj (Option.some.inj hc')
          cases hq
        · cases hc'
      obtain ⟨y, hy, hs⟩ := h.code c' me' k' hc.1
      refine ⟨y, ⟨⟨?_, (hnoff c' hne).trans hy.has.noff⟩, ?_, hy.own_lock, hy.none_making, hy.proper, ?_⟩, hs⟩
      · intro l
        rw [hholder c' hne, hy.has.holds]
      · intro p hp
        rw [(hother c' p hne (hc.2 p hp)).1]
        exact hy.own p hp
      · intro q hq
        obtain ⟨hl, hu⟩ := hy.found q hq
        refine ⟨hl, ?_⟩
        rcases hstate q with hst | ⟨hr, -⟩
        · exact hst.trans hu
        · rw [hu] at hr; cases hr
  · intro c1 c2 p h1 h2
    by_cases hc1 : c1 = c
    · by_cases hc2 : c2 = c
      · exact hc1.trans hc2.symm
      · rw [hcpu c2 hc2] at h2
        exact absurd h2 (honce p c2 hc2 (hc1 ▸ h1))
    · rw [hcpu c1 hc1] at h1
      by_cases hc2 : c2 = c
      · exact absurd h1 (honce p c1 hc1 (hc2 ▸ h2))
      · rw [hcpu c2 hc2] at h2
        exact h.once c1 c2 p h1 h2
  · intro p hno hst
    by_cases hp : m.cpu c = .run p
    · exact hpark p hp hst
    · have hno' : ∀ c', m.cpu c' ≠ .run p := by
        intro c' heq
        by_cases hne : c' = c
        · exact hp (hne ▸ heq)
        · exact hno c' ((hcpu c' hne).trans heq)
      rw [(hcont p).resolve_right hp]
      rcases hstate p with hs | ⟨-, hr, -⟩
      · exact h.parked p hno' (hs ▸ hst)
      · rw [hr] at hst
        rcases hst with hst | hst <;> cases hst
  · intro p q hpq
    obtain ⟨hu, hc⟩ := h.mk_used p q hpq
    refine ⟨?_, ((hcont q).resolve_right fun hr => (h.state_of_run hr).1.2 hu).trans hc⟩
    rcases hstate q with hs | ⟨hr, -⟩
    · exact hs.trans hu
    · rw [hu] at hr; cases hr
  · intro p hp
    rcases hstate p with hs | ⟨-, hr, -⟩
    · rw [hs]
      exact h.mk_lively p hp
    · exact .inl hr

end

/-! ## Steps of code -/

section Exec

theorem code_run {m : Machine κ} {c : κ} {me : Option Slot} {k : Prog} (hc : m.code c = some (me, k)) (p : Slot) :
    m.cpu c = .run p ↔ me = some p := by
  unfold code at hc
  split at hc
  · rename_i q hq
    obtain ⟨rfl, -⟩ := Prod.mk.inj (Option.some.inj hc)
    rw [hq]
    simp
  · rename_i hq
    obtain ⟨rfl, -⟩ := Prod.mk.inj (Option.some.inj hc)
    rw [hq]
    simp
  · cases hc

/-- At the start no lock is held, and the first process will begin at `forkret`. -/
theorem inv_boot (initproc : Slot) : Inv (boot initproc : Machine κ) fun _ => none := by
  have hcode : ∀ c, (boot initproc : Machine κ).code c = none := fun _ => rfl
  refine ⟨fun c _ => ⟨?_, rfl⟩, ?_, nofun, fun p _ _ => safe_forkret, nofun, nofun, ?_⟩
  · intro l
    simp [boot, Mode.held]
  · intro c me k hc
    rw [hcode c] at hc
    cases hc
  · intro p hp
    exact absurd rfl hp

variable [DecidableEq κ] {m m' : Machine κ} {mk mk' : Slot → Option Slot} {c : κ} {me : Option Slot} {k k' : Prog} {x y : Ctx}

@[simp] theorem setProg_table (m : Machine κ) (c : κ) (k : Prog) : (m.setProg c k).table = m.table := by
  unfold setProg
  split <;> rfl

@[simp] theorem setProg_state (m : Machine κ) (c : κ) (k : Prog) (q : Slot) : (m.setProg c k).state q = m.state q := by
  unfold state
  rw [setProg_table]

@[simp] theorem setProg_holder (m : Machine κ) (c : κ) (k : Prog) : (m.setProg c k).holder = m.holder := by
  unfold setProg
  split <;> rfl

@[simp] theorem setProg_noff (m : Machine κ) (c : κ) (k : Prog) : (m.setProg c k).noff = m.noff := by
  unfold setProg
  split <;> rfl

/-- The code goes on on the same CPU in the same process. -/
theorem setProg_code (hc : m.code c = some (me, k)) (hcpu : m'.cpu = m.cpu) (k' : Prog) : (m'.setProg c k').code c = some (me, k') ∧
    (∀ p, (m'.setProg c k').cpu c = .run p ↔ m.cpu c = .run p) ∧ (∀ c', c' ≠ c → (m'.setProg c k').cpu c' = m.cpu c') ∧
    ∀ p, me ≠ some p → (m'.setProg c k').cont p = m'.cont p := by
  have hcpu' : m'.cpu c = m.cpu c := congrFun hcpu c
  unfold code at hc
  split at hc
  · rename_i q hq
    obtain ⟨rfl, -⟩ := Prod.mk.inj (Option.some.inj hc)
    have hset : m'.setProg c k' = { m' with cont := Function.update m'.cont q k' } := by
      unfold setProg
      rw [hcpu', hq]
    rw [hset]
    refine ⟨by simp [code, hcpu', hq], fun p => by rw [hcpu], fun c' _ => by rw [hcpu], ?_⟩
    intro p hp
    exact Function.update_of_ne (fun heq => hp (congrArg some heq.symm)) _ _
  · rename_i k0 i hq
    obtain ⟨rfl, -⟩ := Prod.mk.inj (Option.some.inj hc)
    have hset : m'.setProg c k' = m'.setMode c (.intr k' i) := by
      unfold setProg
      rw [hcpu', hq]
    rw [hset]
    refine ⟨by simp [code, setMode], fun p => by simp [setMode, hq], fun c' hne => by simp [setMode, hne, hcpu], fun _ _ => rfl⟩
  · cases hc

/-- **One step of code.**  The CPU's code goes on with `k'` in the machine `m1`, in the context `y`. -/
theorem Inv.setProg {m1 : Machine κ} (h : Inv m mk) (hc : m.code c = some (me, k)) (hcpu : m1.cpu = m.cpu)
    (hholder : ∀ c', c' ≠ c → ∀ l, m1.holder l = some c' ↔ m.holder l = some c') (hnoff : ∀ c', c' ≠ c → m1.noff c' = m.noff c')
    (hcont : ∀ p, me ≠ some p → m1.cont p = m.cont p ∨ m.state p = .unused ∧ m1.cont p = forkret p)
    (hstate : ∀ q, me ≠ some q → m1.state q = m.state q ∨ m.holder (.proc q) = some c ∧ Change m m1 mk mk' me q)
    (hmk : ∀ p, me ≠ some p → mk' p = mk p)
    (hmk_me : ∀ p q, me = some p → mk' p = some q →
      mk p = some q ∨ m.state q = .unused ∧ m1.state q = .used ∧ m1.cont q = forkret q ∧ me ≠ some q)
    (hy : m1.CodeOk mk' c me y) (hl : ∀ p, me = some p → mk' p ≠ none → Lively (m1.state p)) (hs : Safe me y k') :
    Inv (m1.setProg c k') mk' := by
  obtain ⟨h1, h2, h3, h4⟩ := setProg_code hc hcpu k'
  refine h.next (x := y) ⟨h3, h2, code_run hc, ?_, ?_, ?_, ?_, hmk, ?_, ?_⟩ h1 ?_ hs
  · rw [setProg_holder]
    exact hholder
  · rw [setProg_noff]
    exact hnoff
  · intro p hp
    rw [h4 p hp]
    exact hcont p hp
  · intro q hq
    rw [setProg_state]
    rcases hstate q hq with hst | ⟨hl', hch⟩
    · exact .inl hst
    · refine .inr ⟨hl', ?_⟩
      cases hch with
      | wake a b => exact .wake a (by rw [setProg_state]; exact b)
      | free a b => exact .free a (by rw [setProg_state]; exact b)
      | drop a b c d => exact .drop a b c (by rw [setProg_state]; exact d)
      | take a b c => exact .take a b (by rw [setProg_state]; exact c)
  · intro p q hp hpq
    rcases hmk_me p q hp hpq with hold | ⟨a, b, d, hne⟩
    · exact .inl hold
    · exact .inr ⟨a, by rw [setProg_state]; exact b, by rw [h4 q hne]; exact d⟩
  · intro p hp hne
    rw [setProg_state]
    exact hl p hp hne
  · obtain ⟨a, b, d, e, f, g⟩ := hy
    refine ⟨⟨by rw [setProg_holder]; exact a.holds, by rw [setProg_noff]; exact a.noff⟩, ?_, d, e, f, ?_⟩
    · intro p hp
      rw [setProg_state]
      exact b p hp
    · intro q hq
      rw [setProg_state]
      exact g q hq

theorem lock_holder {l : Lock} (hl : m.holder l = none) (c' : κ) (hne : c' ≠ c) (l' : Lock) :
    (m.lock c l).holder l' = some c' ↔ m.holder l' = some c' := by
  show Function.update m.holder l (some c) l' = some c' ↔ _
  by_cases hll : l' = l
  · subst hll
    rw [Function.update_self, hl]
    simpa using hne.symm
  · rw [Function.update_of_ne hll]

theorem lock_has {l : Lock} {held : Finset Lock} (h : m.Has c held) (hl : m.holder l = none) : (m.lock c l).Has c (insert l held) := by
  have hlx : l ∉ held := by
    intro hm
    rw [(h.holds l).mpr hm] at hl
    cases hl
  constructor
  · intro l'
    show Function.update m.holder l (some c) l' = some c ↔ l' ∈ insert l held
    by_cases hll : l' = l
    · subst hll
      simp
    · rw [Function.update_of_ne hll, h.holds l']
      simp [hll]
  · show Function.update m.noff c (m.noff c + 1) c = (insert l held).card
    rw [Function.update_self, h.noff, Finset.card_insert_of_notMem hlx]

theorem unlock_holder {l : Lock} (hl : m.holder l = some c) (c' : κ) (hne : c' ≠ c) (l' : Lock) :
    (m.unlock c l).holder l' = some c' ↔ m.holder l' = some c' := by
  show Function.update m.holder l none l' = some c' ↔ _
  by_cases hll : l' = l
  · subst hll
    rw [Function.update_self, hl]
    simpa using hne.symm
  · rw [Function.update_of_ne hll]

theorem unlock_has {l : Lock} {held : Finset Lock} (h : m.Has c held) (hl : l ∈ held) : (m.unlock c l).Has c (held.erase l) := by
  constructor
  · intro l'
    show Function.update m.holder l none l' = some c ↔ l' ∈ held.erase l
    by_cases hll : l' = l
    · subst hll
      simp
    · rw [Function.update_of_ne hll, h.holds l']
      simp [hll]
  · show Function.update m.noff c (m.noff c - 1) c = (held.erase l).card
    rw [Function.update_self, h.noff, Finset.card_erase_of_mem hl]

theorem Inv.acquire {l : Lock} (h : Inv m mk) (hc : m.code c = some (me, .acquire l k)) (hl : m.holder l = none) :
    Inv ((m.lock c l).setProg c k) mk := by
  obtain ⟨x, hx, -, hs⟩ := h.code c me _ hc
  refine h.setProg hc rfl (lock_holder hl) (fun c' hne => Function.update_of_ne hne _ _) (fun _ _ => .inl rfl) (fun _ _ => .inl rfl)
    (fun _ _ => rfl) (fun _ _ _ hpq => .inl hpq) ?_ hx.lively hs
  refine ⟨lock_has hx.has hl, hx.own, ?_, hx.none_making, ⟨hx.proper.alive, hx.proper.making⟩, ?_⟩
  · intro p hp hnl
    exact hx.own_lock p hp fun hm => hnl (Finset.mem_insert_of_mem hm)
  · intro q hq
    obtain ⟨h1, h2⟩ := hx.found q hq
    exact ⟨Finset.mem_insert_of_mem h1, h2⟩

theorem Inv.release {l : Lock} (h : Inv m mk) (hc : m.code c = some (me, .release l k)) : Inv ((m.unlock c l).setProg c k) mk := by
  obtain ⟨x, hx, hl, hown, hfound, hs⟩ := h.code c me _ hc
  refine h.setProg hc rfl (unlock_holder ((hx.has.holds l).mpr hl)) (fun c' hne => Function.update_of_ne hne _ _)
    (fun _ _ => .inl rfl) (fun _ _ => .inl rfl) (fun _ _ => rfl) (fun _ _ _ hpq => .inl hpq) ?_ hx.lively hs
  refine ⟨unlock_has hx.has hl, hx.own, ?_, hx.none_making, ⟨hx.proper.alive, hx.proper.making⟩, ?_⟩
  · intro p hp hnl
    by_cases hlp : l = .proc p
    · exact hown p hp hlp
    · exact hx.own_lock p hp fun hm => hnl (Finset.mem_erase.mpr ⟨fun heq => hlp heq.symm, hm⟩)
  · intro q hq
    obtain ⟨h1, h2⟩ := hx.found q hq
    exact ⟨Finset.mem_erase.mpr ⟨fun heq => hfound q hq heq.symm, h1⟩, h2⟩

/-- The slots that are being set up, when the code `me` goes on with `making`. -/
def remake (mk : Slot → Option Slot) (me making : Option Slot) : Slot → Option Slot :=
  fun p => if me = some p then making else mk p

theorem Inv.atomic {f : Table → Bool → Table} {k : Table → Bool → Prog} {b : Bool} (h : Inv m mk)
    (hc : m.code c = some (me, .atomic f k)) :
    ∃ mk', Inv (Machine.setProg { m with table := f m.table b } c (k m.table b)) mk' := by
  obtain ⟨x, hx, hs⟩ := h.code c me _ hc
  obtain ⟨y, hw, hsy⟩ := hs m.table b (h.knows hx)
  have hmk_me : ∀ p, me = some p → remake mk me y.making p = y.making := fun p hp => if_pos hp
  have hmk_ne : ∀ p, me ≠ some p → remake mk me y.making p = mk p := fun p hp => if_neg hp
  refine ⟨remake mk me y.making, h.setProg hc rfl (fun _ _ _ => Iff.rfl) (fun _ _ => rfl) (fun _ _ => .inl rfl) ?_ hmk_ne ?_ ?_ ?_ hsy⟩
  · intro q hq
    by_cases hst : ((f m.table b).proc q).state = (m.table.proc q).state
    · exact .inl hst
    obtain ⟨hl, hch⟩ := hw.other q hq hst
    refine .inr ⟨(hx.has.holds _).mpr hl, ?_⟩
    rcases hch with ⟨h1, h2⟩ | ⟨h1, h2⟩ | ⟨h1, h2, h3⟩
    · exact .wake h1 h2
    · exact .free h1 h2
    · cases hme : me with
      | none =>
        rw [hx.none_making hme] at h1
        cases h1
      | some p =>
        have hp : me = some p := hme
        subst hme
        exact .drop rfl ((hx.own p hp).2.trans h1) ((hmk_me p hp).trans h2) h3
  · intro p q hp hpq
    rw [hmk_me p hp] at hpq
    rcases hw.making with hn | ⟨heq, -⟩
    · rw [hn] at hpq
      cases hpq
    · exact .inl ((hx.own p hp).2.trans (heq.symm.trans hpq))
  · refine ⟨⟨fun l => by rw [hw.held]; exact hx.has.holds l, by rw [hw.held]; exact hx.has.noff⟩, ?_, ?_, ?_, ?_, ?_⟩
    · intro p hp
      exact ⟨hw.own p hp, hmk_me p hp⟩
    · intro p hp hnl
      rw [hw.held] at hnl
      exact (hw.own_lock p hp hnl).trans (hx.own_lock p hp hnl)
    · intro hn
      rcases hw.making with h1 | ⟨h1, -⟩
      · exact h1
      · exact h1.trans (hx.none_making hn)
    · exact ⟨hw.alive, hw.making.imp id And.right⟩
    · intro q hq
      rw [hw.held]
      rcases hw.found with heq | hn | ⟨r, hr, hl, -, hu⟩
      · obtain ⟨hl, hu⟩ := hx.found q (heq.symm.trans hq)
        refine ⟨hl, ?_⟩
        have hqm : me ≠ some q := fun hme => hx.proper.alive.1 ((hx.own q hme).1.symm.trans hu)
        by_contra hst
        have hu' : (m.table.proc q).state = .unused := hu
        obtain ⟨-, ⟨h1, -⟩ | ⟨h1, -⟩ | ⟨h1, -⟩⟩ := hw.other q hqm fun heq' => hst (heq'.trans hu')
        · rw [hu'] at h1; cases h1
        · rw [hu'] at h1; cases h1
        · rw [(h.knows hx).making q h1] at hu'; cases hu'
      · rw [hn] at hq
        cases hq
      · obtain rfl := Option.some.inj (hr.symm.trans hq)
        exact ⟨hl, hu⟩
  · intro p hp hne
    rw [hmk_me p hp] at hne
    show Lively ((f m.table b).proc p).state
    rw [hw.own p hp]
    rcases hw.making with hn | ⟨-, hlv⟩
    · exact absurd hn hne
    · exact hlv

/-- `allocproc` takes the slot, or gives it back. -/
theorem Inv.init {q : Slot} {pid : ℤ} {k : Bool → Prog} {b : Bool} (h : Inv m mk) (hc : m.code c = some (me, .init q pid k)) :
    ∃ mk', Inv ((m.init q pid b).setProg c (k b)) mk' := by
  obtain ⟨x, hx, hfound, -, ⟨p0, rfl, hp0⟩, hlv, hst, hsf⟩ := h.code c me _ hc
  obtain ⟨hl, hu⟩ := hx.found q hfound
  have hlc := (hx.has.holds _).mpr hl
  cases b with
  | false =>
    have hstate : ∀ r, (m.init q pid false).state r = m.state r := by
      intro r
      by_cases hr : r = q
      · subst hr
        exact set_state_self.trans hu.symm
      · exact set_state_of_ne hr
    refine ⟨mk, h.setProg hc rfl (fun _ _ _ => Iff.rfl) (fun _ _ => rfl) (fun _ _ => .inl rfl) (fun r _ => .inl (hstate r))
      (fun _ _ => rfl) (fun _ _ _ hpq => .inl hpq) ?_ ?_ hsf⟩
    · refine ⟨⟨hx.has.holds, hx.has.noff⟩, ?_, hx.own_lock, hx.none_making, ⟨hx.proper.alive, hx.proper.making⟩, nofun⟩
      intro p hp
      rw [hstate]
      exact hx.own p hp
    · intro p hp hne
      rw [hstate]
      exact hx.lively p hp hne
  | true =>
    have hself : (m.init q pid true).state q = .used := set_state_self
    have hne : ∀ r, r ≠ q → (m.init q pid true).state r = m.state r := fun r hr => set_state_of_ne hr
    have hmk_me : remake mk (some p0) (some q) p0 = some q := if_pos rfl
    have hmk_ne : ∀ p, some p0 ≠ some p → remake mk (some p0) (some q) p = mk p := fun p hp => if_neg hp
    refine ⟨remake mk (some p0) (some q), h.setProg hc rfl (fun _ _ _ => Iff.rfl) (fun _ _ => rfl) ?_ ?_ hmk_ne ?_ ?_ ?_ hst⟩
    · intro p hp
      by_cases hpq' : p = q
      · subst hpq'
        exact .inr ⟨hu, Function.update_self _ _ _⟩
      · exact .inl (Function.update_of_ne hpq' _ _)
    · intro r _
      by_cases hr : r = q
      · subst hr
        exact .inr ⟨hlc, .take rfl hu hself⟩
      · exact .inl (hne r hr)
    · rintro p r ⟨rfl⟩ hpr
      obtain rfl := Option.some.inj (hmk_me.symm.trans hpr)
      exact .inr ⟨hu, hself, Function.update_self _ _ _, by simpa using hp0⟩
    · refine ⟨⟨hx.has.holds, hx.has.noff⟩, ?_, hx.own_lock, nofun, ⟨hx.proper.alive, .inr hlv⟩, nofun⟩
      rintro _ ⟨rfl⟩
      rw [hne p0 hp0]
      exact ⟨(hx.own p0 rfl).1, hmk_me⟩
    · rintro _ ⟨rfl⟩ _
      rw [hne p0 hp0, (hx.own p0 rfl).1]
      exact hlv

/-- **`sched`** leaves the CPU to its scheduler, with the lock of the process. -/
theorem Inv.sched_step (h : Inv m mk) {p : Slot} (hp : m.cpu c = .run p) (hk : m.cont p = .sched k) :
    Inv (Machine.setMode { m with cont := Function.update m.cont p k } c (.back p)) mk := by
  obtain ⟨⟨held, st, found, making⟩, hx, p', hp', hheld, hst, hfound, hs⟩ := h.code c (some p) (.sched k) (by simp [Machine.code, hp, hk])
  obtain rfl := Option.some.inj hp'
  dsimp only at hheld hst hfound
  subst hheld hfound
  refine h.turn (c := c) (fun c' hne => by simp [setMode, hne]) (fun _ _ _ => Iff.rfl) (fun _ _ => rfl) (fun _ => .inl rfl) ?_ ?_ ?_ ?_ ?_
  · intro q
    by_cases hq : q = p
    · exact .inr (hq ▸ hp)
    · exact .inl (by simp [setMode, hq])
  · intro _
    have hcpu : (Machine.setMode { m with cont := Function.update m.cont p k } c (.back p)).cpu c = .back p := by simp [setMode]
    rw [hcpu]
    exact ⟨hx.has.holds, hx.has.noff⟩
  · intro me k' hc'
    simp [Machine.code, setMode] at hc'
  · intro q c' _ hq
    simp [setMode] at hq
  · intro q hq hq'
    rw [hp] at hq
    obtain rfl := Mode.run.inj hq
    obtain ⟨hst', hmk⟩ := hx.own p rfl
    have hcont : (Machine.setMode { m with cont := Function.update m.cont p k } c (.back p)).cont p = k := by simp [setMode]
    rw [hcont, hmk]
    refine hs ?_
    have hq'' : m.state p = .runnable ∨ m.state p = .sleeping := hq'
    rw [hst'] at hq''
    exact .inr hq''

/-- A mode of the scheduler, with the locks of that mode. -/
theorem Inv.setMode {x : Mode} (h : Inv m mk) (hc : m.code c = none) (hx : ∀ k i, x ≠ .intr k i) (hr : ∀ p, x ≠ .run p)
    (hheld : Mode.held x = Mode.held (m.cpu c)) : Inv (m.setMode c x) mk := by
  have hcpu : (m.setMode c x).cpu c = x := by simp [Machine.setMode]
  refine h.turn (c := c) (fun c' hne => by simp [Machine.setMode, hne]) (fun _ _ _ => Iff.rfl) (fun _ _ => rfl) (fun _ => .inl rfl)
    (fun _ => .inl rfl) ?_ ?_ ?_ ?_
  · intro _
    rw [hcpu, hheld]
    obtain ⟨h1, h2⟩ := h.sched c hc
    exact ⟨h1, h2⟩
  · intro me k hc'
    unfold Machine.code at hc'
    rw [hcpu] at hc'
    split at hc'
    · exact absurd rfl (hr _)
    · exact absurd rfl (hx _ _)
    · cases hc'
  · intro p c' _ hp
    rw [hcpu] at hp
    exact absurd hp (hr p)
  · intro p hp
    simp [Machine.code, hp] at hc

/-- The end of an interrupt. -/
theorem Inv.intr_end (h : Inv m mk) {i : ℕ} (hc : m.cpu c = .intr .halt i) : Inv (m.setMode c (.scan i)) mk := by
  obtain ⟨x, hx, hs⟩ := h.code c none .halt (by simp [Machine.code, hc])
  have hcpu : (m.setMode c (.scan i)).cpu c = .scan i := by simp [Machine.setMode]
  refine h.turn (c := c) (fun c' hne => by simp [Machine.setMode, hne]) (fun _ _ _ => Iff.rfl) (fun _ _ => rfl) (fun _ => .inl rfl)
    (fun _ => .inl rfl) ?_ ?_ ?_ ?_
  · intro _
    rw [hcpu]
    have hempty : x.held = ∅ := hs rfl
    obtain ⟨h1, h2⟩ := hx.has
    rw [hempty] at h1 h2
    exact ⟨h1, h2⟩
  · intro me k hc'
    simp [Machine.code, hcpu] at hc'
  · intro p c' _ hp
    rw [hcpu] at hp
    cases hp
  · intro p hp
    rw [hc] at hp
    cases hp

/-- An interrupt while the scheduler scans. -/
theorem Inv.intr_begin (h : Inv m mk) {i : ℕ} (hc : m.cpu c = .scan i) (n : ℕ) (chan : Chan) :
    Inv (m.setMode c (.intr (Locks.device none n chan .halt) i)) mk := by
  have hhas := h.sched c (by simp [Machine.code, hc])
  rw [hc] at hhas
  have hcpu : (m.setMode c (.intr (Locks.device none n chan .halt) i)).cpu c = .intr (Locks.device none n chan .halt) i := by
    simp [Machine.setMode]
  refine h.turn (c := c) (fun c' hne => by simp [Machine.setMode, hne]) (fun _ _ _ => Iff.rfl) (fun _ _ => rfl) (fun _ => .inl rfl)
    (fun _ => .inl rfl) ?_ ?_ ?_ ?_
  · intro hn
    simp [Machine.code, hcpu] at hn
  · intro me k hc'
    unfold Machine.code at hc'
    rw [hcpu] at hc'
    obtain ⟨rfl, rfl⟩ := Prod.mk.inj (Option.some.inj hc')
    refine ⟨⟨∅, .running, none, none⟩, ⟨⟨hhas.holds, hhas.noff⟩, nofun, nofun, fun _ => rfl, Ctx.proper_running, nofun⟩, ?_⟩
    exact safe_device Ctx.proper_running rfl rfl n chan fun _ => rfl
  · intro p c' _ hp
    rw [hcpu] at hp
    cases hp
  · intro p hp
    rw [hc] at hp
    cases hp

/-- The scheduler takes the lock of a slot. -/
theorem Inv.scan_acquire (h : Inv m mk) {n : ℕ} {i : Slot} (hc : m.cpu c = .scan n) (hl : m.holder (.proc i) = none) :
    Inv ((m.lock c (.proc i)).setMode c (.test i)) mk := by
  have hhas := h.sched c (by simp [Machine.code, hc])
  rw [hc] at hhas
  have hcpu : ((m.lock c (.proc i)).setMode c (.test i)).cpu c = .test i := by simp [Machine.setMode]
  refine h.turn (c := c) (fun c' hne => by simp [Machine.setMode, Machine.lock, hne]) (lock_holder hl)
    (fun c' hne => Function.update_of_ne hne _ _) (fun _ => .inl rfl) (fun _ => .inl rfl) ?_ ?_ ?_ ?_
  · intro _
    rw [hcpu]
    obtain ⟨h1, h2⟩ := lock_has hhas hl
    exact ⟨h1, h2⟩
  · intro me k hc'
    simp [Machine.code, hcpu] at hc'
  · intro p c' _ hp
    rw [hcpu] at hp
    cases hp
  · intro p hp
    rw [hc] at hp
    cases hp

/-- The scheduler gives the lock of a slot back. -/
theorem Inv.back_release (h : Inv m mk) {n : ℕ} {i : Slot} (hc : m.cpu c = .back i) :
    Inv ((m.unlock c (.proc i)).setMode c (.scan n)) mk := by
  have hhas := h.sched c (by simp [Machine.code, hc])
  rw [hc] at hhas
  have hmem : Lock.proc i ∈ Mode.held (.back i) := Finset.mem_singleton_self _
  have hcpu : ((m.unlock c (.proc i)).setMode c (.scan n)).cpu c = .scan n := by simp [Machine.setMode]
  refine h.turn (c := c) (fun c' hne => by simp [Machine.setMode, Machine.unlock, hne]) (unlock_holder ((hhas.holds _).mpr hmem))
    (fun c' hne => Function.update_of_ne hne _ _) (fun _ => .inl rfl) (fun _ => .inl rfl) ?_ ?_ ?_ ?_
  · intro _
    rw [hcpu]
    obtain ⟨h1, h2⟩ := unlock_has hhas hmem
    have herase : (Mode.held (.back i)).erase (Lock.proc i) = ∅ := Finset.erase_singleton _
    rw [herase] at h1 h2
    exact ⟨h1, h2⟩
  · intro me k hc'
    simp [Machine.code, hcpu] at hc'
  · intro p c' _ hp
    rw [hcpu] at hp
    cases hp
  · intro p hp
    rw [hc] at hp
    cases hp

/-- **The scheduler switches to a process.**  With its lock held and the process runnable, it is on no other CPU. -/
theorem Inv.test_run (h : Inv m mk) {i : Slot} (hc : m.cpu c = .test i) (hs : m.state i = .runnable) :
    Inv (Machine.setMode { m with table := m.table.setState i .running } c (.run i)) mk := by
  have hhas := h.sched c (by simp [Machine.code, hc])
  rw [hc] at hhas
  have hlc : m.holder (.proc i) = some c := (hhas.holds _).mpr (Finset.mem_singleton_self _)
  have hno : ∀ c', m.cpu c' ≠ .run i := by
    intro c' hr
    have hrun := (h.state_of_run hr).2 (by
      rw [hlc]
      intro heq
      obtain rfl := Option.some.inj heq
      rw [hc] at hr
      cases hr)
    rw [hs] at hrun
    cases hrun
  have hcpu : (Machine.setMode { m with table := m.table.setState i .running } c (.run i)).cpu c = .run i := by simp [Machine.setMode]
  have hself : (Machine.setMode { m with table := m.table.setState i .running } c (.run i)).state i = .running := set_state_self
  refine h.turn (c := c) (fun c' hne => by simp [Machine.setMode, hne]) (fun _ _ _ => Iff.rfl) (fun _ _ => rfl) ?_
    (fun _ => .inl rfl) ?_ ?_ ?_ ?_
  · intro q
    by_cases hq : q = i
    · subst hq
      exact .inr ⟨hs, hself, hcpu⟩
    · exact .inl (set_state_of_ne hq)
  · intro hn
    simp [Machine.code, hcpu] at hn
  · intro me k hc'
    unfold Machine.code at hc'
    rw [hcpu] at hc'
    obtain ⟨rfl, rfl⟩ := Prod.mk.inj (Option.some.inj hc')
    refine ⟨⟨{Lock.proc i}, .running, none, mk i⟩, ⟨⟨hhas.holds, hhas.noff⟩, ?_, fun _ _ _ => rfl, nofun, Ctx.proper_running, nofun⟩,
      h.parked i hno (.inl hs)⟩
    rintro _ ⟨rfl⟩
    exact ⟨hself, rfl⟩
  · intro p c' _ hp
    rw [hcpu] at hp
    obtain rfl := Mode.run.inj hp
    exact hno c'
  · intro p hp
    rw [hc] at hp
    cases hp

/-- **One step of code** keeps the invariant. -/
theorem Inv.exec {b : Bool} (h : Inv m mk) (hc : m.code c = some (me, k)) (he : m.exec c me k b = some m') : ∃ mk', Inv m' mk' := by
  cases k with
  | acquire l k =>
    obtain ⟨m1, hm1, rfl⟩ := Option.map_eq_some_iff.mp he
    unfold Machine.acquire at hm1
    split_ifs at hm1 with hl
    obtain rfl := Option.some.inj hm1
    exact ⟨mk, h.acquire hc hl⟩
  | release l k =>
    obtain ⟨m1, hm1, rfl⟩ := Option.map_eq_some_iff.mp he
    unfold Machine.release at hm1
    split_ifs at hm1
    obtain rfl := Option.some.inj hm1
    exact ⟨mk, h.release hc⟩
  | atomic f k =>
    obtain rfl := Option.some.inj he
    exact h.atomic hc
  | init q pid k =>
    obtain rfl := Option.some.inj he
    exact h.init hc
  | sched k =>
    obtain ⟨p, rfl, rfl⟩ := Option.map_eq_some_iff.mp he
    have hp : m.cpu c = .run p := (code_run hc p).mpr rfl
    refine ⟨mk, h.sched_step hp ?_⟩
    have hk : m.code c = some (some p, m.cont p) := by simp [Machine.code, hp]
    exact (Prod.mk.inj (Option.some.inj (hk.symm.trans hc))).2
  | goto e => cases he
  | halt => cases he

/-- Where no lock is held, a process may be sent elsewhere: the code `k'` is safe in every context in which its own code is. -/
theorem Inv.detour (h : Inv m mk) (hc : m.code c = some (me, k)) (hs : ∀ x, m.CodeOk mk c me x → Safe me x k → Safe me x k') :
    Inv (m.setProg c k') mk := by
  obtain ⟨x, hx, hsx⟩ := h.code c me k hc
  exact h.setProg hc rfl (fun _ _ _ => Iff.rfl) (fun _ _ => rfl) (fun _ _ => .inl rfl) (fun _ _ => .inl rfl) (fun _ _ => rfl)
    (fun _ _ _ hpq => .inl hpq) hx hx.lively (hs x hx hsx)

/-- **One step of the machine** keeps the invariant. -/
theorem Inv.step {ch : Choice} (h : Inv m mk) (hst : m.step c ch = some m') : ∃ mk', Inv m' mk' := by
  unfold Machine.step at hst
  split at hst
  · rename_i i b hcpu
    split_ifs at hst with hi
    · obtain ⟨m1, hm1, rfl⟩ := Option.map_eq_some_iff.mp hst
      unfold Machine.acquire at hm1
      split_ifs at hm1 with hl
      obtain rfl := Option.some.inj hm1
      exact ⟨mk, h.scan_acquire hcpu hl⟩
    · obtain rfl := Option.some.inj hst
      refine ⟨mk, h.setMode (by simp [Machine.code, hcpu]) nofun nofun ?_⟩
      rw [hcpu]
      rfl
  · rename_i i n chan hcpu
    obtain rfl := Option.some.inj hst
    exact ⟨mk, h.intr_begin hcpu n chan⟩
  · rename_i i b hcpu
    split_ifs at hst with hr
    · obtain rfl := Option.some.inj hst
      exact ⟨mk, h.test_run hcpu hr⟩
    · obtain rfl := Option.some.inj hst
      refine ⟨mk, h.setMode (by simp [Machine.code, hcpu]) nofun nofun ?_⟩
      rw [hcpu]
      rfl
  · rename_i i b hcpu
    obtain ⟨m1, hm1, rfl⟩ := Option.map_eq_some_iff.mp hst
    unfold Machine.release at hm1
    split_ifs at hm1
    obtain rfl := Option.some.inj hm1
    exact ⟨mk, h.back_release hcpu⟩
  · rename_i i b hcpu
    obtain rfl := Option.some.inj hst
    exact ⟨mk, h.intr_end hcpu⟩
  · rename_i k i b _ hcpu
    exact h.exec (by simp [Machine.code, hcpu]) hst
  · rename_i p hcpu
    split_ifs at hst with hn
    obtain rfl := Option.some.inj hst
    have hcode : m.code c = some (some p, m.cont p) := by simp [Machine.code, hcpu]
    refine ⟨mk, h.detour hcode fun x hx hs => ?_⟩
    obtain rfl := hx.bare hn
    exact safe_yield hs
  · rename_i p n chan hcpu
    split_ifs at hst with hn
    obtain rfl := Option.some.inj hst
    have hcode : m.code c = some (some p, m.cont p) := by simp [Machine.code, hcpu]
    refine ⟨mk, h.detour hcode fun x hx hs => ?_⟩
    obtain rfl := hx.bare hn
    exact safe_device Ctx.proper_running rfl rfl n chan hs
  · rename_i p hcpu _ _
    split at hst
    · rename_i e hk _ _
      obtain ⟨k, hk', rfl⟩ := Option.map_eq_some_iff.mp hst
      have hcode : m.code c = some (some p, .goto e) := by simp [Machine.code, hcpu, hk]
      refine ⟨mk, h.detour hcode fun x _ hs => ?_⟩
      obtain rfl : x = e.ctx := hs
      exact enter_safe hk'
    · exact h.exec (by simp [Machine.code, hcpu]) hst
    · cases hst
  · cases hst

/-- **Every reachable machine** has the invariant. -/
theorem reachable_inv {initproc : Slot} (h : Reachable initproc m) : ∃ mk, Inv m mk := by
  refine h.inv (I := fun m => ∃ mk, Inv m mk) ?_ ?_
  · rintro _ rfl
    exact ⟨_, inv_boot initproc⟩
  · rintro m1 a o m2 ⟨mk, hm⟩ - hst
    exact hm.step hst

end Exec

/-! ## Who waits for whom -/

section Order

variable {m : Machine κ} {mk : Slot → Option Slot} {c c' : κ} {l : Lock}

/-- The lock that a CPU is about to take fits those that it holds. -/
theorem Inv.fits (h : Inv m mk) (hl : m.acquiring c = some l) : ∃ held, m.Has c held ∧ Fits held l := by
  unfold acquiring at hl
  split at hl
  · rename_i i hcpu
    have hhas := h.sched c (by simp [Machine.code, hcpu])
    rw [hcpu] at hhas
    exact ⟨∅, hhas, fits_empty l⟩
  · rename_i p hcpu
    split at hl
    · rename_i l' k hk
      obtain rfl := Option.some.inj hl
      obtain ⟨x, hx, hfit, -⟩ := h.code c (some p) (.acquire l' k) (by simp [Machine.code, hcpu, hk])
      exact ⟨x.held, hx.has, hfit⟩
    · cases hl
  · rename_i l' k i hcpu
    obtain rfl := Option.some.inj hl
    obtain ⟨x, hx, hfit, -⟩ := h.code c none (.acquire l' k) (by simp [Machine.code, hcpu])
    exact ⟨x.held, hx.has, hfit⟩
  · cases hl

/-- No CPU takes a lock twice. -/
theorem Inv.not_held (h : Inv m mk) (hl : m.acquiring c = some l) : m.holder l ≠ some c := by
  obtain ⟨held, hhas, hfit⟩ := h.fits hl
  intro hc
  exact hfit.1 ((hhas.holds l).mp hc)

/-- `sched` is called with the own lock alone, and not as a running process. -/
theorem Inv.calls_sched (h : Inv m mk) {p : Slot} (hs : m.CallsSched c p) :
    (∀ l, m.holder l = some c ↔ l = .proc p) ∧ m.noff c = 1 ∧ (m.table.proc p).state ≠ .running := by
  obtain ⟨hcpu, k, hk⟩ := hs
  obtain ⟨x, hx, p', hp', hheld, hst, -⟩ := h.code c (some p) (.sched k) (by simp [Machine.code, hcpu, hk])
  obtain rfl := Option.some.inj hp'
  refine ⟨fun l => ?_, ?_, ?_⟩
  · rw [hx.has.holds l, hheld, Finset.mem_singleton]
  · rw [hx.has.noff, hheld, Finset.card_singleton]
  · have hstate : (m.table.proc p).state = x.st := (hx.own p rfl).1
    rw [hstate]
    exact hst

variable [DecidableEq κ]

/-- How far up the order a CPU waits.  Of the CPUs that wait for a proc lock, the one with `wait_lock` is below the others. -/
def level (m : Machine κ) (c : κ) : ℕ :=
  match m.acquiring c with
  | none => 0
  | some .pid_lock => 1
  | some (.proc _) => if m.holder .wait_lock = some c then 2 else 3
  | some .wait_lock => 4
  | some (.other _) => 4

theorem level_pos (hl : m.acquiring c = some l) : 0 < m.level c := by
  unfold level
  rw [hl]
  cases l with
  | proc i => dsimp only; split_ifs <;> omega
  | _ => exact Nat.zero_lt_succ _

theorem level_proc_le {i : Slot} (hl : m.acquiring c = some (.proc i)) : m.level c ≤ 3 := by
  simp only [level, hl]
  split_ifs <;> omega

theorem one_lt_level (hl : m.acquiring c = some l) (hne : l ≠ .pid_lock) : 1 < m.level c := by
  cases l with
  | wait_lock => simp [level, hl]
  | pid_lock => exact absurd rfl hne
  | proc i => simp only [level, hl]; split_ifs <;> omega
  | other n => simp [level, hl]

/-- **The level falls along every edge.**  Who is waited for holds a lock, so it waits for a proc lock or for `pid_lock`. -/
theorem Inv.level_lt (h : Inv m mk) (hs : m.SpinsOn c c') : m.level c' < m.level c := by
  obtain ⟨l, hl, hc'⟩ := hs
  cases hl' : m.acquiring c' with
  | none =>
    have hzero : m.level c' = 0 := by simp [level, hl']
    rw [hzero]
    exact level_pos hl
  | some l' =>
    obtain ⟨held, hhas, hnot, hpid, hfit⟩ := h.fits hl'
    have hmem : l ∈ held := (hhas.holds l).mp hc'
    have hne_empty : held ≠ ∅ := Finset.ne_empty_of_mem hmem
    have hl_pid : l ≠ .pid_lock := fun heq => hpid (heq ▸ hmem)
    cases l' with
    | wait_lock => exact absurd hfit hne_empty
    | other n => exact absurd hfit hne_empty
    | pid_lock =>
      have hone : m.level c' = 1 := by simp [level, hl']
      rw [hone]
      exact one_lt_level hl hl_pid
    | proc j =>
      have hle := level_proc_le hl'
      cases l with
      | pid_lock => exact absurd rfl hl_pid
      | wait_lock =>
        have hfour : m.level c = 4 := by simp [level, hl]
        omega
      | other n =>
        have hfour : m.level c = 4 := by simp [level, hl]
        omega
      | proc i =>
        -- two proc locks, so the one who is waited for has `wait_lock`
        have hw : m.holder .wait_lock = some c' := (hhas.holds _).mpr (hfit ⟨i, hmem⟩)
        have hne : c' ≠ c := by
          rintro rfl
          exact h.not_held hl hc'
        have htwo : m.level c' = 2 := by simp [level, hl', hw]
        have hthree : m.level c = 3 := by simp [level, hl, hw, hne]
        omega

theorem Inv.level_lt_of_transGen (h : Inv m mk) (hs : Relation.TransGen m.SpinsOn c c') : m.level c' < m.level c := by
  induction hs with
  | single hs => exact h.level_lt hs
  | tail _ hs ih => exact (h.level_lt hs).trans ih

/-- **The lock discipline.**  In every reachable machine no CPUs wait in a circle, no CPU is about to take a lock that it has, and `sched`
is called with the caller's own lock alone by a process that is not running. -/
theorem lock_discipline (initproc : Slot) (m : Machine κ) (h : Reachable initproc m) :
    (∀ c, ¬ Relation.TransGen m.SpinsOn c c) ∧ (∀ c l, m.acquiring c = some l → m.holder l ≠ some c) ∧
      ∀ c p, m.CallsSched c p → (∀ l, m.holder l = some c ↔ l = .proc p) ∧ m.noff c = 1 ∧ (m.table.proc p).state ≠ .running := by
  obtain ⟨mk, hm⟩ := reachable_inv h
  refine ⟨fun c hc => ?_, fun c l hl => hm.not_held hl, fun c p hs => hm.calls_sched hs⟩
  exact absurd (hm.level_lt_of_transGen hc) (Nat.lt_irrefl _)

/-- The first slot. -/
def slot0 : Slot := ⟨0, by decide⟩

/-- CPU 0 runs the first process up to the `sched` of its `yield`, while CPU 1 spins on the lock of that process. -/
theorem lock_discipline_yield : ∃ m : Machine (Fin 2), Reachable slot0 m ∧ m.SpinsOn 1 0 ∧ m.CallsSched 0 slot0 ∧
    (∀ c, ¬ Relation.TransGen m.SpinsOn c c) ∧ (∀ l, m.holder l = some 0 ↔ l = .proc slot0) := by
  have h0 : Reachable slot0 (boot slot0 : Machine (Fin 2)) := .start rfl
  have hacquire := h0.step (a := (0, .go true)) (o := ()) trivial (by rfl)
  have hrun := hacquire.step (a := (0, .go true)) (o := ()) trivial (by rfl)
  have hforkret := hrun.step (a := (0, .go true)) (o := ()) trivial (by rfl)
  have htimer := hforkret.step (a := (0, .timer)) (o := ()) trivial (by rfl)
  have hlock := htimer.step (a := (0, .go true)) (o := ()) trivial (by rfl)
  have hsched := hlock.step (a := (0, .go true)) (o := ()) trivial (by rfl)
  obtain ⟨h1, -, h2⟩ := lock_discipline slot0 _ hsched
  exact ⟨_, hsched, ⟨.proc slot0, rfl, rfl⟩, ⟨rfl, _, rfl⟩, h1, (h2 0 slot0 ⟨rfl, _, rfl⟩).1⟩

end Order

end Machine

end OsLabs.Xv6.Locks
