import OsLabs.Monitor

/-!
# OsLabs.Activities.ReaderWriterFinal — readers and writers, writers first

`reader_writer_final.c`: readers come in while no writer is active or waiting, a writer comes in alone.  The last reader out signals one
writer; a writer on leaving signals one writer, or wakes all readers when no writer waits.  Both functions loop forever.  The three counters
are read and written with the mutex held only; `data` is written outside of it, so that `data++` is a read and a write.

* `reader`, `writer`: the two functions.
* `Knows`: what a thread has found out under the mutex and has not acted on yet.
* `Inv`: the counters are right, and why nobody sleeps for good: a woken writer may find another one inside, but then that one will
  signal.
* `readers_and_writers`.
-/

namespace OsLabs.Activities.ReaderWriterFinal

open Lts Monitor

structure Shared where
  data : ℤ
  writer_active : ℤ
  writers_waiting : ℤ
  readers_active : ℤ

inductive Cond
  | time_to_read | time_to_write
deriving DecidableEq

inductive ReaderLoc
  | start | test | sleep | enter | entered | reading | finish | signal | leave
deriving DecidableEq

/-- `store` carries the value that was read from `data`. -/
inductive WriterLoc
  | start | register | test | sleep | enter | entered | writing | store (read : ℤ) | written | finish | signal | announce | leave
deriving DecidableEq

inductive Loc
  | reader (l : ReaderLoc)
  | writer (l : WriterLoc)
deriving DecidableEq

def reader : ReaderLoc → Instr Shared Cond Loc
  | .start => .lock (.reader .test)
  | .test => .run fun x => (x, .reader (if x.writer_active ≠ 0 ∨ x.writers_waiting ≠ 0 then .sleep else .enter))
  | .sleep => .wait .time_to_read (.reader .test)
  | .enter => .run fun x => ({ x with readers_active := x.readers_active + 1 }, .reader .entered)
  | .entered => .unlock (.reader .reading)
  | .reading => .lock (.reader .finish)
  | .finish => .run fun x =>
    ({ x with readers_active := x.readers_active - 1 }, .reader (if x.readers_active - 1 = 0 then .signal else .leave))
  | .signal => .signal .time_to_write (.reader .leave)
  | .leave => .unlock (.reader .start)

def writer : WriterLoc → Instr Shared Cond Loc
  | .start => .lock (.writer .register)
  | .register => .run fun x => ({ x with writers_waiting := x.writers_waiting + 1 }, .writer .test)
  | .test => .run fun x => (x, .writer (if x.readers_active ≠ 0 ∨ x.writer_active ≠ 0 then .sleep else .enter))
  | .sleep => .wait .time_to_write (.writer .test)
  | .enter => .run fun x => ({ x with writers_waiting := x.writers_waiting - 1, writer_active := 1 }, .writer .entered)
  | .entered => .unlock (.writer .writing)
  | .writing => .run fun x => (x, .writer (.store x.data))
  | .store v => .run fun x => ({ x with data := v + 1 }, .writer .written)
  | .written => .lock (.writer .finish)
  | .finish => .run fun x =>
    ({ x with writer_active := 0 }, .writer (if x.writers_waiting ≠ 0 then .signal else .announce))
  | .signal => .signal .time_to_write (.writer .leave)
  | .announce => .broadcast .time_to_read (.writer .leave)
  | .leave => .unlock (.writer .start)

def body : Loc → Instr Shared Cond Loc
  | .reader l => reader l
  | .writer l => writer l

inductive Role
  | reader | writer

/-- Where a thread starts: any number of readers and writers. -/
def Role.start : Role → Loc
  | .reader => .reader .start
  | .writer => .writer .start

def start : Shared := ⟨0, 0, 0, 0⟩

abbrev State (τ : Type) := St τ Shared Cond Loc

/-- A reader in the critical section. -/
def reading : Loc → Bool
  | .reader .entered | .reader .reading | .reader .finish => true
  | _ => false

/-- A writer in the critical section. -/
def writing : Loc → Bool
  | .writer .entered | .writer .writing | .writer (.store _) | .writer .written | .writer .finish => true
  | _ => false

/-- A writer that has registered as waiting. -/
def waiting : Loc → Bool
  | .writer .test | .writer .sleep | .writer .enter => true
  | _ => false

def inside : Loc → Bool
  | .reader .start | .reader .reading => false
  | .writer .start | .writer .writing | .writer (.store _) | .writer .written => false
  | _ => true

/-- What a thread has found out under the mutex and has not acted on yet. -/
def Knows (x : Shared) : Loc → Prop
  | .reader .sleep => x.writer_active ≠ 0 ∨ x.writers_waiting ≠ 0
  | .reader .enter => x.writer_active = 0 ∧ x.writers_waiting = 0
  | .writer .sleep => x.readers_active ≠ 0 ∨ x.writer_active ≠ 0
  | .writer .enter => x.readers_active = 0 ∧ x.writer_active = 0
  | _ => True

/-- About to signal a writer. -/
def signalling : Loc → Bool
  | .reader .signal | .writer .signal => true
  | _ => false

theorem body_typed (l : Loc) : Typed inside (body l) l := by
  cases l with
  | reader l =>
    cases l with
    | test =>
      intro x
      show inside (.reader (if _ then _ else _)) = _
      split_ifs <;> rfl
    | finish =>
      intro x
      show inside (.reader (if _ then _ else _)) = _
      split_ifs <;> rfl
    | enter =>
      intro x
      rfl
    | start | sleep | entered | reading | signal | leave => exact ⟨rfl, rfl⟩
  | writer l =>
    cases l with
    | test =>
      intro x
      show inside (.writer (if _ then _ else _)) = _
      split_ifs <;> rfl
    | finish =>
      intro x
      show inside (.writer (if _ then _ else _)) = _
      split_ifs <;> rfl
    | register | enter | writing | store v =>
      intro x
      rfl
    | start | sleep | entered | written | signal | announce | leave => exact ⟨rfl, rfl⟩

/-- A wait ends at the test of the loop around it. -/
theorem body_wait {c : Cond} {l n : Loc} (h : body l = .wait c n) :
    c = .time_to_read ∧ n = .reader .test ∨ c = .time_to_write ∧ n = .writer .test := by
  cases l with
  | reader l =>
    cases l with
    | sleep =>
      obtain ⟨rfl, rfl⟩ := Instr.wait.inj h
      exact .inl ⟨rfl, rfl⟩
    | _ => cases h
  | writer l =>
    cases l with
    | sleep =>
      obtain ⟨rfl, rfl⟩ := Instr.wait.inj h
      exact .inr ⟨rfl, rfl⟩
    | _ => cases h

/-- Nobody comes to an end. -/
theorem body_isHalt (l : Loc) : (body l).isHalt = false := by
  cases l with
  | reader l => cases l <;> rfl
  | writer l => cases l <;> rfl

section

variable {τ : Type} {s s' t : State τ} {i j : τ}

/-- While `i` runs inside, the others know nothing. -/
theorem knows_other (hmx : MutexInv (fun _ => body) inside s) (hm : s.mode i = .awake) (hl : inside (s.loc i) = true) (hj : j ≠ i)
    (x : Shared) : Knows x (s.loc j) := by
  have halone : inside (s.loc j) = true → (∀ c, ¬ (c = Cond.time_to_read ∧ s.loc j = .reader .test ∨ c = .time_to_write ∧ s.loc j = .writer .test)) →
      j = i := fun hin hw => hmx.alone hm hl hin fun c l hc => hw c (body_wait hc)
  cases hlj : s.loc j with
  | reader l =>
    cases l with
    | sleep | enter => exact absurd (halone (by rw [hlj]; rfl) (by simp [hlj])) hj
    | _ => trivial
  | writer l =>
    cases l with
    | sleep | enter => exact absurd (halone (by rw [hlj]; rfl) (by simp [hlj])) hj
    | _ => trivial

variable [Fintype τ]

/-- **The invariant.**  A sleeping writer is waited for: somebody is in the critical section, or is about to signal, or another waiting
writer is up.  A sleeping reader has a writer before it, or is about to be woken. -/
structure Inv (s : State τ) : Prop where
  readers_active : s.shared.readers_active = count (fun _ => reading) s
  writer_active : s.shared.writer_active = count (fun _ => writing) s
  writers_waiting : s.shared.writers_waiting = count (fun _ => waiting) s
  exclusive : s.shared.writer_active = 0 ∨ s.shared.writer_active = 1 ∧ s.shared.readers_active = 0
  knows : ∀ i, Knows s.shared (s.loc i)
  writer_up : (∃ i, s.mode i = .asleep .time_to_write) →
    s.shared.readers_active ≠ 0 ∨ s.shared.writer_active ≠ 0 ∨ (∃ j, signalling (s.loc j) = true) ∨
      ∃ j, waiting (s.loc j) = true ∧ (s.mode j).isAsleep = false
  reader_up : (∃ i, s.mode i = .asleep .time_to_read) →
    s.shared.writer_active ≠ 0 ∨ s.shared.writers_waiting ≠ 0 ∨ ∃ j, s.loc j = .writer .announce

theorem initial_inv (role : τ → Role) : Inv (initial start fun i => (role i).start) := by
  have hloc : ∀ i, (role i).start = .reader .start ∨ (role i).start = .writer .start := by
    intro i
    cases role i with
    | reader => exact .inl rfl
    | writer => exact .inr rfl
  have hzero : ∀ p : Loc → Bool, p (.reader .start) = false → p (.writer .start) = false →
      count (fun _ => p) (initial start fun i => (role i).start : State τ) = 0 := by
    intro p hr hw
    refine count_eq_zero.mpr fun i => ?_
    show p (role i).start = false
    rcases hloc i with h | h
    · rw [h, hr]
    · rw [h, hw]
  refine ⟨(hzero _ rfl rfl).symm, (hzero _ rfl rfl).symm, (hzero _ rfl rfl).symm, .inl rfl, fun i => ?_, ?_, ?_⟩
  · show Knows start (role i).start
    rcases hloc i with h | h
    · rw [h]
      trivial
    · rw [h]
      trivial
  · rintro ⟨i, hi⟩
    cases hi
  · rintro ⟨i, hi⟩
    cases hi

theorem Inv.wake (h : Inv s) (hsh : t.shared = s.shared) (hloc : t.loc = s.loc)
    (hm : ∀ i c, t.mode i = .asleep c → s.mode i = .asleep c) : Inv t := by
  have hc : ∀ p : τ → Loc → Bool, count p t = count p s := fun p => count_congr fun i => by rw [hloc]
  refine ⟨?_, ?_, ?_, ?_, ?_, ?_, ?_⟩
  · rw [hsh, hc]
    exact h.readers_active
  · rw [hsh, hc]
    exact h.writer_active
  · rw [hsh, hc]
    exact h.writers_waiting
  · rw [hsh]
    exact h.exclusive
  · rw [hsh, hloc]
    exact h.knows
  · rintro ⟨i, hi⟩
    rw [hsh, hloc]
    rcases h.writer_up ⟨i, hm i _ hi⟩ with h1 | h2 | h3 | ⟨j, hj, hj'⟩
    · exact .inl h1
    · exact .inr (.inl h2)
    · exact .inr (.inr (.inl h3))
    · refine .inr (.inr (.inr ⟨j, hj, ?_⟩))
      exact Mode.isAsleep_eq_false.mpr fun c hc => Mode.isAsleep_eq_false.mp hj' c (hm j c hc)
  · rintro ⟨i, hi⟩
    rw [hsh, hloc]
    exact h.reader_up ⟨i, hm i _ hi⟩

/-- It never happens that all threads sleep. -/
theorem Inv.no_deadlock (h : Inv s) (hmx : MutexInv (fun _ => body) inside s) : ¬ Deadlock (fun _ => body) s := by
  rintro ⟨⟨i, -⟩, ha⟩
  have hasleep : ∀ j, ∃ c, s.mode j = .asleep c := fun j => Mode.isAsleep_iff.mp (ha j (body_isHalt _))
  -- so every thread stands before its test
  have hat : ∀ j, s.mode j = .asleep .time_to_read ∧ s.loc j = .reader .test ∨ s.mode j = .asleep .time_to_write ∧ s.loc j = .writer .test := by
    intro j
    obtain ⟨c, hc⟩ := hasleep j
    obtain ⟨l, hw⟩ := hmx.asleep j c hc
    rcases body_wait hw with ⟨rfl, hl⟩ | ⟨rfl, hl⟩
    · exact .inl ⟨hc, hl⟩
    · exact .inr ⟨hc, hl⟩
  have hnowhere : ∀ p : Loc → Bool, p (.reader .test) = false → p (.writer .test) = false → ∀ j, p (s.loc j) = false := by
    intro p hr hw j
    rcases hat j with ⟨-, hl⟩ | ⟨-, hl⟩
    · rw [hl, hr]
    · rw [hl, hw]
  have hra : s.shared.readers_active = 0 := by
    rw [h.readers_active]
    exact count_eq_zero.mpr (hnowhere reading rfl rfl)
  have hwa : s.shared.writer_active = 0 := by
    rw [h.writer_active]
    exact count_eq_zero.mpr (hnowhere writing rfl rfl)
  have hno_writer : ∀ j, s.mode j ≠ .asleep .time_to_write := by
    intro j hj
    rcases h.writer_up ⟨j, hj⟩ with h1 | h2 | ⟨k, hk⟩ | ⟨k, -, hk⟩
    · exact h1 hra
    · exact h2 hwa
    · rw [hnowhere signalling rfl rfl k] at hk
      cases hk
    · obtain ⟨c, hc⟩ := hasleep k
      rw [hc] at hk
      cases hk
  have hreader : ∀ j, s.mode j = .asleep .time_to_read ∧ s.loc j = .reader .test := fun j =>
    (hat j).resolve_right fun hw => hno_writer j hw.1
  rcases h.reader_up ⟨i, (hreader i).1⟩ with h1 | h2 | ⟨k, hk⟩
  · exact h1 hwa
  · rw [h.writers_waiting] at h2
    refine h2 (count_eq_zero.mpr fun j => ?_)
    rw [(hreader j).2]
    rfl
  · rw [(hreader k).2] at hk
    cases hk

variable [DecidableEq τ]

/-- One if the thread is counted. -/
def ind (b : Bool) : ℤ := if b then 1 else 0

/-- Thread `i` moves to `n`, and the counters follow. -/
theorem Inv.next {n : Loc} (h : Inv s) (hloc : t.loc = (s.goto i n).loc)
    (hr : t.shared.readers_active + ind (reading (s.loc i)) = s.shared.readers_active + ind (reading n))
    (hw : t.shared.writer_active + ind (writing (s.loc i)) = s.shared.writer_active + ind (writing n))
    (hq : t.shared.writers_waiting + ind (waiting (s.loc i)) = s.shared.writers_waiting + ind (waiting n))
    (hex : t.shared.writer_active = 0 ∨ t.shared.writer_active = 1 ∧ t.shared.readers_active = 0)
    (hk : Knows t.shared n) (hk' : ∀ j, j ≠ i → Knows t.shared (s.loc j))
    (hwu : (∃ i, t.mode i = .asleep .time_to_write) →
      t.shared.readers_active ≠ 0 ∨ t.shared.writer_active ≠ 0 ∨ (∃ j, signalling (t.loc j) = true) ∨
        ∃ j, waiting (t.loc j) = true ∧ (t.mode j).isAsleep = false)
    (hru : (∃ i, t.mode i = .asleep .time_to_read) →
      t.shared.writer_active ≠ 0 ∨ t.shared.writers_waiting ≠ 0 ∨ ∃ j, t.loc j = .writer .announce) : Inv t := by
  have e1 := count_move (fun _ => reading) hloc
  have e2 := count_move (fun _ => writing) hloc
  have e3 := count_move (fun _ => waiting) hloc
  have h1 := h.readers_active
  have h2 := h.writer_active
  have h3 := h.writers_waiting
  unfold ind at hr hw hq
  refine ⟨by omega, by omega, by omega, hex, fun j => ?_, hwu, hru⟩
  rw [hloc, St.goto_loc_apply]
  split_ifs with hj
  · exact hk
  · exact hk' j hj

/-- What keeps a writer up is still there when the counters are as they were. -/
theorem Inv.writer_up_move {n : Loc} (h : Inv s) (hloc : t.loc = (s.goto i n).loc) (hm : ∀ i c, t.mode i = .asleep c → s.mode i = .asleep c)
    (hr : s.shared.readers_active ≠ 0 → t.shared.readers_active ≠ 0) (hw : s.shared.writer_active ≠ 0 → t.shared.writer_active ≠ 0)
    (hs : signalling (s.loc i) = true → signalling n = true) (hq : waiting (s.loc i) = true → waiting n = true) :
    (∃ i, t.mode i = .asleep .time_to_write) →
      t.shared.readers_active ≠ 0 ∨ t.shared.writer_active ≠ 0 ∨ (∃ j, signalling (t.loc j) = true) ∨
        ∃ j, waiting (t.loc j) = true ∧ (t.mode j).isAsleep = false := by
  rintro ⟨k, hk⟩
  have hkeep : ∀ (p : Loc → Bool) j, (p (s.loc i) = true → p n = true) → p (s.loc j) = true → p (t.loc j) = true := by
    intro p j hp hj
    rw [hloc, St.goto_loc_apply]
    split_ifs with hji
    · exact hp (hji ▸ hj)
    · exact hj
  rcases h.writer_up ⟨k, hm k _ hk⟩ with h1 | h2 | ⟨j, hj⟩ | ⟨j, hj, hj'⟩
  · exact .inl (hr h1)
  · exact .inr (.inl (hw h2))
  · exact .inr (.inr (.inl ⟨j, hkeep signalling j hs hj⟩))
  · refine .inr (.inr (.inr ⟨j, hkeep waiting j hq hj, ?_⟩))
    exact Mode.isAsleep_eq_false.mpr fun c hc => Mode.isAsleep_eq_false.mp hj' c (hm j c hc)

theorem Inv.reader_up_move {n : Loc} (h : Inv s) (hloc : t.loc = (s.goto i n).loc) (hm : ∀ i c, t.mode i = .asleep c → s.mode i = .asleep c)
    (hw : s.shared.writer_active ≠ 0 ∨ s.shared.writers_waiting ≠ 0 → t.shared.writer_active ≠ 0 ∨ t.shared.writers_waiting ≠ 0)
    (ha : s.loc i ≠ .writer .announce) : (∃ i, t.mode i = .asleep .time_to_read) →
      t.shared.writer_active ≠ 0 ∨ t.shared.writers_waiting ≠ 0 ∨ ∃ j, t.loc j = .writer .announce := by
  rintro ⟨k, hk⟩
  rcases h.reader_up ⟨k, hm k _ hk⟩ with h1 | h2 | ⟨j, hj⟩
  · exact (hw (.inl h1)).imp id .inl
  · exact (hw (.inr h2)).imp id .inl
  · refine .inr (.inr ⟨j, ?_⟩)
    rw [hloc, St.goto_loc_of_ne s n, hj]
    rintro rfl
    exact ha hj

/-- A step that leaves the counters alone. -/
theorem Inv.move {n : Loc} (h : Inv s) (hr : t.shared.readers_active = s.shared.readers_active)
    (hw : t.shared.writer_active = s.shared.writer_active) (hq : t.shared.writers_waiting = s.shared.writers_waiting)
    (hloc : t.loc = (s.goto i n).loc) (hm : ∀ i c, t.mode i = .asleep c → s.mode i = .asleep c)
    (hcr : reading n = reading (s.loc i)) (hcw : writing n = writing (s.loc i)) (hcq : waiting n = waiting (s.loc i))
    (hk : Knows s.shared n) (hs : signalling (s.loc i) = false) (ha : s.loc i ≠ .writer .announce) : Inv t := by
  have hknows : ∀ l, Knows s.shared l → Knows t.shared l := by
    intro l hl
    unfold Knows at hl ⊢
    rw [hr, hw, hq]
    exact hl
  refine h.next hloc ?_ ?_ ?_ ?_ (hknows n hk) (fun j _ => hknows _ (h.knows j)) ?_ ?_
  · rw [hr, hcr]
  · rw [hw, hcw]
  · rw [hq, hcq]
  · rw [hr, hw]
    exact h.exclusive
  · refine h.writer_up_move hloc hm (by rw [hr]; exact id) (by rw [hw]; exact id) ?_ (by rw [hcq]; exact id)
    rw [hs]
    exact nofun
  · exact h.reader_up_move hloc hm (by rw [hw, hq]; exact id) ha

/-- A reader comes in. -/
theorem Inv.reader_enter (h : Inv s) (hl : s.loc i = .reader .enter) (hk : ∀ j, j ≠ i → ∀ x, Knows x (s.loc j)) :
    Inv (s.assign i (.reader .entered) { s.shared with readers_active := s.shared.readers_active + 1 }) := by
  have hg := h.knows i
  rw [hl] at hg
  obtain ⟨hw, -⟩ := hg
  have hpos : s.shared.readers_active + 1 ≠ 0 := by
    have hnn := count_nonneg (fun _ => reading) s
    rw [← h.readers_active] at hnn
    omega
  refine h.next rfl ?_ ?_ ?_ (.inl hw) trivial (fun j hj => hk j hj _) (fun _ => .inl hpos) ?_
  · rw [hl]
    exact add_zero _
  · rw [hl]
    rfl
  · rw [hl]
    rfl
  · exact h.reader_up_move rfl (fun _ _ hj => hj) id (by simp [hl])

/-- A reader leaves; the last one is about to signal. -/
theorem Inv.reader_leave (h : Inv s) (hl : s.loc i = .reader .finish) (hk : ∀ j, j ≠ i → ∀ x, Knows x (s.loc j)) :
    Inv (s.assign i (.reader (if s.shared.readers_active - 1 = 0 then .signal else .leave))
      { s.shared with readers_active := s.shared.readers_active - 1 }) := by
  have hn : ∀ p : Loc → Bool, p (.reader .signal) = false → p (.reader .leave) = false →
      p (.reader (if s.shared.readers_active - 1 = 0 then .signal else .leave)) = false := by
    intro p hs hl
    split_ifs
    · exact hs
    · exact hl
  have hpos := count_pos (s := s) (p := fun _ => reading) (i := i) (by rw [hl]; rfl)
  rw [← h.readers_active] at hpos
  have hidle : s.shared.writer_active = 0 := h.exclusive.resolve_right fun hr => by omega
  refine h.next rfl ?_ ?_ ?_ (.inl hidle) ?_ (fun j hj => hk j hj _) (fun _ => ?_) ?_
  · rw [hl, hn reading rfl rfl]
    show s.shared.readers_active - 1 + 1 = s.shared.readers_active + 0
    omega
  · rw [hl, hn writing rfl rfl]
    rfl
  · rw [hl, hn waiting rfl rfl]
    rfl
  · split_ifs
    · trivial
    · trivial
  · by_cases h0 : s.shared.readers_active - 1 = 0
    · refine .inr (.inr (.inl ⟨i, ?_⟩))
      rw [St.assign_loc, St.goto_loc_self, if_pos h0]
      rfl
    · exact .inl h0
  · exact h.reader_up_move rfl (fun _ _ hj => hj) id (by simp [hl])

/-- A writer registers. -/
theorem Inv.register (h : Inv s) (hl : s.loc i = .writer .register) (hm : s.mode i = .awake) (hk : ∀ j, j ≠ i → ∀ x, Knows x (s.loc j)) :
    Inv (s.assign i (.writer .test) { s.shared with writers_waiting := s.shared.writers_waiting + 1 }) := by
  have hpos : s.shared.writers_waiting + 1 ≠ 0 := by
    have hnn := count_nonneg (fun _ => waiting) s
    rw [← h.writers_waiting] at hnn
    omega
  refine h.next rfl ?_ ?_ ?_ h.exclusive trivial (fun j hj => hk j hj _) (fun _ => ?_) (fun _ => .inr (.inl hpos))
  · rw [hl]
    rfl
  · rw [hl]
    rfl
  · rw [hl]
    exact add_zero _
  · -- the writer that has just come is up
    refine .inr (.inr (.inr ⟨i, ?_, ?_⟩))
    · rw [St.assign_loc, St.goto_loc_self]
      rfl
    · rw [St.assign_mode, hm]
      rfl

/-- A writer comes in. -/
theorem Inv.writer_enter (h : Inv s) (hl : s.loc i = .writer .enter) (hk : ∀ j, j ≠ i → ∀ x, Knows x (s.loc j)) :
    Inv (s.assign i (.writer .entered) { s.shared with writers_waiting := s.shared.writers_waiting - 1, writer_active := 1 }) := by
  have hg := h.knows i
  rw [hl] at hg
  obtain ⟨hr, hw⟩ := hg
  have hone : (1 : ℤ) ≠ 0 := by decide
  refine h.next rfl ?_ ?_ ?_ (.inr ⟨rfl, hr⟩) trivial (fun j hj => hk j hj _) (fun _ => .inr (.inl hone)) (fun _ => .inl hone)
  · rw [hl]
    rfl
  · rw [hl]
    show 1 + 0 = s.shared.writer_active + 1
    omega
  · rw [hl]
    show s.shared.writers_waiting - 1 + 1 = s.shared.writers_waiting + 0
    omega

/-- A writer leaves and chooses whom to wake. -/
theorem Inv.writer_leave (h : Inv s) (hl : s.loc i = .writer .finish) (hk : ∀ j, j ≠ i → ∀ x, Knows x (s.loc j))
    (hq : ∀ j c, s.mode j = .asleep c → c = .time_to_write → waiting (s.loc j) = true) :
    Inv (s.assign i (.writer (if s.shared.writers_waiting ≠ 0 then .signal else .announce)) { s.shared with writer_active := 0 }) := by
  have hn : ∀ p : Loc → Bool, p (.writer .signal) = false → p (.writer .announce) = false →
      p (.writer (if s.shared.writers_waiting ≠ 0 then .signal else .announce)) = false := by
    intro p hs ha
    split_ifs
    · exact hs
    · exact ha
  have hpos := count_pos (s := s) (p := fun _ => writing) (i := i) (by rw [hl]; rfl)
  rw [← h.writer_active] at hpos
  have hself : (s.assign i (.writer (if s.shared.writers_waiting ≠ 0 then .signal else .announce))
      { s.shared with writer_active := 0 }).loc i = .writer (if s.shared.writers_waiting ≠ 0 then .signal else .announce) :=
    St.goto_loc_self s i _
  obtain hex | ⟨hex, -⟩ := h.exclusive
  · omega
  refine h.next rfl ?_ ?_ ?_ (.inl rfl) ?_ (fun j hj => hk j hj _) ?_ (fun _ => ?_)
  · rw [hl, hn reading rfl rfl]
    rfl
  · rw [hl, hn writing rfl rfl]
    show 0 + 1 = s.shared.writer_active + 0
    omega
  · rw [hl, hn waiting rfl rfl]
    rfl
  · split_ifs
    · trivial
    · trivial
  · rintro ⟨j, hj⟩
    -- a sleeping writer is counted as waiting, so this is a signal
    have hne : s.shared.writers_waiting ≠ 0 := by
      have := count_pos (s := s) (p := fun _ => waiting) (i := j) (hq j _ hj rfl)
      rw [← h.writers_waiting] at this
      omega
    refine .inr (.inr (.inl ⟨i, ?_⟩))
    rw [hself, if_pos hne]
    rfl
  · by_cases hne : s.shared.writers_waiting ≠ 0
    · exact .inr (.inl hne)
    · refine .inr (.inr ⟨i, ?_⟩)
      rw [hself, if_neg hne]

/-- Somebody signals: one sleeping writer wakes up. -/
theorem Inv.signal {n : Loc} (h : Inv s) (hmx : MutexInv (fun _ => body) inside s) (hs : signalling (s.loc i) = true)
    (hn : n = .reader .leave ∨ n = .writer .leave)
    (hsig : (∀ j, s.mode j ≠ .asleep .time_to_write) ∧ s' = s.goto i n ∨
      ∃ j, s.mode j = .asleep .time_to_write ∧ s' = (s.setMode j .woken).goto i n) : Inv s' := by
  have hcls : ∀ p : Loc → Bool, p (.reader .signal) = false → p (.writer .signal) = false → p (.reader .leave) = false →
      p (.writer .leave) = false → p n = p (s.loc i) := by
    intro p h1 h2 h3 h4
    have hl : p (s.loc i) = false := by
      unfold signalling at hs
      split at hs
      · rename_i heq
        rw [heq, h1]
      · rename_i heq
        rw [heq, h2]
      · cases hs
    rcases hn with rfl | rfl
    · rw [hl, h3]
    · rw [hl, h4]
  have hk : ∀ x, Knows x n := by
    intro x
    rcases hn with rfl | rfl <;> trivial
  have hann : s.loc i ≠ .writer .announce := by
    intro heq
    rw [heq] at hs
    cases hs
  rcases hsig with ⟨hnone, rfl⟩ | ⟨j, hj, rfl⟩
  · refine h.next rfl ?_ ?_ ?_ h.exclusive (hk _) (fun j _ => h.knows j) ?_ ?_
    · rw [hcls reading rfl rfl rfl rfl]
      rfl
    · rw [hcls writing rfl rfl rfl rfl]
      rfl
    · rw [hcls waiting rfl rfl rfl rfl]
      rfl
    · rintro ⟨k, hk⟩
      exact absurd hk (hnone k)
    · exact h.reader_up_move rfl (fun _ _ hj => hj) id hann
  · have hsub : ∀ k c, ((s.setMode j .woken).goto i n).mode k = .asleep c → s.mode k = .asleep c :=
      fun k c hk => (St.asleep_of_setMode (by simp) hk).1
    refine h.next (i := i) (n := n) rfl ?_ ?_ ?_ h.exclusive (hk _) (fun j _ => h.knows j) (fun _ => ?_) ?_
    · rw [hcls reading rfl rfl rfl rfl]
      rfl
    · rw [hcls writing rfl rfl rfl rfl]
      rfl
    · rw [hcls waiting rfl rfl rfl rfl]
      rfl
    · -- the writer that was woken is up
      refine .inr (.inr (.inr ⟨j, ?_, ?_⟩))
      · obtain ⟨l, hl⟩ := hmx.asleep j _ hj
        rcases body_wait hl with ⟨hc, -⟩ | ⟨-, htest⟩
        · cases hc
        · have hji : j ≠ i := by
            rintro rfl
            rw [htest] at hs
            cases hs
          rw [St.goto_loc_apply, if_neg hji]
          show waiting (s.loc j) = true
          rw [htest]
          rfl
      · rw [St.goto_mode, St.setMode_mode_self]
        rfl
    · exact h.reader_up_move (i := i) (n := n) rfl hsub id hann

/-- A thread goes to sleep before the test. -/
theorem Inv.sleep {n : Loc} {c : Cond} (h : Inv s) (hl : s.loc i = .reader .sleep ∧ c = .time_to_read ∧ n = .reader .test ∨
      s.loc i = .writer .sleep ∧ c = .time_to_write ∧ n = .writer .test) :
    Inv { (s.goto i n).setMode i (.asleep c) with mutex := none } := by
  have hold : ∀ (j : τ) (d : Cond), ((s.goto i n).setMode i (.asleep c)).mode j = .asleep d → d ≠ c → s.mode j = .asleep d := by
    intro j d hj hd
    rw [St.setMode_mode_apply] at hj
    split_ifs at hj
    · exact absurd (Mode.asleep.inj hj).symm hd
    · exact hj
  have hg := h.knows i
  rcases hl with ⟨hl, rfl, rfl⟩ | ⟨hl, rfl, rfl⟩
  · rw [hl] at hg
    have hmv : Inv (s.goto i (.reader .test)) :=
      h.move rfl rfl rfl rfl (fun _ _ hj => hj) (by rw [hl]; rfl) (by rw [hl]; rfl) (by rw [hl]; rfl) trivial (by rw [hl]; rfl) (by simp [hl])
    refine ⟨hmv.readers_active, hmv.writer_active, hmv.writers_waiting, hmv.exclusive, hmv.knows, ?_, fun _ => ?_⟩
    · rintro ⟨j, hj⟩
      rcases hmv.writer_up ⟨j, hold j _ hj nofun⟩ with h1 | h2 | h3 | ⟨k, hk, hk'⟩
      · exact .inl h1
      · exact .inr (.inl h2)
      · exact .inr (.inr (.inl h3))
      · refine .inr (.inr (.inr ⟨k, hk, ?_⟩))
        have hki : k ≠ i := by
          rintro rfl
          rw [St.goto_loc_self] at hk
          cases hk
        show (((s.goto i (.reader .test)).setMode i (.asleep .time_to_read)).mode k).isAsleep = false
        rw [St.setMode_mode_apply, if_neg hki]
        exact hk'
    · exact hg.imp id .inl
  · rw [hl] at hg
    have hmv : Inv (s.goto i (.writer .test)) :=
      h.move rfl rfl rfl rfl (fun _ _ hj => hj) (by rw [hl]; rfl) (by rw [hl]; rfl) (by rw [hl]; rfl) trivial (by rw [hl]; rfl) (by simp [hl])
    refine ⟨hmv.readers_active, hmv.writer_active, hmv.writers_waiting, hmv.exclusive, hmv.knows, fun _ => ?_, ?_⟩
    · exact hg.imp id .inl
    · rintro ⟨j, hj⟩
      exact hmv.reader_up ⟨j, hold j _ hj nofun⟩

/-- The last waiting writer wakes all readers. -/
theorem Inv.announce (h : Inv s) (hl : s.loc i = .writer .announce) : Inv ((s.wakeAll .time_to_read).goto i (.writer .leave)) := by
  have hsub : ∀ k c, ((s.wakeAll .time_to_read).goto i (.writer .leave)).mode k = .asleep c → s.mode k = .asleep c :=
    fun k c hk => (St.asleep_of_wakeAll hk).1
  refine h.next (i := i) (n := .writer .leave) rfl ?_ ?_ ?_ h.exclusive trivial (fun j _ => h.knows j) ?_ ?_
  · rw [hl]
    rfl
  · rw [hl]
    rfl
  · rw [hl]
    rfl
  · exact h.writer_up_move (i := i) (n := .writer .leave) rfl hsub id id (by rw [hl]; exact nofun) (by rw [hl]; exact nofun)
  · rintro ⟨k, hk⟩
    exact absurd rfl (St.asleep_of_wakeAll hk).2

/-- **Step lemma**, readers. -/
theorem Inv.reader_step {l : ReaderLoc} (h : Inv s) (hmx : MutexInv (fun _ => body) inside s) (hm : s.mode i = .awake)
    (hl : s.loc i = .reader l) (he : Effect s i (reader l) s') : Inv s' := by
  have hsame : ∀ (j : τ) (c : Cond), s.mode j = .asleep c → s.mode j = .asleep c := fun _ _ hj => hj
  have hk : inside (.reader l) = true → ∀ j, j ≠ i → ∀ x, Knows x (s.loc j) :=
    fun hin j hj x => knows_other hmx hm (by rw [hl]; exact hin) hj x
  cases l with
  | start | entered | reading | leave =>
    obtain ⟨-, rfl⟩ := he
    exact h.move rfl rfl rfl rfl hsame (by rw [hl]; rfl) (by rw [hl]; rfl) (by rw [hl]; rfl) trivial (by rw [hl]; rfl) (by simp [hl])
  | test =>
    obtain rfl := he
    by_cases hg : s.shared.writer_active ≠ 0 ∨ s.shared.writers_waiting ≠ 0
    · simp only [if_pos hg]
      exact h.move rfl rfl rfl rfl hsame (by rw [hl]; rfl) (by rw [hl]; rfl) (by rw [hl]; rfl) hg (by rw [hl]; rfl) (by simp [hl])
    · simp only [if_neg hg]
      refine h.move rfl rfl rfl rfl hsame (by rw [hl]; rfl) (by rw [hl]; rfl) (by rw [hl]; rfl) ?_ (by rw [hl]; rfl) (by simp [hl])
      push Not at hg
      exact hg
  | sleep =>
    obtain ⟨-, rfl⟩ := he
    exact h.sleep (.inl ⟨hl, rfl, rfl⟩)
  | enter =>
    obtain rfl := he
    exact h.reader_enter hl (hk rfl)
  | finish =>
    obtain rfl := he
    exact h.reader_leave hl (hk rfl)
  | signal => exact h.signal hmx (by rw [hl]; rfl) (.inl rfl) he

/-- **Step lemma**, writers. -/
theorem Inv.writer_step {l : WriterLoc} (h : Inv s) (hmx : MutexInv (fun _ => body) inside s) (hm : s.mode i = .awake)
    (hl : s.loc i = .writer l) (he : Effect s i (writer l) s') : Inv s' := by
  have hsame : ∀ (j : τ) (c : Cond), s.mode j = .asleep c → s.mode j = .asleep c := fun _ _ hj => hj
  have hk : inside (.writer l) = true → ∀ j, j ≠ i → ∀ x, Knows x (s.loc j) :=
    fun hin j hj x => knows_other hmx hm (by rw [hl]; exact hin) hj x
  cases l with
  | start | entered | written | leave =>
    obtain ⟨-, rfl⟩ := he
    exact h.move rfl rfl rfl rfl hsame (by rw [hl]; rfl) (by rw [hl]; rfl) (by rw [hl]; rfl) trivial (by rw [hl]; rfl) (by simp [hl])
  | writing | store v =>
    obtain rfl := he
    exact h.move rfl rfl rfl rfl hsame (by rw [hl]; rfl) (by rw [hl]; rfl) (by rw [hl]; rfl) trivial (by rw [hl]; rfl) (by simp [hl])
  | register =>
    obtain rfl := he
    exact h.register hl hm (hk rfl)
  | test =>
    obtain rfl := he
    by_cases hg : s.shared.readers_active ≠ 0 ∨ s.shared.writer_active ≠ 0
    · simp only [if_pos hg]
      exact h.move rfl rfl rfl rfl hsame (by rw [hl]; rfl) (by rw [hl]; rfl) (by rw [hl]; rfl) hg (by rw [hl]; rfl) (by simp [hl])
    · simp only [if_neg hg]
      refine h.move rfl rfl rfl rfl hsame (by rw [hl]; rfl) (by rw [hl]; rfl) (by rw [hl]; rfl) ?_ (by rw [hl]; rfl) (by simp [hl])
      push Not at hg
      exact hg
  | sleep =>
    obtain ⟨-, rfl⟩ := he
    exact h.sleep (.inr ⟨hl, rfl, rfl⟩)
  | enter =>
    obtain rfl := he
    exact h.writer_enter hl (hk rfl)
  | finish =>
    obtain rfl := he
    refine h.writer_leave hl (hk rfl) fun j c hj hc => ?_
    obtain ⟨l, hw⟩ := hmx.asleep j c hj
    rcases body_wait hw with ⟨hc', -⟩ | ⟨-, htest⟩
    · rw [hc] at hc'
      cases hc'
    · rw [htest]
      rfl
  | signal => exact h.signal hmx (by rw [hl]; rfl) (.inr rfl) he
  | announce =>
    obtain rfl := he
    exact h.announce hl

/-- **Run lemma.** -/
theorem reachable_inv {role : τ → Role} (h : Reachable (fun _ => body) always start (fun i => (role i).start) s) :
    MutexInv (fun _ => body) inside s ∧ Inv s := by
  refine h.program_inv (fun _ => body_typed) (fun i => ?_) (initial_inv role) ?_ ?_
  · cases role i <;> rfl
  · intro s t hI hsh hloc hm
    exact hI.wake hsh hloc hm
  · intro s a i s' hI hmx _ _ hm he
    cases hl : s.loc i with
    | reader l =>
      rw [hl] at he
      exact hI.reader_step hmx hm hl he
    | writer l =>
      rw [hl] at he
      exact hI.writer_step hmx hm hl he

/-- **Readers and writers.**  For any number of readers and writers, in every reachable state the three counters are the numbers of
threads in their phases, a writer in the critical section is alone there, a reader that comes in finds no writer registered, and it never
happens that all threads sleep. -/
theorem readers_and_writers (role : τ → Role) (s : State τ)
    (h : Reachable (fun _ => body) always start (fun i => (role i).start) s) :
    s.shared.readers_active = count (fun _ => reading) s ∧ s.shared.writer_active = count (fun _ => writing) s ∧
      s.shared.writers_waiting = count (fun _ => waiting) s ∧
      (∀ i j, writing (s.loc i) = true → reading (s.loc j) = true ∨ writing (s.loc j) = true → j = i) ∧
      (∀ i, s.loc i = .reader .enter → ∀ j, waiting (s.loc j) = false) ∧ ¬ Deadlock (fun _ => body) s := by
  obtain ⟨hmx, hI⟩ := reachable_inv h
  refine ⟨hI.readers_active, hI.writer_active, hI.writers_waiting, fun i j hi hj => ?_, fun i hi j => ?_, hI.no_deadlock hmx⟩
  · have hpos := count_pos (s := s) (p := fun _ => writing) hi
    rw [← hI.writer_active] at hpos
    obtain h0 | ⟨hone, hnone⟩ := hI.exclusive
    · omega
    rcases hj with hj | hj
    · have hread := count_pos (s := s) (p := fun _ => reading) hj
      rw [← hI.readers_active] at hread
      omega
    · refine eq_of_count_le_one (s := s) (p := fun _ => writing) ?_ hj hi
      rw [← hI.writer_active]
      omega
  · have hk := hI.knows i
    rw [hi] at hk
    have hzero : count (fun _ => waiting) s = 0 := hI.writers_waiting.symm.trans hk.2
    exact count_eq_zero.mp hzero j

/-- A writer sleeps while a reader reads. -/
theorem readers_and_writers_run : ∃ s : State Bool,
    Reachable (fun _ => body) always start (fun i => (if i then Role.writer else .reader).start) s ∧
      s.mode true = .asleep .time_to_write ∧ s.shared.readers_active = 1 ∧
      s.shared.writers_waiting = count (fun _ => waiting) s ∧ ¬ Deadlock (fun _ => body) s := by
  obtain ⟨s, hr, hm, hn⟩ := exists_reachable (P := fun _ => body) always start
    (fun i : Bool => (if i then Role.writer else .reader).start)
    [.exec false, .exec false, .exec false, .exec false, .exec true, .exec true, .exec true, .exec true]
    (fun s => s.mode true = .asleep .time_to_write ∧ s.shared.readers_active = 1) (by decide +kernel)
  obtain ⟨-, -, hw, -, -, hd⟩ := readers_and_writers (fun i => if i then .writer else .reader) s hr
  exact ⟨s, hr, hm, hn, hw, hd⟩

end

end OsLabs.Activities.ReaderWriterFinal
