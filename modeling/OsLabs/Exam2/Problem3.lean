import OsLabs.Monitor

/-!
# OsLabs.Exam2.Problem3 — requests, two at a time, and one worker

`problem3.c`: a request waits until fewer than two are preprocessing, preprocesses outside of the mutex, and hands its job over by `isdv`.
The worker takes a job, delivers it outside of the mutex and counts it in `total`, until `total` has come to the number of requests.  It
tests `total` without the mutex, but nobody else writes it.

The threads are `Option ρ`: the requests `some r`, and the worker `none`.

* `request_fn`, `worker_fn`: the two functions, `worker_fn` with its bound.
* `Inv`: jobs are neither lost nor made up, and who sleeps has somebody to wake it.
* `every_job_once`.
-/

namespace OsLabs.Exam2.Problem3

open Lts Monitor

structure Shared where
  prepo : ℤ
  isdv : ℤ
  total : ℤ
  /-- The lines "Worker thread delivered a new job, total deliveries: %d". -/
  out : List ℤ

inductive Cond
  | cvre | cvwo
deriving DecidableEq

inductive RequestLoc
  | start | test | sleep | entered | preprocessing | finish | wake | hand | announce | leave | done
deriving DecidableEq

inductive WorkerLoc
  | check | arrive | test | sleep | taken | delivering | delivered | add | leave | done
deriving DecidableEq

inductive Loc
  | request (l : RequestLoc)
  | worker (l : WorkerLoc)
deriving DecidableEq

def request_fn : RequestLoc → Instr Shared Cond Loc
  | .start => .lock (.request .test)
  | .test => .run fun x =>
    if x.prepo ≥ 2 then (x, .request .sleep) else ({ x with prepo := x.prepo + 1 }, .request .entered)
  | .sleep => .wait .cvre (.request .test)
  | .entered => .unlock (.request .preprocessing)
  | .preprocessing => .lock (.request .finish)
  | .finish => .run fun x => ({ x with prepo := x.prepo - 1 }, .request (if x.prepo - 1 < 2 then .wake else .hand))
  | .wake => .broadcast .cvre (.request .hand)
  | .hand => .run fun x => ({ x with isdv := x.isdv + 1 }, .request .announce)
  | .announce => .broadcast .cvwo (.request .leave)
  | .leave => .unlock (.request .done)
  | .done => .halt

/-- The worker with the bound of its loop; it is 10 in the source, which starts 10 requests. -/
def worker_fn (bound : ℤ) : WorkerLoc → Instr Shared Cond Loc
  | .check => .run fun x => (x, .worker (if x.total < bound then .arrive else .done))
  | .arrive => .lock (.worker .test)
  | .test => .run fun x => if x.isdv = 0 then (x, .worker .sleep) else ({ x with isdv := x.isdv - 1 }, .worker .taken)
  | .sleep => .wait .cvwo (.worker .test)
  | .taken => .unlock (.worker .delivering)
  | .delivering => .run fun x => ({ x with out := x.out ++ [x.total + 1] }, .worker .delivered)
  | .delivered => .lock (.worker .add)
  | .add => .run fun x => ({ x with total := x.total + 1 }, .worker .leave)
  | .leave => .unlock (.worker .check)
  | .done => .halt

def body (bound : ℤ) : Loc → Instr Shared Cond Loc
  | .request l => request_fn l
  | .worker l => worker_fn bound l

/-- Every request in `ρ`, and one worker whose bound is their number. -/
def problem3 (ρ : Type) [Fintype ρ] (_ : Option ρ) : Loc → Instr Shared Cond Loc := body (Fintype.card ρ)

def startLoc {ρ : Type} : Option ρ → Loc
  | none => .worker .check
  | some _ => .request .start

def start : Shared := ⟨0, 0, 0, []⟩

abbrev State (ρ : Type) := St (Option ρ) Shared Cond Loc

def preprocessing : Loc → Bool
  | .request .entered | .request .preprocessing | .request .finish => true
  | _ => false

/-- Preprocessed, and handed over to the worker. -/
def handed : Loc → Bool
  | .request .announce | .request .leave | .request .done => true
  | _ => false

/-- Behind `prepo--`; this and handing over stand in one critical section. -/
def finished : Loc → Bool
  | .request .wake | .request .hand => true
  | l => handed l

/-- The worker has taken a job and not yet counted it. -/
def taken : Loc → Bool
  | .worker .taken | .worker .delivering | .worker .delivered | .worker .add => true
  | _ => false

/-- The worker has delivered a job and not yet counted it. -/
def delivered : Loc → Bool
  | .worker .delivered | .worker .add => true
  | _ => false

/-- The worker is going to take a job. -/
def searching : Loc → Bool
  | .worker .arrive | .worker .test | .worker .sleep => true
  | _ => false

def isWorker : Loc → Bool
  | .worker _ => true
  | .request _ => false

def inside : Loc → Bool
  | .request .start | .request .preprocessing | .request .done => false
  | .worker .check | .worker .arrive | .worker .delivering | .worker .delivered | .worker .done => false
  | _ => true

/-- What a thread has found out under the mutex and has not acted on yet. -/
def Knows (x : Shared) : Loc → Prop
  | .request .sleep => 2 ≤ x.prepo
  | .worker .sleep => x.isdv = 0
  | _ => True

/-- The lines of the first `n` deliveries. -/
def numbered (n : ℕ) : List ℤ := (List.range n).map fun m : ℕ => (m : ℤ) + 1

theorem numbered_succ (n : ℕ) : numbered (n + 1) = numbered n ++ [(n : ℤ) + 1] := by
  unfold numbered
  rw [List.range_succ, List.map_append]
  rfl

theorem body_typed (bound : ℤ) (l : Loc) : Typed inside (body bound l) l := by
  cases l with
  | request l =>
    cases l with
    | test =>
      intro x
      dsimp only
      split_ifs <;> rfl
    | finish =>
      intro x
      show inside (.request (if _ then _ else _)) = _
      split_ifs <;> rfl
    | hand =>
      intro x
      rfl
    | done => rfl
    | start | sleep | entered | preprocessing | wake | announce | leave => exact ⟨rfl, rfl⟩
  | worker l =>
    cases l with
    | check =>
      intro x
      show inside (.worker (if _ then _ else _)) = _
      split_ifs <;> rfl
    | test =>
      intro x
      dsimp only
      split_ifs <;> rfl
    | delivering | add =>
      intro x
      rfl
    | done => rfl
    | arrive | sleep | taken | delivered | leave => exact ⟨rfl, rfl⟩

/-- A wait ends at the test of the loop around it. -/
theorem body_wait {bound : ℤ} {c : Cond} {l n : Loc} (h : body bound l = .wait c n) :
    c = .cvre ∧ n = .request .test ∨ c = .cvwo ∧ n = .worker .test := by
  cases l with
  | request l =>
    cases l with
    | sleep =>
      obtain ⟨rfl, rfl⟩ := Instr.wait.inj h
      exact .inl ⟨rfl, rfl⟩
    | _ => cases h
  | worker l =>
    cases l with
    | sleep =>
      obtain ⟨rfl, rfl⟩ := Instr.wait.inj h
      exact .inr ⟨rfl, rfl⟩
    | _ => cases h

theorem body_isHalt {bound : ℤ} {l : Loc} (hr : l ≠ .request .done) (hw : l ≠ .worker .done) : (body bound l).isHalt = false := by
  cases l with
  | request l =>
    cases l with
    | done => exact absurd rfl hr
    | _ => rfl
  | worker l =>
    cases l with
    | done => exact absurd rfl hw
    | _ => rfl

section

variable {ρ : Type} {bound : ℤ} {s s' t : State ρ} {i j : Option ρ}

/-- While `i` runs inside, the others know nothing. -/
theorem knows_other (hmx : MutexInv (fun _ => body bound) inside s) (hm : s.mode i = .awake) (hl : inside (s.loc i) = true) (hj : j ≠ i)
    (x : Shared) : Knows x (s.loc j) := by
  have halone : inside (s.loc j) = true → s.loc j ≠ .request .test → s.loc j ≠ .worker .test → j = i := by
    intro hin hr hw
    refine hmx.alone hm hl hin fun c l hc => ?_
    rcases body_wait hc with ⟨-, h⟩ | ⟨-, h⟩
    · exact hr h
    · exact hw h
  cases hlj : s.loc j with
  | request l =>
    cases l with
    | sleep => exact absurd (halone (by rw [hlj]; rfl) (by simp [hlj]) (by simp [hlj])) hj
    | _ => trivial
  | worker l =>
    cases l with
    | sleep => exact absurd (halone (by rw [hlj]; rfl) (by simp [hlj]) (by simp [hlj])) hj
    | _ => trivial

variable [Fintype ρ]

/-- **The invariant.**  What the worker has taken and counted and what is left was handed over by the requests; a sleeping request has two
before it or is about to be woken; a sleeping worker has no job or is about to be woken. -/
structure Inv (s : State ρ) : Prop where
  role : ∀ i, isWorker (s.loc i) = i.isNone
  prepo : s.shared.prepo = count (fun _ => preprocessing) s
  two : s.shared.prepo ≤ 2
  jobs : s.shared.isdv + count (fun _ => taken) s + s.shared.total = count (fun _ => handed) s
  isdv : 0 ≤ s.shared.isdv
  total : 0 ≤ s.shared.total
  out : (s.shared.out.length : ℤ) = s.shared.total + count (fun _ => delivered) s
  lines : s.shared.out = numbered s.shared.out.length
  /-- the worker goes for another job only while some are not counted -/
  more : ∀ i, searching (s.loc i) = true → s.shared.total < Fintype.card ρ
  enough : ∀ i, s.loc i = .worker .done → Fintype.card ρ ≤ s.shared.total
  knows : ∀ i, Knows s.shared (s.loc i)
  request_up : (∃ i, s.mode i = .asleep .cvre) → 2 ≤ s.shared.prepo ∨ ∃ j, s.loc j = .request .wake
  worker_up : (∃ i, s.mode i = .asleep .cvwo) → s.shared.isdv = 0 ∨ ∃ j, s.loc j = .request .announce

theorem initial_inv : Inv (initial start startLoc : State ρ) := by
  have hzero : ∀ p : Loc → Bool, p (.request .start) = false → p (.worker .check) = false →
      count (fun _ => p) (initial start startLoc : State ρ) = 0 := by
    intro p hr hw
    refine count_eq_zero.mpr fun i => ?_
    cases i with
    | none => exact hw
    | some r => exact hr
  have h2 : (0 : ℤ) ≤ 2 := by decide
  refine ⟨fun i => ?_, (hzero _ rfl rfl).symm, h2, ?_, le_rfl, le_rfl, ?_, rfl, fun i hi => ?_, fun i hi => ?_, fun i => ?_,
    ?_, ?_⟩
  · cases i <;> rfl
  · rw [hzero taken rfl rfl, hzero handed rfl rfl]
    rfl
  · rw [hzero delivered rfl rfl]
    rfl
  · cases i <;> cases hi
  · cases i <;> cases hi
  · cases i <;> trivial
  · rintro ⟨i, hi⟩
    cases hi
  · rintro ⟨i, hi⟩
    cases hi

theorem Inv.wake (h : Inv s) (hsh : t.shared = s.shared) (hloc : t.loc = s.loc)
    (hm : ∀ i c, t.mode i = .asleep c → s.mode i = .asleep c) : Inv t := by
  have hc : ∀ p : Option ρ → Loc → Bool, count p t = count p s := fun p => count_congr fun i => by rw [hloc]
  refine ⟨?_, ?_, ?_, ?_, ?_, ?_, ?_, ?_, ?_, ?_, ?_, ?_, ?_⟩
  · rw [hloc]
    exact h.role
  · rw [hsh, hc]
    exact h.prepo
  · rw [hsh]
    exact h.two
  · rw [hsh, hc, hc]
    exact h.jobs
  · rw [hsh]
    exact h.isdv
  · rw [hsh]
    exact h.total
  · rw [hsh, hc]
    exact h.out
  · rw [hsh]
    exact h.lines
  · rw [hsh, hloc]
    exact h.more
  · rw [hsh, hloc]
    exact h.enough
  · rw [hsh, hloc]
    exact h.knows
  · rintro ⟨i, hi⟩
    rw [hsh, hloc]
    exact h.request_up ⟨i, hm i _ hi⟩
  · rintro ⟨i, hi⟩
    rw [hsh, hloc]
    exact h.worker_up ⟨i, hm i _ hi⟩

/-- The worker hands nothing over. -/
theorem Inv.handed_none (h : Inv s) : handed (s.loc none) = false := by
  have hr := h.role none
  cases hl : s.loc none with
  | request l =>
    rw [hl] at hr
    cases hr
  | worker l => rfl

/-- Fewer jobs than requests: one of these has not handed its job over. -/
theorem Inv.exists_not_handed (h : Inv s) (hlt : count (fun _ => handed) s < Fintype.card ρ) :
    ∃ i, isWorker (s.loc i) = false ∧ handed (s.loc i) = false := by
  by_contra hne
  push Not at hne
  refine absurd ((count_some_eq_card h.handed_none).mpr fun r => ?_) (ne_of_lt hlt)
  simpa using hne (some r) (h.role (some r))

/-- Only the worker is where the worker can be. -/
theorem Inv.eq_none {p : Loc → Bool} (h : Inv s) (hp : ∀ l, p (.request l) = false) (hi : p (s.loc i) = true) : i = none := by
  have hr := h.role i
  cases hl : s.loc i with
  | request l =>
    rw [hl, hp] at hi
    cases hi
  | worker l =>
    rw [hl] at hr
    exact Option.isNone_iff_eq_none.mp hr.symm

/-- While the worker has not delivered what it has taken, no delivery is missing in `total`. -/
theorem Inv.delivered_eq_zero (h : Inv s) (hl : delivered (s.loc none) = false) : count (fun _ => delivered) s = 0 := by
  refine count_eq_zero.mpr fun j => ?_
  by_contra hj
  have hj' : delivered (s.loc j) = true := by simpa using hj
  rw [h.eq_none (p := delivered) (fun _ => rfl) hj', hl] at hj'
  cases hj'

/-- Nobody is left sleeping. -/
theorem Inv.no_deadlock (h : Inv s) (hmx : MutexInv (problem3 ρ) inside s) : ¬ Deadlock (problem3 ρ) s := by
  rintro ⟨⟨i, hi⟩, ha⟩
  -- only a thread at a test can sleep
  have hawake : ∀ j, s.loc j ≠ .request .done → s.loc j ≠ .worker .done → s.loc j ≠ .request .test → s.loc j ≠ .worker .test → False := by
    intro j hr hw hrt hwt
    refine ha.elim hmx (i := j) (body_isHalt hr hw) fun c l hc => ?_
    rcases body_wait hc with ⟨-, h⟩ | ⟨-, h⟩
    · exact hrt h
    · exact hwt h
  -- a sleeping request has somebody before it who does not sleep
  have hrequest : ∀ j, s.mode j ≠ .asleep .cvre := by
    intro j hj
    rcases h.request_up ⟨j, hj⟩ with h2 | ⟨k, hk⟩
    · rw [h.prepo] at h2
      obtain ⟨k, hk⟩ := exists_of_count_pos (s := s) (p := fun _ => preprocessing) (by omega)
      refine hawake k ?_ ?_ ?_ ?_ <;> intro hl <;> rw [hl] at hk <;> cases hk
    · exact hawake k (by simp [hk]) (by simp [hk]) (by simp [hk]) (by simp [hk])
  obtain ⟨c, hc⟩ := Mode.isAsleep_iff.mp (ha i hi)
  cases c with
  | cvre => exact hrequest i hc
  | cvwo =>
    rcases h.worker_up ⟨i, hc⟩ with h0 | ⟨k, hk⟩
    swap
    · exact hawake k (by simp [hk]) (by simp [hk]) (by simp [hk]) (by simp [hk])
    -- the worker has nothing in its hands and has not counted all jobs
    have htest : s.loc i = .worker .test := by
      obtain ⟨l, hw⟩ := hmx.asleep i _ hc
      rcases body_wait hw with ⟨hc', -⟩ | ⟨-, hl⟩
      · cases hc'
      · exact hl
    have hmore := h.more i (by rw [htest]; rfl)
    have htaken : count (fun _ => taken) s = 0 := by
      refine count_eq_zero.mpr fun j => ?_
      by_contra hj
      have hj' : taken (s.loc j) = true := by simpa using hj
      have hjn := h.eq_none (p := taken) (fun _ => rfl) hj'
      have hin := h.eq_none (p := searching) (i := i) (fun _ => rfl) (by rw [htest]; rfl)
      rw [hjn, ← hin, htest] at hj'
      cases hj'
    have hjobs := h.jobs
    obtain ⟨k, hkw, hkh⟩ := h.exists_not_handed (by omega)
    have hkd : s.loc k ≠ .request .done := by
      intro hl
      rw [hl] at hkh
      cases hkh
    have hkd' : s.loc k ≠ .worker .done := by
      intro hl
      rw [hl] at hkw
      cases hkw
    obtain ⟨c, hkc⟩ := Mode.isAsleep_iff.mp (ha k (body_isHalt hkd hkd'))
    obtain ⟨l, hw⟩ := hmx.asleep k c hkc
    rcases body_wait hw with ⟨rfl, -⟩ | ⟨-, hl⟩
    · exact hrequest k hkc
    · rw [hl] at hkw
      cases hkw

/-- With the mutex free, who has finished has handed its job over. -/
theorem finished_eq (hmx : MutexInv (problem3 ρ) inside s) (hx : s.mutex = none) :
    count (fun _ => finished) s = count (fun _ => handed) s := by
  have hat : ∀ i, s.loc i ≠ .request .wake ∧ s.loc i ≠ .request .hand := by
    intro i
    have hno : inside (s.loc i) = true → s.loc i ≠ .request .test → s.loc i ≠ .worker .test → False := by
      intro hin hr hw
      refine hmx.free hx hin (hmx.awake fun c l hc => ?_)
      rcases body_wait hc with ⟨-, h⟩ | ⟨-, h⟩
      · exact hr h
      · exact hw h
    constructor <;> intro hl <;> exact hno (by rw [hl]; rfl) (by simp [hl]) (by simp [hl])
  refine le_antisymm (count_le fun i hi => ?_) (count_le fun i hi => ?_)
  · unfold finished at hi
    split at hi
    · exact absurd ‹_› (hat i).1
    · exact absurd ‹_› (hat i).2
    · exact hi
  · unfold finished
    split
    · rfl
    · rfl
    · exact hi

theorem delivered_le (s : State ρ) : count (fun _ => delivered) s ≤ count (fun _ => taken) s := by
  refine count_le fun i hi => ?_
  unfold delivered at hi
  split at hi
  · rename_i hl
    rw [hl]
    rfl
  · rename_i hl
    rw [hl]
    rfl
  · cases hi

variable [DecidableEq ρ]

/-- One if the thread is counted. -/
def ind (b : Bool) : ℤ := if b then 1 else 0

/-- Thread `i` moves to `n`, and the variables follow. -/
theorem Inv.next {n : Loc} (h : Inv s) (hloc : t.loc = (s.goto i n).loc) (hrole : isWorker n = isWorker (s.loc i))
    (hp : t.shared.prepo + ind (preprocessing (s.loc i)) = s.shared.prepo + ind (preprocessing n)) (h2 : t.shared.prepo ≤ 2)
    (hj : t.shared.isdv + t.shared.total + ind (taken n) + ind (handed (s.loc i)) =
      s.shared.isdv + s.shared.total + ind (taken (s.loc i)) + ind (handed n))
    (hd : 0 ≤ t.shared.isdv) (ht : s.shared.total ≤ t.shared.total)
    (ho : (t.shared.out.length : ℤ) + s.shared.total + ind (delivered (s.loc i)) =
      s.shared.out.length + t.shared.total + ind (delivered n)) (hlines : t.shared.out = numbered t.shared.out.length)
    (hmore : searching n = true → t.shared.total < Fintype.card ρ) (henough : n = .worker .done → Fintype.card ρ ≤ t.shared.total)
    (htotal : t.shared.total = s.shared.total ∨ isWorker n = true)
    (hk : Knows t.shared n) (hk' : ∀ j, j ≠ i → Knows t.shared (s.loc j))
    (hru : (∃ i, t.mode i = .asleep .cvre) → 2 ≤ t.shared.prepo ∨ ∃ j, t.loc j = .request .wake)
    (hwu : (∃ i, t.mode i = .asleep .cvwo) → t.shared.isdv = 0 ∨ ∃ j, t.loc j = .request .announce) : Inv t := by
  have e1 := count_move (fun _ => preprocessing) hloc
  have e2 := count_move (fun _ => taken) hloc
  have e3 := count_move (fun _ => handed) hloc
  have e4 := count_move (fun _ => delivered) hloc
  have h1 := h.prepo
  have h3 := h.jobs
  have h4 := h.out
  have h5 := h.total
  unfold ind at hp hj ho
  -- when `total` changes, the other threads are requests
  have hother : ∀ j, j ≠ i → isWorker (s.loc j) = true → t.shared.total = s.shared.total := by
    intro j hji hjw
    refine htotal.resolve_right fun hn => hji ?_
    rw [hrole] at hn
    rw [h.eq_none (p := isWorker) (fun _ => rfl) hn, h.eq_none (p := isWorker) (fun _ => rfl) hjw]
  refine ⟨fun j => ?_, by omega, h2, by omega, hd, by omega, by omega, hlines, fun j hjs => ?_, fun j hjd => ?_, fun j => ?_, hru, hwu⟩
  · rw [hloc, St.goto_loc_apply]
    split_ifs with hji
    · rw [hji, hrole]
      exact h.role i
    · exact h.role j
  · rw [hloc, St.goto_loc_apply] at hjs
    split_ifs at hjs with hji
    · exact hmore hjs
    · have hw : isWorker (s.loc j) = true := by
        cases hl : s.loc j with
        | request l =>
          rw [hl] at hjs
          cases hjs
        | worker l => rfl
      rw [hother j hji hw]
      exact h.more j hjs
  · rw [hloc, St.goto_loc_apply] at hjd
    split_ifs at hjd with hji
    · exact henough hjd
    · exact le_trans (h.enough j hjd) ht
  · rw [hloc, St.goto_loc_apply]
    split_ifs with hji
    · exact hk
    · exact hk' j hji

theorem Inv.request_up_move {n : Loc} (h : Inv s) (hloc : t.loc = (s.goto i n).loc) (hm : ∀ i c, t.mode i = .asleep c → s.mode i = .asleep c)
    (hp : s.shared.prepo ≤ t.shared.prepo) (hl : s.loc i ≠ .request .wake) :
    (∃ i, t.mode i = .asleep .cvre) → 2 ≤ t.shared.prepo ∨ ∃ j, t.loc j = .request .wake := by
  rintro ⟨k, hk⟩
  rcases h.request_up ⟨k, hm k _ hk⟩ with h2 | hw
  · exact .inl (le_trans h2 hp)
  · exact .inr (St.exists_loc_of_goto hloc hl hw)

theorem Inv.worker_up_move {n : Loc} (h : Inv s) (hloc : t.loc = (s.goto i n).loc) (hm : ∀ i c, t.mode i = .asleep c → s.mode i = .asleep c)
    (hd : s.shared.isdv = 0 → t.shared.isdv = 0) (hl : s.loc i ≠ .request .announce) :
    (∃ i, t.mode i = .asleep .cvwo) → t.shared.isdv = 0 ∨ ∃ j, t.loc j = .request .announce := by
  rintro ⟨k, hk⟩
  rcases h.worker_up ⟨k, hm k _ hk⟩ with h0 | hw
  · exact .inl (hd h0)
  · exact .inr (St.exists_loc_of_goto hloc hl hw)

/-- A step that leaves the variables alone. -/
theorem Inv.move {n : Loc} (h : Inv s) (hsh : t.shared = s.shared) (hloc : t.loc = (s.goto i n).loc)
    (hm : ∀ i c, t.mode i = .asleep c → s.mode i = .asleep c) (hrole : isWorker n = isWorker (s.loc i))
    (hp : preprocessing n = preprocessing (s.loc i)) (htk : taken n = taken (s.loc i)) (hh : handed n = handed (s.loc i))
    (hd : delivered n = delivered (s.loc i)) (hmore : searching n = true → s.shared.total < Fintype.card ρ)
    (henough : n = .worker .done → Fintype.card ρ ≤ s.shared.total) (hk : Knows s.shared n)
    (hw : s.loc i ≠ .request .wake) (ha : s.loc i ≠ .request .announce) : Inv t := by
  refine h.next hloc hrole ?_ ?_ ?_ ?_ ?_ ?_ ?_ ?_ ?_ (.inl (by rw [hsh])) ?_ (fun j _ => ?_) ?_ ?_
  · rw [hsh, hp]
  · rw [hsh]
    exact h.two
  · rw [hsh, htk, hh]
  · rw [hsh]
    exact h.isdv
  · rw [hsh]
  · rw [hsh, hd]
  · rw [hsh]
    exact h.lines
  · rw [hsh]
    exact hmore
  · rw [hsh]
    exact henough
  · rw [hsh]
    exact hk
  · rw [hsh]
    exact h.knows j
  · exact h.request_up_move hloc hm (by rw [hsh]) hw
  · exact h.worker_up_move hloc hm (by rw [hsh]; exact id) ha

/-- A request comes in: at most one was before it. -/
theorem Inv.request_enter (h : Inv s) (hl : s.loc i = .request .test) (hk : ∀ j, j ≠ i → ∀ x, Knows x (s.loc j)) (hlt : ¬ s.shared.prepo ≥ 2) :
    Inv (s.assign i (.request .entered) { s.shared with prepo := s.shared.prepo + 1 }) := by
  have hle : s.shared.prepo ≤ s.shared.prepo + 1 := by omega
  refine h.next rfl (by rw [hl]; rfl) ?_ ?_ (by rw [hl]; rfl) h.isdv le_rfl (by rw [hl]; rfl) h.lines nofun nofun (.inl rfl) trivial
    (fun j hj => hk j hj _) ?_ ?_
  · rw [hl]
    exact add_zero _
  · show s.shared.prepo + 1 ≤ 2
    omega
  · exact h.request_up_move rfl (fun _ _ hj => hj) hle (by simp [hl])
  · exact h.worker_up_move rfl (fun _ _ hj => hj) id (by simp [hl])

/-- A request has preprocessed; there is room for another one now, so it goes to wake them. -/
theorem Inv.request_finish (h : Inv s) (hl : s.loc i = .request .finish) (hk : ∀ j, j ≠ i → ∀ x, Knows x (s.loc j)) :
    Inv (s.assign i (.request (if s.shared.prepo - 1 < 2 then .wake else .hand)) { s.shared with prepo := s.shared.prepo - 1 }) := by
  have h2 := h.two
  rw [if_pos (by omega)]
  refine h.next rfl (by rw [hl]; rfl) ?_ ?_ (by rw [hl]; rfl) h.isdv le_rfl (by rw [hl]; rfl) h.lines nofun nofun (.inl rfl) trivial
    (fun j hj => hk j hj _) (fun _ => .inr ⟨i, ?_⟩) ?_
  · rw [hl]
    show s.shared.prepo - 1 + 1 = s.shared.prepo + 0
    omega
  · show s.shared.prepo - 1 ≤ 2
    omega
  · rw [St.assign_loc, St.goto_loc_self]
  · exact h.worker_up_move rfl (fun _ _ hj => hj) id (by simp [hl])

/-- It wakes the requests that wait. -/
theorem Inv.request_wake (h : Inv s) (hl : s.loc i = .request .wake) : Inv ((s.wakeAll .cvre).goto i (.request .hand)) := by
  have hsub : ∀ k c, ((s.wakeAll .cvre).goto i (.request .hand)).mode k = .asleep c → s.mode k = .asleep c :=
    fun k c hk => (St.asleep_of_wakeAll hk).1
  refine h.next (i := i) (n := .request .hand) rfl (by rw [hl]; rfl) (by rw [hl]; rfl) h.two (by rw [hl]; rfl) h.isdv le_rfl
    (by rw [hl]; rfl) h.lines nofun nofun (.inl rfl) trivial (fun j _ => h.knows j) ?_ ?_
  · rintro ⟨k, hk⟩
    exact absurd rfl (St.asleep_of_wakeAll hk).2
  · exact h.worker_up_move (i := i) (n := .request .hand) rfl hsub id (by simp [hl])

/-- It hands its job over. -/
theorem Inv.request_hand (h : Inv s) (hl : s.loc i = .request .hand) (hk : ∀ j, j ≠ i → ∀ x, Knows x (s.loc j)) :
    Inv (s.assign i (.request .announce) { s.shared with isdv := s.shared.isdv + 1 }) := by
  have hd := h.isdv
  refine h.next rfl (by rw [hl]; rfl) (by rw [hl]; rfl) h.two ?_ ?_ le_rfl (by rw [hl]; rfl) h.lines nofun nofun (.inl rfl) trivial
    (fun j hj => hk j hj _) ?_ (fun _ => .inr ⟨i, ?_⟩)
  · rw [hl]
    show s.shared.isdv + 1 + s.shared.total + 0 + 0 = s.shared.isdv + s.shared.total + 0 + 1
    omega
  · show 0 ≤ s.shared.isdv + 1
    omega
  · exact h.request_up_move rfl (fun _ _ hj => hj) le_rfl (by simp [hl])
  · rw [St.assign_loc, St.goto_loc_self]

/-- It wakes the worker. -/
theorem Inv.request_announce (h : Inv s) (hl : s.loc i = .request .announce) : Inv ((s.wakeAll .cvwo).goto i (.request .leave)) := by
  have hsub : ∀ k c, ((s.wakeAll .cvwo).goto i (.request .leave)).mode k = .asleep c → s.mode k = .asleep c :=
    fun k c hk => (St.asleep_of_wakeAll hk).1
  refine h.next (i := i) (n := .request .leave) rfl (by rw [hl]; rfl) (by rw [hl]; rfl) h.two (by rw [hl]; rfl) h.isdv le_rfl
    (by rw [hl]; rfl) h.lines nofun nofun (.inl rfl) trivial (fun j _ => h.knows j) ?_ ?_
  · exact h.request_up_move (i := i) (n := .request .leave) rfl hsub le_rfl (by simp [hl])
  · rintro ⟨k, hk⟩
    exact absurd rfl (St.asleep_of_wakeAll hk).2

/-- A thread goes to sleep before its test. -/
theorem Inv.sleep {n : Loc} {c : Cond} (h : Inv s)
    (hl : s.loc i = .request .sleep ∧ c = .cvre ∧ n = .request .test ∨ s.loc i = .worker .sleep ∧ c = .cvwo ∧ n = .worker .test) :
    Inv { (s.goto i n).setMode i (.asleep c) with mutex := none } := by
  have hg := h.knows i
  rcases hl with ⟨hl, rfl, rfl⟩ | ⟨hl, rfl, rfl⟩
  · rw [hl] at hg
    have hmv : Inv (s.goto i (.request .test)) :=
      h.move rfl rfl (fun _ _ hj => hj) (by rw [hl]; rfl) (by rw [hl]; rfl) (by rw [hl]; rfl) (by rw [hl]; rfl) (by rw [hl]; rfl) nofun nofun
        trivial (by simp [hl]) (by simp [hl])
    exact { hmv with
      request_up := fun _ => .inl hg
      worker_up := fun ⟨j, hj⟩ => hmv.worker_up ⟨j, St.asleep_of_sleep hj nofun⟩ }
  · rw [hl] at hg
    have hmv : Inv (s.goto i (.worker .test)) :=
      h.move rfl rfl (fun _ _ hj => hj) (by rw [hl]; rfl) (by rw [hl]; rfl) (by rw [hl]; rfl) (by rw [hl]; rfl) (by rw [hl]; rfl)
        (fun _ => h.more i (by rw [hl]; rfl)) nofun trivial (by simp [hl]) (by simp [hl])
    exact { hmv with
      request_up := fun ⟨j, hj⟩ => hmv.request_up ⟨j, St.asleep_of_sleep hj nofun⟩
      worker_up := fun _ => .inl hg }

/-- The worker takes a job. -/
theorem Inv.worker_take (h : Inv s) (hl : s.loc i = .worker .test) (hk : ∀ j, j ≠ i → ∀ x, Knows x (s.loc j)) (hne : s.shared.isdv ≠ 0)
    (hself : ∀ j, s.mode j = .asleep .cvwo → False) :
    Inv (s.assign i (.worker .taken) { s.shared with isdv := s.shared.isdv - 1 }) := by
  have hd := h.isdv
  refine h.next rfl (by rw [hl]; rfl) (by rw [hl]; rfl) h.two ?_ ?_ le_rfl (by rw [hl]; rfl) h.lines nofun nofun (.inl rfl) trivial
    (fun j hj => hk j hj _) ?_ ?_
  · rw [hl]
    show s.shared.isdv - 1 + s.shared.total + 1 + 0 = s.shared.isdv + s.shared.total + 0 + 0
    omega
  · show 0 ≤ s.shared.isdv - 1
    omega
  · exact h.request_up_move rfl (fun _ _ hj => hj) le_rfl (by simp [hl])
  · rintro ⟨j, hj⟩
    exact (hself j hj).elim

/-- The worker delivers; the line it prints has the number of the delivery. -/
theorem Inv.worker_deliver (h : Inv s) (hl : s.loc i = .worker .delivering) :
    Inv (s.assign i (.worker .delivered) { s.shared with out := s.shared.out ++ [s.shared.total + 1] }) := by
  have hnone : i = none := h.eq_none (p := isWorker) (fun _ => rfl) (by rw [hl]; rfl)
  have hzero := h.delivered_eq_zero (by rw [← hnone, hl]; rfl)
  have hlen : s.shared.total = s.shared.out.length := by
    have := h.out
    omega
  refine h.next rfl (by rw [hl]; rfl) (by rw [hl]; rfl) h.two (by rw [hl]; rfl) h.isdv le_rfl ?_ ?_ nofun nofun (.inl rfl) trivial
    (fun j _ => h.knows j) ?_ ?_
  · rw [hl]
    show ((s.shared.out ++ [s.shared.total + 1]).length : ℤ) + s.shared.total + 0 = s.shared.out.length + s.shared.total + 1
    rw [List.length_append, List.length_singleton]
    push_cast
    omega
  · show s.shared.out ++ [s.shared.total + 1] = numbered (s.shared.out ++ [s.shared.total + 1]).length
    rw [List.length_append, List.length_singleton, numbered_succ, ← h.lines, hlen]
  · exact h.request_up_move rfl (fun _ _ hj => hj) le_rfl (by simp [hl])
  · exact h.worker_up_move rfl (fun _ _ hj => hj) id (by simp [hl])

/-- The worker counts what it has delivered. -/
theorem Inv.worker_add (h : Inv s) (hl : s.loc i = .worker .add) :
    Inv (s.assign i (.worker .leave) { s.shared with total := s.shared.total + 1 }) := by
  have hle : s.shared.total ≤ s.shared.total + 1 := by omega
  refine h.next rfl (by rw [hl]; rfl) (by rw [hl]; rfl) h.two ?_ h.isdv hle ?_ h.lines nofun nofun (.inr rfl) trivial
    (fun j _ => h.knows j) ?_ ?_
  · rw [hl]
    show s.shared.isdv + (s.shared.total + 1) + 0 + 0 = s.shared.isdv + s.shared.total + 1 + 0
    omega
  · rw [hl]
    show (s.shared.out.length : ℤ) + s.shared.total + 1 = s.shared.out.length + (s.shared.total + 1) + 0
    omega
  · exact h.request_up_move rfl (fun _ _ hj => hj) le_rfl (by simp [hl])
  · exact h.worker_up_move rfl (fun _ _ hj => hj) id (by simp [hl])

/-- **Step lemma**, requests. -/
theorem Inv.request_step {l : RequestLoc} (h : Inv s) (hmx : MutexInv (fun _ => body bound) inside s) (hm : s.mode i = .awake)
    (hl : s.loc i = .request l) (he : Effect s i (request_fn l) s') : Inv s' := by
  have hsame : ∀ (j : Option ρ) (c : Cond), s.mode j = .asleep c → s.mode j = .asleep c := fun _ _ hj => hj
  have hk : inside (.request l) = true → ∀ j, j ≠ i → ∀ x, Knows x (s.loc j) :=
    fun hin j hj x => knows_other hmx hm (by rw [hl]; exact hin) hj x
  cases l with
  | start | entered | preprocessing | leave =>
    obtain ⟨-, rfl⟩ := he
    exact h.move rfl rfl hsame (by rw [hl]; rfl) (by rw [hl]; rfl) (by rw [hl]; rfl) (by rw [hl]; rfl) (by rw [hl]; rfl) nofun nofun
      trivial (by simp [hl]) (by simp [hl])
  | test =>
    obtain rfl := he
    by_cases hg : s.shared.prepo ≥ 2
    · simp only [if_pos hg]
      exact h.move rfl rfl hsame (by rw [hl]; rfl) (by rw [hl]; rfl) (by rw [hl]; rfl) (by rw [hl]; rfl) (by rw [hl]; rfl) nofun nofun
        hg (by simp [hl]) (by simp [hl])
    · simp only [if_neg hg]
      exact h.request_enter hl (hk rfl) hg
  | sleep =>
    obtain ⟨-, rfl⟩ := he
    exact h.sleep (.inl ⟨hl, rfl, rfl⟩)
  | finish =>
    obtain rfl := he
    exact h.request_finish hl (hk rfl)
  | wake =>
    obtain rfl := he
    exact h.request_wake hl
  | hand =>
    obtain rfl := he
    exact h.request_hand hl (hk rfl)
  | announce =>
    obtain rfl := he
    exact h.request_announce hl
  | done => cases he

/-- **Step lemma**, the worker. -/
theorem Inv.worker_step {l : WorkerLoc} (h : Inv s) (hmx : MutexInv (problem3 ρ) inside s) (hm : s.mode i = .awake)
    (hl : s.loc i = .worker l) (he : Effect s i (worker_fn (Fintype.card ρ) l) s') : Inv s' := by
  have hsame : ∀ (j : Option ρ) (c : Cond), s.mode j = .asleep c → s.mode j = .asleep c := fun _ _ hj => hj
  have hk : inside (.worker l) = true → ∀ j, j ≠ i → ∀ x, Knows x (s.loc j) :=
    fun hin j hj x => knows_other hmx hm (by rw [hl]; exact hin) hj x
  have hnone : i = none := h.eq_none (p := isWorker) (fun _ => rfl) (by rw [hl]; rfl)
  cases l with
  | check =>
    obtain rfl := he
    dsimp only
    by_cases hg : s.shared.total < Fintype.card ρ
    · rw [if_pos hg]
      exact h.move rfl rfl hsame (by rw [hl]; rfl) (by rw [hl]; rfl) (by rw [hl]; rfl) (by rw [hl]; rfl) (by rw [hl]; rfl) (fun _ => hg) nofun
        trivial (by simp [hl]) (by simp [hl])
    · rw [if_neg hg]
      exact h.move rfl rfl hsame (by rw [hl]; rfl) (by rw [hl]; rfl) (by rw [hl]; rfl) (by rw [hl]; rfl) (by rw [hl]; rfl) nofun
        (fun _ => not_lt.mp hg) trivial (by simp [hl]) (by simp [hl])
  | arrive =>
    obtain ⟨-, rfl⟩ := he
    exact h.move rfl rfl hsame (by rw [hl]; rfl) (by rw [hl]; rfl) (by rw [hl]; rfl) (by rw [hl]; rfl) (by rw [hl]; rfl)
      (fun _ => h.more i (by rw [hl]; rfl)) nofun trivial (by simp [hl]) (by simp [hl])
  | taken | delivered | leave =>
    obtain ⟨-, rfl⟩ := he
    exact h.move rfl rfl hsame (by rw [hl]; rfl) (by rw [hl]; rfl) (by rw [hl]; rfl) (by rw [hl]; rfl) (by rw [hl]; rfl) nofun nofun
      trivial (by simp [hl]) (by simp [hl])
  | test =>
    obtain rfl := he
    by_cases hg : s.shared.isdv = 0
    · simp only [if_pos hg]
      exact h.move rfl rfl hsame (by rw [hl]; rfl) (by rw [hl]; rfl) (by rw [hl]; rfl) (by rw [hl]; rfl) (by rw [hl]; rfl)
        (fun _ => h.more i (by rw [hl]; rfl)) nofun hg (by simp [hl]) (by simp [hl])
    · simp only [if_neg hg]
      refine h.worker_take hl (hk rfl) hg fun j hj => ?_
      -- only the worker sleeps on `cvwo`, and it is awake
      obtain ⟨l, hw⟩ := hmx.asleep j _ hj
      rcases body_wait hw with ⟨hc, -⟩ | ⟨-, hlj⟩
      · cases hc
      · rw [h.eq_none (p := isWorker) (i := j) (fun _ => rfl) (by rw [hlj]; rfl), ← hnone, hm] at hj
        cases hj
  | sleep =>
    obtain ⟨-, rfl⟩ := he
    exact h.sleep (.inr ⟨hl, rfl, rfl⟩)
  | delivering =>
    obtain rfl := he
    exact h.worker_deliver hl
  | add =>
    obtain rfl := he
    exact h.worker_add hl
  | done => cases he

/-- **Run lemma.** -/
theorem reachable_inv (h : Reachable (problem3 ρ) always start startLoc s) : MutexInv (problem3 ρ) inside s ∧ Inv s := by
  refine h.program_inv (fun _ => body_typed _) (fun i => ?_) initial_inv ?_ ?_
  · cases i <;> rfl
  · intro s t hI hsh hloc hm
    exact hI.wake hsh hloc hm
  · intro s a i s' hI hmx _ _ hm he
    cases hl : s.loc i with
    | request l =>
      rw [hl] at he
      exact hI.request_step hmx hm hl he
    | worker l =>
      rw [hl] at he
      exact hI.worker_step hmx hm hl he

end

end OsLabs.Exam2.Problem3
