import OsLabs.Lts
import OsLabs.RingBuffer

/-!
# OsLabs.Xv6.PipeData — the bytes that go through a pipe (pipe.c)

Any number of processes call `pipewrite` and `piperead` on one pipe.  A step is one section under `pi->lock`: from the call, or from the
return of `sleep`, to the next `sleep` or to the return of the call.  A process may be killed at any time, also in the middle of a
section, since `p->killed` is not under `pi->lock`.

* `writeLoop`, `readLoop`: the loops of the two calls; `copyin` and `copyout` may fail at any byte.
* `fifo`: what has been taken from the pipe is a prefix of what has been put in, at most `PIPESIZE` bytes behind.
* `end_of_file`: a read returns 0 at the end of the data only.
* `asleep_iff`: exactly when some reader sleeps although there is data.
-/

namespace OsLabs.Xv6.Pipes

open Lts (Run Ev always)
open RingBuffer (Holds)

def PIPESIZE : ℕ := 512

/-- How many values a `uint` has. -/
def UINT : ℕ := 2 ^ 32

theorem pipesize_dvd : PIPESIZE ∣ UINT := by decide

theorem pipesize_lt : PIPESIZE < UINT := by decide

theorem uint_pos : 0 < UINT := by decide

section Model

variable {β : Type}

/-- `struct pipe`, without its lock. -/
structure Pipe (β : Type) where
  data : ℕ → β
  nread : ℕ
  nwrite : ℕ
  readopen : Bool
  writeopen : Bool

/-- Why the loop of `pipewrite` stops: it is done, the pipe is full, or the call returns -1. -/
inductive Stop
  | done
  | full
  | dead
deriving DecidableEq

/-- The loop of `pipewrite`, with `k` bytes to go.  `copyin` finds the bytes of the caller, and fails where they end; `killed i` is what
`killed(pr)` returns in the iteration for byte `i`. -/
def writeLoop (bytes : List β) (killed : ℕ → Bool) : ℕ → ℕ → Pipe β → Stop × ℕ × Pipe β
  | 0, i, pi => (.done, i, pi)
  | k + 1, i, pi =>
    if pi.readopen = false ∨ killed i = true then (.dead, i, pi)
    else if pi.nwrite = (pi.nread + PIPESIZE) % UINT then (.full, i, pi)
    else
      match bytes[i]? with
      | none => (.done, i, pi)
      | some ch =>
        writeLoop bytes killed k (i + 1)
          { pi with data := Function.update pi.data (pi.nwrite % PIPESIZE) ch, nwrite := (pi.nwrite + 1) % UINT }

/-- The loop of `piperead`, with `k` bytes to go: the number of bytes delivered, and what has been taken from the pipe.  `copyout` fails
for byte number `room`, after the byte has been taken. -/
def readLoop (room : ℕ) : ℕ → ℕ → Pipe β → ℕ × List β × Pipe β
  | 0, i, pi => (i, [], pi)
  | k + 1, i, pi =>
    if pi.nread = pi.nwrite then (i, [], pi)
    else
      let ch := pi.data (pi.nread % PIPESIZE)
      let pi := { pi with nread := (pi.nread + 1) % UINT }
      if i < room then
        let r := readLoop room k (i + 1) pi
        (r.1, ch :: r.2.1, r.2.2)
      else (i, [ch], pi)

/-- A call that has begun: `pipewrite` of `n` bytes with `i` of them copied, or `piperead` of `n` bytes. -/
inductive Call (β : Type)
  | write (bytes : List β) (n i : ℕ)
  | read (n room : ℕ)
deriving DecidableEq

inductive Thread (β : Type)
  | out
  | asleep (c : Call β)
  | woken (c : Call β)
deriving DecidableEq

structure Sys (β : Type) where
  pipe : Pipe β
  thread : ℕ → Thread β
  killed : ℕ → Bool

inductive Act (β : Type)
  /-- A call; the flag of the caller is set by another CPU before the iteration `kill`. -/
  | call (p : ℕ) (c : Call β) (kill : Option ℕ)
  /-- A process that was woken goes on. -/
  | resume (p : ℕ) (kill : Option ℕ)
  | kill (p : ℕ)
  /-- `pipeclose`. -/
  | close (writable : Bool)

/-- What a section puts into the pipe, takes from it, and returns if the call ends. -/
structure Out (β : Type) where
  put : List β
  taken : List β
  ret : Option ℤ

namespace Sys

def setThread (s : Sys β) (p : ℕ) (t : Thread β) : Sys β := { s with thread := Function.update s.thread p t }

/-- `wakeup(&pi->nread)`. -/
def wakeReaders (s : Sys β) : Sys β :=
  { s with thread := fun p => match s.thread p with
      | .asleep (.read n room) => .woken (.read n room)
      | t => t }

/-- `wakeup(&pi->nwrite)`. -/
def wakeWriters (s : Sys β) : Sys β :=
  { s with thread := fun p => match s.thread p with
      | .asleep (.write bytes n i) => .woken (.write bytes n i)
      | t => t }

/-- `killed(pr)` in the iterations of a section. -/
def flag (s : Sys β) (p : ℕ) (kill : Option ℕ) (i : ℕ) : Bool := s.killed p || kill.any (· ≤ i)

end Sys

/-- A section of `pipewrite`. -/
def pipewrite (p : ℕ) (bytes : List β) (n i : ℕ) (kill : Option ℕ) (s : Sys β) : Out β × Sys β :=
  let r := writeLoop bytes (s.flag p kill) (n - i) i s.pipe
  let put := (bytes.drop i).take (r.2.1 - i)
  let s := { s with pipe := r.2.2, killed := Function.update s.killed p (s.killed p || kill.isSome) }
  match r.1 with
  | .done => (⟨put, [], some r.2.1⟩, s.wakeReaders.setThread p .out)
  | .full => (⟨put, [], none⟩, s.wakeReaders.setThread p (.asleep (.write bytes n r.2.1)))
  | .dead => (⟨put, [], some (-1)⟩, s.setThread p .out)

/-- A section of `piperead`. -/
def piperead (p n room : ℕ) (kill : Option ℕ) (s : Sys β) : Out β × Sys β :=
  let s' := { s with killed := Function.update s.killed p (s.killed p || kill.isSome) }
  if s.pipe.nread = s.pipe.nwrite ∧ s.pipe.writeopen = true then
    if s.flag p kill 0 then (⟨[], [], some (-1)⟩, s'.setThread p .out)
    else (⟨[], [], none⟩, s'.setThread p (.asleep (.read n room)))
  else
    let r := readLoop room n 0 s.pipe
    (⟨[], r.2.1, some r.1⟩, { s' with pipe := r.2.2 }.wakeWriters.setThread p .out)

def run (p : ℕ) (c : Call β) (kill : Option ℕ) (s : Sys β) : Out β × Sys β :=
  match c with
  | .write bytes n i => pipewrite p bytes n i kill s
  | .read n room => piperead p n room kill s

/-- The section that an action runs: a new call, or one that was woken. -/
def begins (s : Sys β) : Act β → Option (ℕ × Call β × Option ℕ)
  | .call p (.write bytes n _) kill => match s.thread p with
    | .out => some (p, .write bytes n 0, kill)
    | _ => none
  | .call p (.read n room) kill => match s.thread p with
    | .out => some (p, .read n room, kill)
    | _ => none
  | .resume p kill => match s.thread p with
    | .woken c => some (p, c, kill)
    | _ => none
  | _ => none

def step (s : Sys β) : Act β → Option (Out β × Sys β)
  | .kill p =>
    let s := { s with killed := Function.update s.killed p true }
    match s.thread p with
    | .asleep c => some (⟨[], [], none⟩, s.setThread p (.woken c))
    | _ => some (⟨[], [], none⟩, s)
  | .close true => some (⟨[], [], none⟩, { s with pipe := { s.pipe with writeopen := false } }.wakeReaders)
  | .close false => some (⟨[], [], none⟩, { s with pipe := { s.pipe with readopen := false } }.wakeWriters)
  | a => (begins s a).map fun x => run x.1 x.2.1 x.2.2 s

def Step (s : Sys β) (a : Act β) (o : Out β) (t : Sys β) : Prop := step s a = some (o, t)

/-- A pipe as `pipealloc` makes it, on a page with any contents. -/
def pipealloc (data : ℕ → β) : Sys β where
  pipe := { data, nread := 0, nwrite := 0, readopen := true, writeopen := true }
  thread _ := .out
  killed _ := false

end Model

/-! ## The loops -/

section Loops

variable {β : Type} {pi : Pipe β} {q bytes : List β} {killed : ℕ → Bool} {k i room : ℕ}

/-- The pipe holds the bytes `q`. -/
def Stands (pi : Pipe β) (q : List β) : Prop := Holds UINT PIPESIZE pi.data pi.nread pi.nwrite q

/-- What the loop of `pipewrite` does: the next bytes of the caller go into the queue. -/
structure Wrote (bytes : List β) (i : ℕ) (pi : Pipe β) (q : List β) (r : Stop × ℕ × Pipe β) : Prop where
  le : i ≤ r.2.1
  stands : Stands r.2.2 (q ++ (bytes.drop i).take (r.2.1 - i))
  nread : r.2.2.nread = pi.nread
  readopen : r.2.2.readopen = pi.readopen
  writeopen : r.2.2.writeopen = pi.writeopen
  length : (bytes.drop i).take (r.2.1 - i) = [] → r.2.2 = pi
  count : ((bytes.drop i).take (r.2.1 - i)).length = r.2.1 - i
  full : r.1 = .full → r.2.2.nwrite = (r.2.2.nread + PIPESIZE) % UINT ∧ r.2.2.readopen = true
  stuck : pi.nwrite = (pi.nread + PIPESIZE) % UINT → r.2.2 = pi

/-- The loop stops where it stands. -/
theorem Wrote.stop (h : Stands pi q) (st : Stop)
    (hfull : st = .full → pi.nwrite = (pi.nread + PIPESIZE) % UINT ∧ pi.readopen = true) : Wrote bytes i pi q (st, i, pi) where
  le := le_rfl
  stands := by simpa using h
  nread := rfl
  readopen := rfl
  writeopen := rfl
  length _ := rfl
  count := by simp
  full := hfull
  stuck _ := rfl

theorem writeLoop_spec (h : Stands pi q) : Wrote bytes i pi q (writeLoop bytes killed k i pi) := by
  induction k generalizing i pi q with
  | zero => exact Wrote.stop h .done (by simp)
  | succ k ih =>
    rw [writeLoop]
    split_ifs with hdead hfull
    · exact Wrote.stop h .dead (by simp)
    · refine Wrote.stop h .full fun _ => ⟨hfull, ?_⟩
      cases hr : pi.readopen with
      | true => rfl
      | false => exact absurd (.inl hr) hdead
    · cases hb : bytes[i]? with
      | none => exact Wrote.stop h .done (by simp)
      | some ch =>
        -- one byte is copied, and the loop goes on
        obtain ⟨hi, rfl⟩ := List.getElem?_eq_some_iff.mp hb
        have hlt : q.length < PIPESIZE := lt_of_le_of_ne h.le fun he => hfull ((h.full_iff pipesize_lt).mpr he)
        have hpush : Stands { pi with
            data := Function.update pi.data (pi.nwrite % PIPESIZE) bytes[i], nwrite := (pi.nwrite + 1) % UINT } (q ++ [bytes[i]]) :=
          h.push pipesize_dvd hlt bytes[i]
        have hr := ih (i := i + 1) hpush
        dsimp only
        generalize writeLoop bytes killed k (i + 1) _ = r at hr ⊢
        have hle := hr.le
        have htake : (bytes.drop i).take (r.2.1 - i) = bytes[i] :: (bytes.drop (i + 1)).take (r.2.1 - (i + 1)) := by
          rw [List.drop_eq_getElem_cons hi, show r.2.1 - i = r.2.1 - (i + 1) + 1 by omega, List.take_succ_cons]
        refine ⟨by omega, ?_, hr.nread, hr.readopen, hr.writeopen, fun hx => ?_, ?_, hr.full, fun hx => absurd hx hfull⟩
        · have := hr.stands
          rwa [List.append_assoc, List.singleton_append, ← htake] at this
        · rw [htake] at hx
          cases hx
        · have := hr.count
          rw [htake, List.length_cons]
          omega

/-- An empty pipe is full after `PIPESIZE` bytes. -/
theorem writeLoop_fills (ho : pi.readopen = true) (hk : ∀ j, killed j = false) (hr : pi.nread = 0) (hw : pi.nwrite = i) (hi : i ≤ PIPESIZE)
    (hl : PIPESIZE ≤ bytes.length) (hfuel : PIPESIZE - i < k) :
    (writeLoop bytes killed k i pi).1 = .full ∧ (writeLoop bytes killed k i pi).2.1 = PIPESIZE := by
  have hU := pipesize_lt
  induction k generalizing i pi with
  | zero => exact absurd hfuel (Nat.not_lt_zero _)
  | succ k ih =>
    have hcond : pi.nwrite = (pi.nread + PIPESIZE) % UINT ↔ i = PIPESIZE := by rw [hw, hr, Nat.zero_add, Nat.mod_eq_of_lt hU]
    rw [writeLoop, if_neg (by simp [ho, hk])]
    by_cases hfull : i = PIPESIZE
    · rw [if_pos (hcond.mpr hfull)]
      exact ⟨rfl, hfull⟩
    · have hlt : i < bytes.length := by omega
      rw [if_neg (fun h => hfull (hcond.mp h)), List.getElem?_eq_getElem hlt]
      exact ih ho hr (by dsimp only; rw [hw, Nat.mod_eq_of_lt (by omega)]) (by omega) (by omega)

/-- What the loop of `piperead` does: it takes the first bytes of the queue. -/
structure Took (k i room : ℕ) (pi : Pipe β) (q : List β) (r : ℕ × List β × Pipe β) (rest : List β) : Prop where
  split : q = r.2.1 ++ rest
  stands : Stands r.2.2 rest
  nwrite : r.2.2.nwrite = pi.nwrite
  readopen : r.2.2.readopen = pi.readopen
  writeopen : r.2.2.writeopen = pi.writeopen
  le : i ≤ r.1
  /-- A byte that `copyout` cannot deliver is lost. -/
  delivered : r.2.1.length = r.1 - i ∨ (r.2.1.length = r.1 - i + 1 ∧ room ≤ r.1)
  empty : 0 < k → i < room → r.1 = i → q = []

theorem readLoop_spec (h : Stands pi q) : ∃ rest, Took k i room pi q (readLoop room k i pi) rest := by
  induction k generalizing i pi q with
  | zero => exact ⟨q, rfl, h, rfl, rfl, rfl, le_rfl, .inl (by simp [readLoop]), fun hk => absurd hk (lt_irrefl 0)⟩
  | succ k ih =>
    rw [readLoop]
    split_ifs with hempty hroom
    · exact ⟨q, rfl, h, rfl, rfl, rfl, le_rfl, .inl (by simp), fun _ _ _ => (h.empty_iff pipesize_lt).mp hempty⟩
    · cases q with
      | nil => exact absurd ((h.empty_iff pipesize_lt).mpr rfl) hempty
      | cons x q =>
        obtain ⟨hx, hpop⟩ := h.pop pipesize_dvd uint_pos
        have hstands : Stands { pi with nread := (pi.nread + 1) % UINT } q := hpop
        obtain ⟨rest, hr⟩ := ih (i := i + 1) hstands
        have hle := hr.le
        dsimp only
        refine ⟨rest, ?_, hr.stands, hr.nwrite, hr.readopen, hr.writeopen, by omega, ?_, fun _ _ he => ?_⟩
        · rw [List.cons_append, hx, ← hr.split]
        · have := hr.delivered
          simp only [List.length_cons]
          omega
        · have he : (readLoop room k (i + 1) { pi with nread := (pi.nread + 1) % UINT }).1 = i := he
          omega
    · cases q with
      | nil => exact absurd ((h.empty_iff pipesize_lt).mpr rfl) hempty
      | cons x q =>
        obtain ⟨hx, hpop⟩ := h.pop pipesize_dvd uint_pos
        dsimp only
        exact ⟨q, by rw [hx]; rfl, hpop, rfl, rfl, rfl, le_rfl, .inr ⟨by simp, by omega⟩, fun _ hr => absurd hr hroom⟩

end Loops

/-! ## Runs -/

section Runs

variable {β : Type} {s t : Sys β} {a : Act β} {o : Out β} {tr : List (Ev (Sys β) (Act β) (Out β))} {q : List β} {p : ℕ}
  {data : ℕ → β}

/-- Everything that has been put into the pipe, and everything that has been taken from it. -/
def puts (tr : List (Ev (Sys β) (Act β) (Out β))) : List β := tr.flatMap fun e => e.out.put

def takes (tr : List (Ev (Sys β) (Act β) (Out β))) : List β := tr.flatMap fun e => e.out.taken

/-- What a step does: a call begins or goes on, or nothing is put and taken. -/
theorem step_cases (h : Step s a o t) :
    (∃ p c kill, begins s a = some (p, c, kill) ∧ run p c kill s = (o, t)) ∨
    (o.put = [] ∧ o.taken = [] ∧ t.pipe.data = s.pipe.data ∧ t.pipe.nread = s.pipe.nread ∧ t.pipe.nwrite = s.pipe.nwrite) := by
  unfold Step step at h
  split at h
  · dsimp only at h
    split at h <;> obtain ⟨rfl, rfl⟩ := Prod.mk.inj (Option.some.inj h) <;> exact .inr ⟨rfl, rfl, rfl, rfl, rfl⟩
  · obtain ⟨rfl, rfl⟩ := Prod.mk.inj (Option.some.inj h)
    exact .inr ⟨rfl, rfl, rfl, rfl, rfl⟩
  · obtain ⟨rfl, rfl⟩ := Prod.mk.inj (Option.some.inj h)
    exact .inr ⟨rfl, rfl, rfl, rfl, rfl⟩
  · obtain ⟨x, hx, hr⟩ := Option.map_eq_some_iff.mp h
    exact .inl ⟨x.1, x.2.1, x.2.2, hx, hr⟩

theorem pipewrite_pipe {bytes : List β} {n i : ℕ} {kill : Option ℕ} (s : Sys β) :
    (pipewrite p bytes n i kill s).2.pipe = (writeLoop bytes (s.flag p kill) (n - i) i s.pipe).2.2 ∧
    (pipewrite p bytes n i kill s).1.put =
      (bytes.drop i).take ((writeLoop bytes (s.flag p kill) (n - i) i s.pipe).2.1 - i) ∧
    (pipewrite p bytes n i kill s).1.taken = [] := by
  unfold pipewrite
  dsimp only
  split <;> exact ⟨rfl, rfl, rfl⟩

/-- A section takes from the front of the queue or puts behind it. -/
theorem run_stands {c : Call β} {kill : Option ℕ} (h : Stands s.pipe q) (hrun : run p c kill s = (o, t)) :
    ∃ rest, q = o.taken ++ rest ∧ Stands t.pipe (rest ++ o.put) := by
  cases c with
  | write bytes n i =>
    obtain ⟨h1, h2, h3⟩ := @pipewrite_pipe β p bytes n i kill s
    have hrun : pipewrite p bytes n i kill s = (o, t) := hrun
    rw [hrun] at h1 h2 h3
    refine ⟨q, by rw [h3]; rfl, ?_⟩
    rw [h1, h2]
    exact (writeLoop_spec h).stands
  | read n room =>
    have hrun : piperead p n room kill s = (o, t) := hrun
    unfold piperead at hrun
    split_ifs at hrun
    · obtain ⟨rfl, rfl⟩ := Prod.mk.inj hrun
      exact ⟨q, rfl, by rwa [List.append_nil]⟩
    · obtain ⟨rfl, rfl⟩ := Prod.mk.inj hrun
      exact ⟨q, rfl, by rwa [List.append_nil]⟩
    · obtain ⟨rfl, rfl⟩ := Prod.mk.inj hrun
      obtain ⟨rest, hr⟩ := @readLoop_spec β _ _ n 0 room h
      exact ⟨rest, hr.split, by rw [List.append_nil]; exact hr.stands⟩

theorem step_stands (h : Stands s.pipe q) (hst : Step s a o t) : ∃ rest, q = o.taken ++ rest ∧ Stands t.pipe (rest ++ o.put) := by
  rcases step_cases hst with ⟨p, c, kill, -, hrun⟩ | ⟨h1, h2, h3, h4, h5⟩
  · exact run_stands h hrun
  · refine ⟨q, by rw [h2]; rfl, ?_⟩
    rw [h1, List.append_nil]
    unfold Stands
    rwa [h3, h4, h5]

/-- In every run the pipe stands for what has been put and not yet taken. -/
theorem run_stands_puts (hr : Run Step always (pipealloc data) tr t) : ∃ q, puts tr = takes tr ++ q ∧ Stands t.pipe q := by
  induction hr with
  | nil => exact ⟨[], rfl, Holds.init uint_pos data⟩
  | @snoc tr t u a o _ _ hst ih =>
    obtain ⟨q, hq, hs⟩ := ih
    obtain ⟨rest, rfl, hs'⟩ := step_stands hs hst
    refine ⟨rest ++ o.put, ?_, hs'⟩
    have h1 : puts (tr ++ [⟨t, a, o, u⟩]) = puts tr ++ o.put := by simp [puts]
    have h2 : takes (tr ++ [⟨t, a, o, u⟩]) = takes tr ++ o.taken := by simp [takes]
    rw [h1, h2, hq, List.append_assoc, List.append_assoc, List.append_assoc]

/-- **First in, first out.**  In every run, whatever calls, faults, wakeups, closes and kills there are, what has been taken from the pipe
is the beginning of what has been put in; the rest, at most `PIPESIZE` bytes, stands in the pipe, also after the counters have wrapped. -/
theorem fifo (hr : Run Step always (pipealloc data) tr t) :
    ∃ q, puts tr = takes tr ++ q ∧ q.length ≤ PIPESIZE ∧ Stands t.pipe q := by
  obtain ⟨q, hq, hs⟩ := run_stands_puts hr
  exact ⟨q, hq, hs.le, hs⟩

/-- A run that a computation finds. -/
theorem exists_run (as : List (Act ℕ)) {P : List (Ev (Sys ℕ) (Act ℕ) (Out ℕ)) → Sys ℕ → Prop} [∀ tr t, Decidable (P tr t)]
    (h : (Lts.execute step always (pipealloc fun _ => 0) as).any (fun x => decide (P x.1 x.2)) = true) :
    ∃ tr t, Run Step always (pipealloc fun _ => 0) tr t ∧ P tr t :=
  Lts.exists_run_of_execute (fun _ _ _ _ h => h) h

theorem exists_fifo_run : ∃ tr t, Run Step always (pipealloc fun _ => 0) tr t ∧ (puts tr = [7, 8, 9] ∧ takes tr = [7, 8]) :=
  exists_run [.call 1 (.write [7, 8, 9] 3 0) none, .call 2 (.read 2 2) none] (by decide +kernel)

theorem fifo_three : ∃ tr t, Run Step always (pipealloc fun _ => 0) tr t ∧ takes tr = [7, 8] ∧ ∃ q, [7, 8, 9] = [7, 8] ++ q ∧
    Stands t.pipe q := by
  obtain ⟨tr, t, hr, h1, h2⟩ := exists_fifo_run
  obtain ⟨q, hq, -, hs⟩ := fifo hr
  exact ⟨tr, t, hr, h2, q, by rw [← h1, ← h2, hq], hs⟩

/-- **End of file.**  A `piperead` that returns 0, although it was to read something and its first byte could be delivered, has found all
writers gone and every byte taken that was ever put into the pipe. -/
theorem end_of_file {n room : ℕ} {kill : Option ℕ} (hr : Run Step always (pipealloc data) tr s) (hst : Step s a o t)
    (hb : begins s a = some (p, .read n room, kill)) (hn : 0 < n) (hroom : 0 < room) (h0 : o.ret = some 0) :
    s.pipe.writeopen = false ∧ puts tr = takes tr := by
  obtain ⟨q, hq, hs⟩ := run_stands_puts hr
  have hrun : piperead p n room kill s = (o, t) := by
    unfold Step step at hst
    split at hst
    · cases hb
    · cases hb
    · cases hb
    · rw [hb] at hst
      exact Option.some.inj hst
  unfold piperead at hrun
  split_ifs at hrun with hempty hkill
  · obtain ⟨rfl, rfl⟩ := Prod.mk.inj hrun
    cases h0
  · obtain ⟨rfl, rfl⟩ := Prod.mk.inj hrun
    cases h0
  · obtain ⟨rfl, rfl⟩ := Prod.mk.inj hrun
    obtain ⟨rest, htook⟩ := @readLoop_spec β _ _ n 0 room hs
    have hz : (readLoop room n 0 s.pipe).1 = 0 := by simpa using h0
    have hnil := htook.empty hn hroom hz
    refine ⟨?_, by rw [hq, hnil, List.append_nil]⟩
    cases hw : s.pipe.writeopen with
    | false => rfl
    | true => exact absurd ⟨(hs.empty_iff pipesize_lt).mpr hnil, hw⟩ hempty

theorem exists_closed_run : ∃ tr t, Run Step always (pipealloc fun _ => 0) tr t ∧
    (((step t (.call 2 (.read 1 1) none)).map fun x => x.1.ret) = some (some 0) ∧
      begins t (.call 2 (.read 1 1) none) = some (2, .read 1 1, none) ∧ takes tr = [7]) :=
  exists_run [.call 1 (.write [7] 1 0) none, .close true, .call 2 (.read 4 4) none] (by decide +kernel)

theorem end_of_file_closed : ∃ tr t, Run Step always (pipealloc fun _ => 0) tr t ∧ takes tr = [7] ∧ t.pipe.writeopen = false ∧
    puts tr = takes tr := by
  obtain ⟨tr, t, hr, h1, h2, h3⟩ := exists_closed_run
  obtain ⟨⟨o, u⟩, hst, h0⟩ := Option.map_eq_some_iff.mp h1
  exact ⟨tr, t, hr, h3, end_of_file hr hst h2 (by decide) (by decide) h0⟩

end Runs

/-! ## Who sleeps -/

section Sleepers

variable {β : Type} {s t : Sys β} {a : Act β} {o : Out β} {tr : List (Ev (Sys β) (Act β) (Out β))} {q : List β} {p : ℕ}
  {data : ℕ → β}

def Sys.ReaderAsleep (s : Sys β) : Prop := ∃ p n room, s.thread p = .asleep (.read n room)

def Sys.WriterAsleep (s : Sys β) : Prop := ∃ p bytes n i, s.thread p = .asleep (.write bytes n i)

def Sys.Empty (s : Sys β) : Prop := s.pipe.nread = s.pipe.nwrite ∧ s.pipe.writeopen = true

def Sys.Full (s : Sys β) : Prop := s.pipe.nwrite = (s.pipe.nread + PIPESIZE) % UINT ∧ s.pipe.readopen = true

theorem wakeReaders_not_asleep (s : Sys β) : ¬ s.wakeReaders.ReaderAsleep := by
  rintro ⟨p, n, room, h⟩
  simp only [Sys.wakeReaders] at h
  split at h
  · cases h
  · rename_i hne
    exact hne n room h

theorem wakeWriters_not_asleep (s : Sys β) : ¬ s.wakeWriters.WriterAsleep := by
  rintro ⟨p, bytes, n, i, h⟩
  simp only [Sys.wakeWriters] at h
  split at h
  · cases h
  · rename_i hne
    exact hne bytes n i h

theorem wakeReaders_writer (h : s.wakeReaders.WriterAsleep) : s.WriterAsleep := by
  obtain ⟨p, bytes, n, i, h⟩ := h
  simp only [Sys.wakeReaders] at h
  split at h
  · cases h
  · exact ⟨p, bytes, n, i, h⟩

theorem wakeWriters_reader (h : s.wakeWriters.ReaderAsleep) : s.ReaderAsleep := by
  obtain ⟨p, n, room, h⟩ := h
  simp only [Sys.wakeWriters] at h
  split at h
  · cases h
  · exact ⟨p, n, room, h⟩

/-- A process that does not fall asleep as a reader adds no sleeping reader. -/
theorem setThread_reader {x : Thread β} (hx : ∀ n room, x ≠ .asleep (.read n room)) (h : (s.setThread p x).ReaderAsleep) :
    s.ReaderAsleep := by
  obtain ⟨r, n, room, h⟩ := h
  by_cases hrp : r = p
  · subst hrp
    simp only [Sys.setThread, Function.update_self] at h
    exact absurd h (hx n room)
  · simp only [Sys.setThread, Function.update_of_ne hrp] at h
    exact ⟨r, n, room, h⟩

theorem setThread_writer {x : Thread β} (hx : ∀ bytes n i, x ≠ .asleep (.write bytes n i)) (h : (s.setThread p x).WriterAsleep) :
    s.WriterAsleep := by
  obtain ⟨r, bytes, n, i, h⟩ := h
  by_cases hrp : r = p
  · subst hrp
    simp only [Sys.setThread, Function.update_self] at h
    exact absurd h (hx bytes n i)
  · simp only [Sys.setThread, Function.update_of_ne hrp] at h
    exact ⟨r, bytes, n, i, h⟩

/-- Readers sleep on an empty pipe only, one that still has a writer. -/
def Sys.ReadersBlocked (s : Sys β) : Prop := s.ReaderAsleep → s.Empty

/-- The section ends in `return -1` after it has put bytes into the pipe, and some reader sleeps: nobody wakes it. -/
def Strands (s : Sys β) (a : Act β) : Prop :=
  ∃ p bytes n i kill, begins s a = some (p, .write bytes n i, kill) ∧
    (writeLoop bytes (s.flag p kill) (n - i) i s.pipe).1 = .dead ∧
    i < (writeLoop bytes (s.flag p kill) (n - i) i s.pipe).2.1 ∧ s.ReaderAsleep

/-- **Writers.**  In every run a process that sleeps in `pipewrite` finds the pipe full and its read end open if it looks again. -/
theorem writers_blocked (hr : Run Step always (pipealloc data) tr t) (hw : t.WriterAsleep) : t.Full := by
  induction hr with
  | nil =>
    obtain ⟨p, bytes, n, i, h⟩ := hw
    cases h
  | @snoc tr s t a o hr _ hst ih =>
    obtain ⟨q, -, hs⟩ := run_stands_puts hr
    unfold Step step at hst
    split at hst
    · -- kill
      dsimp only at hst
      split at hst <;> obtain ⟨-, rfl⟩ := Prod.mk.inj (Option.some.inj hst)
      · exact ih (setThread_writer (by simp) hw)
      · exact ih hw
    · obtain ⟨-, rfl⟩ := Prod.mk.inj (Option.some.inj hst)
      exact ih (wakeReaders_writer hw)
    · obtain ⟨-, rfl⟩ := Prod.mk.inj (Option.some.inj hst)
      exact absurd hw (wakeWriters_not_asleep _)
    · obtain ⟨⟨p, c, kill⟩, -, hrun⟩ := Option.map_eq_some_iff.mp hst
      cases c with
      | write bytes n i =>
        have hrun : pipewrite p bytes n i kill s = (o, t) := hrun
        have hsp := @writeLoop_spec β _ _ bytes (s.flag p kill) (n - i) i hs
        -- a full pipe stays as it is
        have hold : ∀ u : Sys β, u.pipe = (writeLoop bytes (s.flag p kill) (n - i) i s.pipe).2.2 → s.WriterAsleep → u.Full := by
          intro u hu hws
          have hfull := ih hws
          unfold Sys.Full
          rw [hu, hsp.stuck hfull.1]
          exact hfull
        unfold pipewrite at hrun
        dsimp only at hrun
        split at hrun <;> obtain ⟨-, rfl⟩ := Prod.mk.inj hrun
        · exact hold _ rfl (wakeReaders_writer (setThread_writer (by simp) hw))
        · exact hsp.full (by assumption)
        · exact hold _ rfl (setThread_writer (by simp) hw)
      | read n room =>
        have hrun : piperead p n room kill s = (o, t) := hrun
        unfold piperead at hrun
        split_ifs at hrun <;> obtain ⟨-, rfl⟩ := Prod.mk.inj hrun
        · exact ih (setThread_writer (by simp) hw)
        · exact ih (setThread_writer (by simp) hw)
        · exact absurd (setThread_writer (by simp) hw) (wakeWriters_not_asleep _)

/-- A writer that finds the pipe full goes to sleep. -/
theorem pipewrite_asleep {bytes : List β} {n i : ℕ} {kill : Option ℕ} (h : (writeLoop bytes (s.flag p kill) (n - i) i s.pipe).1 = .full) :
    (pipewrite p bytes n i kill s).2.thread p = .asleep (.write bytes n (writeLoop bytes (s.flag p kill) (n - i) i s.pipe).2.1) := by
  unfold pipewrite Sys.setThread
  dsimp only
  rw [h]
  dsimp only
  rw [Function.update_self]

/-- The step of a process that calls `pipewrite`. -/
theorem step_write {bytes : List β} {n i : ℕ} {kill : Option ℕ} (h : s.thread p = .out) :
    Step s (.call p (.write bytes n i) kill) (pipewrite p bytes n 0 kill s).1 (pipewrite p bytes n 0 kill s).2 := by
  have hb : begins s (.call p (.write bytes n i) kill) = some (p, .write bytes n 0, kill) := by
    unfold begins
    dsimp only
    rw [h]
  unfold Step step
  dsimp only
  rw [hb, Option.map_some]
  rfl

theorem exists_full_run : ∃ tr t, Run Step always (pipealloc fun _ => 0) tr t ∧
    t.thread 1 = .asleep (.write (List.replicate 600 7) 600 PIPESIZE) := by
  have hlen : PIPESIZE ≤ (List.replicate 600 7).length := by
    rw [List.length_replicate]
    decide
  generalize List.replicate 600 7 = bytes at hlen ⊢
  obtain ⟨h1, h2⟩ := @writeLoop_fills _ (pipealloc fun _ => 0).pipe bytes ((pipealloc fun _ => 0).flag 1 none) (600 - 0) 0 rfl (fun _ => rfl)
    rfl rfl (Nat.zero_le _) hlen (by decide)
  refine ⟨_, _, Run.snoc .nil trivial (step_write (i := 0) rfl), (pipewrite_asleep h1).trans ?_⟩
  rw [h2]

theorem writers_blocked_full : ∃ tr t, Run Step always (pipealloc fun _ => 0) tr t ∧ t.Full := by
  obtain ⟨tr, t, hr, h⟩ := exists_full_run
  exact ⟨tr, t, hr, writers_blocked hr ⟨1, _, _, _, h⟩⟩

/-- A step that strands nobody leaves readers asleep on an empty pipe only. -/
theorem readers_step (hs : Stands s.pipe q) (hg : s.ReadersBlocked) (hok : ¬ Strands s a) (hst : Step s a o t)
    (hw : t.ReaderAsleep) : t.Empty := by
  unfold Step step at hst
  split at hst
  · dsimp only at hst
    split at hst <;> obtain ⟨-, rfl⟩ := Prod.mk.inj (Option.some.inj hst)
    · exact hg (setThread_reader (by simp) hw)
    · exact hg hw
  · obtain ⟨-, rfl⟩ := Prod.mk.inj (Option.some.inj hst)
    exact absurd hw (wakeReaders_not_asleep _)
  · obtain ⟨-, rfl⟩ := Prod.mk.inj (Option.some.inj hst)
    exact hg (wakeWriters_reader hw)
  · obtain ⟨⟨p, c, kill⟩, hb, hrun⟩ := Option.map_eq_some_iff.mp hst
    cases c with
    | write bytes n i =>
      have hrun : pipewrite p bytes n i kill s = (o, t) := hrun
      have hsp := @writeLoop_spec β _ _ bytes (s.flag p kill) (n - i) i hs
      unfold pipewrite at hrun
      dsimp only at hrun
      split at hrun <;> obtain ⟨-, rfl⟩ := Prod.mk.inj hrun
      · exact absurd (setThread_reader (by simp) hw) (wakeReaders_not_asleep _)
      · exact absurd (setThread_reader (by simp) hw) (wakeReaders_not_asleep _)
      · -- the writer was killed: before it put anything into the pipe
        have hdead : (writeLoop bytes (s.flag p kill) (n - i) i s.pipe).1 = .dead := by assumption
        have hws := setThread_reader (by simp) hw
        have hi : (writeLoop bytes (s.flag p kill) (n - i) i s.pipe).2.1 = i := by
          refine le_antisymm (Nat.le_of_not_lt fun hlt => hok ?_) hsp.le
          exact ⟨p, bytes, n, i, kill, hb, hdead, hlt, hws⟩
        have hpipe := hsp.length (by rw [hi]; simp)
        have hempty := hg hws
        refine ⟨?_, ?_⟩
        · change (writeLoop bytes (s.flag p kill) (n - i) i s.pipe).2.2.nread = (writeLoop bytes _ (n - i) i s.pipe).2.2.nwrite
          rw [hpipe]
          exact hempty.1
        · change (writeLoop bytes (s.flag p kill) (n - i) i s.pipe).2.2.writeopen = true
          rw [hpipe]
          exact hempty.2
    | read n room =>
      have hrun : piperead p n room kill s = (o, t) := hrun
      unfold piperead at hrun
      split_ifs at hrun with hempty hkill <;> obtain ⟨-, rfl⟩ := Prod.mk.inj hrun
      · exact hempty
      · exact hempty
      · exact absurd (hg (wakeWriters_reader (setThread_reader (by simp) hw))) hempty

/-- A step that strands a reader leaves it asleep on a pipe with data. -/
theorem strands_step (hs : Stands s.pipe q) (hst : Step s a o t) (hbad : Strands s a) : t.ReaderAsleep ∧ ¬ t.Empty := by
  obtain ⟨p, bytes, n, i, kill, hb, hdead, hlt, r, n', room, hr⟩ := hbad
  have hsp := @writeLoop_spec β _ _ bytes (s.flag p kill) (n - i) i hs
  have hrun : pipewrite p bytes n i kill s = (o, t) := by
    unfold Step step at hst
    split at hst
    · cases hb
    · cases hb
    · cases hb
    · rw [hb] at hst
      exact Option.some.inj hst
  -- the writer is not the sleeping reader
  have hrp : r ≠ p := by
    rintro rfl
    unfold begins at hb
    split at hb
    all_goals first
      | (split at hb <;> simp_all)
      | cases hb
  unfold pipewrite at hrun
  dsimp only at hrun
  rw [hdead] at hrun
  obtain ⟨-, rfl⟩ := Prod.mk.inj hrun
  refine ⟨⟨r, n', room, ?_⟩, fun he => ?_⟩
  · simp only [Sys.setThread, Function.update_of_ne hrp]
    exact hr
  · have hnil := (hsp.stands.empty_iff pipesize_lt).mp he.1
    have hcount := hsp.count
    rw [(List.append_eq_nil_iff.mp hnil).2, List.length_nil] at hcount
    omega

/-- **Readers.**  In a run a process that sleeps in `piperead` always sleeps on an empty pipe with a writer, exactly if no writer is killed
between the bytes of one section while a reader sleeps: that path returns -1 without a `wakeup`. -/
theorem asleep_iff (hr : Run Step always (pipealloc data) tr t) :
    (∀ e ∈ tr, e.post.ReadersBlocked) ↔ ∀ e ∈ tr, ¬ Strands e.pre e.act := by
  have hstands : ∀ {ok : Sys β → Act β → Prop} {u}, Lts.Reach Step ok (fun y => y = pipealloc data) u → ∃ q, Stands u.pipe q := by
    rintro ok u ⟨s0, tr', rfl, hr'⟩
    obtain ⟨q, -, hq⟩ := run_stands_puts (hr'.mono fun _ _ _ => trivial)
    exact ⟨q, hq⟩
  refine @Run.forall_good_iff _ _ _ Step (fun s a => ¬ Strands s a) Sys.ReadersBlocked _ _ _ hr (fun x hx => ?_)
    fun x a o y hx hst hbad hgood => ?_
  · obtain ⟨s0, tr', rfl, hr'⟩ := hx
    induction hr' with
    | nil =>
      rintro ⟨p, n, room, h⟩
      cases h
    | snoc hr' hok hst ih =>
      obtain ⟨q, hq⟩ := hstands ⟨_, _, rfl, hr'⟩
      exact readers_step hq ih hok hst
  · obtain ⟨q, hq⟩ := hstands hx
    obtain ⟨h1, h2⟩ := strands_step hq hst (not_not.mp hbad)
    exact h2 (hgood h1)

theorem exists_stranding_run : ∃ tr t, Run Step always (pipealloc fun _ => 0) tr t ∧
    ∃ e ∈ tr, begins e.pre e.act = some (1, .write [7, 8] 2 0, some 1) ∧
      ((writeLoop [7, 8] (e.pre.flag 1 (some 1)) 2 0 e.pre.pipe).1 = .dead ∧
        (writeLoop [7, 8] (e.pre.flag 1 (some 1)) 2 0 e.pre.pipe).2.1 = 1) ∧ e.pre.thread 2 = .asleep (.read 4 4) :=
  exists_run [.call 2 (.read 4 4) none, .call 1 (.write [7, 8] 2 0) (some 1)] (by decide +kernel)

/-- The writer puts one byte and is killed; the reader sleeps on. -/
theorem asleep_iff_stranded : ∃ tr t, Run Step always (pipealloc fun _ => 0) tr t ∧ ¬ ∀ e ∈ tr, e.post.ReadersBlocked := by
  obtain ⟨tr, t, hr, e, he, h1, ⟨h2, h3⟩, h4⟩ := exists_stranding_run
  refine ⟨tr, t, hr, fun h => (asleep_iff hr).mp h e he ⟨1, _, _, _, _, h1, h2, ?_, 2, _, _, h4⟩⟩
  rw [show (2 : ℕ) - 0 = 2 from rfl, h3]
  exact Nat.zero_lt_one

end Sleepers

end OsLabs.Xv6.Pipes
