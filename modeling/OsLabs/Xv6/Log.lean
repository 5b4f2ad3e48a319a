import OsLabs.Lts
import OsLabs.RedoLog
import OsLabs.Xv6.BufferCache

/-!
# OsLabs.Xv6.Log — the logging layer (log.c) over the buffer cache, with power failures

`Sys` is the disk, the buffer cache, `log` and what each process is doing; a process is its pid.  Every step is a section of `log.c`
or `bio.c` that runs under one spin lock or does one write to the disk, so a crash can come between any two writes.

* `beginOp`, `logWrite`, `endOp`: `begin_op`, `log_write` (with the change to `b->data` before it) and `end_op`.
* `get`, `acquire`, `release`: `bread` in two steps, since a process may wait for the sleep lock, and `brelse`.
* `logStep`: the next step of a process inside `commit` or `recover_from_log`, which reads the blocks it needs by `get` and `acquire`.
* `reboot`: the memory is lost and the first process runs `initlog`.
* `Caller`: what the callers of the layer promise.
-/

namespace OsLabs.Xv6.Fs

open RedoLog (Region)

/-- The contents of a disk block, as the `int`s that stand in it. -/
abbrev Block := ℕ → ℕ

/-- `read_head`: `lh->n`, and the block numbers behind it. -/
def readHead (d : Block) : List ℕ := (List.range (d 0)).map fun i => d (i + 1)

/-- `write_head`: only the `lh->n` block numbers are stored; the rest of the block stays. -/
def writeHead (d : Block) (lh : List ℕ) : Block
  | 0 => lh.length
  | k + 1 => lh.getD k (d (k + 1))

theorem readHead_writeHead (d : Block) (lh : List ℕ) : readHead (writeHead d lh) = lh := by
  apply List.ext_getElem
  · simp [readHead, writeHead]
  · intro i h1 h2
    simp [readHead, writeHead, h2]

/-- `struct log`; `lh` holds the first `lh.n` entries of `lh.block`. -/
structure Log where
  region : Region
  outstanding : ℤ
  committing : Bool
  lh : List ℕ

/-- Where a process inside `commit` or `recover_from_log` stands. -/
inductive Phase
  | readHead
  | writeLog (tail : ℕ)
  | writeHead
  | install (recovering : Bool) (tail : ℕ)
  | clear (recovering : Bool)
  /-- Back in `end_op` after `commit`. -/
  | finish
deriving DecidableEq

/-- What a process is doing: nothing with the log, asleep in `begin_op`, woken there, inside an operation, or in the code of the log. -/
inductive Op
  | out
  | asleep
  | woken
  | active
  | log (ph : Phase)
deriving DecidableEq

structure Proc where
  op : Op
  /-- History: the blocks that the operation has logged. -/
  wrote : List ℕ

inductive FsPanic
  | bget
  | brelse
  | tooBig
  | outsideTrans
  | committing
deriving DecidableEq, Repr

structure Sys where
  disk : ℕ → Block
  bc : Bcache Block
  log : Log
  proc : ℕ → Proc
  /-- The processes in `acquiresleep`, each with the buffer it has a reference to. -/
  waiting : List (ℕ × BufId)
  booted : Bool
  panicked : Option FsPanic

inductive Act
  | beginOp (p : ℕ)
  | get (p blockno : ℕ)
  | acquire (p : ℕ)
  /-- `b->data` becomes `d`, then `log_write(b)`. -/
  | logWrite (p : ℕ) (i : BufId) (d : Block)
  | release (p : ℕ) (i : BufId)
  | endOp (p : ℕ)
  | logStep (p : ℕ)
  | crash

inductive Out
  | done
  | sleep
  /-- `bread` returns a buffer with this block number and these contents. -/
  | data (blockno : ℕ) (d : Block)
  /-- The header has been written. -/
  | commit
  | panic (why : FsPanic)

namespace Sys

def op (s : Sys) (p : ℕ) : Op := (s.proc p).op

def setOp (s : Sys) (p : ℕ) (o : Op) : Sys := { s with proc := Function.update s.proc p { s.proc p with op := o } }

/-- A `panic` stops the machine. -/
def panic (s : Sys) (w : FsPanic) : Out × Sys := (.panic w, { s with panicked := some w })

/-- The process is not waiting for a sleep lock. -/
def Free (s : Sys) (p : ℕ) : Prop := ∀ w ∈ s.waiting, w.1 ≠ p

instance (s : Sys) (p : ℕ) : Decidable (s.Free p) := inferInstanceAs (Decidable (∀ w ∈ _, _))

/-- `wakeup(&log)`. -/
def wakeup (s : Sys) : Sys :=
  { s with proc := fun p => if (s.proc p).op = .asleep then { s.proc p with op := .woken } else s.proc p }

/-- The buffer of a block that the process has locked. -/
def holds (s : Sys) (p blockno : ℕ) : Option BufId :=
  (s.bc.hit ROOTDEV blockno).filter fun i => (s.bc.buf i).lock = some p

/-- The blocks that the next step in a phase works on, in the order in which they are read. -/
def needs (s : Sys) : Phase → List ℕ
  | .readHead | .writeHead | .clear _ => [s.log.region.start]
  | .writeLog tail | .install _ tail =>
    match s.log.lh[tail]? with
    | some b => [s.log.region.slot tail, b]
    | none => []
  | .finish => []

/-- A process in the code of the log reads the first block that it needs and does not have. -/
def mayRead (s : Sys) (p blockno : ℕ) : Bool :=
  match s.op p with
  | .asleep | .woken => false
  | .out | .active => s.booted
  | .log ph => (s.needs ph).find? (fun b => s.holds p b = none) = some blockno

end Sys

/-- The test in the loop of `begin_op`. -/
def Log.full (l : Log) : Prop := l.committing = true ∨ LOGSIZE < l.lh.length + (l.outstanding + 1) * MAXOPBLOCKS

instance (l : Log) : Decidable l.full := inferInstanceAs (Decidable (_ ∨ _))

def beginOp (p : ℕ) (s : Sys) : Option (Out × Sys) :=
  if s.Free p ∧ s.booted ∧ (s.op p = .out ∨ s.op p = .woken) then
    if s.log.full then some (.sleep, s.setOp p .asleep)
    else some (.done, { s with
      log := { s.log with outstanding := s.log.outstanding + 1 }
      proc := Function.update s.proc p { op := .active, wrote := [] } })
  else none

/-- `bread`, up to the sleep lock. -/
def get (p blockno : ℕ) (s : Sys) : Option (Out × Sys) :=
  if s.Free p ∧ s.mayRead p blockno then
    match s.bc.bget ROOTDEV blockno with
    | none => some (s.panic .bget)
    | some (i, bc) => some (.done, { s with bc, waiting := (p, i) :: s.waiting })
  else none

/-- The rest of `bread`: the process gets the sleep lock. -/
def acquire (p : ℕ) (s : Sys) : Option (Out × Sys) :=
  match s.waiting.find? fun w => w.1 = p with
  | none => none
  | some (_, i) =>
    if (s.bc.buf i).lock = none then
      let bc := (s.bc.acquire i p).fill i s.disk
      some (.data (bc.buf i).blockno (bc.buf i).data, { s with bc, waiting := s.waiting.erase (p, i) })
    else none

/-- The caller changes the locked buffer and logs it. -/
def logWrite (p : ℕ) (i : BufId) (d : Block) (s : Sys) : Option (Out × Sys) :=
  if s.Free p ∧ (s.bc.buf i).lock = some p then
    if LOGSIZE ≤ s.log.lh.length ∨ s.log.region.size ≤ s.log.lh.length + 1 then some (s.panic .tooBig)
    else if s.log.outstanding < 1 then some (s.panic .outsideTrans)
    else
      let b := (s.bc.buf i).blockno
      let proc := Function.update s.proc p { s.proc p with wrote := (s.proc p).wrote.insert b }
      let bc := s.bc.assign i d
      if b ∈ s.log.lh then some (.done, { s with bc, proc })
      else some (.done, { s with bc := bc.bpin i, log := { s.log with lh := s.log.lh ++ [b] }, proc })
  else none

/-- `brelse`. -/
def release (p : ℕ) (i : BufId) (s : Sys) : Option (Out × Sys) :=
  if s.Free p ∧ (s.op p = .out ∨ s.op p = .active) then
    if (s.bc.buf i).lock = some p then some (.done, { s with bc := s.bc.relse i })
    else some (s.panic .brelse)
  else none

/-- `end_op`; the last operation goes on to `commit`. -/
def endOp (p : ℕ) (s : Sys) : Option (Out × Sys) :=
  if s.Free p then
    let s1 := { s with log := { s.log with outstanding := s.log.outstanding - 1 } }
    if s.log.committing then some (s1.panic .committing)
    else if s1.log.outstanding = 0 then
      let s2 := { s1 with log := { s1.log with committing := true } }
      some (.done, s2.setOp p (.log (if s.log.lh = [] then .finish else .writeLog 0)))
    else some (.done, s1.wakeup.setOp p .out)
  else none

/-- `bwrite`: the block on the disk becomes what the buffer holds. -/
def Sys.bwrite (s : Sys) (i : BufId) : Sys :=
  { s with disk := Function.update s.disk (s.bc.buf i).blockno (s.bc.buf i).data }

/-- One step of `commit` or of `recover_from_log`. -/
def logPhase (p : ℕ) (s : Sys) : Phase → Option (Out × Sys)
  | .readHead => do
    let i ← s.holds p s.log.region.start
    let s := { s with log := { s.log with lh := readHead (s.bc.buf i).data }, bc := s.bc.relse i }
    some (.done, s.setOp p (.log (.install true 0)))
  | .writeLog tail =>
    match s.log.lh[tail]? with
    | none => some (.done, s.setOp p (.log .writeHead))
    | some b => do
      let bto ← s.holds p (s.log.region.slot tail)
      let bfrom ← s.holds p b
      let s := { s with bc := s.bc.assign bto (s.bc.buf bfrom).data }.bwrite bto
      some (.done, { s with bc := (s.bc.relse bfrom).relse bto }.setOp p (.log (.writeLog (tail + 1))))
  | .writeHead => do
    let i ← s.holds p s.log.region.start
    let s := { s with bc := s.bc.assign i (writeHead (s.bc.buf i).data s.log.lh) }.bwrite i
    some (.commit, { s with bc := s.bc.relse i }.setOp p (.log (.install false 0)))
  | .install recovering tail =>
    match s.log.lh[tail]? with
    | none => some (.done, { s with log := { s.log with lh := [] } }.setOp p (.log (.clear recovering)))
    | some b => do
      let lbuf ← s.holds p (s.log.region.slot tail)
      let dbuf ← s.holds p b
      let s := { s with bc := s.bc.assign dbuf (s.bc.buf lbuf).data }.bwrite dbuf
      let bc := if recovering then s.bc else s.bc.bunpin dbuf
      some (.done, { s with bc := (bc.relse lbuf).relse dbuf }.setOp p (.log (.install recovering (tail + 1))))
  | .clear recovering => do
    let i ← s.holds p s.log.region.start
    let s := { s with bc := s.bc.assign i (writeHead (s.bc.buf i).data s.log.lh) }.bwrite i
    let s := { s with bc := s.bc.relse i }
    if recovering then some (.done, { s with booted := true }.setOp p .out)
    else some (.done, s.setOp p (.log .finish))
  | .finish =>
    some (.done, ({ s with log := { s.log with committing := false } }.wakeup).setOp p .out)

def logStep (p : ℕ) (s : Sys) : Option (Out × Sys) :=
  match s.op p with
  | .log ph => if s.Free p then logPhase p s ph else none
  | _ => none

/-- The machine starts: memory holds zeros, and the first process is in `initlog`. -/
def boot (disk : ℕ → Block) (region : Region) : Sys where
  disk := disk
  bc := Bcache.binit fun _ => 0
  log := { region, outstanding := 0, committing := false, lh := [] }
  proc := fun p => { op := if p = 1 then .log .readHead else .out, wrote := [] }
  waiting := []
  booted := false
  panicked := none

/-- Power failure and restart. -/
def reboot (s : Sys) : Sys := boot s.disk s.log.region

/-- The steps of the machine; after a panic only a restart is left. -/
def step (s : Sys) (a : Act) : Option (Out × Sys) :=
  match a with
  | .crash => some (.done, reboot s)
  | a =>
    if s.panicked.isSome then none
    else
      match a with
      | .beginOp p => beginOp p s
      | .get p blockno => get p blockno s
      | .acquire p => acquire p s
      | .logWrite p i d => logWrite p i d s
      | .release p i => release p i s
      | .endOp p => endOp p s
      | .logStep p => logStep p s
      | .crash => none

/-- The machine as a transition relation. -/
def Step (s : Sys) (a : Act) (o : Out) (t : Sys) : Prop := step s a = some (o, t)

/-- **What the callers promise**: an operation logs and ends between `begin_op` and `end_op`, it writes no block of the log, and a process
releases what it has locked. -/
def Caller (s : Sys) : Act → Prop
  | .logWrite p i _ => s.op p = .active ∧ s.log.region.Home (s.bc.buf i).blockno
  | .endOp p => s.op p = .active
  | .release p i => (s.bc.buf i).lock = some p
  | _ => True

instance (s : Sys) : (a : Act) → Decidable (Caller s a)
  | .logWrite _ _ _ => inferInstanceAs (Decidable (_ ∧ _))
  | .endOp p => inferInstanceAs (Decidable (s.op p = .active))
  | .release p i => inferInstanceAs (Decidable ((s.bc.buf i).lock = some p))
  | .beginOp _ | .get _ _ | .acquire _ | .logStep _ | .crash => .isTrue trivial

end OsLabs.Xv6.Fs
