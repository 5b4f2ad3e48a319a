import OsLabs.Lts
import OsLabs.Xv6.Proc

/-!
# OsLabs.Xv6.Locks — CPUs, spin locks and processes, one lock operation at a time

Any number of CPUs run the scheduler and the processes.  The code of a call is a `Prog`: its `acquire` and `release` steps in their order,
and between two of them what it reads and writes of the process table.  A step of the machine is one such operation of one CPU, so the
calls of different CPUs interleave at every lock operation.  What the table does not determine (an allocation, a `copyout`) is chosen by
the step.  A CPU that holds no lock takes interrupts: a timer interrupt makes the process yield, a device interrupt wakes up sleepers.

The locks are `wait_lock`, `pid_lock`, the lock of each proc, and, as `other`, those of the subsystems that call `sleep` and `wakeup` with a
lock of their own (pipes, console, log, sleep locks, clock, disk).  The locks of the memory list, of the file table and of the inode table
are taken and given back inside one operation.

* `wakeup`, `sleep`, `yield`, `allocproc`, `fork`, `threadCreate`, `threadJoin`, `threadExit`, `exit`, `wait`, `kill`: the calls.
* `Machine`, `Machine.step`: the CPUs and the scheduler.
-/

namespace OsLabs.Xv6.Locks

/-- The spin locks. -/
inductive Lock
  | wait_lock
  | pid_lock
  | proc (i : Slot)
  | other (n : ℕ)
deriving DecidableEq

/-- What a process sleeps on. -/
inductive Chan
  | proc (i : Slot)
  | other (n : ℕ)
deriving DecidableEq

/-- The fields of `struct proc` that the calls read and write between two lock operations. -/
structure Info where
  state : ProcState
  chan : Option Chan
  killed : Bool
  pid : ℤ
  parent : Option Slot
  isThread : Bool
  father : Option Slot
  tid : ℤ

structure Table where
  proc : Slot → Info
  initproc : Slot
  nextpid : ℤ

/-- Where a loop of a call begins again, or a call ends. -/
inductive Entry
  /-- In user space, or in the kernel without any of the locks. -/
  | idle
  /-- The head of `for(;;)` in `wait`. -/
  | waitLoop
  /-- The head of `for(;;)` in `thread_join`, with its locals. -/
  | joinLoop (tid : ℤ) (leader : Option Slot)
  /-- In a subsystem that holds its own lock. -/
  | busy (n : ℕ)

/-- The code of a call from some point on. -/
inductive Prog
  | acquire (l : Lock) (k : Prog)
  | release (l : Lock) (k : Prog)
  /-- What happens between two lock operations; the `Bool` is what the table does not determine. -/
  | atomic (f : Table → Bool → Table) (k : Table → Bool → Prog)
  /-- The part of `allocproc` behind `allocpid`: the slot is taken and will start at `forkret`, or its memory cannot be allocated. -/
  | init (q : Slot) (pid : ℤ) (k : Bool → Prog)
  | sched (k : Prog)
  | goto (e : Entry)
  /-- A panic, or the end of an interrupt. -/
  | halt

namespace Table

def set (t : Table) (q : Slot) (x : Info) : Table := { t with proc := Function.update t.proc q x }

def setState (t : Table) (q : Slot) (st : ProcState) : Table := t.set q { t.proc q with state := st }

/-- `freeproc` and `freeproc_thread`. -/
def free (t : Table) (q : Slot) : Table := t.set q ⟨.unused, none, false, 0, none, false, none, 0⟩

/-- The body of the loop of `wakeup`. -/
def wake (t : Table) (q : Slot) (chan : Option Chan) : Table :=
  if (t.proc q).state = .sleeping ∧ (t.proc q).chan = chan then t.setState q .runnable else t

end Table

open Prog

/-- Code that only reads. -/
def read (k : Table → Bool → Prog) : Prog := .atomic (fun t _ => t) k

/-- Code that writes and goes on. -/
def write (f : Table → Table) (k : Prog) : Prog := .atomic (fun t _ => f t) (fun _ _ => k)

/-- `wakeup(chan)` behind the slots that are not in the list; `me` is `myproc()`. -/
def wakeup (me : Option Slot) (chan : Option Chan) (k : Prog) : List Slot → Prog
  | [] => k
  | q :: l =>
    if me = some q then wakeup me chan k l
    else acquire (.proc q) (write (·.wake q chan) (release (.proc q) (wakeup me chan k l)))

/-- `sleep(chan, lk)`. -/
def sleep (p : Slot) (chan : Chan) (lk : Lock) (k : Prog) : Prog :=
  acquire (.proc p) (release lk
    (write (fun t => t.set p { t.proc p with chan := some chan, state := .sleeping })
      (sched (write (fun t => t.set p { t.proc p with chan := none }) (release (.proc p) (acquire lk k))))))

def yield (p : Slot) (k : Prog) : Prog :=
  acquire (.proc p) (write (·.setState p .runnable) (sched (release (.proc p) k)))

/-- A fork child's first steps. -/
def forkret (p : Slot) : Prog := release (.proc p) (goto .idle)

/-- `killed(p)`; `k` gets the answer. -/
def killed (p : Slot) (k : Bool → Prog) : Prog :=
  acquire (.proc p) (read fun t _ => release (.proc p) (k (t.proc p).killed))

def setkilled (p : Slot) (k : Prog) : Prog :=
  acquire (.proc p) (write (fun t => t.set p { t.proc p with killed := true }) (release (.proc p) k))

/-- `allocproc` behind the slots that are not in the list; `k` gets the slot, with its lock held. -/
def allocproc (k : Option Slot → Prog) : List Slot → Prog
  | [] => k none
  | q :: l =>
    acquire (.proc q) (read fun t _ =>
      if (t.proc q).state = .unused then
        -- allocpid
        acquire .pid_lock (.atomic (fun t _ => { t with nextpid := int32 (t.nextpid + 1) }) fun t _ =>
          release .pid_lock (init q t.nextpid fun ok =>
            if ok then k (some q) else release (.proc q) (k none)))
      else release (.proc q) (allocproc k l))

/-- The end of `fork` and of `thread_create`. -/
def launch (p q : Slot) : Prog :=
  release (.proc q)
    (acquire .wait_lock (write (fun t => t.set q { t.proc q with parent := some p })
      (release .wait_lock
        (acquire (.proc q) (write (·.setState q .runnable) (release (.proc q) (goto .idle)))))))

/-- Behind `allocproc`: the address space is copied or shared, or that fails. -/
def fill (p q : Slot) (f : Table → Info → Info) : Prog :=
  .atomic (fun t ok => if ok then t.set q (f t (t.proc q)) else t.free q)
    (fun _ ok => if ok then launch p q else release (.proc q) (goto .idle))

def fork (p : Slot) : Prog :=
  allocproc (fun | none => goto .idle | some q => fill p q fun _ x => x) slots

def threadCreate (p : Slot) : Prog :=
  allocproc (fun
    | none => goto .idle
    | some q => fill p q fun t x =>
      { x with isThread := true, father := if (t.proc p).isThread then (t.proc p).father else some p, tid := x.pid }) slots

/-- The scan of `thread_join` behind the slots that are not in the list. -/
def joinScan (p : Slot) (tid : ℤ) (leader : Option Slot) : List Slot → Prog
  | [] => release .wait_lock (goto .idle)
  | q :: l => read fun t _ =>
    if (t.proc q).state ≠ .unused ∧ (t.proc q).isThread = true ∧ (t.proc q).father = leader ∧ (t.proc q).tid = tid then
      acquire (.proc q) (.atomic (fun t _ => if (t.proc q).state = .zombie then t.free q else t) fun t _ =>
        if (t.proc q).state = .zombie then release (.proc q) (release .wait_lock (goto .idle))
        else release (.proc q) (sleep p (.proc q) .wait_lock (goto (.joinLoop tid leader))))
    else joinScan p tid leader l

def threadJoin (p : Slot) (tid : ℤ) : Prog := read fun t _ =>
  acquire .wait_lock (goto (.joinLoop tid (if (t.proc p).isThread then (t.proc p).father else some p)))

/-- `reparent(p)` behind the slots that are not in the list. -/
def reparent (p : Slot) (k : Prog) : List Slot → Prog
  | [] => k
  | pp :: l => .atomic
    (fun t _ => if (t.proc pp).parent = some p then t.set pp { t.proc pp with parent := some t.initproc } else t)
    fun t _ => if (t.proc pp).parent = some p then wakeup (some p) (some (.proc t.initproc)) (reparent p k l) slots else reparent p k l

/-- `exit` behind the files. -/
def exit (p : Slot) : Prog := read fun t _ =>
  if p = t.initproc then halt
  else acquire .wait_lock (reparent p
    (read fun t _ => wakeup (some p) ((t.proc p).parent.map .proc)
      (acquire (.proc p) (write (·.setState p .zombie) (release .wait_lock (sched halt)))) slots) slots)

/-- `thread_exit` behind the files and the stack. -/
def threadExit (p : Slot) : Prog := read fun t _ =>
  if (t.proc p).isThread = true then
    acquire .wait_lock (acquire (.proc p) (write (·.setState p .zombie)
      (wakeup (some p) (some (.proc p)) (release .wait_lock (sched halt)) slots)))
  else exit p

/-- The scan of `wait` behind the slots that are not in the list, and what follows it. -/
def waitScan (p : Slot) (havekids : Bool) : List Slot → Prog
  | [] =>
    if havekids then
      killed p fun b => if b then release .wait_lock (goto .idle) else sleep p (.proc p) .wait_lock (goto .waitLoop)
    else release .wait_lock (goto .idle)
  | pp :: l => read fun t _ =>
    if (t.proc pp).parent = some p then
      -- the copyout of the exit status may fail, and then the zombie stays
      acquire (.proc pp) (.atomic (fun t ok => if (t.proc pp).state = .zombie ∧ ok = true then t.free pp else t) fun t _ =>
        if (t.proc pp).state = .zombie then release (.proc pp) (release .wait_lock (goto .idle))
        else release (.proc pp) (waitScan p true l))
    else waitScan p havekids l

def wait : Prog := acquire .wait_lock (goto .waitLoop)

/-- `kill(pid)` behind the slots that are not in the list. -/
def kill (pid : ℤ) : List Slot → Prog
  | [] => goto .idle
  | q :: l =>
    acquire (.proc q) (.atomic
      (fun t _ =>
        if (t.proc q).pid = pid then
          t.set q { t.proc q with killed := true, state := if (t.proc q).state = .sleeping then .runnable else (t.proc q).state }
        else t)
      fun t _ => release (.proc q) (if (t.proc q).pid = pid then goto .idle else kill pid l))

/-- What a process does next without a lock. -/
inductive Call
  | fork
  | threadCreate
  | threadJoin (tid : ℤ)
  | threadExit
  | exit
  | wait
  | kill (pid : ℤ)
  | killed
  | setkilled
  /-- Into a subsystem with a lock of its own. -/
  | lock (n : ℕ)

/-- What a subsystem does next with its own lock. -/
inductive BusyCall
  | wakeup (chan : Chan)
  | sleep (chan : Chan)
  | killed
  | unlock

def Call.prog (p : Slot) : Call → Prog
  | .fork => Locks.fork p
  | .threadCreate => Locks.threadCreate p
  | .threadJoin tid => Locks.threadJoin p tid
  | .threadExit => Locks.threadExit p
  | .exit => Locks.exit p
  | .wait => Locks.wait
  | .kill pid => Locks.kill pid slots
  | .killed => Locks.killed p fun _ => goto .idle
  | .setkilled => Locks.setkilled p (goto .idle)
  | .lock n => acquire (.other n) (goto (.busy n))

def BusyCall.prog (p : Slot) (n : ℕ) : BusyCall → Prog
  | .wakeup chan => Locks.wakeup (some p) (some chan) (goto (.busy n)) slots
  | .sleep chan => Locks.sleep p chan (.other n) (goto (.busy n))
  | .killed => Locks.killed p fun _ => goto (.busy n)
  | .unlock => release (.other n) (goto .idle)

/-- A device interrupt: `wakeup` under the lock of the device. -/
def device (me : Option Slot) (n : ℕ) (chan : Chan) (k : Prog) : Prog :=
  acquire (.other n) (wakeup me (some chan) (release (.other n) k) slots)

/-! ## The machine -/

/-- Where a CPU is: in `scheduler` before the lock of slot `i` or behind it, in a process, behind the `swtch` back, or in an interrupt
that came while it was scanning. -/
inductive Mode
  | scan (i : ℕ)
  | test (i : Slot)
  | run (p : Slot)
  | back (i : Slot)
  | intr (k : Prog) (i : ℕ)

/-- The processes, the locks, the CPUs, and where each process goes on. -/
structure Machine (κ : Type*) where
  table : Table
  holder : Lock → Option κ
  noff : κ → ℕ
  cpu : κ → Mode
  cont : Slot → Prog

/-- What the machine does not determine. -/
inductive Choice
  | go (b : Bool)
  | call (c : Call)
  | busy (c : BusyCall)
  | timer
  | device (n : ℕ) (chan : Chan)

namespace Machine

variable {κ : Type*} [DecidableEq κ]

def setMode (m : Machine κ) (c : κ) (x : Mode) : Machine κ := { m with cpu := Function.update m.cpu c x }

/-- The program that the CPU runs goes on with `k`. -/
def setProg (m : Machine κ) (c : κ) (k : Prog) : Machine κ :=
  match m.cpu c with
  | .run p => { m with cont := Function.update m.cont p k }
  | .intr _ i => m.setMode c (.intr k i)
  | _ => m

/-- `acquire`, once the lock is free. -/
def lock (m : Machine κ) (c : κ) (l : Lock) : Machine κ :=
  { m with holder := Function.update m.holder l (some c), noff := Function.update m.noff c (m.noff c + 1) }

def unlock (m : Machine κ) (c : κ) (l : Lock) : Machine κ :=
  { m with holder := Function.update m.holder l none, noff := Function.update m.noff c (m.noff c - 1) }

/-- `acquire`: no step while the lock is held.  The code turns interrupts off before it spins; here they may come until it has the lock,
so the machine has more runs. -/
def acquire (m : Machine κ) (c : κ) (l : Lock) : Option (Machine κ) :=
  if m.holder l = none then some (m.lock c l) else none

/-- `release`: it panics when the CPU does not hold the lock. -/
def release (m : Machine κ) (c : κ) (l : Lock) : Option (Machine κ) :=
  if m.holder l = some c then some (m.unlock c l) else none

/-- The part of `allocproc` behind `allocpid`. -/
def init (m : Machine κ) (q : Slot) (pid : ℤ) (ok : Bool) : Machine κ :=
  if ok then
    { m with
      table := m.table.set q { m.table.proc q with state := .used, pid := pid, isThread := false, father := none, tid := 0 }
      cont := Function.update m.cont q (forkret q) }
  else { m with table := m.table.free q }

/-- What follows an entry. -/
def enter (p : Slot) : Entry → Choice → Option Prog
  | .idle, .call c => some (c.prog p)
  | .busy n, .busy c => some (c.prog p n)
  | .waitLoop, .go _ => some (waitScan p false slots)
  | .joinLoop tid leader, .go _ => some (joinScan p tid leader slots)
  | _, _ => none

/-- One step of the program `k` on CPU `c`, in a process or in an interrupt. -/
def exec (m : Machine κ) (c : κ) (me : Option Slot) (k : Prog) (b : Bool) : Option (Machine κ) :=
  match k with
  | .acquire l k => (m.acquire c l).map (·.setProg c k)
  | .release l k => (m.release c l).map (·.setProg c k)
  | .atomic f k => some ({ m with table := f m.table b }.setProg c (k m.table b))
  | .init q pid k => some ((m.init q pid b).setProg c (k b))
  | .sched k => me.map fun p => { m with cont := Function.update m.cont p k }.setMode c (.back p)
  | .goto _ => none
  | .halt => none

/-- One step of CPU `c`. -/
def step (m : Machine κ) (c : κ) (x : Choice) : Option (Machine κ) :=
  match m.cpu c, x with
  | .scan i, .go _ =>
    if h : i < NPROC then (m.acquire c (.proc ⟨i, h⟩)).map (·.setMode c (.test ⟨i, h⟩))
    else some (m.setMode c (.scan 0))
  | .scan i, .device n chan => some (m.setMode c (.intr (Locks.device none n chan .halt) i))
  | .test i, .go _ =>
    if (m.table.proc i).state = .runnable then some ({ m with table := m.table.setState i .running }.setMode c (.run i))
    else some (m.setMode c (.back i))
  | .back i, .go _ => (m.release c (.proc i)).map (·.setMode c (.scan (i + 1)))
  | .intr .halt i, .go _ => some (m.setMode c (.scan i))
  | .intr k _, .go b => m.exec c none k b
  -- interrupts are on when no lock is held
  | .run p, .timer => if m.noff c = 0 then some (m.setProg c (yield p (m.cont p))) else none
  | .run p, .device n chan => if m.noff c = 0 then some (m.setProg c (Locks.device (some p) n chan (m.cont p))) else none
  | .run p, x =>
    match m.cont p, x with
    | .goto e, x => (enter p e x).map (m.setProg c ·)
    | k, .go b => m.exec c (some p) k b
    | _, _ => none
  | _, _ => none

/-- After `userinit`: the first process is runnable, and every CPU enters its scheduler. -/
def boot (initproc : Slot) : Machine κ where
  table :=
    { proc := fun q => if q = initproc then ⟨.runnable, none, false, 1, none, false, none, 0⟩ else ⟨.unused, none, false, 0, none, false, none, 0⟩
      initproc := initproc
      nextpid := 2 }
  holder _ := none
  noff _ := 0
  cpu _ := .scan 0
  cont q := forkret q

/-- The lock that a CPU is about to acquire; it spins while the lock is held. -/
def acquiring (m : Machine κ) (c : κ) : Option Lock :=
  match m.cpu c with
  | .scan i => if h : i < NPROC then some (.proc ⟨i, h⟩) else none
  | .run p =>
    match m.cont p with
    | .acquire l _ => some l
    | _ => none
  | .intr (.acquire l _) _ => some l
  | _ => none

/-- CPU `c` spins on a lock that `c'` holds. -/
def SpinsOn (m : Machine κ) (c c' : κ) : Prop := ∃ l, m.acquiring c = some l ∧ m.holder l = some c'

/-- CPU `c` is in process `p`, which calls `sched`. -/
def CallsSched (m : Machine κ) (c : κ) (p : Slot) : Prop := m.cpu c = .run p ∧ ∃ k, m.cont p = .sched k

/-- The machines that the interleavings of the CPUs reach. -/
def Reachable (initproc : Slot) (m : Machine κ) : Prop :=
  Lts.Reach (fun m (a : κ × Choice) (_ : Unit) m' => step m a.1 a.2 = some m') Lts.always (· = boot initproc) m

end Machine

end OsLabs.Xv6.Locks
