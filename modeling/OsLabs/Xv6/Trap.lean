import OsLabs.Xv6.Exec
import OsLabs.Lts

/-!
# OsLabs.Xv6.Trap — system calls as the steps of the kernel (trap.c, sysproc.c, sysfile.c, main.c)

`step` takes one action: the scheduler picks a process, a timer interrupt takes the CPU away from one, a process traps into the
kernel, or goes on with a call it slept in.  `Step` is the transition relation of the kernel on any number of CPUs: an
action must be enabled and its body must not panic.  `Boot` describes the states in which `userinit` leaves the kernel.
-/

namespace OsLabs.Xv6

/-! ## Calls on descriptors (sysfile.c) -/

inductive InodeType
  | dir
  | file
  | device
deriving DecidableEq, Repr

/-- What `namei` or `create` found. -/
structure InodeRef where
  inum : ℕ
  type : InodeType
  major : ℤ

/-- Whether `omode` has the bit `b`. -/
def hasBit (omode b : ℕ) : Bool := omode / b % 2 = 1

/-- `sys_open`; `path` is none when the path cannot be fetched or resolved. -/
def sysOpen (k : Kernel) (p : Slot) (path : Option InodeRef) (omode : ℕ) : Except Panic (ℤ × Kernel) :=
  match path with
  | none => .ok (-1, k)
  | some ip =>
    let fs := k.fs.iget ip.inum
    let bad := (-1, k.setFs (fs.iput ip.inum))
    if !hasBit omode 0x200 && ip.type = .dir && omode ≠ 0 then .ok bad
    else if ip.type = .device && (ip.major < 0 || NDEV ≤ ip.major) then .ok bad
    else
      match filealloc fs with
      | none => .ok bad
      | some (f, fs) =>
        match fdalloc (k.proc p).ofile f with
        | none => do
          let (fs, m) ← fileclose f fs k.mem
          .ok (-1, (k.setMem m).setFs (fs.iput ip.inum))
        | some (fd, of) =>
          let F := fs.ftable f
          let F := if ip.type = .device then { F with type := .device, major := ip.major }
            else { F with type := .inode, off := 0 }
          let F := { F with ip := ip.inum, readable := !hasBit omode 1, writable := hasBit omode 1 || hasBit omode 2 }
          .ok (fd, (k.setFs (fs.setFile f F)).setProc p { k.proc p with ofile := of })

theorem fd_lt {fd : ℤ} (h : 0 ≤ fd ∧ fd < NOFILE) : fd.toNat < NOFILE := by omega

/-- `argfd`. -/
def argfd (of : Ofile) (n : ℤ) : Option (Fin NOFILE × FileId) :=
  let fd := int32 n
  if h : 0 ≤ fd ∧ fd < NOFILE then
    let i : Fin NOFILE := ⟨fd.toNat, fd_lt h⟩
    match of i with
    | none => none
    | some f => some (i, f)
  else none

/-- `sys_dup`. -/
def sysDup (k : Kernel) (p : Slot) (n : ℤ) : Except Panic (ℤ × Kernel) :=
  match argfd (k.proc p).ofile n with
  | none => .ok (-1, k)
  | some (_, f) =>
    match fdalloc (k.proc p).ofile f with
    | none => .ok (-1, k)
    | some (fd, of) => do
      let fs ← filedup f k.fs
      .ok (fd, (k.setFs fs).setProc p { k.proc p with ofile := of })

/-- `sys_close`. -/
def sysClose (k : Kernel) (p : Slot) (n : ℤ) : Except Panic (ℤ × Kernel) :=
  match argfd (k.proc p).ofile n with
  | none => .ok (-1, k)
  | some (fd, f) => do
    let (fs, m) ← fileclose f k.fs k.mem
    .ok (0, ((k.setMem m).setFs fs).setProc p { k.proc p with ofile := Function.update (k.proc p).ofile fd none })

/-- The error exits of `sys_pipe` after `pipealloc`: both ends closed, the descriptors `of` as they were. -/
def pipeBad (k : Kernel) (rf wf : FileId) (fs : Files) (m : Kmem) : Except Panic (ℤ × Kernel) := do
  let (fs, m) ← fileclose rf fs m
  let (fs, m) ← fileclose wf fs m
  .ok (-1, (k.setMem m).setFs fs)

/-- `sys_pipe`. -/
def sysPipe (k : Kernel) (p : Slot) (fdarray : ℕ) : Except Panic (ℤ × Kernel) := do
  let (r, fs, m) ← pipealloc k.fs k.mem
  match r with
  | none => .ok (-1, (k.setMem m).setFs fs)
  | some (rf, wf) =>
    match fdalloc (k.proc p).ofile rf with
    | none => pipeBad k rf wf fs m
    | some (fd0, of) =>
      match fdalloc of wf with
      | none => pipeBad k rf wf fs m
      | some (fd1, of) =>
        match (k.proc p).pagetable with
        | none => .error .kerneltrap
        | some pt =>
          match copyout pt fdarray (intBytes (fd0 : ℕ)) m with
          | (false, m) => pipeBad k rf wf fs m
          | (true, m) =>
            match copyout pt (add64 fdarray 4) (intBytes (fd1 : ℕ)) m with
            | (false, m) => pipeBad k rf wf fs m
            | (true, m) => .ok (0, ((k.setMem m).setFs fs).setProc p { k.proc p with ofile := of })

/-! ## System calls and actions -/

/-- The modelled system calls with their arguments. -/
inductive Syscall
  | fork
  | exec (header : Bool)
  | sbrk (n : ℤ)
  | threadCreate (fn arg retfn : ℕ)
  | threadJoin (tid : ℤ)
  | threadExit
  | exit (status : ℤ)
  | wait (addr : ℕ)
  | kill (pid : ℤ)
  | open (path : Option InodeRef) (omode : ℕ)
  | dup (fd : ℤ)
  | close (fd : ℤ)
  | pipe (fdarray : ℕ)

/-- What an `exec` that goes on finds in the file: one more program header, or the end of the headers. -/
inductive ExecInput
  | seg (img : Image) (ph : Option Proghdr)
  | done (entry : ℕ) (argv : List (List UInt8))

inductive Action
  /-- The scheduler of some CPU picks `p`. -/
  | scheduler (p : Slot)
  /-- A timer interrupt makes `p` yield. -/
  | yield (p : Slot)
  /-- `p` makes the system call `c`; `answers` is what `kalloc` will answer. -/
  | syscall (p : Slot) (c : Syscall) (answers : List Pa)
  /-- An unexpected trap of `p`. -/
  | fault (p : Slot) (answers : List Pa)
  /-- `p` goes on inside the call it is in. -/
  | resume (p : Slot) (inp : ExecInput) (answers : List Pa)

def Frame.isUser : Frame → Bool
  | .user => true
  | _ => false

/-- When an action can be taken. -/
def Action.enabled (k : Kernel) : Action → Bool
  | .scheduler p => (k.proc p).state = .runnable
  | .yield p => (k.proc p).state = .running
  | .syscall p _ _ => (k.proc p).state = .running && (k.proc p).frame.isUser
  | .fault p _ => (k.proc p).state = .running && (k.proc p).frame.isUser
  | .resume p _ _ => (k.proc p).state = .running && !(k.proc p).frame.isUser

def Kernel.setAnswers (k : Kernel) (as : List Pa) : Kernel := { k with mem := { k.mem with answers := as } }

/-- A call that returns to user space at once. -/
def returns (x : Except Panic (ℤ × Kernel)) : Except Panic (Option ℤ × Kernel) := do
  let (r, k) ← x
  .ok (some r, k)

/-- A call that does not return. -/
def goesOn (x : Except Panic Kernel) : Except Panic (Option ℤ × Kernel) := do
  let k ← x
  .ok (none, k)

/-- `sys_sbrk`. -/
def sysSbrk (k : Kernel) (p : Slot) (n : ℤ) : Except Panic (ℤ × Kernel) := do
  let addr := (k.proc p).sz
  let (r, k) ← growproc k p (int32 n)
  .ok (if r < 0 then -1 else addr, k)

/-- `syscall`: the body of each call; none when the caller is not back in user space. -/
def syscall (k : Kernel) (p : Slot) : Syscall → Except Panic (Option ℤ × Kernel)
  | .fork => returns (fork k p)
  | .exec header => execBegin k p header
  | .sbrk n => returns (sysSbrk k p n)
  | .threadCreate fn arg retfn => returns (threadCreate k p fn arg retfn)
  | .threadJoin tid => joinRound k p (int32 tid) (groupLeader k p)
  | .threadExit => goesOn (threadExit k p)
  | .exit status => goesOn (exit k p (int32 status))
  | .wait addr => waitRound k p addr
  | .kill pid => .ok (some (kill k (int32 pid)).1, (kill k (int32 pid)).2)
  | .open path omode => returns (sysOpen k p path omode)
  | .dup fd => returns (sysDup k p fd)
  | .close fd => returns (sysClose k p fd)
  | .pipe fdarray => returns (sysPipe k p fdarray)

/-- The part of a call after a sleep. -/
def resume (k : Kernel) (p : Slot) (inp : ExecInput) : Except Panic (Option ℤ × Kernel) :=
  -- `sleep` tidies up the channel before it returns
  let k := k.setProc p { k.proc p with chan := none }
  match (k.proc p).frame with
  | .user => .ok (none, k)
  | .wait addr => waitRound k p addr
  | .join tid leader => joinRound k p tid leader
  | .exit status => .ok (none, exitEnd k p status)
  | .threadExit => goesOn (threadExitEnd k p)
  | .exec pt sz =>
    match inp with
    | .seg img ph => execSeg k p pt sz img ph
    | .done entry argv => execEnd k p pt sz entry argv

/-- The effect of an action; `usertrap` makes a killed process exit before it gets to its call. -/
def step (k : Kernel) : Action → Except Panic (Option ℤ × Kernel)
  | .scheduler p => .ok (none, k.setProc p { k.proc p with state := .running })
  | .yield p => .ok (none, k.setProc p { k.proc p with state := .runnable })
  | .syscall p c as =>
    if (k.proc p).killed then goesOn (exit (k.setAnswers as) p (-1)) else syscall (k.setAnswers as) p c
  | .fault p as => goesOn (exit ((k.setAnswers as).setProc p { k.proc p with killed := true }) p (-1))
  | .resume p inp as => resume (k.setAnswers as) p inp

/-- The transition relation of the kernel. -/
def Step (k : Kernel) (a : Action) (o : Option ℤ) (k' : Kernel) : Prop :=
  a.enabled k = true ∧ step k a = .ok (o, k')

/-! ## Boot -/

def File.zero : File := ⟨.none, 0, false, false, 0, 0, 0, 0⟩

def Proc.zero : Proc where
  state := .unused
  chan := none
  killed := false
  xstate := 0
  pid := 0
  parent := none
  sz := 0
  pagetable := none
  trapframe := none
  tf := ⟨0, 0, 0, 0, 0, 0⟩
  ofile := fun _ => none
  cwd := none
  isThread := false
  father := none
  tid := 0
  start := 0
  size := 0
  frame := .user

/-- The first user program: it calls `exec("/init")`. -/
def initcode : List UInt8 :=
  [0x17, 0x05, 0x00, 0x00, 0x13, 0x05, 0x45, 0x02, 0x97, 0x05, 0x00, 0x00, 0x93, 0x85, 0x35, 0x02,
   0x93, 0x08, 0x70, 0x00, 0x73, 0x00, 0x00, 0x00, 0x93, 0x08, 0x20, 0x00, 0x73, 0x00, 0x00, 0x00,
   0xef, 0xf0, 0x9f, 0xff, 0x2f, 0x69, 0x6e, 0x69, 0x74, 0x00, 0x00, 0x24, 0x00, 0x00, 0x00, 0x00,
   0x00, 0x00, 0x00, 0x00]

/-- The kernel before `userinit`: static data is zero, the pages `mem` are free. -/
def Kernel.zero (mem : Kmem) : Kernel where
  proc := fun _ => Proc.zero
  initproc := ⟨0, NPROC_pos⟩
  nextpid := 1
  fs := ⟨fun _ => File.zero, fun _ => none, 0, fun _ => 0⟩
  mem := mem

/-- `userinit`; `root` is the inode of `/`. -/
def userinit (k : Kernel) (root : ℕ) : Except Panic Kernel := do
  let (p, k) ← allocproc k
  match p with
  | none => .error .kerneltrap
  | some p =>
    match (k.proc p).pagetable with
    | none => .error .kerneltrap
    | some pt => do
      let (pt, m) ← uvmfirst pt initcode k.mem
      .ok { ((k.setMem m).setFs (k.fs.iget root)).setProc p { k.proc p with
        pagetable := some pt, sz := PGSIZE, tf := { (k.proc p).tf with epc := 0, sp := PGSIZE },
        cwd := some root, state := .runnable } with initproc := p }

/-- The pages that `kinit` leaves on the free list: page-aligned, above the kernel, below the end of RAM, each once. -/
def Kmem.Fresh (m : Kmem) : Prop :=
  m.freelist.Nodup ∧ ∀ pa ∈ m.freelist, pa % PGSIZE = 0 ∧ m.kend ≤ pa ∧ pa < PHYSTOP

/-- The states in which the first process starts. -/
def Boot (k : Kernel) : Prop :=
  ∃ m root, Kmem.Fresh m ∧ userinit (Kernel.zero m) root = .ok k

end OsLabs.Xv6
