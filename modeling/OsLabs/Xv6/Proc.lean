import OsLabs.Xv6.Vm
import OsLabs.Xv6.File

/-!
# OsLabs.Xv6.Proc — processes and kernel threads (proc.c)

The process table with every field that the modelled calls read or write, and the functions of `proc.c` on it.  A call body
is atomic except where it sleeps.  Where it does, `frame` keeps what the call has on its kernel stack: a sleeper in `wait`
or `thread_join`, a dying process between giving up its files (the log may make it sleep there) and becoming a zombie, an
`exec` between two reads of the program file.

Pointers to `struct proc` are slots; a null pointer is `none`.  Following one is a kernel page fault (`Panic.kerneltrap`).
-/

namespace OsLabs.Xv6

inductive ProcState
  | unused
  | used
  | sleeping
  | runnable
  | running
  | zombie
deriving DecidableEq, Repr

/-- The saved user registers that calls read or set one by one; `rest` stands for all others. -/
structure Trapframe where
  epc : ℕ
  sp : ℕ
  ra : ℕ
  a0 : ℕ
  a1 : ℕ
  rest : ℕ

/-- What a process keeps on its kernel stack while it is inside a call. -/
inductive Frame
  /-- In user space, or about to return there. -/
  | user
  /-- In the loop of `wait(addr)`. -/
  | wait (addr : ℕ)
  /-- In the loop of `thread_join(tid)`, with its local `leader`. -/
  | join (tid : ℤ) (leader : Option Slot)
  /-- In `exit(status)`, files and directory given up. -/
  | exit (status : ℤ)
  /-- In `thread_exit`, files and directory given up. -/
  | threadExit
  /-- In `exec`, with the page table built so far and its size. -/
  | exec (pt : PageTable) (sz : ℕ)

structure Proc where
  state : ProcState
  chan : Option Slot
  killed : Bool
  xstate : ℤ
  pid : ℤ
  parent : Option Slot
  sz : ℕ
  pagetable : Option PageTable
  trapframe : Option Pa
  /-- The contents of the trapframe page. -/
  tf : Trapframe
  ofile : Ofile
  cwd : Option ℕ
  isThread : Bool
  father : Option Slot
  tid : ℤ
  start : ℕ
  size : ℕ
  frame : Frame

structure Kernel where
  proc : Slot → Proc
  initproc : Slot
  nextpid : ℤ
  fs : Files
  mem : Kmem

/-- The slots of the process table in the order of the loops over `proc`. -/
def slots : List Slot := List.finRange NPROC

namespace Kernel

def setProc (k : Kernel) (i : Slot) (P : Proc) : Kernel :=
  { k with proc := Function.update k.proc i P }

def setMem (k : Kernel) (m : Kmem) : Kernel := { k with mem := m }

def setFs (k : Kernel) (fs : Files) : Kernel := { k with fs := fs }

end Kernel

/-- `group_leader`. -/
def groupLeader (k : Kernel) (p : Slot) : Option Slot :=
  if (k.proc p).isThread then (k.proc p).father else some p

/-- The membership test of `growproc`: `q == leader || (q->is_thread && q->father == leader)`. -/
def inGroup (k : Kernel) (q leader : Slot) : Bool :=
  q == leader || ((k.proc q).isThread && (k.proc q).father == some leader)

/-- `allocpid`. -/
def allocpid (k : Kernel) : ℤ × Kernel := (k.nextpid, { k with nextpid := int32 (k.nextpid + 1) })

/-- `proc_pagetable`: a page table with only the trampoline and the trapframe page `tf`, or none. -/
def procPagetable (tf : Pa) (m : Kmem) : Except Panic (Option PageTable × Kmem) :=
  match uvmcreate m with
  | (none, m) => .ok (none, m)
  | (some pt, m) => do
    let (ok, pt, m) ← mappages pt TRAMPOLINE PGSIZE m.trampoline ⟨true, false, true, false⟩ m
    if !ok then do
      let m ← uvmfree pt 0 m
      .ok (none, m)
    else do
      let (ok, pt, m) ← mappages pt TRAPFRAME PGSIZE tf ⟨true, true, false, false⟩ m
      if !ok then do
        let (pt, m) ← uvmunmap pt TRAMPOLINE 1 false m
        let m ← uvmfree pt 0 m
        .ok (none, m)
      else .ok (some pt, m)

/-- `proc_freepagetable`. -/
def procFreepagetable (pt : PageTable) (sz : ℕ) (m : Kmem) : Except Panic Kmem := do
  let (pt, m) ← uvmunmap pt TRAMPOLINE 1 false m
  let (pt, m) ← uvmunmap pt TRAPFRAME 1 false m
  uvmfree pt sz m

/-- `if(pagetable) proc_freepagetable(pagetable, sz)`. -/
def procFreepagetableOpt (pt : Option PageTable) (sz : ℕ) (m : Kmem) : Except Panic Kmem :=
  match pt with
  | none => .ok m
  | some pt => procFreepagetable pt sz m

/-- The fields that `freeproc` resets. -/
def Proc.freed (P : Proc) : Proc :=
  { P with
    trapframe := none, pagetable := none, sz := 0, pid := 0, parent := none, chan := none, killed := false,
    xstate := 0, state := .unused, isThread := false, father := none, tid := 0, start := 0, size := 0 }

/-- The fields that `freeproc_thread` resets; `start` and `size` stay. -/
def Proc.freedThread (P : Proc) : Proc :=
  { P with
    pagetable := none, sz := 0, trapframe := none, pid := 0, tid := 0, isThread := false, father := none,
    parent := none, chan := none, killed := false, xstate := 0, state := .unused }

/-- `freeproc`: free a proc structure and the data hanging from it, user pages included. -/
def freeproc (k : Kernel) (i : Slot) : Except Panic Kernel := do
  let m ← kfreeOpt (k.proc i).trapframe k.mem
  let m ← procFreepagetableOpt (k.proc i).pagetable (k.proc i).sz m
  .ok ((k.setMem m).setProc i (k.proc i).freed)

/-- The unmap loop of `freeproc_thread`: `n` pages from `va`, those that are mapped, without freeing them. -/
def unmapShared : ℕ → ℕ → PageTable → Kmem → Except Panic (PageTable × Kmem)
  | 0, _, pt, m => .ok (pt, m)
  | n + 1, va, pt, m => do
    let (pt, m) ← unmapMapped pt va false m
    unmapShared n (va + PGSIZE) pt m

/-- `freeproc_thread`: free a thread's page table and trapframe; the pages it shares stay. -/
def freeprocThread (k : Kernel) (i : Slot) : Except Panic Kernel :=
  match (k.proc i).pagetable with
  | none => .error .kerneltrap
  | some pt => do
    let (pt, m) ← unmapShared (pgroundup (k.proc i).sz / PGSIZE) 0 pt k.mem
    let (pt, m) ← unmapMapped pt TRAMPOLINE false m
    let (pt, m) ← unmapMapped pt TRAPFRAME false m
    let m ← uvmfree pt 0 m
    let m ← kfreeOpt (k.proc i).trapframe m
    .ok ((k.setMem m).setProc i (k.proc i).freedThread)

/-- The fields that `allocproc` sets; the new context starts at `forkret`, which goes to user space. -/
def Proc.allocated (P : Proc) (pid : ℤ) (tf : Pa) (pt : PageTable) : Proc :=
  { P with
    pid := pid, state := .used, trapframe := some tf, pagetable := some pt, frame := .user,
    isThread := false, father := none, tid := 0, start := 0, size := 0 }

/-- `allocproc`: the first unused slot, with a pid, a trapframe and an empty page table; none when that fails. -/
def allocproc (k : Kernel) : Except Panic (Option Slot × Kernel) :=
  match slots.find? fun i => (k.proc i).state = .unused with
  | none => .ok (none, k)
  | some i =>
    let (pid, k) := allocpid k
    match kalloc k.mem with
    | (none, m) => do
      let k ← freeproc ((k.setMem m).setProc i { k.proc i with pid := pid, state := .used, trapframe := none }) i
      .ok (none, k)
    | (some tf, m) => do
      let (pt, m) ← procPagetable tf m
      match pt with
      | none => do
        let k ← freeproc ((k.setMem m).setProc i { k.proc i with
          pid := pid, state := .used, trapframe := some tf, pagetable := none }) i
        .ok (none, k)
      | some pt => .ok (some i, (k.setMem m).setProc i ((k.proc i).allocated pid tf pt))

/-- `sleep`, up to the switch: the caller waits on the channel `c` (a proc's address) inside the frame `fr`. -/
def sleep (k : Kernel) (p : Slot) (c : Option Slot) (fr : Frame) : Kernel :=
  k.setProc p { k.proc p with chan := c, state := .sleeping, frame := fr }

/-- `wakeup(c)` by `self`. -/
def wakeup (k : Kernel) (self : Slot) (c : Option Slot) : Kernel :=
  { k with proc := fun i =>
      if i ≠ self ∧ (k.proc i).state = .sleeping ∧ (k.proc i).chan = c then { k.proc i with state := .runnable }
      else k.proc i }

/-- `reparent(p)`: pass `p`'s children to init. -/
def reparent (k : Kernel) (p : Slot) : Kernel :=
  let k' := { k with proc := fun i =>
    if (k.proc i).parent = some p then { k.proc i with parent := some k.initproc } else k.proc i }
  if slots.any fun i => (k.proc i).parent == some p then wakeup k' p (some k.initproc) else k'

/-! ## Threads -/

/-- The share loop of `thread_create`: `n` pages from `va`, the user pages of `lpt` mapped again in `pt`. -/
def shareLoop (lpt : PageTable) : ℕ → ℕ → PageTable → Kmem → Except Panic (Bool × PageTable × Kmem)
  | 0, _, pt, m => .ok (true, pt, m)
  | n + 1, va, pt, m =>
    if TRAPFRAME ≤ va then .ok (true, pt, m)
    else do
      let (found, _, m) ← walk lpt va false m
      match (if found then lpt.pte (va / PGSIZE) else none) with
      | none => shareLoop lpt n (va + PGSIZE) pt m
      | some e =>
        if e.perm.u then do
          let (ok, pt, m) ← mappages pt va PGSIZE e.pa e.perm m
          if ok then shareLoop lpt n (va + PGSIZE) pt m else .ok (false, pt, m)
        else shareLoop lpt n (va + PGSIZE) pt m

/-- The share loop for a leader of `sz` bytes; a null page table is only followed when there is a page to look up. -/
def share (lpt : Option PageTable) (sz : ℕ) (pt : PageTable) (m : Kmem) : Except Panic (Bool × PageTable × Kmem) :=
  match lpt with
  | none => if pgroundup sz = 0 then .ok (true, pt, m) else .error .kerneltrap
  | some lpt => shareLoop lpt (pgroundup sz / PGSIZE) 0 pt m

/-- `base` of `thread_create`: `TRAPFRAME - (2 + 2 * slot) * PGSIZE + PGSIZE` in `uint64`, with `slot` the pid. -/
def stackBase (pid : ℤ) : ℕ :=
  add64 (sub64 TRAPFRAME (u64 ((2 + 2 * pid) * PGSIZE))) PGSIZE

/-- The thread that `thread_create` makes of the allocated slot `NP` for the caller `P`, in slot `p`. -/
def Proc.asThread (NP P : Proc) (p leader : Slot) (fn arg retfn sp base cwd : ℕ) (pt : PageTable) : Proc :=
  { NP with
    pagetable := some pt, start := base, size := PGSIZE,
    tf := { P.tf with epc := fn, sp := sp, a0 := arg, ra := retfn },
    ofile := fun fd => if (P.ofile fd).isSome then P.ofile fd else NP.ofile fd,
    cwd := some cwd, isThread := true, father := some leader, tid := NP.pid, parent := some p, state := .runnable }

/-- `thread_create` after `allocproc` returned `np` and the share loop went through: stack, registers, files, group. -/
def threadFinish (k : Kernel) (p np leader : Slot) (fn arg retfn : ℕ) (pt : PageTable) :
    Except Panic (ℤ × Kernel) := do
  let base := stackBase (k.proc np).pid
  let top := add64 base PGSIZE
  let (r, pt, m) ← uvmalloc pt base top true false k.mem
  if r = 0 then do
    let k ← freeproc ((k.setMem m).setProc np { k.proc np with pagetable := some pt }) np
    .ok (-1, k)
  else
    let sp := sub64 top 1
    if (walkaddr pt (sub64 sp 16)).isNone then .error .threadCreateStack
    else do
      let fs ← filedupAll (k.proc p).ofile k.fs
      match (k.proc p).cwd with
      | none => .error .kerneltrap
      | some c =>
        .ok ((k.proc np).pid, ((k.setMem m).setFs (fs.idup c)).setProc np
          ((k.proc np).asThread (k.proc p) p leader fn arg retfn sp base c pt))

/-- `thread_create`. -/
def threadCreate (k : Kernel) (p : Slot) (fn arg retfn : ℕ) : Except Panic (ℤ × Kernel) := do
  let (np, k) ← allocproc k
  match np with
  | none => .ok (-1, k)
  | some np =>
    match groupLeader k p with
    | none => .error .kerneltrap
    | some leader =>
      match (k.proc np).pagetable with
      | none => .error .kerneltrap
      | some pt => do
        let (ok, pt, m) ← share (k.proc leader).pagetable (k.proc leader).sz pt k.mem
        let k := (k.setMem m).setProc np { k.proc np with sz := (k.proc leader).sz, pagetable := some pt }
        if !ok then do
          let k ← freeproc k np
          .ok (-1, k)
        else threadFinish k p np leader fn arg retfn pt

/-- The scan of `thread_join`: the first slot that holds thread `tid` of the group of `leader`. -/
def joinTarget (k : Kernel) (tid : ℤ) (leader : Option Slot) : Option Slot :=
  slots.find? fun q => (k.proc q).state ≠ .unused ∧ (k.proc q).isThread ∧ (k.proc q).father = leader ∧ (k.proc q).tid = tid

/-- One round of the loop of `thread_join`: none when the caller goes to sleep. -/
def joinRound (k : Kernel) (p : Slot) (tid : ℤ) (leader : Option Slot) : Except Panic (Option ℤ × Kernel) :=
  match joinTarget k tid leader with
  | none => .ok (some (-1), k.setProc p { k.proc p with frame := .user })
  | some q =>
    if (k.proc q).state = .zombie then do
      let k' ← freeprocThread k q
      .ok (some (k.proc q).tid, k'.setProc p { k'.proc p with frame := .user })
    else .ok (none, sleep k p (some q) (.join tid leader))

/-- The stack release of `thread_exit`. -/
def releaseStack (P : Proc) (m : Kmem) : Except Panic (Proc × Kmem) :=
  if P.start ≠ 0 ∧ P.size ≠ 0 then
    match P.pagetable with
    | none => .error .kerneltrap
    | some pt => do
      let (pt, m) ← unmapMapped pt P.start true m
      .ok ({ P with pagetable := some pt, start := 0, size := 0 }, m)
  else .ok (P, m)

/-- `if(ip) iput(ip)`. -/
def iputOpt (ip : Option ℕ) (fs : Files) : Files :=
  match ip with
  | none => fs
  | some c => fs.iput c

/-- The first part of `exit` and `thread_exit`: close all files, put the current directory. -/
def closeFiles (k : Kernel) (p : Slot) (fr : Frame) : Except Panic Kernel := do
  let (fs, m) ← filecloseAll (k.proc p).ofile k.fs k.mem
  .ok (((k.setMem m).setFs (iputOpt (k.proc p).cwd fs)).setProc p { k.proc p with
    ofile := fun _ => none, cwd := none, frame := fr })

/-- The second part of `thread_exit`: give the stack back, become a zombie, wake the joiners. -/
def threadExitEnd (k : Kernel) (p : Slot) : Except Panic Kernel := do
  let (P, m) ← releaseStack (k.proc p) k.mem
  .ok <| wakeup ((k.setMem m).setProc p { P with xstate := 0, state := .zombie }) p (some p)

/-- `exit`, up to the point where `wait_lock` is taken. -/
def exit (k : Kernel) (p : Slot) (status : ℤ) : Except Panic Kernel :=
  if p = k.initproc then .error .initExiting
  else if (k.proc p).cwd.isNone then .error .kerneltrap
  else closeFiles k p (.exit status)

/-- The rest of `exit`: children to init, wake the parent, become a zombie. -/
def exitEnd (k : Kernel) (p : Slot) (status : ℤ) : Kernel :=
  let k := reparent k p
  let k := wakeup k p (k.proc p).parent
  k.setProc p { k.proc p with xstate := status, state := .zombie }

/-- `thread_exit`, up to the point where `wait_lock` is taken. -/
def threadExit (k : Kernel) (p : Slot) : Except Panic Kernel :=
  if (k.proc p).isThread then closeFiles k p .threadExit else exit k p 0

/-! ## Memory size, fork, wait -/

/-- One page of the broadcast of `growproc`: map `va` in every other member.  The flag says whether every `mappages`
succeeded; `growproc` does not look at it. -/
def broadcastPage (leader : Slot) (lroot : Pa) (va : ℕ) (pa : Pa) (k : Kernel) : Except Panic (Bool × Kernel) :=
  slots.foldlM (fun s q =>
    if inGroup s.2 q leader then
      match (s.2.proc q).pagetable with
      | none => .ok s
      | some pt =>
        if pt.root = lroot then .ok s
        else do
          let (found, _, _) ← walk pt va false s.2.mem
          if found && (pt.pte (va / PGSIZE)).isSome then .ok s
          else do
            let (ok, pt, m) ← mappages pt va PGSIZE pa ⟨true, true, false, true⟩ s.2.mem
            .ok (s.1 && ok, (s.2.setMem m).setProc q { s.2.proc q with pagetable := some pt })
    else .ok s) (true, k)

/-- The broadcast loop of `growproc`: `n` pages from `va`. -/
def broadcast (leader : Slot) (lpt : PageTable) : ℕ → ℕ → Kernel → Except Panic (Bool × Kernel)
  | 0, _, k => .ok (true, k)
  | n + 1, va, k =>
    if TRAPFRAME ≤ va then .ok (true, k)
    else do
      let (ok, k) ← broadcastPage leader lpt.root va ((walkaddr lpt va).getD 0) k
      let (oks, k) ← broadcast leader lpt n (va + PGSIZE) k
      .ok (ok && oks, k)

/-- One page of the shrink loop of `growproc`: unmap `va` in every other member. -/
def unbroadcastPage (leader : Slot) (lroot : Pa) (va : ℕ) (k : Kernel) : Except Panic Kernel :=
  slots.foldlM (fun k q =>
    if inGroup k q leader then
      match (k.proc q).pagetable with
      | none => .ok k
      | some pt =>
        if pt.root = lroot then .ok k
        else do
          let (pt, m) ← uvmunmap pt va 1 false k.mem
          .ok ((k.setMem m).setProc q { k.proc q with pagetable := some pt })
    else .ok k) k

/-- The shrink loop of `growproc`: `n` pages from `va`. -/
def unbroadcast (leader : Slot) (lroot : Pa) : ℕ → ℕ → Kernel → Except Panic Kernel
  | 0, _, k => .ok k
  | n + 1, va, k =>
    if TRAPFRAME ≤ va then .ok k
    else do
      let k ← unbroadcastPage leader lroot va k
      unbroadcast leader lroot n (va + PGSIZE) k

/-- The last loop of both branches of `growproc`: one size for the whole group. -/
def setGroupSz (k : Kernel) (leader : Slot) (sz : ℕ) : Kernel :=
  { k with proc := fun q => if inGroup k q leader then { k.proc q with sz := sz } else k.proc q }

/-- `growproc`: 0 or -1. -/
def growproc (k : Kernel) (p : Slot) (n : ℤ) : Except Panic (ℤ × Kernel) :=
  match groupLeader k p with
  | none => .error .kerneltrap
  | some leader =>
    let oldsz := (k.proc leader).sz
    if n = 0 then .ok (0, k)
    else
      match (k.proc leader).pagetable with
      | none =>
        -- an unused leader: its size is 0, so growing follows the null page table once `kalloc` gives a page
        if 0 < n then
          match kalloc k.mem with
          | (none, m) => .ok (-1, k.setMem m)
          | (some _, _) => .error .kerneltrap
        else .ok (0, setGroupSz k leader oldsz)
      | some lpt =>
        if 0 < n then do
          let (newsz, lpt, m) ← uvmalloc lpt oldsz (u64 (oldsz + n)) true false k.mem
          let k := (k.setMem m).setProc leader { k.proc leader with pagetable := some lpt }
          if newsz = 0 then .ok (-1, k)
          else do
            let (_, k) ← broadcast leader lpt ((newsz - pgroundup oldsz + (PGSIZE - 1)) / PGSIZE) (pgroundup oldsz) k
            .ok (0, setGroupSz k leader newsz)
        else do
          let (newsz, lpt, m) ← uvmdealloc lpt oldsz (u64 (oldsz + n)) k.mem
          let k := (k.setMem m).setProc leader { k.proc leader with pagetable := some lpt }
          let k ← unbroadcast leader lpt.root ((pgroundup oldsz - pgroundup newsz) / PGSIZE) (pgroundup newsz) k
          .ok (0, setGroupSz k leader newsz)

/-- `uvmcopy` from a page table that may be null; it is only followed when there is a page to look up. -/
def uvmcopyOpt (old : Option PageTable) (new : PageTable) (sz : ℕ) (m : Kmem) :
    Except Panic (Bool × PageTable × Kmem) :=
  match old with
  | none => if sz = 0 then .ok (true, new, m) else .error .kerneltrap
  | some old => uvmcopy old new sz m

/-- The child that `fork` makes of the allocated slot `NP` for the caller `P`, in slot `p`. -/
def Proc.asChild (NP P : Proc) (p : Slot) (cwd : ℕ) : Proc :=
  { NP with
    sz := P.sz, tf := { P.tf with a0 := 0 },
    ofile := fun fd => if (P.ofile fd).isSome then P.ofile fd else NP.ofile fd,
    cwd := some cwd, parent := some p, state := .runnable }

/-- `fork`: the child's pid, or -1. -/
def fork (k : Kernel) (p : Slot) : Except Panic (ℤ × Kernel) := do
  let (np, k) ← allocproc k
  match np with
  | none => .ok (-1, k)
  | some np =>
    match (k.proc np).pagetable with
    | none => .error .kerneltrap
    | some new => do
      let (ok, new, m) ← uvmcopyOpt (k.proc p).pagetable new (k.proc p).sz k.mem
      let k := (k.setMem m).setProc np { k.proc np with pagetable := some new }
      if !ok then do
        let k ← freeproc k np
        .ok (-1, k)
      else do
        let fs ← filedupAll (k.proc p).ofile k.fs
        match (k.proc p).cwd with
        | none => .error .kerneltrap
        | some c => .ok ((k.proc np).pid, (k.setFs (fs.idup c)).setProc np ((k.proc np).asChild (k.proc p) p c))

/-- The four bytes of an `int`, little end first. -/
def intBytes (x : ℤ) : List UInt8 :=
  (List.range 4).map fun i => UInt8.ofNat (u64 x / 256 ^ i % 256)

/-- The copy of the exit status in `wait`: false when it fails. -/
def copyStatus (pt : Option PageTable) (addr : ℕ) (xstate : ℤ) (m : Kmem) : Except Panic (Bool × Kmem) :=
  if addr = 0 then .ok (true, m)
  else
    match pt with
    | none => .error .kerneltrap
    | some pt => .ok (copyout pt addr (intBytes xstate) m)

/-- The first exited child of `p`, the one that `wait` collects. -/
def zombieChild (k : Kernel) (p : Slot) : Option Slot :=
  slots.find? fun pp => (k.proc pp).parent = some p ∧ (k.proc pp).state = .zombie

/-- One round of the loop of `wait`: none when the caller goes to sleep. -/
def waitRound (k : Kernel) (p : Slot) (addr : ℕ) : Except Panic (Option ℤ × Kernel) :=
  match zombieChild k p with
  | some pp => do
    let (ok, m) ← copyStatus (k.proc p).pagetable addr (k.proc pp).xstate k.mem
    let k := (k.setMem m).setProc p { k.proc p with frame := .user }
    if !ok then .ok (some (-1), k)
    else do
      let k' ← freeproc k pp
      .ok (some (k.proc pp).pid, k')
  | none =>
    let havekids := slots.any fun pp => (k.proc pp).parent == some p
    if !havekids || (k.proc p).killed then .ok (some (-1), k.setProc p { k.proc p with frame := .user })
    else .ok (none, sleep k p (some p) (.wait addr))

/-- `kill`: 0 or -1. -/
def kill (k : Kernel) (pid : ℤ) : ℤ × Kernel :=
  match slots.find? fun i => (k.proc i).pid = pid with
  | none => (-1, k)
  | some i =>
    let P := k.proc i
    (0, k.setProc i { P with killed := true, state := if P.state = .sleeping then .runnable else P.state })

end OsLabs.Xv6
