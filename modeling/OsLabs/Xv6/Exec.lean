import OsLabs.Xv6.Proc

/-!
# OsLabs.Xv6.Exec — running a program file (exec.c)

`exec` reads the file between its steps and may sleep there, so it is cut at the reads: `execBegin` after the ELF header,
`execSeg` for one program header, `execEnd` for everything after the last one, which does not sleep.  What the file holds is
an argument of each step.
-/

namespace OsLabs.Xv6

/-- A program header. -/
structure Proghdr where
  load : Bool
  flagX : Bool
  flagW : Bool
  off : ℕ
  vaddr : ℕ
  filesz : ℕ
  memsz : ℕ

/-- The program file: its size and its bytes. -/
structure Image where
  size : ℕ
  byte : ℕ → UInt8

/-- `exec` once the header was read: a page table with no user memory, or -1. -/
def execBegin (k : Kernel) (p : Slot) (header : Bool) : Except Panic (Option ℤ × Kernel) :=
  if !header then .ok (some (-1), k)
  else
    match (k.proc p).trapframe with
    | none => .error .kerneltrap
    | some tf => do
      let (pt, m) ← procPagetable tf k.mem
      match pt with
      | none => .ok (some (-1), k.setMem m)
      | some pt => .ok (none, (k.setMem m).setProc p { k.proc p with frame := .exec pt 0 })

/-- The `bad` exit of `exec`. -/
def execBad (k : Kernel) (p : Slot) (pt : PageTable) (sz : ℕ) : Except Panic (Option ℤ × Kernel) := do
  let m ← procFreepagetable pt sz k.mem
  .ok (some (-1), (k.setMem m).setProc p { k.proc p with frame := .user })

/-- The loop of `loadseg`: `n` pages from `i`; false for -1. -/
def loadsegLoop (img : Image) (pt : PageTable) (va off sz : ℕ) : ℕ → ℕ → Kmem → Except Panic (Bool × Kmem)
  | 0, _, m => .ok (true, m)
  | n + 1, i, m =>
    match walkaddr pt (add64 va i) with
    | none => .error .loadseg
    | some pa =>
      let len := min (sz - i) PGSIZE
      if img.size < off + i + len then .ok (false, m)
      else
        let m := { m with data := Function.update m.data pa fun o =>
          if o < len then img.byte (off + i + o) else m.data pa o }
        loadsegLoop img pt va off sz n (i + PGSIZE) m

/-- `loadseg`; `offset` and `sz` are `uint`. -/
def loadseg (img : Image) (pt : PageTable) (va off sz : ℕ) (m : Kmem) : Except Panic (Bool × Kmem) :=
  let sz := sz % 2 ^ 32
  loadsegLoop img pt va (off % 2 ^ 32) sz ((sz + (PGSIZE - 1)) / PGSIZE) 0 m

/-- One round of the load loop of `exec`; `ph` is none when the header could not be read. -/
def execSeg (k : Kernel) (p : Slot) (pt : PageTable) (sz : ℕ) (img : Image) (ph : Option Proghdr) :
    Except Panic (Option ℤ × Kernel) :=
  match ph with
  | none => execBad k p pt sz
  | some ph =>
    if !ph.load then .ok (none, k)
    else if ph.memsz < ph.filesz then execBad k p pt sz
    else if add64 ph.vaddr ph.memsz < ph.vaddr then execBad k p pt sz
    else if ph.vaddr % PGSIZE ≠ 0 then execBad k p pt sz
    else do
      let (sz1, pt, m) ← uvmalloc pt sz (add64 ph.vaddr ph.memsz) ph.flagW ph.flagX k.mem
      if sz1 = 0 then execBad (k.setMem m) p pt sz
      else do
        let (ok, m) ← loadseg img pt ph.vaddr ph.off ph.filesz m
        if !ok then execBad (k.setMem m) p pt sz1
        else .ok (none, (k.setMem m).setProc p { k.proc p with frame := .exec pt sz1 })

/-- The argument loop of `exec`: push the strings `args`, `argc` of them pushed already at the addresses `ustack`.
None for the `bad` exit, together with the memory written so far. -/
def pushArgs (pt : PageTable) (stackbase : ℕ) :
    List (List UInt8) → ℕ → ℕ → List ℕ → Kmem → Option (ℕ × List ℕ) × Kmem
  | [], _, sp, ustack, m => (some (sp, ustack), m)
  | arg :: args, argc, sp, ustack, m =>
    if MAXARG ≤ argc then (none, m)
    else
      let sp := sub64 sp (arg.length + 1)
      let sp := sp - sp % 16
      if sp < stackbase then (none, m)
      else
        match copyout pt sp (arg ++ [0]) m with
        | (false, m) => (none, m)
        | (true, m) => pushArgs pt stackbase args (argc + 1) sp (ustack ++ [sp]) m

/-- The eight bytes of a `uint64`, little end first. -/
def wordBytes (x : ℕ) : List UInt8 := (List.range 8).map fun i => UInt8.ofNat (x / 256 ^ i % 256)

/-- The arguments on the new stack: strings, then the array of pointers; none for the `bad` exit. -/
def pushStack (pt : PageTable) (sz : ℕ) (argv : List (List UInt8)) (m : Kmem) : Option ℕ × Kmem :=
  let stackbase := sub64 sz PGSIZE
  match pushArgs pt stackbase argv 0 sz [] m with
  | (none, m) => (none, m)
  | (some (sp, ustack), m) =>
    let sp := sub64 sp ((argv.length + 1) * 8)
    let sp := sp - sp % 16
    if sp < stackbase then (none, m)
    else
      match copyout pt sp ((ustack ++ [0]).flatMap wordBytes) m with
      | (false, m) => (none, m)
      | (true, m) => (some sp, m)

/-- `exec` after the load loop: the stack with its guard page, the arguments, and the switch to the new image. -/
def execEnd (k : Kernel) (p : Slot) (pt : PageTable) (sz entry : ℕ) (argv : List (List UInt8)) :
    Except Panic (Option ℤ × Kernel) := do
  let (sz1, pt, m) ← uvmalloc pt (pgroundup sz) (add64 (pgroundup sz) (2 * PGSIZE)) true false k.mem
  if sz1 = 0 then execBad (k.setMem m) p pt (pgroundup sz)
  else do
    let pt ← uvmclear pt (sub64 sz1 (2 * PGSIZE)) m
    match pushStack pt sz1 argv m with
    | (none, m) => execBad (k.setMem m) p pt sz1
    | (some sp, m) =>
      match (k.proc p).pagetable with
      | none => .error .kerneltrap
      | some old => do
        let m ← procFreepagetable old (k.proc p).sz m
        .ok (some argv.length, (k.setMem m).setProc p { k.proc p with
          pagetable := some pt, sz := sz1, tf := { (k.proc p).tf with a1 := sp, epc := entry, sp := sp },
          frame := .user })

end OsLabs.Xv6
