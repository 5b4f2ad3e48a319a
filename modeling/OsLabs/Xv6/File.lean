import OsLabs.Xv6.Kalloc

/-!
# OsLabs.Xv6.File — the open-file table and pipes (file.c, pipe.c)

`Files` is the part of the kernel behind the descriptors: the table `ftable`, the pipes, and the in-memory reference counts
of the inodes.  A pipe is an object of its own, made by `pipealloc` in a fresh page and gone when `pipeclose` frees that page.
The file system is outside: an inode is its number, `iget`, `idup` and `iput` move its reference count.
-/

namespace OsLabs.Xv6

inductive FileType
  | none
  | pipe
  | inode
  | device
deriving DecidableEq, Repr

/-- An entry of `ftable.file`. -/
structure File where
  type : FileType
  ref : ℤ
  readable : Bool
  writable : Bool
  pipe : ℕ
  ip : ℕ
  off : ℕ
  major : ℤ

structure Pipe where
  /-- The page that holds the `struct pipe`. -/
  pa : Pa
  readopen : Bool
  writeopen : Bool

/-- A `struct file *`. -/
abbrev FileId := Fin NFILE

structure Files where
  ftable : FileId → File
  /-- The pipes in use, by the order in which they were made. -/
  pipe : ℕ → Option Pipe
  nextPipe : ℕ
  /-- `ip->ref`, by inode number. -/
  iref : ℕ → ℤ

namespace Files

def setFile (fs : Files) (f : FileId) (x : File) : Files :=
  { fs with ftable := Function.update fs.ftable f x }

def setPipe (fs : Files) (i : ℕ) (x : Option Pipe) : Files :=
  { fs with pipe := Function.update fs.pipe i x }

/-- `iget`, the part of `namei` that counts: one more reference. -/
def iget (fs : Files) (i : ℕ) : Files := { fs with iref := Function.update fs.iref i (fs.iref i + 1) }

def idup (fs : Files) (i : ℕ) : Files := { fs with iref := Function.update fs.iref i (fs.iref i + 1) }

def iput (fs : Files) (i : ℕ) : Files := { fs with iref := Function.update fs.iref i (fs.iref i - 1) }

end Files

/-- `filealloc`: the first entry with no references, with its count set to 1. -/
def filealloc (fs : Files) : Option (FileId × Files) :=
  match (List.finRange NFILE).find? fun f => (fs.ftable f).ref = 0 with
  | none => none
  | some f => some (f, fs.setFile f { fs.ftable f with ref := 1 })

def filedup (f : FileId) (fs : Files) : Except Panic Files :=
  if (fs.ftable f).ref < 1 then .error .filedup
  else .ok (fs.setFile f { fs.ftable f with ref := (fs.ftable f).ref + 1 })

/-- `pipeclose`: close one end; the page goes when both are closed. -/
def pipeclose (i : ℕ) (writable : Bool) (fs : Files) (m : Kmem) : Except Panic (Files × Kmem) :=
  match fs.pipe i with
  | none => .error .kerneltrap
  | some pi =>
    let pi := if writable then { pi with writeopen := false } else { pi with readopen := false }
    if pi.readopen = false ∧ pi.writeopen = false then do
      let m ← kfree pi.pa m
      .ok (fs.setPipe i none, m)
    else .ok (fs.setPipe i (some pi), m)

/-- `fileclose`: drop one reference; the last one releases what the file stands for. -/
def fileclose (f : FileId) (fs : Files) (m : Kmem) : Except Panic (Files × Kmem) :=
  let ff := fs.ftable f
  if ff.ref < 1 then .error .fileclose
  else if 0 < ff.ref - 1 then .ok (fs.setFile f { ff with ref := ff.ref - 1 }, m)
  else
    let fs := fs.setFile f { ff with ref := 0, type := .none }
    match ff.type with
    | .pipe => pipeclose ff.pipe ff.writable fs m
    | .inode | .device => .ok (fs.iput ff.ip, m)
    | .none => .ok (fs, m)

/-- `pipealloc`: the two ends of a new pipe, or none with everything given back. -/
def pipealloc (fs : Files) (m : Kmem) : Except Panic (Option (FileId × FileId) × Files × Kmem) :=
  match filealloc fs with
  | none => .ok (none, fs, m)
  | some (f0, fs) =>
    match filealloc fs with
    | none => do
      let (fs, m) ← fileclose f0 fs m
      .ok (none, fs, m)
    | some (f1, fs) =>
      match kalloc m with
      | (none, m) => do
        let (fs, m) ← fileclose f0 fs m
        let (fs, m) ← fileclose f1 fs m
        .ok (none, fs, m)
      | (some pa, m) =>
        let i := fs.nextPipe
        let fs := { fs.setPipe i (some ⟨pa, true, true⟩) with nextPipe := i + 1 }
        let fs := fs.setFile f0 { fs.ftable f0 with type := .pipe, readable := true, writable := false, pipe := i }
        let fs := fs.setFile f1 { fs.ftable f1 with type := .pipe, readable := false, writable := true, pipe := i }
        .ok (some (f0, f1), fs, m)

/-- A descriptor table, `p->ofile`. -/
abbrev Ofile := Fin NOFILE → Option FileId

/-- `fdalloc`: the first free descriptor, now standing for `f`. -/
def fdalloc (of : Ofile) (f : FileId) : Option (Fin NOFILE × Ofile) :=
  match (List.finRange NOFILE).find? fun fd => (of fd).isNone with
  | none => none
  | some fd => some (fd, Function.update of fd (some f))

/-- The `filedup` loop of `fork` and `thread_create`. -/
def filedupAll (of : Ofile) (fs : Files) : Except Panic Files :=
  (List.finRange NOFILE).foldlM (fun fs fd => match of fd with
    | none => .ok fs
    | some f => filedup f fs) fs

/-- The `fileclose` loop of `exit` and `thread_exit`. -/
def filecloseAll (of : Ofile) (fs : Files) (m : Kmem) : Except Panic (Files × Kmem) :=
  (List.finRange NOFILE).foldlM (fun s fd => match of fd with
    | none => .ok s
    | some f => fileclose f s.1 s.2) (fs, m)

end OsLabs.Xv6
