import Mathlib.Data.BitVec
import Mathlib.Logic.Function.Basic
import OsLabs.CText
import OsLabs.Fallible

/-!
# OsLabs.Exam2.Simulator — the processor simulator (exam2/simulator.c)

A program is a text file, read line by line through a buffer of 32 bytes.  A line is cut into tokens, a machine of eight states turns them
into a `struct instruction`, and one `switch` runs it.  Nothing initialises that structure: what a line does not set is what the stack held.
An index outside a register bank is a fault.

* `parseInstruction`, `runInstruction`, `simulateCpu`: the program.
* `kind`, `Alu`: the thirteen mnemonics by what they do; `execute_rtype`, `execute_itype`, `execute_skip` run them by kind.
* `parse_empty`, `parse_type`, `parse_rtype`, `parse_itype`: what the parser makes of a line.
-/

namespace OsLabs.Exam2.Simulator

open OsLabs.CText OsLabs.Fallible

/-! ## Instructions -/

/-- `enum instruction_t`. -/
inductive InstructionT
  | add | addi | sub | mult | multi | and | andi | or | ori | xor | xori | load | store | invalid
  deriving DecidableEq, Repr

/-- `instruction_names`. -/
def instructionNames : InstructionT → List Char
  | .add => ['a', 'd', 'd']
  | .addi => ['a', 'd', 'd', 'i']
  | .sub => ['s', 'u', 'b']
  | .mult => ['m', 'u', 'l', 't']
  | .multi => ['m', 'u', 'l', 't', 'i']
  | .and => ['a', 'n', 'd']
  | .andi => ['a', 'n', 'd', 'i']
  | .or => ['o', 'r']
  | .ori => ['o', 'r', 'i']
  | .xor => ['x', 'o', 'r']
  | .xori => ['x', 'o', 'r', 'i']
  | .load => ['l', 'o', 'a', 'd']
  | .store => ['s', 't', 'o', 'r', 'e']
  | .invalid => ['i', 'n', 'v', 'a', 'l', 'i', 'd']

/-- The types before `INST_INVALID`, in the order of the enumeration. -/
def mnemonics : List InstructionT :=
  [.add, .addi, .sub, .mult, .multi, .and, .andi, .or, .ori, .xor, .xori, .load, .store]

/-- `strncmp` compares as many characters as `name` has. -/
def getInstruction (name : List Char) : InstructionT :=
  (mnemonics.find? fun i => name.isPrefixOf (instructionNames i)).getD .invalid

/-- `struct instruction`.  The three words of the union are `s1`, `s2`, `dst` of `rt`; in `it` they are `s1`, `dst` and, in the low half of
the last one, `imm`.  A `type` that the stack held and that is no `instruction_t` runs like `invalid`. -/
structure Instruction where
  type : InstructionT
  name : List Char
  w0 : ℤ
  w1 : ℤ
  w2 : ℤ
  deriving DecidableEq, Repr

namespace Instruction

variable (i : Instruction)

def rtS1 : ℤ := i.w0
def rtS2 : ℤ := i.w1
def rtDst : ℤ := i.w2
def itS1 : ℤ := i.w0
def itDst : ℤ := i.w1
def itImm : ℕ := (i.w2 % 2 ^ 16).toNat

/-- `instr.it.imm = (unsigned short) v`: the other half of the word stays. -/
def setImm (v : ℤ) : Instruction := { i with w2 := i.w2 - i.w2 % 2 ^ 16 + v % 2 ^ 16 }

end Instruction

/-! ## The parser -/

/-- `enum parse_state`. -/
inductive ParseState
  | start | rtypeDst | rtypeS1 | rtypeS2 | itypeDst | itypeS1 | itypeImm | parseInvalid
  deriving DecidableEq, Repr

/-- The inner `switch`: where the state `START` goes. -/
def afterStart : InstructionT → ParseState
  | .add | .sub | .mult | .and | .or | .xor => .rtypeDst
  | .addi | .multi | .andi | .ori | .xori | .load | .store => .itypeDst
  | .invalid => .parseInvalid

/-- The loop over the tokens. -/
def parseLoop : ParseState → Instruction → List (List Char) → Instruction
  | _, instr, [] => instr
  | .start, instr, token :: rest =>
    -- strncpy writes MAX_INST_NAME characters at most
    parseLoop (afterStart (getInstruction token)) { instr with name := token.take 16, type := getInstruction token } rest
  | .rtypeDst, instr, token :: rest => parseLoop .rtypeS1 { instr with w2 := atoi token } rest
  | .rtypeS1, instr, token :: rest => parseLoop .rtypeS2 { instr with w0 := atoi token } rest
  | .rtypeS2, instr, token :: _ => { instr with w1 := atoi token }
  | .itypeDst, instr, token :: rest => parseLoop .itypeS1 { instr with w1 := atoi token } rest
  | .itypeS1, instr, token :: rest => parseLoop .itypeImm { instr with w0 := atoi token } rest
  | .itypeImm, instr, token :: _ => instr.setImm (atoi token)
  | .parseInvalid, instr, _ :: rest => parseLoop .parseInvalid instr rest

/-- `parse_instruction`, where `junk` is what the local variable `instr` holds before anything is stored into it. -/
def parseInstruction (junk : Instruction) (line : List Char) : Instruction := parseLoop .start junk (tokens line)

/-! ## Running -/

/-- `reg_t`. -/
abbrev Reg := BitVec 16

/-- `struct cpu`. -/
structure Cpu where
  id : ℤ
  name : List Char
  speed : ℤ
  numInstructionsExecuted : ℤ
  pc : Reg
  rf : Fin 8 → Reg

/-- A run that goes outside the bank of registers. -/
inductive Fault
  | index (i : ℤ)
  deriving DecidableEq, Repr

/-- The register that an `int` is the number of. -/
def reg (i : ℤ) : Except Fault (Fin 8) :=
  if h : 0 ≤ i ∧ i < 8 then .ok ⟨i.toNat, by omega⟩ else .error (.index i)

namespace Cpu

/-- One arithmetic case: two `unsigned short` become `int`s, `f` is computed on them, and the result is cut to 16 bits.
The second component is what was computed at `int` width. -/
def store (cpu : Cpu) (d : Fin 8) (v : ℤ) : Cpu × List ℤ :=
  ({ cpu with rf := Function.update cpu.rf d (BitVec.ofInt 16 v) }, [v])

/-- `rf[rt.dst] = f(rf[rt.s1], rf[rt.s2])`. -/
def rtype (cpu : Cpu) (i : Instruction) (f : ℕ → ℕ → ℤ) : Except Fault (Cpu × List ℤ) := do
  let s1 ← reg i.rtS1
  let s2 ← reg i.rtS2
  let d ← reg i.rtDst
  .ok (cpu.store d (f (cpu.rf s1).toNat (cpu.rf s2).toNat))

/-- `rf[it.dst] = f(rf[it.s1], it.imm)`. -/
def itype (cpu : Cpu) (i : Instruction) (f : ℕ → ℕ → ℤ) : Except Fault (Cpu × List ℤ) := do
  let s1 ← reg i.itS1
  let d ← reg i.itDst
  .ok (cpu.store d (f (cpu.rf s1).toNat i.itImm))

end Cpu

/-- The `switch` of `run_instruction`. -/
def execute (cpu : Cpu) (i : Instruction) : Except Fault (Cpu × List ℤ) :=
  match i.type with
  | .add => cpu.rtype i fun x y => (x : ℤ) + y
  | .addi => cpu.itype i fun x y => (x : ℤ) + y
  | .sub => cpu.rtype i fun x y => (x : ℤ) - y
  | .mult => cpu.rtype i fun x y => (x : ℤ) * y
  | .multi => cpu.itype i fun x y => (x : ℤ) * y
  | .and => cpu.rtype i fun x y => ((x &&& y : ℕ) : ℤ)
  | .andi => cpu.itype i fun x y => ((x &&& y : ℕ) : ℤ)
  | .or => cpu.rtype i fun x y => ((x ||| y : ℕ) : ℤ)
  | .ori => cpu.itype i fun x y => ((x ||| y : ℕ) : ℤ)
  | .xor => cpu.rtype i fun x y => ((x ^^^ y : ℕ) : ℤ)
  | .xori => cpu.itype i fun x y => ((x ^^^ y : ℕ) : ℤ)
  | .load | .store | .invalid => .ok (cpu, [])

/-- `run_instruction`: the `switch`, then `cpu->pc++`. -/
def runInstruction (cpu : Cpu) (i : Instruction) : Except Fault (Cpu × List ℤ) := do
  let (cpu, log) ← execute cpu i
  .ok ({ cpu with pc := cpu.pc + 1 }, log ++ [(cpu.pc.toNat : ℤ) + 1])

/-- The text of the line in the buffer.  One newline at its end is removed (a line that starts with a null character has no last one; what
is looked at then is not in the buffer). -/
def lineText (line : List Char) : List Char :=
  let s := cstr line
  if s.getLast? = some '\n' then s.dropLast else s

/-- The loop of `simulate_cpu`, over what `fgets` returns.  Call number `k` of `parse_instruction` finds `junk k` on its stack. -/
def simulateLoop (junk : ℕ → Instruction) (cpu : Cpu) : List (List Char) → Except Fault (Cpu × List ℤ)
  | [] => .ok (cpu, [])
  | line :: rest => do
    let (cpu, log) ← runInstruction cpu (parseInstruction (junk 0) (lineText line))
    let n := cpu.numInstructionsExecuted + 1
    let (cpu, log') ← simulateLoop (fun k => junk (k + 1)) { cpu with numInstructionsExecuted := toInt n } rest
    .ok (cpu, log ++ n :: log')

/-- What `simulate_cpu` stores into the record before the loop. -/
def reset (cpu : Cpu) (id : Fin 16) (name : List Char) (speed : ℤ) : Cpu :=
  { cpu with pc := 0, id := id.val, speed := speed, name := name.take 128, numInstructionsExecuted := 0 }

/-- `simulate_cpu` on `CPUS`; `instF` is the content of the file, if it can be opened.  It leaves `CPUS` and returns a count; the list is
what was computed at `int` width. -/
def simulateCpu (junk : ℕ → Instruction) (CPUS : Fin 16 → Cpu) (id : Fin 16) (name : List Char) (speed : ℤ) (instF : Option (List Char)) :
    Except Fault ((Fin 16 → Cpu) × ℤ × List ℤ) :=
  match instF with
  | none => .ok (CPUS, 0, [])
  | some file => do
    let (cpu, log) ← simulateLoop junk (reset (CPUS id) id name speed) (chunks 30 file)
    .ok (Function.update CPUS id cpu, cpu.numInstructionsExecuted, log)

/-- `CPUS` before anything runs. -/
def cpus₀ : Fin 16 → Cpu := fun _ => ⟨0, [], 0, 0, 0, fun _ => 0⟩

/-! ## The mnemonics by what they do -/

/-- The operations of the arithmetic instructions. -/
inductive Alu
  | add | sub | mul | and | or | xor
  deriving DecidableEq, Repr

/-- An operation at `int` width. -/
def Alu.int : Alu → ℕ → ℕ → ℤ
  | .add, x, y => (x : ℤ) + y
  | .sub, x, y => (x : ℤ) - y
  | .mul, x, y => (x : ℤ) * y
  | .and, x, y => ((x &&& y : ℕ) : ℤ)
  | .or, x, y => ((x ||| y : ℕ) : ℤ)
  | .xor, x, y => ((x ^^^ y : ℕ) : ℤ)

/-- An operation on two registers, an operation on a register and an immediate, an access to memory, or nothing. -/
inductive Kind
  | rtype (op : Alu)
  | itype (op : Alu)
  | memory
  | invalid
  deriving DecidableEq, Repr

def kind : InstructionT → Kind
  | .add => .rtype .add
  | .addi => .itype .add
  | .sub => .rtype .sub
  | .mult => .rtype .mul
  | .multi => .itype .mul
  | .and => .rtype .and
  | .andi => .itype .and
  | .or => .rtype .or
  | .ori => .itype .or
  | .xor => .rtype .xor
  | .xori => .itype .xor
  | .load | .store => .memory
  | .invalid => .invalid

variable {T : InstructionT} {cpu : Cpu} {i : Instruction} {op : Alu}

theorem kind_eq_invalid : kind T = .invalid ↔ T = .invalid := by
  constructor
  · intro h
    cases T <;> first | rfl | cases h
  · rintro rfl
    rfl

theorem afterStart_of_kind (T : InstructionT) : afterStart T =
    match kind T with
    | .rtype _ => .rtypeDst
    | .itype _ | .memory => .itypeDst
    | .invalid => .parseInvalid := by
  cases T <;> rfl

/-- **Two registers.**  All six instructions run the same way. -/
theorem execute_rtype (h : kind i.type = .rtype op) : execute cpu i = cpu.rtype i op.int := by
  unfold execute
  cases hT : i.type <;> rw [hT] at h <;> cases h <;> rfl

/-- **A register and an immediate.**  So do these five. -/
theorem execute_itype (h : kind i.type = .itype op) : execute cpu i = cpu.itype i op.int := by
  unfold execute
  cases hT : i.type <;> rw [hT] at h <;> cases h <;> rfl

/-- **No arithmetic.**  `load`, `store` and what is no instruction leave the registers alone. -/
theorem execute_skip (h : kind i.type = .memory ∨ kind i.type = .invalid) : execute cpu i = .ok (cpu, []) := by
  unfold execute
  rcases h with h | h <;> cases hT : i.type <;> rw [hT] at h <;> first | rfl | cases h

/-- A mnemonic in full is found under its own type: no earlier one has it as a prefix. -/
theorem getInstruction_name (T : InstructionT) : getInstruction (instructionNames T) = T := by
  cases T <;> rfl

/-- **Not found** is what is a prefix of no mnemonic. -/
theorem getInstruction_eq_invalid {t : List Char} :
    getInstruction t = .invalid ↔ ∀ T, T ≠ .invalid → ¬ t <+: instructionNames T := by
  have hmem : ∀ T, T ∈ mnemonics ↔ T ≠ .invalid := by intro T; cases T <;> decide
  unfold getInstruction
  constructor
  · intro h T hT hp
    cases hf : mnemonics.find? fun i => t.isPrefixOf (instructionNames i) with
    | none => exact List.find?_eq_none.mp hf T ((hmem T).mpr hT) (List.isPrefixOf_iff_prefix.mpr hp)
    | some U =>
      rw [hf, Option.getD_some] at h
      exact (hmem U).mp (List.mem_of_find?_eq_some hf) h
  · intro h
    rw [List.find?_eq_none.mpr fun T hT hp => h T ((hmem T).mp hT) (List.isPrefixOf_iff_prefix.mp hp), Option.getD_none]

/-! ## What the parser makes of a line -/

variable (junk : Instruction) {line t ta tb tc : List Char} {ts : List (List Char)}

/-- Only the first token sets the type. -/
theorem parseLoop_type : ∀ (ts : List (List Char)) (st : ParseState) (i : Instruction), st ≠ .start → (parseLoop st i ts).type = i.type
  | [], _, _, _ => by rw [parseLoop]
  | t :: ts, st, i, h => by
    cases st with
    | start => exact absurd rfl h
    | rtypeS2 => rfl
    | itypeImm => rfl
    | rtypeDst => exact parseLoop_type ts .rtypeS1 _ (by decide)
    | rtypeS1 => exact parseLoop_type ts .rtypeS2 _ (by decide)
    | itypeDst => exact parseLoop_type ts .itypeS1 _ (by decide)
    | itypeS1 => exact parseLoop_type ts .itypeImm _ (by decide)
    | parseInvalid => exact parseLoop_type ts .parseInvalid _ (by decide)

/-- **An empty line** sets nothing. -/
theorem parse_empty (h : tokens line = []) : parseInstruction junk line = junk := by
  rw [parseInstruction, h, parseLoop]

theorem parse_type (h : tokens line = t :: ts) : (parseInstruction junk line).type = getInstruction t := by
  rw [parseInstruction, h, parseLoop]
  refine parseLoop_type ts _ _ ?_
  cases getInstruction t <;> decide

/-- **Two registers:** the operands are the destination and the sources. -/
theorem parse_rtype (h : tokens line = t :: ta :: tb :: tc :: ts) (hk : kind (getInstruction t) = .rtype op) :
    (parseInstruction junk line).rtDst = atoi ta ∧ (parseInstruction junk line).rtS1 = atoi tb ∧
      (parseInstruction junk line).rtS2 = atoi tc := by
  have ha : afterStart (getInstruction t) = .rtypeDst := by rw [afterStart_of_kind, hk]
  rw [parseInstruction, h, parseLoop, ha]
  exact ⟨rfl, rfl, rfl⟩

/-- **One register:** the operands are the destination and the source. -/
theorem parse_itype (h : tokens line = t :: ta :: tb :: ts) (hk : afterStart (getInstruction t) = .itypeDst) :
    (parseInstruction junk line).itDst = atoi ta ∧ (parseInstruction junk line).itS1 = atoi tb := by
  rw [parseInstruction, h, parseLoop, hk]
  cases ts with
  | nil => exact ⟨rfl, rfl⟩
  | cons tc ts => exact ⟨rfl, rfl⟩

/-- The low half of the word is the immediate, whatever the high half held. -/
theorem itImm_setImm (i : Instruction) (v : ℤ) : (i.setImm v).itImm = (v % 2 ^ 16).toNat := by
  unfold Instruction.itImm Instruction.setImm
  dsimp only
  congr 1
  omega

theorem parse_imm (h : tokens line = t :: ta :: tb :: tc :: ts) (hk : afterStart (getInstruction t) = .itypeDst) :
    (parseInstruction junk line).itImm = (atoi tc % 2 ^ 16).toNat := by
  rw [parseInstruction, h, parseLoop, hk]
  exact itImm_setImm _ _

end OsLabs.Exam2.Simulator
