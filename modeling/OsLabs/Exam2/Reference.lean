import Mathlib.Data.List.Forall2
import OsLabs.Exam2.Parser

/-!
# OsLabs.Exam2.Reference — the simulator against arithmetic modulo 2^16 (exam2/simulator.c)

The reference is a machine of eight 16-bit registers.  A program file denotes one of its programs, a line for an instruction.

* `denotes_run`: one line, whatever the stack held, does to the registers what its instruction does; only a product may leave `int`.
* `simulateLoop_spec`, `simulateCpu_spec`: so does a file whose lines fit the buffer; `simulateLoop_count` is about any file.
* `simulate_exact_iff`: the run is exact when every line fits the buffer, the number of lines is an `int` and no product is above `INT_MAX`, and only
  then.
-/

namespace OsLabs.Exam2.Simulator

open OsLabs.CText OsLabs.Fallible

/-! ## The reference machine -/

/-- An operation modulo `2 ^ 16`. -/
def Alu.eval : Alu → Reg → Reg → Reg
  | .add, x, y => x + y
  | .sub, x, y => x - y
  | .mul, x, y => x * y
  | .and, x, y => x &&& y
  | .or, x, y => x ||| y
  | .xor, x, y => x ^^^ y

inductive Operand
  | reg (r : Fin 8)
  | imm (v : Reg)
  deriving DecidableEq

def Operand.value (R : Fin 8 → Reg) : Operand → Reg
  | .reg r => R r
  | .imm v => v

/-- Registers are written as numbers. -/
instance registers_neZero : NeZero 8 := ⟨by decide⟩

/-- An instruction of the reference machine. -/
inductive Ins
  | alu (op : Alu) (d s : Fin 8) (t : Operand)
  | nop
  deriving DecidableEq

def Ins.exec (R : Fin 8 → Reg) : Ins → Fin 8 → Reg
  | .alu op d s t => Function.update R d (op.eval (R s) (t.value R))
  | .nop => R

/-- **The reference interpreter.** -/
def refRun : List Ins → (Fin 8 → Reg) → Fin 8 → Reg
  | [], R => R
  | i :: p, R => refRun p (i.exec R)

/-- A product that is an `int`. -/
def Ins.NoOverflow (R : Fin 8 → Reg) : Ins → Prop
  | .alu op _ s t => op = .mul → (R s).toNat * (t.value R).toNat < 2 ^ 31
  | .nop => True

instance (R : Fin 8 → Reg) (i : Ins) : Decidable (i.NoOverflow R) :=
  match i with
  | .alu op _ _ _ => inferInstanceAs (Decidable (op = .mul → _ < _))
  | .nop => inferInstanceAs (Decidable True)

/-- No product of a run is above `INT_MAX`. -/
def NoOverflow : List Ins → (Fin 8 → Reg) → Prop
  | [], _ => True
  | i :: p, R => i.NoOverflow R ∧ NoOverflow p (i.exec R)

instance decidableNoOverflow : (p : List Ins) → (R : Fin 8 → Reg) → Decidable (NoOverflow p R)
  | [], _ => inferInstanceAs (Decidable True)
  | i :: p, R =>
    have : Decidable (NoOverflow p (i.exec R)) := decidableNoOverflow p (i.exec R)
    inferInstanceAs (Decidable (_ ∧ _))

/-- **What a line denotes:** a well-written instruction on registers of the bank.  An immediate is any `int`, and counts modulo `2 ^ 16`. -/
inductive Denotes (line : List Char) : Ins → Prop
  | rtype {T : InstructionT} {op : Alu} {d s t : Fin 8} (hk : kind T = .rtype op) (h : Reads line T d.val s.val t.val) :
      Denotes line (.alu op d s (.reg t))
  | itype {T : InstructionT} {op : Alu} {d s : Fin 8} {c : ℤ} (hk : kind T = .itype op) (h : Reads line T d.val s.val c) (hc : IsInt c) :
      Denotes line (.alu op d s (.imm (BitVec.ofInt 16 c)))
  | memory {T : InstructionT} {d s : Fin 8} {c : ℤ} (hk : kind T = .memory) (h : Reads line T d.val s.val c) (hc : IsInt c) :
      Denotes line .nop

/-- The program that a file holds. -/
def Program (file : List Char) (p : List Ins) : Prop := List.Forall₂ (fun l i => Denotes (lineText l) i) (lines file) p

variable {line : List Char} {T : InstructionT} {op : Alu} {cpu : Cpu} {i : Instruction} {ins : Ins} {p : List Ins}

/-! ## One operation -/

/-- **Cut to 16 bits**, the result at `int` width is the result modulo `2 ^ 16`. -/
theorem ofInt_int (op : Alu) (x y : Reg) : BitVec.ofInt 16 (op.int x.toNat y.toNat) = op.eval x y := by
  cases op with
  | add => simp only [Alu.int, Alu.eval, BitVec.ofInt_add, BitVec.ofInt_natCast, BitVec.ofNat_toNat, BitVec.setWidth_eq]
  | mul => simp only [Alu.int, Alu.eval, BitVec.ofInt_mul, BitVec.ofInt_natCast, BitVec.ofNat_toNat, BitVec.setWidth_eq]
  | sub =>
    apply BitVec.eq_of_toNat_eq
    have hx := x.isLt
    have hy := y.isLt
    simp only [Alu.int, Alu.eval, BitVec.toNat_ofInt, BitVec.toNat_sub]
    omega
  | and => simp only [Alu.int, Alu.eval, BitVec.ofInt_natCast, ← BitVec.toNat_and, BitVec.ofNat_toNat, BitVec.setWidth_eq]
  | or => simp only [Alu.int, Alu.eval, BitVec.ofInt_natCast, ← BitVec.toNat_or, BitVec.ofNat_toNat, BitVec.setWidth_eq]
  | xor => simp only [Alu.int, Alu.eval, BitVec.ofInt_natCast, ← BitVec.toNat_xor, BitVec.ofNat_toNat, BitVec.setWidth_eq]

/-- **At `int` width** nothing but a product can leave the range. -/
theorem isInt_int (op : Alu) (x y : Reg) : IsInt (op.int x.toNat y.toNat) ↔ (op = .mul → x.toNat * y.toNat < 2 ^ 31) := by
  have hx := x.isLt
  have hy := y.isLt
  have hbits : ∀ z : Reg, IsInt (z.toNat : ℤ) := fun z => by
    have hz := z.isLt
    exact ⟨by omega, by omega⟩
  cases op with
  | add => exact iff_of_true ⟨by simp only [Alu.int]; omega, by simp only [Alu.int]; omega⟩ fun h => by cases h
  | sub => exact iff_of_true ⟨by simp only [Alu.int]; omega, by simp only [Alu.int]; omega⟩ fun h => by cases h
  | and => exact iff_of_true (hbits (x &&& y)) fun h => by cases h
  | or => exact iff_of_true (hbits (x ||| y)) fun h => by cases h
  | xor => exact iff_of_true (hbits (x ^^^ y)) fun h => by cases h
  | mul =>
    unfold IsInt
    simp only [Alu.int, forall_const]
    rw [← Nat.cast_mul]
    generalize x.toNat * y.toNat = m
    constructor
    · rintro ⟨-, h⟩
      exact_mod_cast h
    · intro h
      exact ⟨by omega, by exact_mod_cast h⟩

theorem reg_val (d : Fin 8) : reg (d.val : ℤ) = .ok d := by
  have hd := d.isLt
  unfold reg
  rw [dif_pos ⟨by omega, by omega⟩]
  rfl

theorem isInt_val (d : Fin 8) : IsInt (d.val : ℤ) := by
  have hd := d.isLt
  exact ⟨by omega, by omega⟩

/-! ## One line -/

/-- A well-written line with `int` operands, in the fields of its format. -/
theorem Reads.operands (junk : Instruction) {a b c : ℤ} (h : Reads line T a b c) (ha : IsInt a) (hb : IsInt b) (hc : IsInt c) :
    (parseInstruction junk line).type = T ∧ (parseInstruction junk line).operands = (a, b, third T c) := by
  obtain ⟨hT, ta, tb, tc, ts, ht, hda, hdb, hdc⟩ := h
  have hops := parse_operands junk ht (by rwa [getInstruction_name])
  rw [getInstruction_name, atoi_of_decimal hda ha, atoi_of_decimal hdb hb, atoi_of_decimal hdc hc] at hops
  exact ⟨by rw [parse_type junk ht, getInstruction_name], hops⟩

/-- **One line.**  It runs, does to the registers what its instruction does, and stays within `int` iff its product does. -/
theorem denotes_run (h : Denotes line ins) (junk : Instruction) (cpu : Cpu) :
    ∃ log, runInstruction cpu (parseInstruction junk line) = .ok ({ cpu with rf := ins.exec cpu.rf, pc := cpu.pc + 1 }, log) ∧
      ((∀ v ∈ log, IsInt v) ↔ ins.NoOverflow cpu.rf) := by
  have hpc : IsInt ((cpu.pc.toNat : ℤ) + 1) := by
    have hlt := cpu.pc.isLt
    exact ⟨by omega, by omega⟩
  cases h with
  | @rtype T op d s t hk h =>
    obtain ⟨htype, hops⟩ := h.operands junk (isInt_val d) (isInt_val s) (isInt_val t)
    rw [Instruction.operands, htype, third, hk, Prod.mk.injEq, Prod.mk.injEq] at hops
    obtain ⟨hd, hs, ht⟩ := hops
    refine ⟨[op.int (cpu.rf s).toNat (cpu.rf t).toNat, (cpu.pc.toNat : ℤ) + 1], ?_, ?_⟩
    · rw [runInstruction, execute_rtype (htype.symm ▸ hk), Cpu.rtype, hd, hs, ht, reg_val, reg_val, reg_val]
      simp only [ok_bind, Cpu.store, ofInt_int]
      rfl
    · rw [List.forall_mem_cons, List.forall_mem_singleton, and_iff_left hpc, isInt_int]
      rfl
  | @itype T op d s c hk h hc =>
    obtain ⟨htype, hops⟩ := h.operands junk (isInt_val d) (isInt_val s) hc
    rw [Instruction.operands, htype, third, hk, Prod.mk.injEq, Prod.mk.injEq] at hops
    obtain ⟨hd, hs, hi⟩ := hops
    have himm : (parseInstruction junk line).itImm = (BitVec.ofInt 16 c).toNat := by
      dsimp only at hi
      rw [BitVec.toNat_ofInt]
      omega
    refine ⟨[op.int (cpu.rf s).toNat (BitVec.ofInt 16 c).toNat, (cpu.pc.toNat : ℤ) + 1], ?_, ?_⟩
    · rw [runInstruction, execute_itype (htype.symm ▸ hk), Cpu.itype, hd, hs, himm, reg_val, reg_val]
      simp only [ok_bind, Cpu.store, ofInt_int]
      rfl
    · rw [List.forall_mem_cons, List.forall_mem_singleton, and_iff_left hpc, isInt_int]
      rfl
  | @memory T d s c hk h hc =>
    obtain ⟨htype, -⟩ := h.operands junk (isInt_val d) (isInt_val s) hc
    refine ⟨[(cpu.pc.toNat : ℤ) + 1], ?_, ?_⟩
    · rw [runInstruction, execute_skip (Or.inl (htype.symm ▸ hk))]
      rfl
    · rw [List.forall_mem_singleton]
      exact iff_of_true hpc trivial

/-! ## A whole run -/

variable {junk : ℕ → Instruction}

/-- One more, in an `int` that may have wrapped before. -/
theorem toInt_toInt_add (x y : ℤ) : toInt (toInt x + y) = toInt (x + y) := by
  unfold toInt
  omega

theorem execute_count {i : Instruction} {r : Cpu × List ℤ} (h : execute cpu i = .ok r) :
    r.1.numInstructionsExecuted = cpu.numInstructionsExecuted := by
  cases hk : kind i.type with
  | rtype op =>
    rw [execute_rtype hk] at h
    obtain ⟨s₁, -, h⟩ := bind_ok.mp h
    obtain ⟨s₂, -, h⟩ := bind_ok.mp h
    obtain ⟨d, -, h⟩ := bind_ok.mp h
    rw [← Except.ok.inj h, Cpu.store]
  | itype op =>
    rw [execute_itype hk] at h
    obtain ⟨s₁, -, h⟩ := bind_ok.mp h
    obtain ⟨d, -, h⟩ := bind_ok.mp h
    rw [← Except.ok.inj h, Cpu.store]
  | memory =>
    rw [execute_skip (Or.inl hk)] at h
    rw [← Except.ok.inj h]
  | invalid =>
    rw [execute_skip (Or.inr hk)] at h
    rw [← Except.ok.inj h]

/-- An instruction does not count itself. -/
theorem runInstruction_count {i : Instruction} {r : Cpu × List ℤ} (h : runInstruction cpu i = .ok r) :
    r.1.numInstructionsExecuted = cpu.numInstructionsExecuted := by
  obtain ⟨a, ha, h⟩ := bind_ok.mp h
  have hkeep := execute_count ha
  rw [← Except.ok.inj h]
  exact hkeep

/-- **Counting.**  The loop counts what `fgets` returns, and no computed value was out of range only if the count is not. -/
theorem simulateLoop_count : ∀ {ls : List (List Char)} {junk : ℕ → Instruction} {cpu : Cpu} {r : Cpu × List ℤ},
    simulateLoop junk cpu ls = .ok r → IsInt cpu.numInstructionsExecuted →
      r.1.numInstructionsExecuted = toInt (cpu.numInstructionsExecuted + ls.length) ∧
        ((∀ v ∈ r.2, IsInt v) → cpu.numInstructionsExecuted + ls.length < 2 ^ 31)
  | [], _, cpu, _, h, hn => by
    obtain rfl := Except.ok.inj h
    rw [List.length_nil, Nat.cast_zero, add_zero]
    exact ⟨(toInt_of_isInt hn).symm, fun _ => hn.2⟩
  | l :: ls, junk, cpu, r, h, hn => by
    obtain ⟨⟨cpu', log⟩, hrun, h⟩ := bind_ok.mp h
    obtain ⟨⟨cpu'', log'⟩, hrest, h⟩ := bind_ok.mp h
    obtain rfl := Except.ok.inj h
    have hkeep : cpu'.numInstructionsExecuted = cpu.numInstructionsExecuted := runInstruction_count hrun
    obtain ⟨hcount, hrange⟩ := simulateLoop_count hrest (toInt_range _)
    dsimp only at hcount hrange ⊢
    rw [hkeep] at hcount hrange ⊢
    rw [List.length_cons, Nat.cast_succ]
    constructor
    · rw [hcount, toInt_toInt_add]
      congr 1
      omega
    · intro hlog
      have hstep : IsInt (cpu.numInstructionsExecuted + 1) := hlog _ (List.mem_append_right _ List.mem_cons_self)
      have := hrange fun v hv => hlog v (List.mem_append_right _ (List.mem_cons_of_mem _ hv))
      rw [toInt_of_isInt hstep] at this
      omega

/-- **The loop on well-written lines** follows the reference, one step for each of them. -/
theorem simulateLoop_spec : ∀ {ls : List (List Char)} {p : List Ins} (junk : ℕ → Instruction) (cpu : Cpu),
    List.Forall₂ (fun l i => Denotes (lineText l) i) ls p → IsInt cpu.numInstructionsExecuted →
      ∃ cpu' log, simulateLoop junk cpu ls = .ok (cpu', log) ∧ cpu'.rf = refRun p cpu.rf ∧
        cpu'.pc = cpu.pc + BitVec.ofNat 16 p.length ∧
        ((∀ v ∈ log, IsInt v) ↔ NoOverflow p cpu.rf ∧ cpu.numInstructionsExecuted + p.length < 2 ^ 31)
  | [], _, _, cpu, .nil, hn => by
    refine ⟨cpu, [], rfl, rfl, (BitVec.add_zero _).symm, iff_of_true (fun v hv => absurd hv List.not_mem_nil) ⟨trivial, ?_⟩⟩
    rw [List.length_nil, Nat.cast_zero, add_zero]
    exact hn.2
  | l :: ls, i :: p, junk, cpu, .cons hl hls, hn => by
    obtain ⟨log, hrun, hlog⟩ := denotes_run hl (junk 0) cpu
    obtain ⟨cpu', log', hloop, hrf, hpc, hlog'⟩ := simulateLoop_spec (fun k => junk (k + 1))
      { cpu with rf := i.exec cpu.rf, pc := cpu.pc + 1, numInstructionsExecuted := toInt (cpu.numInstructionsExecuted + 1) }
      hls (toInt_range _)
    refine ⟨cpu', log ++ (cpu.numInstructionsExecuted + 1) :: log', ?_, hrf, ?_, ?_⟩
    · exact bind_ok.mpr ⟨_, hrun, bind_ok.mpr ⟨_, hloop, rfl⟩⟩
    · rw [hpc, List.length_cons, Nat.add_comm p.length 1, BitVec.ofNat_add, ← BitVec.add_assoc]
      rfl
    · rw [List.forall_mem_append, List.forall_mem_cons, hlog, hlog', NoOverflow, List.length_cons, Nat.cast_succ]
      dsimp only
      by_cases hstep : IsInt (cpu.numInstructionsExecuted + 1)
      · rw [toInt_of_isInt hstep]
        constructor
        · rintro ⟨h₁, -, h₂, h₃⟩
          exact ⟨⟨h₁, h₂⟩, by omega⟩
        · rintro ⟨⟨h₁, h₂⟩, h₃⟩
          exact ⟨h₁, hstep, h₂, by omega⟩
      · have hout : ¬ cpu.numInstructionsExecuted + 1 < 2 ^ 31 := fun hlt => hstep ⟨by have := hn.1; omega, hlt⟩
        exact iff_of_false (fun h => hstep h.2.1) fun h => hout (by omega)

section

variable (junk : ℕ → Instruction) (CPUS : Fin 16 → Cpu) (id : Fin 16) (name : List Char) (speed : ℤ) {file : List Char}

/-- **A file whose lines fit the buffer** runs to its end, and leaves what the reference does. -/
theorem simulateCpu_spec (hp : Program file p) (hfit : ∀ l ∈ lines file, l.length ≤ 31) :
    ∃ C log, simulateCpu junk CPUS id name speed (some file) = .ok (C, toInt p.length, log) ∧ (C id).rf = refRun p (CPUS id).rf ∧
      (C id).pc = BitVec.ofNat 16 p.length ∧ (C id).numInstructionsExecuted = toInt p.length ∧
      ((∀ v ∈ log, IsInt v) ↔ NoOverflow p (CPUS id).rf ∧ (p.length : ℤ) < 2 ^ 31) := by
  have h0 : IsInt (reset (CPUS id) id name speed).numInstructionsExecuted := show IsInt 0 by decide
  obtain ⟨cpu, log, hloop, hrf, hpc, hlog⟩ := simulateLoop_spec junk _ hp h0
  obtain ⟨hcount, -⟩ := simulateLoop_count hloop h0
  have hzero : (reset (CPUS id) id name speed).numInstructionsExecuted = 0 := rfl
  dsimp only at hcount
  rw [hzero, zero_add, hp.length_eq] at hcount
  rw [hzero, zero_add] at hlog
  refine ⟨Function.update CPUS id cpu, log, ?_, ?_, ?_, ?_, hlog⟩
  · rw [← hcount, simulateCpu, chunks_of_fits hfit]
    exact bind_ok.mpr ⟨_, hloop, rfl⟩
  · rw [Function.update_self, hrf, reset]
  · rw [Function.update_self, hpc, reset]
    exact BitVec.zero_add _
  · rw [Function.update_self, hcount]

/-- **An exact run:** the registers of the reference, every computed value an `int`, and the number of lines in the result and in `pc`. -/
def Exact (file : List Char) (p : List Ins) : Prop :=
  ∃ C n log, simulateCpu junk CPUS id name speed (some file) = .ok (C, n, log) ∧ (C id).rf = refRun p (CPUS id).rf ∧
    (∀ v ∈ log, IsInt v) ∧ n = (lines file).length ∧ (C id).pc = BitVec.ofNat 16 (lines file).length

end

variable {CPUS : Fin 16 → Cpu} {id : Fin 16} {name : List Char} {speed : ℤ} {file : List Char}

/-- The file is read line by line if the count of an exact run is right. -/
theorem Exact.fits (h : Exact junk CPUS id name speed file p) : ∀ l ∈ lines file, l.length ≤ 31 := by
  obtain ⟨C, n, log, hrun, -, hlog, hn, -⟩ := h
  obtain ⟨⟨cpu, log'⟩, hloop, hrun⟩ := bind_ok.mp hrun
  obtain ⟨-, hrun⟩ := Prod.mk.inj (Except.ok.inj hrun)
  obtain ⟨rfl, rfl⟩ := Prod.mk.inj hrun
  obtain ⟨hcount, hrange⟩ := simulateLoop_count hloop (show IsInt 0 by decide)
  have hlt := hrange hlog
  have hzero : (reset (CPUS id) id name speed).numInstructionsExecuted = 0 := rfl
  dsimp only at hcount
  rw [hzero, zero_add] at hcount hlt
  rw [toInt_of_isInt ⟨by omega, hlt⟩, hn] at hcount
  exact length_chunks_iff.mp (by exact_mod_cast hcount.symm)

/-- **The simulator is exact** on a program exactly when each line, with its newline, fits the buffer, the number of lines is an `int`, and no
product of two operands is above `INT_MAX`. -/
theorem simulate_exact_iff (hp : Program file p) (junk : ℕ → Instruction) (CPUS : Fin 16 → Cpu) (id : Fin 16) (name : List Char) (speed : ℤ) :
    Exact junk CPUS id name speed file p ↔
      (∀ l ∈ lines file, l.length ≤ 31) ∧ (lines file).length < 2 ^ 31 ∧ NoOverflow p (CPUS id).rf := by
  have hlen : (lines file).length = p.length := hp.length_eq
  constructor
  · intro h
    have hfit := h.fits
    obtain ⟨C, log, hrun, -, -, -, hrange⟩ := simulateCpu_spec junk CPUS id name speed hp hfit
    obtain ⟨C', n, log', hrun', -, hlog, -⟩ := h
    rw [hrun] at hrun'
    obtain ⟨-, hrun'⟩ := Prod.mk.inj (Except.ok.inj hrun')
    obtain ⟨-, rfl⟩ := Prod.mk.inj hrun'
    obtain ⟨hno, hlt⟩ := hrange.mp hlog
    exact ⟨hfit, by rw [hlen]; exact_mod_cast hlt, hno⟩
  · rintro ⟨hfit, hlt, hno⟩
    rw [hlen] at hlt
    have hlt' : (p.length : ℤ) < 2 ^ 31 := by exact_mod_cast hlt
    obtain ⟨C, log, hrun, hrf, hpc, -, hrange⟩ :=
      simulateCpu_spec junk CPUS id name speed hp hfit
    refine ⟨C, _, log, hrun, hrf, hrange.mpr ⟨hno, hlt'⟩, ?_, by rw [hpc, hlen]⟩
    rw [toInt_of_isInt ⟨by omega, hlt'⟩, hlen]

/-- `r1 := r0 + 5`. -/
def setFive : List Char := "addi 1 0 5\n".toList

def setFiveProgram : List Ins := [.alu .add 1 0 (.imm (BitVec.ofInt 16 5))]

theorem setFive_denotes : Program setFive setFiveProgram := by
  have hlines : lines setFive = ["addi 1 0 5\n".toList] := by decide
  rw [Program, hlines]
  refine .cons (.itype (T := .addi) rfl ⟨by decide, ['1'], ['0'], ['5'], [], ?_⟩ (by decide)) .nil
  decide

theorem setFive_exact : Exact (fun _ => ⟨.add, [], 8, 8, 8⟩) cpus₀ 3 [] 0 setFive setFiveProgram :=
  (simulate_exact_iff setFive_denotes _ _ _ _ _).mpr ⟨by decide, by decide, by decide⟩

/-- `r1 := 65535; r2 := r1 * r1`. -/
def bigSquare : List Char := "addi 1 0 65535\nmult 2 1 1".toList

def bigSquareProgram : List Ins := [.alu .add 1 0 (.imm (BitVec.ofInt 16 65535)), .alu .mul 2 1 (.reg 1)]

theorem bigSquare_denotes : Program bigSquare bigSquareProgram := by
  have hlines : lines bigSquare = ["addi 1 0 65535\n".toList, "mult 2 1 1".toList] := by decide
  rw [Program, hlines]
  refine .cons (.itype (T := .addi) rfl ⟨by decide, ['1'], ['0'], "65535".toList, [], ?_⟩ (by decide)) (.cons ?_ .nil)
  · decide
  · refine .rtype (T := .mult) rfl ⟨by decide, ['2'], ['1'], ['1'], [], ?_⟩
    decide

/-- The square of 65535 is no `int`. -/
theorem bigSquare_not_exact : ¬ ∀ file p, Program file p → ∀ junk CPUS id name speed, Exact junk CPUS id name speed file p := by
  intro h
  obtain ⟨C', n, log', hrun', -, hlog, -⟩ := h bigSquare bigSquareProgram bigSquare_denotes (fun _ => ⟨.add, [], 8, 8, 8⟩) cpus₀ 3 [] 0
  obtain ⟨C, log, hrun, -, -, -, hrange⟩ := simulateCpu_spec (fun _ => ⟨.add, [], 8, 8, 8⟩) cpus₀ 3 [] 0 bigSquare_denotes (by decide)
  rw [hrun] at hrun'
  obtain ⟨-, hrun'⟩ := Prod.mk.inj (Except.ok.inj hrun')
  obtain ⟨-, rfl⟩ := Prod.mk.inj hrun'
  exact absurd (hrange.mp hlog).1 (by decide)

end OsLabs.Exam2.Simulator
