import OsLabs.Exam2.Reference

/-!
# OsLabs.Exam2.Leftovers — one run of the simulator after another (exam2/simulator.c)

`simulate_cpu` sets `pc` and the count back to zero and leaves the bank of registers as the last program left it.

* `Overwrites r q`: the program `q` stores into `r` before it uses `r`.
* `refRun_agree`: registers that `q` overwrites do not matter to it; `refRun_of_not_sets`: one that it never stores into keeps its value.
* `Independent f g id`: after `f`, the program `g` ends as it does alone.
* `independent_of_overwrites`: so it does if it overwrites every register that `f` leaves at something else than zero;
  `leftover_not_independent`: it does not if it stores into one of them never.
-/

namespace OsLabs.Exam2.Simulator

open OsLabs.CText

/-! ## What a program reads of the registers it starts with -/

/-- The instruction reads `r`. -/
def Ins.Uses (r : Fin 8) : Ins → Prop
  | .alu _ _ s t => s = r ∨ t = .reg r
  | .nop => False

/-- The instruction stores into `r`. -/
def Ins.Sets (r : Fin 8) : Ins → Prop
  | .alu _ d _ _ => d = r
  | .nop => False

/-- **Overwriting:** the first instruction that has to do with `r` stores into it and does not read it. -/
def Overwrites (r : Fin 8) : List Ins → Prop
  | [] => False
  | i :: q => ¬ i.Uses r ∧ (i.Sets r ∨ Overwrites r q)

variable {i : Ins} {q : List Ins} {R R' : Fin 8 → Reg} {r : Fin 8}

theorem Operand.value_congr {t : Operand} (h : ∀ r, t = .reg r → R r = R' r) : t.value R = t.value R' := by
  cases t with
  | reg r => exact h r rfl
  | imm v => rfl

/-- **One instruction.**  If every register that differs is overwritten from here on, so it is after the instruction. -/
theorem exec_overwrites (h : ∀ r, R r ≠ R' r → Overwrites r (i :: q)) : ∀ r, i.exec R r ≠ i.exec R' r → Overwrites r q := by
  intro r hr
  cases i with
  | nop => exact (h r hr).2.resolve_left id
  | alu op d s t =>
    have hs : R s = R' s := by
      by_contra hne
      exact (h s hne).1 (Or.inl rfl)
    have ht : t.value R = t.value R' := by
      refine Operand.value_congr fun u hu => ?_
      by_contra hne
      exact (h u hne).1 (Or.inr hu)
    rw [Ins.exec, Ins.exec, hs, ht] at hr
    by_cases hd : r = d
    · rw [hd, Function.update_self, Function.update_self] at hr
      exact absurd rfl hr
    · rw [Function.update_of_ne hd, Function.update_of_ne hd] at hr
      exact (h r hr).2.resolve_left (Ne.symm hd)

/-- **Registers that are overwritten** do not matter. -/
theorem refRun_agree : ∀ {q : List Ins} {R R' : Fin 8 → Reg}, (∀ r, R r ≠ R' r → Overwrites r q) → refRun q R = refRun q R'
  | [], _, _, h => funext fun r => by_contra fun hr => h r hr
  | i :: q, R, R', h => by
    rw [refRun, refRun]
    exact refRun_agree (exec_overwrites h)

/-- **A register that no instruction stores into** keeps its value. -/
theorem refRun_of_not_sets : ∀ {q : List Ins} {R : Fin 8 → Reg}, (∀ i ∈ q, ¬ i.Sets r) → refRun q R r = R r
  | [], _, _ => rfl
  | i :: q, R, h => by
    rw [refRun, refRun_of_not_sets fun j hj => h j (List.mem_cons_of_mem _ hj)]
    have hi := h i List.mem_cons_self
    cases i with
    | nop => rfl
    | alu op d s t => exact Function.update_of_ne (Ne.symm hi) _ _

/-! ## Two runs -/

/-- A valid program file: well-formed instructions, each on a line that the buffer has room for. -/
def Valid (file : List Char) (p : List Ins) : Prop := Program file p ∧ ∀ l ∈ lines file, l.length ≤ 31

/-- **Independence:** `g` after `f` leaves the registers, the `pc` and the count that it leaves alone. -/
def Independent (f g : List Char) (id : Fin 16) : Prop :=
  ∀ junk junk' junk'' name speed name' speed', ∃ r₁ r₂ r₃,
    simulateCpu junk cpus₀ id name speed (some f) = .ok r₁ ∧ simulateCpu junk' r₁.1 id name' speed' (some g) = .ok r₂ ∧
    simulateCpu junk'' cpus₀ id name' speed' (some g) = .ok r₃ ∧
    (r₂.1 id).rf = (r₃.1 id).rf ∧ (r₂.1 id).pc = (r₃.1 id).pc ∧
    (r₂.1 id).numInstructionsExecuted = (r₃.1 id).numInstructionsExecuted

/-- The registers that a program leaves, run from zero. -/
def leftover (p : List Ins) : Fin 8 → Reg := refRun p fun _ => 0

variable {f g : List Char} {p : List Ins} {id : Fin 16}

/-- **Two runs are independent** as far as the registers are: everything else is set back. -/
theorem independent_iff_registers (hf : Valid f p) (hg : Valid g q) : Independent f g id ↔ refRun q (leftover p) = leftover q := by
  have hrun : ∀ junk junk' junk'' name speed name' speed', ∃ r₁ r₂ r₃,
      simulateCpu junk cpus₀ id name speed (some f) = .ok r₁ ∧ simulateCpu junk' r₁.1 id name' speed' (some g) = .ok r₂ ∧
      simulateCpu junk'' cpus₀ id name' speed' (some g) = .ok r₃ ∧
      (r₂.1 id).rf = refRun q (leftover p) ∧ (r₃.1 id).rf = leftover q ∧ (r₂.1 id).pc = (r₃.1 id).pc ∧
      (r₂.1 id).numInstructionsExecuted = (r₃.1 id).numInstructionsExecuted := by
    intro junk junk' junk'' name speed name' speed'
    obtain ⟨C₁, log₁, h₁, hrf₁, -⟩ := simulateCpu_spec junk cpus₀ id name speed hf.1 hf.2
    obtain ⟨C₂, log₂, h₂, hrf₂, hpc₂, hn₂, -⟩ := simulateCpu_spec junk' C₁ id name' speed' hg.1 hg.2
    obtain ⟨C₃, log₃, h₃, hrf₃, hpc₃, hn₃, -⟩ := simulateCpu_spec junk'' cpus₀ id name' speed' hg.1 hg.2
    exact ⟨_, _, _, h₁, h₂, h₃, by rw [hrf₂, hrf₁]; rfl, hrf₃, hpc₂.trans hpc₃.symm, hn₂.trans hn₃.symm⟩
  constructor
  · intro h
    obtain ⟨r₁, r₂, r₃, h₁, h₂, h₃, hrf₂, hrf₃, -⟩ := hrun (fun _ => ⟨.add, [], 0, 0, 0⟩) (fun _ => ⟨.add, [], 0, 0, 0⟩)
      (fun _ => ⟨.add, [], 0, 0, 0⟩) [] 0 [] 0
    obtain ⟨s₁, s₂, s₃, h₁', h₂', h₃', hrf, -⟩ := h (fun _ => ⟨.add, [], 0, 0, 0⟩) (fun _ => ⟨.add, [], 0, 0, 0⟩)
      (fun _ => ⟨.add, [], 0, 0, 0⟩) [] 0 [] 0
    obtain rfl := Except.ok.inj (h₁.symm.trans h₁')
    obtain rfl := Except.ok.inj (h₂.symm.trans h₂')
    obtain rfl := Except.ok.inj (h₃.symm.trans h₃')
    rw [← hrf₂, ← hrf₃, hrf]
  · intro h junk junk' junk'' name speed name' speed'
    obtain ⟨r₁, r₂, r₃, h₁, h₂, h₃, hrf₂, hrf₃, hpc, hn⟩ := hrun junk junk' junk'' name speed name' speed'
    exact ⟨r₁, r₂, r₃, h₁, h₂, h₃, by rw [hrf₂, hrf₃, h], hpc, hn⟩

/-- **Independent runs.**  A program that overwrites every register that the program before it left at something else than zero, ends as it
does alone. -/
theorem independent_of_overwrites (hf : Valid f p) (hg : Valid g q) (h : ∀ r, leftover p r ≠ 0 → Overwrites r q) (id : Fin 16) :
    Independent f g id :=
  (independent_iff_registers hf hg).mpr (refRun_agree fun r hr => h r hr)

/-- A register that `f` leaves at something else than zero and `g` never stores into is still there. -/
theorem leftover_not_independent (hf : Valid f p) (hg : Valid g q) (hr : leftover p r ≠ 0) (hq : ∀ i ∈ q, ¬ i.Sets r) : ¬ Independent f g id := by
  intro h
  have he := congrFun ((independent_iff_registers hf hg).mp h) r
  rw [refRun_of_not_sets hq, leftover, leftover, refRun_of_not_sets hq] at he
  exact hr he

theorem setFive_valid : Valid setFive setFiveProgram := ⟨setFive_denotes, by decide⟩

theorem setFive_twice : Independent setFive setFive 3 :=
  independent_of_overwrites setFive_valid setFive_valid (by
    intro r hr
    refine ⟨?_, Or.inl ?_⟩
    · rintro (h | h)
      · exact hr (by rw [← h]; decide)
      · cases h
    · by_contra hne
      exact hr (refRun_of_not_sets fun i hi => List.mem_singleton.mp hi ▸ hne)) 3

/-- `r2 := r1`. -/
def copyOne : List Char := "addi 2 1 0".toList

def copyOneProgram : List Ins := [.alu .add 2 1 (.imm (BitVec.ofInt 16 0))]

theorem copyOne_valid : Valid copyOne copyOneProgram := by
  have hlines : lines copyOne = [copyOne] := by decide
  refine ⟨?_, by decide⟩
  rw [Program, hlines]
  refine .cons (.itype (T := .addi) rfl ⟨by decide, ['2'], ['1'], ['0'], [], ?_⟩ (by decide)) .nil
  decide

/-- After `r1 := r0 + 5`, the program `r2 := r1` finds the 5. -/
theorem copyOne_not_independent : ¬ ∀ f g p q id, Valid f p → Valid g q → Independent f g id := by
  intro h
  have he := (independent_iff_registers setFive_valid copyOne_valid).mp (h setFive copyOne _ _ 3 setFive_valid copyOne_valid)
  exact absurd (congrFun he 2) (by decide)

end OsLabs.Exam2.Simulator
