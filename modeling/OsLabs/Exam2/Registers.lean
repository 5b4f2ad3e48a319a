import OsLabs.Exam2.Simulator

/-!
# OsLabs.Exam2.Registers — register numbers of the simulator (exam2/simulator.c)

`run_instruction` indexes the bank with what `atoi` made of a token, or with what the stack held where there was no token; nothing looks at
the number first.

* `Indices i`: the indices that `i` uses are in the bank; `runs_iff`: that is when it runs.
* `IndexOk line`: so it is for whatever the parser makes of the line; `indices_of_indexOk`, `indexOk_of_indices`.
* `confined_iff`: a file never leads outside the bank, nor to another processor, exactly when every piece of it is `IndexOk`.
-/

namespace OsLabs.Exam2.Simulator

open OsLabs.CText OsLabs.Fallible

/-- The number of a register of the bank. -/
def InBank (i : ℤ) : Prop := 0 ≤ i ∧ i < 8

instance (i : ℤ) : Decidable (InBank i) := inferInstanceAs (Decidable (_ ∧ _))

/-- The indices of `cpu->rf` that an instruction uses are in the bank. -/
def Indices (i : Instruction) : Prop :=
  match kind i.type with
  | .rtype _ => InBank i.rtS1 ∧ InBank i.rtS2 ∧ InBank i.rtDst
  | .itype _ => InBank i.itS1 ∧ InBank i.itDst
  | _ => True

/-- **A confined line:** its first token is `load`, `store` or begins no mnemonic, or it has all the register numbers that its instruction
uses, and `atoi` makes a register of each. -/
def IndexOk (line : List Char) : Prop :=
  match tokens line with
  | [] => False
  | t :: ops =>
    match kind (getInstruction t) with
    | .rtype _ => 3 ≤ ops.length ∧ ∀ o ∈ ops.take 3, InBank (atoi o)
    | .itype _ => 2 ≤ ops.length ∧ ∀ o ∈ ops.take 2, InBank (atoi o)
    | _ => True

/-- **Confinement:** no index of a run on this file is outside the bank, and no other processor changes. -/
def Confined (file : List Char) : Prop :=
  ∀ junk CPUS id name speed, ∃ r, simulateCpu junk CPUS id name speed (some file) = .ok r ∧ ∀ j, j ≠ id → r.1 j = CPUS j

/-- What the stack may hold: `add`, and no register number. -/
def noRegister : Instruction := ⟨.add, [], 8, 8, 8⟩

variable {cpu : Cpu} {i : Instruction} {f : ℕ → ℕ → ℤ} {line : List Char}

theorem reg_ok_iff {i : ℤ} : (∃ r, reg i = .ok r) ↔ InBank i := by
  unfold reg InBank
  split_ifs with h
  · exact ⟨fun _ => h, fun _ => ⟨_, rfl⟩⟩
  · exact ⟨(fun ⟨_, he⟩ => by cases he), fun hi => absurd hi h⟩

theorem rtype_ok_iff : (∃ r, cpu.rtype i f = .ok r) ↔ InBank i.rtS1 ∧ InBank i.rtS2 ∧ InBank i.rtDst := by
  rw [← reg_ok_iff, ← reg_ok_iff, ← reg_ok_iff]
  constructor
  · rintro ⟨r, h⟩
    obtain ⟨s₁, h₁, h⟩ := bind_ok.mp h
    obtain ⟨s₂, h₂, h⟩ := bind_ok.mp h
    obtain ⟨d, h₃, -⟩ := bind_ok.mp h
    exact ⟨⟨s₁, h₁⟩, ⟨s₂, h₂⟩, ⟨d, h₃⟩⟩
  · rintro ⟨⟨s₁, h₁⟩, ⟨s₂, h₂⟩, ⟨d, h₃⟩⟩
    exact ⟨_, bind_ok.mpr ⟨s₁, h₁, bind_ok.mpr ⟨s₂, h₂, bind_ok.mpr ⟨d, h₃, rfl⟩⟩⟩⟩

theorem itype_ok_iff : (∃ r, cpu.itype i f = .ok r) ↔ InBank i.itS1 ∧ InBank i.itDst := by
  rw [← reg_ok_iff, ← reg_ok_iff]
  constructor
  · rintro ⟨r, h⟩
    obtain ⟨s₁, h₁, h⟩ := bind_ok.mp h
    obtain ⟨d, h₂, -⟩ := bind_ok.mp h
    exact ⟨⟨s₁, h₁⟩, ⟨d, h₂⟩⟩
  · rintro ⟨⟨s₁, h₁⟩, ⟨d, h₂⟩⟩
    exact ⟨_, bind_ok.mpr ⟨s₁, h₁, bind_ok.mpr ⟨d, h₂, rfl⟩⟩⟩

/-- **One instruction** runs iff its indices are in the bank. -/
theorem runs_iff : (∃ r, runInstruction cpu i = .ok r) ↔ Indices i := by
  have hex : (∃ r, runInstruction cpu i = .ok r) ↔ ∃ r, execute cpu i = .ok r := by
    constructor
    · rintro ⟨r, h⟩
      obtain ⟨a, ha, -⟩ := bind_ok.mp h
      exact ⟨a, ha⟩
    · rintro ⟨a, ha⟩
      exact ⟨_, bind_ok.mpr ⟨a, ha, rfl⟩⟩
  rw [hex, Indices]
  cases hk : kind i.type with
  | rtype op => rw [execute_rtype hk]; exact rtype_ok_iff
  | itype op => rw [execute_itype hk]; exact itype_ok_iff
  | memory => exact iff_of_true ⟨_, execute_skip (Or.inl hk)⟩ trivial
  | invalid => exact iff_of_true ⟨_, execute_skip (Or.inr hk)⟩ trivial

/-! ## One line -/

/-- A confined line, whatever the stack held. -/
theorem indices_of_indexOk (h : IndexOk line) (junk : Instruction) : Indices (parseInstruction junk line) := by
  unfold IndexOk at h
  cases ht : tokens line with
  | nil => rw [ht] at h; exact h.elim
  | cons t ops =>
    rw [ht] at h
    dsimp only at h
    unfold Indices
    rw [parse_type junk ht]
    have hs := afterStart_of_kind (getInstruction t)
    cases hk : kind (getInstruction t) with
    | rtype op =>
      rw [hk] at h
      obtain ⟨hlen, hbank⟩ := h
      obtain _ | ⟨ta, _ | ⟨tb, _ | ⟨tc, ts⟩⟩⟩ := ops
      iterate 3 exact absurd hlen (by simp)
      obtain ⟨h₁, h₂, h₃⟩ := parse_rtype junk ht hk
      dsimp only
      rw [h₁, h₂, h₃]
      exact ⟨hbank tb (by simp), hbank tc (by simp), hbank ta (by simp)⟩
    | itype op =>
      rw [hk] at h
      obtain ⟨hlen, hbank⟩ := h
      obtain _ | ⟨ta, _ | ⟨tb, ts⟩⟩ := ops
      iterate 2 exact absurd hlen (by simp)
      obtain ⟨h₁, h₂⟩ := parse_itype junk ht (by rw [hs, hk])
      dsimp only
      rw [h₁, h₂]
      exact ⟨hbank tb (by simp), hbank ta (by simp)⟩
    | memory => trivial
    | invalid => trivial

/-- Where the stack holds no register number, every number must come from the line. -/
theorem indexOk_of_indices (h : Indices (parseInstruction noRegister line)) : IndexOk line := by
  have h8 : ¬ InBank 8 := by decide
  unfold IndexOk
  unfold Indices at h
  cases ht : tokens line with
  | nil =>
    rw [parse_empty _ ht] at h
    exact absurd h.1 h8
  | cons t ops =>
    rw [parse_type _ ht] at h
    dsimp only
    have hs := afterStart_of_kind (getInstruction t)
    cases hk : kind (getInstruction t) with
    | rtype op =>
      rw [hk] at h hs
      dsimp only at h hs ⊢
      obtain _ | ⟨ta, _ | ⟨tb, _ | ⟨tc, ts⟩⟩⟩ := ops
      · rw [parseInstruction, ht, parseLoop, hs] at h
        exact absurd h.1 h8
      · rw [parseInstruction, ht, parseLoop, hs] at h
        exact absurd h.1 h8
      · rw [parseInstruction, ht, parseLoop, hs] at h
        exact absurd h.2.1 h8
      · obtain ⟨h₁, h₂, h₃⟩ := parse_rtype noRegister ht hk
        rw [h₁, h₂, h₃] at h
        simpa [and_assoc, and_comm, and_left_comm] using h
    | itype op =>
      rw [hk] at h hs
      dsimp only at h hs ⊢
      obtain _ | ⟨ta, _ | ⟨tb, ts⟩⟩ := ops
      · rw [parseInstruction, ht, parseLoop, hs] at h
        exact absurd h.1 h8
      · rw [parseInstruction, ht, parseLoop, hs] at h
        exact absurd h.1 h8
      · obtain ⟨h₁, h₂⟩ := parse_itype noRegister ht hs
        rw [h₁, h₂] at h
        simpa [and_comm] using h
    | memory => trivial
    | invalid => trivial

/-! ## A file -/

/-- **The loop** goes through when every line is confined. -/
theorem simulateLoop_total : ∀ {ls : List (List Char)} (junk : ℕ → Instruction) (cpu : Cpu),
    (∀ l ∈ ls, IndexOk (lineText l)) → ∃ r, simulateLoop junk cpu ls = .ok r
  | [], _, cpu, _ => ⟨(cpu, []), rfl⟩
  | l :: ls, junk, cpu, h => by
    obtain ⟨⟨cpu', log⟩, hrun⟩ := runs_iff.mpr (indices_of_indexOk (h l List.mem_cons_self) (junk 0))
    obtain ⟨⟨cpu'', log'⟩, hrest⟩ := simulateLoop_total (fun k => junk (k + 1))
      { cpu' with numInstructionsExecuted := toInt (cpu'.numInstructionsExecuted + 1) }
      fun k hk => h k (List.mem_cons_of_mem _ hk)
    exact ⟨_, bind_ok.mpr ⟨_, hrun, bind_ok.mpr ⟨_, hrest, rfl⟩⟩⟩

/-- **What a run has passed:** the indices of every line were in the bank. -/
theorem simulateLoop_indices : ∀ {ls : List (List Char)} {i : Instruction} {cpu : Cpu} {r : Cpu × List ℤ},
    simulateLoop (fun _ => i) cpu ls = .ok r → ∀ l ∈ ls, Indices (parseInstruction i (lineText l))
  | [], _, _, _, _, l, hl => absurd hl List.not_mem_nil
  | k :: ls, i, cpu, r, h, l, hl => by
    obtain ⟨⟨cpu', log⟩, hrun, h⟩ := bind_ok.mp h
    obtain ⟨r', hrest, -⟩ := bind_ok.mp h
    rcases List.mem_cons.mp hl with rfl | hl
    · exact runs_iff.mp ⟨_, hrun⟩
    · exact simulateLoop_indices hrest l hl

/-- **Register numbers.**  A file is confined exactly when each piece of it that `fgets` returns is a confined line. -/
theorem confined_iff (file : List Char) : Confined file ↔ ∀ l ∈ chunks 30 file, IndexOk (lineText l) := by
  constructor
  · intro h l hl
    obtain ⟨r, hr, -⟩ := h (fun _ => noRegister) cpus₀ 0 [] 0
    obtain ⟨r', hloop, -⟩ := bind_ok.mp hr
    exact indexOk_of_indices (simulateLoop_indices hloop l hl)
  · intro h junk CPUS id name speed
    obtain ⟨⟨cpu, log⟩, hloop⟩ := simulateLoop_total junk (reset (CPUS id) id name speed) h
    exact ⟨_, bind_ok.mpr ⟨_, hloop, rfl⟩, fun j hj => Function.update_of_ne hj _ _⟩

/-- `add 11 0 0`. -/
def addEleven : List Char := "add 11 0 0".toList

/-- This program stores outside the bank: at the `id` of the next processor. -/
theorem addEleven_not_confined : ¬ ∀ file, Confined file := by
  intro h
  have hlines : lines addEleven = [addEleven] := by decide
  have hchunks : chunks 30 addEleven = [addEleven] := by rw [chunks_of_fits (by rw [hlines]; decide), hlines]
  have htype : (parseInstruction noRegister (lineText addEleven)).type = .add := by decide
  have hdst : (parseInstruction noRegister (lineText addEleven)).rtDst = 11 := by decide
  obtain ⟨r, hr, -⟩ := h addEleven (fun _ => noRegister) cpus₀ 0 [] 0
  obtain ⟨r', hloop, -⟩ := bind_ok.mp hr
  rw [hchunks] at hloop
  have hidx := simulateLoop_indices hloop _ List.mem_cons_self
  rw [Indices, htype] at hidx
  exact absurd (hdst ▸ hidx.2.2) (by decide)

end OsLabs.Exam2.Simulator
