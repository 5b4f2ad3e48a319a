import OsLabs.Exam2.Simulator

/-!
# OsLabs.Exam2.Parser — which lines the simulator reads as they are written (exam2/simulator.c)

`get_instruction` compares as many characters as the token has: a prefix of a mnemonic is taken for it.  The parser stops where the tokens
stop and returns what it has; its states have no way to an invalid instruction after the first token.

* `Reads line T a b c`: the line is `T` in full with three decimal numbers after it.
* `Good line`: what the parser returns is that, or an invalid instruction where there is no such `T`.
* `parse_good_iff`: a line is good exactly when it reads so and its operands fit their fields, or its first token begins no mnemonic.
-/

namespace OsLabs.Exam2.Simulator

open OsLabs.CText

/-- The destination, the first source, and the second source or the immediate. -/
def Instruction.operands (i : Instruction) : ℤ × ℤ × ℤ :=
  match kind i.type with
  | .rtype _ => (i.rtDst, i.rtS1, i.rtS2)
  | _ => (i.itDst, i.itS1, (i.itImm : ℤ))

/-- **A well-written line:** the full name of a mnemonic, and at least three decimal numbers after it. -/
def Reads (line : List Char) (T : InstructionT) (a b c : ℤ) : Prop :=
  T ≠ .invalid ∧ ∃ ta tb tc rest, tokens line = instructionNames T :: ta :: tb :: tc :: rest ∧
    decimal ta = some a ∧ decimal tb = some b ∧ decimal tc = some c

/-- **A line is read well** when its instruction is what is written, and any other line is invalid and changes no register. -/
def Good (line : List Char) : Prop :=
  ∀ junk,
    (∀ T a b c, T ≠ .invalid →
      ((parseInstruction junk line).type = T ∧ (parseInstruction junk line).operands = (a, b, c) ↔ Reads line T a b c)) ∧
    ((∀ T a b c, ¬ Reads line T a b c) → (parseInstruction junk line).type = .invalid ∧
      ∀ cpu, ∃ r, runInstruction cpu (parseInstruction junk line) = .ok r ∧ r.1.rf = cpu.rf)

/-- The operands have a place in `struct instruction`: an `int` for a register, an `unsigned short` for an immediate. -/
def Fits (T : InstructionT) (a b c : ℤ) : Prop :=
  IsInt a ∧ IsInt b ∧
    match kind T with
    | .rtype _ => IsInt c
    | _ => 0 ≤ c ∧ c < 2 ^ 16

variable (junk : Instruction) {line t ta tb tc : List Char} {ts : List (List Char)} {T T' : InstructionT} {a b c a' b' c' : ℤ}

/-- What the parser makes of the third operand. -/
def third (T : InstructionT) (v : ℤ) : ℤ :=
  match kind T with
  | .rtype _ => v
  | _ => v % 2 ^ 16

/-- **Three operands or more** are read by `atoi`, into the fields of the format. -/
theorem parse_operands (h : tokens line = t :: ta :: tb :: tc :: ts) (ht : getInstruction t ≠ .invalid) :
    (parseInstruction junk line).operands = (atoi ta, atoi tb, third (getInstruction t) (atoi tc)) := by
  have himm : afterStart (getInstruction t) = .itypeDst → ((parseInstruction junk line).itDst, (parseInstruction junk line).itS1,
      ((parseInstruction junk line).itImm : ℤ)) = (atoi ta, atoi tb, atoi tc % 2 ^ 16) := by
    intro ha
    obtain ⟨h₁, h₂⟩ := parse_itype junk h ha
    rw [h₁, h₂, parse_imm junk h ha, Int.toNat_of_nonneg (Int.emod_nonneg _ (by decide))]
  unfold Instruction.operands third
  rw [parse_type junk h]
  have hs := afterStart_of_kind (getInstruction t)
  cases hk : kind (getInstruction t) with
  | rtype op =>
    obtain ⟨h₁, h₂, h₃⟩ := parse_rtype junk h hk
    dsimp only
    rw [h₁, h₂, h₃]
  | itype op => exact himm (by rw [hs, hk])
  | memory => exact himm (by rw [hs, hk])
  | invalid => exact absurd (kind_eq_invalid.mp hk) ht

theorem Reads.unique (h : Reads line T a b c) (h' : Reads line T' a' b' c') : T' = T ∧ a' = a ∧ b' = b ∧ c' = c := by
  obtain ⟨-, ta, tb, tc, ts, ht, ha, hb, hc⟩ := h
  obtain ⟨-, ta', tb', tc', ts', ht', ha', hb', hc'⟩ := h'
  rw [ht] at ht'
  simp only [List.cons.injEq] at ht'
  obtain ⟨hT, rfl, rfl, rfl, -⟩ := ht'
  refine ⟨?_, ?_, ?_, ?_⟩
  · rw [← getInstruction_name T', ← hT, getInstruction_name]
  · exact Option.some.inj (ha'.symm.trans ha)
  · exact Option.some.inj (hb'.symm.trans hb)
  · exact Option.some.inj (hc'.symm.trans hc)

theorem atoi_eq_iff {s : List Char} {v : ℤ} (h : decimal s = some v) : atoi s = v ↔ IsInt v :=
  ⟨fun he => he ▸ atoi_isInt s, atoi_of_decimal h⟩

/-- A decimal number survives the way into an `unsigned short` iff it is one. -/
theorem atoi_emod_eq_iff {s : List Char} {v : ℤ} (h : decimal s = some v) : atoi s % 2 ^ 16 = v ↔ 0 ≤ v ∧ v < 2 ^ 16 := by
  constructor
  · rintro rfl
    exact ⟨Int.emod_nonneg _ (by decide), Int.emod_lt_of_pos _ (by decide)⟩
  · rintro ⟨h₁, h₂⟩
    rw [atoi_of_decimal h ⟨by omega, by omega⟩, Int.emod_eq_of_lt h₁ h₂]

/-- **A well-written line** is read as it is written iff its operands fit. -/
theorem Reads.parse_iff (h : Reads line T a b c) :
    (parseInstruction junk line).type = T ∧ ((parseInstruction junk line).operands = (a, b, c) ↔ Fits T a b c) := by
  obtain ⟨hT, ta, tb, tc, ts, ht, ha, hb, hc⟩ := h
  have hthird : third T (atoi tc) = c ↔ match kind T with | .rtype _ => IsInt c | _ => 0 ≤ c ∧ c < 2 ^ 16 := by
    unfold third
    cases kind T with
    | rtype op => exact atoi_eq_iff hc
    | itype op => exact atoi_emod_eq_iff hc
    | memory => exact atoi_emod_eq_iff hc
    | invalid => exact atoi_emod_eq_iff hc
  have hops := parse_operands junk ht (by rwa [getInstruction_name])
  rw [getInstruction_name] at hops
  refine ⟨by rw [parse_type junk ht, getInstruction_name], ?_⟩
  rw [hops, Prod.mk.injEq, Prod.mk.injEq, atoi_eq_iff ha, atoi_eq_iff hb, hthird, Fits]

/-- **An invalid first token** makes the whole line invalid, and nothing is done. -/
theorem parse_invalid (h : tokens line = t :: ts) (ht : getInstruction t = .invalid) :
    (parseInstruction junk line).type = .invalid ∧
      ∀ cpu, ∃ r, runInstruction cpu (parseInstruction junk line) = .ok r ∧ r.1.rf = cpu.rf := by
  have htype := (parse_type junk h).trans ht
  refine ⟨htype, fun cpu => ⟨({ cpu with pc := cpu.pc + 1 }, [(cpu.pc.toNat : ℤ) + 1]), ?_, rfl⟩⟩
  rw [runInstruction, execute_skip (Or.inr (by rw [htype]; rfl))]
  rfl

/-- **Reading.**  A line is read as it is written, or rejected, exactly when it is well written and its operands fit their fields, or its
first token is the beginning of no mnemonic. -/
theorem parse_good_iff (line : List Char) : Good line ↔
    (∃ T a b c, Reads line T a b c ∧ Fits T a b c) ∨
      ∃ t rest, tokens line = t :: rest ∧ ∀ T, T ≠ .invalid → ¬ t <+: instructionNames T := by
  constructor
  · intro h
    -- where the first token sets another type than `invalid`, something must be read
    have hread : ∀ junk, (parseInstruction junk line).type ≠ .invalid → ∃ T a b c, Reads line T a b c ∧ Fits T a b c := by
      intro junk hne
      by_contra hno
      refine hne ((h junk).2 fun T a b c hr => hno ⟨T, a, b, c, hr, ?_⟩).1
      exact (hr.parse_iff junk).2.mp (((h junk).1 T a b c hr.1).mpr hr).2
    cases ht : tokens line with
    | nil => exact Or.inl (hread ⟨.add, [], 0, 0, 0⟩ (by rw [parse_empty _ ht]; decide))
    | cons t rest =>
      by_cases hinv : getInstruction t = .invalid
      · exact Or.inr ⟨t, rest, rfl, getInstruction_eq_invalid.mp hinv⟩
      · exact Or.inl (hread ⟨.add, [], 0, 0, 0⟩ (by rwa [parse_type _ ht]))
  · rintro (⟨T, a, b, c, hr, hf⟩ | ⟨t, rest, ht, hno⟩) junk
    · obtain ⟨htype, hops⟩ := hr.parse_iff junk
      refine ⟨fun T' a' b' c' _ => ⟨?_, ?_⟩, fun hno => absurd hr (hno T a b c)⟩
      · rintro ⟨rfl, he⟩
        rw [hops.mpr hf, Prod.mk.injEq, Prod.mk.injEq] at he
        obtain ⟨rfl, rfl, rfl⟩ := he
        exact htype ▸ hr
      · intro hr'
        obtain ⟨rfl, rfl, rfl, rfl⟩ := hr.unique hr'
        exact ⟨htype, hops.mpr hf⟩
    · obtain ⟨htype, hrun⟩ := parse_invalid junk ht (getInstruction_eq_invalid.mpr hno)
      refine ⟨fun T a b c hT => ⟨fun he => absurd (he.1.symm.trans htype) hT, ?_⟩, fun _ => ⟨htype, hrun⟩⟩
      rintro ⟨-, ta, tb, tc, ts, ht', -⟩
      rw [ht] at ht'
      cases ht'
      exact absurd (List.prefix_refl _) (hno T hT)

/-- `mul 1 2 3` multiplies. -/
theorem prefix_not_good : ¬ ∀ line, Good line := by
  intro h
  obtain ⟨-, hinv⟩ := h "mul 1 2 3".toList ⟨.add, [], 0, 0, 0⟩
  have htok : tokens "mul 1 2 3".toList = [['m', 'u', 'l'], ['1'], ['2'], ['3']] := by decide
  have hno : ∀ T, instructionNames T ≠ ['m', 'u', 'l'] := by intro T; cases T <;> decide
  have htype := (hinv fun T a b c hr => ?_).1
  · rw [parse_type _ htok] at htype
    exact absurd htype (by decide)
  · obtain ⟨-, ta, tb, tc, ts, ht, -⟩ := hr
    rw [htok] at ht
    exact hno T (List.cons.inj ht).1.symm

end OsLabs.Exam2.Simulator
