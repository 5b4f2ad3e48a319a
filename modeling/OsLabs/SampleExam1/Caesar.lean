import Mathlib.Algebra.Order.Ring.Int
import Mathlib.Data.List.Forall2
import Mathlib.Data.List.TakeWhile

/-!
# OsLabs.SampleExam1.Caesar — the caesar cipher (exam1-202440/problem1/caesar.c)

A `char` is a signed byte.  `*p + STUDENT_KEY` is stored into `*q` before it is compared with the last letter, and for `x`, `y` and `z`
the sum is above 127: what is stored is negative, the comparison fails, and the letter becomes a byte that is no letter.

* `caesarChar_encrypt`, `caesarChar_decrypt`: what happens to one character, in closed form.
* `Good m`: both round trips give `m` back, and letters stay letters of their case.
* `good_iff`: that is so exactly when `m` has none of the letters `x`, `y`, `z` and `f`, `g`, `h`.
-/

namespace OsLabs.SampleExam1.Caesar

/-! ## The program -/

/-- `STUDENT_KEY`. -/
def studentKey : ℤ := 8

/-- `enum operation_mode`. -/
inductive Mode
  | encrypt
  | decrypt
  deriving DecidableEq, Repr

/-- An `int` stored into a `char`. -/
def toChar (x : ℤ) : ℤ := (x + 128) % 256 - 128

/-- `'a' <= c && c <= 'z'`. -/
def isLower (c : ℤ) : Bool := 97 ≤ c && c ≤ 122

/-- `'A' <= c && c <= 'Z'`. -/
def isUpper (c : ℤ) : Bool := 65 ≤ c && c ≤ 90

/-- `isalpha`, in the C locale. -/
def isalpha (c : ℤ) : Bool := isLower c || isUpper c

/-- The body of the loop: what it leaves in `*q`, where `q` is what `malloc` left there. -/
def caesarChar (mode : Mode) (q p : ℤ) : ℤ :=
  if isalpha p then
    match mode with
    | .encrypt =>
      if isLower p then
        let q := toChar (p + studentKey)
        if q > 122 then toChar (q + 97 - 122 - 1) else q
      else if isUpper p then
        let q := toChar (p + studentKey)
        if q > 90 then toChar (q + 65 - 90 - 1) else q
      else q
    | .decrypt =>
      if isLower p then
        let q := toChar (p - studentKey)
        if q < 97 then toChar (q - 97 + 122 + 1) else q
      else if isUpper p then
        let q := toChar (p - studentKey)
        if q < 65 then toChar (q - 65 + 90 + 1) else q
      else q
  else p

/-- The loop; `malloc i` is what `malloc` left in byte `i` of the result. -/
def caesarLoop (mode : Mode) (malloc : ℕ → ℤ) : ℕ → List ℤ → List ℤ
  | _, [] => []
  | i, p :: message => caesarChar mode (malloc i) p :: caesarLoop mode malloc (i + 1) message

/-- `op` is compared with `"encrypt"` up to its own length. -/
def operationMode (op : List Char) : Mode := if op.isPrefixOf "encrypt".toList then .encrypt else .decrypt

/-- The result is the string that ends at the first null character. -/
def caesar (malloc : ℕ → ℤ) (op : List Char) (message : List ℤ) : List ℤ :=
  (caesarLoop (operationMode op) malloc 0 message).takeWhile (· ≠ 0)

/-! ## One character -/

variable {mode : Mode} {malloc malloc' : ℕ → ℤ} {c q : ℤ} {i : ℕ} {m : List ℤ}

theorem isLower_iff : isLower c = true ↔ 97 ≤ c ∧ c ≤ 122 := by simp [isLower]

theorem isUpper_iff : isUpper c = true ↔ 65 ≤ c ∧ c ≤ 90 := by simp [isUpper]

theorem isalpha_iff : isalpha c = true ↔ 97 ≤ c ∧ c ≤ 122 ∨ 65 ≤ c ∧ c ≤ 90 := by
  simp [isalpha, isLower, isUpper]

/-- Encryption: from `x` on the stored sum is negative. -/
theorem caesarChar_encrypt (q c : ℤ) : caesarChar .encrypt q c =
    if 97 ≤ c ∧ c ≤ 122 then if c ≤ 114 then c + 8 else if c ≤ 119 then c - 18 else c - 248
    else if 65 ≤ c ∧ c ≤ 90 then if c ≤ 82 then c + 8 else c - 18
    else c := by
  simp only [caesarChar, isalpha_iff, isLower_iff, isUpper_iff, toChar, studentKey]
  split_ifs <;> omega

theorem caesarChar_decrypt (q c : ℤ) : caesarChar .decrypt q c =
    if 97 ≤ c ∧ c ≤ 122 then if 105 ≤ c then c - 8 else c + 18
    else if 65 ≤ c ∧ c ≤ 90 then if 73 ≤ c then c - 8 else c + 18
    else c := by
  simp only [caesarChar, isalpha_iff, isLower_iff, isUpper_iff, toChar, studentKey]
  split_ifs <;> omega

/-- A letter stays a letter of its case, another character stays what it is. -/
def Keeps (c d : ℤ) : Prop := (isLower c = true → isLower d = true) ∧ (isUpper c = true → isUpper d = true) ∧
  (isalpha c = false → d = c)

/-- An ASCII character other than null. -/
def Ascii (c : ℤ) : Prop := 1 ≤ c ∧ c ≤ 127

/-- `x`, `y`, `z`, and the letters that are decrypted to them. -/
def Spoiled (c : ℤ) : Prop := 120 ≤ c ∧ c ≤ 122 ∨ 102 ≤ c ∧ c ≤ 104

instance (c : ℤ) : Decidable (Spoiled c) := inferInstanceAs (Decidable (_ ∨ _))

theorem keeps_iff (q : ℤ) : Keeps c (caesarChar mode q c) ↔ mode = .encrypt → ¬ (120 ≤ c ∧ c ≤ 122) := by
  simp only [Keeps, isLower_iff, isUpper_iff, ← Bool.not_eq_true, isalpha_iff]
  cases mode with
  | encrypt =>
    rw [caesarChar_encrypt]
    simp only [forall_const]
    split_ifs <;> omega
  | decrypt =>
    rw [caesarChar_decrypt]
    simp only [reduceCtorEq, false_imp_iff, iff_true]
    split_ifs <;> omega

theorem caesarChar_ne_zero (hc : c ≠ 0) (q : ℤ) : caesarChar mode q c ≠ 0 := by
  cases mode with
  | encrypt =>
    rw [caesarChar_encrypt]
    split_ifs <;> omega
  | decrypt =>
    rw [caesarChar_decrypt]
    split_ifs <;> omega

theorem decrypt_encrypt_iff (q q' : ℤ) : caesarChar .decrypt q' (caesarChar .encrypt q c) = c ↔ ¬ (120 ≤ c ∧ c ≤ 122) := by
  rw [caesarChar_encrypt, caesarChar_decrypt]
  split_ifs <;> omega

theorem encrypt_decrypt_iff (q q' : ℤ) : caesarChar .encrypt q' (caesarChar .decrypt q c) = c ↔ ¬ (102 ≤ c ∧ c ≤ 104) := by
  rw [caesarChar_decrypt, caesarChar_encrypt]
  split_ifs <;> omega

/-! ## Strings -/

theorem caesarLoop_forall {R : ℤ → ℤ → Prop} {G : ℤ → Prop} (hR : ∀ q c, R c (caesarChar mode q c) ↔ G c) :
    ∀ {m : List ℤ} {i : ℕ}, List.Forall₂ R m (caesarLoop mode malloc i m) ↔ ∀ c ∈ m, G c
  | [], i => by simp [caesarLoop]
  | c :: m, i => by rw [caesarLoop, List.forall₂_cons, hR, caesarLoop_forall hR, List.forall_mem_cons]

theorem caesarLoop_back {mode' : Mode} {G : ℤ → Prop}
    (hG : ∀ q q' c, caesarChar mode' q' (caesarChar mode q c) = c ↔ G c) :
    ∀ {m : List ℤ} {i : ℕ}, caesarLoop mode' malloc' i (caesarLoop mode malloc i m) = m ↔ ∀ c ∈ m, G c
  | [], i => by simp [caesarLoop]
  | c :: m, i => by rw [caesarLoop, caesarLoop, List.cons_eq_cons, hG, caesarLoop_back hG, List.forall_mem_cons]

theorem caesarLoop_ne_zero : ∀ {m : List ℤ} {i : ℕ}, (∀ c ∈ m, c ≠ 0) → ∀ d ∈ caesarLoop mode malloc i m, d ≠ 0
  | [], i, _, d, hd => absurd hd List.not_mem_nil
  | c :: m, i, hm, d, hd => by
    obtain ⟨hc, hm⟩ := List.forall_mem_cons.mp hm
    rcases List.mem_cons.mp hd with rfl | hd
    · exact caesarChar_ne_zero hc _
    · exact caesarLoop_ne_zero hm d hd

/-- The result of a string is as long as the string. -/
theorem caesar_eq (op : List Char) (hm : ∀ c ∈ m, c ≠ 0) : caesar malloc op m = caesarLoop (operationMode op) malloc 0 m := by
  refine List.takeWhile_eq_self_iff.mpr fun d hd => ?_
  exact decide_eq_true (caesarLoop_ne_zero hm d hd)

/-- **What is promised of `m`.**  Each operation undoes the other, and each keeps the length, the case of letters, and all that is no
letter. -/
structure Good (malloc malloc' : ℕ → ℤ) (m : List ℤ) : Prop where
  decrypt_encrypt : caesar malloc' "decrypt".toList (caesar malloc "encrypt".toList m) = m
  encrypt_decrypt : caesar malloc' "encrypt".toList (caesar malloc "decrypt".toList m) = m
  encrypt_keeps : List.Forall₂ Keeps m (caesar malloc "encrypt".toList m)
  decrypt_keeps : List.Forall₂ Keeps m (caesar malloc "decrypt".toList m)

/-- **When the cipher is one.**  For every ASCII message, whatever `malloc` leaves in the results. -/
theorem good_iff (malloc malloc' : ℕ → ℤ) (m : List ℤ) (hm : ∀ c ∈ m, Ascii c) : Good malloc malloc' m ↔ ∀ c ∈ m, ¬ Spoiled c := by
  have h0 : ∀ c ∈ m, c ≠ 0 := fun c hc => by
    have := (hm c hc).1
    omega
  have henc : operationMode "encrypt".toList = .encrypt := by decide
  have hdec : operationMode "decrypt".toList = .decrypt := by decide
  have hback : caesar malloc' "decrypt".toList (caesar malloc "encrypt".toList m) = m ↔ ∀ c ∈ m, ¬ (120 ≤ c ∧ c ≤ 122) := by
    rw [caesar_eq _ h0, caesar_eq _ (caesarLoop_ne_zero h0), henc, hdec]
    exact caesarLoop_back fun q q' c => decrypt_encrypt_iff q q'
  have hforth : caesar malloc' "encrypt".toList (caesar malloc "decrypt".toList m) = m ↔ ∀ c ∈ m, ¬ (102 ≤ c ∧ c ≤ 104) := by
    rw [caesar_eq _ h0, caesar_eq _ (caesarLoop_ne_zero h0), henc, hdec]
    exact caesarLoop_back fun q q' c => encrypt_decrypt_iff q q'
  constructor
  · intro h c hc hsp
    rcases hsp with hsp | hsp
    · exact hback.mp h.decrypt_encrypt c hc hsp
    · exact hforth.mp h.encrypt_decrypt c hc hsp
  · intro h
    refine ⟨hback.mpr fun c hc hsp => h c hc (.inl hsp), hforth.mpr fun c hc hsp => h c hc (.inr hsp), ?_, ?_⟩
    · rw [caesar_eq _ h0, henc]
      exact (caesarLoop_forall fun q c => keeps_iff q).mpr fun c hc _ hsp => h c hc (.inl hsp)
    · rw [caesar_eq _ h0, hdec]
      exact (caesarLoop_forall fun q c => keeps_iff q).mpr fun c _ hne => by cases hne

/-- The message `bee` has no such letter. -/
theorem good_iff_bee : Good (fun _ => 0) (fun _ => 0) [98, 101, 101] :=
  (good_iff _ _ _ (by simp [Ascii])).mpr (by simp [Spoiled])

/-- `x` is encrypted to a byte that is no letter, and decryption leaves that as it is. -/
theorem encrypt_x : caesar (fun _ => 0) "encrypt".toList [120] = [-128] ∧
    caesar (fun _ => 0) "decrypt".toList [-128] = [-128] ∧ ¬ Good (fun _ => 0) (fun _ => 0) [120] := by
  have henc : caesar (fun _ => 0) "encrypt".toList [120] = [-128] := by decide
  have hdec : caesar (fun _ => 0) "decrypt".toList [-128] = [-128] := by decide
  refine ⟨henc, hdec, fun h => ?_⟩
  have hback := h.decrypt_encrypt
  rw [henc, hdec] at hback
  exact absurd hback (by decide)

end OsLabs.SampleExam1.Caesar
