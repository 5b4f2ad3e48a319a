import Mathlib.Data.List.Basic
import Mathlib.Data.List.TakeWhile
import Mathlib.Algebra.Order.Ring.Int
import Mathlib.Tactic.SplitIfs

/-!
# OsLabs.CText — text as C reads it

Strings and files are lists of characters.

* `toInt`, `atoi`: the conversions to a 32-bit `int`; `atoi_of_decimal` is what `atoi` makes of a decimal number, and `toInt_range` what it
  can return at all.
* `tokens`: what `strtok_r(…, " ")` returns, one after another.
* `fgets`, `chunks`: a file read through a buffer; `chunks_of_fits`, `length_chunks_iff`: the pieces are the lines exactly when no line is
  longer than the buffer.
-/

namespace OsLabs.CText

/-! ## Numbers -/

/-- A value stored into a 32-bit `int`. -/
def toInt (x : ℤ) : ℤ := (x + 2 ^ 31) % 2 ^ 32 - 2 ^ 31

/-- A value of a 32-bit `int`. -/
def IsInt (x : ℤ) : Prop := -2 ^ 31 ≤ x ∧ x < 2 ^ 31

instance (x : ℤ) : Decidable (IsInt x) := inferInstanceAs (Decidable (_ ∧ _))

theorem toInt_range (x : ℤ) : IsInt (toInt x) := by
  unfold toInt IsInt
  omega

theorem toInt_of_isInt {x : ℤ} (h : IsInt x) : toInt x = x := by
  unfold IsInt at h
  unfold toInt
  omega

/-- The number that some digits stand for. -/
def digitsVal (ds : List Char) : ℕ := ds.foldl (fun v c => 10 * v + (c.toNat - '0'.toNat)) 0

/-- `isspace`, in the C locale. -/
def isspace (c : Char) : Bool := c = ' ' || c = '\t' || c = '\n' || c = '\x0b' || c = '\x0c' || c = '\x0d'

/-- A value that is no `long` becomes the nearest one. -/
def clamp (x : ℤ) : ℤ := if x < -2 ^ 63 then -2 ^ 63 else if 2 ^ 63 ≤ x then 2 ^ 63 - 1 else x

/-- `strtol(s, 0, 10)`: spaces, a sign, and as many digits as there are. -/
def strtol (s : List Char) : ℤ :=
  match s.dropWhile isspace with
  | [] => 0
  | c :: ds =>
    if c = '-' then clamp (-digitsVal (ds.takeWhile Char.isDigit))
    else if c = '+' then clamp (digitsVal (ds.takeWhile Char.isDigit))
    else clamp (digitsVal ((c :: ds).takeWhile Char.isDigit))

def atoi (s : List Char) : ℤ := toInt (strtol s)

/-- The value of a string of digits. -/
def number (ds : List Char) : Option ℕ := if ds ≠ [] ∧ ds.all Char.isDigit then some (digitsVal ds) else none

/-- The value of a decimal number: digits, with a sign in front of them or not. -/
def decimal (s : List Char) : Option ℤ :=
  match s with
  | [] => none
  | c :: ds =>
    if c = '-' then (number ds).map (fun v : ℕ => -(v : ℤ))
    else if c = '+' then (number ds).map (fun v : ℕ => (v : ℤ))
    else (number (c :: ds)).map (fun v : ℕ => (v : ℤ))

theorem number_eq_some {ds : List Char} {v : ℕ} (h : number ds = some v) :
    ds ≠ [] ∧ (∀ c ∈ ds, c.isDigit = true) ∧ digitsVal ds = v := by
  unfold number at h
  split_ifs at h with hd
  exact ⟨hd.1, List.all_eq_true.mp hd.2, Option.some.inj h⟩

theorem isspace_of_isDigit {c : Char} (h : c.isDigit = true) : isspace c = false := by
  refine Bool.eq_false_iff.mpr fun hs => ?_
  simp only [isspace, Bool.or_eq_true, decide_eq_true_eq] at hs
  rcases hs with ((((rfl | rfl) | rfl) | rfl) | rfl) | rfl <;> revert h <;> decide

theorem clamp_of_isInt {x : ℤ} (h : IsInt x) : clamp x = x := by
  unfold IsInt at h
  unfold clamp
  rw [if_neg (by omega), if_neg (by omega)]

/-- `strtol` reads a decimal number whole. -/
theorem strtol_of_decimal {s : List Char} {v : ℤ} (h : decimal s = some v) : strtol s = clamp v := by
  unfold decimal at h
  cases s with
  | nil => cases h
  | cons c ds =>
    dsimp only at h
    split_ifs at h with hm hp
    · obtain ⟨n, hn, rfl⟩ := Option.map_eq_some_iff.mp h
      obtain ⟨-, hd, rfl⟩ := number_eq_some hn
      subst hm
      rw [strtol, List.dropWhile_cons_of_neg (by decide)]
      dsimp only
      rw [if_pos rfl, List.takeWhile_eq_self_iff.mpr hd]
    · obtain ⟨n, hn, rfl⟩ := Option.map_eq_some_iff.mp h
      obtain ⟨-, hd, rfl⟩ := number_eq_some hn
      subst hp
      rw [strtol, List.dropWhile_cons_of_neg (by decide)]
      dsimp only
      rw [if_neg (by decide), if_pos rfl, List.takeWhile_eq_self_iff.mpr hd]
    · obtain ⟨n, hn, rfl⟩ := Option.map_eq_some_iff.mp h
      obtain ⟨-, hd, rfl⟩ := number_eq_some hn
      have hdig := hd c List.mem_cons_self
      rw [strtol, List.dropWhile_cons_of_neg (by rw [isspace_of_isDigit hdig]; decide)]
      dsimp only
      rw [if_neg hm, if_neg hp, List.takeWhile_eq_self_iff.mpr hd]

/-- **A decimal number that is an `int`** is what `atoi` returns for it. -/
theorem atoi_of_decimal {s : List Char} {v : ℤ} (h : decimal s = some v) (hv : IsInt v) : atoi s = v := by
  rw [atoi, strtol_of_decimal h, clamp_of_isInt hv, toInt_of_isInt hv]

theorem atoi_isInt (s : List Char) : IsInt (atoi s) := toInt_range _

/-! ## Words -/

/-- The tokens of `s` between spaces. -/
def tokens (s : List Char) : List (List Char) := (s.splitOn ' ').filter fun t => t ≠ []

/-- The string at the start of a buffer: up to the first null character. -/
def cstr (s : List Char) : List Char := s.takeWhile fun c => c ≠ '\x00'

/-! ## Lines -/

/-- `fgets` with room for `n` characters: what it reads, and what is left. -/
def fgets : ℕ → List Char → List Char × List Char
  | _, [] => ([], [])
  | 0, s => ([], s)
  | n + 1, c :: s => if c = '\n' then ([c], s) else (c :: (fgets n s).1, (fgets n s).2)

theorem length_fgets_le : ∀ (n : ℕ) (s : List Char), (fgets n s).2.length ≤ s.length
  | 0, [] => le_rfl
  | _ + 1, [] => le_rfl
  | 0, _ :: _ => le_rfl
  | n + 1, c :: s => by
    unfold fgets
    split_ifs
    · exact Nat.le_succ _
    · exact (length_fgets_le n s).trans (Nat.le_succ _)

/-- What the loop `while (fgets(line, n + 2, fp))` gets from the file. -/
def chunks (n : ℕ) (file : List Char) : List (List Char) :=
  match file with
  | [] => []
  | c :: s => (fgets (n + 1) (c :: s)).1 :: chunks n (fgets (n + 1) (c :: s)).2
termination_by file.length
decreasing_by
  unfold fgets
  split_ifs
  · exact Nat.lt_succ_self _
  · exact Nat.lt_succ_of_le (length_fgets_le n s)

/-- The lines of a file, each with the newline that ends it. -/
def lines : List Char → List (List Char)
  | [] => []
  | c :: s =>
    if c = '\n' then [c] :: lines s
    else
      match lines s with
      | [] => [[c]]
      | l :: ls => (c :: l) :: ls

variable {n : ℕ} {s : List Char}

theorem lines_ne_nil (c : Char) (s : List Char) : lines (c :: s) ≠ [] := by
  unfold lines
  split_ifs
  · exact List.cons_ne_nil _ _
  · split <;> exact List.cons_ne_nil _ _

theorem lines_cons_of_ne {c : Char} (hc : c ≠ '\n') (hs : s ≠ []) :
    ∃ l ls, lines s = l :: ls ∧ lines (c :: s) = (c :: l) :: ls := by
  obtain ⟨d, t, rfl⟩ := List.exists_cons_of_ne_nil hs
  obtain ⟨l, ls, hl⟩ := List.exists_cons_of_ne_nil (lines_ne_nil d t)
  refine ⟨l, ls, hl, ?_⟩
  rw [lines, if_neg hc, hl]

/-- **A line that fits** is what one read returns. -/
theorem fgets_of_fits : ∀ {n : ℕ} {s l : List Char} {ls : List (List Char)}, lines s = l :: ls → l.length ≤ n →
    (fgets n s).1 = l ∧ lines (fgets n s).2 = ls := by
  intro n s
  induction s generalizing n with
  | nil => intro l ls h; cases h
  | cons c s ih =>
    intro l ls h hn
    by_cases hc : c = '\n'
    · rw [lines, if_pos hc] at h
      cases h
      cases n with
      | zero => cases hn
      | succ n => simp only [fgets, if_pos hc, and_self]
    by_cases hs : s = []
    · subst hs
      rw [lines, if_neg hc] at h
      cases h
      cases n with
      | zero => cases hn
      | succ n => simp only [fgets, if_neg hc, lines, and_self]
    obtain ⟨l', ls', hl, he⟩ := lines_cons_of_ne hc hs
    rw [he] at h
    cases h
    cases n with
    | zero => cases hn
    | succ n =>
      obtain ⟨h₁, h₂⟩ := ih hl (Nat.le_of_succ_le_succ hn)
      simp only [fgets, if_neg hc, h₁, h₂, and_self]

/-- **A line that does not fit** is cut: the rest of it is the next line. -/
theorem fgets_of_long : ∀ {n : ℕ} {s l : List Char} {ls : List (List Char)}, lines s = l :: ls → n < l.length →
    lines (fgets n s).2 = l.drop n :: ls := by
  intro n s
  induction s generalizing n with
  | nil => intro l ls h; cases h
  | cons c s ih =>
    intro l ls h hn
    cases n with
    | zero => exact h
    | succ n =>
      by_cases hc : c = '\n'
      · rw [lines, if_pos hc] at h
        cases h
        exact absurd hn (by rw [List.length_singleton]; omega)
      by_cases hs : s = []
      · subst hs
        rw [lines, if_neg hc] at h
        cases h
        exact absurd hn (by rw [List.length_singleton]; omega)
      obtain ⟨l', ls', hl, he⟩ := lines_cons_of_ne hc hs
      rw [he] at h
      cases h
      have h' := ih hl (Nat.lt_of_succ_lt_succ hn)
      simpa only [fgets, if_neg hc, List.drop_succ_cons] using h'

/-- **Through a buffer that every line fits**, the file is read line by line. -/
theorem chunks_of_fits (h : ∀ l ∈ lines s, l.length ≤ n + 1) : chunks n s = lines s := by
  induction s using chunks.induct n with
  | case1 => rw [chunks, lines]
  | case2 c s ih =>
    obtain ⟨l, ls, hl⟩ := List.exists_cons_of_ne_nil (lines_ne_nil c s)
    rw [hl] at h ⊢
    obtain ⟨h₁, h₂⟩ := fgets_of_fits hl (h l List.mem_cons_self)
    rw [chunks, h₁, ih fun k hk => h k (List.mem_cons_of_mem _ (h₂ ▸ hk)), h₂]

/-- **No fewer pieces than lines**, and as many only if every line fits. -/
theorem length_chunks (n : ℕ) (s : List Char) : (lines s).length ≤ (chunks n s).length ∧
    ((chunks n s).length = (lines s).length → ∀ l ∈ lines s, l.length ≤ n + 1) := by
  induction s using chunks.induct n with
  | case1 => exact ⟨Nat.zero_le _, fun _ l hl => absurd hl List.not_mem_nil⟩
  | case2 c s ih =>
    obtain ⟨l, ls, hl⟩ := List.exists_cons_of_ne_nil (lines_ne_nil c s)
    rw [hl, chunks, List.length_cons, List.length_cons]
    rcases Nat.lt_or_ge (n + 1) l.length with hlong | hfits
    · have hcut := fgets_of_long hl hlong
      have hle := ih.1
      rw [hcut, List.length_cons] at hle
      exact ⟨by omega, fun he => by omega⟩
    · obtain ⟨-, h₂⟩ := fgets_of_fits hl hfits
      rw [h₂] at ih
      refine ⟨Nat.succ_le_succ ih.1, fun he k hk => ?_⟩
      rcases List.mem_cons.mp hk with rfl | hk
      · exact hfits
      · exact ih.2 (Nat.succ.inj he) k hk

theorem length_chunks_iff : (chunks n s).length = (lines s).length ↔ ∀ l ∈ lines s, l.length ≤ n + 1 :=
  ⟨(length_chunks n s).2, fun h => by rw [chunks_of_fits h]⟩

end OsLabs.CText
