import Mathlib.Data.List.Basic
import Mathlib.Logic.Function.Basic
import Mathlib.Tactic.SplitIfs

/-!
# OsLabs.Xv6.Ulib — memory and C strings (ulib.c, string.c)

* `Stands s p w`: the bytes `w` are in memory from address `p` on.
* `memmove`, `kmemmove`: the two versions of `memmove`, of user programs and of the kernel; `memmove_overlap` says that both copy ranges
  that overlap in either way.
* `strchr_spec`: what `strchr` finds, also if a NUL comes before the character.
-/

namespace OsLabs.Xv6.User

abbrev Mem := ℕ → Char

def NUL : Char := '\x00'

section Stands

variable {s t : Mem} {p : ℕ} {u v w : List Char} {c : Char}

def Stands (s : Mem) : ℕ → List Char → Prop
  | _, [] => True
  | p, a :: w => s p = a ∧ Stands s (p + 1) w

theorem stands_append : Stands s p (u ++ v) ↔ Stands s p u ∧ Stands s (p + u.length) v := by
  induction u generalizing p with
  | nil => exact ⟨fun h => ⟨trivial, h⟩, fun h => h.2⟩
  | cons a u ih =>
    simp only [List.cons_append, Stands, ih, List.length_cons, and_assoc]
    rw [show p + 1 + u.length = p + (u.length + 1) by omega]

/-- Only the bytes of the range count. -/
theorem Stands.congr (h : Stands s p w) (he : ∀ j, p ≤ j → j < p + w.length → t j = s j) : Stands t p w := by
  induction w generalizing p with
  | nil => trivial
  | cons a w ih =>
    rw [List.length_cons] at he
    refine ⟨(he p (Nat.le_refl p) (by omega)).trans h.1, ih h.2 fun j h1 h2 => he j (by omega) (by omega)⟩

/-- Memory `t` has at `q` what `s` has at `p`. -/
theorem Stands.move {q : ℕ} (h : Stands s p w) (he : ∀ j, j < w.length → t (q + j) = s (p + j)) : Stands t q w := by
  induction w generalizing p q with
  | nil => trivial
  | cons a w ih =>
    rw [List.length_cons] at he
    refine ⟨(he 0 (by omega)).trans h.1, ih h.2 fun j hj => ?_⟩
    have := he (j + 1) (by omega)
    rwa [show q + (j + 1) = q + 1 + j by omega, show p + (j + 1) = p + 1 + j by omega] at this

/-- Bytes that a system call puts into memory. -/
def store (s : Mem) : ℕ → List Char → Mem
  | _, [] => s
  | p, a :: w => store (Function.update s p a) (p + 1) w

theorem store_of_lt {j : ℕ} (hj : j < p) : store s p w j = s j := by
  induction w generalizing s p with
  | nil => rfl
  | cons a w ih => rw [store, ih (by omega), Function.update_of_ne (by omega)]

theorem store_of_ge {j : ℕ} (hj : p + w.length ≤ j) : store s p w j = s j := by
  induction w generalizing s p with
  | nil => rfl
  | cons a w ih =>
    rw [List.length_cons] at hj
    rw [store, ih (by omega), Function.update_of_ne (by omega)]

theorem stands_store (s : Mem) (p : ℕ) (w : List Char) : Stands (store s p w) p w := by
  induction w generalizing s p with
  | nil => trivial
  | cons a w ih =>
    refine ⟨?_, ih _ _⟩
    rw [store, store_of_lt (Nat.lt_succ_self p), Function.update_self]

end Stands

/-! ## memmove -/

section Memmove

variable {s : Mem} {dst src n j : ℕ}

/-- `while(n-- > 0) *dst++ = *src++;` -/
def copyUp (s : Mem) : ℕ → ℕ → ℕ → Mem
  | _, _, 0 => s
  | dst, src, n + 1 => copyUp (Function.update s dst (s src)) (dst + 1) (src + 1) n

/-- `while(n-- > 0) *--dst = *--src;`, from the ends of the two ranges. -/
def copyDown (s : Mem) (dst src : ℕ) : ℕ → Mem
  | 0 => s
  | n + 1 => copyDown (Function.update s (dst + n) (s (src + n))) dst src n

/-- `memmove` of ulib.c. -/
def memmove (s : Mem) (dst src n : ℕ) : Mem := if src > dst then copyUp s dst src n else copyDown s dst src n

/-- `memmove` of string.c. -/
def kmemmove (s : Mem) (dst src n : ℕ) : Mem :=
  if n = 0 then s
  else if src < dst ∧ src + n > dst then copyDown s dst src n
  else copyUp s dst src n

/-- What has to be copied still is not overwritten if the copy starts at the low end and the target does not begin inside the source. -/
theorem copyUp_apply (h : dst ≤ src ∨ src + n ≤ dst) :
    copyUp s dst src n j = if dst ≤ j ∧ j < dst + n then s (src + (j - dst)) else s j := by
  induction n generalizing s dst src with
  | zero => rw [copyUp, if_neg (by omega)]
  | succ n ih =>
    rw [copyUp, ih (by omega)]
    by_cases hj : j = dst
    · subst hj
      rw [if_neg (by omega), if_pos (by omega), Function.update_self, Nat.sub_self, Nat.add_zero]
    · by_cases hin : dst + 1 ≤ j ∧ j < dst + 1 + n
      · rw [if_pos hin, if_pos (by omega), Function.update_of_ne (by omega)]
        congr 1
        omega
      · rw [if_neg hin, if_neg (by omega), Function.update_of_ne hj]

theorem copyDown_apply (h : src ≤ dst) :
    copyDown s dst src n j = if dst ≤ j ∧ j < dst + n then s (src + (j - dst)) else s j := by
  induction n generalizing s with
  | zero => rw [copyDown, if_neg (by omega)]
  | succ n ih =>
    rw [copyDown, ih]
    by_cases hj : j = dst + n
    · subst hj
      rw [if_neg (by omega), if_pos (by omega), Function.update_self]
      congr 1
      omega
    · by_cases hin : dst ≤ j ∧ j < dst + n
      · rw [if_pos hin, if_pos (by omega), Function.update_of_ne (by omega)]
      · rw [if_neg hin, if_neg (by omega), Function.update_of_ne hj]

theorem memmove_apply (s : Mem) (dst src n j : ℕ) :
    memmove s dst src n j = if dst ≤ j ∧ j < dst + n then s (src + (j - dst)) else s j := by
  unfold memmove
  by_cases h : src > dst
  · rw [if_pos h]
    exact copyUp_apply (.inl (Nat.le_of_lt h))
  · rw [if_neg h]
    exact copyDown_apply (Nat.le_of_not_lt h)

/-- **`memmove`.**  Both versions put the old bytes of the source into the target and change nothing else, however the two ranges
overlap. -/
theorem memmove_overlap (s : Mem) (dst src n : ℕ) :
    memmove s dst src n = (fun j => if dst ≤ j ∧ j < dst + n then s (src + (j - dst)) else s j) ∧
    kmemmove s dst src n = memmove s dst src n := by
  refine ⟨funext (memmove_apply s dst src n), ?_⟩
  ext1 j
  rw [memmove_apply]
  unfold kmemmove
  by_cases hn : n = 0
  · subst hn
    rw [if_pos rfl, if_neg (by omega)]
  · rw [if_neg hn]
    by_cases hov : src < dst ∧ src + n > dst
    · rw [if_pos hov]
      exact copyDown_apply (Nat.le_of_lt hov.1)
    · rw [if_neg hov]
      exact copyUp_apply (by omega)

end Memmove

/-! ## Strings -/

section Strings

variable {s : Mem} {p k : ℕ} {w line : List Char} {c : Char}

/-- The string at `p`, of less than `k` characters. -/
def cstr (s : Mem) : ℕ → ℕ → List Char
  | 0, _ => []
  | k + 1, p => if s p = NUL then [] else s p :: cstr s k (p + 1)

/-- `strchr`, of a string of less than `k` characters: the address of the first `c`. -/
def strchr (s : Mem) (c : Char) : ℕ → ℕ → Option ℕ
  | 0, _ => none
  | k + 1, p => if s p = NUL then none else if s p = c then some p else strchr s c k (p + 1)

theorem cstr_eq (h : Stands s p w) (hw : NUL ∉ w) (he : s (p + w.length) = NUL) (hk : w.length < k) : cstr s k p = w := by
  induction w generalizing p k with
  | nil =>
    cases k with
    | zero => rfl
    | succ k => rw [cstr, if_pos (by simpa using he)]
  | cons a w ih =>
    cases k with
    | zero => exact absurd hk (Nat.not_lt_zero _)
    | succ k =>
      rw [List.length_cons] at he hk
      have ha : s p ≠ NUL := fun h0 => hw (List.mem_cons.mpr (.inl (h0.symm.trans h.1)))
      rw [cstr, if_neg ha, h.1, ih h.2 (fun hm => hw (List.mem_cons_of_mem a hm)) (by rwa [Nat.add_assoc, Nat.add_comm 1]) (by omega)]

/-- There is no `c` in front of the first NUL. -/
def Hidden (c : Char) (w : List Char) : Prop := ∀ line rest, w = line ++ c :: rest → NUL ∈ line

/-- `strchr` finds the first `c`, or there is none in front of the first NUL. -/
theorem strchr_spec (hc : c ≠ NUL) (h : Stands s p w) (he : s (p + w.length) = NUL) (hk : w.length < k) :
    (strchr s c k p = none ∧ Hidden c w) ∨
    ∃ line rest, strchr s c k p = some (p + line.length) ∧ w = line ++ c :: rest ∧ c ∉ line ∧ NUL ∉ line := by
  induction w generalizing p k with
  | nil =>
    refine .inl ⟨?_, fun line rest h0 => ?_⟩
    · cases k with
      | zero => rfl
      | succ k => rw [strchr, if_pos (by simpa using he)]
    · simp at h0
  | cons a w ih =>
    cases k with
    | zero => exact absurd hk (Nat.not_lt_zero _)
    | succ k =>
      rw [List.length_cons] at he hk
      rw [strchr, h.1]
      split_ifs with ha hac
      · -- a NUL hides what comes after it
        refine .inl ⟨rfl, fun line rest h0 => ?_⟩
        cases line with
        | nil => exact absurd ((List.cons.inj h0).1.symm.trans ha) hc
        | cons b line =>
          rw [List.cons_append] at h0
          exact List.mem_cons.mpr (.inl (ha.symm.trans (List.cons.inj h0).1))
      · subst hac
        exact .inr ⟨[], w, rfl, rfl, List.not_mem_nil, List.not_mem_nil⟩
      · rcases ih h.2 (by rwa [Nat.add_assoc, Nat.add_comm 1]) (show w.length < k by omega) with
          ⟨h1, h2⟩ | ⟨line, rest, h1, rfl, h3, h4⟩
        · refine .inl ⟨h1, fun line rest h0 => ?_⟩
          cases line with
          | nil => exact absurd (List.cons.inj h0).1 hac
          | cons b line =>
            rw [List.cons_append] at h0
            exact List.mem_cons_of_mem b (h2 line rest (List.cons.inj h0).2)
        · refine .inr ⟨a :: line, rest, ?_, rfl, ?_, ?_⟩
          · rw [h1, List.length_cons, Nat.add_assoc, Nat.add_comm 1]
          · exact fun hm => (List.mem_cons.mp hm).elim (fun h0 => hac h0.symm) h3
          · exact fun hm => (List.mem_cons.mp hm).elim (fun h0 => ha h0.symm) h4

end Strings

end OsLabs.Xv6.User
