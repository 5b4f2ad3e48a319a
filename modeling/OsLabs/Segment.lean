import Mathlib.Data.List.Basic
import Mathlib.Data.List.Nodup
import Mathlib.Data.List.Range
import Mathlib.Data.List.Perm.Basic
import Mathlib.Order.Lattice
import Mathlib.Logic.Equiv.Basic

/-!
# OsLabs.Segment — stretches of an array

An array is a function from indices to values; what stands at `n` indices from `s` on is the list `seg a s n`.

* `seg_add`: a stretch cut in two.
* `exch`: two entries exchanged; inside a stretch that is a permutation.
* `SortedPerm b a s n`: in `b` the stretch is sorted and a permutation of what it is in `a`; there is only one such `b` that
  agrees with `a` elsewhere.
* `inversions`: how far a list is from being sorted; exchanging two neighbours in the wrong order brings it down.
-/

namespace OsLabs.Segment

variable {α : Type*} {a b : ℕ → α} {s n m i j : ℕ}

/-- What stands at the `n` indices from `s` on. -/
def seg (a : ℕ → α) (s n : ℕ) : List α := (List.range n).map fun i => a (s + i)

@[simp] theorem seg_zero (a : ℕ → α) (s : ℕ) : seg a s 0 = [] := rfl

@[simp] theorem length_seg (a : ℕ → α) (s n : ℕ) : (seg a s n).length = n := by simp [seg]

theorem mem_seg {x : α} : x ∈ seg a s n ↔ ∃ i, s ≤ i ∧ i < s + n ∧ a i = x := by
  simp only [seg, List.mem_map, List.mem_range]
  constructor
  · rintro ⟨i, hi, rfl⟩
    exact ⟨s + i, by omega, by omega, rfl⟩
  · rintro ⟨i, h1, h2, rfl⟩
    exact ⟨i - s, by omega, by rw [show s + (i - s) = i by omega]⟩

theorem seg_congr (h : ∀ i, s ≤ i → i < s + n → a i = b i) : seg a s n = seg b s n := by
  refine List.map_congr_left fun i hi => ?_
  exact h (s + i) (by omega) (by have := List.mem_range.mp hi; omega)

/-- A stretch cut in two. -/
theorem seg_add (a : ℕ → α) (s n m : ℕ) : seg a s (n + m) = seg a s n ++ seg a (s + n) m := by
  simp only [seg, List.range_add, List.map_append, List.map_map]
  congr 1
  refine List.map_congr_left fun i _ => ?_
  simp only [Function.comp, Nat.add_assoc]

theorem seg_one (a : ℕ → α) (s : ℕ) : seg a s 1 = [a s] := rfl

/-- The first entry split off. -/
theorem seg_succ (a : ℕ → α) (s n : ℕ) : seg a s (n + 1) = a s :: seg a (s + 1) n := by
  rw [Nat.add_comm n 1, seg_add, seg_one]
  rfl

/-! ## Exchanging entries -/

/-- Exchange the entries at `i` and `j`. -/
def exch (a : ℕ → α) (i j : ℕ) : ℕ → α := Function.update (Function.update a j (a i)) i (a j)

theorem exch_left (a : ℕ → α) (i j : ℕ) : exch a i j i = a j := by simp [exch]

theorem exch_right (a : ℕ → α) (i j : ℕ) : exch a i j j = a i := by
  unfold exch
  by_cases h : j = i
  · subst h
    simp
  · rw [Function.update_of_ne h, Function.update_self]

theorem exch_of_ne (a : ℕ → α) {i j t : ℕ} (hi : t ≠ i) (hj : t ≠ j) : exch a i j t = a t := by
  rw [exch, Function.update_of_ne hi, Function.update_of_ne hj]

theorem exch_eq_comp (a : ℕ → α) (i j : ℕ) : exch a i j = a ∘ Equiv.swap i j := by
  funext t
  by_cases hi : t = i
  · subst hi
    simp [exch_left]
  by_cases hj : t = j
  · subst hj
    simp [exch_right]
  · rw [exch_of_ne a hi hj, Function.comp, Equiv.swap_apply_of_ne_of_ne hi hj]

/-- An exchange inside the stretch permutes it. -/
theorem seg_exch_perm (hi : i < n) (hj : j < n) : (seg (exch a i j) 0 n).Perm (seg a 0 n) := by
  have hperm : ((List.range n).map (Equiv.swap i j)).Perm (List.range n) := by
    rw [List.perm_ext_iff_of_nodup (List.Nodup.map (Equiv.injective _) List.nodup_range) List.nodup_range]
    intro t
    rw [List.mem_map]
    constructor
    · rintro ⟨u, hu, rfl⟩
      rw [List.mem_range] at hu ⊢
      rw [Equiv.swap_apply_def]
      split_ifs <;> omega
    · intro ht
      refine ⟨Equiv.swap i j t, ?_, Equiv.swap_apply_self i j t⟩
      rw [List.mem_range] at ht ⊢
      rw [Equiv.swap_apply_def]
      split_ifs <;> omega
  have heq : seg (exch a i j) 0 n = ((List.range n).map (Equiv.swap i j)).map a := by
    rw [exch_eq_comp, List.map_map]
    simp [seg]
  have heq' : seg a 0 n = (List.range n).map a := by simp [seg]
  rw [heq, heq']
  exact hperm.map a

/-- Two neighbours exchanged. -/
theorem seg_exch_next (a : ℕ → α) (h : i + 1 < n) :
    ∃ p q, seg a 0 n = p ++ a i :: a (i + 1) :: q ∧ seg (exch a i (i + 1)) 0 n = p ++ a (i + 1) :: a i :: q := by
  obtain ⟨m, rfl⟩ : ∃ m, n = i + (m + 1 + 1) := ⟨n - i - 2, by omega⟩
  refine ⟨seg a 0 i, seg a (i + 1 + 1) m, ?_, ?_⟩
  · rw [seg_add, Nat.zero_add, seg_succ, seg_succ]
  · rw [seg_add, Nat.zero_add, seg_succ, seg_succ, exch_left, exch_right]
    have h1 : seg (exch a i (i + 1)) 0 i = seg a 0 i :=
      seg_congr fun t _ ht => exch_of_ne a (by omega) (by omega)
    have h2 : seg (exch a i (i + 1)) (i + 1 + 1) m = seg a (i + 1 + 1) m :=
      seg_congr fun t ht _ => exch_of_ne a (by omega) (by omega)
    rw [h1, h2]

/-! ## Sorted stretches -/

section Order

variable [LinearOrder α]

theorem sorted_seg_iff : (seg a s n).Pairwise (· ≤ ·) ↔ ∀ i j, s ≤ i → i ≤ j → j < s + n → a i ≤ a j := by
  rw [seg, List.pairwise_map, List.pairwise_iff_getElem]
  constructor
  · intro h i j hi hij hj
    rcases hij.lt_or_eq with hlt | rfl
    · have := h (i - s) (j - s) (by simp; omega) (by simp; omega) (by omega)
      simpa [show s + (i - s) = i by omega, show s + (j - s) = j by omega] using this
    · exact le_rfl
  · intro h i j hi hj hij
    rw [List.length_range] at hj
    simp only [List.getElem_range]
    exact h (s + i) (s + j) (by omega) (by omega) (by omega)

/-- In `b` the stretch is sorted, and it is a permutation of what it is in `a`. -/
structure SortedPerm (b a : ℕ → α) (s n : ℕ) : Prop where
  sorted : (seg b s n).Pairwise (· ≤ ·)
  perm : (seg b s n).Perm (seg a s n)

/-- **There is one way to sort a stretch.** -/
theorem SortedPerm.unique {b' : ℕ → α} (h : SortedPerm b a s n) (h' : SortedPerm b' a s n)
    (hout : ∀ i, ¬ (s ≤ i ∧ i < s + n) → b i = a i) (hout' : ∀ i, ¬ (s ≤ i ∧ i < s + n) → b' i = a i) : b = b' := by
  have heq : seg b s n = seg b' s n := (h.perm.trans h'.perm.symm).eq_of_pairwise (fun _ _ _ _ => le_antisymm) h.sorted h'.sorted
  funext i
  by_cases hi : s ≤ i ∧ i < s + n
  · have hb : (seg b s n)[i - s]? = (seg b' s n)[i - s]? := by rw [heq]
    have hlt : i - s < n := by omega
    simpa [seg, hlt, show s + (i - s) = i by omega] using hb
  · rw [hout i hi, hout' i hi]

/-- How often a larger element stands before a smaller one. -/
def inversions : List α → ℕ
  | [] => 0
  | x :: xs => xs.countP (· < x) + inversions xs

/-- Two neighbours in the wrong order, exchanged. -/
theorem inversions_exch (p q : List α) {x y : α} (h : y < x) :
    inversions (p ++ y :: x :: q) + 1 = inversions (p ++ x :: y :: q) := by
  induction p with
  | nil =>
    have hxy : ¬ x < y := not_lt.mpr h.le
    simp only [List.nil_append, inversions, List.countP_cons, h, hxy, decide_true, decide_false, if_true]
    simp only [Bool.false_eq_true, if_false]
    omega
  | cons z p ih =>
    have hperm : (p ++ y :: x :: q).Perm (p ++ x :: y :: q) := (List.Perm.swap x y q).append_left p
    simp only [List.cons_append, inversions, hperm.countP_eq]
    omega

end Order

end OsLabs.Segment
