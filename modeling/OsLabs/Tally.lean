import Mathlib.Algebra.BigOperators.Group.Finset.Piecewise
import Mathlib.Algebra.BigOperators.Fin
import Mathlib.Algebra.Order.BigOperators.Group.Finset
import Mathlib.Tactic.Abel

/-!
# OsLabs.Tally — sums over a table

A finite table `f : ι → M` with values in a commutative monoid, summed over its index.  What one write to the table does to the sum is
stated without subtraction, so it serves numbers and multisets alike.

* `sum_write`: one entry changes.
* `sum_write_le`: one entry changes and no other gets larger.
* `tally`: how often a value stands in a table of optional values.
-/

namespace OsLabs.Tally

variable {ι β M : Type*} [Fintype ι]

section Sum

variable [DecidableEq ι] [AddCommMonoid M]

/-- **One write.**  The table `g` is `f` but for the entry at `i`. -/
theorem sum_write {f g : ι → M} {i : ι} (h : ∀ j, j ≠ i → g j = f j) : (∑ j, g j) + f i = (∑ j, f j) + g i := by
  have hrest : ∑ j ∈ Finset.univ.erase i, g j = ∑ j ∈ Finset.univ.erase i, f j :=
    Finset.sum_congr rfl fun j hj => h j (Finset.ne_of_mem_erase hj)
  calc (∑ j, g j) + f i = g i + (∑ j ∈ Finset.univ.erase i, g j) + f i := by
        rw [Finset.add_sum_erase _ g (Finset.mem_univ i)]
    _ = f i + (∑ j ∈ Finset.univ.erase i, f j) + g i := by
        rw [hrest]
        abel
    _ = (∑ j, f j) + g i := by
        rw [Finset.add_sum_erase _ f (Finset.mem_univ i)]

/-- One entry changes, and no other gets larger. -/
theorem sum_write_le [Preorder M] [AddLeftMono M] {f g : ι → M} {i : ι} (h : ∀ j, j ≠ i → g j ≤ f j) :
    (∑ j, g j) + f i ≤ (∑ j, f j) + g i := by
  have hrest : ∑ j ∈ Finset.univ.erase i, g j ≤ ∑ j ∈ Finset.univ.erase i, f j :=
    Finset.sum_le_sum fun j hj => h j (Finset.ne_of_mem_erase hj)
  calc (∑ j, g j) + f i = (f i + g i) + ∑ j ∈ Finset.univ.erase i, g j := by
        rw [← Finset.add_sum_erase _ g (Finset.mem_univ i)]
        abel
    _ ≤ (f i + g i) + ∑ j ∈ Finset.univ.erase i, f j := add_le_add_right hrest _
    _ = (∑ j, f j) + g i := by
        rw [← Finset.add_sum_erase _ f (Finset.mem_univ i)]
        abel

end Sum

section Tally

variable [DecidableEq β]

/-- How often `b` stands in the table. -/
def tally (f : ι → Option β) (b : β) : ℕ := ∑ i, if f i = some b then 1 else 0

theorem tally_none {f : ι → Option β} (h : ∀ i, f i = none) (b : β) : tally f b = 0 := by
  simp [tally, h]

theorem tally_eq_zero {f : ι → Option β} {b : β} : tally f b = 0 ↔ ∀ i, f i ≠ some b := by
  simp [tally]

theorem tally_pos {f : ι → Option β} {i : ι} {b : β} (h : f i = some b) : 1 ≤ tally f b := by
  rw [Nat.one_le_iff_ne_zero, ne_eq, tally_eq_zero]
  exact fun hall => hall i h

/-- One entry is written. -/
theorem tally_write [DecidableEq ι] {f g : ι → Option β} {i : ι} (h : ∀ j, j ≠ i → g j = f j) (b : β) :
    tally g b + (if f i = some b then 1 else 0) = tally f b + (if g i = some b then 1 else 0) :=
  sum_write (f := fun i => if f i = some b then 1 else 0) (g := fun i => if g i = some b then 1 else 0)
    fun j hj => by rw [h j hj]

/-- Entries taken from a second table where the first has none. -/
theorem tally_orElse {f g : ι → Option β} (h : ∀ i, f i = none → g i = none) (b : β) :
    tally (fun i => if (f i).isSome then f i else g i) b = tally f b := by
  unfold tally
  refine Finset.sum_congr rfl fun i _ => ?_
  cases hf : f i with
  | none => simp [hf, h i hf]
  | some c => simp [hf]

end Tally

/-- The tally of a table over `Fin n` along the list of its indices. -/
theorem tally_eq_countP {n : ℕ} {β : Type*} [DecidableEq β] (f : Fin n → Option β) (b : β) :
    tally f b = (List.finRange n).countP fun i => f i = some b := by
  rw [tally, Fin.sum_univ_def, List.countP_eq_length_filter]
  induction List.finRange n with
  | nil => rfl
  | cons i l ih =>
    by_cases h : f i = some b
    · simp [h, ih]
      omega
    · simp [h, ih]

end OsLabs.Tally
