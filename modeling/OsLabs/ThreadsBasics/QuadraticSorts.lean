import OsLabs.Segment
import Mathlib.Algebra.Order.Ring.Int

/-!
# OsLabs.ThreadsBasics.QuadraticSorts — `BruteForceSort` and `BubbleSort` (thread_sorting/threadSort.c)

An `int` array is a function from indices to integers.  A `for` loop recurses on the number of rounds left.  The `while` loop of
`BubbleSort` has no counter, so it runs on a number of rounds that may turn out too small; `bubbleSort_terminates` says that some number is
enough.

* `bruteForceSort_spec`: after round `i` the entry at `i` is no larger than any after it.
* `bubblePass_spec`: a pass that exchanges something leaves fewer inversions; one that does not has seen a sorted array.
* `quadratic_sorts_agree`: both sort, so they leave the same array.
-/

namespace OsLabs.ThreadsBasics.QuadraticSorts

open Segment

variable {a b : ℕ → ℤ} {n : ℕ}

/-! ## The program -/

/-- The inner loop of `BruteForceSort`: `c` rounds from `j` on. -/
def bruteForceInner (i : ℕ) : ℕ → ℕ → (ℕ → ℤ) → ℕ → ℤ
  | 0, _, inputList => inputList
  | c + 1, j, inputList =>
    bruteForceInner i c (j + 1) (if inputList j < inputList i then exch inputList i j else inputList)

/-- The outer loop of `BruteForceSort`: `c` rounds from `i` on. -/
def bruteForceOuter (inputLength : ℕ) : ℕ → ℕ → (ℕ → ℤ) → ℕ → ℤ
  | 0, _, inputList => inputList
  | c + 1, i, inputList =>
    bruteForceOuter inputLength c (i + 1) (bruteForceInner i (inputLength - (i + 1)) (i + 1) inputList)

def bruteForceSort (inputList : ℕ → ℤ) (inputLength : ℕ) : ℕ → ℤ := bruteForceOuter inputLength inputLength 0 inputList

/-- The `for` loop of `BubbleSort`: `c` rounds from `i` on; it also returns `sorted`. -/
def bubbleFor : ℕ → ℕ → (ℕ → ℤ) → Bool → (ℕ → ℤ) × Bool
  | 0, _, inputList, sorted => (inputList, sorted)
  | c + 1, i, inputList, sorted =>
    if inputList i < inputList (i - 1) then bubbleFor c (i + 1) (exch inputList (i - 1) i) false
    else bubbleFor c (i + 1) inputList sorted

/-- One round of the `while` loop of `BubbleSort`. -/
def bubblePass (inputLength : ℕ) (inputList : ℕ → ℤ) : (ℕ → ℤ) × Bool := bubbleFor (inputLength - 1) 1 inputList true

/-- `BubbleSort`, as long as `rounds` rounds of its `while` loop are enough. -/
def bubbleSort (inputLength : ℕ) : ℕ → (ℕ → ℤ) → Option (ℕ → ℤ)
  | 0, _ => none
  | rounds + 1, inputList =>
    if (bubblePass inputLength inputList).2 then some (bubblePass inputLength inputList).1
    else bubbleSort inputLength rounds (bubblePass inputLength inputList).1

/-! ## Rearrangements -/

/-- `b` is `a` with the entries below `n` rearranged. -/
structure Rearranged (n : ℕ) (a b : ℕ → ℤ) : Prop where
  perm : (seg b 0 n).Perm (seg a 0 n)
  other : ∀ t, n ≤ t → b t = a t

theorem Rearranged.refl (n : ℕ) (a : ℕ → ℤ) : Rearranged n a a := ⟨.refl _, fun _ _ => rfl⟩

theorem Rearranged.trans {c : ℕ → ℤ} (h1 : Rearranged n a b) (h2 : Rearranged n b c) : Rearranged n a c :=
  ⟨h2.perm.trans h1.perm, fun t ht => (h2.other t ht).trans (h1.other t ht)⟩

theorem Rearranged.exch {i j : ℕ} (hi : i < n) (hj : j < n) : Rearranged n a (exch a i j) :=
  ⟨seg_exch_perm hi hj, fun t ht => exch_of_ne a (by omega) (by omega)⟩

/-! ## BruteForceSort -/

/-- The entries below `i` are where they belong. -/
def Placed (n : ℕ) (a : ℕ → ℤ) (i : ℕ) : Prop := ∀ s t, s < i → s ≤ t → t < n → a s ≤ a t

/-- **The inner loop** puts the smallest of the remaining entries at `i`. -/
theorem bruteForceInner_spec {i : ℕ} : ∀ {c j : ℕ} {a : ℕ → ℤ}, i < j → j + c = n → Placed n a i →
    (∀ t, i ≤ t → t < j → a i ≤ a t) →
    Rearranged n a (bruteForceInner i c j a) ∧ Placed n (bruteForceInner i c j a) (i + 1)
  | 0, j, a, hij, hjn, hp, hmin => by
    refine ⟨.refl n a, fun s t hs hst ht => ?_⟩
    show a s ≤ a t
    rcases Nat.lt_succ_iff_lt_or_eq.mp hs with hs | rfl
    · exact hp s t hs hst ht
    · exact hmin t hst (by omega)
  | c + 1, j, a, hij, hjn, hp, hmin => by
    unfold bruteForceInner
    split_ifs with hlt
    · -- after the exchange the entry at `i` is the smallest so far
      have hp' : Placed n (exch a i j) i := by
        intro s t hs hst ht
        rw [exch_of_ne a (by omega) (by omega)]
        by_cases hti : t = i
        · rw [hti, exch_left]
          exact hp s j hs (by omega) (by omega)
        by_cases htj : t = j
        · rw [htj, exch_right]
          exact hp s i hs (by omega) (by omega)
        · rw [exch_of_ne a hti htj]
          exact hp s t hs hst ht
      have hmin' : ∀ t, i ≤ t → t < j + 1 → exch a i j i ≤ exch a i j t := by
        intro t hit htj
        rw [exch_left]
        by_cases hti : t = i
        · rw [hti, exch_left]
        by_cases htj' : t = j
        · rw [htj', exch_right]
          exact hlt.le
        · rw [exch_of_ne a hti htj']
          exact hlt.le.trans (hmin t hit (by omega))
      obtain ⟨hr, hpl⟩ := bruteForceInner_spec (c := c) (by omega : i < j + 1) (by omega) hp' hmin'
      exact ⟨(Rearranged.exch (by omega) (by omega)).trans hr, hpl⟩
    · refine bruteForceInner_spec (by omega) (by omega) hp fun t hit htj => ?_
      by_cases htj' : t = j
      · rw [htj']
        exact not_lt.mp hlt
      · exact hmin t hit (by omega)

theorem bruteForceOuter_spec : ∀ {c i : ℕ} {a : ℕ → ℤ}, i + c = n → Placed n a i →
    Rearranged n a (bruteForceOuter n c i a) ∧ Placed n (bruteForceOuter n c i a) n
  | 0, i, a, hin, hp => by
    obtain rfl : i = n := by omega
    exact ⟨.refl _ a, hp⟩
  | c + 1, i, a, hin, hp => by
    have hmin : ∀ t, i ≤ t → t < i + 1 → a i ≤ a t := by
      intro t hit hti
      rw [show t = i by omega]
    obtain ⟨hr, hpl⟩ := bruteForceInner_spec (c := n - (i + 1)) (Nat.lt_succ_self i) (by omega) hp hmin
    obtain ⟨hr', hpl'⟩ := bruteForceOuter_spec (c := c) (by omega) hpl
    exact ⟨hr.trans hr', hpl'⟩

/-- **`BruteForceSort` sorts.** -/
theorem bruteForceSort_spec (a : ℕ → ℤ) (n : ℕ) :
    Rearranged n a (bruteForceSort a n) ∧ (seg (bruteForceSort a n) 0 n).Pairwise (· ≤ ·) := by
  obtain ⟨hr, hp⟩ := bruteForceOuter_spec (n := n) (c := n) (i := 0) (a := a) (by omega) fun s t hs => by omega
  refine ⟨hr, sorted_seg_iff.mpr fun i j _ hij hj => ?_⟩
  exact hp i j (by omega) hij (by omega)

/-! ## BubbleSort -/

/-- **The `for` loop of `BubbleSort`.**  It only exchanges neighbours in the wrong order, so inversions get fewer; when it ends with
`sorted` set, there was nothing to exchange. -/
theorem bubbleFor_spec : ∀ {c i : ℕ} {a : ℕ → ℤ} (sorted : Bool), 0 < i → i + c ≤ n →
    Rearranged n a (bubbleFor c i a sorted).1 ∧
    (inversions (seg (bubbleFor c i a sorted).1 0 n) < inversions (seg a 0 n) ∧ (bubbleFor c i a sorted).2 = false ∨
      (bubbleFor c i a sorted).1 = a ∧ (bubbleFor c i a sorted).2 = sorted ∧ ∀ t, i ≤ t → t < i + c → a (t - 1) ≤ a t)
  | 0, i, a, sorted, _, _ => ⟨.refl n a, .inr ⟨rfl, rfl, fun t h1 h2 => by omega⟩⟩
  | c + 1, i, a, sorted, hi, hn => by
    unfold bubbleFor
    split_ifs with hlt
    · obtain ⟨t, rfl⟩ : ∃ t, i = t + 1 := ⟨i - 1, by omega⟩
      rw [Nat.add_sub_cancel] at hlt ⊢
      obtain ⟨p, q, hpq, hpq'⟩ := seg_exch_next a (show t + 1 < n by omega)
      have hdec : inversions (seg (exch a t (t + 1)) 0 n) < inversions (seg a 0 n) := by
        have := inversions_exch p q hlt
        rw [hpq, hpq']
        omega
      have hex : Rearranged n a (exch a t (t + 1)) := .exch (by omega) (by omega)
      obtain ⟨hr, h⟩ := bubbleFor_spec (c := c) (i := t + 1 + 1) (a := exch a t (t + 1)) false (by omega) (by omega)
      refine ⟨hex.trans hr, .inl ?_⟩
      rcases h with ⟨h1, h2⟩ | ⟨h1, h2, -⟩
      · exact ⟨h1.trans hdec, h2⟩
      · rw [h1]
        exact ⟨hdec, h2⟩
    · obtain ⟨hr, h⟩ := bubbleFor_spec (c := c) (i := i + 1) (a := a) sorted (by omega) (by omega)
      refine ⟨hr, h.imp_right fun ⟨h1, h2, h3⟩ => ⟨h1, h2, fun t ht ht' => ?_⟩⟩
      by_cases hti : t = i
      · rw [hti]
        exact not_lt.mp hlt
      · exact h3 t (by omega) (by omega)

/-- Entries that are in order with their neighbours are in order. -/
theorem sorted_of_neighbours (h : ∀ t, 1 ≤ t → t < n → a (t - 1) ≤ a t) : (seg a 0 n).Pairwise (· ≤ ·) := by
  rw [sorted_seg_iff]
  intro i j _ hij hj
  induction j, hij using Nat.le_induction with
  | base => exact le_rfl
  | succ j hij ih => exact (ih (by omega)).trans (h (j + 1) (by omega) (by omega))

/-- **A pass of `BubbleSort`** leaves fewer inversions, or ends the loop with a sorted array. -/
theorem bubblePass_spec (a : ℕ → ℤ) (n : ℕ) : Rearranged n a (bubblePass n a).1 ∧
    (inversions (seg (bubblePass n a).1 0 n) < inversions (seg a 0 n) ∧ (bubblePass n a).2 = false ∨
      (bubblePass n a).2 = true ∧ (seg (bubblePass n a).1 0 n).Pairwise (· ≤ ·)) := by
  unfold bubblePass
  by_cases hn : n = 0
  · subst hn
    exact ⟨.refl 0 a, .inr ⟨rfl, by simp⟩⟩
  · obtain ⟨hr, h⟩ := bubbleFor_spec (n := n) (c := n - 1) (i := 1) (a := a) true Nat.one_pos (by omega)
    refine ⟨hr, h.imp_right fun ⟨h1, h2, h3⟩ => ⟨h2, ?_⟩⟩
    rw [h1]
    exact sorted_of_neighbours fun t ht ht' => h3 t ht (by omega)

/-- What `BubbleSort` leaves when it comes to its end. -/
theorem bubbleSort_spec : ∀ {rounds : ℕ} {a : ℕ → ℤ}, bubbleSort n rounds a = some b → Rearranged n a b ∧ (seg b 0 n).Pairwise (· ≤ ·)
  | 0, _, h => by cases h
  | rounds + 1, a, h => by
    obtain ⟨hr, hpass⟩ := bubblePass_spec a n
    unfold bubbleSort at h
    split_ifs at h with hflag
    · obtain rfl := Option.some.inj h
      rcases hpass with ⟨-, hf⟩ | ⟨-, hs⟩
      · rw [hf] at hflag
        cases hflag
      · exact ⟨hr, hs⟩
    · obtain ⟨hr', hs⟩ := bubbleSort_spec h
      exact ⟨hr.trans hr', hs⟩

/-- **`BubbleSort` terminates and sorts.** -/
theorem bubbleSort_terminates (a : ℕ → ℤ) (n : ℕ) : ∃ rounds b, bubbleSort n rounds a = some b ∧ Rearranged n a b ∧
    (seg b 0 n).Pairwise (· ≤ ·) := by
  -- the inversions that are left
  induction hk : inversions (seg a 0 n) using Nat.strong_induction_on generalizing a with
  | _ k ih =>
    subst hk
    obtain ⟨hr, ⟨hlt, hflag⟩ | ⟨hflag, hs⟩⟩ := bubblePass_spec a n
    · obtain ⟨rounds, b, hb, hr', hs⟩ := ih _ hlt _ rfl
      exact ⟨rounds + 1, b, by simp [bubbleSort, hflag, hb], hr.trans hr', hs⟩
    · exact ⟨1, _, by simp [bubbleSort, hflag], hr, hs⟩

/-- **The quadratic sorts agree.**  For every array and length `BubbleSort` comes to its end, both sorts leave a sorted permutation of the
input, and they leave the same array. -/
theorem quadratic_sorts_agree (a : ℕ → ℤ) (n : ℕ) : ∃ rounds b, bubbleSort n rounds a = some b ∧ SortedPerm b a 0 n ∧
    SortedPerm (bruteForceSort a n) a 0 n ∧ b = bruteForceSort a n := by
  obtain ⟨rounds, b, hb, hr, hs⟩ := bubbleSort_terminates a n
  obtain ⟨hr', hs'⟩ := bruteForceSort_spec a n
  have h1 : SortedPerm b a 0 n := ⟨hs, hr.perm⟩
  have h2 : SortedPerm (bruteForceSort a n) a 0 n := ⟨hs', hr'.perm⟩
  refine ⟨rounds, b, hb, h1, h2, h1.unique h2 (fun i hi => hr.other i (by omega)) fun i hi => hr'.other i (by omega)⟩

end OsLabs.ThreadsBasics.QuadraticSorts
