import OsLabs.Fallible
import OsLabs.Segment
import Mathlib.Algebra.Order.Ring.Int

/-!
# OsLabs.Debug.Selection — `selection_sort` and `binary_search` (debug/selection.c)

An `int` array has a length, and an access outside it stops the program.  The search keeps a window `[lo, hi)`, but on its way down it
sets `hi = mid-1`, as if `hi` stood for the last index of the window: the entry just below `mid` is then never looked at.

* `selectMax_spec`, `sortLoop_spec`: the suffix that is done is sorted and no smaller than what is left.
* `selectionSort_sorts`: `selection_sort` sorts every array and keeps to its indices.
* `probed n i`: the searches in a window of `n` entries can come to look at entry `i`.
* `binarySearch_right_iff`: the search is right exactly when the item is absent or stands at an index that can be looked at.
-/

namespace OsLabs.Debug.Selection

open Fallible Segment

/-! ## The program -/

/-- What stops the program: an access outside the array, a sum that is no `int`. -/
inductive Fault
  | outside
  | overflow
  deriving DecidableEq, Repr

/-- An `int` array of `size` entries. -/
structure Arr where
  entry : ℕ → ℤ
  size : ℕ

/-- `A[i]`. -/
def Arr.read (A : Arr) (i : ℤ) : Except Fault ℤ := if 0 ≤ i ∧ i < A.size then .ok (A.entry i.toNat) else .error .outside

/-- `A[i] = v`. -/
def Arr.write (A : Arr) (i v : ℤ) : Except Fault Arr :=
  if 0 ≤ i ∧ i < A.size then .ok { A with entry := Function.update A.entry i.toNat v } else .error .outside

/-- The inner loop of `selection_sort`: `c` rounds from `j` on; it returns `max`. -/
def selectMax (A : Arr) : ℕ → ℕ → ℕ → Except Fault ℕ
  | 0, _, max => .ok max
  | c + 1, j, max => do
    let x ← A.read j
    let y ← A.read max
    selectMax A c (j + 1) (if x > y then j else max)

/-- The outer loop of `selection_sort`, from `i` down to 1. -/
def sortLoop : ℕ → Arr → Except Fault Arr
  | 0, A => .ok A
  | i + 1, A => do
    let max ← selectMax A (i + 1) 1 0
    let temp ← A.read max
    let x ← A.read (i + 1 : ℕ)
    let A ← A.write max x
    let A ← A.write (i + 1 : ℕ) temp
    sortLoop i A

def selectionSort (A : Arr) (size : ℕ) : Except Fault Arr := sortLoop (size - 1) A

/-- `hi + lo`, as an `int`. -/
def intAdd (x y : ℤ) : Except Fault ℤ := if -2 ^ 31 ≤ x + y ∧ x + y < 2 ^ 31 then .ok (x + y) else .error .overflow

/-- The midpoint of a window, rounded towards zero as C does. -/
theorem mid_bounds {lo hi : ℤ} (h : lo < hi) : lo ≤ (hi + lo).tdiv 2 ∧ (hi + lo).tdiv 2 ≤ hi := by
  rw [Int.tdiv_eq_ediv]
  split_ifs
  · omega
  · rw [show (2 : ℤ).sign = 1 from rfl]
    omega

/-- The loop of `binary_search`. -/
def searchLoop (item : ℤ) (A : Arr) (lo hi : ℤ) : Except Fault ℤ :=
  if _ : hi ≤ lo then .ok 0
  else
    match intAdd hi lo with
    | .error e => .error e
    | .ok _ =>
      let mid := (hi + lo).tdiv 2
      match A.read mid with
      | .error e => .error e
      | .ok v =>
        if v = item then .ok 1
        else if item < v then searchLoop item A lo (mid - 1)
        else searchLoop item A (mid + 1) hi
termination_by (hi - lo).toNat
decreasing_by
  all_goals
    have := mid_bounds (show lo < hi by omega)
    omega

def binarySearch (item : ℤ) (A : Arr) (size : ℤ) : Except Fault ℤ := searchLoop item A 0 size

/-! ## Accesses -/

variable {A B : Arr} {item : ℤ} {n i j : ℕ}

theorem Arr.read_ok (h : i < A.size) : A.read i = .ok (A.entry i) := by
  rw [Arr.read, if_pos ⟨by omega, by omega⟩, Int.toNat_natCast]

theorem Arr.write_ok {v : ℤ} (h : i < A.size) : A.write i v = .ok { A with entry := Function.update A.entry i v } := by
  rw [Arr.write, if_pos ⟨by omega, by omega⟩, Int.toNat_natCast]

/-! ## selection_sort -/

/-- **The inner loop** returns the position of a largest entry among those it has been through. -/
theorem selectMax_spec : ∀ {c j max : ℕ}, j + c ≤ A.size → max < j → (∀ t, t < j → A.entry t ≤ A.entry max) →
    ∃ r, selectMax A c j max = .ok r ∧ r < j + c ∧ ∀ t, t < j + c → A.entry t ≤ A.entry r
  | 0, j, max, _, hmax, hle => ⟨max, rfl, hmax, hle⟩
  | c + 1, j, max, hc, hmax, hle => by
    unfold selectMax
    rw [Arr.read_ok (by omega), ok_bind, Arr.read_ok (by omega), ok_bind]
    have hle' : ∀ t, t < j + 1 → A.entry t ≤ A.entry (if A.entry j > A.entry max then j else max) := by
      intro t ht
      rcases Nat.lt_succ_iff_lt_or_eq.mp ht with ht | rfl
      · split_ifs with hlt
        · exact (hle t ht).trans hlt.le
        · exact hle t ht
      · split_ifs with hlt
        · exact le_rfl
        · exact not_lt.mp hlt
    obtain ⟨r, hr, hlt, hmost⟩ := selectMax_spec (c := c) (j := j + 1) (by omega) (by split_ifs <;> omega) hle'
    exact ⟨r, hr, by omega, fun t ht => hmost t (by omega)⟩

/-- The entries above `i` are where they belong. -/
def Arr.Placed (A : Arr) (i : ℕ) : Prop := ∀ s t, i < t → s ≤ t → t < A.size → A.entry s ≤ A.entry t

/-- The exchange at the end of a round. -/
theorem Arr.Placed.exch {max : ℕ} (h : A.Placed (i + 1)) (hmax : max ≤ i + 1) (hmost : ∀ t, t ≤ i + 1 → A.entry t ≤ A.entry max) :
    Arr.Placed { A with entry := exch A.entry (i + 1) max } i := by
  intro s t hit hst ht
  show Segment.exch A.entry (i + 1) max s ≤ Segment.exch A.entry (i + 1) max t
  have ht : t < A.size := ht
  rcases (by omega : t = i + 1 ∨ i + 1 < t) with rfl | hlt
  · -- the largest of what was left
    rw [exch_left]
    by_cases hs : s = i + 1
    · rw [hs, exch_left]
    by_cases hsm : s = max
    · rw [hsm, exch_right]
      exact hmost _ le_rfl
    · rw [exch_of_ne _ hs hsm]
      exact hmost s hst
  · rw [exch_of_ne A.entry (t := t) (by omega) (by omega)]
    by_cases hs : s = i + 1
    · rw [hs, exch_left]
      exact h max t hlt (by omega) ht
    by_cases hsm : s = max
    · rw [hsm, exch_right]
      exact h (i + 1) t hlt (by omega) ht
    · rw [exch_of_ne _ hs hsm]
      exact h s t hlt hst ht

/-- **The outer loop.** -/
theorem sortLoop_spec : ∀ {i : ℕ} {A : Arr}, i < A.size → A.Placed i → ∃ B, sortLoop i A = .ok B ∧ B.size = A.size ∧
    (seg B.entry 0 A.size).Perm (seg A.entry 0 A.size) ∧ B.Placed 0
  | 0, A, _, hp => ⟨A, rfl, rfl, .refl _, hp⟩
  | i + 1, A, hi, hp => by
    obtain ⟨max, hsel, hlt, hmost⟩ := @selectMax_spec A (i + 1) 1 0 (by omega) Nat.one_pos
      fun t ht => by rw [Nat.lt_one_iff.mp ht]
    unfold sortLoop
    rw [hsel, ok_bind, Arr.read_ok (by omega), ok_bind, Arr.read_ok hi, ok_bind, Arr.write_ok (by omega), ok_bind]
    rw [Arr.write_ok (A := { A with entry := Function.update A.entry max (A.entry (i + 1)) }) hi, ok_bind]
    have hp' : Arr.Placed { A with entry := exch A.entry (i + 1) max } i :=
      hp.exch (by omega) fun t ht => hmost t (by omega)
    obtain ⟨B, hB, hsize, hperm, hplaced⟩ := sortLoop_spec (i := i) (A := { A with entry := exch A.entry (i + 1) max })
      (Nat.lt_of_succ_lt hi) hp'
    exact ⟨B, hB, hsize, hperm.trans (seg_exch_perm hi (show max < A.size by omega)), hplaced⟩

/-- **`selection_sort` sorts.**  For every array of every length it ends, keeps to the indices of the array, and leaves it a sorted
permutation of what it was. -/
theorem selectionSort_sorts (A : Arr) :
    ∃ B, selectionSort A A.size = .ok B ∧ B.size = A.size ∧ SortedPerm B.entry A.entry 0 A.size := by
  unfold selectionSort
  rcases Nat.eq_zero_or_pos A.size with h0 | hpos
  · refine ⟨A, by rw [h0]; rfl, rfl, ?_, .refl _⟩
    rw [h0]
    exact List.Pairwise.nil
  · obtain ⟨B, hB, hsize, hperm, hp⟩ := sortLoop_spec (i := A.size - 1) (A := A) (by omega) fun s t h1 _ h2 => by omega
    refine ⟨B, hB, hsize, ?_, hperm⟩
    rw [sorted_seg_iff]
    intro s t _ hst ht
    rcases Nat.eq_zero_or_pos t with rfl | ht0
    · rw [Nat.le_zero.mp hst]
    · exact hp s t ht0 hst (by omega)

/-! ## binary_search -/

/-- The searches in a window of `n` entries that can come to look at entry `i` of it: the way there passes the midpoints, and
below a midpoint the window ends one entry early. -/
def probed (n i : ℕ) : Bool :=
  if n = 0 then false
  else if i < n / 2 then probed (n / 2 - 1) i
  else if i = n / 2 then true
  else probed (n - n / 2 - 1) (i - n / 2 - 1)
termination_by n

theorem lt_of_probed (h : probed n i = true) : i < n := by
  fun_induction probed n i with
  | case1 => cases h
  | case2 n i hn hlt ih => omega
  | case3 n hn hlt => omega
  | case4 n i hn hlt hne ih =>
    have := ih h
    omega

/-- The entry just below the midpoint is never looked at. -/
theorem probed_below_mid (hn : 2 ≤ n) : probed n (n / 2 - 1) = false := by
  rw [probed, if_neg (by omega), if_pos (by omega)]
  exact Bool.eq_false_iff.mpr fun h => by
    have := lt_of_probed h
    omega

/-- The array is sorted. -/
def Arr.Sorted (A : Arr) : Prop := ∀ i j, i ≤ j → j < A.size → A.entry i ≤ A.entry j

/-- `item` is one of the entries. -/
def Arr.Has (A : Arr) (item : ℤ) : Prop := ∃ i, i < A.size ∧ A.entry i = item

/-- The call returns, without leaving the array: 1 if `P` holds, 0 if not. -/
def Answers (x : Except Fault ℤ) (P : Prop) : Prop := ∃ r, x = .ok r ∧ (r = 0 ∨ r = 1) ∧ (r = 1 ↔ P)

theorem Answers.congr {x : Except Fault ℤ} {P Q : Prop} (h : Answers x P) (hPQ : P ↔ Q) : Answers x Q := by
  obtain ⟨r, hr, h01, h1⟩ := h
  exact ⟨r, hr, h01, h1.trans hPQ⟩

/-- **The loop.**  In the window of `n` entries from `lo` on it finds `item` exactly where it can be looked at. -/
theorem searchLoop_spec (hs : A.Sorted) {lo : ℕ} {hi : ℤ} (hn : (hi - lo).toNat = n) (hhi : hi ≤ A.size)
    (hfit : searchLoop item A lo hi ≠ .error .overflow) :
    Answers (searchLoop item A lo hi) (∃ i, lo ≤ i ∧ i < lo + n ∧ A.entry i = item ∧ probed n (i - lo) = true) := by
  induction n using Nat.strong_induction_on generalizing lo hi with
  | _ n ih =>
    unfold searchLoop at hfit ⊢
    split_ifs at hfit ⊢ with hle
    · -- the window is empty
      refine ⟨0, rfl, .inl rfl, iff_of_false (by decide) ?_⟩
      rintro ⟨i, h1, h2, -⟩
      omega
    · have hpos : 0 < n := by omega
      have hmid : (hi + lo).tdiv 2 = (lo + n / 2 : ℕ) := by
        rw [Int.tdiv_eq_ediv_of_nonneg (by omega)]
        omega
      unfold intAdd at hfit ⊢
      split_ifs at hfit ⊢ with hsum
      · rw [hmid] at hfit ⊢
        dsimp only at hfit ⊢
        rw [Arr.read_ok (by omega)] at hfit ⊢
        dsimp only at hfit ⊢
        split_ifs at hfit ⊢ with heq hlt
        · -- found at the midpoint
          refine ⟨1, rfl, .inr rfl, iff_of_true rfl ⟨lo + n / 2, by omega, by omega, heq, ?_⟩⟩
          rw [probed, if_neg (by omega), if_neg (by omega), if_pos (by omega)]
        · -- below the midpoint
          refine (ih (n / 2 - 1) (by omega) (by omega) (by omega) hfit).congr ⟨?_, ?_⟩
          · rintro ⟨i, h1, h2, h3, h4⟩
            refine ⟨i, h1, by omega, h3, ?_⟩
            rw [probed, if_neg (by omega), if_pos (by omega)]
            exact h4
          · rintro ⟨i, h1, h2, h3, h4⟩
            have hi' : i < lo + n / 2 := by
              by_contra hge
              have := hs (lo + n / 2) i (by omega) (by omega)
              omega
            rw [probed, if_neg (by omega), if_pos (by omega)] at h4
            have := lt_of_probed h4
            exact ⟨i, h1, by omega, h3, h4⟩
        · -- above the midpoint
          have hcast : ((lo + n / 2 : ℕ) : ℤ) + 1 = (lo + n / 2 + 1 : ℕ) := by omega
          rw [hcast] at hfit ⊢
          refine (ih (n - n / 2 - 1) (by omega) (by omega) hhi hfit).congr ⟨?_, ?_⟩
          · rintro ⟨i, h1, h2, h3, h4⟩
            refine ⟨i, by omega, by omega, h3, ?_⟩
            rw [probed, if_neg (by omega), if_neg (by omega), if_neg (by omega), show i - lo - n / 2 - 1 = i - (lo + n / 2 + 1) by omega]
            exact h4
          · rintro ⟨i, h1, h2, h3, h4⟩
            have hi' : lo + n / 2 < i := by
              by_contra hge
              have := hs i (lo + n / 2) (by omega) (by omega)
              rcases (by omega : i = lo + n / 2 ∨ i < lo + n / 2) with rfl | h
              · exact heq h3
              · omega
            rw [probed, if_neg (by omega), if_neg (by omega), if_neg (by omega),
              show i - lo - n / 2 - 1 = i - (lo + n / 2 + 1) by omega] at h4
            exact ⟨i, by omega, by omega, h3, h4⟩
      · exact absurd rfl hfit

/-- No sum overflows when twice the size is in the range of `int`. -/
theorem searchLoop_fits (hfit : 2 * A.size ≤ 2 ^ 31) {lo hi : ℤ} (hn : (hi - lo).toNat = n) (hlo : 0 ≤ lo) (hhi : hi ≤ A.size) :
    searchLoop item A lo hi ≠ .error .overflow := by
  induction n using Nat.strong_induction_on generalizing lo hi with
  | _ n ih =>
    unfold searchLoop
    split_ifs with hle
    · exact fun h => by cases h
    · have hmid := mid_bounds (not_le.mp hle)
      rw [intAdd, if_pos (by omega)]
      dsimp only
      unfold Arr.read
      split_ifs with hin
      · dsimp only
        split_ifs
        · exact fun h => by cases h
        · exact ih _ (by omega) rfl hlo (by omega)
        · exact ih _ (by omega) rfl (by omega) hhi
      · exact fun h => by cases h

/-- What the search tells: whether `item` stands at an index that can be looked at. -/
theorem binarySearch_answers (hs : A.Sorted) (hfit : binarySearch item A A.size ≠ .error .overflow) :
    Answers (binarySearch item A A.size) (∃ i, A.entry i = item ∧ probed A.size i = true) := by
  refine (@searchLoop_spec A item A.size hs 0 A.size (by omega) le_rfl hfit).congr ⟨?_, ?_⟩
  · rintro ⟨i, -, -, h3, h4⟩
    exact ⟨i, h3, h4⟩
  · rintro ⟨i, h3, h4⟩
    have := lt_of_probed h4
    exact ⟨i, by omega, by omega, h3, h4⟩

/-- **When the search is right.**  For every sorted array and every item the search ends and keeps to the array; it tells whether the item
is there exactly when the item is absent or stands at an index that can be looked at. -/
theorem binarySearch_right_iff (A : Arr) (item : ℤ) (hs : A.Sorted) (hfit : binarySearch item A A.size ≠ .error .overflow) :
    Answers (binarySearch item A A.size) (A.Has item) ↔ ¬ A.Has item ∨ ∃ i, A.entry i = item ∧ probed A.size i = true := by
  obtain ⟨r, hr, h01, h1⟩ := binarySearch_answers hs hfit
  constructor
  · rintro ⟨r', hr', -, h1'⟩
    obtain rfl := Except.ok.inj (hr.symm.trans hr')
    exact (em (A.Has item)).elim (fun h => .inr (h1.mp (h1'.mpr h))) .inl
  · intro h
    refine ⟨r, hr, h01, fun h2 => ?_, fun hhas => h1.mpr (h.resolve_left fun hno => hno hhas)⟩
    obtain ⟨i, h3, h4⟩ := h1.mp h2
    exact ⟨i, lt_of_probed h4, h3⟩

/-- An item whose only place is just below the middle of the array is not found. -/
theorem binarySearch_misses (hs : A.Sorted) (hfit : binarySearch (A.entry (A.size / 2 - 1)) A A.size ≠ .error .overflow)
    (h2 : 2 ≤ A.size) (hone : ∀ i, i < A.size → A.entry i = A.entry (A.size / 2 - 1) → i = A.size / 2 - 1) :
    binarySearch (A.entry (A.size / 2 - 1)) A A.size = .ok 0 := by
  obtain ⟨r, hr, h01, h1⟩ := binarySearch_answers hs hfit
  rcases h01 with rfl | rfl
  · exact hr
  · obtain ⟨i, h3, h4⟩ := h1.mp rfl
    rw [hone i (lt_of_probed h4) h3, probed_below_mid h2] at h4
    cases h4

/-- The array 17, 27, 45. -/
def three : Arr := ⟨fun i => if i = 0 then 17 else if i = 1 then 27 else 45, 3⟩

theorem three_sorted : three.Sorted := by
  intro i j hij hj
  have hj : j < 3 := hj
  simp only [three]
  split_ifs <;> omega

theorem three_fits (item : ℤ) : binarySearch item three three.size ≠ .error .overflow :=
  searchLoop_fits (by decide) rfl le_rfl le_rfl

/-- The first of three entries is not found, the second is. -/
theorem binarySearch_right_iff_three : Answers (binarySearch 27 three three.size) (three.Has 27) :=
  (binarySearch_right_iff three 27 three_sorted (three_fits 27)).mpr (.inr ⟨1, rfl, by decide +kernel⟩)

/-- 17 is in the array 17, 27, 45, and the search says that it is not. -/
theorem binarySearch_misses_first : three.Sorted ∧ binarySearch 17 three three.size ≠ .error .overflow ∧
    ¬ Answers (binarySearch 17 three three.size) (three.Has 17) := by
  refine ⟨three_sorted, three_fits 17, ?_⟩
  have h0 : binarySearch 17 three three.size = .ok 0 :=
    binarySearch_misses three_sorted (three_fits 17) (by decide) fun i hi h => by
      have hi : i < 3 := hi
      simp only [three] at h ⊢
      split_ifs at h <;> omega
  rintro ⟨r, hr, -, h1⟩
  obtain rfl := Except.ok.inj (h0.symm.trans hr)
  exact absurd (h1.mpr ⟨0, by decide, rfl⟩) (by decide)

end OsLabs.Debug.Selection
