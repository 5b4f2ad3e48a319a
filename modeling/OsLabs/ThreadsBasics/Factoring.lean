import OsLabs.Lts
import Mathlib.Data.List.Range
import Mathlib.Data.List.Nodup
import Mathlib.Data.List.Perm.Basic
import Mathlib.Algebra.Order.Ring.Int
import Mathlib.Tactic.Ring

/-!
# OsLabs.ThreadsBasics.Factoring — the split of the candidates (thread_factoring/factoring.c)

Every thread is handed the address of the loop variable of `main`, and takes from it the number of its share at some later time.  Share `v`
is `[range*(v-1), range*v)`, from 2 on for the first; the share that ends `left` before `target/2` is meant to be the last one and goes on
to `target/2`.

* `mem_testLoop`, `mem_tested`: what a share contains, as numbers without wrap-around.
* `run_seen`: the threads read numbers up to `numThreads`.
* `Exact`: all candidates are tested once.
* `Split`: some share goes on to `target/2`, and the shares up to it have one thread each.
* `exact_iff_split`: the two are the same.
-/

namespace OsLabs.ThreadsBasics.Factoring

open Lts

/-! ## The program -/

/-- A value of a C integer type, converted to `unsigned long long`. -/
def ull (x : ℤ) : ℕ := (x % 2 ^ 64).toNat

/-- `range`, for the given `target` and `numThreads`. -/
def range (target N : ℕ) : ℕ := target / (N * 2)

/-- `left`. -/
def left (target N : ℕ) : ℕ := target % N

/-- The `for` loop of `factor_function`: the candidates it tests, from `i` on. -/
def testLoop (stop i : ℕ) : List ℕ := if i < stop then i :: testLoop stop (i + 1) else []
termination_by stop - i

/-- `st` when the loop starts. -/
def start (target N : ℕ) (times : ℤ) : ℤ :=
  let realtimes := times - 1
  let st := range target N * realtimes
  if st = 0 then 2 else st

/-- `end` when the loop starts. -/
def stop (target N : ℕ) (times : ℤ) : ℤ :=
  let realtimes := times - 1
  let stop := range target N * realtimes + range target N
  if ull (stop + left target N) = target / 2 then stop + left target N + 1 else stop

/-- `factor_function`, when it reads `times`: the candidates it tests. -/
def tested (target N : ℕ) (times : ℤ) : List ℕ := testLoop (ull (stop target N times)) (ull (start target N times))

/-- The factors it reports. -/
def reported (target N : ℕ) (times : ℤ) : List ℕ := (tested target N times).filter fun i => target % i = 0

/-- The loop variable of `main`, how many threads it has created, and what each thread has read. -/
structure St where
  k : ℕ
  created : ℕ
  seen : ℕ → Option ℕ

inductive Act
  | create
  | next
  | read (i : ℕ)

/-- `pthread_create`, `k++`, and the read of `*arg` by a thread.  After the loop the variable keeps its last value. -/
inductive Step (N : ℕ) : St → Act → Unit → St → Prop
  | create {s} (hk : s.k < N) (h : s.created = s.k) : Step N s .create () { s with created := s.k + 1 }
  | next {s} (h : s.created = s.k + 1) : Step N s .next () { s with k := s.k + 1 }
  | read {s i} (hi : i < s.created) (h : s.seen i = none) : Step N s (.read i) () { s with seen := Function.update s.seen i (some s.k) }

def init : St := ⟨0, 0, fun _ => none⟩

/-- The candidates that all threads together test. -/
def candidates (target N : ℕ) (times : ℕ → ℕ) : List ℕ := (List.range N).flatMap fun i => tested target N (times i)

/-- The factors that all threads together report. -/
def reports (target N : ℕ) (times : ℕ → ℕ) : List ℕ := (List.range N).flatMap fun i => reported target N (times i)

/-! ## Runs -/

variable {target N R L v w c d : ℕ} {times : ℕ → ℕ}

/-- Threads are created while the loop runs, and read a number between their own and `numThreads`. -/
theorem run_seen {tr : List (Ev St Act Unit)} {t : St} (hrun : Run (Step N) always init tr t) :
    t.k ≤ t.created ∧ t.created ≤ t.k + 1 ∧ t.created ≤ N ∧ ∀ i x, t.seen i = some x → i ≤ x ∧ x ≤ N := by
  refine hrun.inv (I := fun t => t.k ≤ t.created ∧ t.created ≤ t.k + 1 ∧ t.created ≤ N ∧ ∀ i x, t.seen i = some x → i ≤ x ∧ x ≤ N)
    ⟨le_rfl, Nat.zero_le _, Nat.zero_le _, fun i x h => by cases h⟩ ?_
  rintro s a o s' ⟨h1, h2, h3, h4⟩ - hst
  cases hst with
  | create hk h => exact ⟨Nat.le_succ _, le_rfl, hk, h4⟩
  | next h => exact ⟨h.ge, by dsimp only; omega, h3, h4⟩
  | @read i hi h =>
    refine ⟨h1, h2, h3, fun j x hx => ?_⟩
    dsimp only at hx
    by_cases hj : j = i
    · subst hj
      rw [Function.update_self] at hx
      obtain rfl := Option.some.inj hx
      omega
    · rw [Function.update_of_ne hj] at hx
      exact h4 j x hx

/-! ## Shares -/

theorem mem_testLoop : c ∈ testLoop v w ↔ w ≤ c ∧ c < v := by
  fun_induction testLoop v w with
  | case1 w hlt ih =>
    rw [List.mem_cons, ih]
    omega
  | case2 w hge =>
    simp only [List.not_mem_nil, false_iff]
    omega

theorem nodup_testLoop (v w : ℕ) : (testLoop v w).Nodup := by
  fun_induction testLoop v w with
  | case1 w hlt ih =>
    refine List.nodup_cons.mpr ⟨fun h => ?_, ih⟩
    have := (mem_testLoop.mp h).1
    omega
  | case2 w hge => exact List.nodup_nil

/-- The first candidate of share `v`. -/
def low (R v : ℕ) : ℕ := if R * (v - 1) = 0 then 2 else R * (v - 1)

/-- The end of share `v`, where the last share ends behind `q`. -/
def high (R l q v : ℕ) : ℕ := if R * v + l = q then q + 1 else R * v

theorem ull_natCast {x : ℕ} (h : x < 2 ^ 64) : ull x = x := by
  unfold ull
  omega

theorem mul_range_le (target : ℕ) (hv : v ≤ N) : range target N * v ≤ target / 2 := by
  have h1 : range target N * v ≤ target / 2 / N * N := by
    unfold range
    rw [Nat.mul_comm N 2, ← Nat.div_div_eq_div_mul]
    exact Nat.mul_le_mul_left _ hv
  exact h1.trans (Nat.div_mul_le_self _ _)

/-- **What a thread tests** when it reads `v`, and the range is not empty. -/
theorem mem_tested (hN : 0 < N) (hfit : target / 2 + N < 2 ^ 63) (hR : 0 < range target N) (hv : v ≤ N) :
    c ∈ tested target N v ↔ 0 < v ∧ low (range target N) v ≤ c ∧ c < high (range target N) (left target N) (target / 2) v := by
  have hq := mul_range_le target hv
  have hqN : N ≤ target / 2 := le_trans (Nat.le_mul_of_pos_left N hR) (mul_range_le target le_rfl)
  have hl : left target N < N := Nat.mod_lt _ hN
  rw [tested, mem_testLoop]
  unfold start stop low high
  generalize range target N = R at *
  generalize left target N = l at *
  generalize target / 2 = q at *
  dsimp only
  cases v with
  | zero =>
    -- the share before the first: its end is 0
    have hend : (R : ℤ) * ((0 : ℕ) - 1) + R = (0 : ℕ) := by push_cast; ring
    have hlq : ¬ 0 + l = q := by omega
    rw [hend, ← Nat.cast_add, ull_natCast (x := 0 + l) (by omega), if_neg hlq, show ull (0 : ℕ) = 0 from rfl]
    exact iff_of_false (fun h => by omega) fun h => by omega
  | succ u =>
    have hst : (R : ℤ) * ((u + 1 : ℕ) - 1) = (R * u : ℕ) := by push_cast; ring
    have hend : ((R * u : ℕ) : ℤ) + R = (R * (u + 1) : ℕ) := by push_cast; ring
    have hle : R * u ≤ R * (u + 1) := Nat.mul_le_mul_left R (Nat.le_succ u)
    rw [hst, hend, Nat.add_sub_cancel]
    generalize R * (u + 1) = b at *
    generalize R * u = a at *
    have hlow : ull (if (a : ℤ) = 0 then 2 else a) = if a = 0 then 2 else a := by
      split_ifs with h1 h2 h2
      · rfl
      · omega
      · omega
      · exact ull_natCast (by omega)
    have hhigh : ull (if ull (b + l) = q then (b : ℤ) + l + 1 else b) = if b + l = q then q + 1 else b := by
      rw [← Nat.cast_add, ull_natCast (x := b + l) (by omega)]
      split_ifs with h1
      · rw [h1, ← Nat.cast_succ]
        exact ull_natCast (by omega)
      · exact ull_natCast (by omega)
    rw [hlow, hhigh]
    exact ⟨fun h => ⟨Nat.succ_pos u, h⟩, fun h => h.2⟩

/-- An empty range: everything from 2 to `target/2`, or nothing. -/
theorem mem_tested_zero (hl : left target N < 2 ^ 63) (hR : range target N = 0) :
    c ∈ tested target N v ↔ left target N = target / 2 ∧ 2 ≤ c ∧ c ≤ target / 2 := by
  rw [tested, mem_testLoop]
  unfold start stop
  rw [hR]
  generalize left target N = l at *
  generalize target / 2 = q at *
  simp only [Nat.cast_zero, zero_mul, zero_add, if_true]
  rw [ull_natCast (x := l) (by omega), show ull 2 = 2 from rfl]
  split_ifs with h
  · rw [← Nat.cast_succ, ull_natCast (by omega)]
    omega
  · rw [show ull 0 = 0 from rfl]
    omega

/-! ## The split -/

/-- Candidate `c` is in share `v`. -/
def Share (R l q v c : ℕ) : Prop := 0 < v ∧ low R v ≤ c ∧ c < high R l q v

/-- Up to this number the shares are empty. -/
def emptyUpTo (R L : ℕ) : ℕ := if L = 1 ∨ 3 ≤ R then 0 else 1

/-- From this number on there has to be a thread for every share; with `range = 1` share 2 is `[1, 2)` and must not be taken. -/
def firstShare (R L : ℕ) : ℕ := if R = 1 ∧ L ≠ 1 then 3 else emptyUpTo R L + 1

/-- **Share `L` goes on to `target/2`**, the shares up to it have one thread each, and the other threads have empty ones. -/
structure SplitAt (R l q N : ℕ) (times : ℕ → ℕ) (L : ℕ) : Prop where
  meets : R * L + l = q
  first : firstShare R L ≤ L
  one : ∀ v, firstShare R L ≤ v → v ≤ L → ∃! i, i < N ∧ times i = v
  rest : ∀ i, i < N → firstShare R L ≤ times i ∧ times i ≤ L ∨ times i ≤ emptyUpTo R L

/-- The candidates from 2 to `q` are in one share each, and nothing else is. -/
structure Covers (R l q N : ℕ) (times : ℕ → ℕ) : Prop where
  cover : ∀ c, 2 ≤ c → c ≤ q → ∃ i, i < N ∧ Share R l q (times i) c
  inside : ∀ i c, i < N → Share R l q (times i) c → 2 ≤ c ∧ c ≤ q
  once : ∀ i j c, i < N → j < N → Share R l q (times i) c → Share R l q (times j) c → i = j

section Split

variable {l q : ℕ}

theorem low_one (R : ℕ) : low R 1 = 2 := rfl

theorem low_of_two_le (hR : 0 < R) (hv : 2 ≤ v) : low R v = R * (v - 1) := if_neg (Nat.mul_pos hR (by omega)).ne'

theorem high_meets (hL : R * L + l = q) : high R l q L = q + 1 := if_pos hL

theorem high_of_ne (hR : 0 < R) (hL : R * L + l = q) (hv : v ≠ L) : high R l q v = R * v := by
  refine if_neg fun h => hv ?_
  exact Nat.eq_of_mul_eq_mul_left hR (by omega)

/-- The share of `c` among the first `L`. -/
def owner (R L c : ℕ) : ℕ := if low R L ≤ c then L else c / R + 1

/-- A candidate is in no other of the first `L` shares. -/
theorem share_owner (hR : 0 < R) (hL : R * L + l = q) (hw : w ≤ L) (h : Share R l q w c) : w = owner R L c := by
  obtain ⟨hpos, hlow, hhigh⟩ := h
  rcases hw.eq_or_lt with rfl | hlt
  · exact (if_pos hlow).symm
  · obtain ⟨u, rfl⟩ : ∃ u, w = u + 1 := ⟨w - 1, by omega⟩
    rw [high_of_ne hR hL hlt.ne] at hhigh
    have hle : R * (u + 1) ≤ R * (L - 1) := Nat.mul_le_mul_left R (by omega)
    have hu : R * u ≤ c := by
      unfold low at hlow
      rw [Nat.add_sub_cancel] at hlow
      split_ifs at hlow with h0
      · omega
      · exact hlow
    rw [owner, if_neg (by rw [low_of_two_le hR (by omega)]; omega), Nat.div_eq_of_lt_le (by rwa [Nat.mul_comm]) (by rwa [Nat.mul_comm])]

/-- Every candidate is in the share of its owner. -/
theorem owner_share (hR : 0 < R) (hL : R * L + l = q) (hpos : 0 < L) (h2 : 2 ≤ c) (hq : c ≤ q) :
    owner R L c ≤ L ∧ Share R l q (owner R L c) c := by
  unfold owner
  split_ifs with hlow
  · exact ⟨le_rfl, hpos, hlow, by rw [high_meets hL]; omega⟩
  · have hL2 : 2 ≤ L := by
      by_contra hlt
      obtain rfl : L = 1 := by omega
      exact hlow (by rwa [low_one])
    rw [low_of_two_le hR hL2, not_le] at hlow
    have hdiv : c / R < L - 1 := Nat.div_lt_of_lt_mul hlow
    refine ⟨by omega, Nat.succ_pos _, ?_, ?_⟩
    · unfold low
      split_ifs
      · exact h2
      · exact Nat.mul_div_le c R
    · rw [high_of_ne hR hL (by omega)]
      exact Nat.lt_mul_div_succ c hR

theorem firstShare_pos (R L : ℕ) : 0 < firstShare R L := by
  unfold firstShare
  split_ifs <;> omega

/-- The shares up to `emptyUpTo` are empty. -/
theorem not_share_of_empty (hR : 0 < R) (hL : R * L + l = q) (hv : v ≤ emptyUpTo R L) :
    ¬ Share R l q v c := by
  rintro ⟨hpos, hlow, hhigh⟩
  unfold emptyUpTo at hv
  split_ifs at hv with h
  · omega
  · obtain rfl : v = 1 := by omega
    rw [high_of_ne hR hL (by omega)] at hhigh
    rw [low_one] at hlow
    omega

/-- The shares that have a thread lie between 2 and `q`. -/
theorem share_inside (hR : 0 < R) (hL : R * L + l = q) (h1 : firstShare R L ≤ v) (h2 : v ≤ L) (h : Share R l q v c) :
    2 ≤ c ∧ c ≤ q := by
  obtain ⟨hpos, hlow, hhigh⟩ := h
  constructor
  · refine le_trans ?_ hlow
    rcases (by omega : v = 1 ∨ 2 ≤ v) with rfl | hv
    · rw [low_one]
    · rw [low_of_two_le hR hv]
      rcases (by omega : R = 1 ∨ 2 ≤ R) with rfl | hR2
      · rw [firstShare, if_pos ⟨rfl, by omega⟩] at h1
        omega
      · exact hR2.trans (Nat.le_mul_of_pos_right R (by omega))
  · rcases h2.eq_or_lt with rfl | hlt
    · rw [high_meets hL] at hhigh
      omega
    · rw [high_of_ne hR hL hlt.ne] at hhigh
      have := Nat.mul_le_mul_left R hlt.le
      omega

/-- The owner of a candidate has a thread. -/
theorem firstShare_le_owner (hfirst : firstShare R L ≤ L) (hR : 0 < R) (h2 : 2 ≤ c) : firstShare R L ≤ owner R L c := by
  unfold owner
  split_ifs with hlow
  · exact hfirst
  · unfold firstShare emptyUpTo
    split_ifs with h1 h3
    · obtain rfl := h1.1
      rw [Nat.div_one]
      omega
    · exact Nat.succ_le_succ (Nat.zero_le _)
    · have hle : R ≤ c := by omega
      have := Nat.div_pos hle hR
      omega

/-- **A split covers the candidates.** -/
theorem SplitAt.covers (h : SplitAt R l q N times L) (hR : 0 < R) : Covers R l q N times := by
  have hpos : 0 < L := lt_of_lt_of_le (firstShare_pos R L) h.first
  have hval : ∀ {i c}, i < N → Share R l q (times i) c → firstShare R L ≤ times i ∧ times i ≤ L := fun hi hs =>
    (h.rest _ hi).resolve_right fun he => not_share_of_empty hR h.meets he hs
  refine ⟨fun c h2 hq => ?_, fun i c hi hs => ?_, fun i j c hi hj hsi hsj => ?_⟩
  · obtain ⟨hle, hs⟩ := owner_share hR h.meets hpos h2 hq
    obtain ⟨i, ⟨hi, ht⟩, -⟩ := h.one _ (firstShare_le_owner h.first hR h2) hle
    exact ⟨i, hi, ht ▸ hs⟩
  · obtain ⟨h1, h2⟩ := hval hi hs
    exact share_inside hR h.meets h1 h2 hs
  · obtain ⟨h1, h2⟩ := hval hi hsi
    have heq : times i = times j := (share_owner hR h.meets h2 hsi).trans (share_owner hR h.meets (hval hj hsj).2 hsj).symm
    exact (h.one _ h1 h2).unique ⟨hi, rfl⟩ ⟨hj, heq.symm⟩

/-- **What covers the candidates is a split.** -/
theorem Covers.split (h : Covers R l q N times) (hR : 0 < R) (hq : 2 ≤ q) (hN : R * N ≤ q) (ht : ∀ i, i < N → times i ≤ N) :
    ∃ L, SplitAt R l q N times L := by
  -- the share of the last candidate is the one that goes on
  obtain ⟨i0, hi0, hs0⟩ := h.cover q hq le_rfl
  have hL : R * times i0 + l = q := by
    by_contra hne
    have hhigh := hs0.2.2
    rw [high, if_neg hne] at hhigh
    have := Nat.mul_le_mul_left R (ht i0 hi0)
    omega
  have hpos := hs0.1
  have hone : ∀ i, i < N → times i = times i0 → i = i0 := fun i hi he => h.once i i0 q hi hi0 (he ▸ hs0) hs0
  -- with `range = 1`, share 2 contains the candidate 1
  have htwo : ∀ i, i < N → times i = 2 → 2 ≤ times i0 → R ≠ 1 := by
    rintro i hi he h2 rfl
    have hs : Share 1 l q (times i) 1 := by
      rw [he]
      refine ⟨by decide, by decide, ?_⟩
      unfold high
      split_ifs <;> omega
    have := (h.inside i 1 hi hs).1
    omega
  -- a larger share would overlap with it
  have hmax : ∀ i, i < N → times i ≤ times i0 := by
    intro i hi
    by_contra hgt
    rw [not_le] at hgt
    have hs : Share R l q (times i) (R * (times i - 1)) := by
      refine ⟨by omega, by rw [low_of_two_le hR (by omega)], ?_⟩
      rw [high_of_ne hR hL (by omega)]
      exact Nat.mul_lt_mul_of_pos_left (by omega) hR
    obtain ⟨h2, hle⟩ := h.inside i _ hi hs
    have hs' : Share R l q (times i0) (R * (times i - 1)) := by
      refine ⟨hpos, ?_, by rw [high_meets hL]; omega⟩
      rcases (by omega : times i0 = 1 ∨ 2 ≤ times i0) with h1 | h1
      · rwa [h1, low_one]
      · rw [low_of_two_le hR h1]
        exact Nat.mul_le_mul_left R (by omega)
    have := h.once i i0 _ hi hi0 hs hs'
    subst this
    omega
  refine ⟨times i0, hL, ?_, fun v h1 h2 => ?_, fun i hi => ?_⟩
  · unfold firstShare emptyUpTo
    split_ifs with h1 h3
    · have : times i0 ≠ 2 := fun he => htwo i0 hi0 he (by omega) h1.1
      omega
    · omega
    · omega
  · rcases h2.eq_or_lt with rfl | hlt
    · exact ⟨i0, ⟨hi0, rfl⟩, fun j hj => hone j hj.1 hj.2⟩
    · -- the last candidate of the share
      have hle : R * v ≤ R * times i0 := Nat.mul_le_mul_left R h2
      have hv : 0 < v := lt_of_lt_of_le (firstShare_pos R _) h1
      have hRv : R ≤ R * v := Nat.le_mul_of_pos_right R hv
      have hs : Share R l q v (R * v - 1) := by
        refine ⟨hv, ?_, by rw [high_of_ne hR hL hlt.ne]; omega⟩
        rcases (by omega : v = 1 ∨ 2 ≤ v) with rfl | hv2
        · rw [low_one]
          unfold firstShare emptyUpTo at h1
          split_ifs at h1 <;> omega
        · rw [low_of_two_le hR hv2, Nat.mul_sub, Nat.mul_one]
          omega
      have h2c : 2 ≤ R * v - 1 := (share_inside hR hL h1 h2 hs).1
      obtain ⟨i, hi, hsi⟩ := h.cover _ h2c (by omega)
      have heq : times i = v := (share_owner hR hL (hmax i hi) hsi).trans (share_owner hR hL h2 hs).symm
      exact ⟨i, ⟨hi, heq⟩, fun j hj => h.once j i _ hj.1 hi (hj.2 ▸ hs) hsi⟩
  · by_cases hf : firstShare R (times i0) ≤ times i
    · exact .inl ⟨hf, hmax i hi⟩
    · refine .inr ?_
      have hle := hmax i hi
      unfold firstShare at hf
      split_ifs at hf with h1
      · have : times i ≠ 2 := fun he => htwo i hi he (by omega) h1.1
        unfold emptyUpTo
        split_ifs <;> omega
      · omega

end Split

/-! ## All candidates, once -/

/-- **What the program is for**: together the threads test each of `2..target/2` once and nothing else, none divides by zero, and every
divisor in that range is reported once. -/
structure Exact (target N : ℕ) (times : ℕ → ℕ) : Prop where
  tested : (candidates target N times).Perm (List.range' 2 (target / 2 - 1))
  nonzero : 0 ∉ candidates target N times
  reported : (reports target N times).Perm ((List.range' 2 (target / 2 - 1)).filter fun d => target % d = 0)

/-- **The split works out**: the range is not empty, some share goes on to `target/2`, and the shares up to it have one thread each. -/
def Split (target N : ℕ) (times : ℕ → ℕ) : Prop :=
  0 < range target N ∧ ∃ L, SplitAt (range target N) (left target N) (target / 2) N times L

theorem reports_eq (target N : ℕ) (times : ℕ → ℕ) : reports target N times = (candidates target N times).filter fun d => target % d = 0 :=
  List.filter_flatMap.symm

theorem mem_candidates : c ∈ candidates target N times ↔ ∃ i, i < N ∧ c ∈ tested target N (times i) := by
  simp [candidates]

theorem nodup_candidates : (candidates target N times).Nodup ↔
    ∀ i j c, i < N → j < N → c ∈ tested target N (times i) → c ∈ tested target N (times j) → i = j := by
  rw [candidates, List.nodup_flatMap]
  constructor
  · rintro ⟨-, hp⟩ i j c hi hj hci hcj
    rw [List.pairwise_iff_getElem] at hp
    by_contra hne
    rcases Nat.lt_or_gt_of_ne hne with hlt | hlt
    · have hd := hp i j (by simpa using hi) (by simpa using hj) hlt
      simp only [List.getElem_range, Function.onFun] at hd
      exact hd hci hcj
    · have hd := hp j i (by simpa using hj) (by simpa using hi) hlt
      simp only [List.getElem_range, Function.onFun] at hd
      exact hd hcj hci
  · intro h
    refine ⟨fun i _ => nodup_testLoop _ _, List.pairwise_iff_getElem.mpr fun i j hi hj hlt => ?_⟩
    rw [List.length_range] at hi hj
    simp only [List.getElem_range, Function.onFun]
    intro c hci hcj
    exact hlt.ne (h i j c hi hj hci hcj)

theorem mem_interval (h : 4 ≤ target) : c ∈ List.range' 2 (target / 2 - 1) ↔ 2 ≤ c ∧ c ≤ target / 2 := by
  rw [List.mem_range'_1]
  omega

/-- The candidates are tested once exactly when the shares cover them. -/
theorem exact_iff (h4 : 4 ≤ target) : Exact target N times ↔
    (∀ c, (∃ i, i < N ∧ c ∈ tested target N (times i)) ↔ 2 ≤ c ∧ c ≤ target / 2) ∧
    ∀ i j c, i < N → j < N → c ∈ tested target N (times i) → c ∈ tested target N (times j) → i = j := by
  constructor
  · intro h
    refine ⟨fun c => ?_, nodup_candidates.mp (h.tested.nodup_iff.mpr List.nodup_range')⟩
    rw [← mem_candidates, h.tested.mem_iff, mem_interval h4]
  · rintro ⟨hmem, honce⟩
    have hperm : (candidates target N times).Perm (List.range' 2 (target / 2 - 1)) := by
      refine (List.perm_ext_iff_of_nodup (nodup_candidates.mpr honce) List.nodup_range').mpr fun c => ?_
      rw [mem_candidates, hmem, mem_interval h4]
    refine ⟨hperm, fun h0 => ?_, ?_⟩
    · have := (hmem 0).mp (mem_candidates.mp h0)
      omega
    · rw [reports_eq]
      exact hperm.filter _

/-- With an empty range, the candidate 2 is tested by no thread or by all. -/
theorem not_exact_of_empty (h4 : 4 ≤ target) (hfit : left target N < 2 ^ 63) (hR : range target N = 0) (hN : 0 < N) :
    ¬ Exact target N times := by
  intro h
  obtain ⟨hmem, honce⟩ := (exact_iff h4).mp h
  have hlt : target < N * 2 := by
    by_contra hge
    exact (Nat.div_pos (not_lt.mp hge) (by omega)).ne' hR
  obtain ⟨i, hi, hc⟩ := (hmem 2).mpr ⟨le_rfl, by omega⟩
  have hall : ∀ j, 2 ∈ tested target N (times j) := fun j =>
    (mem_tested_zero hfit hR).mpr ((mem_tested_zero hfit hR).mp hc)
  have := honce 0 1 2 hN (by omega) (hall 0) (hall 1)
  omega

/-- The shares of the threads cover the candidates. -/
theorem exact_iff_covers (h4 : 4 ≤ target) (hN : 0 < N) (hfit : target / 2 + N < 2 ^ 63) (hR : 0 < range target N)
    (ht : ∀ i, i < N → times i ≤ N) : Exact target N times ↔ Covers (range target N) (left target N) (target / 2) N times := by
  have hshare : ∀ i c, i < N → (c ∈ tested target N (times i) ↔ Share (range target N) (left target N) (target / 2) (times i) c) :=
    fun i c hi => mem_tested hN hfit hR (ht i hi)
  rw [exact_iff h4]
  constructor
  · rintro ⟨hmem, honce⟩
    refine ⟨fun c h2 hq => ?_, fun i c hi hs => (hmem c).mp ⟨i, hi, (hshare i c hi).mpr hs⟩, fun i j c hi hj hsi hsj => ?_⟩
    · obtain ⟨i, hi, hc⟩ := (hmem c).mpr ⟨h2, hq⟩
      exact ⟨i, hi, (hshare i c hi).mp hc⟩
    · exact honce i j c hi hj ((hshare i c hi).mpr hsi) ((hshare j c hj).mpr hsj)
  · intro h
    refine ⟨fun c => ⟨?_, fun hc => ?_⟩, fun i j c hi hj hci hcj => h.once i j c hi hj ((hshare i c hi).mp hci) ((hshare j c hj).mp hcj)⟩
    · rintro ⟨i, hi, hc⟩
      exact h.inside i c hi ((hshare i c hi).mp hc)
    · obtain ⟨i, hi, hs⟩ := h.cover c hc.1 hc.2
      exact ⟨i, hi, (hshare i c hi).mpr hs⟩

/-- **When every candidate is tested once.**  For every target that leaves the sums in the range of `long`, every number of threads, and
every run in which all threads read their number. -/
theorem exact_iff_split {tr : List (Ev St Act Unit)} {t : St} (h4 : 4 ≤ target) (hN : 1 ≤ N ∧ N ≤ 50)
    (hfit : target / 2 + N < 2 ^ 63) (hrun : Run (Step N) always init tr t) (hread : ∀ i, i < N → t.seen i = some (times i)) :
    Exact target N times ↔ Split target N times := by
  have ht : ∀ i, i < N → times i ≤ N := fun i hi => ((run_seen hrun).2.2.2 i _ (hread i hi)).2
  rcases Nat.eq_zero_or_pos (range target N) with hR | hR
  · have hl : left target N < N := Nat.mod_lt _ hN.1
    refine iff_of_false (not_exact_of_empty h4 (by omega) hR hN.1) fun h => ?_
    exact h.1.ne' hR
  · rw [exact_iff_covers h4 hN.1 hfit hR ht]
    constructor
    · exact fun h => ⟨hR, h.split hR (by omega) (mul_range_le _ le_rfl) ht⟩
    · rintro ⟨-, L, h⟩
      exact h.covers hR

/-- Two threads of which each reads its number right after `k++`. -/
theorem run_two : ∃ tr t, Run (Step 2) always init tr t ∧ ∀ i, i < 2 → t.seen i = some (i + 1) := by
  have h1 : Step 2 init .create () _ := .create (by decide) rfl
  have h2 : Step 2 ⟨0, 1, fun _ => none⟩ .next () _ := .next rfl
  have h3 : Step 2 ⟨1, 1, fun _ => none⟩ (.read 0) () _ := .read (by decide) rfl
  have h4 : Step 2 ⟨1, 1, Function.update (fun _ => none) 0 (some 1)⟩ .create () _ := .create (by decide) rfl
  have h5 : Step 2 ⟨1, 2, Function.update (fun _ => none) 0 (some 1)⟩ .next () _ := .next rfl
  have h6 : Step 2 ⟨2, 2, Function.update (fun _ => none) 0 (some 1)⟩ (.read 1) () _ := .read (by decide) rfl
  refine ⟨_, _, (((((Run.nil.snoc trivial h1).snoc trivial h2).snoc trivial h3).snoc trivial h4).snoc trivial h5).snoc trivial h6, ?_⟩
  intro i hi
  rcases (by omega : i = 0 ∨ i = 1) with rfl | rfl
  · rfl
  · rfl

/-- With `target = 12` the ranges fit: 2 for the first thread, and 3 up to 6 for the second. -/
theorem exact_twelve : ∃ tr t, Run (Step 2) always init tr t ∧ (∀ i, i < 2 → t.seen i = some (i + 1)) ∧ Exact 12 2 (· + 1) := by
  obtain ⟨tr, t, hrun, hread⟩ := run_two
  refine ⟨tr, t, hrun, hread, (exact_iff_split (by decide) (by decide) (by decide) hrun hread).mpr ⟨by decide, 2, ?_⟩⟩
  refine ⟨by decide, by decide, fun v h1 h2 => ⟨v - 1, ?_, fun i hi => ?_⟩, fun i hi => .inl ?_⟩
  · have h1 : 1 ≤ v := h1
    exact ⟨by omega, by omega⟩
  · omega
  · exact ⟨show 1 ≤ i + 1 by omega, by omega⟩

/-- With `target = 10` nobody tests 4 and 5. -/
theorem ten_misses_five : ∃ tr t, Run (Step 2) always init tr t ∧ (∀ i, i < 2 → t.seen i = some (i + 1)) ∧
    candidates 10 2 (· + 1) = [2, 3] ∧ ¬ Exact 10 2 (· + 1) := by
  obtain ⟨tr, t, hrun, hread⟩ := run_two
  have hc : candidates 10 2 (· + 1) = [2, 3] := by decide +kernel
  refine ⟨tr, t, hrun, hread, hc, fun h => ?_⟩
  have hperm := h.tested
  rw [hc] at hperm
  exact absurd hperm.length_eq (by decide)

end OsLabs.ThreadsBasics.Factoring
