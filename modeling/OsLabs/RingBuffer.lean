import Mathlib.Data.Nat.ModEq
import Mathlib.Logic.Function.Basic

/-!
# OsLabs.RingBuffer — a queue in an array with wrapping counters

The array has `C` places; `r` and `w` count what has been taken and put, and wrap at `M`, a multiple of `C`.  An element goes to place
`w % C` and comes from place `r % C`, as with unsigned counters in C.

* `Holds M C data r w q`: the array and the two counters stand for the queue `q`.
* `Holds.empty_iff`, `Holds.full_iff`: the two tests on the counters.
* `Holds.push`, `Holds.pop`: the two operations.
-/

namespace OsLabs.RingBuffer

variable {β : Type*} {M C : ℕ} {data : ℕ → β} {r w : ℕ} {q : List β} {x : β}

structure Holds (M C : ℕ) (data : ℕ → β) (r w : ℕ) (q : List β) : Prop where
  lt : r < M
  wrap : (r + q.length) % M = w
  le : q.length ≤ C
  get : ∀ (j : ℕ) (h : j < q.length), data ((r + j) % C) = q[j]

theorem Holds.init (hM : 0 < M) (data : ℕ → β) : Holds M C data 0 0 [] where
  lt := hM
  wrap := Nat.zero_mod M
  le := Nat.zero_le C
  get j h := absurd h (Nat.not_lt_zero j)

/-- Less than a full turn ahead. -/
theorem add_mod_eq_iff {a b : ℕ} (ha : a < M) (hb : b < M) : (r + a) % M = (r + b) % M ↔ a = b := by
  constructor
  · intro h
    have hmod : a % M = b % M := Nat.ModEq.add_left_cancel' r h
    rwa [Nat.mod_eq_of_lt ha, Nat.mod_eq_of_lt hb] at hmod
  · rintro rfl
    rfl

/-- A multiple of `C` taken off does not move a place. -/
theorem mod_mod_place (hd : C ∣ M) (n : ℕ) : n % M % C = n % C := Nat.mod_mod_of_dvd n hd

namespace Holds

/-- **The test for an empty queue.** -/
theorem empty_iff (h : Holds M C data r w q) (hCM : C < M) : r = w ↔ q = [] := by
  have hlen : q.length < M := lt_of_le_of_lt h.le hCM
  rw [← h.wrap, ← List.length_eq_zero_iff]
  have hr : r = (r + 0) % M := (Nat.mod_eq_of_lt h.lt).symm
  constructor
  · intro he
    exact ((add_mod_eq_iff (Nat.zero_lt_of_lt hlen) hlen).mp (hr.symm.trans he)).symm
  · intro he
    rw [he]
    exact hr

/-- **The test for a full queue.** -/
theorem full_iff (h : Holds M C data r w q) (hCM : C < M) : w = (r + C) % M ↔ q.length = C := by
  rw [← h.wrap]
  exact add_mod_eq_iff (lt_of_le_of_lt h.le hCM) hCM

theorem push (h : Holds M C data r w q) (hd : C ∣ M) (hlt : q.length < C) (x : β) :
    Holds M C (Function.update data (w % C) x) r ((w + 1) % M) (q ++ [x]) where
  lt := h.lt
  wrap := by
    rw [← h.wrap, List.length_append, List.length_singleton, ← Nat.add_assoc]
    exact (Nat.mod_add_mod _ _ _).symm
  le := by
    rw [List.length_append, List.length_singleton]
    exact hlt
  get j hj := by
    have hw : w % C = (r + q.length) % C := by rw [← h.wrap, mod_mod_place hd]
    rw [List.length_append, List.length_singleton] at hj
    by_cases hjq : j = q.length
    · subst hjq
      rw [← hw, Function.update_self]
      simp
    · have hj' : j < q.length := by omega
      have hne : (r + j) % C ≠ w % C := by
        rw [hw]
        intro he
        have hmod : j % C = q.length % C := Nat.ModEq.add_left_cancel' r he
        rw [Nat.mod_eq_of_lt (hj'.trans hlt), Nat.mod_eq_of_lt hlt] at hmod
        exact hjq hmod
      rw [Function.update_of_ne hne, h.get j hj', List.getElem_append_left hj']

theorem pop (h : Holds M C data r w (x :: q)) (hd : C ∣ M) (hM : 0 < M) :
    data (r % C) = x ∧ Holds M C data ((r + 1) % M) w q := by
  refine ⟨?_, Nat.mod_lt _ hM, ?_, ?_, fun j hj => ?_⟩
  · have := h.get 0 (by simp)
    simpa using this
  · have := h.wrap
    rw [List.length_cons] at this
    rw [Nat.mod_add_mod, Nat.add_assoc, Nat.add_comm 1, this]
  · have := h.le
    rw [List.length_cons] at this
    omega
  · have := h.get (j + 1) (by simpa using hj)
    rw [List.getElem_cons_succ] at this
    rw [← this, ← mod_mod_place hd, Nat.mod_add_mod, mod_mod_place hd, Nat.add_assoc, Nat.add_comm 1]

end Holds

end OsLabs.RingBuffer
