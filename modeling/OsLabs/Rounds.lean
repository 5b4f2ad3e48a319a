import Mathlib.Data.List.Count
import Mathlib.Tactic.SplitIfs

/-!
# OsLabs.Rounds — sequences of events that come in rounds

A round contains every event once, in any order.  A sequence comes in rounds when it is a sequence of whole rounds and, at its end, a
part of one.

* `Rounds.snoc`: the sequence may be continued with an event that has not happened more often than any other.
* `not_rounds`: an event that happened twice before some other event happened at all.
-/

namespace OsLabs

variable {ε : Type} [DecidableEq ε]

/-- The sequence `l` is cut into rounds that contain each event exactly once, and a rest that contains each at most once. -/
def Rounds (l : List ε) : Prop :=
  ∃ (rounds : List (List ε)) (rest : List ε), l = rounds.flatten ++ rest ∧ (∀ r ∈ rounds, ∀ e, r.count e = 1) ∧ ∀ e, rest.count e ≤ 1

theorem count_flatten_rounds {rounds : List (List ε)} (h : ∀ r ∈ rounds, ∀ e, r.count e = 1) (e : ε) :
    rounds.flatten.count e = rounds.length := by
  induction rounds with
  | nil => rfl
  | cons r rs ih =>
    rw [List.flatten_cons, List.count_append, h r List.mem_cons_self e, ih fun r' hr' => h r' (List.mem_cons_of_mem _ hr'),
      List.length_cons]
    omega

theorem Rounds.nil : Rounds ([] : List ε) := ⟨[], [], rfl, by simp, by simp⟩

/-- **One more event**, which has not happened more often than any other. -/
theorem Rounds.snoc {l : List ε} {e : ε} (h : Rounds l) (he : ∀ d, l.count e ≤ l.count d) : Rounds (l ++ [e]) := by
  obtain ⟨rounds, rest, rfl, hr, hrest⟩ := h
  have hcount : ∀ d, (rounds.flatten ++ rest).count d = rounds.length + rest.count d := by
    intro d
    rw [List.count_append, count_flatten_rounds hr d]
  by_cases hmem : rest.count e = 0
  · refine ⟨rounds, rest ++ [e], by simp, hr, fun d => ?_⟩
    have := hrest d
    rw [List.count_append, List.count_singleton]
    split_ifs with hd
    · rw [beq_iff_eq] at hd
      rw [hd] at hmem
      omega
    · omega
  · -- the event is in the rest, so every event is: the rest is a whole round
    have hfull : ∀ d, rest.count d = 1 := by
      intro d
      have h1 := he d
      have h2 := hrest d
      rw [hcount e, hcount d] at h1
      omega
    refine ⟨rounds ++ [rest], [e], by simp, fun r hr' => ?_, fun d => ?_⟩
    · rcases List.mem_append.mp hr' with hr' | hr'
      · exact hr r hr'
      · rw [List.mem_singleton.mp hr']
        exact hfull
    · rw [List.count_singleton]
      split_ifs <;> omega

/-- An event that happened twice while another has not happened. -/
theorem not_rounds {l : List ε} {e d : ε} (he : 2 ≤ l.count e) (hd : l.count d = 0) : ¬ Rounds l := by
  rintro ⟨rounds, rest, rfl, hr, hrest⟩
  rw [List.count_append, count_flatten_rounds hr] at he hd
  have := hrest e
  omega

end OsLabs
