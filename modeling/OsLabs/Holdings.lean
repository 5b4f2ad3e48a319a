import Mathlib.Logic.Function.Basic

/-!
# OsLabs.Holdings — resources, each held at one place

Every place `i` holds a resource `held i`, or `null`.  `Exact null used held` says that the resources in use are those that some place
holds, and that no two places hold the same one: nothing is shared, and nothing is lost.

* `Exact.alloc`: a resource that was not in use goes to a place that held none.
* `Exact.release`: a place gives its resource back.
-/

namespace OsLabs.Holdings

variable {ι ρ : Type*} {null : ρ} {used used' : ρ → Prop} {held held' : ι → ρ} {i j : ι} {r : ρ}

structure Exact (null : ρ) (used : ρ → Prop) (held : ι → ρ) : Prop where
  inj : ∀ i j, held i = held j → held i ≠ null → i = j
  used_iff : ∀ r, r ≠ null → (used r ↔ ∃ i, held i = r)

namespace Exact

theorem used_held (h : Exact null used held) (hi : held i ≠ null) : used (held i) := (h.used_iff _ hi).mpr ⟨i, rfl⟩

theorem congr (h : Exact null used held) (hu : ∀ r, r ≠ null → (used' r ↔ used r)) (hh : ∀ i, held' i = held i) :
    Exact null used' held' where
  inj i j he hn := h.inj i j (by rwa [← hh, ← hh]) (by rwa [← hh])
  used_iff r hr := by
    rw [hu r hr, h.used_iff r hr]
    exact exists_congr fun i => by rw [hh]

/-- A resource that is not in use is held nowhere. -/
theorem ne_of_unused (h : Exact null used held) (hr : ¬ used r) (hn : r ≠ null) (i : ι) : held i ≠ r := by
  rintro rfl
  exact hr (h.used_held hn)

theorem alloc (h : Exact null used held) (hr : ¬ used r) (hn : r ≠ null) (hi : held i = null)
    (hu : ∀ x, x ≠ null → (used' x ↔ used x ∨ x = r)) (hsame : held' i = r) (hother : ∀ j, j ≠ i → held' j = held j) :
    Exact null used' held' where
  inj j k he hnull := by
    by_cases hj : j = i
    · subst hj
      by_cases hk : k = j
      · exact hk.symm
      · rw [hsame, hother k hk] at he
        exact absurd he.symm (h.ne_of_unused hr hn k)
    · by_cases hk : k = i
      · subst hk
        rw [hsame, hother j hj] at he
        exact absurd he (h.ne_of_unused hr hn j)
      · rw [hother j hj] at he hnull
        rw [hother k hk] at he
        exact h.inj j k he hnull
  used_iff x hx := by
    rw [hu x hx, h.used_iff x hx]
    constructor
    · rintro (⟨j, rfl⟩ | rfl)
      · exact ⟨j, hother j fun hj => hx (hj ▸ hi)⟩
      · exact ⟨i, hsame⟩
    · rintro ⟨j, rfl⟩
      by_cases hj : j = i
      · subst hj
        exact .inr hsame
      · exact .inl ⟨j, (hother j hj).symm⟩

theorem release (h : Exact null used held) (hi : held i ≠ null) (hu : ∀ x, x ≠ null → (used' x ↔ used x ∧ x ≠ held i))
    (hsame : held' i = null) (hother : ∀ j, j ≠ i → held' j = held j) : Exact null used' held' where
  inj j k he hnull := by
    have hj : j ≠ i := by
      rintro rfl
      exact hnull hsame
    have hk : k ≠ i := by
      rintro rfl
      exact hnull (he.trans hsame)
    rw [hother j hj] at he hnull
    rw [hother k hk] at he
    exact h.inj j k he hnull
  used_iff x hx := by
    rw [hu x hx, h.used_iff x hx]
    constructor
    · rintro ⟨⟨j, rfl⟩, hne⟩
      exact ⟨j, hother j fun hj => hne (congrArg held hj)⟩
    · rintro ⟨j, rfl⟩
      have hj : j ≠ i := by
        rintro rfl
        exact hx hsame
      rw [hother j hj] at hx ⊢
      exact ⟨⟨j, rfl⟩, fun he => hj (h.inj j i he hx)⟩

end Exact

end OsLabs.Holdings
