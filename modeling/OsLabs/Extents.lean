import Mathlib.Data.List.Basic
import Mathlib.Data.List.Pairwise
import Mathlib.Tactic.SplitIfs

/-!
# OsLabs.Extents — sorted lists of stretches of memory

An extent is a first address and a length.  A list of extents is `Sorted` if each one ends before the next begins, with a gap between them:
two that touch would be one.

* `Cov L b`: some extent of the list has the address `b`.
* `Sorted.unique`: a set of addresses has one sorted list.
* `Sorted.removed`, `Sorted.cut`: an extent taken out, or its end cut off.
* `joinNext`, `Sorted.put`, `Sorted.glue`: an extent put between two others and joined with those that it touches.
-/

namespace OsLabs.Extents

/-- The address `b` is in the extent `x`. -/
def In (x : ℕ × ℕ) (b : ℕ) : Prop := x.1 ≤ b ∧ b < x.1 + x.2

instance (x : ℕ × ℕ) (b : ℕ) : Decidable (In x b) := inferInstanceAs (Decidable (_ ∧ _))

def Cov (L : List (ℕ × ℕ)) (b : ℕ) : Prop := ∃ x ∈ L, In x b

variable {L xs ys us : List (ℕ × ℕ)} {x w : ℕ × ℕ} {a b m n : ℕ}

theorem cov_nil : ¬ Cov [] b := by
  rintro ⟨x, hx, -⟩
  cases hx

theorem cov_cons : Cov (x :: L) b ↔ In x b ∨ Cov L b := by
  unfold Cov
  rw [List.exists_mem_cons_iff]

theorem cov_append : Cov (xs ++ ys) b ↔ Cov xs b ∨ Cov ys b := by
  induction xs with
  | nil => exact ⟨.inr, fun h => h.resolve_left cov_nil⟩
  | cons x xs ih => rw [List.cons_append, cov_cons, cov_cons, ih, or_assoc]

structure Sorted (L : List (ℕ × ℕ)) : Prop where
  gap : L.Pairwise fun x y => x.1 + x.2 < y.1
  pos : ∀ x ∈ L, 0 < x.2

theorem sorted_nil : Sorted [] := ⟨.nil, fun x hx => by cases hx⟩

theorem sorted_cons : Sorted (x :: L) ↔ (∀ y ∈ L, x.1 + x.2 < y.1) ∧ 0 < x.2 ∧ Sorted L := by
  constructor
  · rintro ⟨h1, h2⟩
    obtain ⟨h1, h3⟩ := List.pairwise_cons.mp h1
    obtain ⟨h2, h4⟩ := List.forall_mem_cons.mp h2
    exact ⟨h1, h2, h3, h4⟩
  · rintro ⟨h1, h2, h3, h4⟩
    exact ⟨List.pairwise_cons.mpr ⟨h1, h3⟩, List.forall_mem_cons.mpr ⟨h2, h4⟩⟩

theorem sorted_append : Sorted (xs ++ ys) ↔ Sorted xs ∧ Sorted ys ∧ ∀ x ∈ xs, ∀ y ∈ ys, x.1 + x.2 < y.1 := by
  constructor
  · rintro ⟨h1, h2⟩
    obtain ⟨h3, h4, h5⟩ := List.pairwise_append.mp h1
    obtain ⟨h6, h7⟩ := List.forall_mem_append.mp h2
    exact ⟨⟨h3, h6⟩, ⟨h4, h7⟩, h5⟩
  · rintro ⟨⟨h1, h2⟩, ⟨h3, h4⟩, h5⟩
    exact ⟨List.pairwise_append.mpr ⟨h1, h3, h5⟩, List.forall_mem_append.mpr ⟨h2, h4⟩⟩

namespace Sorted

theorem sublist (h : Sorted L) (hs : xs.Sublist L) : Sorted xs := ⟨h.gap.sublist hs, fun x hx => h.pos x (hs.subset hx)⟩

/-- No address lies behind the first extents and before the others. -/
theorem below (h : ∀ y ∈ L, a ≤ y.1) (hb : b < a) : ¬ Cov L b := by
  rintro ⟨y, hy, h1, -⟩
  have := h y hy
  omega

theorem above (h : ∀ y ∈ L, y.1 + y.2 ≤ a) (hb : a ≤ b) : ¬ Cov L b := by
  rintro ⟨y, hy, -, h2⟩
  have := h y hy
  omega

/-- Two sorted lists that begin at different places have different addresses. -/
theorem head_le (h : Sorted (x :: xs)) (h' : Sorted (w :: ys)) (hc : ∀ b, Cov (x :: xs) b → Cov (w :: ys) b) : w.1 ≤ x.1 := by
  obtain ⟨-, hpos, -⟩ := sorted_cons.mp h
  obtain ⟨hgap, -, -⟩ := sorted_cons.mp h'
  refine Nat.le_of_not_lt fun hlt => below (List.forall_mem_cons.mpr ⟨Nat.le_refl _, fun y hy => ?_⟩) hlt
    (hc x.1 (cov_cons.mpr (.inl ⟨Nat.le_refl _, Nat.lt_add_of_pos_right hpos⟩)))
  have := hgap y hy
  omega

theorem head_end_le (h : Sorted (x :: xs)) (h' : Sorted (w :: ys)) (heq : x.1 = w.1) (hc : ∀ b, Cov (x :: xs) b → Cov (w :: ys) b) :
    x.2 ≤ w.2 := by
  obtain ⟨-, -, -⟩ := sorted_cons.mp h
  obtain ⟨hgap, -, -⟩ := sorted_cons.mp h'
  refine Nat.le_of_not_lt fun hlt => ?_
  rcases cov_cons.mp (hc (w.1 + w.2) (cov_cons.mpr (.inl ⟨by omega, by omega⟩))) with hin | hcov
  · exact absurd hin.2 (Nat.lt_irrefl _)
  · obtain ⟨y, hy, h1, -⟩ := hcov
    have := hgap y hy
    omega

/-- **Canonical.**  A sorted list is determined by its addresses. -/
theorem unique (h : Sorted xs) (h' : Sorted ys) (hc : ∀ b, Cov xs b ↔ Cov ys b) : xs = ys := by
  induction xs generalizing ys with
  | nil =>
    cases ys with
    | nil => rfl
    | cons y ys =>
      have hpos := h'.pos y List.mem_cons_self
      exact absurd ((hc y.1).mpr (cov_cons.mpr (.inl ⟨Nat.le_refl _, Nat.lt_add_of_pos_right hpos⟩))) cov_nil
  | cons x xs ih =>
    cases ys with
    | nil =>
      have hpos := h.pos x List.mem_cons_self
      exact absurd ((hc x.1).mp (cov_cons.mpr (.inl ⟨Nat.le_refl _, Nat.lt_add_of_pos_right hpos⟩))) cov_nil
    | cons y ys =>
      have h1 : x.1 = y.1 := Nat.le_antisymm (head_le h' h fun b => (hc b).mpr) (head_le h h' fun b => (hc b).mp)
      have h2 : x.2 = y.2 := Nat.le_antisymm (head_end_le h h' h1 fun b => (hc b).mp) (head_end_le h' h h1.symm fun b => (hc b).mpr)
      obtain rfl : x = y := Prod.ext h1 h2
      obtain ⟨hx, -, hxs⟩ := sorted_cons.mp h
      obtain ⟨hy, -, hys⟩ := sorted_cons.mp h'
      refine congrArg (x :: ·) (ih hxs hys fun b => ?_)
      have := hc b
      rw [cov_cons, cov_cons] at this
      by_cases hin : In x b
      · have hout : ∀ zs : List (ℕ × ℕ), (∀ z ∈ zs, x.1 + x.2 < z.1) → ¬ Cov zs b := fun zs hz =>
          below (a := x.1 + x.2) (fun z hm => Nat.le_of_lt (hz z hm)) hin.2
        exact iff_of_false (hout xs hx) (hout ys hy)
      · simpa [hin] using this

/-- Addresses that follow one another are in one extent. -/
theorem whole (h : Sorted L) (hw : 0 < w.2) (hc : ∀ b, In w b → Cov L b) : ∃ x ∈ L, x.1 ≤ w.1 ∧ w.1 + w.2 ≤ x.1 + x.2 := by
  induction L with
  | nil => exact absurd (hc w.1 ⟨Nat.le_refl _, by omega⟩) cov_nil
  | cons x xs ih =>
    obtain ⟨hgap, hpos, hxs⟩ := sorted_cons.mp h
    have hout : ∀ b, b ≤ x.1 + x.2 → ¬ Cov xs b := by
      rintro b hb ⟨y, hy, h1, -⟩
      have := hgap y hy
      omega
    by_cases hx : In x w.1
    · refine ⟨x, List.mem_cons_self, hx.1, Nat.le_of_not_lt fun hlt => ?_⟩
      -- the address behind `x` would be in a later extent
      rcases cov_cons.mp (hc (x.1 + x.2) ⟨by have := hx.2; omega, hlt⟩) with h0 | h0
      · exact absurd h0.2 (Nat.lt_irrefl _)
      · exact hout _ (Nat.le_refl _) h0
    · obtain ⟨y, hy, h1⟩ : Cov xs w.1 := (cov_cons.mp (hc w.1 ⟨Nat.le_refl _, by omega⟩)).resolve_left hx
      have hgy := hgap y hy
      have hlow : x.1 + x.2 < w.1 := Nat.lt_of_lt_of_le hgy h1.1
      obtain ⟨z, hz, h2⟩ := ih hxs fun b hb => (cov_cons.mp (hc b hb)).resolve_left fun h0 => by
        have := h0.2
        have := hb.1
        omega
      exact ⟨z, List.mem_cons_of_mem _ hz, h2⟩

/-- **An extent taken out.** -/
theorem removed (h : Sorted (xs ++ x :: ys)) : Sorted (xs ++ ys) ∧ ∀ b, Cov (xs ++ ys) b ↔ Cov (xs ++ x :: ys) b ∧ ¬ In x b := by
  refine ⟨h.sublist ((List.sublist_cons_self x ys).append_left xs), fun b => ?_⟩
  obtain ⟨-, hys, hxs⟩ := sorted_append.mp h
  obtain ⟨hgap, -, -⟩ := sorted_cons.mp hys
  rw [cov_append, cov_append, cov_cons]
  have h1 : Cov xs b → ¬ In x b := fun hc hin =>
    above (a := x.1) (fun y hy => Nat.le_of_lt (hxs y hy x List.mem_cons_self)) hin.1 hc
  have h2 : Cov ys b → ¬ In x b := fun hc hin => below (a := x.1 + x.2) (fun y hy => Nat.le_of_lt (hgap y hy)) hin.2 hc
  tauto

/-- **The end of an extent cut off.** -/
theorem cut (h : Sorted (xs ++ (a, m + n) :: ys)) (hm : 0 < m) :
    Sorted (xs ++ (a, m) :: ys) ∧ ∀ b, Cov (xs ++ (a, m) :: ys) b ↔ Cov (xs ++ (a, m + n) :: ys) b ∧ ¬ In (a + m, n) b := by
  have hrem := h.removed.2
  obtain ⟨hx, hys, hxs⟩ := sorted_append.mp h
  obtain ⟨hgap, -, hy⟩ := sorted_cons.mp hys
  refine ⟨sorted_append.mpr ⟨hx, sorted_cons.mpr ⟨fun y hm => ?_, hm, hy⟩, fun w hw z hz => ?_⟩, fun b => ?_⟩
  · have := hgap y hm
    dsimp only at this ⊢
    omega
  · rcases List.mem_cons.mp hz with rfl | hz
    · exact hxs w hw (a, m + n) List.mem_cons_self
    · exact hxs w hw z (List.mem_cons_of_mem _ hz)
  · have hb := hrem b
    rw [cov_append, cov_append, cov_cons] at hb ⊢
    rw [cov_cons]
    have hin : In (a, m + n) b ↔ In (a, m) b ∨ In (a + m, n) b := by
      unfold In
      dsimp only
      omega
    have hdis : In (a, m) b → ¬ In (a + m, n) b := by
      unfold In
      dsimp only
      omega
    tauto

end Sorted

/-! ## Extents in any order -/

/-- No address is in both. -/
def Apart (x y : ℕ × ℕ) : Prop := ∀ b, In x b → ¬ In y b

instance apart_symm : Std.Symm Apart := ⟨fun _ _ h b h1 h2 => h b h2 h1⟩

/-- Extents that are apart, all but the one that begins where `x` does. -/
theorem cov_filter (h : L.Pairwise Apart) (hpos : ∀ y ∈ L, 0 < y.2) (hx : x ∈ L) :
    Cov (L.filter fun y => y.1 ≠ x.1) b ↔ Cov L b ∧ ¬ In x b := by
  constructor
  · rintro ⟨y, hy, h1⟩
    obtain ⟨hy, hne⟩ := List.mem_filter.mp hy
    have hxy : x ≠ y := by
      rintro rfl
      simp at hne
    exact ⟨⟨y, hy, h1⟩, fun h2 => h.forall hx hy hxy b h2 h1⟩
  · rintro ⟨⟨y, hy, h1⟩, h2⟩
    refine ⟨y, List.mem_filter.mpr ⟨hy, decide_eq_true fun he => ?_⟩, h1⟩
    have hxy : x ≠ y := by
      rintro rfl
      exact h2 h1
    exact h.forall hx hy hxy y.1 ⟨by omega, by have := hpos x hx; omega⟩ ⟨Nat.le_refl _, by have := hpos y hy; omega⟩

/-! ## An extent put in -/

/-- `x` joined with the extent that begins where it ends. -/
def joinNext (x : ℕ × ℕ) : List (ℕ × ℕ) → (ℕ × ℕ) × List (ℕ × ℕ)
  | [] => (x, [])
  | y :: ys => if x.1 + x.2 = y.1 then ((x.1, x.2 + y.2), ys) else (x, y :: ys)

structure Joined (x : ℕ × ℕ) (ys : List (ℕ × ℕ)) (r : (ℕ × ℕ) × List (ℕ × ℕ)) : Prop where
  start : r.1.1 = x.1
  sorted : Sorted (r.1 :: r.2)
  cov : ∀ b, Cov (r.1 :: r.2) b ↔ In x b ∨ Cov ys b
  length : r.2.length ≤ ys.length

theorem joinNext_spec (h : Sorted ys) (hx : 0 < x.2) (hle : ∀ y ∈ ys, x.1 + x.2 ≤ y.1) : Joined x ys (joinNext x ys) := by
  cases ys with
  | nil => exact ⟨rfl, sorted_cons.mpr ⟨List.forall_mem_nil _, hx, sorted_nil⟩, fun b => cov_cons, Nat.le_refl _⟩
  | cons y ys =>
    obtain ⟨hgap, hpos, hys⟩ := sorted_cons.mp h
    rw [joinNext]
    split_ifs with htouch
    · refine ⟨rfl, sorted_cons.mpr ⟨fun z hz => ?_, Nat.add_pos_left hx _, hys⟩, fun b => ?_, Nat.le_succ _⟩
      · have := hgap z hz
        dsimp only
        omega
      · rw [cov_cons, cov_cons, ← or_assoc]
        refine or_congr_left ?_
        unfold In
        dsimp only
        omega
    · refine ⟨rfl, sorted_cons.mpr ⟨fun z hz => ?_, hx, h⟩, fun b => cov_cons, Nat.le_refl _⟩
      have h0 := hle y List.mem_cons_self
      rcases List.mem_cons.mp hz with rfl | hz
      · exact Nat.lt_of_le_of_ne h0 htouch
      · have := hgap z hz
        dsimp only
        omega

namespace Joined

variable {r : (ℕ × ℕ) × List (ℕ × ℕ)}

theorem pos (h : Joined x ys r) : 0 < r.1.2 := (sorted_cons.mp h.sorted).2.1

/-- **Put in**, behind extents that do not touch it. -/
theorem put (h : Joined x ys r) (hxs : Sorted xs) (hgap : ∀ y ∈ xs, y.1 + y.2 < x.1) :
    Sorted (xs ++ r.1 :: r.2) ∧ ∀ b, Cov (xs ++ r.1 :: r.2) b ↔ Cov (xs ++ ys) b ∨ In x b := by
  obtain ⟨htail, -, -⟩ := sorted_cons.mp h.sorted
  refine ⟨sorted_append.mpr ⟨hxs, h.sorted, fun y hy z hz => ?_⟩, fun b => ?_⟩
  · have h0 := hgap y hy
    have h1 := h.start
    rcases List.mem_cons.mp hz with rfl | hz
    · omega
    · have := htail z hz
      omega
  · rw [cov_append, cov_append, h.cov]
    tauto

/-- **Joined with the extent before it**, which it touches. -/
theorem glue (h : Joined x ys r) (hxs : Sorted (us ++ [w])) (htouch : w.1 + w.2 = x.1) :
    Sorted (us ++ (w.1, w.2 + r.1.2) :: r.2) ∧ ∀ b, Cov (us ++ (w.1, w.2 + r.1.2) :: r.2) b ↔ Cov ((us ++ [w]) ++ ys) b ∨ In x b := by
  obtain ⟨htail, -, hr⟩ := sorted_cons.mp h.sorted
  obtain ⟨hus, -, hgap⟩ := sorted_append.mp hxs
  have hw : ∀ y ∈ us, y.1 + y.2 < w.1 := fun y hy => hgap y hy w List.mem_cons_self
  have h1 := h.start
  refine ⟨sorted_append.mpr ⟨hus, sorted_cons.mpr ⟨fun z hz => ?_, Nat.add_pos_right _ h.pos, hr⟩, fun y hy z hz => ?_⟩, fun b => ?_⟩
  · have := htail z hz
    dsimp only
    omega
  · have h0 := hw y hy
    rcases List.mem_cons.mp hz with rfl | hz
    · exact h0
    · have := htail z hz
      omega
  · have hc := h.cov b
    rw [cov_cons] at hc
    have hin : In (w.1, w.2 + r.1.2) b ↔ In w b ∨ In r.1 b := by
      unfold In
      dsimp only
      omega
    rw [cov_append, cov_cons, cov_append, cov_append, cov_cons, hin]
    have hnil := cov_nil (b := b)
    tauto

end Joined

end OsLabs.Extents
