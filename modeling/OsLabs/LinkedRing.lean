import Mathlib.Data.List.Nodup
import Mathlib.Logic.Function.Basic
import Mathlib.Tactic.SplitIfs

/-!
# OsLabs.LinkedRing — while loops, and circular lists in a heap of links

A heap of links is a function `next : P → P`.  `Links next a xs b` says that following `next` from `a` one visits `xs` in order and
then comes to `b`; a `Ring` is such a path from a head back to itself on which no node stands twice.

* `whileLoop c f n`: the loop `while (c) f` as long as `n` rounds are enough; `whileLoop_mono`: more rounds change nothing.
* `Links.append`, `Links.update`: paths are cut and glued, and do not see writes to other nodes.
* `Ring.unique`: a heap has one ring through a head.
* `Ring.insert`, `Ring.remove`: a node put in behind another one, or taken out.
-/

namespace OsLabs.LinkedRing

/-! ## While loops -/

section Loop

variable {σ : Type*} {c : σ → Prop} [DecidablePred c] {f : σ → σ} {m n : ℕ} {s t : σ}

/-- `while (c) s = f(s)`, for at most `n` tests of the condition. -/
def whileLoop (c : σ → Prop) [DecidablePred c] (f : σ → σ) : ℕ → σ → Option σ
  | 0, _ => none
  | n + 1, s => if c s then whileLoop c f n (f s) else some s

theorem whileLoop_stop (h : ¬ c s) : whileLoop c f (n + 1) s = some s := by rw [whileLoop, if_neg h]

theorem whileLoop_next (h : c s) : whileLoop c f (n + 1) s = whileLoop c f n (f s) := by rw [whileLoop, if_pos h]

/-- **Enough is enough.**  A loop that has come to its end does the same with more rounds. -/
theorem whileLoop_mono : ∀ {m n : ℕ} {s : σ}, whileLoop c f m s = some t → m ≤ n → whileLoop c f n s = some t
  | 0, _, _, h, _ => by cases h
  | m + 1, n, s, h, hmn => by
    obtain ⟨n, rfl⟩ : ∃ k, n = k + 1 := ⟨n - 1, by omega⟩
    rw [whileLoop] at h ⊢
    split_ifs at h ⊢ with hc
    · exact whileLoop_mono h (by omega)
    · exact h

end Loop

/-! ## Paths -/

variable {P : Type*} {next : P → P} {a b head p q x : P} {xs ys : List P}

/-- From `a` along `next` through `xs` to `b`. -/
def Links (next : P → P) : P → List P → P → Prop
  | a, [], b => next a = b
  | a, x :: xs, b => next a = x ∧ Links next x xs b

/-- The last node before the end of a path from `a` through `xs`. -/
def lastOf : P → List P → P
  | a, [] => a
  | _, x :: xs => lastOf x xs

theorem lastOf_mem : ∀ (a : P) (xs : List P), lastOf a xs ∈ a :: xs
  | _, [] => List.mem_cons_self
  | _, x :: xs => List.mem_cons_of_mem _ (lastOf_mem x xs)

namespace Links

theorem append : ∀ {xs : List P} {a : P}, Links next a (xs ++ x :: ys) b ↔ Links next a xs x ∧ Links next x ys b
  | [], a => Iff.rfl
  | y :: xs, a => by
    rw [List.cons_append, Links, Links, append, and_assoc]

theorem last : ∀ {xs : List P} {a : P}, Links next a xs b → next (lastOf a xs) = b
  | [], _, h => h
  | _ :: _, _, h => h.2.last

/-- Only the links of the nodes on the path count. -/
theorem congr {next' : P → P} : ∀ {xs : List P} {a : P}, Links next a xs b → (∀ x ∈ a :: xs, next' x = next x) → Links next' a xs b
  | [], a, h, he => (he a List.mem_cons_self).trans h
  | x :: xs, a, h, he => by
    obtain ⟨ha, hxs⟩ := List.forall_mem_cons.mp he
    exact ⟨ha.trans h.1, congr h.2 hxs⟩

/-- A write to a node that is not on the path. -/
theorem update [DecidableEq P] : ∀ {xs : List P} {a : P}, Links next a xs b → p ∉ a :: xs → Links (Function.update next p q) a xs b
  | [], a, h, hp => by
    rw [Links, Function.update_of_ne (Ne.symm (List.ne_of_not_mem_cons hp))]
    exact h
  | x :: xs, a, h, hp => by
    obtain ⟨hne, hp⟩ := List.ne_and_not_mem_of_not_mem_cons hp
    rw [Links, Function.update_of_ne hne.symm]
    exact ⟨h.1, h.2.update hp⟩

/-- The last link of a path moved to another node. -/
theorem relink [DecidableEq P] : ∀ {xs : List P} {a : P}, Links next a xs b → (a :: xs).Nodup →
    Links (Function.update next (lastOf a xs) q) a xs q
  | [], a, _, _ => by
    rw [Links, lastOf, Function.update_self]
  | x :: xs, a, h, hnd => by
    obtain ⟨ha, hnd⟩ := List.nodup_cons.mp hnd
    have hne : a ≠ lastOf x xs := fun he => ha (he ▸ lastOf_mem x xs)
    rw [Links, lastOf, Function.update_of_ne hne]
    exact ⟨h.1, h.2.relink hnd⟩

/-- A path cut behind any of its nodes. -/
theorem split : ∀ {xs : List P} {a : P}, Links next a (xs ++ ys) b ↔
    Links next a xs (next (lastOf a xs)) ∧ Links next (lastOf a xs) ys b
  | [], _ => ⟨fun h => ⟨rfl, h⟩, fun h => h.2⟩
  | x :: xs, a => by
    rw [List.cons_append, Links, Links, split, and_assoc]
    rfl

/-- A node that gets the link of `a` leads where `a` leads. -/
theorem redirect [DecidableEq P] (h : Links next a xs b) (hp : p ∉ xs) : Links (Function.update next p (next a)) p xs b := by
  cases xs with
  | nil =>
    rw [Links, Function.update_self]
    exact h
  | cons x xs =>
    rw [Links, Function.update_self]
    exact ⟨h.1, h.2.update hp⟩

/-- Two paths to the same end, neither of which passes it on the way. -/
theorem unique : ∀ {xs ys : List P} {a : P}, Links next a xs b → Links next a ys b → b ∉ xs → b ∉ ys → xs = ys
  | [], [], _, _, _, _, _ => rfl
  | [], y :: ys, _, h1, h2, _, hy => absurd (h2.1.symm.trans h1) fun he => hy (he ▸ List.mem_cons_self)
  | x :: xs, [], _, h1, h2, hx, _ => absurd (h1.1.symm.trans h2) fun he => hx (he ▸ List.mem_cons_self)
  | x :: xs, y :: ys, _, h1, h2, hx, hy => by
    obtain rfl : x = y := h1.1.symm.trans h2.1
    rw [unique h1.2 h2.2 (fun h => hx (List.mem_cons_of_mem _ h)) fun h => hy (List.mem_cons_of_mem _ h)]

/-- The last link of a path moved to a node that leads on. -/
theorem hang [DecidableEq P] {next : P → P} {a b p q : P} {xs ys : List P} (h : Links next a xs q) (hnd : (a :: xs).Nodup)
    (h' : Links next p ys b) (hl : lastOf a xs ∉ p :: ys) : Links (Function.update next (lastOf a xs) p) a (xs ++ p :: ys) b :=
  append.mpr ⟨h.relink hnd, h'.update hl⟩

/-- The last link of a path moved to where a node leads, past that node. -/
theorem skip [DecidableEq P] {next : P → P} {a b p q : P} {xs ys : List P} (h : Links next a xs q) (hnd : (a :: xs).Nodup)
    (h' : Links next p ys b) (hl : lastOf a xs ∉ ys) : Links (Function.update next (lastOf a xs) (next p)) a (xs ++ ys) b := by
  refine split.mpr ⟨?_, h'.redirect hl⟩
  rw [Function.update_self]
  exact h.relink hnd

end Links

/-! ## Rings -/

/-- **A circular list.**  From `head` through `xs` back to `head`, no node twice. -/
structure Ring (next : P → P) (head : P) (xs : List P) : Prop where
  links : Links next head xs head
  nodup : (head :: xs).Nodup

namespace Ring

theorem head_notMem (h : Ring next head xs) : head ∉ xs := (List.nodup_cons.mp h.nodup).1

/-- A heap has one ring through a head. -/
theorem unique (h : Ring next head xs) (h' : Ring next head ys) : xs = ys :=
  h.links.unique h'.links h.head_notMem h'.head_notMem

variable [DecidableEq P]

/-- A write to a node that is not on the ring. -/
theorem update (h : Ring next head xs) (hp : p ∉ head :: xs) : Ring (Function.update next p q) head xs :=
  ⟨h.links.update hp, h.nodup⟩

/-- **Insertion.**  A node put in behind `lastOf head xs`, where the path goes on with `ys`. -/
theorem insert (h : Ring next head (xs ++ ys)) (hp : p ∉ head :: (xs ++ ys)) :
    Ring (Function.update (Function.update next p (next (lastOf head xs))) (lastOf head xs) p) head (xs ++ p :: ys) := by
  have hmem : lastOf head xs ∈ head :: (xs ++ ys) := List.mem_append_left ys (lastOf_mem head xs)
  have hne : p ≠ lastOf head xs := fun he => hp (he ▸ hmem)
  have hnd : (head :: (xs ++ p :: ys)).Nodup := by
    have hperm : (p :: (head :: (xs ++ ys))).Perm (head :: (xs ++ p :: ys)) :=
      (List.Perm.swap head p _).trans (List.perm_middle.symm.cons head)
    exact hperm.nodup_iff.mp (List.nodup_cons.mpr ⟨hp, h.nodup⟩)
  have hxs : (head :: xs).Nodup := (List.nodup_append.mp (show ((head :: xs) ++ ys).Nodup from h.nodup)).1
  have hpxs : p ∉ head :: xs := fun hm => hp (List.mem_append_left ys hm)
  refine ⟨Links.append.mpr ⟨?_, ?_⟩, hnd⟩
  · -- up to the place of the insertion nothing but the last link is new
    cases ys with
    | nil =>
      rw [List.append_nil] at h
      exact (h.links.update hpxs).relink hxs
    | cons y ys => exact ((Links.append.mp h.links).1.update hpxs).relink hxs
  · cases ys with
    | nil =>
      rw [List.append_nil] at h
      rw [Links, Function.update_of_ne hne, Function.update_self, h.links.last]
    | cons y ys =>
      obtain ⟨h1, h2⟩ := Links.append.mp h.links
      have hnot : lastOf head xs ∉ y :: ys := fun hm =>
        (List.nodup_append.mp (show ((head :: xs) ++ (y :: ys)).Nodup from h.nodup)).2.2 _ (lastOf_mem head xs) _ hm rfl
      rw [Links, Function.update_of_ne hne, Function.update_self, h1.last]
      exact ⟨rfl, (h2.update fun hm => hp (List.mem_append_right (head :: xs) hm)).update hnot⟩

/-- **Removal.**  The node behind `lastOf head xs` taken out and linked to itself. -/
theorem remove (h : Ring next head (xs ++ p :: ys)) :
    Ring (Function.update (Function.update next (lastOf head xs) (next p)) p p) head (xs ++ ys) := by
  have hperm : (head :: (xs ++ p :: ys)).Perm (p :: (head :: (xs ++ ys))) :=
    (List.perm_middle.cons head).trans (List.Perm.swap p head _)
  obtain ⟨hp, hnd⟩ := List.nodup_cons.mp (hperm.nodup_iff.mp h.nodup)
  have hxs : (head :: xs).Nodup := (List.nodup_append.mp (show ((head :: xs) ++ ys).Nodup from hnd)).1
  obtain ⟨h1, h2⟩ := Links.append.mp h.links
  refine Ring.update ⟨?_, hnd⟩ hp
  cases ys with
  | nil =>
    rw [Links] at h2
    rw [List.append_nil, h2]
    exact h1.relink hxs
  | cons y ys =>
    have hnot : lastOf head xs ∉ y :: ys := fun hm =>
      (List.nodup_append.mp (show ((head :: xs) ++ (y :: ys)).Nodup from hnd)).2.2 _ (lastOf_mem head xs) _ hm rfl
    rw [h2.1]
    exact Links.append.mpr ⟨h1.relink hxs, h2.2.update hnot⟩

end Ring

end OsLabs.LinkedRing
