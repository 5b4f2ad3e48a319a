import Mathlib.Computability.Language

/-!
# OsLabs.LetterPattern — patterns of letters and repeated letters

A pattern is a list of items: one letter of a class, or any number of letters of a class.  What it matches is a language.

* `lang items rest`: the words that the items match, followed by a word of `rest`.
* `mem_letter_mul`, `nil_mem_many_mul`, `cons_mem_many_mul`: how a matcher decides them, letter by letter.
* `mem_top_mul`: a word with a matching word somewhere in it.
-/

namespace OsLabs.LetterPattern

open Computability

variable {α : Type*} {p : α → Bool} {L : Language α} {a : α} {w : List α}

inductive Item (α : Type*)
  | one (p : α → Bool)
  | many (p : α → Bool)

/-- The words of one letter of the class `p`. -/
def letter (p : α → Bool) : Language α := {w | ∃ a, p a = true ∧ w = [a]}

def Item.lang : Item α → Language α
  | .one p => letter p
  | .many p => (letter p)∗

def lang (items : List (Item α)) (rest : Language α) : Language α := (items.map Item.lang).prod * rest

@[simp] theorem lang_nil (rest : Language α) : lang [] rest = rest := one_mul rest

theorem lang_cons (i : Item α) (items : List (Item α)) (rest : Language α) : lang (i :: items) rest = i.lang * lang items rest := by
  unfold lang
  rw [List.map_cons, List.prod_cons, mul_assoc]

theorem mem_letter_mul : a :: w ∈ letter p * L ↔ p a = true ∧ w ∈ L := by
  rw [Language.mem_mul]
  constructor
  · rintro ⟨_, ⟨b, hb, rfl⟩, v, hv, h⟩
    rw [List.singleton_append] at h
    obtain ⟨rfl, rfl⟩ := List.cons.inj h
    exact ⟨hb, hv⟩
  · rintro ⟨ha, hw⟩
    exact ⟨[a], ⟨a, ha, rfl⟩, w, hw, rfl⟩

theorem nil_notMem_letter_mul : [] ∉ letter p * L := by
  rw [Language.mem_mul]
  rintro ⟨_, ⟨b, -, rfl⟩, v, -, h⟩
  cases h

/-- The repetition ends here, or it takes a letter first. -/
theorem many_mul (p : α → Bool) (L : Language α) : (letter p)∗ * L = L + letter p * ((letter p)∗ * L) := by
  calc (letter p)∗ * L = (1 + letter p * (letter p)∗) * L := by rw [Language.one_add_self_mul_kstar_eq_kstar]
    _ = L + letter p * ((letter p)∗ * L) := by rw [add_mul, one_mul, mul_assoc]

theorem nil_mem_many_mul : [] ∈ (letter p)∗ * L ↔ [] ∈ L := by
  rw [many_mul, Language.mem_add]
  exact or_iff_left nil_notMem_letter_mul

theorem cons_mem_many_mul : a :: w ∈ (letter p)∗ * L ↔ a :: w ∈ L ∨ (p a = true ∧ w ∈ (letter p)∗ * L) := by
  rw [many_mul, Language.mem_add, mem_letter_mul, ← many_mul]

theorem mem_top_mul : w ∈ (⊤ : Language α) * L ↔ ∃ v, v <:+ w ∧ v ∈ L := by
  rw [Language.mem_mul]
  constructor
  · rintro ⟨u, -, v, hv, rfl⟩
    exact ⟨v, List.suffix_append u v, hv⟩
  · rintro ⟨v, ⟨u, rfl⟩, hv⟩
    exact ⟨u, trivial, v, hv, rfl⟩

theorem nil_mem_top_mul : [] ∈ (⊤ : Language α) * L ↔ [] ∈ L := by
  rw [mem_top_mul]
  constructor
  · rintro ⟨v, hv, h⟩
    rwa [List.suffix_nil.mp hv] at h
  · intro h
    exact ⟨[], List.suffix_rfl, h⟩

theorem cons_mem_top_mul : a :: w ∈ (⊤ : Language α) * L ↔ a :: w ∈ L ∨ w ∈ (⊤ : Language α) * L := by
  rw [mem_top_mul, mem_top_mul]
  constructor
  · rintro ⟨v, hv, h⟩
    rcases List.suffix_cons_iff.mp hv with rfl | hv
    · exact .inl h
    · exact .inr ⟨v, hv, h⟩
  · rintro (h | ⟨v, hv, h⟩)
    · exact ⟨_, List.suffix_rfl, h⟩
    · exact ⟨v, hv.trans (List.suffix_cons a w), h⟩

end OsLabs.LetterPattern
