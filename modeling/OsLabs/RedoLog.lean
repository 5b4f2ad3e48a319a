import Mathlib.Data.List.Nodup
import Mathlib.Logic.Function.Basic
import Mathlib.Tactic.SplitIfs

/-!
# OsLabs.RedoLog — a redo log on a disk

A disk is a function from block numbers to contents.  The log is a `Region` of it: a header block, which names the home blocks of a
committed group, and after it one copy for each block it names.  `rd` is how a header is read.

* `Live rd r d st L t`: the header of `d` names `L`, the copies hold the state `st`, and so does every home block but those that `L`
  names from place `t` on.
* `Live.copy_write`, `Live.commit`, `Live.install`, `Live.erase`: what each write of a commit does, in the order of a commit.
* `replay`: the home blocks as a recovery from the header leaves them.  `Live.replay_eq`: that is `st`, wherever the writes stopped.
-/

namespace OsLabs.RedoLog

/-- Where the log lies: the header at `start`, the copies behind it, `size` blocks in all. -/
structure Region where
  start : ℕ
  size : ℕ

namespace Region

/-- A block outside the log. -/
def Home (r : Region) (b : ℕ) : Prop := b < r.start ∨ r.start + r.size ≤ b

instance (r : Region) (b : ℕ) : Decidable (r.Home b) := inferInstanceAs (Decidable (_ ∨ _))

/-- The place of copy number `i`. -/
def slot (r : Region) (i : ℕ) : ℕ := r.start + i + 1

theorem slot_ne_start (r : Region) (i : ℕ) : r.slot i ≠ r.start := by
  unfold slot
  omega

theorem slot_inj {r : Region} {i j : ℕ} : r.slot i = r.slot j ↔ i = j := by
  unfold slot
  omega

theorem Home.ne_start {r : Region} {b : ℕ} (h : r.Home b) (hr : 0 < r.size) : b ≠ r.start := by
  unfold Home at h
  omega

theorem Home.ne_slot {r : Region} {b i : ℕ} (h : r.Home b) (hi : i + 1 < r.size) : b ≠ r.slot i := by
  unfold Home at h
  unfold slot
  omega

theorem slot_not_home {r : Region} {i : ℕ} (hi : i + 1 < r.size) : ¬ r.Home (r.slot i) := by
  unfold Home slot
  omega

theorem start_not_home {r : Region} (hr : 0 < r.size) : ¬ r.Home r.start := by
  unfold Home
  omega

end Region

variable {β : Type*} {rd : β → List ℕ} {r : Region} {d st : ℕ → β} {L : List ℕ} {t : ℕ}

/-- **A disk that stands for the state `st`.**  The header names `L`; the blocks of `L` before place `t` have been installed. -/
structure Live (rd : β → List ℕ) (r : Region) (d st : ℕ → β) (L : List ℕ) (t : ℕ) : Prop where
  header : rd (d r.start) = L
  nodup : L.Nodup
  home : ∀ b ∈ L, r.Home b
  fits : L.length < r.size
  copy : ∀ (i : ℕ) (h : i < L.length), d (r.slot i) = st L[i]
  rest : ∀ b, r.Home b → b ∉ L.drop t → d b = st b

namespace Live

/-- While the header is empty the copies may be written. -/
theorem copy_write {i : ℕ} (h : Live rd r d st [] 0) (hi : i + 1 < r.size) (x : β) :
    Live rd r (Function.update d (r.slot i) x) st [] 0 where
  header := by rw [Function.update_of_ne (r.slot_ne_start i).symm, h.header]
  nodup := h.nodup
  home := h.home
  fits := h.fits
  copy j hj := absurd hj (Nat.not_lt_zero j)
  rest b hb hn := by rw [Function.update_of_ne (hb.ne_slot hi), h.rest b hb hn]

/-- **The commit point.**  Once the copies hold the new state of the blocks in `L`, the write of the header makes the disk stand for it. -/
theorem commit {cur : ℕ → β} {x : β} (h : Live rd r d st [] 0) (hnd : L.Nodup) (hhome : ∀ b ∈ L, r.Home b)
    (hfit : L.length < r.size) (hcopy : ∀ (i : ℕ) (h : i < L.length), d (r.slot i) = cur L[i])
    (hcur : ∀ b, r.Home b → b ∉ L → cur b = st b) (hx : rd x = L) :
    Live rd r (Function.update d r.start x) cur L 0 where
  header := by rw [Function.update_self, hx]
  nodup := hnd
  home := hhome
  fits := hfit
  copy i hi := by rw [Function.update_of_ne (r.slot_ne_start i), hcopy i hi]
  rest b hb hn := by
    rw [Function.update_of_ne (hb.ne_start (Nat.zero_lt_of_lt hfit)), h.rest b hb (by simp), hcur b hb (by simpa using hn)]

/-- One copy is written to its home. -/
theorem install (h : Live rd r d st L t) (ht : t < L.length) :
    Live rd r (Function.update d L[t] (st L[t])) st L (t + 1) := by
  have hhome := h.home _ (List.getElem_mem ht)
  refine ⟨?_, h.nodup, h.home, h.fits, fun i hi => ?_, fun b hb hn => ?_⟩
  · rw [Function.update_of_ne (hhome.ne_start (Nat.zero_lt_of_lt h.fits)).symm, h.header]
  · have hslot : i + 1 < r.size := by
      have := h.fits
      omega
    rw [Function.update_of_ne (hhome.ne_slot hslot).symm, h.copy i hi]
  · by_cases hbt : b = L[t]
    · rw [hbt, Function.update_self]
    · rw [Function.update_of_ne hbt]
      refine h.rest b hb fun hmem => ?_
      rw [List.drop_eq_getElem_cons ht] at hmem
      rcases List.mem_cons.mp hmem with he | he
      · exact hbt he
      · exact hn he

/-- The header is erased when every copy has been installed. -/
theorem erase {x : β} (h : Live rd r d st L L.length) (hx : rd x = []) :
    Live rd r (Function.update d r.start x) st [] 0 where
  header := by rw [Function.update_self, hx]
  nodup := List.nodup_nil
  home b hb := absurd hb List.not_mem_nil
  fits := Nat.zero_lt_of_lt h.fits
  copy i hi := absurd hi (Nat.not_lt_zero i)
  rest b hb _ := by
    rw [Function.update_of_ne (hb.ne_start (Nat.zero_lt_of_lt h.fits)), h.rest b hb (by simp)]

/-- A disk that has to be installed from the start on is one that recovery may begin with. -/
theorem restart (h : Live rd r d st L t) : Live rd r d st L 0 where
  header := h.header
  nodup := h.nodup
  home := h.home
  fits := h.fits
  copy := h.copy
  rest b hb hn := h.rest b hb fun hmem => hn (by simpa using List.mem_of_mem_drop hmem)

/-- The state matters at home blocks only. -/
theorem congr {st' : ℕ → β} (h : Live rd r d st L t) (heq : ∀ b, r.Home b → st b = st' b) : Live rd r d st' L t where
  header := h.header
  nodup := h.nodup
  home := h.home
  fits := h.fits
  copy i hi := by rw [h.copy i hi, heq _ (h.home _ (List.getElem_mem hi))]
  rest b hb hn := by rw [h.rest b hb hn, heq b hb]

end Live

/-- The blocks that a recovery leaves: those that the header names come from their copies. -/
def replay (rd : β → List ℕ) (r : Region) (d : ℕ → β) (b : ℕ) : β :=
  if b ∈ rd (d r.start) then d (r.slot ((rd (d r.start)).idxOf b)) else d b

/-- **Wherever the writes stopped**, recovery finds the state that the disk stands for. -/
theorem Live.replay_eq {b : ℕ} (h : Live rd r d st L t) (hb : r.Home b) : replay rd r d b = st b := by
  unfold replay
  rw [h.header]
  split_ifs with hmem
  · have hlt := List.idxOf_lt_length_of_mem hmem
    rw [h.copy _ hlt, List.getElem_idxOf hlt]
  · exact h.rest b hb fun hd => hmem (List.mem_of_mem_drop hd)

end OsLabs.RedoLog
