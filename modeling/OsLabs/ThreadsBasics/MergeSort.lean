import OsLabs.Segment
import Mathlib.Algebra.Order.Ring.Int

/-!
# OsLabs.ThreadsBasics.MergeSort — `Merge` and `MergeSort` (thread_sorting/threadSort.c)

`Merge` merges the two halves of its part of the array.  Its first loop goes on while `lpos <= mid`, although the left half ends before
`mid`: once the left half is used up, `array[mid]`, the first entry of the right half, is compared with what is left there and may be
taken a second time.  One entry too many is then written back.

* `mergeLists`: the merge on lists; `merged_eq` says the loops compute it.
* `Slips L R`: some entry of the right half is larger than another one there and than the whole left half.
* `length_mergeLists_of_slips`, `mergeLists_perm`, `mergeLists_sorted`: one entry too many when the halves slip, a sorted permutation
  when they do not.
* `everyCall_iff_tame`: the call and all it makes sort, and keep to their part of the array and to `tempArray`, exactly when no two
  halves slip.
-/

namespace OsLabs.ThreadsBasics.MergeSort

open Segment

/-! ## The program -/

/-- `MAX_VALS_PER_THREAD`. -/
def maxValsPerThread : ℕ := 1000

/-- The array, the indices of it written so far, and the largest number of entries a `tempArray` has been given. -/
structure Mem where
  array : ℕ → ℤ
  written : List ℕ
  temp : ℕ

/-- `array[i] = v`. -/
def Mem.write (h : Mem) (i : ℕ) (v : ℤ) : Mem :=
  { h with array := Function.update h.array i v, written := i :: h.written }

/-- The first loop of `Merge`; `tempArray` is what has been put there, so `pos` is its length. -/
def mergeLoop (array : ℕ → ℤ) (mid right lpos rpos : ℕ) (tempArray : List ℤ) : ℕ × ℕ × List ℤ :=
  if lpos ≤ mid ∧ rpos ≤ right then
    if array lpos < array rpos then mergeLoop array mid right (lpos + 1) rpos (tempArray ++ [array lpos])
    else mergeLoop array mid right lpos (rpos + 1) (tempArray ++ [array rpos])
  else (lpos, rpos, tempArray)
termination_by (mid + 1 - lpos) + (right + 1 - rpos)

/-- `while (pos < stop) tempArray[...] = array[pos++]`. -/
def copyLoop (array : ℕ → ℤ) (stop pos : ℕ) (tempArray : List ℤ) : List ℤ :=
  if pos < stop then copyLoop array stop (pos + 1) (tempArray ++ [array pos]) else tempArray
termination_by stop - pos

/-- The last loop of `Merge`. -/
def writeBack : List ℤ → ℕ → Mem → Mem
  | [], _, h => h
  | v :: tempArray, i, h => writeBack tempArray (i + 1) (h.write i v)

/-- What the loops of `Merge` put into `tempArray`. -/
def merged (array : ℕ → ℤ) (mid right lpos rpos : ℕ) (tempArray : List ℤ) : List ℤ :=
  let r := mergeLoop array mid right lpos rpos tempArray
  copyLoop array (right + 1) r.2.1 (copyLoop array mid r.1 r.2.2)

/-- `Merge(array + p, left, mid, right)`. -/
def merge (h : Mem) (p left mid right : ℕ) : Mem :=
  let tempArray := merged (fun i => h.array (p + i)) mid right left mid []
  writeBack tempArray (p + left) { h with temp := max h.temp tempArray.length }

/-- `MergeSort(array + p, inputLength)`. -/
def mergeSort (h : Mem) (p inputLength : ℕ) : Mem :=
  let mid := inputLength / 2
  if _ : inputLength > 1 then
    merge (mergeSort (mergeSort h p mid) (p + mid) (inputLength - mid)) p 0 mid (inputLength - 1)
  else h
termination_by inputLength

/-! ## The merge on lists -/

/-- The merge as `Merge` does it: with the left half used up, `r0 = array[mid]` stands in its place once more. -/
def mergeLists (r0 : ℤ) : List ℤ → List ℤ → List ℤ
  | L, [] => L
  | [], y :: R => if r0 < y then r0 :: y :: R else y :: mergeLists r0 [] R
  | x :: L, y :: R => if x < y then x :: mergeLists r0 L (y :: R) else y :: mergeLists r0 (x :: L) R
termination_by L R => L.length + R.length

theorem copyLoop_eq (array : ℕ → ℤ) (stop pos : ℕ) (t : List ℤ) :
    copyLoop array stop pos t = t ++ seg array pos (stop - pos) := by
  fun_induction copyLoop array stop pos t with
  | case1 pos t hlt ih =>
    rw [ih, show stop - pos = stop - (pos + 1) + 1 by omega, seg_succ, List.append_assoc]
    rfl
  | case2 pos t hge => rw [show stop - pos = 0 by omega, seg_zero, List.append_nil]

/-- **The loops of `Merge` compute `mergeLists`.** -/
theorem merged_eq (array : ℕ → ℤ) {mid right lpos rpos : ℕ} (t : List ℤ) (hl : lpos ≤ mid) (hr : rpos ≤ right + 1) :
    merged array mid right lpos rpos t =
      t ++ mergeLists (array mid) (seg array lpos (mid - lpos)) (seg array rpos (right + 1 - rpos)) := by
  unfold merged
  fun_induction mergeLoop array mid right lpos rpos t with
  | case1 lpos rpos t hin hlt ih =>
    rw [show right + 1 - rpos = right - rpos + 1 by omega, seg_succ]
    rcases hl.lt_or_eq with hlm | rfl
    · rw [ih (by omega) hr, show mid - lpos = mid - (lpos + 1) + 1 by omega, seg_succ, mergeLists, if_pos hlt,
        show right + 1 - rpos = right - rpos + 1 by omega, seg_succ, List.append_assoc]
      rfl
    · -- the left half is used up: `array[mid]` is taken, and the loop ends
      rw [Nat.sub_self, seg_zero, mergeLists, if_pos hlt, mergeLoop, if_neg (by omega), copyLoop_eq, copyLoop_eq]
      rw [show lpos - (lpos + 1) = 0 by omega, seg_zero, List.append_nil, show right + 1 - rpos = right - rpos + 1 by omega,
        seg_succ, List.append_assoc]
      rfl
  | case2 lpos rpos t hin hge ih =>
    rw [ih hl (by omega), show right + 1 - rpos = right + 1 - (rpos + 1) + 1 by omega, seg_succ, List.append_assoc]
    rcases hl.lt_or_eq with hlm | rfl
    · rw [show mid - lpos = mid - (lpos + 1) + 1 by omega, seg_succ, mergeLists, if_neg hge]
      rfl
    · rw [Nat.sub_self, seg_zero, mergeLists, if_neg hge]
      rfl
  | case3 lpos rpos t hout =>
    rw [copyLoop_eq, copyLoop_eq, show right + 1 - rpos = 0 by omega, seg_zero, List.append_nil, mergeLists]

/-- Some entry of the right half is larger than another one there and than all of the left half. -/
def Slips (L R : List ℤ) : Prop := ∃ y ∈ R, (∃ z ∈ R, z < y) ∧ ∀ x ∈ L, x < y

theorem slips_congr {L R L' R' : List ℤ} (hL : L.Perm L') (hR : R.Perm R') : Slips L R ↔ Slips L' R' := by
  simp only [Slips, hL.mem_iff, hR.mem_iff]

theorem head_le {y z : ℤ} {R : List ℤ} (hR : (y :: R).Pairwise (· ≤ ·)) (hz : z ∈ y :: R) : y ≤ z := by
  rcases List.mem_cons.mp hz with rfl | hz
  · exact le_rfl
  · exact List.rel_of_pairwise_cons hR hz

/-- With the right half sorted, its first entry is the one to compare with. -/
theorem slips_cons {L R : List ℤ} {r0 : ℤ} (hR : (r0 :: R).Pairwise (· ≤ ·)) :
    Slips L (r0 :: R) ↔ ∃ y ∈ r0 :: R, r0 < y ∧ ∀ x ∈ L, x < y := by
  constructor
  · rintro ⟨y, hy, ⟨z, hz, hzy⟩, hx⟩
    exact ⟨y, hy, (head_le hR hz).trans_lt hzy, hx⟩
  · rintro ⟨y, hy, hr0y, hx⟩
    exact ⟨y, hy, ⟨r0, List.mem_cons_self, hr0y⟩, hx⟩

/-- **One entry too many.** -/
theorem length_mergeLists_of_slips (r0 : ℤ) (L R : List ℤ) (h : ∃ y ∈ R, r0 < y ∧ ∀ x ∈ L, x < y) :
    (mergeLists r0 L R).length = L.length + R.length + 1 := by
  fun_induction mergeLists r0 L R with
  | case1 L =>
    obtain ⟨y, hy, -⟩ := h
    exact absurd hy List.not_mem_nil
  | case2 y R hlt => simp
  | case3 y R hge ih =>
    obtain ⟨y', hy', hlt, hx⟩ := h
    have hmem : y' ∈ R := by
      rcases List.mem_cons.mp hy' with rfl | hmem
      · exact absurd hlt hge
      · exact hmem
    rw [List.length_cons, ih ⟨y', hmem, hlt, hx⟩]
    simp only [List.length_cons, List.length_nil]
    omega
  | case4 x L y R hxy ih =>
    obtain ⟨y', hy', hlt, hx⟩ := h
    rw [List.length_cons, ih ⟨y', hy', hlt, fun z hz => hx z (List.mem_cons_of_mem _ hz)⟩]
    simp only [List.length_cons]
    omega
  | case5 x L y R hxy ih =>
    obtain ⟨y', hy', hlt, hx⟩ := h
    have hmem : y' ∈ R := by
      rcases List.mem_cons.mp hy' with rfl | hmem
      · exact absurd (hx x List.mem_cons_self) hxy
      · exact hmem
    rw [List.length_cons, ih ⟨y', hmem, hlt, hx⟩]
    simp only [List.length_cons]
    omega

/-- An entry of the left half that is taken first is below all of the right half: nothing waits for it. -/
theorem waits_tail {r0 x y : ℤ} {L R : List ℤ} (hR : (y :: R).Pairwise (· ≤ ·)) (hxy : x < y)
    (h : ∀ z ∈ y :: R, r0 < z → ∃ w ∈ x :: L, z ≤ w) : ∀ z ∈ y :: R, r0 < z → ∃ w ∈ L, z ≤ w := by
  intro z hz hlt
  obtain ⟨w, hw, hzw⟩ := h z hz hlt
  rcases List.mem_cons.mp hw with rfl | hw
  · exact absurd ((head_le hR hz).trans hzw) (not_le.mpr hxy)
  · exact ⟨w, hw, hzw⟩

/-- **Nothing is taken twice** when every entry of the right half above `r0` waits for one of the left half. -/
theorem mergeLists_perm (r0 : ℤ) (L R : List ℤ) (hR : R.Pairwise (· ≤ ·)) (h : ∀ y ∈ R, r0 < y → ∃ x ∈ L, y ≤ x) :
    (mergeLists r0 L R).Perm (L ++ R) := by
  fun_induction mergeLists r0 L R with
  | case1 L => rw [List.append_nil]
  | case2 y R hlt =>
    obtain ⟨x, hx, -⟩ := h y List.mem_cons_self hlt
    exact absurd hx List.not_mem_nil
  | case3 y R hge ih => exact (ih hR.of_cons fun z hz => h z (List.mem_cons_of_mem _ hz)).cons y
  | case4 x L y R hxy ih => exact (ih hR (waits_tail hR hxy h)).cons x
  | case5 x L y R hxy ih =>
    exact ((ih hR.of_cons fun z hz => h z (List.mem_cons_of_mem _ hz)).cons y).trans List.perm_middle.symm

/-- … and the result is sorted. -/
theorem mergeLists_sorted (r0 : ℤ) (L R : List ℤ) (hL : L.Pairwise (· ≤ ·)) (hR : R.Pairwise (· ≤ ·))
    (h : ∀ y ∈ R, r0 < y → ∃ x ∈ L, y ≤ x) : (mergeLists r0 L R).Pairwise (· ≤ ·) := by
  fun_induction mergeLists r0 L R with
  | case1 L => exact hL
  | case2 y R hlt =>
    obtain ⟨x, hx, -⟩ := h y List.mem_cons_self hlt
    exact absurd hx List.not_mem_nil
  | case3 y R hge ih =>
    have h' : ∀ z ∈ R, r0 < z → ∃ x ∈ ([] : List ℤ), z ≤ x := fun z hz => h z (List.mem_cons_of_mem _ hz)
    refine List.pairwise_cons.mpr ⟨fun w hw => ?_, ih hL hR.of_cons h'⟩
    exact List.rel_of_pairwise_cons hR ((mergeLists_perm r0 [] R hR.of_cons h').mem_iff.mp hw)
  | case4 x L y R hxy ih =>
    have h' := waits_tail hR hxy h
    refine List.pairwise_cons.mpr ⟨fun w hw => ?_, ih hL.of_cons hR h'⟩
    rcases List.mem_append.mp ((mergeLists_perm r0 L (y :: R) hR h').mem_iff.mp hw) with hw | hw
    · exact List.rel_of_pairwise_cons hL hw
    · exact hxy.le.trans (head_le hR hw)
  | case5 x L y R hxy ih =>
    have h' : ∀ z ∈ R, r0 < z → ∃ w ∈ x :: L, z ≤ w := fun z hz => h z (List.mem_cons_of_mem _ hz)
    refine List.pairwise_cons.mpr ⟨fun w hw => ?_, ih hL hR.of_cons h'⟩
    rcases List.mem_append.mp ((mergeLists_perm r0 (x :: L) R hR.of_cons h').mem_iff.mp hw) with hw | hw
    · rcases List.mem_cons.mp hw with rfl | hw
      · exact not_lt.mp hxy
      · exact (not_lt.mp hxy).trans (List.rel_of_pairwise_cons hL hw)
    · exact List.rel_of_pairwise_cons hR hw

/-! ## The merge in memory -/

variable {h : Mem} {p n : ℕ}

/-- What a stretch of code did to the array: `new` are the indices written. -/
structure Wrote (h h' : Mem) (new : List ℕ) : Prop where
  log : h'.written = new ++ h.written
  other : ∀ i, i ∉ new → h'.array i = h.array i

theorem Wrote.trans {h' h'' : Mem} {new new' : List ℕ} (h1 : Wrote h h' new) (h2 : Wrote h' h'' new') : Wrote h h'' (new' ++ new) := by
  refine ⟨by rw [h2.log, h1.log, List.append_assoc], fun i hi => ?_⟩
  rw [List.mem_append, not_or] at hi
  rw [h2.other i hi.1, h1.other i hi.2]

theorem writeBack_spec : ∀ (t : List ℤ) (i : ℕ) (h : Mem), (writeBack t i h).temp = h.temp ∧
    seg (writeBack t i h).array i t.length = t ∧
    ∃ new, Wrote h (writeBack t i h) new ∧ ∀ j, j ∈ new ↔ i ≤ j ∧ j < i + t.length
  | [], i, h => ⟨rfl, rfl, [], ⟨rfl, fun _ _ => rfl⟩, fun j => by simp⟩
  | v :: t, i, h => by
    obtain ⟨htemp, hseg, new, hw, hnew⟩ := writeBack_spec t (i + 1) (h.write i v)
    rw [writeBack]
    have hi : (writeBack t (i + 1) (h.write i v)).array i = v := by
      rw [hw.other i fun hin => by have := (hnew i).mp hin; omega]
      exact Function.update_self ..
    have hone : Wrote h (h.write i v) [i] := by
      refine ⟨rfl, fun j hj => ?_⟩
      exact Function.update_of_ne (List.ne_of_not_mem_cons hj) ..
    refine ⟨htemp, by rw [List.length_cons, seg_succ, hi, hseg], new ++ [i], hone.trans hw, fun j => ?_⟩
    rw [List.mem_append, hnew, List.mem_singleton, List.length_cons]
    omega

/-- The left half and the right half of a part. -/
def left (a : ℕ → ℤ) (p n : ℕ) : List ℤ := seg a p (n / 2)
def right (a : ℕ → ℤ) (p n : ℕ) : List ℤ := seg a (p + n / 2) (n - n / 2)

theorem left_append_right (a : ℕ → ℤ) (p n : ℕ) : left a p n ++ right a p n = seg a p n := by
  rw [left, right, ← seg_add, show n / 2 + (n - n / 2) = n by omega]

theorem seg_shift (a : ℕ → ℤ) (p s n : ℕ) : seg (fun i => a (p + i)) s n = seg a (p + s) n := by
  simp only [seg, Nat.add_assoc]

/-- **What `MergeSort` has `Merge` write back.** -/
theorem merged_halves (h : Mem) (p : ℕ) (hn : 1 < n) :
    merged (fun i => h.array (p + i)) (n / 2) (n - 1) 0 (n / 2) [] =
      mergeLists (h.array (p + n / 2)) (left h.array p n) (right h.array p n) := by
  rw [merged_eq _ _ (Nat.zero_le _) (by omega), List.nil_append, seg_shift, seg_shift, Nat.sub_zero, Nat.add_zero,
    show n - 1 + 1 - n / 2 = n - n / 2 by omega]
  rfl

/-- The right half starts with `array[mid]`. -/
theorem right_eq_cons (a : ℕ → ℤ) (p : ℕ) (hn : 1 < n) : ∃ R, right a p n = a (p + n / 2) :: R := by
  refine ⟨seg a (p + n / 2 + 1) (n - n / 2 - 1), ?_⟩
  rw [right, show n - n / 2 = n - n / 2 - 1 + 1 by omega, seg_succ, Nat.add_sub_cancel]

/-- **What `Merge` does to memory**, `t` being the merged halves. -/
theorem merge_spec (h : Mem) (p : ℕ) (hn : 1 < n) {t : List ℤ}
    (ht : mergeLists (h.array (p + n / 2)) (left h.array p n) (right h.array p n) = t) :
    (merge h p 0 (n / 2) (n - 1)).temp = max h.temp t.length ∧ seg (merge h p 0 (n / 2) (n - 1)).array p t.length = t ∧
    ∃ new, Wrote h (merge h p 0 (n / 2) (n - 1)) new ∧ ∀ j, j ∈ new ↔ p ≤ j ∧ j < p + t.length := by
  unfold merge
  rw [merged_halves h p hn, ht]
  obtain ⟨htemp, hseg, new, hw, hnew⟩ := writeBack_spec t p { h with temp := max h.temp t.length }
  exact ⟨htemp, hseg, new, ⟨hw.log, hw.other⟩, hnew⟩

/-- What a call may do: it leaves a sorted permutation of its part, writes nothing outside of it, and its `tempArray` is large enough. -/
structure Good (h : Mem) (p n : ℕ) (h' : Mem) : Prop where
  sorts : SortedPerm h'.array h.array p n
  inside : ∃ new, Wrote h h' new ∧ ∀ i ∈ new, p ≤ i ∧ i < p + n
  temp : h'.temp ≤ max h.temp maxValsPerThread

/-- A good call leaves the rest of the array alone. -/
theorem Good.other {h' : Mem} (hg : Good h p n h') {i : ℕ} (hi : i < p ∨ p + n ≤ i) : h'.array i = h.array i := by
  obtain ⟨new, hw, hin⟩ := hg.inside
  exact hw.other i fun hmem => by have := hin i hmem; omega

/-! ## One call, when the two it makes are good -/

section Call

variable {h1 h2 : Mem} (hg1 : Good h p (n / 2) h1) (hg2 : Good h1 (p + n / 2) (n - n / 2) h2)

include hg1 hg2

theorem left_sortedPerm : (left h2.array p n).Pairwise (· ≤ ·) ∧ (left h2.array p n).Perm (left h.array p n) := by
  have heq : left h2.array p n = left h1.array p n := seg_congr fun i hi hi' => hg2.other (.inl hi')
  rw [heq]
  exact ⟨hg1.sorts.sorted, hg1.sorts.perm⟩

theorem right_sortedPerm : (right h2.array p n).Pairwise (· ≤ ·) ∧ (right h2.array p n).Perm (right h.array p n) := by
  have heq : right h1.array p n = right h.array p n := seg_congr fun i hi hi' => hg1.other (.inr hi)
  rw [← heq]
  exact ⟨hg2.sorts.sorted, hg2.sorts.perm⟩

theorem calls_inside : ∃ new, Wrote h h2 new ∧ ∀ i ∈ new, p ≤ i ∧ i < p + n := by
  obtain ⟨new1, hw1, hin1⟩ := hg1.inside
  obtain ⟨new2, hw2, hin2⟩ := hg2.inside
  refine ⟨new2 ++ new1, hw1.trans hw2, fun i hi => ?_⟩
  rcases List.mem_append.mp hi with hi | hi
  · have := hin2 i hi
    omega
  · have := hin1 i hi
    omega

/-- **The last step of a call**: it goes well exactly when the halves do not slip. -/
theorem merge_good_iff (hn : 1 < n) (hmax : n ≤ maxValsPerThread) :
    Good h p n (merge h2 p 0 (n / 2) (n - 1)) ↔ ¬ Slips (left h.array p n) (right h.array p n) := by
  obtain ⟨hLs, hLp⟩ := left_sortedPerm hg1 hg2
  obtain ⟨hRs, hRp⟩ := right_sortedPerm hg1 hg2
  obtain ⟨new, hw, hin⟩ := calls_inside hg1 hg2
  obtain ⟨R, hR⟩ := right_eq_cons h2.array p hn
  have hlen : (left h2.array p n).length + (right h2.array p n).length = n := by
    rw [← List.length_append, left_append_right, length_seg]
  rw [← slips_congr hLp hRp, hR, slips_cons (hR ▸ hRs), ← hR]
  obtain ⟨htemp, hseg, new', hw', hnew'⟩ := merge_spec h2 p hn rfl
  have hwrote := hw.trans hw'
  constructor
  · -- a slip makes the result one entry longer, so the entry behind the part is written
    intro hg hslip
    obtain ⟨new'', hw'', hin''⟩ := hg.inside
    have hlong := length_mergeLists_of_slips _ _ _ hslip
    have hsame : new'' = new' ++ new := List.append_cancel_right (hw''.log.symm.trans hwrote.log)
    have hmem : p + n ∈ new'' := by
      rw [hsame, List.mem_append, hnew', hlong, hlen]
      omega
    have := hin'' _ hmem
    omega
  · intro hno
    have hwait : ∀ y ∈ right h2.array p n, h2.array (p + n / 2) < y → ∃ x ∈ left h2.array p n, y ≤ x := by
      intro y hy hlt
      by_contra hnone
      refine hno ⟨y, hy, hlt, fun x hx => ?_⟩
      exact not_le.mp fun hle => hnone ⟨x, hx, hle⟩
    have hperm := mergeLists_perm _ _ _ hRs hwait
    have hsorted := mergeLists_sorted _ _ _ hLs hRs hwait
    have hlen' := hperm.length_eq.trans (List.length_append.trans hlen)
    rw [hlen'] at hseg htemp
    refine ⟨⟨by rw [hseg]; exact hsorted, ?_⟩, ⟨_, hwrote, fun i hi => ?_⟩, ?_⟩
    · rw [hseg, ← left_append_right h.array p n]
      exact hperm.trans (hLp.append hRp)
    · rcases List.mem_append.mp hi with hi | hi
      · have := (hnew' i).mp hi
        rw [hlen'] at this
        omega
      · exact hin i hi
    · rw [htemp]
      have h1 := hg1.temp
      have h2 := hg2.temp
      omega

end Call

/-! ## Whole runs -/

/-- The call, and every call it makes, is good. -/
def EveryCall (h : Mem) (p n : ℕ) : Prop :=
  Good h p n (mergeSort h p n) ∧
    ∀ _ : 1 < n, EveryCall h p (n / 2) ∧ EveryCall (mergeSort h p (n / 2)) (p + n / 2) (n - n / 2)
termination_by n

/-- No two halves slip. -/
def Tame (a : ℕ → ℤ) (p n : ℕ) : Prop :=
  ∀ _ : 1 < n, ¬ Slips (left a p n) (right a p n) ∧ Tame a p (n / 2) ∧ Tame a (p + n / 2) (n - n / 2)
termination_by n

theorem tame_congr {a b : ℕ → ℤ} (hab : ∀ i, p ≤ i → i < p + n → a i = b i) : Tame a p n ↔ Tame b p n := by
  induction n using Nat.strong_induction_on generalizing p with
  | _ n ih =>
    have hL : 1 < n → left a p n = left b p n := fun _ => seg_congr fun i hi hi' => hab i hi (by omega)
    have hR : 1 < n → right a p n = right b p n := fun _ => seg_congr fun i hi hi' => hab i (by omega) (by omega)
    rw [Tame.eq_1 a p n, Tame.eq_1 b p n]
    refine forall_congr' fun hn => ?_
    rw [hL hn, hR hn, ih (n / 2) (by omega) fun i hi hi' => hab i hi (by omega),
      ih (n - n / 2) (by omega) fun i hi hi' => hab i (by omega) (by omega)]

theorem good_of_short (hn : ¬ 1 < n) : Good h p n h := by
  refine ⟨⟨sorted_seg_iff.mpr fun i j hi hij hj => ?_, .refl _⟩, ⟨[], ⟨rfl, fun _ _ => rfl⟩, ?_⟩, le_max_left _ _⟩
  · rw [show i = j by omega]
  · exact fun i hi => absurd hi List.not_mem_nil

theorem mergeSort_step (h : Mem) (p : ℕ) (hn : 1 < n) :
    mergeSort h p n = merge (mergeSort (mergeSort h p (n / 2)) (p + n / 2) (n - n / 2)) p 0 (n / 2) (n - 1) := by
  rw [mergeSort]
  exact dif_pos hn

/-- No slip, no harm. -/
theorem mergeSort_good (h : Mem) (p n : ℕ) (hmax : n ≤ maxValsPerThread) (ht : Tame h.array p n) : Good h p n (mergeSort h p n) := by
  induction n using Nat.strong_induction_on generalizing h p with
  | _ n ih =>
    by_cases hn : 1 < n
    · rw [Tame] at ht
      obtain ⟨hno, ht1, ht2⟩ := ht hn
      have hg1 := ih (n / 2) (by omega) h p (by omega) ht1
      have ht2' : Tame (mergeSort h p (n / 2)).array (p + n / 2) (n - n / 2) :=
        (tame_congr fun i hi _ => hg1.other (.inr hi)).mpr ht2
      have hg2 := ih (n - n / 2) (by omega) _ _ (by omega) ht2'
      rw [mergeSort_step h p hn]
      exact (merge_good_iff hg1 hg2 hn hmax).mpr hno
    · have hsort : mergeSort h p n = h := by
        rw [mergeSort]
        exact dif_neg hn
      rw [hsort]
      exact good_of_short hn

/-- A part that is sorted the other way round. -/
theorem tame_of_antitone {a : ℕ → ℤ} (ha : ∀ i j, p ≤ i → i ≤ j → j < p + n → a j ≤ a i) : Tame a p n := by
  induction n using Nat.strong_induction_on generalizing p with
  | _ n ih =>
    rw [Tame]
    intro hn
    refine ⟨?_, ih _ (by omega) fun i j h1 h2 h3 => ha i j h1 h2 (by omega),
      ih _ (by omega) fun i j h1 h2 h3 => ha i j (by omega) h2 (by omega)⟩
    -- the first entry is larger than all of the right half
    rintro ⟨y, hy, -, hL⟩
    obtain ⟨j, h1, h2, rfl⟩ := mem_seg.mp hy
    have hp : a p ∈ left a p n := mem_seg.mpr ⟨p, le_rfl, by omega, rfl⟩
    exact absurd (hL _ hp) (not_lt.mpr (ha p j le_rfl (by omega) (by omega)))

/-- **When `MergeSort` is right.**  With at most `MAX_VALS_PER_THREAD` entries, the call and every call it makes leave a sorted permutation
of their part, write nothing outside of it and stay inside `tempArray` exactly when no two halves slip. -/
theorem everyCall_iff_tame (h : Mem) (p n : ℕ) (hmax : n ≤ maxValsPerThread) : EveryCall h p n ↔ Tame h.array p n := by
  induction n using Nat.strong_induction_on generalizing h p with
  | _ n ih =>
    rw [EveryCall, Tame]
    by_cases hn : 1 < n
    · have hl := ih (n / 2) (by omega) h p (by omega)
      have hr := ih (n - n / 2) (by omega) (mergeSort h p (n / 2)) (p + n / 2) (by omega)
      have hcongr : Good h p (n / 2) (mergeSort h p (n / 2)) →
          (Tame (mergeSort h p (n / 2)).array (p + n / 2) (n - n / 2) ↔ Tame h.array (p + n / 2) (n - n / 2)) :=
        fun hg1 => tame_congr fun i hi _ => hg1.other (.inr hi)
      constructor
      · rintro ⟨hg, hcalls⟩ -
        obtain ⟨hc1, hc2⟩ := hcalls hn
        have hg1 : Good h p (n / 2) (mergeSort h p (n / 2)) := by rw [EveryCall] at hc1; exact hc1.1
        have hg2 := hc2
        rw [EveryCall] at hg2
        rw [mergeSort_step h p hn, merge_good_iff hg1 hg2.1 hn hmax] at hg
        exact ⟨hg, hl.mp hc1, (hcongr hg1).mp (hr.mp hc2)⟩
      · intro ht
        obtain ⟨-, ht1, ht2⟩ := ht hn
        have hg1 := mergeSort_good h p (n / 2) (by omega) ht1
        refine ⟨mergeSort_good h p n hmax ?_, fun _ => ⟨hl.mpr ht1, hr.mpr ((hcongr hg1).mpr ht2)⟩⟩
        rw [Tame]
        exact ht
    · have hsort : mergeSort h p n = h := by
        rw [mergeSort]
        exact dif_neg hn
      rw [hsort]
      exact ⟨fun _ hn' => absurd hn' hn, fun _ => ⟨good_of_short hn, fun hn' => absurd hn' hn⟩⟩

theorem everyCall_two_one : EveryCall ⟨fun i => if i = 0 then 2 else 1, [], 0⟩ 0 2 := by
  refine (everyCall_iff_tame _ 0 2 (by decide)).mpr ?_
  rw [Tame]
  refine fun _ => ⟨?_, ?_, ?_⟩
  · simp [Slips, left, right, seg]
  · rw [Tame]
    exact fun h => absurd h (by decide)
  · rw [Tame]
    exact fun h => absurd h (by decide)

/-- **Three entries in order.**  The call on `1, 2, 3` writes four entries. -/
theorem mergeSort_one_two_three :
    ¬ ∀ (h : Mem) (p n : ℕ), n ≤ maxValsPerThread → Good h p n (mergeSort h p n) := by
  intro hall
  obtain ⟨new, hw, hin⟩ := (hall ⟨fun i => i + 1, [], 0⟩ 0 3 (by decide)).inside
  have hlog : (mergeSort ⟨fun i => i + 1, [], 0⟩ 0 3).written = [3, 2, 1, 0, 2, 1] := by
    simp [mergeSort, merge, merged, mergeLoop, copyLoop, writeBack, Mem.write]
  have hnew : new = [3, 2, 1, 0, 2, 1] := by
    rw [← hlog, hw.log, List.append_nil]
  have := hin 3 (by rw [hnew]; decide)
  omega

end OsLabs.ThreadsBasics.MergeSort
