import OsLabs.Lts
import OsLabs.ThreadsBasics.QuadraticSorts
import OsLabs.ThreadsBasics.MergeSort

/-!
# OsLabs.ThreadsBasics.ThreadDispatch — `thread_dispatch` (thread_sorting/threadSort.c)

A thread takes its chunk of the array and its entry of `Ftime`, `Btime` or `Mtime` from `count`, the number of threads that have come before
it, and its algorithm from the letter it was created with.  The chunks are handed out in order of arrival, so each is taken once; the
entries are `id/3`, and that is one entry for each thread only when every three threads that arrive one after the other sort with three
different algorithms.

* `sorts_spec`: each of the three sorts, on a chunk in descending order.
* `Inv`: which chunk each thread has, which chunks are sorted, and whose time stands in each entry.
* `slots_iff`: every entry has one thread exactly when the threads arrive in mixed blocks of three.
* `dispatched_iff`: so it is for all that `main` relies on.
-/

namespace OsLabs.ThreadsBasics.ThreadDispatch

open Lts Segment QuadraticSorts MergeSort

/-! ## The program -/

/-- The letters of `descriptions`. -/
inductive Letter
  | F
  | B
  | M
  deriving DecidableEq, Repr

/-- `descriptions[i % 3]`, what `main` creates thread `i` with. -/
def descriptions (i : ℕ) : Letter := if i % 3 = 0 then .F else if i % 3 = 1 then .B else .M

/-- `sub`, written over by the array `c`. -/
def patch (a : ℕ → ℤ) (sub : ℕ) (c : ℕ → ℤ) : ℕ → ℤ := fun t => if t < sub then a t else c (t - sub)

/-- The sort that a letter stands for, called on `sub` and `line`, takes the array `a` to `b`. -/
def Sorts (line sub : ℕ) (a b : ℕ → ℤ) : Letter → Prop
  | .F => b = patch a sub (bruteForceSort (fun i => a (sub + i)) line)
  | .B => ∃ rounds c, bubbleSort line rounds (fun i => a (sub + i)) = some c ∧ b = patch a sub c
  | .M => b = (mergeSort ⟨a, [], 0⟩ sub line).array

/-- Where a thread is, with its local variables. -/
inductive Place
  | start
  | sorting (sub id : ℕ)
  | sorted (sub id : ℕ)
  | done (sub id : ℕ) (usecs : ℤ)

/-- The globals, and the threads; `time` is `Ftime`, `Btime` and `Mtime`. -/
structure St where
  count : ℕ
  dataArray : ℕ → ℤ
  time : Letter → ℕ → ℤ
  thread : ℕ → Place

inductive Act
  | prologue (i : ℕ)
  | sort (i : ℕ)
  | store (i : ℕ) (usecs : ℤ)

variable {n line : ℕ}

/-- One step of one thread.  The prologue, up to `count++`, is one step; `usecs` is what `gettimeofday` makes of the sort. -/
inductive Step (n line : ℕ) : St → Act → Unit → St → Prop
  | prologue {s i} (hi : i < n) (h : s.thread i = .start) : Step n line s (.prologue i) ()
      { s with count := s.count + 1, thread := Function.update s.thread i (.sorting (s.count * line) s.count) }
  | sort {s i sub id data} (h : s.thread i = .sorting sub id) (hs : Sorts line sub s.dataArray data (descriptions i)) :
      Step n line s (.sort i) () { s with dataArray := data, thread := Function.update s.thread i (.sorted sub id) }
  | store {s i sub id usecs} (h : s.thread i = .sorted sub id) : Step n line s (.store i usecs) ()
      { s with
        time := Function.update s.time (descriptions i) (Function.update (s.time (descriptions i)) (id / 3) usecs)
        thread := Function.update s.thread i (.done sub id usecs) }

/-- What `main` puts into the array. -/
def mainData (n line : ℕ) : ℕ → ℤ := fun i => n * line - i

def init (n line : ℕ) : St := ⟨0, mainData n line, fun _ _ => 0, fun _ => .start⟩

/-- `main` has joined the thread. -/
def Place.Done (p : Place) : Prop := ∃ sub id usecs, p = .done sub id usecs

def Place.sub : Place → ℕ
  | .start => 0
  | .sorting sub _ => sub
  | .sorted sub _ => sub
  | .done sub _ _ => sub

def Place.id : Place → ℕ
  | .start => 0
  | .sorting _ id => id
  | .sorted _ id => id
  | .done _ id _ => id

def Place.usecs : Place → ℤ
  | .done _ _ usecs => usecs
  | _ => 0

/-- The threads in the order of their prologues. -/
def arrivals (tr : List (Ev St Act Unit)) : List ℕ :=
  tr.filterMap fun e => match e.act with
    | .prologue i => some i
    | _ => none

/-! ## The sorts -/

theorem seg_patch (a : ℕ → ℤ) (sub : ℕ) (c : ℕ → ℤ) (m : ℕ) : seg (patch a sub c) sub m = seg c 0 m := by
  refine List.map_congr_left fun i _ => ?_
  rw [patch, if_neg (by omega), Nat.add_sub_cancel_left, Nat.zero_add]

/-- A sort of the array `sub` rearranges the chunk and nothing else. -/
theorem patch_spec {a c : ℕ → ℤ} {sub : ℕ} (hr : Rearranged line (fun i => a (sub + i)) c) (hs : (seg c 0 line).Pairwise (· ≤ ·)) :
    SortedPerm (patch a sub c) a sub line ∧ ∀ t, ¬ (sub ≤ t ∧ t < sub + line) → patch a sub c t = a t := by
  refine ⟨⟨by rwa [seg_patch], ?_⟩, fun t ht => ?_⟩
  · rw [seg_patch]
    exact hr.perm.trans (by rw [seg_shift, Nat.add_zero])
  · unfold patch
    split_ifs with hlt
    · rfl
    · rw [hr.other (t - sub) (by omega), Nat.add_sub_cancel' (not_lt.mp hlt)]

/-- **Each of the sorts**, on a chunk in descending order. -/
theorem sorts_spec {l : Letter} {sub : ℕ} {a b : ℕ → ℤ} (hmax : line ≤ maxValsPerThread) (h : Sorts line sub a b l)
    (ha : ∀ i j, sub ≤ i → i ≤ j → j < sub + line → a j ≤ a i) :
    SortedPerm b a sub line ∧ ∀ t, ¬ (sub ≤ t ∧ t < sub + line) → b t = a t := by
  cases l with
  | F =>
    obtain ⟨hr, hs⟩ := bruteForceSort_spec (fun i => a (sub + i)) line
    obtain rfl : b = _ := h
    exact patch_spec hr hs
  | B =>
    obtain ⟨rounds, c, hc, rfl⟩ := h
    obtain ⟨hr, hs⟩ := bubbleSort_spec hc
    exact patch_spec hr hs
  | M =>
    obtain rfl : b = _ := h
    have hg := mergeSort_good ⟨a, [], 0⟩ sub line hmax (tame_of_antitone ha)
    exact ⟨hg.sorts, fun t ht => hg.other (by omega)⟩

theorem exists_sorts (l : Letter) (line sub : ℕ) (a : ℕ → ℤ) : ∃ b, Sorts line sub a b l := by
  cases l with
  | F => exact ⟨_, rfl⟩
  | B =>
    obtain ⟨rounds, c, hc, -⟩ := bubbleSort_terminates (fun i => a (sub + i)) line
    exact ⟨_, rounds, c, hc, rfl⟩
  | M => exact ⟨_, rfl⟩

/-! ## The invariant -/

/-- The thread has sorted its chunk. -/
def Place.Past : Place → Prop
  | .sorted _ _ => True
  | .done _ _ _ => True
  | _ => False

/-- **The invariant**, for the arrivals so far. -/
structure Inv (n line : ℕ) (arr : List ℕ) (s : St) : Prop where
  count : s.count = arr.length
  nodup : arr.Nodup
  lt : ∀ i ∈ arr, i < n
  start : ∀ i, i ∉ arr → s.thread i = .start
  /-- The `c`-th thread to arrive has chunk `c`. -/
  holds : ∀ i c, arr[c]? = some i → s.thread i ≠ .start ∧ (s.thread i).sub = c * line ∧ (s.thread i).id = c
  /-- A chunk whose thread has not sorted it is as `main` left it. -/
  fresh : ∀ c, (∀ i, arr[c]? = some i → ¬ (s.thread i).Past) → ∀ t, c * line ≤ t → t < c * line + line → s.dataArray t = mainData n line t
  sorted : ∀ c i, arr[c]? = some i → (s.thread i).Past → SortedPerm s.dataArray (mainData n line) (c * line) line
  /-- What stands in an entry that has been written is the time of one of the threads that have written it. -/
  time : ∀ i, (s.thread i).Done → ∃ j, (s.thread j).Done ∧ descriptions j = descriptions i ∧
    (s.thread j).id / 3 = (s.thread i).id / 3 ∧ s.time (descriptions i) ((s.thread i).id / 3) = (s.thread j).usecs

theorem init_inv (n line : ℕ) : Inv n line [] (init n line) where
  count := rfl
  nodup := List.nodup_nil
  lt := fun i hi => absurd hi List.not_mem_nil
  start := fun _ _ => rfl
  holds := fun i c h => by simp at h
  fresh := fun _ _ _ _ _ => rfl
  sorted := fun c i h => by simp at h
  time := fun i h => by
    obtain ⟨_, _, _, h⟩ := h
    cases h

variable {arr : List ℕ} {s s' : St} {a : Act} {i j c d : ℕ}

/-- Two chunks have no index in common. -/
theorem chunks_disjoint (hcd : c ≠ d) {t : ℕ} (h1 : c * line ≤ t) (h2 : t < c * line + line) : ¬ (d * line ≤ t ∧ t < d * line + line) := by
  rintro ⟨h3, h4⟩
  rcases Nat.lt_or_gt_of_ne hcd with hlt | hlt
  · have := Nat.mul_le_mul_right line (Nat.succ_le_of_lt hlt)
    rw [Nat.succ_mul] at this
    omega
  · have := Nat.mul_le_mul_right line (Nat.succ_le_of_lt hlt)
    rw [Nat.succ_mul] at this
    omega

theorem mem_of_get (h : arr[c]? = some i) : i ∈ arr := List.mem_of_getElem? h

theorem get_inj (hnd : arr.Nodup) (h1 : arr[c]? = some i) (h2 : arr[d]? = some i) : c = d := by
  obtain ⟨hc, h1⟩ := List.getElem?_eq_some_iff.mp h1
  obtain ⟨hd, h2⟩ := List.getElem?_eq_some_iff.mp h2
  exact (hnd.getElem_inj_iff).mp (h1.trans h2.symm)

namespace Inv

/-- A thread that has arrived. -/
theorem arrived (h : Inv n line arr s) (hi : s.thread i ≠ .start) : ∃ c : ℕ, arr[c]? = some i := by
  have hmem : i ∈ arr := by
    by_contra hno
    exact hi (h.start i hno)
  obtain ⟨c, hc, rfl⟩ := List.mem_iff_getElem.mp hmem
  exact ⟨c, List.getElem?_eq_getElem hc⟩

/-- The next thread arrives. -/
theorem prologue (h : Inv n line arr s) (hi : i < n) (hs : s.thread i = .start) : Inv n line (arr ++ [i])
    { s with count := s.count + 1, thread := Function.update s.thread i (.sorting (s.count * line) s.count) } := by
  have hnew : i ∉ arr := by
    intro hmem
    obtain ⟨c, hc, heq⟩ := List.mem_iff_getElem.mp hmem
    exact (h.holds i c (List.getElem?_eq_some_iff.mpr ⟨hc, heq⟩)).1 hs
  have hother : ∀ {j : ℕ}, j ∈ arr → j ≠ i := fun hj he => hnew (he ▸ hj)
  have hcases : ∀ {c j : ℕ}, (arr ++ [i])[c]? = some j → arr[c]? = some j ∧ j ≠ i ∨ c = arr.length ∧ j = i := by
    intro c j hc
    rw [List.getElem?_append] at hc
    split_ifs at hc with hlt
    · exact .inl ⟨hc, hother (mem_of_get hc)⟩
    · obtain ⟨hc1, hc2⟩ := List.getElem?_eq_some_iff.mp hc
      rw [List.length_singleton] at hc1
      refine .inr ⟨by omega, ?_⟩
      simpa using hc2.symm
  refine ⟨?_, ?_, ?_, ?_, ?_, ?_, ?_, ?_⟩
  · simp [h.count]
  · exact List.nodup_append.mpr ⟨h.nodup, List.nodup_singleton i, fun x hx y hy he => hnew (by
      rw [← List.mem_singleton.mp hy, ← he]
      exact hx)⟩
  · intro j hj
    rcases List.mem_append.mp hj with hj | hj
    · exact h.lt j hj
    · exact List.mem_singleton.mp hj ▸ hi
  · intro j hj
    rw [List.mem_append, List.mem_singleton, not_or] at hj
    exact (Function.update_of_ne hj.2 ..).trans (h.start j hj.1)
  · intro j c hc
    rcases hcases hc with ⟨hc, hne⟩ | ⟨rfl, rfl⟩
    · dsimp only
      rw [Function.update_of_ne hne]
      exact h.holds j c hc
    · dsimp only
      rw [Function.update_self, h.count]
      exact ⟨(fun he => by cases he), rfl, rfl⟩
  · intro c hc
    refine h.fresh c fun j hj hpast => ?_
    have hj' : (arr ++ [i])[c]? = some j := by
      rw [List.getElem?_append_left (List.getElem?_eq_some_iff.mp hj).1]
      exact hj
    refine hc j hj' ?_
    dsimp only
    rwa [Function.update_of_ne (hother (mem_of_get hj))]
  · intro c j hc hpast
    rcases hcases hc with ⟨hc, hne⟩ | ⟨rfl, rfl⟩
    · dsimp only at hpast
      rw [Function.update_of_ne hne] at hpast
      exact h.sorted c j hc hpast
    · dsimp only at hpast
      rw [Function.update_self] at hpast
      cases hpast
  · intro j hj
    dsimp only at hj ⊢
    have hne : j ≠ i := by
      rintro rfl
      rw [Function.update_self] at hj
      obtain ⟨_, _, _, hj⟩ := hj
      cases hj
    rw [Function.update_of_ne hne] at hj ⊢
    obtain ⟨k, hk, h1, h2, h3⟩ := h.time j hj
    have hne' : k ≠ i := by
      rintro rfl
      obtain ⟨_, _, _, hk⟩ := hk
      rw [hs] at hk
      cases hk
    exact ⟨k, by rwa [Function.update_of_ne hne'], h1, by rwa [Function.update_of_ne hne'], by rwa [Function.update_of_ne hne']⟩

/-- A thread with chunk `c` moves on and keeps it. -/
theorem move (h : Inv n line arr s) {q : Place} (hc : arr[c]? = some i) (hq : q ≠ .start) (hsub : q.sub = (s.thread i).sub)
    (hid : q.id = (s.thread i).id) : ∀ j d, arr[d]? = some j → Function.update s.thread i q j ≠ .start ∧
      (Function.update s.thread i q j).sub = d * line ∧ (Function.update s.thread i q j).id = d := by
  intro j d hd
  by_cases hj : j = i
  · subst hj
    obtain ⟨-, h2, h3⟩ := h.holds j d hd
    rw [Function.update_self, hsub, hid]
    exact ⟨hq, h2, h3⟩
  · rw [Function.update_of_ne hj]
    exact h.holds j d hd

/-- A thread sorts its chunk. -/
theorem sort (h : Inv n line arr s) (hmax : line ≤ maxValsPerThread) {sub id : ℕ} {data : ℕ → ℤ} (hi : s.thread i = .sorting sub id)
    (hs : Sorts line sub s.dataArray data (descriptions i)) :
    Inv n line arr { s with dataArray := data, thread := Function.update s.thread i (.sorted sub id) } := by
  obtain ⟨c, hc⟩ := h.arrived (i := i) (by rw [hi]; exact fun he => by cases he)
  obtain ⟨-, hsub, hid⟩ := h.holds i c hc
  rw [hi] at hsub hid
  obtain rfl : sub = c * line := hsub
  obtain rfl : id = c := hid
  -- the chunk is as `main` left it, so in descending order
  have hmain : ∀ t, id * line ≤ t → t < id * line + line → s.dataArray t = mainData n line t := h.fresh id fun j hj => by
    rw [Option.some.inj (hj.symm.trans hc), hi]
    exact fun hp => hp
  obtain ⟨hsort, hout⟩ := sorts_spec hmax hs fun x y h1 h2 h3 => by
    rw [hmain x h1 (by omega), hmain y (by omega) h3]
    unfold mainData
    omega
  have hseg : seg s.dataArray (id * line) line = seg (mainData n line) (id * line) line := seg_congr hmain
  have hne : ∀ {d j : ℕ}, arr[d]? = some j → d ≠ id → j ≠ i := fun hd hne he => hne (get_inj h.nodup hd (he ▸ hc))
  have hkeep : ∀ {d : ℕ}, d ≠ id → ∀ t, d * line ≤ t → t < d * line + line → data t = s.dataArray t :=
    fun hd t h1 h2 => hout t (chunks_disjoint hd h1 h2)
  refine ⟨h.count, h.nodup, h.lt, fun j hj => ?_, h.move hc (fun he => by cases he) (by rw [hi]; rfl) (by rw [hi]; rfl), ?_, ?_, ?_⟩
  · refine (Function.update_of_ne ?_ ..).trans (h.start j hj)
    rintro rfl
    exact hj (mem_of_get hc)
  · intro d hd t h1 h2
    have hdc : d ≠ id := by
      rintro rfl
      refine hd i hc ?_
      dsimp only
      rw [Function.update_self]
      trivial
    refine (hkeep hdc t h1 h2).trans (h.fresh d (fun j hj hp => hd j hj ?_) t h1 h2)
    dsimp only
    rwa [Function.update_of_ne (hne hj hdc)]
  · intro d j hd hp
    by_cases hdc : d = id
    · subst hdc
      exact ⟨hsort.sorted, hseg ▸ hsort.perm⟩
    · dsimp only at hp
      rw [Function.update_of_ne (hne hd hdc)] at hp
      obtain ⟨h1, h2⟩ := h.sorted d j hd hp
      have hsame : seg data (d * line) line = seg s.dataArray (d * line) line := seg_congr (hkeep hdc)
      exact ⟨hsame ▸ h1, hsame ▸ h2⟩
  · intro j hj
    dsimp only at hj ⊢
    have hji : j ≠ i := by
      rintro rfl
      rw [Function.update_self] at hj
      obtain ⟨_, _, _, hj⟩ := hj
      cases hj
    rw [Function.update_of_ne hji] at hj ⊢
    obtain ⟨k, hk, h1, h2, h3⟩ := h.time j hj
    have hki : k ≠ i := by
      rintro rfl
      obtain ⟨_, _, _, hk⟩ := hk
      rw [hi] at hk
      cases hk
    exact ⟨k, by rwa [Function.update_of_ne hki], h1, by rwa [Function.update_of_ne hki], by rwa [Function.update_of_ne hki]⟩

/-- A thread stores its time. -/
theorem store (h : Inv n line arr s) {sub id : ℕ} {usecs : ℤ} (hi : s.thread i = .sorted sub id) :
    Inv n line arr { s with
      time := Function.update s.time (descriptions i) (Function.update (s.time (descriptions i)) (id / 3) usecs)
      thread := Function.update s.thread i (.done sub id usecs) } := by
  obtain ⟨c, hc⟩ := h.arrived (i := i) (by rw [hi]; exact fun he => by cases he)
  have hpast : ∀ j, (Function.update s.thread i (.done sub id usecs) j).Past ↔ (s.thread j).Past := by
    intro j
    by_cases hj : j = i
    · rw [hj, Function.update_self, hi]
      exact Iff.rfl
    · rw [Function.update_of_ne hj]
  refine ⟨h.count, h.nodup, h.lt, fun j hj => ?_, h.move hc (fun he => by cases he) (by rw [hi]; rfl) (by rw [hi]; rfl), ?_, ?_, ?_⟩
  · refine (Function.update_of_ne ?_ ..).trans (h.start j hj)
    rintro rfl
    exact hj (mem_of_get hc)
  · exact fun d hd => h.fresh d fun j hj hp => hd j hj ((hpast j).mpr hp)
  · exact fun d j hd hp => h.sorted d j hd ((hpast j).mp hp)
  · intro j hj
    dsimp only at hj ⊢
    by_cases hsame : descriptions j = descriptions i ∧ (Function.update s.thread i (.done sub id usecs) j).id / 3 = id / 3
    · -- the entry is the one just written
      refine ⟨i, ?_, hsame.1.symm, ?_, ?_⟩
      · rw [Function.update_self]
        exact ⟨sub, id, usecs, rfl⟩
      · rw [Function.update_self, hsame.2]
        rfl
      · rw [hsame.1, hsame.2, Function.update_self, Function.update_self, Function.update_self]
        rfl
    · have hji : j ≠ i := by
        rintro rfl
        exact hsame ⟨rfl, by rw [Function.update_self]; rfl⟩
      rw [Function.update_of_ne hji] at hj hsame ⊢
      obtain ⟨k, hk, h1, h2, h3⟩ := h.time j hj
      have hki : k ≠ i := by
        rintro rfl
        obtain ⟨_, _, _, hk⟩ := hk
        rw [hi] at hk
        cases hk
      refine ⟨k, by rwa [Function.update_of_ne hki], h1, by rwa [Function.update_of_ne hki], ?_⟩
      rw [Function.update_of_ne hki, ← h3]
      by_cases hd : descriptions j = descriptions i
      · rw [hd, Function.update_self, Function.update_of_ne fun he => hsame ⟨hd, he⟩]
      · rw [Function.update_of_ne hd]

end Inv

theorem arrivals_append (tr : List (Ev St Act Unit)) (e : Ev St Act Unit) : arrivals (tr ++ [e]) = arrivals tr ++ arrivals [e] :=
  List.filterMap_append ..

theorem run_inv {t : St} {tr : List (Ev St Act Unit)} (hmax : line ≤ maxValsPerThread)
    (hrun : Run (Step n line) always (init n line) tr t) : Inv n line (arrivals tr) t := by
  induction hrun with
  | nil => exact init_inv n line
  | snoc _ _ hst ih =>
    rw [arrivals_append]
    cases hst with
    | prologue hi h => exact ih.prologue hi h
    | sort h hs =>
      show Inv n line (arrivals _ ++ []) _
      rw [List.append_nil]
      exact ih.sort hmax h hs
    | store h =>
      show Inv n line (arrivals _ ++ []) _
      rw [List.append_nil]
      exact ih.store h

/-! ## When all threads are done -/

/-- The threads that sort with the algorithm of `l`. -/
def sorters (n : ℕ) (l : Letter) : List ℕ := (List.range n).filter fun i => descriptions i = l

/-- **What `main` relies on** after the joins: every chunk has been sorted, by one thread; every entry of the time arrays has been written by
one thread; and the entries that the averages, minima and maxima are over are the times that have been measured. -/
structure Dispatched (n line : ℕ) (s : St) : Prop where
  chunks : ∀ c, c < n → ∃! i, i < n ∧ (s.thread i).sub = c * line
  sorted : ∀ c, c < n → SortedPerm s.dataArray (mainData n line) (c * line) line
  slots : ∀ l j, j < n / 3 → ∃! i, i < n ∧ descriptions i = l ∧ (s.thread i).id / 3 = j
  stats : ∀ l, ((List.range (n / 3)).map (s.time l)).Perm ((sorters n l).map fun i => (s.thread i).usecs)

/-- **Mixed blocks.**  Of every three threads that arrive one after the other no two sort with the same algorithm. -/
def MixedBlocks (n : ℕ) (arr : List ℕ) : Prop := ∀ j, j < n / 3 → (((arr.drop (3 * j)).take 3).map descriptions).Nodup

instance (n : ℕ) (arr : List ℕ) : Decidable (MixedBlocks n arr) := inferInstanceAs (Decidable (∀ j, j < n / 3 → _))

/-- Three letters of which no two are the same are all there are. -/
theorem one_of_three {x y z : Letter} (h : [x, y, z].Nodup) (l : Letter) : l = x ∨ l = y ∨ l = z := by
  revert h
  cases x <;> cases y <;> cases z <;> cases l <;> decide

/-- Every thread has arrived and is done. -/
structure Ended (n line : ℕ) (arr : List ℕ) (s : St) : Prop extends Inv n line arr s where
  done : ∀ i, i < n → (s.thread i).Done

namespace Ended

theorem mem_iff (h : Ended n line arr s) : i ∈ arr ↔ i < n := by
  refine ⟨h.lt i, fun hi => ?_⟩
  by_contra hno
  obtain ⟨_, _, _, hd⟩ := h.done i hi
  rw [h.start i hno] at hd
  cases hd

theorem length (h : Ended n line arr s) : arr.length = n := by
  have hperm : arr.Perm (List.range n) :=
    (List.perm_ext_iff_of_nodup h.nodup List.nodup_range).mpr fun i => by rw [h.mem_iff, List.mem_range]
  rw [hperm.length_eq, List.length_range]

/-- Thread `i` has come `c`-th, and has chunk `c`. -/
theorem get_iff (h : Ended n line arr s) : arr[c]? = some i ↔ i < n ∧ (s.thread i).id = c := by
  constructor
  · intro hc
    exact ⟨h.lt i (mem_of_get hc), (h.holds i c hc).2.2⟩
  · rintro ⟨hi, rfl⟩
    obtain ⟨_, _, _, hd⟩ := h.done i hi
    obtain ⟨c, hc⟩ := h.arrived (i := i) (by rw [hd]; exact fun he => by cases he)
    rwa [(h.holds i c hc).2.2]

theorem id_lt (h : Ended n line arr s) (hi : i < n) : (s.thread i).id < n := by
  have hlt := (List.getElem?_eq_some_iff.mp (h.get_iff.mpr ⟨hi, rfl⟩)).1
  rwa [h.length] at hlt

theorem chunks (h : Ended n line arr s) (hline : 0 < line) (hc : c < n) : ∃! i, i < n ∧ (s.thread i).sub = c * line := by
  obtain ⟨i, hi⟩ : ∃ i, arr[c]? = some i := ⟨_, List.getElem?_eq_getElem (by rw [h.length]; exact hc)⟩
  refine ⟨i, ⟨h.lt i (mem_of_get hi), (h.holds i c hi).2.1⟩, fun j ⟨hj, hsub⟩ => ?_⟩
  have hjc := h.get_iff.mpr ⟨hj, rfl⟩
  rw [(h.holds j _ hjc).2.1] at hsub
  rw [Nat.eq_of_mul_eq_mul_right hline hsub] at hjc
  exact Option.some.inj (hjc.symm.trans hi)

theorem chunk_sorted (h : Ended n line arr s) (hc : c < n) : SortedPerm s.dataArray (mainData n line) (c * line) line := by
  obtain ⟨i, hi⟩ : ∃ i, arr[c]? = some i := ⟨_, List.getElem?_eq_getElem (by rw [h.length]; exact hc)⟩
  refine h.sorted c i hi ?_
  obtain ⟨_, _, _, hd⟩ := h.done i (h.lt i (mem_of_get hi))
  rw [hd]
  trivial

/-- **The block of an entry.**  The three threads whose times go into entry `j` of some array. -/
theorem block (h : Ended n line arr s) (hj : j < n / 3) : ∃ x y z, (arr.drop (3 * j)).take 3 = [x, y, z] ∧
    x ≠ y ∧ x ≠ z ∧ y ≠ z ∧ ∀ i, i < n ∧ (s.thread i).id / 3 = j ↔ i = x ∨ i = y ∨ i = z := by
  have hlen := h.length
  have hget : ∀ c, c < n → ∃ i, arr[c]? = some i := fun c hc => ⟨_, List.getElem?_eq_getElem (by omega)⟩
  obtain ⟨x, hx⟩ := hget (3 * j) (by omega)
  obtain ⟨y, hy⟩ := hget (3 * j + 1) (by omega)
  obtain ⟨z, hz⟩ := hget (3 * j + 2) (by omega)
  refine ⟨x, y, z, ?_, ?_, ?_, ?_, fun i => ?_⟩
  · refine List.ext_getElem? fun t => ?_
    rw [List.getElem?_take, List.getElem?_drop]
    rcases (by omega : t = 0 ∨ t = 1 ∨ t = 2 ∨ 3 ≤ t) with rfl | rfl | rfl | ht
    · exact hx
    · exact hy
    · exact hz
    · rw [if_neg (by omega), List.getElem?_eq_none (by simpa using ht)]
  · rintro rfl
    have := get_inj h.nodup hx hy
    omega
  · rintro rfl
    have := get_inj h.nodup hx hz
    omega
  · rintro rfl
    have := get_inj h.nodup hy hz
    omega
  · constructor
    · intro hi
      have hc := h.get_iff.mpr ⟨hi.1, rfl⟩
      rcases (by omega : (s.thread i).id = 3 * j ∨ (s.thread i).id = 3 * j + 1 ∨ (s.thread i).id = 3 * j + 2) with he | he | he
      all_goals rw [he] at hc
      · exact .inl (Option.some.inj (hc.symm.trans hx))
      · exact .inr (.inl (Option.some.inj (hc.symm.trans hy)))
      · exact .inr (.inr (Option.some.inj (hc.symm.trans hz)))
    · rintro (rfl | rfl | rfl)
      · have := h.get_iff.mp hx
        exact ⟨this.1, by omega⟩
      · have := h.get_iff.mp hy
        exact ⟨this.1, by omega⟩
      · have := h.get_iff.mp hz
        exact ⟨this.1, by omega⟩

/-- **One thread for each entry**, exactly when the blocks are mixed. -/
theorem slots_iff (h : Ended n line arr s) :
    (∀ l j, j < n / 3 → ∃! i, i < n ∧ descriptions i = l ∧ (s.thread i).id / 3 = j) ↔ MixedBlocks n arr := by
  have hcomm : ∀ l j, (∃! i, i < n ∧ descriptions i = l ∧ (s.thread i).id / 3 = j) ↔
      ∃! i, (i < n ∧ (s.thread i).id / 3 = j) ∧ descriptions i = l := fun l j =>
    existsUnique_congr fun i => ⟨fun h => ⟨⟨h.1, h.2.2⟩, h.2.1⟩, fun h => ⟨h.1.1, h.2, h.1.2⟩⟩
  simp only [hcomm]
  constructor
  · intro hs j hj
    obtain ⟨x, y, z, hb, hxy, hxz, hyz, hiff⟩ := h.block hj
    -- two threads of the block with one letter would share an entry
    have hne : ∀ {u v}, (u = x ∨ u = y ∨ u = z) → (v = x ∨ v = y ∨ v = z) → u ≠ v → descriptions u ≠ descriptions v :=
      fun hu hv huv he => huv ((hs _ j hj).unique ⟨(hiff _).mpr hu, he⟩ ⟨(hiff _).mpr hv, rfl⟩)
    rw [hb]
    simp [hne (.inl rfl) (.inr (.inl rfl)) hxy, hne (.inl rfl) (.inr (.inr rfl)) hxz, hne (.inr (.inl rfl)) (.inr (.inr rfl)) hyz]
  · intro hm l j hj
    obtain ⟨x, y, z, hb, -, -, -, hiff⟩ := h.block hj
    have hnd := hm j hj
    rw [hb] at hnd
    have huniq : ∀ {u v}, (u = x ∨ u = y ∨ u = z) → (v = x ∨ v = y ∨ v = z) → descriptions u = descriptions v → u = v := by
      simp only [List.map_cons, List.map_nil, List.nodup_cons, List.mem_cons, List.not_mem_nil, or_false, not_or] at hnd
      rintro u v (rfl | rfl | rfl) (rfl | rfl | rfl) he <;> simp_all
    have hl : ∃ i, (i = x ∨ i = y ∨ i = z) ∧ descriptions i = l := by
      rcases one_of_three hnd l with rfl | rfl | rfl
      · exact ⟨x, .inl rfl, rfl⟩
      · exact ⟨y, .inr (.inl rfl), rfl⟩
      · exact ⟨z, .inr (.inr rfl), rfl⟩
    obtain ⟨i, hi, rfl⟩ := hl
    exact ⟨i, ⟨(hiff i).mpr hi, rfl⟩, fun v ⟨hv, he⟩ => huniq ((hiff v).mp hv) hi he⟩

/-- With one thread for each entry, the entries hold the times that were measured. -/
theorem stats (h : Ended n line arr s) (hn : n % 3 = 0)
    (hslots : ∀ l j, j < n / 3 → ∃! i, i < n ∧ descriptions i = l ∧ (s.thread i).id / 3 = j) (l : Letter) :
    ((List.range (n / 3)).map (s.time l)).Perm ((sorters n l).map fun i => (s.thread i).usecs) := by
  have hmem : ∀ {i}, i ∈ sorters n l ↔ i < n ∧ descriptions i = l := by simp [sorters]
  have hslot : ∀ {i}, i ∈ sorters n l → (s.thread i).id / 3 < n / 3 := fun hi => by
    have := h.id_lt (hmem.mp hi).1
    omega
  have hinj : ∀ i ∈ sorters n l, ∀ j ∈ sorters n l, (s.thread i).id / 3 = (s.thread j).id / 3 → i = j := fun i hi j hj he =>
    (hslots l _ (hslot hj)).unique ⟨(hmem.mp hi).1, (hmem.mp hi).2, he⟩ ⟨(hmem.mp hj).1, (hmem.mp hj).2, rfl⟩
  have hperm : ((sorters n l).map fun i => (s.thread i).id / 3).Perm (List.range (n / 3)) := by
    have hnd : (sorters n l).Nodup := List.nodup_range.filter _
    refine (List.perm_ext_iff_of_nodup (hnd.map_on hinj) List.nodup_range).mpr fun j => ?_
    rw [List.mem_map, List.mem_range]
    constructor
    · rintro ⟨i, hi, rfl⟩
      exact hslot hi
    · intro hj
      obtain ⟨i, ⟨hi, hl, he⟩, -⟩ := hslots l j hj
      exact ⟨i, hmem.mpr ⟨hi, hl⟩, he⟩
  refine (hperm.map (s.time l)).symm.trans (List.Perm.of_eq ?_)
  rw [List.map_map]
  refine List.map_congr_left fun i hi => ?_
  obtain ⟨hin, rfl⟩ := hmem.mp hi
  obtain ⟨j, hjd, hjl, hje, ht⟩ := h.time i (h.done i hin)
  have hjn : j < n := by
    by_contra hno
    obtain ⟨_, _, _, hd⟩ := hjd
    rw [h.start j fun hm => hno (h.lt j hm)] at hd
    cases hd
  rw [hinj j (hmem.mpr ⟨hjn, hjl⟩) i hi hje] at ht
  exact ht

end Ended

/-- A thread that has not started can run from its start to its end. -/
theorem exists_turn (hi : i < n) (h : s.thread i = .start) : ∃ tr t, Run (Step n line) always s tr t ∧ arrivals tr = [i] ∧
    (t.thread i).Done ∧ ∀ j, j ≠ i → t.thread j = s.thread j := by
  obtain ⟨data, hdata⟩ := exists_sorts (descriptions i) line (s.count * line) s.dataArray
  have h1 := @Step.prologue n line s i hi h
  have h2 : Step n line { s with count := s.count + 1, thread := Function.update s.thread i (.sorting (s.count * line) s.count) }
      (.sort i) () _ := .sort (Function.update_self ..) hdata
  refine ⟨_, _, ((Run.nil.snoc trivial h1).snoc trivial h2).snoc trivial (@Step.store n line _ i _ _ 0 (Function.update_self ..)), rfl,
    ?_, fun j hj => ?_⟩
  · dsimp only
    rw [Function.update_self]
    exact ⟨_, _, _, rfl⟩
  · dsimp only
    rw [Function.update_of_ne hj, Function.update_of_ne hj, Function.update_of_ne hj]

/-- **Every order of arrivals occurs.** -/
theorem exists_run : ∀ {order : List ℕ} {s : St}, order.Nodup → (∀ i ∈ order, i < n) → (∀ i ∈ order, s.thread i = .start) →
    ∃ tr t, Run (Step n line) always s tr t ∧ arrivals tr = order ∧ (∀ i ∈ order, (t.thread i).Done) ∧
      ∀ i, i ∉ order → t.thread i = s.thread i
  | [], s, _, _, _ => ⟨[], s, .nil, rfl, fun i hi => absurd hi List.not_mem_nil, fun _ _ => rfl⟩
  | i :: order, s, hnd, hlt, hstart => by
    obtain ⟨hi, hnd⟩ := List.nodup_cons.mp hnd
    obtain ⟨tr1, u, hrun1, harr1, hdone1, hkeep1⟩ := @exists_turn n line s i (hlt i List.mem_cons_self) (hstart i List.mem_cons_self)
    have hstart' : ∀ j ∈ order, u.thread j = .start := fun j hj => by
      rw [hkeep1 j fun he => hi (he ▸ hj)]
      exact hstart j (List.mem_cons_of_mem _ hj)
    obtain ⟨tr2, t, hrun2, harr2, hdone2, hkeep2⟩ := exists_run hnd (fun j hj => hlt j (List.mem_cons_of_mem _ hj)) hstart'
    refine ⟨tr1 ++ tr2, t, hrun1.append hrun2, ?_, fun j hj => ?_, fun j hj => ?_⟩
    · rw [arrivals, List.filterMap_append]
      show arrivals tr1 ++ arrivals tr2 = _
      rw [harr1, harr2]
      rfl
    · rcases List.mem_cons.mp hj with rfl | hj
      · rw [hkeep2 j hi]
        exact hdone1
      · exact hdone2 j hj
    · rw [List.mem_cons, not_or] at hj
      rw [hkeep2 j hj.2, hkeep1 j hj.1]

/-- A whole run in a given order. -/
theorem exists_ended {order : List ℕ} (hperm : order.Perm (List.range n)) : ∃ tr t, Run (Step n line) always (init n line) tr t ∧
    arrivals tr = order ∧ ∀ i, i < n → (t.thread i).Done := by
  obtain ⟨tr, t, hrun, harr, hdone, -⟩ := @exists_run n line order (init n line) (hperm.nodup_iff.mpr List.nodup_range)
    (fun i hi => List.mem_range.mp (hperm.mem_iff.mp hi)) fun _ _ => rfl
  exact ⟨tr, t, hrun, harr, fun i hi => hdone i (hperm.mem_iff.mpr (List.mem_range.mpr hi))⟩

/-- **What the dispatch guarantees.**  In every run in which all threads come to their end, the chunks are sorted, each by one thread; each
entry of the time arrays has one thread, and the statistics are over the measured times, exactly when the threads have arrived in mixed
blocks of three. -/
theorem dispatched_iff {t : St} {tr : List (Ev St Act Unit)} (hn : n % 3 = 0) (hpos : 0 < line) (hmax : line ≤ maxValsPerThread)
    (hrun : Run (Step n line) always (init n line) tr t) (hdone : ∀ i, i < n → (t.thread i).Done) :
    Dispatched n line t ↔ MixedBlocks n (arrivals tr) := by
  have h : Ended n line (arrivals tr) t := ⟨run_inv hmax hrun, hdone⟩
  constructor
  · exact fun hd => h.slots_iff.mp hd.slots
  · intro hm
    have hslots := h.slots_iff.mpr hm
    exact ⟨fun c hc => h.chunks hpos hc, fun c hc => h.chunk_sorted hc, hslots, h.stats hn hslots⟩

/-- Six threads that arrive as they were created. -/
theorem dispatched_in_order : ∃ tr t, Run (Step 6 10) always (init 6 10) tr t ∧ Dispatched 6 10 t := by
  obtain ⟨tr, t, hrun, harr, hdone⟩ := @exists_ended 6 10 (List.range 6) (.refl _)
  exact ⟨tr, t, hrun, (dispatched_iff (by decide) (by decide) (by decide) hrun hdone).mpr (harr ▸ by decide)⟩

/-- Six threads of which the fourth, a brute force sorter as the first, comes second: one entry of `Ftime` has two threads and the other
has none. -/
theorem brute_force_twice : ∃ tr t, Run (Step 6 10) always (init 6 10) tr t ∧ arrivals tr = [0, 3, 1, 2, 4, 5] ∧
    (∀ i, i < 6 → (t.thread i).Done) ∧ ¬ Dispatched 6 10 t := by
  obtain ⟨tr, t, hrun, harr, hdone⟩ := @exists_ended 6 10 [0, 3, 1, 2, 4, 5] (by decide)
  have hend : Ended 6 10 (arrivals tr) t := ⟨run_inv (by decide) hrun, hdone⟩
  refine ⟨tr, t, hrun, harr, hdone, fun hd => ?_⟩
  have hm := hend.slots_iff.mp hd.slots
  rw [harr] at hm
  exact absurd hm (by decide)

end OsLabs.ThreadsBasics.ThreadDispatch
