import OsLabs.LetterPattern
import OsLabs.Segment
import OsLabs.Xv6.Ulib

/-!
# OsLabs.Xv6.Grep — the pattern matcher and the line loop of grep.c

* `matchhere`, `matchstar`, `match_`: the matcher, as it backtracks.
* `parse`, `reLang`: what a pattern means, as a language; `match_iff` says that the matcher decides it.
* `grep`: the loop that reads into `buf[1024]`, with any sizes of the pieces that `read` returns.
* `selected`: the lines that are printed, from the input alone; `grep_prints` says that the loop prints them.
-/

namespace OsLabs.Xv6.User

open Computability LetterPattern

section Match

variable {c : Char} {re text : List Char}

/-- `re[0]=='.' || re[0]==*text` -/
def sym (c : Char) (x : Char) : Bool := c == '.' || c == x

/-- `matchstar`; `here` is `matchhere(re, ·)`. -/
def matchstar (c : Char) (here : List Char → Bool) : List Char → Bool
  | [] => here []
  | x :: text => here (x :: text) || ((x == c || c == '.') && matchstar c here text)

def matchhere : List Char → List Char → Bool
  | [], _ => true
  | c :: '*' :: re, text => matchstar c (fun text => matchhere re text) text
  | ['$'], text => text.isEmpty
  | _ :: _, [] => false
  | c :: re, x :: text => sym c x && matchhere re text

/-- The loop of `match`: `matchhere` on every suffix, the empty one too. -/
def matchAny (re : List Char) : List Char → Bool
  | [] => matchhere re []
  | x :: text => matchhere re (x :: text) || matchAny re text

def match_ (re text : List Char) : Bool :=
  match re with
  | '^' :: re => matchhere re text
  | re => matchAny re text

/-- What a pattern without its `^` is made of, and whether it ends in a `$`. -/
def parse : List Char → List (Item Char) × Bool
  | [] => ([], false)
  | c :: '*' :: re => (.many (sym c) :: (parse re).1, (parse re).2)
  | ['$'] => ([], true)
  | c :: re => (.one (sym c) :: (parse re).1, (parse re).2)

/-- The texts that begin with a match, or are one if the pattern ends in `$`. -/
def hereLang (re : List Char) : Language Char := lang (parse re).1 (if (parse re).2 then 1 else ⊤)

/-- The texts with a match in them. -/
def reLang : List Char → Language Char
  | '^' :: re => hereLang re
  | re => ⊤ * hereLang re

theorem matchstar_iff {here : List Char → Bool} {L : Language Char} (h : ∀ text, here text = true ↔ text ∈ L) :
    matchstar c here text = true ↔ text ∈ (letter (sym c))∗ * L := by
  induction text with
  | nil => rw [matchstar, h, nil_mem_many_mul]
  | cons x text ih =>
    have hsym : (x == c || c == '.') = sym c x := by
      unfold sym
      rw [Bool.or_comm, Bool.beq_comm (a := x)]
    rw [matchstar, cons_mem_many_mul, Bool.or_eq_true, Bool.and_eq_true, h, ih, hsym]

theorem hereLang_cons (hs : ∀ re', re = '*' :: re' → False) (he : c = '$' → re = [] → False) :
    hereLang (c :: re) = letter (sym c) * hereLang re := by
  unfold hereLang
  rw [parse.eq_4 c re hs he]
  exact lang_cons _ _ _

theorem hereLang_nil : hereLang [] = ⊤ := lang_nil _

theorem hereLang_end : hereLang ['$'] = 1 := lang_nil _

/-- `matchhere` decides whether the text begins with a match. -/
theorem matchhere_iff (re text : List Char) : matchhere re text = true ↔ text ∈ hereLang re := by
  induction re, text using matchhere.induct with
  | case1 text =>
    rw [matchhere, hereLang_nil]
    exact iff_of_true rfl trivial
  | case2 c re text ih =>
    have hstar : hereLang (c :: '*' :: re) = (letter (sym c))∗ * hereLang re := lang_cons _ _ _
    rw [matchhere, hstar]
    exact matchstar_iff ih
  | case3 text => rw [matchhere, List.isEmpty_iff, hereLang_end, Language.mem_one]
  | case4 c re hs he =>
    rw [matchhere.eq_4 c re hs he, hereLang_cons hs he]
    exact iff_of_false Bool.false_ne_true nil_notMem_letter_mul
  | case5 c re x text hs he ih => rw [matchhere.eq_5 c re x text hs he, hereLang_cons hs he, mem_letter_mul, Bool.and_eq_true, ih]

theorem matchAny_iff (re text : List Char) : matchAny re text = true ↔ text ∈ (⊤ : Language Char) * hereLang re := by
  induction text with
  | nil => rw [matchAny, matchhere_iff, nil_mem_top_mul]
  | cons x text ih => rw [matchAny, cons_mem_top_mul, Bool.or_eq_true, matchhere_iff, ih]

/-- **The matcher.**  For every pattern and every text, `match` returns 1 exactly if the text is in the language of the pattern: literals,
`.`, stars of either, `^` in front and `$` at the end. -/
theorem match_iff (re text : List Char) : match_ re text = true ↔ text ∈ reLang re := by
  unfold match_ reLang
  split
  · exact matchhere_iff _ text
  · exact matchAny_iff re text

end Match

/-! ## The loop over the lines -/

section Loop

variable {pattern input w : List Char} {buf : Mem} {p k m : ℕ}

/-- `sizeof(buf)` -/
def BUFSIZE : ℕ := 1024

/-- The bytes `p, …, q` as `write(1, p, q+1 - p)` finds them. -/
def bytes (buf : Mem) (p q : ℕ) : List Char := Segment.seg buf p (q + 1 - p)

/-- The inner loop: what it writes, the final `p`, and the buffer. -/
def scan (pattern : List Char) : ℕ → ℕ → Mem → List (List Char) × ℕ × Mem
  | 0, p, buf => ([], p, buf)
  | k + 1, p, buf =>
    match strchr buf '\n' BUFSIZE p with
    | none => ([], p, buf)
    | some q =>
      let buf := Function.update buf q NUL
      if match_ pattern (cstr buf BUFSIZE p) then
        let buf := Function.update buf q '\n'
        let r := scan pattern k (q + 1) buf
        (bytes buf p q :: r.1, r.2)
      else scan pattern k (q + 1) buf

/-- The outer loop.  Read number `i` returns at most `some n + 1` bytes, and at least one if it can, or it fails. -/
def grep (pattern : List Char) (reads : ℕ → Option ℕ) : ℕ → ℕ → ℕ → Mem → List Char → Option (List (List Char) × Mem)
  | 0, _, _, _, _ => none
  | k + 1, i, m, buf, input =>
    match reads i with
    | none => some ([], buf)
    | some n =>
      let n := min (BUFSIZE - m - 1) (min (n + 1) input.length)
      if n = 0 then some ([], buf)
      else
        let buf := store buf m (input.take n)
        let m := m + n
        let buf := Function.update buf m NUL
        let r := scan pattern BUFSIZE 0 buf
        let m := m - r.2.1
        let buf := memmove r.2.2 0 r.2.1 m
        (grep pattern reads k (i + 1) m buf (input.drop n)).map fun x => (r.1 ++ x.1, x.2)

/-- A line that `grep` can look at: it fits into the buffer with its newline and the final NUL, and is a string. -/
def fits (line : List Char) : Bool := line.length + 2 ≤ BUFSIZE ∧ NUL ∉ line

/-- The lines that end in a newline, up to the first that does not fit; those of them that match. -/
def selected (pattern input : List Char) : List (List Char) :=
  (((input.splitOn '\n').dropLast.takeWhile fits).filter (match_ pattern)).map (· ++ ['\n'])

theorem selected_line {line : List Char} (hl : '\n' ∉ line) (rest : List Char) :
    selected pattern (line ++ '\n' :: rest) =
      if fits line then (if match_ pattern line then [line ++ ['\n']] else []) ++ selected pattern rest else [] := by
  have h : ((line ++ '\n' :: rest).splitOn '\n').dropLast = line :: (rest.splitOn '\n').dropLast := by
    rw [List.splitOn_append_cons_self, List.splitOn_eq_singleton hl, List.singleton_append,
      List.dropLast_cons_of_ne_nil (List.splitOn_ne_nil _ _)]
  unfold selected
  rw [h, List.takeWhile_cons]
  by_cases hf : fits line
  · rw [if_pos hf, if_pos hf, List.filter_cons]
    by_cases hm : match_ pattern line
    · rw [if_pos hm, if_pos hm]
      rfl
    · rw [if_neg hm, if_neg hm]
      rfl
  · rw [if_neg hf, if_neg hf]
    rfl

theorem selected_unfinished (hw : '\n' ∉ w) : selected pattern w = [] := by
  unfold selected
  rw [List.splitOn_eq_singleton hw]
  rfl

/-- Nothing more is selected once the buffer holds no visible line, if it is full or the input has ended. -/
theorem selected_stuck (hw : Hidden '\n' w) (h : BUFSIZE ≤ w.length + 1 ∨ input = []) : selected pattern (w ++ input) = [] := by
  by_cases hn : '\n' ∈ w ++ input
  · obtain ⟨line, rest, hl, hline⟩ := List.eq_append_cons_of_mem hn
    rw [hl, selected_line hline]
    refine if_neg fun hf => ?_
    obtain ⟨hlen, hnul⟩ := of_decide_eq_true hf
    have htake : line ++ '\n' :: rest.take (w.length - line.length - 1) = w ∨ w.length ≤ line.length := by
      rcases Nat.lt_or_ge line.length w.length with hlt | hge
      · refine .inl ?_
        have := congrArg (List.take w.length) hl
        rw [List.take_left, List.take_append, List.take_of_length_le (Nat.le_of_lt hlt)] at this
        refine (this.trans ?_).symm
        rw [show w.length - line.length = w.length - line.length - 1 + 1 by omega, List.take_succ_cons, Nat.add_sub_cancel]
      · exact .inr hge
    rcases htake with h0 | hge
    · exact hnul (hw line _ h0.symm)
    · have hlen' := congrArg List.length hl
      simp only [List.length_append, List.length_cons] at hlen'
      rcases h with h | rfl
      · omega
      · rw [List.length_nil] at hlen'
        omega
  · exact selected_unfinished hn

theorem bytes_eq {q : ℕ} (h : Stands buf p w) (hq : q + 1 = p + w.length) : bytes buf p q = w := by
  unfold bytes
  rw [show q + 1 - p = w.length by omega]
  clear hq
  induction w generalizing p with
  | nil => rfl
  | cons a w ih => rw [List.length_cons, Segment.seg_succ, h.1, ih h.2]

/-- What the inner loop leaves: the lines of the buffer are written if they match, and what is left shows no line. -/
structure Scanned (pattern : List Char) (buf : Mem) (p : ℕ) (w : List Char) (r : List (List Char) × ℕ × Mem) (left : List Char) : Prop where
  place : r.2.1 + left.length = p + w.length
  stands : Stands r.2.2 r.2.1 left
  hidden : Hidden '\n' left
  out : ∀ rest, selected pattern (w ++ rest) = r.1 ++ selected pattern (left ++ rest)
  frame : ∀ j, p + w.length ≤ j → r.2.2 j = buf j

theorem scan_spec (hst : Stands buf p w) (he : buf (p + w.length) = NUL) (hlen : p + w.length < BUFSIZE) (hk : w.length < k) :
    ∃ left, Scanned pattern buf p w (scan pattern k p buf) left := by
  induction k generalizing buf p w with
  | zero => exact absurd hk (Nat.not_lt_zero _)
  | succ k ih =>
    rw [scan]
    rcases strchr_spec (c := '\n') (by decide) hst he (show w.length < BUFSIZE by omega) with ⟨h1, h2⟩ | ⟨line, rest, h1, rfl, hnew, hnul⟩
    · rw [h1]
      exact ⟨w, rfl, hst, h2, fun rest => rfl, fun j _ => rfl⟩
    · rw [h1]
      obtain ⟨hline, hnl, hrest⟩ := stands_append.mp hst
      simp only [List.length_append, List.length_cons] at he hlen hk
      have hfits : fits line = true := decide_eq_true ⟨by omega, hnul⟩
      -- the text that is matched
      have hcstr : cstr (Function.update buf (p + line.length) NUL) BUFSIZE p = line := by
        refine cstr_eq (hline.congr fun j h1 h2 => ?_) hnul (Function.update_self _ _ _) (by omega)
        rw [Function.update_of_ne (by omega)]
      -- the rest of the buffer is as before, whether the newline has been put back or not
      have hgo : ∀ buf' : Mem, (∀ j, j ≠ p + line.length → buf' j = buf j) →
          ∃ left, Scanned pattern buf' (p + line.length + 1) rest (scan pattern k (p + line.length + 1) buf') left := by
        intro buf' hb
        refine ih (hrest.congr fun j h1 h2 => hb j (by omega)) ?_ (by omega) (by omega)
        rw [hb _ (by omega), ← he]
        congr 1
        omega
      have hdone : ∀ {buf' : Mem} {r left out}, (∀ j, j ≠ p + line.length → buf' j = buf j) →
          Scanned pattern buf' (p + line.length + 1) rest r left →
          (out = if match_ pattern line then [line ++ ['\n']] else []) →
          Scanned pattern buf p (line ++ '\n' :: rest) (out ++ r.1, r.2) left := by
        rintro buf' r left out hb ⟨h1, h2, h3, h5, h6⟩ rfl
        refine ⟨?_, h2, h3, fun x => ?_, fun j hj => ?_⟩
        · rw [h1, List.length_append, List.length_cons]
          omega
        · rw [List.append_assoc, List.cons_append, selected_line hnew, if_pos hfits, h5, List.append_assoc]
        · rw [List.length_append, List.length_cons] at hj
          rw [h6 j (by omega), hb j (by omega)]
      dsimp only
      rw [hcstr]
      split_ifs with hm
      · have hb : ∀ j, j ≠ p + line.length →
            Function.update (Function.update buf (p + line.length) NUL) (p + line.length) '\n' j = buf j := by
          intro j hj
          rw [Function.update_of_ne hj, Function.update_of_ne hj]
        have hbytes : bytes (Function.update (Function.update buf (p + line.length) NUL) (p + line.length) '\n') p (p + line.length) =
            line ++ ['\n'] := by
          refine bytes_eq (stands_append.mpr ⟨hline.congr fun j h1 h2 => hb j (by omega), Function.update_self _ _ _, trivial⟩) ?_
          rw [List.length_append, List.length_singleton]
          omega
        obtain ⟨left, hs⟩ := hgo _ hb
        rw [hbytes]
        exact ⟨left, hdone hb hs (if_pos hm).symm⟩
      · have hb : ∀ j, j ≠ p + line.length → Function.update buf (p + line.length) NUL j = buf j := by
          intro j hj
          rw [Function.update_of_ne hj]
        obtain ⟨left, hs⟩ := hgo _ hb
        exact ⟨left, hdone hb hs (if_neg hm).symm⟩

/-- The outer loop from any point: the buffer holds the beginning of a line. -/
theorem grep_spec (reads : ℕ → Option ℕ) (i : ℕ) (hst : Stands buf 0 w) (hhid : Hidden '\n' w) (hlen : w.length < BUFSIZE)
    (hk : input.length < k) :
    ∃ out buf', grep pattern reads k i w.length buf input = some (out, buf') ∧ out <+: selected pattern (w ++ input) ∧
      ((∀ i, (reads i).isSome) → out = selected pattern (w ++ input)) ∧ ∀ j, BUFSIZE ≤ j → buf' j = buf j := by
  induction k generalizing i buf w input with
  | zero => exact absurd hk (Nat.not_lt_zero _)
  | succ k ih =>
    rw [grep]
    cases hr : reads i with
    | none => exact ⟨[], buf, rfl, List.nil_prefix, fun h => by simpa [hr] using h i, fun _ _ => rfl⟩
    | some c =>
      dsimp only
      split_ifs with h0
      · have hstuck : selected pattern (w ++ input) = [] := by
          refine selected_stuck hhid ?_
          by_cases hi : input = []
          · exact .inr hi
          · have := List.length_pos_iff.mpr hi
            exact .inl (by omega)
        exact ⟨[], buf, rfl, List.nil_prefix, fun _ => hstuck.symm, fun _ _ => rfl⟩
      · generalize hn : min (BUFSIZE - w.length - 1) (min (c + 1) input.length) = n at h0 ⊢
        have hchunk : (input.take n).length = n := by
          rw [List.length_take]
          omega
        have hfull : (w ++ input.take n).length = w.length + n := by rw [List.length_append, hchunk]
        generalize hb : Function.update (store buf w.length (input.take n)) (w.length + n) NUL = buf1
        have hst1 : Stands buf1 0 (w ++ input.take n) := by
          subst hb
          refine stands_append.mpr ⟨hst.congr fun j _ hj => ?_, ?_⟩
          · rw [Function.update_of_ne (by omega), store_of_lt (by omega)]
          · rw [Nat.zero_add]
            refine (stands_store buf _ _).congr fun j _ hj => ?_
            rw [Function.update_of_ne (by omega)]
        have hend : buf1 (0 + (w ++ input.take n).length) = NUL := by
          rw [← hb, Nat.zero_add, hfull, Function.update_self]
        obtain ⟨left, hs⟩ := @scan_spec pattern _ _ _ BUFSIZE hst1 hend (by omega) (by omega)
        generalize scan pattern BUFSIZE 0 buf1 = r at hs ⊢
        have hplace := hs.place
        rw [show w.length + n - r.2.1 = left.length by omega]
        -- the piece of a line that is left moves to the front
        have hmove : Stands (memmove r.2.2 0 r.2.1 left.length) 0 left := by
          refine hs.stands.move fun j hj => ?_
          rw [memmove_apply, if_pos (by omega), Nat.zero_add, Nat.sub_zero]
        obtain ⟨out, buf', h1, h2, h3, h4⟩ := ih (i + 1) hmove hs.hidden (by omega) (show (input.drop n).length < k by
          rw [List.length_drop]
          omega)
        have hsel : selected pattern (w ++ input) = r.1 ++ selected pattern (left ++ input.drop n) := by
          rw [← hs.out, List.append_assoc, List.take_append_drop]
        rw [h1, hsel]
        refine ⟨r.1 ++ out, buf', rfl, (List.prefix_append_right_inj _).mpr h2, fun h => by rw [h3 h], fun j hj => ?_⟩
        rw [h4 j hj, memmove_apply, if_neg (by omega), hs.frame j (by omega), ← hb, Function.update_of_ne (by omega),
          store_of_ge (by omega)]

/-- **`grep`.**  Whatever the sizes of the pieces that `read` returns, the loop ends and prints exactly the matching lines among those in
front of the first that does not fit into the buffer or has a NUL in it, the last line not counted if no newline ends it; after an error of
`read` it has printed a beginning of that.  It stays inside its buffer. -/
theorem grep_prints (pattern input : List Char) (reads : ℕ → Option ℕ) (buf : Mem) :
    ∃ out buf', grep pattern reads (input.length + 1) 0 0 buf input = some (out, buf') ∧ out <+: selected pattern input ∧
      ((∀ i, (reads i).isSome) → out = selected pattern input) ∧ ∀ j, BUFSIZE ≤ j → buf' j = buf j := by
  have hhid : Hidden '\n' [] := fun line rest h => by simp at h
  exact grep_spec (w := []) reads 0 trivial hhid (by decide) (Nat.lt_succ_self _)

end Loop

end OsLabs.Xv6.User
