import OsLabs.SimpleShell.Shell

/-!
# OsLabs.SimpleShell.Dispatch — which lines the shell runs as it should

* `Line.wanted`, `Promise`: what a line should do.
* `mainLoop_digit`, `mainLoop_background`, `mainLoop_foreground`: the three branches of `help`, with what they pass to `execlp`.
* `Repeating`, `Alone`: the way to the next prompt after a digit, and in the foreground; `prompts_waiting`: there is one.
* `dispatch_iff`: which lines are dispatched as they should be.
-/

namespace OsLabs.SimpleShell

open CText Lts

/-! ## What a line should do -/

inductive Mode
  | repeated (d : ℕ)
  | background
  | foreground
  deriving DecidableEq, Repr

/-- How the first word should be run. -/
def mode : List Char → Mode
  | [] => .foreground
  | c :: w =>
    if c.isDigit then .repeated (c.toNat - '0'.toNat) else if ['B', 'G'] <+: c :: w then .background else .foreground

/-- The program that it names. -/
def program (w : List Char) : List Char :=
  match mode w with
  | .repeated _ => w.drop 1
  | .background => w.drop 2
  | .foreground => w

def Line.exec (l : Line) : Exec := ⟨program l.word, program l.word :: l.argument.toList⟩

/-- The children that a line should start. -/
def Line.wanted (l : Line) : List Job :=
  match mode l.word with
  | .repeated d => List.replicate d (.program l.exec)
  | .background => [.watcher l.exec]
  | .foreground => [.program l.exec]

/-- No further line is read. -/
def Quiet (_ : Shell) (a : Act) : Prop := ∀ l, a ≠ .line l

/-- In `t` the line `l`, read in `s`, is dispatched: the shell asks for the next one. -/
def After (l : Line) (s t : Shell) : Prop :=
  ∃ tr, Run Step Quiet (mainLoop s (l.chars ++ ['\n'])) tr t ∧ t.ctl = .prompt

/-- What the line `l` should do when it is read in `s`: it starts the children that are wanted, and at the next prompt they have ended, but
in the background the prompt does not wait. -/
def Promise (l : Line) (s : Shell) : Prop :=
  (∀ t, After l s t → t.jobs = s.jobs ++ l.wanted ∧ (mode l.word ≠ .background → ∀ i, s.children.length ≤ i → ¬ t.Running i)) ∧
    ∃ t, After l s t ∧ (mode l.word = .background → t.Running s.children.length)

/-- The condition.  Where the tests on the first two characters are right, nobody may be left running that `wait(NULL)` could wait for. -/
def Served (l : Line) (s : Shell) : Prop :=
  (chr l.word 0).isDigit ∨ chr l.word 0 = 'B' ∧ chr l.word 1 = 'G' ∨
    chr l.word 0 ≠ 'B' ∧ chr l.word 1 ≠ 'G' ∧ ∀ i, ¬ s.Running i

/-! ## What `help` does with a line -/

theorem chr_word {w : List Char} {i : ℕ} (h : i ≤ w.length) (rest : Memory) : chr (w ++ '\x00' :: rest) i = chr w i := by
  unfold chr
  rcases h.lt_or_eq with hlt | rfl
  · rw [List.getD_append _ _ _ _ hlt]
  · rw [List.getD_append_right _ _ _ _ le_rfl, Nat.sub_self, List.getD_eq_default _ _ le_rfl]
    rfl

theorem str_word {w : List Char} {i : ℕ} (hw : '\x00' ∉ w) (h : i ≤ w.length) (rest : Memory) :
    str (w ++ '\x00' :: rest) i = w.drop i := by
  rw [str, List.drop_append_of_le_length h]
  exact cstr_append_null (fun hm => hw (List.mem_of_mem_drop hm)) rest

theorem one_lt_of_chr {w : List Char} (h : chr w 1 = 'G') : 1 < w.length := by
  by_contra hle
  rw [chr, List.getD_eq_default _ _ (Nat.le_of_not_lt hle)] at h
  exact absurd h (by decide)

section Modes

variable {w : List Char}

theorem mode_digit (h : (chr w 0).isDigit) : mode w = .repeated ((chr w 0).toNat - '0'.toNat) := by
  cases w with
  | nil => exact absurd h (by decide)
  | cons c w => exact if_pos h

theorem mode_background (h : ¬ (chr w 0).isDigit) (hB : chr w 0 = 'B') (hG : chr w 1 = 'G') : mode w = .background := by
  match w with
  | [] => exact absurd hB (by decide)
  | [_] => exact absurd hG (show ¬ '\x00' = 'G' by decide)
  | c :: d :: w =>
    obtain rfl : c = 'B' := hB
    obtain rfl : d = 'G' := hG
    rw [mode, if_neg (by decide), if_pos ⟨w, rfl⟩]

theorem mode_foreground (h : ¬ (chr w 0).isDigit) (hBG : ¬ (chr w 0 = 'B' ∧ chr w 1 = 'G')) : mode w = .foreground := by
  cases w with
  | nil => rfl
  | cons c w =>
    refine (if_neg h).trans (if_neg fun hp => hBG ?_)
    obtain ⟨t, ht⟩ := hp
    rw [← ht]
    exact ⟨rfl, rfl⟩

end Modes

section Dispatch

variable {l : Line} (hw : l.word ≠ []) (hquit : l.word ≠ ['q', 'u', 'i', 't']) (hexit : l.word ≠ ['e', 'x', 'i', 't']) (s : Shell)

include hquit hexit in
/-- What `help` is called with. -/
theorem mainLoop_line : ∃ rest arg, mainLoop s (l.chars ++ ['\n']) =
      help { s with command := l.word ++ '\x00' :: rest } (l.word ++ '\x00' :: rest) 0 arg ∧
    ∀ i, i ≤ l.word.length → execlp (l.word ++ '\x00' :: rest) i arg = ⟨l.word.drop i, l.word.drop i :: l.argument.toList⟩ := by
  obtain ⟨rest, hm, harg⟩ := parse_line l s.command
  rw [hm] at harg
  refine ⟨rest, (parse (readCommand s.command (l.chars ++ ['\n'])).1).arg, ?_, fun i hi => ?_⟩
  · unfold mainLoop
    dsimp only
    rw [hm, str_word l.word_no_null (Nat.zero_le _), List.drop_zero, if_neg (not_or.mpr ⟨hquit, hexit⟩)]
  · rw [execlp, str_word l.word_no_null hi, harg]

include hw hquit hexit

theorem mainLoop_digit (h : (chr l.word 0).isDigit) : ∃ m, mainLoop s (l.chars ++ ['\n']) =
    { s with command := m, ctl := .forking l.exec ((chr l.word 0).toNat - '0'.toNat) [] } := by
  obtain ⟨rest, arg, hmain, hexec⟩ := mainLoop_line hquit hexit s
  refine ⟨l.word ++ '\x00' :: rest, ?_⟩
  rw [hmain, help, chr_word (Nat.zero_le _), if_pos h, hexec 1 (List.length_pos_iff.mpr hw), Line.exec, program, mode_digit h]
  rfl

theorem mainLoop_background (h : ¬ (chr l.word 0).isDigit) (hBG : chr l.word 0 = 'B' ∨ chr l.word 1 = 'G') :
    ∃ m e, mainLoop s (l.chars ++ ['\n']) = { s with command := m, children := s.children ++ [⟨.watcher e, true⟩], ctl := .prompt } ∧
      (chr l.word 0 = 'B' → chr l.word 1 = 'G' → e = l.exec) := by
  obtain ⟨rest, arg, hmain, hexec⟩ := mainLoop_line hquit hexit s
  refine ⟨l.word ++ '\x00' :: rest, execlp (l.word ++ '\x00' :: rest) 2 arg, ?_, fun hB hG => ?_⟩
  · rw [hmain, help, chr_word (Nat.zero_le _), if_neg h, chr_word (List.length_pos_iff.mpr hw), if_pos hBG]
    rfl
  · rw [hexec 2 (one_lt_of_chr hG), Line.exec, program, mode_background h hB hG]

theorem mainLoop_foreground (h : ¬ (chr l.word 0).isDigit) (hBG : ¬ (chr l.word 0 = 'B' ∨ chr l.word 1 = 'G')) :
    ∃ m, mainLoop s (l.chars ++ ['\n']) = { s with command := m, children := s.children ++ [⟨.program l.exec, true⟩], ctl := .wait } := by
  obtain ⟨rest, arg, hmain, hexec⟩ := mainLoop_line hquit hexit s
  refine ⟨l.word ++ '\x00' :: rest, ?_⟩
  rw [hmain, help, chr_word (Nat.zero_le _), if_neg h, chr_word (List.length_pos_iff.mpr hw), if_neg hBG, hexec 0 (Nat.zero_le _),
    Line.exec, program, mode_foreground h fun hb => hBG (Or.inl hb.1)]
  rfl

end Dispatch

/-! ## Children -/

namespace Shell

variable {s : Shell} {i k : ℕ}

theorem length_jobs (s : Shell) : s.jobs.length = s.children.length := List.length_map _

theorem jobs_fork (s : Shell) (j : Job) : (s.fork j).jobs = s.jobs ++ [j] := by
  rw [jobs, fork, List.map_append]
  rfl

theorem jobs_reap (s : Shell) (i : ℕ) : (s.reap i).jobs = s.jobs := by
  refine List.ext_getElem? fun k => ?_
  unfold jobs reap
  dsimp only
  rw [List.getElem?_map, List.getElem?_map, List.getElem?_modify, Option.map_eq_map, Option.map_map]
  refine congrFun (congrArg Option.map (funext fun c => ?_)) _
  dsimp only [Function.comp]
  split_ifs <;> rfl

theorem Running.lt (h : s.Running i) : i < s.children.length := by
  obtain ⟨j, hj⟩ := h
  exact (List.getElem?_eq_some_iff.mp hj).1

theorem running_reap : (s.reap i).Running k ↔ s.Running k ∧ k ≠ i := by
  unfold Running reap
  dsimp only
  rw [List.getElem?_modify]
  constructor
  · rintro ⟨j, hj⟩
    obtain ⟨c, hc, he⟩ := Option.map_eq_some_iff.mp hj
    by_cases hik : i = k
    · rw [if_pos hik] at he
      cases he
    · rw [if_neg hik] at he
      exact ⟨⟨j, he ▸ hc⟩, Ne.symm hik⟩
  · rintro ⟨⟨j, hj⟩, hne⟩
    exact ⟨j, by rw [hj, Option.map_eq_map, Option.map_some, if_neg (Ne.symm hne)]⟩

theorem running_fork {j : Job} : (s.fork j).Running k ↔ s.Running k ∨ k = s.children.length := by
  unfold Running fork
  dsimp only
  rcases lt_trichotomy k s.children.length with h | h | h
  · rw [List.getElem?_append_left h, or_iff_left h.ne]
  · subst h
    rw [List.getElem?_concat_length]
    exact iff_of_true ⟨j, rfl⟩ (Or.inr rfl)
  · rw [List.getElem?_eq_none (by rw [List.length_append, List.length_singleton]; exact h), List.getElem?_eq_none h.le]
    refine iff_of_false ?_ ?_
    · rintro ⟨_, hj⟩
      cases hj
    · rintro (⟨_, hj⟩ | rfl)
      · cases hj
      · exact h.false

end Shell

/-! ## From the line to the next prompt -/

section Runs

variable {js : List Job} {e : Exec} {d : ℕ} {t u : Shell} {a : Act}

/-- On the way through the loops of a digit: the children forked so far, and where those that run are waited for. -/
def Repeating (js : List Job) (e : Exec) (d : ℕ) (t : Shell) : Prop :=
  match t.ctl with
  | .forking e' left rcs => e' = e ∧ left ≤ d ∧ t.jobs = js ++ List.replicate (d - left) (.program e) ∧
      ∀ i, js.length ≤ i → t.Running i → i ∈ rcs
  | .waiting rcs => t.jobs = js ++ List.replicate d (.program e) ∧ ∀ i, js.length ≤ i → t.Running i → i ∈ rcs
  | .prompt => t.jobs = js ++ List.replicate d (.program e) ∧ ∀ i, js.length ≤ i → ¬ t.Running i
  | _ => False

/-- In the foreground: nobody runs but the new child. -/
def Alone (js : List Job) (e : Exec) (t : Shell) : Prop :=
  t.jobs = js ++ [.program e] ∧
    match t.ctl with
    | .wait => ∀ i, t.Running i → i = js.length
    | .prompt => ∀ i, ¬ t.Running i
    | _ => False

theorem Repeating.step (h : Repeating js e d t) (ha : Quiet t a) (hst : Step t a () u) : Repeating js e d u := by
  unfold Repeating at h ⊢
  cases hst with
  | line _ => exact absurd rfl (ha _)
  | @fork e' n rcs hctl =>
    rw [hctl] at h
    obtain ⟨rfl, hle, hjobs, hrun⟩ := h
    refine ⟨rfl, Nat.le_of_succ_le hle, ?_, fun i hi hr => ?_⟩
    · have hd : d - n = d - (n + 1) + 1 := by omega
      rw [Shell.goto, hd, List.replicate_succ', ← List.append_assoc, ← hjobs]
      exact Shell.jobs_fork t _
    · rw [List.mem_append, List.mem_singleton]
      exact (Shell.running_fork.mp hr).imp_left (hrun i hi)
  | forked hctl =>
    rw [hctl] at h
    exact ⟨h.2.2.1, h.2.2.2⟩
  | @waitpid p rcs hctl hp =>
    rw [hctl] at h
    refine ⟨h.1, fun i hi hr => ?_⟩
    rcases List.mem_cons.mp (h.2 i hi hr) with rfl | hmem
    · exact absurd hr hp
    · exact hmem
  | waited hctl =>
    rw [hctl] at h
    exact ⟨h.1, fun i hi hr => List.not_mem_nil (h.2 i hi hr)⟩
  | @handler i _ =>
    have hrun : ∀ k, (t.reap i).Running k → t.Running k := fun k hk => (Shell.running_reap.mp hk).1
    have hctl : (t.reap i).ctl = t.ctl := rfl
    rw [hctl, Shell.jobs_reap]
    cases hc : t.ctl with
    | forking e' left rcs =>
      rw [hc] at h
      exact ⟨h.1, h.2.1, h.2.2.1, fun k hk hr => h.2.2.2 k hk (hrun k hr)⟩
    | waiting rcs =>
      rw [hc] at h
      exact ⟨h.1, fun k hk hr => h.2 k hk (hrun k hr)⟩
    | prompt =>
      rw [hc] at h
      exact ⟨h.1, fun k hk hr => h.2 k hk (hrun k hr)⟩
    | wait =>
      rw [hc] at h
      exact h
    | exited =>
      rw [hc] at h
      exact h
  | wait hctl _ =>
    rw [hctl] at h
    exact h.elim
  | echild hctl _ =>
    rw [hctl] at h
    exact h.elim

theorem Alone.step (h : Alone js e t) (ha : Quiet t a) (hst : Step t a () u) : Alone js e u := by
  obtain ⟨hjobs, h⟩ := h
  cases hst with
  | line _ => exact absurd rfl (ha _)
  | fork hctl =>
    rw [hctl] at h
    exact h.elim
  | forked hctl =>
    rw [hctl] at h
    exact h.elim
  | waitpid hctl _ =>
    rw [hctl] at h
    exact h.elim
  | waited hctl =>
    rw [hctl] at h
    exact h.elim
  | @handler i _ =>
    refine ⟨(Shell.jobs_reap t i).trans hjobs, ?_⟩
    have hctl : (t.reap i).ctl = t.ctl := rfl
    rw [hctl]
    cases hc : t.ctl with
    | wait =>
      rw [hc] at h
      exact fun k hk => h k (Shell.running_reap.mp hk).1
    | prompt =>
      rw [hc] at h
      exact fun k hk => h k (Shell.running_reap.mp hk).1
    | forking _ _ _ =>
      rw [hc] at h
      exact h
    | waiting _ =>
      rw [hc] at h
      exact h
    | exited =>
      rw [hc] at h
      exact h
  | @wait i hctl hi =>
    rw [hctl] at h
    refine ⟨(Shell.jobs_reap t i).trans hjobs, fun k hk => ?_⟩
    -- the child that `wait(NULL)` has taken was the only one
    obtain ⟨hk, hne⟩ := Shell.running_reap.mp hk
    exact hne ((h k hk).trans (h i hi).symm)
  | echild hctl hnone => exact ⟨hjobs, hnone⟩

/-- At the prompt children may end, and nothing else happens. -/
theorem prompt_run {tr : List (Ev Shell Act Unit)} (h : Run Step Quiet t tr u) (ht : t.ctl = .prompt) :
    u.ctl = .prompt ∧ u.jobs = t.jobs := by
  refine h.inv (I := fun x => x.ctl = .prompt ∧ x.jobs = t.jobs) ⟨ht, rfl⟩ fun x a _ y hx ha hst => ?_
  obtain ⟨hc, hj⟩ := hx
  cases hst with
  | line _ => exact absurd rfl (ha _)
  | handler _ => exact ⟨hc, (Shell.jobs_reap x _).trans hj⟩
  | fork h => exact absurd (hc.symm.trans h) Control.noConfusion
  | forked h => exact absurd (hc.symm.trans h) Control.noConfusion
  | waitpid h _ => exact absurd (hc.symm.trans h) Control.noConfusion
  | waited h => exact absurd (hc.symm.trans h) Control.noConfusion
  | wait h _ => exact absurd (hc.symm.trans h) Control.noConfusion
  | echild h _ => exact absurd (hc.symm.trans h) Control.noConfusion

/-- The shell can get from `t` to the next prompt. -/
def Prompts (t : Shell) : Prop := ∃ tr u, Run Step Quiet t tr u ∧ u.ctl = .prompt

theorem Prompts.step (h : Prompts u) (hq : Quiet t a) (hst : Step t a () u) : Prompts t := by
  obtain ⟨tr, v, hr, hv⟩ := h
  exact ⟨_, v, (Run.nil.snoc hq hst).append hr, hv⟩

theorem prompts_waiting : ∀ {rcs : List ℕ} {t : Shell}, t.ctl = .waiting rcs → Prompts t
  | [], t, h => Prompts.step ⟨[], t.goto .prompt, .nil, rfl⟩ (fun _ => Act.noConfusion) (.waited h)
  | p :: rcs, t, h => by
    by_cases hp : t.Running p
    · have hp' : ¬ (t.reap p).Running p := fun hr => (Shell.running_reap.mp hr).2 rfl
      have hctl : (t.reap p).ctl = .waiting (p :: rcs) := h
      have hnext : Prompts ((t.reap p).goto (.waiting rcs)) := prompts_waiting rfl
      exact (hnext.step (fun _ => Act.noConfusion) (.waitpid hctl hp')).step (fun _ => Act.noConfusion) (.handler hp)
    · have hnext : Prompts (t.goto (.waiting rcs)) := prompts_waiting rfl
      exact hnext.step (fun _ => Act.noConfusion) (.waitpid h hp)

theorem prompts_forking : ∀ {n : ℕ} {rcs : List ℕ} {t : Shell}, t.ctl = .forking e n rcs → Prompts t
  | 0, rcs, t, h => by
    have hnext : Prompts (t.goto (.waiting rcs)) := prompts_waiting rfl
    exact hnext.step (fun _ => Act.noConfusion) (.forked h)
  | n + 1, rcs, t, h => by
    have hnext : Prompts ((t.fork (.program e)).goto (.forking e n (rcs ++ [t.children.length]))) := prompts_forking rfl
    exact hnext.step (fun _ => Act.noConfusion) (.fork h)

end Runs

/-! ## Which lines are dispatched as they should be -/

section Lines

variable {l : Line} (hw : l.word ≠ []) (hquit : l.word ≠ ['q', 'u', 'i', 't']) (hexit : l.word ≠ ['e', 'x', 'i', 't']) (s : Shell)
include hw hquit hexit

theorem promise_digit (h : (chr l.word 0).isDigit) : Promise l s := by
  obtain ⟨m, hmain⟩ := mainLoop_digit hw hquit hexit s h
  have hmode := mode_digit h
  constructor
  · rintro t ⟨tr, hr, ht⟩
    rw [hmain] at hr
    have hinv : Repeating s.jobs l.exec ((chr l.word 0).toNat - '0'.toNat) t := by
      refine hr.inv ⟨rfl, le_rfl, ?_, fun i hi hrun => ?_⟩ fun _ _ _ _ hx ha hst => hx.step ha hst
      · rw [Nat.sub_self, List.replicate_zero, List.append_nil]
        rfl
      · exact absurd (s.length_jobs ▸ hi) (Nat.not_le.mpr hrun.lt)
    unfold Repeating at hinv
    rw [ht] at hinv
    refine ⟨?_, fun _ i hi => hinv.2 i (s.length_jobs ▸ hi)⟩
    rw [hinv.1, Line.wanted, hmode]
  · obtain ⟨tr, u, hr, hu⟩ := prompts_forking (t := { s with command := m, ctl := .forking l.exec _ [] }) rfl
    exact ⟨u, ⟨tr, hmain ▸ hr, hu⟩, fun hb => absurd (hmode.symm.trans hb) Mode.noConfusion⟩

theorem promise_background (h : ¬ (chr l.word 0).isDigit) (hB : chr l.word 0 = 'B') (hG : chr l.word 1 = 'G') : Promise l s := by
  obtain ⟨m, e, hmain, he⟩ := mainLoop_background hw hquit hexit s h (Or.inl hB)
  obtain rfl := he hB hG
  have hmode := mode_background h hB hG
  constructor
  · rintro t ⟨tr, hr, -⟩
    rw [hmain] at hr
    refine ⟨?_, fun hne => absurd hmode hne⟩
    rw [(prompt_run hr rfl).2, Line.wanted, hmode]
    exact s.jobs_fork _
  · refine ⟨mainLoop s (l.chars ++ ['\n']), ⟨[], .nil, by rw [hmain]⟩, fun _ => ?_⟩
    rw [hmain]
    exact Shell.running_fork.mpr (Or.inr rfl)

/-- A word with a `B` in front and no `G` behind it, or the other way round, runs in the background, and should not. -/
theorem not_promise_background (h : ¬ (chr l.word 0).isDigit) (hBG : chr l.word 0 = 'B' ∨ chr l.word 1 = 'G')
    (hnot : ¬ (chr l.word 0 = 'B' ∧ chr l.word 1 = 'G')) : ¬ Promise l s := by
  obtain ⟨m, e, hmain, -⟩ := mainLoop_background hw hquit hexit s h hBG
  rintro ⟨hall, -⟩
  have hjobs := (hall _ ⟨[], .nil, by rw [hmain]⟩).1
  rw [hmain, Line.wanted, mode_foreground h hnot] at hjobs
  have hlast := List.append_cancel_left ((s.jobs_fork (.watcher e)).symm.trans hjobs)
  cases hlast

theorem promise_foreground_iff (h : ¬ (chr l.word 0).isDigit) (hBG : ¬ (chr l.word 0 = 'B' ∨ chr l.word 1 = 'G')) :
    Promise l s ↔ ∀ i, ¬ s.Running i := by
  obtain ⟨m, hmain⟩ := mainLoop_foreground hw hquit hexit s h hBG
  have hmode := mode_foreground h fun hb => hBG (Or.inl hb.1)
  have hrunning : ∀ k, (mainLoop s (l.chars ++ ['\n'])).Running k ↔ s.Running k ∨ k = s.children.length := by
    intro k
    rw [hmain]
    exact Shell.running_fork
  have hctl : (mainLoop s (l.chars ++ ['\n'])).ctl = .wait := by rw [hmain]
  constructor
  · -- `wait(NULL)` may return for the child that was running before
    rintro ⟨hall, -⟩ i hi
    have hrun := (hrunning i).mpr (Or.inl hi)
    obtain ⟨-, hended⟩ := hall _ ⟨_, Run.nil.snoc (fun _ => Act.noConfusion) (.wait hctl hrun), rfl⟩
    refine hended (by rw [hmode]; exact Mode.noConfusion) s.children.length le_rfl ?_
    exact Shell.running_reap.mpr ⟨(hrunning _).mpr (Or.inr rfl), hi.lt.ne'⟩
  · intro hnone
    constructor
    · rintro t ⟨tr, hr, ht⟩
      have hinv : Alone s.jobs l.exec t := by
        refine hr.inv ⟨?_, ?_⟩ fun _ _ _ _ hx ha hst => hx.step ha hst
        · rw [hmain]
          exact s.jobs_fork _
        · rw [hctl]
          intro i hi
          rcases (hrunning i).mp hi with hi | rfl
          · exact absurd hi (hnone i)
          · exact s.length_jobs.symm
      obtain ⟨hjobs, hinv⟩ := hinv
      rw [ht] at hinv
      refine ⟨?_, fun _ i _ => hinv i⟩
      rw [hjobs, Line.wanted, hmode]
    · have hrun := (hrunning s.children.length).mpr (Or.inr rfl)
      refine ⟨_, ⟨_, Run.nil.snoc (fun _ => Act.noConfusion) (.wait hctl hrun), rfl⟩, fun hb => ?_⟩
      exact absurd (hmode.symm.trans hb) Mode.noConfusion

/-- **Dispatch.**  A line whose first word is none of `quit` and `exit` does what it should iff it meets the condition. -/
theorem dispatch_iff : Promise l s ↔ Served l s := by
  unfold Served
  by_cases h : (chr l.word 0).isDigit
  · exact iff_of_true (promise_digit hw hquit hexit s h) (Or.inl h)
  rw [or_iff_right h]
  by_cases hBG : chr l.word 0 = 'B' ∧ chr l.word 1 = 'G'
  · exact iff_of_true (promise_background hw hquit hexit s h hBG.1 hBG.2) (Or.inl hBG)
  rw [or_iff_right hBG]
  by_cases hor : chr l.word 0 = 'B' ∨ chr l.word 1 = 'G'
  · refine iff_of_false (not_promise_background hw hquit hexit s h hor hBG) fun hs => ?_
    exact hor.elim hs.1 hs.2.1
  · rw [promise_foreground_iff hw hquit hexit s h hor]
    rw [not_or] at hor
    rw [and_iff_right hor.1, and_iff_right hor.2]

end Lines

/-- The shell before its first line. -/
def freshShell : Shell := ⟨List.replicate 82 '\x00', [], .prompt⟩

/-- `3ls -l`. -/
def threeLs : Line := ⟨['3', 'l', 's', ' ', '-', 'l'], by decide, by decide, by decide⟩

/-- `Bash`. -/
def bash : Line := ⟨['B', 'a', 's', 'h'], by decide, by decide, by decide⟩

theorem dispatch_threeLs : Promise threeLs freshShell :=
  (dispatch_iff (by decide) (by decide) (by decide) freshShell).mpr (Or.inl (by decide))

/-- The shell runs `sh` in the background. -/
theorem dispatch_bash : ¬ Promise bash freshShell :=
  not_promise_background (by decide) (by decide) (by decide) freshShell (by decide) (Or.inl (by decide)) (by decide)

end OsLabs.SimpleShell
