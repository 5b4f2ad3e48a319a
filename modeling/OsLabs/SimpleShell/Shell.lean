import Mathlib.Data.List.GetD
import OsLabs.CText
import OsLabs.Lts

/-!
# OsLabs.SimpleShell.Shell — the command loop (simpleshell/simpleshell.c)

`main` reads a line, cuts it at the first space and passes the two halves to `help`, which looks at the first two characters.  A digit asks
for as many children, a `B` in front or a `G` behind it for a child that runs the command while the shell goes on, and everything else is a
child that the shell waits for.

* `parse`, `help`: the program up to the calls of `fork` and `execlp`; strings are offsets into `command`.
* `Step`: the shell and its children.  Whatever child ends, the handler of `SIGCHLD` takes its status, or a `wait(NULL)` that is under way.
* `parse_line`: `help` gets the first word and the text behind the first space.
-/

namespace OsLabs.SimpleShell

open CText Lts

/-! ## Memory -/

/-- The characters of `command`. -/
abbrev Memory := List Char

/-- The string at an address. -/
def str (m : Memory) (p : ℕ) : List Char := cstr (m.drop p)

/-- The character at an address. -/
def chr (m : Memory) (p : ℕ) : Char := m.getD p '\x00'

/-- `fgets(command, 82, stdin)`, with the rest of the input. -/
def readCommand (command : Memory) (stdin : List Char) : Memory × List Char :=
  let text := (fgets 81 stdin).1
  (text ++ '\x00' :: command.drop (text.length + 1), (fgets 81 stdin).2)

/-- The loop that looks for the end of the first word. -/
def len1 : Memory → ℕ
  | [] => 0
  | c :: m => if c = '\x00' ∨ c = ' ' then 0 else len1 m + 1

/-! ## The program -/

/-- `command` after the parser, and `parsed_command[1]`; `parsed_command[0]` is `command` itself. -/
structure Parsed where
  command : Memory
  arg : Option ℕ
  deriving DecidableEq, Repr

def parse (command : Memory) : Parsed :=
  let command := command.set ((str command 0).length - 1) '\x00'
  let len := len1 command
  if len = (str command 0).length then ⟨command, none⟩ else ⟨command.set len '\x00', some (len + 1)⟩

/-- A call of `execlp`. -/
structure Exec where
  file : List Char
  argv : List (List Char)
  deriving DecidableEq, Repr

/-- `execlp(cmd, cmd, arg, NULL)`. -/
def execlp (m : Memory) (cmd : ℕ) (arg : Option ℕ) : Exec := ⟨str m cmd, str m cmd :: (arg.map (str m)).toList⟩

/-- What a child of the shell does: it calls `execlp`, or it forks a child that does so, waits for that one and reports. -/
inductive Job
  | program (e : Exec)
  | watcher (e : Exec)
  deriving DecidableEq, Repr

structure Child where
  job : Job
  running : Bool
  deriving DecidableEq, Repr

/-- Where the shell is. -/
inductive Control
  | prompt
  /-- `left` children are to be forked; `rcs` are the others. -/
  | forking (e : Exec) (left : ℕ) (rcs : List ℕ)
  /-- The loop around `waitpid(rcs[k], &status, 0)`. -/
  | waiting (rcs : List ℕ)
  /-- Before or in `wait(NULL)`. -/
  | wait
  | exited
  deriving DecidableEq, Repr

/-- The shell, with the children that it has forked so far.  A process number is a place in this list. -/
structure Shell where
  command : Memory
  children : List Child
  ctl : Control
  deriving DecidableEq, Repr

namespace Shell

variable (s : Shell)

def fork (j : Job) : Shell := { s with children := s.children ++ [⟨j, true⟩] }

/-- Child `i` has ended, and its status is taken. -/
def reap (i : ℕ) : Shell := { s with children := s.children.modify i fun c => { c with running := false } }

def Running (i : ℕ) : Prop := ∃ j, s.children[i]? = some ⟨j, true⟩

def goto (c : Control) : Shell := { s with ctl := c }

def jobs : List Job := s.children.map Child.job

end Shell

/-- `help`, up to the first call that waits. -/
def help (s : Shell) (m : Memory) (cmd : ℕ) (arg : Option ℕ) : Shell :=
  if (chr m cmd).isDigit then s.goto (.forking (execlp m (cmd + 1) arg) ((chr m cmd).toNat - '0'.toNat) [])
  else if chr m cmd = 'B' ∨ chr m (cmd + 1) = 'G' then (s.fork (.watcher (execlp m (cmd + 2) arg))).goto .prompt
  else (s.fork (.program (execlp m cmd arg))).goto .wait

/-- One round of the loop in `main`, up to the first call that waits. -/
def mainLoop (s : Shell) (stdin : List Char) : Shell :=
  let p := parse (readCommand s.command stdin).1
  let s := { s with command := p.command }
  if str p.command 0 = ['q', 'u', 'i', 't'] ∨ str p.command 0 = ['e', 'x', 'i', 't'] then s.goto .exited
  else help s p.command 0 p.arg

/-- A line that somebody types. -/
structure Line where
  chars : List Char
  length_le : chars.length ≤ 80
  no_newline : '\n' ∉ chars
  no_null : '\x00' ∉ chars

inductive Act
  | line (l : Line)
  | fork
  | forked
  | waitpid
  | waited
  | handler (i : ℕ)
  | wait (i : ℕ)
  | echild

/-- The shell and its children, where no `fork` fails.  A child that ends while the shell does something else is taken by
`handle_sigchld`. -/
inductive Step : Shell → Act → Unit → Shell → Prop
  | line {s l} (h : s.ctl = .prompt) : Step s (.line l) () (mainLoop s (l.chars ++ ['\n']))
  | fork {s e n rcs} (h : s.ctl = .forking e (n + 1) rcs) :
      Step s .fork () ((s.fork (.program e)).goto (.forking e n (rcs ++ [s.children.length])))
  | forked {s e rcs} (h : s.ctl = .forking e 0 rcs) : Step s .forked () (s.goto (.waiting rcs))
  | waitpid {s p rcs} (h : s.ctl = .waiting (p :: rcs)) (hp : ¬ s.Running p) : Step s .waitpid () (s.goto (.waiting rcs))
  | waited {s} (h : s.ctl = .waiting []) : Step s .waited () (s.goto .prompt)
  | handler {s i} (h : s.Running i) : Step s (.handler i) () (s.reap i)
  | wait {s i} (h : s.ctl = .wait) (hi : s.Running i) : Step s (.wait i) () ((s.reap i).goto .prompt)
  | echild {s} (h : s.ctl = .wait) (hnone : ∀ i, ¬ s.Running i) : Step s .echild () (s.goto .prompt)

/-! ## The parser -/

namespace Line

variable (l : Line)

/-- The first word. -/
def word : List Char := l.chars.takeWhile fun c => c ≠ ' '

/-- The text behind the first space. -/
def argument : Option (List Char) := if ' ' ∈ l.chars then some (l.chars.dropWhile fun c => c ≠ ' ').tail else none

end Line

theorem cstr_append_null {x : List Char} (h : '\x00' ∉ x) (y : List Char) : cstr (x ++ '\x00' :: y) = x := by
  unfold cstr
  have hx : ∀ c ∈ x, decide (c ≠ '\x00') = true := by
    intro c hc
    rw [decide_eq_true_eq]
    rintro rfl
    exact h hc
  rw [List.takeWhile_append_of_pos hx, List.takeWhile_cons_of_neg (by decide), List.append_nil]

theorem fgets_line : ∀ {n : ℕ} {cs : List Char}, cs.length < n → '\n' ∉ cs → (fgets n (cs ++ ['\n'])).1 = cs ++ ['\n']
  | _ + 1, [], _, _ => by
    rw [List.nil_append, fgets, if_pos rfl]
  | n + 1, c :: cs, hn, hc => by
    rw [List.mem_cons, not_or] at hc
    rw [List.cons_append, fgets, if_neg (Ne.symm hc.1)]
    dsimp only
    rw [fgets_line (Nat.lt_of_succ_lt_succ hn) hc.2]

theorem len1_append {w : List Char} {c : Char} (hw : '\x00' ∉ w ∧ ' ' ∉ w) (hc : c = '\x00' ∨ c = ' ') (m : Memory) :
    len1 (w ++ c :: m) = w.length := by
  induction w with
  | nil => exact if_pos hc
  | cons d w ih =>
    simp only [List.mem_cons, not_or] at hw
    rw [List.cons_append, len1, if_neg (by simp only [not_or]; exact ⟨Ne.symm hw.1.1, Ne.symm hw.2.1⟩), ih ⟨hw.1.2, hw.2.2⟩]
    rfl

/-- A line is one word, or a word, a space and the rest. -/
theorem Line.split (l : Line) : (l.chars = l.word ∧ l.argument = none) ∨ ∃ a, l.chars = l.word ++ ' ' :: a ∧ l.argument = some a := by
  by_cases h : ' ' ∈ l.chars
  · right
    have hsplit := List.takeWhile_append_dropWhile (p := fun c => decide (c ≠ ' ')) (l := l.chars)
    obtain ⟨c, a, ha⟩ : ∃ c a, l.chars.dropWhile (fun c => c ≠ ' ') = c :: a := by
      refine List.exists_cons_of_ne_nil fun hnil => ?_
      exact of_decide_eq_true (List.dropWhile_eq_nil_iff.mp hnil _ h) rfl
    have hc : c = ' ' := by
      have hneg := List.head_dropWhile_not (fun c => decide (c ≠ ' ')) (l := l.chars) (by rw [ha]; exact List.cons_ne_nil _ _)
      simpa only [ha, List.head_cons, decide_eq_false_iff_not, not_not] using hneg
    subst hc
    rw [ha] at hsplit
    exact ⟨a, hsplit.symm, by rw [argument, if_pos h, ha, List.tail_cons]⟩
  · left
    refine ⟨(List.takeWhile_eq_self_iff.mpr fun c hc => ?_).symm, if_neg h⟩
    rw [decide_eq_true_eq]
    rintro rfl
    exact h hc

theorem Line.word_no_null (l : Line) : '\x00' ∉ l.word := fun h => l.no_null ((List.takeWhile_prefix _).subset h)

theorem Line.word_no_space (l : Line) : ' ' ∉ l.word := fun h =>
  absurd (List.mem_takeWhile_imp h) (by decide)

/-- **The parser** puts a null byte behind the first word, and finds the text behind the first space. -/
theorem parse_line (l : Line) (old : Memory) : ∃ rest, (parse (readCommand old (l.chars ++ ['\n'])).1).command = l.word ++ '\x00' :: rest ∧
    (parse (readCommand old (l.chars ++ ['\n'])).1).arg.map (str (parse (readCommand old (l.chars ++ ['\n'])).1).command) = l.argument := by
  have htext : (fgets 81 (l.chars ++ ['\n'])).1 = l.chars ++ ['\n'] := fgets_line (Nat.lt_succ_of_le l.length_le) l.no_newline
  obtain ⟨stale, hread⟩ : ∃ stale, (readCommand old (l.chars ++ ['\n'])).1 = l.chars ++ '\n' :: '\x00' :: stale :=
    ⟨old.drop ((l.chars ++ ['\n']).length + 1), by rw [readCommand, htext, List.append_assoc]; rfl⟩
  rw [hread]
  -- the newline goes
  have hcut : (l.chars ++ '\n' :: '\x00' :: stale).set ((str (l.chars ++ '\n' :: '\x00' :: stale) 0).length - 1) '\x00' =
      l.chars ++ '\x00' :: '\x00' :: stale := by
    have hnull : '\x00' ∉ l.chars ++ ['\n'] := by
      rw [List.mem_append, not_or]
      exact ⟨l.no_null, by decide⟩
    have hstr : str (l.chars ++ '\n' :: '\x00' :: stale) 0 = l.chars ++ ['\n'] := by
      rw [str, List.drop_zero, List.append_cons]
      exact cstr_append_null hnull stale
    rw [hstr, List.length_append, List.length_singleton, Nat.add_sub_cancel, List.set_append_right _ _ le_rfl, Nat.sub_self]
    rfl
  have hlen : (str (l.chars ++ '\x00' :: '\x00' :: stale) 0).length = l.chars.length := by
    rw [str, List.drop_zero, cstr_append_null l.no_null]
  unfold parse
  dsimp only
  rw [hcut, hlen]
  rcases l.split with ⟨hc, ha⟩ | ⟨a, hc, ha⟩
  · have hword : len1 (l.chars ++ '\x00' :: '\x00' :: stale) = l.chars.length :=
      len1_append ⟨l.no_null, hc ▸ l.word_no_space⟩ (Or.inl rfl) _
    rw [if_pos hword, ha]
    exact ⟨'\x00' :: stale, by rw [← hc], rfl⟩
  · have hnull : '\x00' ∉ a := fun h => l.no_null (hc ▸ List.mem_append_right _ (List.mem_cons_of_mem _ h))
    have hword : len1 (l.chars ++ '\x00' :: '\x00' :: stale) = l.word.length := by
      rw [hc, List.append_assoc]
      exact len1_append ⟨l.word_no_null, l.word_no_space⟩ (Or.inr rfl) _
    have hne : ¬ l.word.length = l.chars.length := by
      rw [hc, List.length_append, List.length_cons]
      omega
    have hset : (l.chars ++ '\x00' :: '\x00' :: stale).set l.word.length '\x00' = l.word ++ '\x00' :: (a ++ '\x00' :: '\x00' :: stale) := by
      rw [hc, List.append_assoc, List.set_append_right _ _ le_rfl, Nat.sub_self]
      rfl
    rw [hword, if_neg hne, hset, ha]
    refine ⟨_, rfl, ?_⟩
    have harg : str (l.word ++ '\x00' :: (a ++ '\x00' :: '\x00' :: stale)) (l.word.length + 1) = a := by
      have hdrop : (l.word ++ '\x00' :: (a ++ '\x00' :: '\x00' :: stale)).drop (l.word.length + 1) = a ++ '\x00' :: '\x00' :: stale := by
        rw [List.append_cons]
        exact List.drop_left' (by rw [List.length_append, List.length_singleton])
      rw [str, hdrop, cstr_append_null hnull]
    rw [Option.map_some, harg]

end OsLabs.SimpleShell
