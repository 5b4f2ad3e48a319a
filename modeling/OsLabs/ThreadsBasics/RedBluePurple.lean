import OsLabs.Lts
import Mathlib.Data.List.Basic
import Mathlib.Logic.Function.Basic

/-!
# OsLabs.ThreadsBasics.RedBluePurple — two output channels and their locks

`red_blue_purple.c`: each thread runs any sequence of commands.  A command is a list of operations on the two mutexes and of lines that it
prints; the threads interleave at every operation.  What a thread holds and on which channel it has printed a start without its end is
read off the rest of its program.

* `redCommand`, `blueCommand`, `purpleCommand`, `whiteCommand`: the commands; `State.step`: one operation of one thread.
* `Ok`: what the rest of a program keeps to: lines only under the lock of their channel, and red before blue.
* `channels_exclusive`: one thread between start and end, alternating lines, and no deadlock.
-/

namespace OsLabs.ThreadsBasics.RedBluePurple

open Lts

inductive Channel
  | red | blue
deriving DecidableEq

/-- `red_lock` is taken before `blue_lock`. -/
def Channel.rank : Channel → ℕ
  | .red => 0
  | .blue => 1

inductive Edge
  | start | finish
deriving DecidableEq

/-- One operation of a command. -/
inductive Op
  | lock (c : Channel)
  | unlock (c : Channel)
  /-- The line "Start: …" or "End  : …". -/
  | printf (e : Edge) (c : Channel)
  | usleep
deriving DecidableEq

inductive Command
  | red | blue | purple | white

def redCommand : List Op := [.lock .red, .printf .start .red, .usleep, .printf .finish .red, .unlock .red]

def blueCommand : List Op := [.lock .blue, .printf .start .blue, .usleep, .printf .finish .blue, .unlock .blue]

def purpleCommand : List Op :=
  [.lock .red, .lock .blue, .printf .start .blue, .printf .start .red, .usleep, .printf .finish .red, .printf .finish .blue,
    .unlock .blue, .unlock .red]

def whiteCommand : List Op := [.usleep]

def Command.code : Command → List Op
  | .red => redCommand
  | .blue => blueCommand
  | .purple => purpleCommand
  | .white => whiteCommand

/-- What is left of each thread's program, who holds the mutexes, and the output. -/
structure State (τ : Type*) where
  rest : τ → List Op
  holder : Channel → Option τ
  out : List (Edge × Channel)

namespace State

variable {τ : Type*} [DecidableEq τ]

/-- Thread `i` goes on with `k`. -/
def goto (s : State τ) (i : τ) (k : List Op) : State τ := { s with rest := Function.update s.rest i k }

/-- One operation of thread `i`; none when it is blocked or has finished. -/
def step (s : State τ) (i : τ) : Option (State τ) :=
  match s.rest i with
  | [] => none
  | .lock c :: k => if s.holder c = none then some { s.goto i k with holder := Function.update s.holder c (some i) } else none
  | .unlock c :: k => if s.holder c = some i then some { s.goto i k with holder := Function.update s.holder c none } else none
  | .printf e c :: k => some { s.goto i k with out := s.out ++ [(e, c)] }
  | .usleep :: k => some (s.goto i k)

/-- Each thread at the start of its sequence of commands. -/
def initial (prog : τ → List Command) : State τ := ⟨fun i => (prog i).flatMap Command.code, fun _ => none, []⟩

def Reachable (prog : τ → List Command) (s : State τ) : Prop :=
  Reach (fun s i (_ : Unit) t => step s i = some t) always (· = initial prog) s

/-- The thread waits for a mutex that is held. -/
def Blocked (s : State τ) (i : τ) : Prop := ∃ c k, s.rest i = .lock c :: k ∧ s.holder c ≠ none

end State

/-- The next operation on the mutex of `c` gives it back. -/
def holds (c : Channel) : List Op → Bool
  | [] => false
  | .lock d :: k => if d = c then false else holds c k
  | .unlock d :: k => if d = c then true else holds c k
  | .printf _ _ :: k => holds c k
  | .usleep :: k => holds c k

/-- The next line on `c` is an end. -/
def between (c : Channel) : List Op → Bool
  | [] => false
  | .lock _ :: k => between c k
  | .unlock _ :: k => between c k
  | .printf e d :: k => if d = c then decide (e = .finish) else between c k
  | .usleep :: k => between c k

/-- The lines of one channel. -/
def lines (c : Channel) (out : List (Edge × Channel)) : List Edge := (out.filter fun l => l.2 = c).map Prod.fst

/-- Start, end, start, … -/
def alternating (n : ℕ) : List Edge := (List.range n).map fun m => if m % 2 = 0 then .start else .finish

/-- **What a program keeps to.**  A mutex is taken above the others that are held and gives the right to print, starts and ends alternate
under it, and it is given back outside of them. -/
def Ok : List Op → Prop
  | [] => True
  | .lock c :: k => holds c k = true ∧ between c k = false ∧ (∀ d, d ≠ c → holds d k = true → d.rank < c.rank) ∧ Ok k
  | .unlock c :: k => holds c k = false ∧ between c k = false ∧ Ok k
  | .printf e c :: k => holds c k = true ∧ between c k = decide (e = .start) ∧ Ok k
  | .usleep :: k => Ok k

/-- A command before a program that keeps to the rules and holds nothing. -/
theorem ok_append (c : Command) {k : List Op} (h : Ok k) (hh : ∀ d, holds d k = false) (hb : ∀ d, between d k = false) :
    Ok (c.code ++ k) ∧ (∀ d, holds d (c.code ++ k) = false) ∧ ∀ d, between d (c.code ++ k) = false := by
  cases c with
  | red =>
    refine ⟨?_, fun d => ?_, fun d => ?_⟩
    · simp only [Command.code, redCommand, List.cons_append, List.nil_append, Ok, holds, between, hh, hb]
      refine ⟨rfl, rfl, fun d hd => ?_, rfl, rfl, rfl, rfl, trivial, trivial, h⟩
      rw [if_neg hd.symm]
      exact nofun
    · cases d <;> simp [Command.code, redCommand, holds, hh]
    · cases d <;> simp [Command.code, redCommand, between, hb]
  | blue =>
    refine ⟨?_, fun d => ?_, fun d => ?_⟩
    · simp only [Command.code, blueCommand, List.cons_append, List.nil_append, Ok, holds, between, hh, hb]
      refine ⟨rfl, rfl, fun d hd => ?_, rfl, rfl, rfl, rfl, trivial, trivial, h⟩
      rw [if_neg hd.symm]
      exact nofun
    · cases d <;> simp [Command.code, blueCommand, holds, hh]
    · cases d <;> simp [Command.code, blueCommand, between, hb]
  | purple =>
    refine ⟨?_, fun d => ?_, fun d => ?_⟩
    · simp only [Command.code, purpleCommand, List.cons_append, List.nil_append, Ok, holds, between, hh, hb]
      refine ⟨rfl, rfl, fun d hd => ?_, rfl, rfl, fun d hd _ => ?_, rfl, rfl, rfl, rfl, rfl, rfl, rfl, rfl, rfl, trivial, trivial,
        trivial, h⟩
      · cases d with
        | red => exact absurd rfl hd
        | blue => exact nofun
      · cases d with
        | red => exact Nat.zero_lt_one
        | blue => exact absurd rfl hd
    · cases d <;> simp [Command.code, purpleCommand, holds]
    · cases d <;> simp [Command.code, purpleCommand, between]
  | white => exact ⟨h, hh, hb⟩

/-- Every sequence of commands keeps to the rules. -/
theorem ok_flatMap (l : List Command) :
    Ok (l.flatMap Command.code) ∧ (∀ d, holds d (l.flatMap Command.code) = false) ∧ ∀ d, between d (l.flatMap Command.code) = false := by
  induction l with
  | nil => exact ⟨trivial, fun _ => rfl, fun _ => rfl⟩
  | cons c l ih =>
    obtain ⟨h, hh, hb⟩ := ih
    exact ok_append c h hh hb

/-- Between start and end the mutex is held. -/
theorem Ok.holds_of_between {c : Channel} : ∀ {k : List Op}, Ok k → between c k = true → holds c k = true
  | [], _, hb => by cases hb
  | .lock d :: k, h, hb => by
    obtain ⟨-, hd, -, hk⟩ := h
    have hne : d ≠ c := by
      rintro rfl
      rw [between, hd] at hb
      cases hb
    rw [holds, if_neg hne]
    exact hk.holds_of_between hb
  | .unlock d :: k, h, hb => by
    rw [holds]
    split_ifs
    · rfl
    · exact h.2.2.holds_of_between hb
  | .printf e d :: k, h, hb => by
    rw [holds]
    by_cases hd : d = c
    · exact hd ▸ h.1
    · rw [between, if_neg hd] at hb
      exact h.2.2.holds_of_between hb
  | .usleep :: k, h, hb => Ok.holds_of_between (k := k) h hb

theorem alternating_succ (n : ℕ) : alternating (n + 1) = alternating n ++ [if n % 2 = 0 then .start else .finish] := by
  simp [alternating, List.range_succ]

theorem lines_concat (c : Channel) (out : List (Edge × Channel)) (e : Edge) (d : Channel) :
    lines c (out ++ [(e, d)]) = lines c out ++ if d = c then [e] else [] := by
  unfold lines
  rw [List.filter_append, List.map_append]
  by_cases hd : d = c
  · simp [hd]
  · simp [hd]

section

variable {τ : Type*} {s t : State τ} {i j : τ} {c d : Channel}

/-- Every thread keeps to the rules, the mutexes are held by those who will give them back, and the lines of a channel alternate; their
number is odd exactly while a thread is between start and end. -/
structure Inv (s : State τ) : Prop where
  ok : ∀ i, Ok (s.rest i)
  holder : ∀ c i, s.holder c = some i ↔ holds c (s.rest i) = true
  output : ∀ c, ∃ n, lines c s.out = alternating n ∧ (n % 2 = 1 ↔ ∃ i, between c (s.rest i) = true)

theorem Inv.exclusive (h : Inv s) (hi : between c (s.rest i) = true) (hj : between c (s.rest j) = true) : i = j := by
  have h1 := (h.holder c i).mpr ((h.ok i).holds_of_between hi)
  have h2 := (h.holder c j).mpr ((h.ok j).holds_of_between hj)
  exact Option.some.inj (h1.symm.trans h2)

/-- Who waits for a mutex holds only those below it. -/
theorem Inv.rank_lt {k : List Op} (h : Inv s) (hr : s.rest i = .lock c :: k) (hd : s.holder d = some i) : d.rank < c.rank := by
  have hok := h.ok i
  rw [hr] at hok
  obtain ⟨-, -, hrank, -⟩ := hok
  have hh := (h.holder d i).mp hd
  rw [hr, holds] at hh
  split_ifs at hh with hcd
  exact hrank d (Ne.symm hcd) hh

/-- **No deadlock.**  The holder of the mutex that somebody waits for waits for a higher one. -/
theorem Inv.not_blocked (h : Inv s) (hall : ∀ i, s.rest i ≠ [] → s.Blocked i) : ∀ i, s.rest i = [] := by
  have hup : ∀ i c k, s.rest i = .lock c :: k → s.holder c ≠ none → ∃ j d k', s.rest j = .lock d :: k' ∧ s.holder d ≠ none ∧ c.rank < d.rank := by
    intro i c k hr hne
    obtain ⟨j, hj⟩ := Option.ne_none_iff_exists'.mp hne
    have hnil : s.rest j ≠ [] := by
      intro hnil
      have hh := (h.holder c j).mp hj
      rw [hnil] at hh
      cases hh
    obtain ⟨d, k', hr', hne'⟩ := hall j hnil
    exact ⟨j, d, k', hr', hne', h.rank_lt hr' hj⟩
  intro i
  by_contra hnil
  obtain ⟨c, k, hr, hne⟩ := hall i hnil
  -- two steps up from any channel there is none
  obtain ⟨j, d, k', hr', hne', hlt⟩ := hup i c k hr hne
  obtain ⟨-, e, -, -, -, hlt'⟩ := hup j d k' hr' hne'
  have htop : e.rank ≤ 1 := by cases e <;> decide
  omega

theorem initial_inv (prog : τ → List Command) : Inv (State.initial prog) := by
  refine ⟨fun i => (ok_flatMap (prog i)).1, fun c i => ?_, fun c => ⟨0, rfl, ?_⟩⟩
  · show none = some i ↔ holds c ((prog i).flatMap Command.code) = true
    rw [(ok_flatMap (prog i)).2.1 c]
    exact ⟨nofun, nofun⟩
  · constructor
    · exact nofun
    · rintro ⟨i, hi⟩
      have hb := (ok_flatMap (prog i)).2.2 c
      exact absurd hi (by rw [State.initial, hb]; exact nofun)

variable [DecidableEq τ]

theorem goto_rest (s : State τ) (i j : τ) (k : List Op) : (s.goto i k).rest j = if j = i then k else s.rest j := by
  simp [State.goto, Function.update_apply]

/-- One thread goes on, and no line is printed. -/
theorem Inv.silent {k : List Op} (h : Inv s) (hrest : t.rest = (s.goto i k).rest) (hout : t.out = s.out) (hok : Ok k)
    (hb : ∀ c, between c k = between c (s.rest i)) (hh : ∀ c j, t.holder c = some j ↔ holds c ((s.goto i k).rest j) = true) : Inv t := by
  refine ⟨fun j => ?_, fun c j => ?_, fun c => ?_⟩
  · rw [hrest, goto_rest]
    split_ifs
    · exact hok
    · exact h.ok j
  · rw [hrest]
    exact hh c j
  · obtain ⟨n, hn, hodd⟩ := h.output c
    refine ⟨n, by rw [hout]; exact hn, hodd.trans (exists_congr fun j => ?_)⟩
    rw [hrest, goto_rest]
    split_ifs with hj
    · rw [hj, hb]
    · rfl

/-- A line is printed under the mutex of its channel. -/
theorem Inv.print {k : List Op} {e : Edge} (h : Inv s) (hr : s.rest i = .printf e c :: k) :
    Inv { s.goto i k with out := s.out ++ [(e, c)] } := by
  have hok := h.ok i
  rw [hr] at hok
  obtain ⟨hhold, hbet, hk⟩ := hok
  have hholds : ∀ d, holds d (s.rest i) = holds d k := fun d => by rw [hr, holds]
  have hother : ∀ d, d ≠ c → between d (s.rest i) = between d k := fun d hd => by rw [hr, between, if_neg hd.symm]
  have hself : between c (s.rest i) = decide (e = .finish) := by rw [hr, between, if_pos rfl]
  refine ⟨fun j => ?_, fun d j => ?_, fun d => ?_⟩
  · show Ok ((s.goto i k).rest j)
    rw [goto_rest]
    split_ifs
    · exact hk
    · exact h.ok j
  · show s.holder d = some j ↔ holds d ((s.goto i k).rest j) = true
    rw [h.holder, goto_rest]
    split_ifs with hj
    · rw [hj, hholds]
    · rfl
  · obtain ⟨n, hn, hodd⟩ := h.output d
    show ∃ n, lines d (s.out ++ [(e, c)]) = alternating n ∧ (n % 2 = 1 ↔ ∃ j, between d ((s.goto i k).rest j) = true)
    rw [lines_concat, hn]
    by_cases hd : c = d
    swap
    · -- the other channel sees nothing
      rw [if_neg hd, List.append_nil]
      refine ⟨n, rfl, hodd.trans (exists_congr fun j => ?_)⟩
      rw [goto_rest]
      split_ifs with hj
      · rw [hj, hother d (Ne.symm hd)]
      · rfl
    · subst hd
      rw [if_pos rfl]
      -- whoever is between start and end on this channel is the thread that prints
      have hown : ∀ j, between c (s.rest j) = true → j = i := by
        intro j hj
        have h1 := (h.holder c j).mpr ((h.ok j).holds_of_between hj)
        have h2 := (h.holder c i).mpr ((hholds c).trans hhold)
        exact Option.some.inj (h1.symm.trans h2)
      have hexists : (∃ j, between c (s.rest j) = true) ↔ e = .finish := by
        constructor
        · rintro ⟨j, hj⟩
          rw [hown j hj, hself] at hj
          exact of_decide_eq_true hj
        · intro he
          exact ⟨i, hself.trans (decide_eq_true he)⟩
      have hexists' : (∃ j, between c ((s.goto i k).rest j) = true) ↔ e = .start := by
        constructor
        · rintro ⟨j, hj⟩
          rw [goto_rest] at hj
          split_ifs at hj with hji
          · rw [hbet] at hj
            exact of_decide_eq_true hj
          · exact absurd (hown j hj) hji
        · intro he
          refine ⟨i, ?_⟩
          rw [goto_rest, if_pos rfl, hbet]
          exact decide_eq_true he
      rw [hexists] at hodd
      refine ⟨n + 1, ?_, ?_⟩
      · rw [alternating_succ]
        cases e with
        | start =>
          have : ¬ n % 2 = 1 := fun hn1 => by cases hodd.mp hn1
          rw [if_pos (by omega)]
        | finish =>
          have := hodd.mpr rfl
          rw [if_neg (by omega)]
      · rw [hexists']
        cases e with
        | start =>
          have : ¬ n % 2 = 1 := fun hn1 => by cases hodd.mp hn1
          exact ⟨fun _ => rfl, fun _ => by omega⟩
        | finish =>
          have := hodd.mpr rfl
          exact ⟨fun hn1 => by omega, nofun⟩

/-- **Step lemma.** -/
theorem Inv.step (h : Inv s) (hs : s.step i = some t) : Inv t := by
  have hok := h.ok i
  unfold State.step at hs
  split at hs
  · cases hs
  · rename_i c k hr
    split_ifs at hs with hfree
    obtain rfl := Option.some.inj hs
    rw [hr] at hok
    obtain ⟨hc, hb, -, hk⟩ := hok
    refine h.silent rfl rfl hk (fun d => ?_) fun d j => ?_
    · rw [hr, between]
    · show Function.update s.holder c (some i) d = some j ↔ _
      rw [Function.update_apply, goto_rest]
      split_ifs with hd hj hj
      · rw [hd, hj]
        exact ⟨fun _ => hc, fun _ => rfl⟩
      · -- the mutex was free, so nobody else was to give it back
        rw [hd, ← h.holder c j, hfree]
        exact ⟨fun heq => absurd (Option.some.inj heq).symm hj, nofun⟩
      · rw [h.holder, hj, hr, holds, if_neg (Ne.symm hd)]
      · exact h.holder d j
  · rename_i c k hr
    split_ifs at hs with hmine
    obtain rfl := Option.some.inj hs
    rw [hr] at hok
    obtain ⟨hc, hb, hk⟩ := hok
    refine h.silent rfl rfl hk (fun d => ?_) fun d j => ?_
    · rw [hr, between]
    · show Function.update s.holder c none d = some j ↔ _
      rw [Function.update_apply, goto_rest]
      split_ifs with hd hj hj
      · rw [hd, hc]
        exact ⟨nofun, nofun⟩
      · rw [hd, ← h.holder c j, hmine]
        exact ⟨nofun, fun heq => absurd (Option.some.inj heq).symm hj⟩
      · rw [h.holder, hj, hr, holds, if_neg (Ne.symm hd)]
      · exact h.holder d j
  · rename_i e c k hr
    obtain rfl := Option.some.inj hs
    exact h.print hr
  · rename_i k hr
    obtain rfl := Option.some.inj hs
    rw [hr] at hok
    refine h.silent rfl rfl hok (fun d => ?_) fun d j => ?_
    · rw [hr, between]
    · show s.holder d = some j ↔ _
      rw [h.holder, goto_rest]
      split_ifs with hj
      · rw [hj, hr, holds]
      · rfl

/-- **Run lemma.** -/
theorem reachable_inv {prog : τ → List Command} (h : State.Reachable prog s) : Inv s := by
  refine Reach.inv h ?_ ?_
  · rintro _ rfl
    exact initial_inv prog
  · intro s i _ t hI _ hs
    exact hI.step hs

/-- **The rule about channels.**  Whatever commands the threads run, in every reachable state at most one thread is between the start and
the end of a channel, the lines of a channel are start, end, start, …, and it never happens that somebody has not finished while everybody
who has not finished waits for a mutex. -/
theorem channels_exclusive (prog : τ → List Command) (s : State τ) (h : State.Reachable prog s) :
    (∀ c i j, between c (s.rest i) = true → between c (s.rest j) = true → i = j) ∧
      (∀ c, ∃ n, lines c s.out = alternating n) ∧ ¬ ((∃ i, s.rest i ≠ []) ∧ ∀ i, s.rest i ≠ [] → s.Blocked i) := by
  have hI := reachable_inv h
  refine ⟨fun c i j => hI.exclusive, fun c => ?_, ?_⟩
  · obtain ⟨n, hn, -⟩ := hI.output c
    exact ⟨n, hn⟩
  · rintro ⟨⟨i, hi⟩, hall⟩
    exact hi (hI.not_blocked hall i)

/-- A purple command waits for the red one. -/
theorem channels_exclusive_run : ∃ s : State Bool, State.Reachable (fun b => if b then [.purple, .blue] else [.red]) s ∧
    s.Blocked true ∧ between .red (s.rest false) = true ∧ (∀ c, ∃ n, lines c s.out = alternating n) ∧
    ¬ ((∃ i, s.rest i ≠ []) ∧ ∀ i, s.rest i ≠ [] → s.Blocked i) := by
  have h0 : State.Reachable (fun b : Bool => if b then [.purple, .blue] else [.red]) _ := Reach.start rfl
  have h1 := h0.step (a := false) (o := ()) trivial (by rfl)
  have h2 := h1.step (a := false) (o := ()) trivial (by rfl)
  obtain ⟨-, hlines, hdead⟩ := channels_exclusive _ _ h2
  exact ⟨_, h2, ⟨.red, _, rfl, nofun⟩, rfl, hlines, hdead⟩

end

end OsLabs.ThreadsBasics.RedBluePurple
