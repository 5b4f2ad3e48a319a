import OsLabs.Monitor

/-!
# OsLabs.SampleExam2.Game — two teams and a referee

`game.c`: the players arrive and wait for the whistle, which the referee blows when all have arrived.  After the game the away players
leave, and the home players wait for the interview of their star player, the one with `tid` 0.

The threads are `Option ρ`: the players `some r`, each with its team, and the referee `none`.  `NUM_PLAYERS` is the number of the players.

* `home_players`, `away_players`, `referee`: the three functions; the part up to the whistle, which the first two share, is `gate`.
* `Inv`: who is where, and who sleeps has somebody to wake it.
* `game_rules`.
-/

namespace OsLabs.SampleExam2.Game

open Lts Monitor

structure Shared where
  interview_over : ℤ
  num_players_arrived : ℤ
  whistle_blown : ℤ

inductive Cond
  | player_wait | referee_wait | interview
deriving DecidableEq

inductive GateLoc
  | start | arrive | signal | test | sleep | play
deriving DecidableEq

inductive HomeLoc
  | gate (g : GateLoc)
  | playing | interviewing | interviewOver | announce | waiting | test | sleep | leave | done
deriving DecidableEq

inductive AwayLoc
  | gate (g : GateLoc)
  | playing | done
deriving DecidableEq

inductive RefereeLoc
  | start | test | sleep | blow | announce | leave | playing | done
deriving DecidableEq

inductive Loc
  | home (tid : ℕ) (l : HomeLoc)
  | away (l : AwayLoc)
  | referee (l : RefereeLoc)
deriving DecidableEq

/-- What a player is started as. -/
inductive Team
  | home (tid : ℕ)
  | away
deriving DecidableEq

def Team.gate : Team → GateLoc → Loc
  | .home tid, g => .home tid (.gate g)
  | .away, g => .away (.gate g)

/-- On the field, behind the gate. -/
def Team.field : Team → Loc
  | .home tid => .home tid .playing
  | .away => .away .playing

/-- A player up to the whistle; `n` is `NUM_PLAYERS`. -/
def gate (n : ℤ) (t : Team) : GateLoc → Instr Shared Cond Loc
  | .start => .lock (t.gate .arrive)
  | .arrive => .run fun x =>
    ({ x with num_players_arrived := x.num_players_arrived + 1 }, t.gate (if x.num_players_arrived + 1 = n then .signal else .test))
  | .signal => .signal .referee_wait (t.gate .test)
  | .test => .run fun x => (x, t.gate (if x.whistle_blown = 0 then .sleep else .play))
  | .sleep => .wait .player_wait (t.gate .test)
  | .play => .unlock t.field

def home_players (n : ℤ) (tid : ℕ) : HomeLoc → Instr Shared Cond Loc
  | .gate g => gate n (.home tid) g
  | .playing => .run fun x => (x, .home tid (if tid = 0 then .interviewing else .waiting))
  | .interviewing => .lock (.home tid .interviewOver)
  | .interviewOver => .run fun x => ({ x with interview_over := 1 }, .home tid .announce)
  | .announce => .broadcast .interview (.home tid .leave)
  | .waiting => .lock (.home tid .test)
  | .test => .run fun x => (x, .home tid (if x.interview_over = 0 then .sleep else .leave))
  | .sleep => .wait .interview (.home tid .test)
  | .leave => .unlock (.home tid .done)
  | .done => .halt

def away_players (n : ℤ) : AwayLoc → Instr Shared Cond Loc
  | .gate g => gate n .away g
  | .playing => .run fun x => (x, .away .done)
  | .done => .halt

def referee (n : ℤ) : RefereeLoc → Instr Shared Cond Loc
  | .start => .lock (.referee .test)
  | .test => .run fun x => (x, .referee (if x.num_players_arrived < n then .sleep else .blow))
  | .sleep => .wait .referee_wait (.referee .test)
  | .blow => .run fun x => ({ x with whistle_blown := 1 }, .referee .announce)
  | .announce => .broadcast .player_wait (.referee .leave)
  | .leave => .unlock (.referee .playing)
  | .playing => .run fun x => (x, .referee .done)
  | .done => .halt

def body (n : ℤ) : Loc → Instr Shared Cond Loc
  | .home tid l => home_players n tid l
  | .away l => away_players n l
  | .referee l => referee n l

def game (ρ : Type) [Fintype ρ] (_ : Option ρ) : Loc → Instr Shared Cond Loc := body (Fintype.card ρ)

def startLoc {ρ : Type} (team : ρ → Team) : Option ρ → Loc
  | none => .referee .start
  | some r => (team r).gate .start

def start : Shared := ⟨0, 0, 0⟩

abbrev State (ρ : Type) := St (Option ρ) Shared Cond Loc

/-- The team of the thread that is there. -/
def Loc.team : Loc → Option Team
  | .home tid _ => some (.home tid)
  | .away _ => some .away
  | .referee _ => none

def GateLoc.arrived : GateLoc → Bool
  | .start | .arrive => false
  | _ => true

/-- Counted in `num_players_arrived`. -/
def arrived : Loc → Bool
  | .home _ (.gate g) => g.arrived
  | .home _ _ => true
  | .away (.gate g) => g.arrived
  | .away _ => true
  | .referee _ => false

/-- Behind the loop that waits for the whistle. -/
def started : Loc → Bool
  | .home _ (.gate g) => g = .play
  | .home _ _ => true
  | .away (.gate g) => g = .play
  | .away _ => true
  | .referee _ => false

/-- The star player has given its interview. -/
def HomeLoc.interviewed : HomeLoc → Bool
  | .announce | .leave | .done => true
  | _ => false

/-- A home player goes off the field. -/
def HomeLoc.leaves : HomeLoc → Bool
  | .leave | .done => true
  | _ => false

def signalling : Loc → Bool
  | .home _ (.gate .signal) => true
  | .away (.gate .signal) => true
  | _ => false

/-- Where a wait ends. -/
def testing : Loc → Bool
  | .home _ (.gate .test) | .home _ .test | .away (.gate .test) | .referee .test => true
  | _ => false

def GateLoc.inside : GateLoc → Bool
  | .start => false
  | _ => true

def inside : Loc → Bool
  | .home _ (.gate g) => g.inside
  | .home _ .playing | .home _ .interviewing | .home _ .waiting | .home _ .done => false
  | .home _ _ => true
  | .away (.gate g) => g.inside
  | .away _ => false
  | .referee .start | .referee .playing | .referee .done => false
  | .referee _ => true

/-- What stays true of a thread once it has come there. -/
def Ok (x : Shared) : Loc → Prop
  | .home tid l =>
    (started (.home tid l) = true → x.whistle_blown ≠ 0) ∧ (l.interviewed = true → x.interview_over ≠ 0) ∧
      (l = .interviewing ∨ l = .interviewOver ∨ l = .announce → tid = 0) ∧ (l = .waiting ∨ l = .test ∨ l = .sleep → tid ≠ 0)
  | .away l => started (.away l) = true → x.whistle_blown ≠ 0
  | .referee l => l = .announce ∨ l = .leave ∨ l = .playing ∨ l = .done → x.whistle_blown ≠ 0

/-- What a thread has found out under the mutex and has not acted on yet. -/
def Knows (n : ℤ) (x : Shared) : Loc → Prop
  | .home _ (.gate .sleep) => x.whistle_blown = 0
  | .away (.gate .sleep) => x.whistle_blown = 0
  | .home _ .sleep => x.interview_over = 0
  | .referee .sleep => x.num_players_arrived < n
  | _ => True

namespace Team

@[simp] theorem team_gate (t : Team) (g : GateLoc) : (t.gate g).team = some t := by cases t <;> rfl

@[simp] theorem team_field (t : Team) : t.field.team = some t := by cases t <;> rfl

@[simp] theorem arrived_gate (t : Team) (g : GateLoc) : arrived (t.gate g) = g.arrived := by cases t <;> rfl

@[simp] theorem arrived_field (t : Team) : arrived t.field = true := by cases t <;> rfl

@[simp] theorem inside_gate (t : Team) (g : GateLoc) : inside (t.gate g) = g.inside := by cases t <;> rfl

@[simp] theorem inside_field (t : Team) : inside t.field = false := by cases t <;> rfl

theorem ok_gate {x : Shared} {t : Team} {g : GateLoc} : Ok x (t.gate g) ↔ (g = .play → x.whistle_blown ≠ 0) := by
  cases t with
  | home tid => simp [gate, Ok, started, HomeLoc.interviewed]
  | away => simp [gate, Ok, started]

theorem ok_field {x : Shared} {t : Team} (h : x.whistle_blown ≠ 0) : Ok x t.field := by
  cases t with
  | home tid => simp [field, Ok, started, HomeLoc.interviewed, h]
  | away => simp [field, Ok, started, h]

theorem knows_gate {n : ℤ} {x : Shared} {t : Team} {g : GateLoc} (h : g = .sleep → x.whistle_blown = 0) : Knows n x (t.gate g) := by
  cases t <;> cases g <;> first | exact h rfl | trivial

theorem knows_field {n : ℤ} {x : Shared} (t : Team) : Knows n x t.field := by cases t <;> trivial

@[simp] theorem signalling_gate (t : Team) (g : GateLoc) : signalling (t.gate g) = decide (g = .signal) := by
  cases t <;> cases g <;> rfl

theorem gate_ne_referee (t : Team) (g : GateLoc) (l : RefereeLoc) : t.gate g ≠ .referee l := by cases t <;> exact nofun

theorem field_ne_referee (t : Team) (l : RefereeLoc) : t.field ≠ .referee l := by cases t <;> exact nofun

theorem interviewed_of_gate {t : Team} {g : GateLoc} {tid : ℕ} {l : HomeLoc} (h : t.gate g = .home tid l) : l.interviewed = false := by
  cases t with
  | home k =>
    obtain ⟨-, rfl⟩ := Loc.home.inj h
    rfl
  | away => cases h

end Team

theorem gate_typed (n : ℤ) (t : Team) (g : GateLoc) : Typed inside (gate n t g) (t.gate g) := by
  cases g with
  | arrive | test =>
    intro x
    dsimp only
    rw [Team.inside_gate, Team.inside_gate]
    split_ifs <;> rfl
  | start | signal | sleep => exact ⟨Team.inside_gate t _, Team.inside_gate t _⟩
  | play => exact ⟨Team.inside_gate t _, Team.inside_field t⟩

theorem body_typed (n : ℤ) (l : Loc) : Typed inside (body n l) l := by
  cases l with
  | home tid l =>
    cases l with
    | gate g => exact gate_typed n (.home tid) g
    | playing | test =>
      intro x
      dsimp only
      split_ifs <;> rfl
    | interviewOver =>
      intro x
      rfl
    | done => rfl
    | interviewing | announce | waiting | sleep | leave => exact ⟨rfl, rfl⟩
  | away l =>
    cases l with
    | gate g => exact gate_typed n .away g
    | playing =>
      intro x
      rfl
    | done => rfl
  | referee l =>
    cases l with
    | test =>
      intro x
      dsimp only
      split_ifs <;> rfl
    | blow | playing =>
      intro x
      rfl
    | done => rfl
    | start | sleep | announce | leave => exact ⟨rfl, rfl⟩

theorem gate_wait {n : ℤ} {t : Team} {g : GateLoc} {c : Cond} {m : Loc} (h : gate n t g = .wait c m) :
    c = .player_wait ∧ m = t.gate .test := by
  cases g with
  | sleep => exact ⟨(Instr.wait.inj h).1.symm, (Instr.wait.inj h).2.symm⟩
  | _ => cases h

/-- A wait ends at the test of the loop around it. -/
theorem body_wait {n : ℤ} {c : Cond} {l m : Loc} (h : body n l = .wait c m) :
    (c = .player_wait ∧ ∃ t : Team, m = t.gate .test) ∨ (c = .interview ∧ ∃ tid, m = .home tid .test) ∨
      c = .referee_wait ∧ m = .referee .test := by
  cases l with
  | home tid l =>
    cases l with
    | gate g =>
      obtain ⟨hc, hm⟩ := gate_wait (t := .home tid) h
      exact .inl ⟨hc, _, hm⟩
    | sleep =>
      obtain ⟨rfl, rfl⟩ := Instr.wait.inj h
      exact .inr (.inl ⟨rfl, tid, rfl⟩)
    | _ => cases h
  | away l =>
    cases l with
    | gate g =>
      obtain ⟨hc, hm⟩ := gate_wait (t := .away) h
      exact .inl ⟨hc, _, hm⟩
    | _ => cases h
  | referee l =>
    cases l with
    | sleep =>
      obtain ⟨rfl, rfl⟩ := Instr.wait.inj h
      exact .inr (.inr ⟨rfl, rfl⟩)
    | _ => cases h

theorem body_wait_testing {n : ℤ} {c : Cond} {l m : Loc} (h : body n l = .wait c m) : testing m = true := by
  rcases body_wait h with ⟨-, t, rfl⟩ | ⟨-, tid, rfl⟩ | ⟨-, rfl⟩
  · cases t <;> rfl
  · rfl
  · rfl

section

variable {ρ : Type} {n : ℤ} {s s' t : State ρ} {i j : Option ρ}

/-- While `i` runs inside, the others know nothing. -/
theorem knows_other (hmx : MutexInv (fun _ => body n) inside s) (hm : s.mode i = .awake) (hl : inside (s.loc i) = true) (hj : j ≠ i)
    (x : Shared) : Knows n x (s.loc j) := by
  have halone : inside (s.loc j) = true → testing (s.loc j) = false → False := by
    intro hin ht
    refine hj (hmx.alone hm hl hin fun c l hc => ?_)
    rw [body_wait_testing hc] at ht
    cases ht
  unfold Knows
  split
  · rename_i hlj
    exact (halone (by rw [hlj]; rfl) (by rw [hlj]; rfl)).elim
  · rename_i hlj
    exact (halone (by rw [hlj]; rfl) (by rw [hlj]; rfl)).elim
  · rename_i hlj
    exact (halone (by rw [hlj]; rfl) (by rw [hlj]; rfl)).elim
  · rename_i hlj
    exact (halone (by rw [hlj]; rfl) (by rw [hlj]; rfl)).elim
  · trivial

/-- The flags go up only. -/
theorem Ok.mono {x y : Shared} {l : Loc} (h : Ok x l) (hw : x.whistle_blown ≠ 0 → y.whistle_blown ≠ 0)
    (hi : x.interview_over ≠ 0 → y.interview_over ≠ 0) : Ok y l := by
  cases l with
  | home tid l => exact ⟨fun hs => hw (h.1 hs), fun hl => hi (h.2.1 hl), h.2.2⟩
  | away l => exact fun hs => hw (h hs)
  | referee l => exact fun hl => hw (h hl)

variable [Fintype ρ] {team : ρ → Team}

/-- **The invariant.** -/
structure Inv (team : ρ → Team) (s : State ρ) : Prop where
  team : ∀ i, (s.loc i).team = i.map team
  ok : ∀ i, Ok s.shared (s.loc i)
  num : s.shared.num_players_arrived = count (fun _ => arrived) s
  whistle : s.shared.whistle_blown ≠ 0 → s.shared.num_players_arrived = Fintype.card ρ
  blow : ∀ i, s.loc i = .referee .blow → s.shared.num_players_arrived = Fintype.card ρ
  star : s.shared.interview_over ≠ 0 → ∃ i l, s.loc i = .home 0 l ∧ l.interviewed = true
  knows : ∀ i, Knows (Fintype.card ρ) s.shared (s.loc i)
  players_up : (∃ i, s.mode i = .asleep .player_wait) → s.shared.whistle_blown = 0 ∨ ∃ j, s.loc j = .referee .announce
  referee_up : (∃ i, s.mode i = .asleep .referee_wait) →
    s.shared.num_players_arrived < Fintype.card ρ ∨ ∃ j, signalling (s.loc j) = true
  home_up : (∃ i, s.mode i = .asleep .interview) → s.shared.interview_over = 0 ∨ ∃ j, s.loc j = .home 0 .announce

theorem initial_inv (team : ρ → Team) : Inv team (initial start (startLoc team)) := by
  have hall : ∀ p : Option ρ → Loc → Prop, p none (.referee .start) → (∀ r, p (some r) ((team r).gate .start)) →
      ∀ i, p i ((initial start (startLoc team) : State ρ).loc i) := by
    intro p h1 h2 i
    cases i with
    | none => exact h1
    | some r => exact h2 r
  refine ⟨?_, ?_, ?_, fun h => absurd rfl h, ?_, fun h => absurd rfl h, ?_, ?_, ?_, ?_⟩
  · exact hall (fun i l => l.team = i.map team) rfl fun r => Team.team_gate _ _
  · exact hall (fun _ l => Ok start l) nofun fun r => Team.ok_gate.mpr nofun
  · exact (count_eq_zero.mpr (hall (fun _ l => arrived l = false) rfl fun r => Team.arrived_gate _ _)).symm
  · exact hall (fun _ l => l = .referee .blow → _) nofun fun r => by cases team r <;> exact nofun
  · exact hall (fun _ l => Knows _ start l) trivial fun r => Team.knows_gate nofun
  · rintro ⟨i, hi⟩
    cases hi
  · rintro ⟨i, hi⟩
    cases hi
  · rintro ⟨i, hi⟩
    cases hi

theorem Inv.wake (h : Inv team s) (hsh : t.shared = s.shared) (hloc : t.loc = s.loc)
    (hm : ∀ i c, t.mode i = .asleep c → s.mode i = .asleep c) : Inv team t := by
  have hc : count (fun _ => arrived) t = count (fun _ => arrived) s := count_congr fun i => by rw [hloc]
  refine ⟨?_, ?_, ?_, ?_, ?_, ?_, ?_, ?_, ?_, ?_⟩
  · rw [hloc]
    exact h.team
  · rw [hsh, hloc]
    exact h.ok
  · rw [hsh, hc]
    exact h.num
  · rw [hsh]
    exact h.whistle
  · rw [hsh, hloc]
    exact h.blow
  · rw [hsh, hloc]
    exact h.star
  · rw [hsh, hloc]
    exact h.knows
  · rintro ⟨i, hi⟩
    rw [hsh, hloc]
    exact h.players_up ⟨i, hm i _ hi⟩
  · rintro ⟨i, hi⟩
    rw [hsh, hloc]
    exact h.referee_up ⟨i, hm i _ hi⟩
  · rintro ⟨i, hi⟩
    rw [hsh, hloc]
    exact h.home_up ⟨i, hm i _ hi⟩

/-- The referee is `none`. -/
theorem Inv.eq_none {l : RefereeLoc} (h : Inv team s) (hl : s.loc i = .referee l) : i = none := by
  have ht := h.team i
  rw [hl] at ht
  exact Option.map_eq_none_iff.mp ht.symm

theorem Inv.referee_loc (h : Inv team s) : ∃ l, s.loc none = .referee l := by
  have ht := h.team none
  cases hl : s.loc none with
  | home tid l =>
    rw [hl] at ht
    cases ht
  | away l =>
    rw [hl] at ht
    cases ht
  | referee l => exact ⟨l, rfl⟩

theorem Inv.arrived_none (h : Inv team s) : arrived (s.loc none) = false := by
  obtain ⟨l, hl⟩ := h.referee_loc
  rw [hl]
  rfl

/-- Only threads at a test sleep. -/
theorem asleep_elim (ha : AllAsleep (game ρ) s) (hmx : MutexInv (game ρ) inside s) (hi : (body (Fintype.card ρ) (s.loc i)).isHalt = false)
    (ht : testing (s.loc i) = false) : False := by
  refine ha.elim hmx hi fun c l hc => ?_
  rw [body_wait_testing hc] at ht
  cases ht

/-- An unfinished thread is at the test of what it sleeps on. -/
theorem asleep_cases (ha : AllAsleep (game ρ) s) (hmx : MutexInv (game ρ) inside s)
    (hi : (body (Fintype.card ρ) (s.loc i)).isHalt = false) :
    (s.mode i = .asleep .player_wait ∧ ∃ t : Team, s.loc i = t.gate .test) ∨
      (s.mode i = .asleep .interview ∧ ∃ tid, s.loc i = .home tid .test) ∨ s.mode i = .asleep .referee_wait ∧ s.loc i = .referee .test := by
  obtain ⟨c, hc⟩ := Mode.isAsleep_iff.mp (ha i hi)
  obtain ⟨l, hw⟩ := hmx.asleep i c hc
  rcases body_wait hw with ⟨rfl, h⟩ | ⟨rfl, h⟩ | ⟨rfl, h⟩
  · exact .inl ⟨hc, h⟩
  · exact .inr (.inl ⟨hc, h⟩)
  · exact .inr (.inr ⟨hc, h⟩)

/-- The referee waits for a player on its way. -/
theorem Inv.referee_awake (h : Inv team s) (hmx : MutexInv (game ρ) inside s) (ha : AllAsleep (game ρ) s) :
    s.mode i ≠ .asleep .referee_wait := by
  intro hi
  rcases h.referee_up ⟨i, hi⟩ with hlt | ⟨k, hk⟩
  · rw [h.num] at hlt
    obtain ⟨r, hr⟩ := not_forall.mp fun hall => absurd ((count_some_eq_card h.arrived_none).mpr hall) (ne_of_lt hlt)
    have hteam := h.team (some r)
    cases hl : s.loc (some r) with
    | home tid l =>
      rw [hl] at hr
      cases l with
      | gate g =>
        cases g with
        | start | arrive => exact asleep_elim ha hmx (i := some r) (by rw [hl]; rfl) (by rw [hl]; rfl)
        | _ => exact hr rfl
      | _ => exact hr rfl
    | away l =>
      rw [hl] at hr
      cases l with
      | gate g =>
        cases g with
        | start | arrive => exact asleep_elim ha hmx (i := some r) (by rw [hl]; rfl) (by rw [hl]; rfl)
        | _ => exact hr rfl
      | _ => exact hr rfl
    | referee l =>
      rw [hl] at hteam
      cases hteam
  · unfold signalling at hk
    split at hk
    · rename_i hl
      exact asleep_elim ha hmx (i := k) (by rw [hl]; rfl) (by rw [hl]; rfl)
    · rename_i hl
      exact asleep_elim ha hmx (i := k) (by rw [hl]; rfl) (by rw [hl]; rfl)
    · cases hk

/-- The players wait for the referee. -/
theorem Inv.players_awake (h : Inv team s) (hmx : MutexInv (game ρ) inside s) (ha : AllAsleep (game ρ) s) :
    s.mode i ≠ .asleep .player_wait := by
  intro hi
  rcases h.players_up ⟨i, hi⟩ with h0 | ⟨k, hk⟩
  · obtain ⟨l, hl⟩ := h.referee_loc
    have hok := h.ok none
    rw [hl] at hok
    cases l with
    | announce => exact hok (.inl rfl) h0
    | leave => exact hok (.inr (.inl rfl)) h0
    | playing => exact hok (.inr (.inr (.inl rfl))) h0
    | done => exact hok (.inr (.inr (.inr rfl))) h0
    | start | sleep | blow => exact asleep_elim ha hmx (i := none) (by rw [hl]; rfl) (by rw [hl]; rfl)
    | test =>
      rcases asleep_cases ha hmx (i := none) (by rw [hl]; rfl) with ⟨-, t, ht⟩ | ⟨-, tid, ht⟩ | ⟨hr, -⟩
      · rw [hl] at ht
        cases t <;> cases ht
      · rw [hl] at ht
        cases ht
      · exact h.referee_awake hmx ha hr
  · exact asleep_elim ha hmx (i := k) (by rw [hk]; rfl) (by rw [hk]; rfl)

/-- The home players wait for their star, which waits for nobody but the referee. -/
theorem Inv.home_awake (h : Inv team s) (hmx : MutexInv (game ρ) inside s) (ha : AllAsleep (game ρ) s) (hstar : ∃ r, team r = .home 0) :
    s.mode i ≠ .asleep .interview := by
  intro hi
  rcases h.home_up ⟨i, hi⟩ with h0 | ⟨k, hk⟩
  swap
  · exact asleep_elim ha hmx (i := k) (by rw [hk]; rfl) (by rw [hk]; rfl)
  obtain ⟨r, hr⟩ := hstar
  have hteam := h.team (some r)
  have hok := h.ok (some r)
  rw [Option.map_some, hr] at hteam
  cases hl : s.loc (some r) with
  | home tid l =>
    rw [hl] at hteam hok
    obtain rfl : tid = 0 := Team.home.inj (Option.some.inj hteam)
    obtain ⟨-, hover, -, hmate⟩ := hok
    cases l with
    | gate g =>
      cases g with
      | test =>
        rcases asleep_cases ha hmx (i := some r) (by rw [hl]; rfl) with ⟨hp, -⟩ | ⟨-, tid, ht⟩ | ⟨-, ht⟩
        · exact h.players_awake hmx ha hp
        · rw [hl] at ht
          cases ht
        · rw [hl] at ht
          cases ht
      | _ => exact asleep_elim ha hmx (i := some r) (by rw [hl]; rfl) (by rw [hl]; rfl)
    | playing | interviewing | interviewOver => exact asleep_elim ha hmx (i := some r) (by rw [hl]; rfl) (by rw [hl]; rfl)
    | announce | leave | done => exact hover rfl h0
    | waiting => exact hmate (.inl rfl) rfl
    | test => exact hmate (.inr (.inl rfl)) rfl
    | sleep => exact hmate (.inr (.inr rfl)) rfl
  | away l =>
    rw [hl] at hteam
    cases hteam
  | referee l =>
    rw [hl] at hteam
    cases hteam

/-- Nobody is left sleeping. -/
theorem Inv.no_deadlock (h : Inv team s) (hmx : MutexInv (game ρ) inside s) (hstar : ∃ r, team r = .home 0) : ¬ Deadlock (game ρ) s := by
  rintro ⟨⟨i, hi⟩, ha⟩
  rcases asleep_cases ha hmx hi with ⟨hp, -⟩ | ⟨hp, -⟩ | ⟨hp, -⟩
  · exact h.players_awake hmx ha hp
  · exact h.home_awake hmx ha hstar hp
  · exact h.referee_awake hmx ha hp

variable [DecidableEq ρ]

/-- Thread `i` moves to `m`, and the variables follow. -/
theorem Inv.next {m : Loc} (h : Inv team s) (hloc : t.loc = (s.goto i m).loc) (hteam : m.team = (s.loc i).team)
    (hw : s.shared.whistle_blown ≠ 0 → t.shared.whistle_blown ≠ 0) (hi : s.shared.interview_over ≠ 0 → t.shared.interview_over ≠ 0)
    (hok : Ok t.shared m) (hnum : t.shared.num_players_arrived = count (fun _ => arrived) t)
    (hle : s.shared.num_players_arrived ≤ t.shared.num_players_arrived)
    (hwh : t.shared.whistle_blown ≠ 0 → s.shared.whistle_blown = 0 → s.shared.num_players_arrived = Fintype.card ρ)
    (hbl : m = .referee .blow → Fintype.card ρ ≤ s.shared.num_players_arrived)
    (hst : t.shared.interview_over ≠ 0 → s.shared.interview_over = 0 → ∃ l, m = .home 0 l ∧ l.interviewed = true)
    (hst' : ∀ l, s.loc i = .home 0 l → l.interviewed = true → ∃ l', m = .home 0 l' ∧ l'.interviewed = true)
    (hk : Knows (Fintype.card ρ) t.shared m) (hk' : ∀ j, j ≠ i → Knows (Fintype.card ρ) t.shared (s.loc j))
    (hpu : (∃ i, t.mode i = .asleep .player_wait) → t.shared.whistle_blown = 0 ∨ ∃ j, t.loc j = .referee .announce)
    (hru : (∃ i, t.mode i = .asleep .referee_wait) →
      t.shared.num_players_arrived < Fintype.card ρ ∨ ∃ j, signalling (t.loc j) = true)
    (hhu : (∃ i, t.mode i = .asleep .interview) → t.shared.interview_over = 0 ∨ ∃ j, t.loc j = .home 0 .announce) : Inv team t := by
  have hat : ∀ p : Option ρ → Loc → Prop, p i m → (∀ j, j ≠ i → p j (s.loc j)) → ∀ j, p j (t.loc j) := by
    intro p hi hj j
    rw [hloc, St.goto_loc_apply]
    split_ifs with hji
    · rw [hji]
      exact hi
    · exact hj j hji
  have hteam' : ∀ j, (t.loc j).team = j.map team :=
    hat (fun j l => l.team = j.map team) (hteam.trans (h.team i)) fun j _ => h.team j
  -- once all have arrived, nobody can be added
  have hfull : Fintype.card ρ ≤ s.shared.num_players_arrived → t.shared.num_players_arrived = Fintype.card ρ := by
    intro hs
    have hnone : arrived (t.loc none) = false := by
      have ht := hteam' none
      cases hl : t.loc none with
      | home tid l =>
        rw [hl] at ht
        cases ht
      | away l =>
        rw [hl] at ht
        cases ht
      | referee l => rfl
    have hc := count_some_le hnone
    rw [← hnum] at hc
    omega
  refine ⟨hteam', ?_, hnum, fun ht => ?_, ?_, fun ht => ?_, ?_, hpu, hru, hhu⟩
  · exact hat (fun _ l => Ok t.shared l) hok fun j _ => (h.ok j).mono hw hi
  · by_cases hs : s.shared.whistle_blown = 0
    · exact hfull (hwh ht hs).ge
    · exact hfull (h.whistle hs).ge
  · exact hat (fun _ l => l = .referee .blow → _) (fun hm => hfull (hbl hm)) fun j _ hj => hfull (h.blow j hj).ge
  · by_cases hs : s.shared.interview_over = 0
    · obtain ⟨l, hm, hl⟩ := hst ht hs
      exact ⟨i, l, by rw [hloc, St.goto_loc_self, hm], hl⟩
    · obtain ⟨j, l, hj, hl⟩ := h.star hs
      by_cases hji : j = i
      · rw [hji] at hj
        obtain ⟨l', hm, hl'⟩ := hst' l hj hl
        exact ⟨i, l', by rw [hloc, St.goto_loc_self, hm], hl'⟩
      · exact ⟨j, l, by rw [hloc, St.goto_loc_of_ne s m hji, hj], hl⟩
  · exact hat (fun _ l => Knows _ t.shared l) hk hk'

theorem Inv.players_up_move {m : Loc} (h : Inv team s) (hloc : t.loc = (s.goto i m).loc)
    (hm : ∀ i c, t.mode i = .asleep c → s.mode i = .asleep c) (hw : t.shared.whistle_blown = s.shared.whistle_blown)
    (hl : s.loc i ≠ .referee .announce) :
    (∃ i, t.mode i = .asleep .player_wait) → t.shared.whistle_blown = 0 ∨ ∃ j, t.loc j = .referee .announce := by
  rintro ⟨k, hk⟩
  rw [hw]
  exact (h.players_up ⟨k, hm k _ hk⟩).imp id (St.exists_loc_of_goto hloc hl)

theorem Inv.referee_up_move {m : Loc} (h : Inv team s) (hloc : t.loc = (s.goto i m).loc)
    (hm : ∀ i c, t.mode i = .asleep c → s.mode i = .asleep c) (hn : t.shared.num_players_arrived = s.shared.num_players_arrived)
    (hl : signalling (s.loc i) = false) :
    (∃ i, t.mode i = .asleep .referee_wait) → t.shared.num_players_arrived < Fintype.card ρ ∨ ∃ j, signalling (t.loc j) = true := by
  rintro ⟨k, hk⟩
  rw [hn]
  refine (h.referee_up ⟨k, hm k _ hk⟩).imp id fun ⟨j, hj⟩ => ⟨j, ?_⟩
  rw [hloc, St.goto_loc_of_ne s m, hj]
  rintro rfl
  rw [hl] at hj
  cases hj

theorem Inv.home_up_move {m : Loc} (h : Inv team s) (hloc : t.loc = (s.goto i m).loc)
    (hm : ∀ i c, t.mode i = .asleep c → s.mode i = .asleep c) (hi : t.shared.interview_over = s.shared.interview_over)
    (hl : s.loc i ≠ .home 0 .announce) :
    (∃ i, t.mode i = .asleep .interview) → t.shared.interview_over = 0 ∨ ∃ j, t.loc j = .home 0 .announce := by
  rintro ⟨k, hk⟩
  rw [hi]
  exact (h.home_up ⟨k, hm k _ hk⟩).imp id (St.exists_loc_of_goto hloc hl)

/-- A step that leaves the variables alone. -/
theorem Inv.move {m : Loc} (h : Inv team s) (hsh : t.shared = s.shared) (hloc : t.loc = (s.goto i m).loc)
    (hm : ∀ i c, t.mode i = .asleep c → s.mode i = .asleep c) (hteam : m.team = (s.loc i).team) (hok : Ok s.shared m)
    (harr : arrived m = arrived (s.loc i)) (hbl : m = .referee .blow → Fintype.card ρ ≤ s.shared.num_players_arrived)
    (hst : ∀ l, s.loc i = .home 0 l → l.interviewed = true → ∃ l', m = .home 0 l' ∧ l'.interviewed = true)
    (hk : Knows (Fintype.card ρ) s.shared m) (hp : s.loc i ≠ .referee .announce) (hr : signalling (s.loc i) = false)
    (hh : s.loc i ≠ .home 0 .announce) : Inv team t := by
  refine h.next hloc hteam ?_ ?_ ?_ ?_ ?_ (fun hn h0 => ?_) hbl (fun hn h0 => ?_) hst ?_ (fun j _ => ?_) (h.players_up_move hloc hm ?_ hp)
    (h.referee_up_move hloc hm ?_ hr) (h.home_up_move hloc hm ?_ hh)
  · rw [hsh]
    exact id
  · rw [hsh]
    exact id
  · rw [hsh]
    exact hok
  · rw [hsh, count_same hloc harr]
    exact h.num
  · rw [hsh]
  · rw [hsh] at hn
    exact absurd h0 hn
  · rw [hsh] at hn
    exact absurd h0 hn
  · rw [hsh]
    exact hk
  · rw [hsh]
    exact h.knows j
  · rw [hsh]
  · rw [hsh]
  · rw [hsh]

/-- A player at the gate goes on, without a signal. -/
theorem Inv.gate_move {T : Team} {g : GateLoc} {m : Loc} (h : Inv team s) (hl : s.loc i = T.gate g) (hsh : t.shared = s.shared)
    (hloc : t.loc = (s.goto i m).loc) (hm : ∀ i c, t.mode i = .asleep c → s.mode i = .asleep c) (hteam : m.team = some T)
    (hok : Ok s.shared m) (harr : arrived m = g.arrived) (hbl : m ≠ .referee .blow) (hk : Knows (Fintype.card ρ) s.shared m)
    (hg : g ≠ .signal) : Inv team t := by
  refine h.move hsh hloc hm ?_ hok ?_ (fun hb => absurd hb hbl) (fun l hh hi => ?_) hk ?_ ?_ ?_
  · rw [hl, Team.team_gate, hteam]
  · rw [hl, Team.arrived_gate, harr]
  · rw [hl] at hh
    rw [Team.interviewed_of_gate hh] at hi
    cases hi
  · rw [hl]
    exact T.gate_ne_referee g _
  · rw [hl, Team.signalling_gate]
    exact decide_eq_false hg
  · intro hh
    rw [hl] at hh
    cases Team.interviewed_of_gate hh

/-- A player arrives; the last one goes to signal. -/
theorem Inv.arrive {T : Team} (h : Inv team s) (hl : s.loc i = T.gate .arrive)
    (hk : ∀ j, j ≠ i → ∀ x, Knows (Fintype.card ρ) x (s.loc j)) :
    Inv team (s.assign i (T.gate (if s.shared.num_players_arrived + 1 = Fintype.card ρ then .signal else .test))
      { s.shared with num_players_arrived := s.shared.num_players_arrived + 1 }) := by
  generalize hg : (if s.shared.num_players_arrived + 1 = (Fintype.card ρ : ℤ) then GateLoc.signal else .test) = g
  have hcase : g = .signal ∧ s.shared.num_players_arrived + 1 = Fintype.card ρ ∨
      g = .test ∧ s.shared.num_players_arrived + 1 ≠ Fintype.card ρ := by
    rw [← hg]
    split_ifs with hc
    · exact .inl ⟨rfl, hc⟩
    · exact .inr ⟨rfl, hc⟩
  have hloc : (s.assign i (T.gate g) { s.shared with num_players_arrived := s.shared.num_players_arrived + 1 }).loc =
      (s.goto i (T.gate g)).loc := rfl
  have harr : arrived (T.gate g) = true := by
    rw [Team.arrived_gate]
    rcases hcase with ⟨rfl, -⟩ | ⟨rfl, -⟩ <;> rfl
  -- this player was not counted yet
  have hne : s.shared.num_players_arrived ≠ Fintype.card ρ := by
    intro hc
    rw [h.num] at hc
    have hall := (count_some_eq_card h.arrived_none).mp hc
    cases i with
    | none => exact T.gate_ne_referee _ _ (hl.symm.trans h.referee_loc.choose_spec)
    | some r =>
      have := hall r
      rw [hl, Team.arrived_gate] at this
      cases this
  have hle := count_some_le h.arrived_none
  rw [← h.num] at hle
  refine h.next hloc ?_ id id (Team.ok_gate.mpr ?_) ?_ ?_ (fun h1 h0 => absurd h0 h1) (fun hb => absurd hb (T.gate_ne_referee g _))
    (fun h1 h0 => absurd h0 h1) (fun l hh hi => ?_) (Team.knows_gate ?_) (fun j hj => hk j hj _) ?_ (fun _ => ?_) ?_
  · rw [hl, Team.team_gate, Team.team_gate]
  · rcases hcase with ⟨rfl, -⟩ | ⟨rfl, -⟩ <;> exact nofun
  · refine Eq.trans ?_ (count_enter hloc (by rw [hl, Team.arrived_gate]; rfl) harr).symm
    rw [← h.num]
    rfl
  · show s.shared.num_players_arrived ≤ s.shared.num_players_arrived + 1
    omega
  · rw [hl] at hh
    rw [Team.interviewed_of_gate hh] at hi
    cases hi
  · rcases hcase with ⟨rfl, -⟩ | ⟨rfl, -⟩ <;> exact nofun
  · exact h.players_up_move hloc (fun _ _ hj => hj) rfl (by rw [hl]; exact T.gate_ne_referee _ _)
  · rcases hcase with ⟨rfl, hc⟩ | ⟨rfl, hc⟩
    · exact .inr ⟨i, by rw [hloc, St.goto_loc_self, Team.signalling_gate]; rfl⟩
    · refine .inl ?_
      show s.shared.num_players_arrived + 1 < Fintype.card ρ
      omega
  · refine h.home_up_move hloc (fun _ _ hj => hj) rfl fun hh => ?_
    rw [hl] at hh
    cases Team.interviewed_of_gate hh

/-- The last player signals; only the referee can wait for that, so nobody does any more. -/
theorem Inv.signal {T : Team} (h : Inv team s) (hmx : MutexInv (game ρ) inside s) (hl : s.loc i = T.gate .signal)
    (he : (∀ j, s.mode j ≠ .asleep .referee_wait) ∧ s' = s.goto i (T.gate .test) ∨
      ∃ j, s.mode j = .asleep .referee_wait ∧ s' = (s.setMode j .woken).goto i (T.gate .test)) : Inv team s' := by
  have honly : ∀ k, s.mode k = .asleep .referee_wait → k = none := by
    intro k hk
    obtain ⟨l, hw⟩ := hmx.asleep k _ hk
    rcases body_wait hw with ⟨hc, -⟩ | ⟨hc, -⟩ | ⟨-, hlk⟩
    · cases hc
    · cases hc
    · exact h.eq_none hlk
  have hgo : ∀ t : State ρ, t.shared = s.shared → t.loc = (s.goto i (T.gate .test)).loc →
      (∀ k c, t.mode k = .asleep c → s.mode k = .asleep c) → (∀ k, t.mode k ≠ .asleep .referee_wait) → Inv team t := by
    intro t hsh hloc hm hnone
    refine h.next hloc ?_ (by rw [hsh]; exact id) (by rw [hsh]; exact id) (Team.ok_gate.mpr nofun) ?_ (by rw [hsh])
      (fun h1 h0 => absurd h0 (by rw [← hsh]; exact h1)) (fun hb => absurd hb (T.gate_ne_referee _ _))
      (fun h1 h0 => absurd h0 (by rw [← hsh]; exact h1)) (fun l hh hi => ?_) (Team.knows_gate nofun) (fun j _ => by rw [hsh]; exact h.knows j)
      (h.players_up_move hloc hm (by rw [hsh]) (by rw [hl]; exact T.gate_ne_referee _ _)) ?_ (h.home_up_move hloc hm (by rw [hsh]) fun hh => ?_)
    · rw [hl, Team.team_gate, Team.team_gate]
    · rw [hsh, count_same hloc (by rw [hl, Team.arrived_gate, Team.arrived_gate]; rfl)]
      exact h.num
    · rw [hl] at hh
      rw [Team.interviewed_of_gate hh] at hi
      cases hi
    · rintro ⟨k, hk⟩
      exact absurd hk (hnone k)
    · rw [hl] at hh
      cases Team.interviewed_of_gate hh
  rcases he with ⟨hnone, rfl⟩ | ⟨j, hj, rfl⟩
  · exact hgo _ rfl rfl (fun _ _ hk => hk) hnone
  · refine hgo _ rfl rfl (fun k c hk => (St.asleep_of_setMode (by simp) hk).1) fun k hk => ?_
    obtain ⟨hk, hkj⟩ := St.asleep_of_setMode (s := s) (x := .woken) (by simp) hk
    exact hkj ((honly k hk).trans (honly j hj).symm)

/-- A player goes to sleep before the whistle. -/
theorem Inv.gate_sleep {T : Team} (h : Inv team s) (hl : s.loc i = T.gate .sleep) :
    Inv team { (s.goto i (T.gate .test)).setMode i (.asleep .player_wait) with mutex := none } := by
  have hg : s.shared.whistle_blown = 0 := by
    have := h.knows i
    rw [hl] at this
    cases T <;> exact this
  have hmv : Inv team (s.goto i (T.gate .test)) :=
    h.gate_move hl rfl rfl (fun _ _ hj => hj) (Team.team_gate _ _) (Team.ok_gate.mpr nofun) (Team.arrived_gate _ _) (T.gate_ne_referee _ _)
      (Team.knows_gate nofun) nofun
  exact { hmv with
    players_up := fun _ => .inl hg
    referee_up := fun ⟨j, hj⟩ => hmv.referee_up ⟨j, St.asleep_of_sleep hj nofun⟩
    home_up := fun ⟨j, hj⟩ => hmv.home_up ⟨j, St.asleep_of_sleep hj nofun⟩ }

/-- **Step lemma**, players up to the whistle. -/
theorem Inv.gate_step {T : Team} {g : GateLoc} (h : Inv team s) (hmx : MutexInv (game ρ) inside s) (hm : s.mode i = .awake)
    (hl : s.loc i = T.gate g) (he : Effect s i (gate (Fintype.card ρ) T g) s') : Inv team s' := by
  have hsame : ∀ (j : Option ρ) (c : Cond), s.mode j = .asleep c → s.mode j = .asleep c := fun _ _ hj => hj
  cases g with
  | start =>
    obtain ⟨-, rfl⟩ := he
    exact h.gate_move hl rfl rfl hsame (Team.team_gate _ _) (Team.ok_gate.mpr nofun) (Team.arrived_gate _ _) (T.gate_ne_referee _ _)
      (Team.knows_gate nofun) nofun
  | arrive =>
    obtain rfl := he
    exact h.arrive hl fun j hj x => knows_other hmx hm (by rw [hl, Team.inside_gate]; rfl) hj x
  | signal => exact h.signal hmx hl he
  | test =>
    obtain rfl := he
    dsimp only
    by_cases hg : s.shared.whistle_blown = 0
    · rw [if_pos hg]
      exact h.gate_move hl rfl rfl hsame (Team.team_gate _ _) (Team.ok_gate.mpr nofun) (Team.arrived_gate _ _) (T.gate_ne_referee _ _)
        (Team.knows_gate fun _ => hg) nofun
    · rw [if_neg hg]
      exact h.gate_move hl rfl rfl hsame (Team.team_gate _ _) (Team.ok_gate.mpr fun _ => hg) (Team.arrived_gate _ _) (T.gate_ne_referee _ _)
        (Team.knows_gate nofun) nofun
  | sleep =>
    obtain ⟨-, rfl⟩ := he
    exact h.gate_sleep hl
  | play =>
    obtain ⟨-, rfl⟩ := he
    have hok := h.ok i
    rw [hl, Team.ok_gate] at hok
    exact h.gate_move hl rfl rfl hsame (Team.team_field T) (Team.ok_field (hok rfl)) (Team.arrived_field T) (T.field_ne_referee _)
      (Team.knows_field T) nofun

/-- A home player on the field goes on, and stays interviewed if it is. -/
theorem Inv.home_move {tid : ℕ} {l m : HomeLoc} (h : Inv team s) (hl : s.loc i = .home tid l) (hsh : t.shared = s.shared)
    (hloc : t.loc = (s.goto i (.home tid m)).loc) (hm : ∀ i c, t.mode i = .asleep c → s.mode i = .asleep c)
    (hok : Ok s.shared (.home tid m)) (harr : arrived (.home tid m) = arrived (.home tid l))
    (hst : l.interviewed = true → m.interviewed = true) (hk : Knows (Fintype.card ρ) s.shared (.home tid m))
    (hsig : signalling (.home tid l) = false) (ha : l ≠ .announce) : Inv team t := by
  refine h.move hsh hloc hm (by rw [hl]; rfl) hok (by rw [hl, harr]) nofun (fun l' hh hi => ?_) hk (by rw [hl]; exact nofun)
    (by rw [hl, hsig]) fun hh => ?_
  · rw [hl] at hh
    obtain ⟨rfl, rfl⟩ := Loc.home.inj hh
    exact ⟨m, rfl, hst hi⟩
  · rw [hl] at hh
    exact ha (Loc.home.inj hh).2

/-- The interview is over. -/
theorem Inv.over {tid : ℕ} (h : Inv team s) (hl : s.loc i = .home tid .interviewOver) (hk : ∀ j, j ≠ i → ∀ x, Knows (Fintype.card ρ) x (s.loc j)) :
    Inv team (s.assign i (.home tid .announce) { s.shared with interview_over := 1 }) := by
  have hok := h.ok i
  rw [hl] at hok
  obtain ⟨hw, -, hs, -⟩ := hok
  obtain rfl : tid = 0 := hs (.inr (.inl rfl))
  have hone : (1 : ℤ) ≠ 0 := by decide
  have hloc : (s.assign i (.home 0 .announce) { s.shared with interview_over := 1 }).loc = (s.goto i (.home 0 .announce)).loc := rfl
  refine h.next hloc (by rw [hl]; rfl) id (fun _ => hone) ⟨fun _ => hw rfl, fun _ => hone, fun _ => rfl, nofun⟩ ?_ le_rfl
    (fun h1 h0 => absurd h0 h1) nofun (fun _ _ => ⟨.announce, rfl, rfl⟩) (fun _ _ _ => ⟨.announce, rfl, rfl⟩) trivial (fun j hj => hk j hj _)
    (h.players_up_move hloc (fun _ _ hj => hj) rfl (by rw [hl]; exact nofun))
    (h.referee_up_move hloc (fun _ _ hj => hj) rfl (by rw [hl]; rfl)) fun _ => .inr ⟨i, ?_⟩
  · refine h.num.trans (count_same hloc ?_).symm
    rw [hl]
    rfl
  · rw [hloc, St.goto_loc_self]

/-- The star player wakes its team. -/
theorem Inv.home_announce {tid : ℕ} (h : Inv team s) (hl : s.loc i = .home tid .announce) :
    Inv team ((s.wakeAll .interview).goto i (.home tid .leave)) := by
  have hsub : ∀ k c, ((s.wakeAll .interview).goto i (.home tid .leave)).mode k = .asleep c → s.mode k = .asleep c :=
    fun k c hk => (St.asleep_of_wakeAll hk).1
  have hok := h.ok i
  rw [hl] at hok
  obtain ⟨hw, hi, -, -⟩ := hok
  refine h.next (i := i) (m := .home tid .leave) rfl (by rw [hl]; rfl) id id ⟨fun _ => hw rfl, fun _ => hi rfl, nofun, nofun⟩ ?_ le_rfl
    (fun h1 h0 => absurd h0 h1) nofun (fun h1 h0 => absurd h0 h1) (fun l hh _ => ⟨.leave, ?_, rfl⟩) trivial (fun j _ => h.knows j)
    (h.players_up_move (i := i) (m := .home tid .leave) rfl hsub rfl (by rw [hl]; exact nofun))
    (h.referee_up_move (i := i) (m := .home tid .leave) rfl hsub rfl (by rw [hl]; rfl)) ?_
  · refine h.num.trans (count_same (i := i) (n := Loc.home tid .leave) rfl ?_).symm
    rw [hl]
    rfl
  · rw [hl] at hh
    rw [(Loc.home.inj hh).1]
  · rintro ⟨k, hk⟩
    exact absurd rfl (St.asleep_of_wakeAll hk).2

/-- **Step lemma**, home players. -/
theorem Inv.home_step {tid : ℕ} {l : HomeLoc} (h : Inv team s) (hmx : MutexInv (game ρ) inside s) (hm : s.mode i = .awake)
    (hl : s.loc i = .home tid l) (he : Effect s i (home_players (Fintype.card ρ) tid l) s') : Inv team s' := by
  have hsame : ∀ (j : Option ρ) (c : Cond), s.mode j = .asleep c → s.mode j = .asleep c := fun _ _ hj => hj
  have hok := h.ok i
  rw [hl] at hok
  obtain ⟨hw, hi, hs, hn⟩ := hok
  cases l with
  | gate g => exact h.gate_step (T := .home tid) hmx hm hl he
  | playing =>
    obtain rfl := he
    dsimp only
    by_cases h0 : tid = 0
    · rw [if_pos h0]
      exact h.home_move hl rfl rfl hsame ⟨fun _ => hw rfl, nofun, fun _ => h0, nofun⟩ rfl nofun trivial rfl nofun
    · rw [if_neg h0]
      exact h.home_move hl rfl rfl hsame ⟨fun _ => hw rfl, nofun, nofun, fun _ => h0⟩ rfl nofun trivial rfl nofun
  | interviewing =>
    obtain ⟨-, rfl⟩ := he
    exact h.home_move hl rfl rfl hsame ⟨fun _ => hw rfl, nofun, fun _ => hs (.inl rfl), nofun⟩ rfl nofun trivial rfl nofun
  | interviewOver =>
    obtain rfl := he
    exact h.over hl fun j hj x => knows_other hmx hm (by rw [hl]; rfl) hj x
  | announce =>
    obtain rfl := he
    exact h.home_announce hl
  | waiting =>
    obtain ⟨-, rfl⟩ := he
    exact h.home_move hl rfl rfl hsame ⟨fun _ => hw rfl, nofun, nofun, fun _ => hn (.inl rfl)⟩ rfl nofun trivial rfl nofun
  | test =>
    obtain rfl := he
    dsimp only
    by_cases h0 : s.shared.interview_over = 0
    · rw [if_pos h0]
      exact h.home_move hl rfl rfl hsame ⟨fun _ => hw rfl, nofun, nofun, fun _ => hn (.inr (.inl rfl))⟩ rfl nofun h0 rfl nofun
    · rw [if_neg h0]
      exact h.home_move hl rfl rfl hsame ⟨fun _ => hw rfl, fun _ => h0, nofun, nofun⟩ rfl nofun trivial rfl nofun
  | sleep =>
    obtain ⟨-, rfl⟩ := he
    have h0 : s.shared.interview_over = 0 := by
      have := h.knows i
      rw [hl] at this
      exact this
    have hmv : Inv team (s.goto i (.home tid .test)) :=
      h.home_move hl rfl rfl hsame ⟨fun _ => hw rfl, nofun, nofun, fun _ => hn (.inr (.inr rfl))⟩ rfl nofun trivial rfl nofun
    exact { hmv with
      players_up := fun ⟨j, hj⟩ => hmv.players_up ⟨j, St.asleep_of_sleep hj nofun⟩
      referee_up := fun ⟨j, hj⟩ => hmv.referee_up ⟨j, St.asleep_of_sleep hj nofun⟩
      home_up := fun _ => .inl h0 }
  | leave =>
    obtain ⟨-, rfl⟩ := he
    exact h.home_move hl rfl rfl hsame ⟨fun _ => hw rfl, fun _ => hi rfl, nofun, nofun⟩ rfl (fun _ => rfl) trivial rfl nofun
  | done => cases he

/-- **Step lemma**, away players. -/
theorem Inv.away_step {l : AwayLoc} (h : Inv team s) (hmx : MutexInv (game ρ) inside s) (hm : s.mode i = .awake)
    (hl : s.loc i = .away l) (he : Effect s i (away_players (Fintype.card ρ) l) s') : Inv team s' := by
  cases l with
  | gate g => exact h.gate_step (T := .away) hmx hm hl he
  | playing =>
    obtain rfl := he
    have hok := h.ok i
    rw [hl] at hok
    exact h.move rfl rfl (fun _ _ hj => hj) (by rw [hl]; rfl) (fun _ => hok rfl) (by rw [hl]; rfl) nofun (by rw [hl]; exact nofun) trivial
      (by rw [hl]; exact nofun) (by rw [hl]; rfl) (by rw [hl]; exact nofun)
  | done => cases he

/-- The referee goes on. -/
theorem Inv.referee_move {l m : RefereeLoc} (h : Inv team s) (hl : s.loc i = .referee l) (hsh : t.shared = s.shared)
    (hloc : t.loc = (s.goto i (.referee m)).loc) (hm : ∀ i c, t.mode i = .asleep c → s.mode i = .asleep c)
    (hok : Ok s.shared (.referee m)) (hbl : m = .blow → Fintype.card ρ ≤ s.shared.num_players_arrived)
    (hk : Knows (Fintype.card ρ) s.shared (.referee m)) (ha : l ≠ .announce) : Inv team t := by
  refine h.move hsh hloc hm (by rw [hl]; rfl) hok (by rw [hl]; rfl) (fun hb => hbl (Loc.referee.inj hb)) (by rw [hl]; exact nofun) hk
    (fun hh => ?_) (by rw [hl]; rfl) (by rw [hl]; exact nofun)
  rw [hl] at hh
  exact ha (Loc.referee.inj hh)

/-- The referee blows the whistle. -/
theorem Inv.blow_step (h : Inv team s) (hl : s.loc i = .referee .blow) (hk : ∀ j, j ≠ i → ∀ x, Knows (Fintype.card ρ) x (s.loc j)) :
    Inv team (s.assign i (.referee .announce) { s.shared with whistle_blown := 1 }) := by
  have hone : (1 : ℤ) ≠ 0 := by decide
  have hloc : (s.assign i (.referee .announce) { s.shared with whistle_blown := 1 }).loc = (s.goto i (.referee .announce)).loc := rfl
  refine h.next hloc (by rw [hl]; rfl) (fun _ => hone) id (fun _ => hone) ?_ le_rfl (fun _ _ => h.blow i hl) nofun
    (fun h1 h0 => absurd h0 h1) (by rw [hl]; exact nofun) trivial (fun j hj => hk j hj _) (fun _ => .inr ⟨i, ?_⟩)
    (h.referee_up_move hloc (fun _ _ hj => hj) rfl (by rw [hl]; rfl)) (h.home_up_move hloc (fun _ _ hj => hj) rfl (by rw [hl]; exact nofun))
  · refine h.num.trans (count_same hloc ?_).symm
    rw [hl]
    rfl
  · rw [hloc, St.goto_loc_self]

/-- The referee wakes the players. -/
theorem Inv.referee_announce (h : Inv team s) (hl : s.loc i = .referee .announce) :
    Inv team ((s.wakeAll .player_wait).goto i (.referee .leave)) := by
  have hsub : ∀ k c, ((s.wakeAll .player_wait).goto i (.referee .leave)).mode k = .asleep c → s.mode k = .asleep c :=
    fun k c hk => (St.asleep_of_wakeAll hk).1
  have hok := h.ok i
  rw [hl] at hok
  refine h.next (i := i) (m := .referee .leave) rfl (by rw [hl]; rfl) id id (fun _ => hok (.inl rfl)) ?_ le_rfl (fun h1 h0 => absurd h0 h1)
    nofun (fun h1 h0 => absurd h0 h1) (by rw [hl]; exact nofun) trivial (fun j _ => h.knows j) ?_
    (h.referee_up_move (i := i) (m := .referee .leave) rfl hsub rfl (by rw [hl]; rfl))
    (h.home_up_move (i := i) (m := .referee .leave) rfl hsub rfl (by rw [hl]; exact nofun))
  · refine h.num.trans (count_same (i := i) (n := Loc.referee .leave) rfl ?_).symm
    rw [hl]
    rfl
  · rintro ⟨k, hk⟩
    exact absurd rfl (St.asleep_of_wakeAll hk).2

/-- **Step lemma**, the referee. -/
theorem Inv.referee_step {l : RefereeLoc} (h : Inv team s) (hmx : MutexInv (game ρ) inside s) (hm : s.mode i = .awake)
    (hl : s.loc i = .referee l) (he : Effect s i (referee (Fintype.card ρ) l) s') : Inv team s' := by
  have hsame : ∀ (j : Option ρ) (c : Cond), s.mode j = .asleep c → s.mode j = .asleep c := fun _ _ hj => hj
  have hok := h.ok i
  rw [hl] at hok
  cases l with
  | start =>
    obtain ⟨-, rfl⟩ := he
    exact h.referee_move hl rfl rfl hsame nofun nofun trivial nofun
  | test =>
    obtain rfl := he
    dsimp only
    by_cases hg : s.shared.num_players_arrived < Fintype.card ρ
    · rw [if_pos hg]
      exact h.referee_move hl rfl rfl hsame nofun nofun hg nofun
    · rw [if_neg hg]
      exact h.referee_move hl rfl rfl hsame nofun (fun _ => not_lt.mp hg) trivial nofun
  | sleep =>
    obtain ⟨-, rfl⟩ := he
    have hlt : s.shared.num_players_arrived < Fintype.card ρ := by
      have := h.knows i
      rw [hl] at this
      exact this
    have hmv : Inv team (s.goto i (.referee .test)) := h.referee_move hl rfl rfl hsame nofun nofun trivial nofun
    exact { hmv with
      players_up := fun ⟨j, hj⟩ => hmv.players_up ⟨j, St.asleep_of_sleep hj nofun⟩
      referee_up := fun _ => .inl hlt
      home_up := fun ⟨j, hj⟩ => hmv.home_up ⟨j, St.asleep_of_sleep hj nofun⟩ }
  | blow =>
    obtain rfl := he
    exact h.blow_step hl fun j hj x => knows_other hmx hm (by rw [hl]; rfl) hj x
  | announce =>
    obtain rfl := he
    exact h.referee_announce hl
  | leave =>
    obtain ⟨-, rfl⟩ := he
    exact h.referee_move hl rfl rfl hsame (fun _ => hok (.inr (.inl rfl))) nofun trivial nofun
  | playing =>
    obtain rfl := he
    exact h.referee_move hl rfl rfl hsame (fun _ => hok (.inr (.inr (.inl rfl)))) nofun trivial nofun
  | done => cases he

/-- **Run lemma.** -/
theorem reachable_inv (h : Reachable (game ρ) always start (startLoc team) s) : MutexInv (game ρ) inside s ∧ Inv team s := by
  refine h.program_inv (fun _ => body_typed _) (fun i => ?_) (initial_inv team) ?_ ?_
  · cases i with
    | none => rfl
    | some r => exact Team.inside_gate _ _
  · intro s t hI hsh hloc hm
    exact hI.wake hsh hloc hm
  · intro s a i s' hI hmx _ _ hm he
    cases hl : s.loc i with
    | home tid l =>
      rw [hl] at he
      exact hI.home_step hmx hm hl he
    | away l =>
      rw [hl] at he
      exact hI.away_step hmx hm hl he
    | referee l =>
      rw [hl] at he
      exact hI.referee_step hmx hm hl he

/-- **The rules of the game.**  For any number of players, split between the teams in any way with a home player of `tid` 0: in every
reachable state in which the whistle has been blown, or the referee is about to, all players have arrived; a player that plays plays
after the whistle; a home player that leaves does so after the interview of the star player; and it never happens that all unfinished
threads sleep. -/
theorem game_rules (team : ρ → Team) (hstar : ∃ r, team r = .home 0) (s : State ρ)
    (h : Reachable (game ρ) always start (startLoc team) s) :
    (s.shared.whistle_blown ≠ 0 ∨ s.loc none = .referee .blow → ∀ r, arrived (s.loc (some r)) = true) ∧
      (∀ i, started (s.loc i) = true → s.shared.whistle_blown ≠ 0) ∧
      (∀ i tid l, s.loc i = .home tid l → l.leaves = true →
        s.shared.interview_over ≠ 0 ∧ ∃ j l', s.loc j = .home 0 l' ∧ l'.interviewed = true) ∧
      ¬ Deadlock (game ρ) s := by
  obtain ⟨hmx, hI⟩ := reachable_inv h
  refine ⟨fun hb => ?_, fun i hi => ?_, fun i tid l hl hv => ?_, hI.no_deadlock hmx hstar⟩
  · refine (count_some_eq_card hI.arrived_none).mp ?_
    rw [← hI.num]
    rcases hb with hb | hb
    · exact hI.whistle hb
    · exact hI.blow none hb
  · have hok := hI.ok i
    cases hl : s.loc i with
    | home tid l =>
      rw [hl] at hok hi
      exact hok.1 hi
    | away l =>
      rw [hl] at hok hi
      exact hok hi
    | referee l =>
      rw [hl] at hi
      cases hi
  · have hok := hI.ok i
    rw [hl] at hok
    have hover : s.shared.interview_over ≠ 0 := by
      refine hok.2.1 ?_
      cases l with
      | leave | done => rfl
      | _ => cases hv
    exact ⟨hover, hI.star hover⟩

end

/-- The star player, another home player and an away player. -/
def threePlayers : Fin 3 → Team
  | 0 => .home 0
  | 1 => .home 1
  | 2 => .away

/-- The other home player sleeps until the interview. -/
theorem game_rules_run : ∃ s : State (Fin 3), Reachable (game (Fin 3)) always start (startLoc threePlayers) s ∧
    s.mode (some 1) = .asleep .interview ∧ s.shared.whistle_blown ≠ 0 ∧ ¬ Deadlock (game (Fin 3)) s := by
  obtain ⟨s, hr, hm, hs⟩ := exists_reachable (P := game (Fin 3)) always start (startLoc threePlayers)
    ([.exec none, .exec none, .exec none] ++ List.replicate 4 (.exec (some 0)) ++ List.replicate 4 (.exec (some 1)) ++
      [.exec (some 2), .exec (some 2), .signal (some 2) none, .exec (some 2), .exec (some 2)] ++
      [.relock none] ++ List.replicate 4 (.exec none) ++ [.relock (some 1)] ++ List.replicate 6 (.exec (some 1)))
    (fun s => s.mode (some 1) = .asleep .interview ∧ started (s.loc (some 1)) = true) (by decide +kernel)
  obtain ⟨-, hplay, -, hd⟩ := game_rules threePlayers ⟨0, rfl⟩ s hr
  exact ⟨s, hr, hm, hplay (some 1) hs, hd⟩

end OsLabs.SampleExam2.Game
