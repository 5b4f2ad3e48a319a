import OsLabs.Monitor
import OsLabs.Rounds

/-!
# OsLabs.CondvarChallenge.Band — drummers, singers and guitarists

`band.c`: friends arrive at any time; a friend starts to play when a friend of each kind is there and none of its own kind plays.  `waiting`
counts who has arrived and has not finished, `working` who plays, and `band_members` all players.  These and `use` are read and
written with the mutex held only; the messages are printed outside, so printing is a step of its own.

* `friend`: the body; `log`: what was printed.
* `Counts`: what the variables count.
* `InTurn`: a friend starts only when its kind has not finished more often than another.  `in_turn_rounds`: then the messages come in
  rounds.  `same_kind_twice`: a run in which a drummer starts while singer and guitarist of the last band still play.
-/

namespace OsLabs.CondvarChallenge.Band

open Lts Monitor

inductive Kind
  | DRUM | SING | GUIT
deriving DecidableEq

instance : Fintype Kind := ⟨{.DRUM, .SING, .GUIT}, fun k => by cases k <;> decide⟩

/-- The messages about playing. -/
inductive Event
  | playing (kind : Kind)
  | finished (kind : Kind)
deriving DecidableEq

structure Shared where
  waiting : Kind → ℤ
  working : Kind → ℤ
  use : Bool
  band_members : ℤ
  /-- What was printed, the newest message last. -/
  log : List Event

inductive Loc
  | start | arrive | test | sleep | announce | entered | started | playing | stopped | finish | announceEnd | leave | done
deriving DecidableEq

/-- The condition of the loop around the wait.  `!waiting[DRUM] > 0` is `(!waiting[DRUM]) > 0`. -/
def blocked (x : Shared) (kind : Kind) : Prop :=
  x.waiting .DRUM = 0 ∨ x.waiting .SING = 0 ∨ x.waiting .GUIT = 0 ∨ x.working kind ≠ 0

instance (x : Shared) (kind : Kind) : Decidable (blocked x kind) := inferInstanceAs (Decidable (_ ∨ _))

/-- The variables after a friend has joined the band. -/
def join (x : Shared) (kind : Kind) : Shared :=
  { x with working := Function.update x.working kind (x.working kind + 1), band_members := x.band_members + 1 }

/-- The variables after a friend has left the band. -/
def quit (x : Shared) (kind : Kind) : Shared :=
  { x with
    working := Function.update x.working kind (x.working kind - 1)
    waiting := Function.update x.waiting kind (x.waiting kind - 1)
    band_members := x.band_members - 1 }

/-- The body of a friend. -/
def friend (kind : Kind) : Loc → Instr Shared Unit Loc
  | .start => .lock .arrive
  | .arrive => .run fun x => ({ x with waiting := Function.update x.waiting kind (x.waiting kind + 1) }, .test)
  | .test => .run fun x =>
    if blocked x kind then (x, .sleep)
    else if x.use = false then ({ join x kind with use := true }, .announce)
    else (join x kind, .entered)
  | .sleep => .wait () .test
  | .announce => .broadcast () .entered
  | .entered => .unlock .started
  | .started => .run fun x => ({ x with log := x.log ++ [.playing kind] }, .playing)
  | .playing => .run fun x => ({ x with log := x.log ++ [.finished kind] }, .stopped)
  | .stopped => .lock .finish
  | .finish => .run fun x =>
    if x.band_members - 1 = 0 then ({ quit x kind with use := false }, .announceEnd) else (quit x kind, .leave)
  | .announceEnd => .broadcast () .leave
  | .leave => .unlock .done
  | .done => .halt

/-- The friends that `main` creates, of any kinds. -/
def friends {τ : Type} (kind : τ → Kind) (i : τ) : Loc → Instr Shared Unit Loc := friend (kind i)

def start : Shared := ⟨fun _ => 0, fun _ => 0, false, 0, []⟩

abbrev State (τ : Type) := St τ Shared Unit Loc

/-- How far a friend has come. -/
def stage : Loc → ℕ
  | .start => 0
  | .arrive => 1
  | .test | .sleep => 2
  | .announce => 3
  | .entered => 4
  | .started => 5
  | .playing => 6
  | .stopped => 7
  | .finish => 8
  | .announceEnd => 9
  | .leave => 10
  | .done => 11

/-- Arrived and not finished: in `waiting`. -/
def present (l : Loc) : Bool := decide (2 ≤ stage l) && decide (stage l ≤ 8)

/-- In the band: in `working` and `band_members`. -/
def inBand (l : Loc) : Bool := decide (3 ≤ stage l) && decide (stage l ≤ 8)

/-- Has been let into a band. -/
def hasEntered (l : Loc) : Bool := decide (3 ≤ stage l)

/-- Has printed that it plays. -/
def hasStarted (l : Loc) : Bool := decide (6 ≤ stage l)

/-- Has printed that it finished. -/
def hasStopped (l : Loc) : Bool := decide (7 ≤ stage l)

/-- Has left its band. -/
def hasFinished (l : Loc) : Bool := decide (9 ≤ stage l)

def inside : Loc → Bool
  | .start | .started | .playing | .stopped | .done => false
  | _ => true

theorem friend_typed (kind : Kind) (l : Loc) : Typed inside (friend kind l) l := by
  cases l with
  | test =>
    intro x
    dsimp only
    split_ifs <;> rfl
  | finish =>
    intro x
    dsimp only
    split_ifs <;> rfl
  | arrive | started | playing =>
    intro x
    rfl
  | start | sleep | announce | entered | stopped | announceEnd | leave => exact ⟨rfl, rfl⟩
  | done => rfl

theorem friend_wait {kind : Kind} {l n : Loc} {c : Unit} (h : friend kind l = .wait c n) : n = .test := by
  cases l with
  | sleep => exact (Instr.wait.inj h).2.symm
  | _ => cases h

theorem friend_isHalt {kind : Kind} {l : Loc} (h : l ≠ .done) : (friend kind l).isHalt = false := by
  cases l with
  | done => exact absurd rfl h
  | _ => rfl

/-- Who is kept back misses a kind, or its own kind plays. -/
theorem blocked_iff {x : Shared} {kind : Kind} : blocked x kind ↔ (∃ k, x.waiting k = 0) ∨ x.working kind ≠ 0 := by
  constructor
  · rintro (h | h | h | h)
    · exact .inl ⟨_, h⟩
    · exact .inl ⟨_, h⟩
    · exact .inl ⟨_, h⟩
    · exact .inr h
  · rintro (⟨k, h⟩ | h)
    · cases k with
      | DRUM => exact .inl h
      | SING => exact .inr (.inl h)
      | GUIT => exact .inr (.inr (.inl h))
    · exact .inr (.inr (.inr h))

/-! ## What the variables count -/

section

variable {τ : Type} {kind : τ → Kind} {s s' t : State τ} {i j : τ}

theorem friends_typed (i : τ) (l : Loc) : Typed inside (friends kind i l) l := friend_typed _ l

/-- While `i` runs inside, nobody else is inside but at the test. -/
theorem alone (hmx : MutexInv (friends kind) inside s) (hm : s.mode i = .awake) (hl : inside (s.loc i) = true)
    (hj : inside (s.loc j) = true) (hw : s.loc j ≠ .test) : j = i :=
  hmx.alone hm hl hj fun _ _ hc => hw (friend_wait hc)

variable [Fintype τ]

structure Counts (kind : τ → Kind) (s : State τ) : Prop where
  waiting : ∀ k, s.shared.waiting k = countOf kind k present s
  working : ∀ k, s.shared.working k = countOf kind k inBand s
  members : s.shared.band_members = count (fun _ => inBand) s
  playing : ∀ k, (s.shared.log.count (.playing k) : ℤ) = countOf kind k hasStarted s
  finished : ∀ k, (s.shared.log.count (.finished k) : ℤ) = countOf kind k hasStopped s

theorem initial_counts : Counts kind (initial start fun _ => .start : State τ) := by
  constructor
  · intro k
    exact (countOf_eq_zero fun i => rfl).symm
  · intro k
    exact (countOf_eq_zero fun i => rfl).symm
  · exact (count_eq_zero.mpr fun i => rfl).symm
  · intro k
    exact (countOf_eq_zero fun i => rfl).symm
  · intro k
    exact (countOf_eq_zero fun i => rfl).symm

theorem Counts.congr (h : Counts kind s) (hsh : t.shared = s.shared) (hst : ∀ i, stage (t.loc i) = stage (s.loc i)) :
    Counts kind t := by
  constructor
  · intro k
    rw [hsh, h.waiting k]
    exact (countOf_congr fun i => by rw [present, hst i]; rfl).symm
  · intro k
    rw [hsh, h.working k]
    exact (countOf_congr fun i => by rw [inBand, hst i]; rfl).symm
  · rw [hsh, h.members]
    exact (count_congr fun i => by rw [inBand, hst i]; rfl).symm
  · intro k
    rw [hsh, h.playing k]
    exact (countOf_congr fun i => by rw [hasStarted, hst i]; rfl).symm
  · intro k
    rw [hsh, h.finished k]
    exact (countOf_congr fun i => by rw [hasStopped, hst i]; rfl).symm

/-- Somebody in the band makes `working` positive for its kind. -/
theorem Counts.working_pos (h : Counts kind s) (hi : inBand (s.loc i) = true) : 0 < s.shared.working (kind i) := by
  rw [h.working]
  exact countOf_pos hi

theorem Counts.exists_of_working (h : Counts kind s) {k : Kind} (hk : s.shared.working k ≠ 0) :
    ∃ j, inBand (s.loc j) = true ∧ kind j = k := by
  rw [h.working k] at hk
  have := countOf_nonneg kind k inBand s
  exact exists_of_countOf_pos (by omega)

variable [DecidableEq τ]

/-- **One thread moves** from `s.loc i` to `n`, and the variables follow. -/
theorem Counts.delta {n : Loc} (h : Counts kind s) (hloc : t.loc = (s.goto i n).loc)
    (hwt : ∀ k, t.shared.waiting k = s.shared.waiting k +
      if k = kind i then (if present n then 1 else 0) - (if present (s.loc i) then 1 else 0) else 0)
    (hwk : ∀ k, t.shared.working k = s.shared.working k +
      if k = kind i then (if inBand n then 1 else 0) - (if inBand (s.loc i) then 1 else 0) else 0)
    (hbm : t.shared.band_members + (if inBand (s.loc i) then 1 else 0) = s.shared.band_members + if inBand n then 1 else 0)
    (hpl : ∀ k, (t.shared.log.count (.playing k) : ℤ) = s.shared.log.count (.playing k) +
      if k = kind i then (if hasStarted n then 1 else 0) - (if hasStarted (s.loc i) then 1 else 0) else 0)
    (hfi : ∀ k, (t.shared.log.count (.finished k) : ℤ) = s.shared.log.count (.finished k) +
      if k = kind i then (if hasStopped n then 1 else 0) - (if hasStopped (s.loc i) then 1 else 0) else 0) :
    Counts kind t := by
  constructor
  · intro k
    rw [hwt k, h.waiting k, countOf_delta hloc]
  · intro k
    rw [hwk k, h.working k, countOf_delta hloc]
  · have hm := count_move (fun _ => inBand) hloc
    have h0 := h.members
    omega
  · intro k
    rw [hpl k, h.playing k, countOf_delta hloc]
  · intro k
    rw [hfi k, h.finished k, countOf_delta hloc]

/-- A step that changes no variable that counts, and nothing that is counted. -/
theorem Counts.move {n : Loc} (h : Counts kind s) (hloc : t.loc = (s.goto i n).loc) (hsh : t.shared = s.shared)
    (hp : present n = present (s.loc i)) (hb : inBand n = inBand (s.loc i)) (hst : hasStarted n = hasStarted (s.loc i))
    (hsp : hasStopped n = hasStopped (s.loc i)) : Counts kind t := by
  refine h.delta hloc (fun k => ?_) (fun k => ?_) ?_ (fun k => ?_) (fun k => ?_)
  · simp [hsh, hp]
  · simp [hsh, hb]
  · simp [hsh, hb]
  · simp [hsh, hst]
  · simp [hsh, hsp]

/-- A friend joins the band. -/
theorem Counts.join {n : Loc} {x : Shared} (h : Counts kind s) (hl : s.loc i = .test) (hn : n = .announce ∨ n = .entered)
    (hx1 : x.waiting = s.shared.waiting) (hx2 : x.working = (join s.shared (kind i)).working)
    (hx3 : x.band_members = s.shared.band_members + 1) (hx4 : x.log = s.shared.log) : Counts kind (s.assign i n x) := by
  have hp : present n = true ∧ inBand n = true ∧ hasStarted n = false ∧ hasStopped n = false := by
    rcases hn with rfl | rfl <;> decide
  obtain ⟨hp, hb, hst, hsp⟩ := hp
  refine h.delta (i := i) (n := n) rfl (fun k => ?_) (fun k => ?_) ?_ (fun k => ?_) (fun k => ?_) <;> rw [hl]
  · rw [St.assign_shared, hx1, hp]
    simp [present, stage]
  · rw [St.assign_shared, hx2, hb]
    show Function.update s.shared.working (kind i) (s.shared.working (kind i) + 1) k = _
    rw [Function.update_apply]
    by_cases hk : k = kind i
    · simp [hk, inBand, stage]
    · simp [hk]
  · rw [St.assign_shared, hx3, hb]
    simp [inBand, stage]
  · rw [St.assign_shared, hx4, hst]
    simp [hasStarted, stage]
  · rw [St.assign_shared, hx4, hsp]
    simp [hasStopped, stage]

/-- A friend leaves the band. -/
theorem Counts.quit {n : Loc} {x : Shared} (h : Counts kind s) (hl : s.loc i = .finish) (hn : n = .announceEnd ∨ n = .leave)
    (hx1 : x.waiting = (quit s.shared (kind i)).waiting) (hx2 : x.working = (quit s.shared (kind i)).working)
    (hx3 : x.band_members = s.shared.band_members - 1) (hx4 : x.log = s.shared.log) : Counts kind (s.assign i n x) := by
  have hp : present n = false ∧ inBand n = false ∧ hasStarted n = true ∧ hasStopped n = true := by
    rcases hn with rfl | rfl <;> decide
  obtain ⟨hp, hb, hst, hsp⟩ := hp
  refine h.delta (i := i) (n := n) rfl (fun k => ?_) (fun k => ?_) ?_ (fun k => ?_) (fun k => ?_) <;> rw [hl]
  · rw [St.assign_shared, hx1, hp]
    show Function.update s.shared.waiting (kind i) (s.shared.waiting (kind i) - 1) k = _
    rw [Function.update_apply]
    by_cases hk : k = kind i
    · simp [hk, present, stage]
      omega
    · simp [hk]
  · rw [St.assign_shared, hx2, hb]
    show Function.update s.shared.working (kind i) (s.shared.working (kind i) - 1) k = _
    rw [Function.update_apply]
    by_cases hk : k = kind i
    · simp [hk, inBand, stage]
      omega
    · simp [hk]
  · rw [St.assign_shared, hx3, hb]
    simp [inBand, stage]
  · rw [St.assign_shared, hx4, hst]
    simp [hasStarted, stage]
  · rw [St.assign_shared, hx4, hsp]
    simp [hasStopped, stage]

/-- **Step lemma** for the counts. -/
theorem Counts.step (h : Counts kind s) (he : Effect s i (friends kind i (s.loc i)) s') : Counts kind s' := by
  cases hl : s.loc i with
  | start =>
    rw [hl] at he
    obtain ⟨-, rfl⟩ := he
    exact h.move (i := i) (n := .arrive) rfl rfl (by rw [hl]; rfl) (by rw [hl]; rfl) (by rw [hl]; rfl) (by rw [hl]; rfl)
  | arrive =>
    rw [hl] at he
    obtain rfl := he
    refine h.delta (i := i) (n := .test) rfl (fun k => ?_) (fun k => ?_) ?_ (fun k => ?_) (fun k => ?_) <;> rw [hl]
    · show Function.update s.shared.waiting (kind i) (s.shared.waiting (kind i) + 1) k = _
      rw [Function.update_apply]
      by_cases hk : k = kind i
      · simp [hk, present, stage]
      · simp [hk]
    · simp [inBand, stage]
    · simp [inBand, stage]
    · simp [hasStarted, stage]
    · simp [hasStopped, stage]
  | test =>
    rw [hl] at he
    obtain rfl := he
    by_cases hb : blocked s.shared (kind i)
    · simp only [if_pos hb]
      exact h.move (i := i) (n := .sleep) rfl rfl (by rw [hl]; rfl) (by rw [hl]; rfl) (by rw [hl]; rfl) (by rw [hl]; rfl)
    · simp only [if_neg hb]
      by_cases hu : s.shared.use = false
      · simp only [if_pos hu]
        exact h.join hl (.inl rfl) rfl rfl rfl rfl
      · simp only [if_neg hu]
        exact h.join hl (.inr rfl) rfl rfl rfl rfl
  | sleep =>
    rw [hl] at he
    obtain ⟨-, rfl⟩ := he
    exact h.move (i := i) (n := .test) rfl rfl (by rw [hl]; rfl) (by rw [hl]; rfl) (by rw [hl]; rfl) (by rw [hl]; rfl)
  | announce =>
    rw [hl] at he
    obtain rfl := he
    exact h.move (i := i) (n := .entered) rfl rfl (by rw [hl]; rfl) (by rw [hl]; rfl) (by rw [hl]; rfl) (by rw [hl]; rfl)
  | entered =>
    rw [hl] at he
    obtain ⟨-, rfl⟩ := he
    exact h.move (i := i) (n := .started) rfl rfl (by rw [hl]; rfl) (by rw [hl]; rfl) (by rw [hl]; rfl) (by rw [hl]; rfl)
  | started =>
    rw [hl] at he
    obtain rfl := he
    refine h.delta (i := i) (n := .playing) rfl (fun k => ?_) (fun k => ?_) ?_ (fun k => ?_) (fun k => ?_) <;> rw [hl]
    · simp [present, stage]
    · simp [inBand, stage]
    · simp [inBand, stage]
    · show ((s.shared.log ++ [Event.playing (kind i)]).count (.playing k) : ℤ) = _
      rw [List.count_append, List.count_singleton]
      by_cases hk : k = kind i
      · simp [hk, hasStarted, stage]
      · simp [hk, Ne.symm hk]
    · show ((s.shared.log ++ [Event.playing (kind i)]).count (.finished k) : ℤ) = _
      simp [hasStopped, stage]
  | playing =>
    rw [hl] at he
    obtain rfl := he
    refine h.delta (i := i) (n := .stopped) rfl (fun k => ?_) (fun k => ?_) ?_ (fun k => ?_) (fun k => ?_) <;> rw [hl]
    · simp [present, stage]
    · simp [inBand, stage]
    · simp [inBand, stage]
    · show ((s.shared.log ++ [Event.finished (kind i)]).count (.playing k) : ℤ) = _
      simp [hasStarted, stage]
    · show ((s.shared.log ++ [Event.finished (kind i)]).count (.finished k) : ℤ) = _
      rw [List.count_append, List.count_singleton]
      by_cases hk : k = kind i
      · simp [hk, hasStopped, stage]
      · simp [hk, Ne.symm hk]
  | stopped =>
    rw [hl] at he
    obtain ⟨-, rfl⟩ := he
    exact h.move (i := i) (n := .finish) rfl rfl (by rw [hl]; rfl) (by rw [hl]; rfl) (by rw [hl]; rfl) (by rw [hl]; rfl)
  | finish =>
    rw [hl] at he
    obtain rfl := he
    by_cases h0 : s.shared.band_members - 1 = 0
    · simp only [if_pos h0]
      exact h.quit hl (.inl rfl) rfl rfl rfl rfl
    · simp only [if_neg h0]
      exact h.quit hl (.inr rfl) rfl rfl rfl rfl
  | announceEnd =>
    rw [hl] at he
    obtain rfl := he
    exact h.move (i := i) (n := .leave) rfl rfl (by rw [hl]; rfl) (by rw [hl]; rfl) (by rw [hl]; rfl) (by rw [hl]; rfl)
  | leave =>
    rw [hl] at he
    obtain ⟨-, rfl⟩ := he
    exact h.move (i := i) (n := .done) rfl rfl (by rw [hl]; rfl) (by rw [hl]; rfl) (by rw [hl]; rfl) (by rw [hl]; rfl)
  | done =>
    rw [hl] at he
    cases he

end

/-! ## Rounds -/

section

variable {τ : Type} {kind : τ → Kind} {s s' t : State τ} {i j : τ}

/-- **In turn.**  Whoever passes the test on entering is of a kind that has not finished more often than another kind. -/
def InTurn (kind : τ → Kind) (s : State τ) : Act τ → Prop
  | .exec i | .signal i _ => s.loc i = .test → ¬ blocked s.shared (kind i) →
    ∀ k, s.shared.log.count (.finished (kind i)) ≤ s.shared.log.count (.finished k)
  | .spurious _ | .relock _ => True

instance (kind : τ → Kind) (s : State τ) (a : Act τ) : Decidable (InTurn kind s a) :=
  match a with
  | .exec _ => inferInstanceAs (Decidable (_ → _ → ∀ _, _))
  | .signal _ _ => inferInstanceAs (Decidable (_ → _ → ∀ _, _))
  | .spurious _ => .isTrue trivial
  | .relock _ => .isTrue trivial

variable [Fintype τ]

/-- No kind is more than one band ahead of what all have finished; so the messages come in rounds. -/
structure Turns (kind : τ → Kind) (s : State τ) : Prop where
  ahead : ∀ k m, countOf kind k hasEntered s ≤ countOf kind m hasStopped s + 1
  rounds : Rounds s.shared.log

theorem initial_turns : Turns kind (initial start fun _ => .start : State τ) := by
  refine ⟨fun k m => ?_, Rounds.nil⟩
  have h1 : countOf kind k hasEntered (initial start fun _ => .start : State τ) = 0 := countOf_eq_zero fun _ => rfl
  have h2 := countOf_nonneg kind m hasStopped (initial start fun _ => .start : State τ)
  omega

theorem Turns.congr (h : Turns kind s) (hsh : t.shared = s.shared) (hloc : t.loc = s.loc) : Turns kind t := by
  refine ⟨fun k m => ?_, by rw [hsh]; exact h.rounds⟩
  have h1 : countOf kind k hasEntered t = countOf kind k hasEntered s := countOf_congr fun i => by rw [hloc]
  have h2 : countOf kind m hasStopped t = countOf kind m hasStopped s := countOf_congr fun i => by rw [hloc]
  rw [h1, h2]
  exact h.ahead k m

theorem hasStarted_of_hasStopped {l : Loc} (h : hasStopped l = true) : hasStarted l = true := by
  simp only [hasStopped, hasStarted, decide_eq_true_eq] at h ⊢
  omega

theorem hasEntered_of_hasStarted {l : Loc} (h : hasStarted l = true) : hasEntered l = true := by
  simp only [hasStarted, hasEntered, decide_eq_true_eq] at h ⊢
  omega

/-- Of a kind that does not play, all who have entered have stopped. -/
theorem Counts.entered_eq_stopped (h : Counts kind s) {k : Kind} (hk : s.shared.working k = 0) :
    countOf kind k hasEntered s = countOf kind k hasStopped s := by
  refine countOf_eq fun i hi => ?_
  by_contra hne
  have hb : inBand (s.loc i) = true := by
    simp only [hasEntered, hasStopped, inBand, Bool.and_eq_true, decide_eq_true_eq] at hne ⊢
    by_cases h3 : 3 ≤ stage (s.loc i)
    · refine ⟨h3, ?_⟩
      by_contra h8
      exact hne (by simp [h3, show 7 ≤ stage (s.loc i) by omega])
    · exact (hne (by simp [h3, show ¬ 7 ≤ stage (s.loc i) by omega])).elim
  have := h.working_pos hb
  rw [hi, hk] at this
  omega

/-- Every message that is counted less often than each kind has finished may come next. -/
theorem Turns.print {e : Event} (h : Turns kind s) (hc : Counts kind s)
    (he : ∀ m, (s.shared.log.count e : ℤ) ≤ countOf kind m hasStopped s) : Rounds (s.shared.log ++ [e]) := by
  refine h.rounds.snoc fun d => ?_
  cases d with
  | finished m =>
    have h1 := he m
    rw [← hc.finished m] at h1
    omega
  | playing m =>
    have h1 := he m
    have h2 : countOf kind m hasStopped s ≤ countOf kind m hasStarted s := countOf_le fun l => hasStarted_of_hasStopped
    rw [← hc.playing m] at h2
    omega

variable [DecidableEq τ]

/-- A step that lets nobody in. -/
theorem Turns.print_move {n : Loc} (h : Turns kind s) (hloc : t.loc = (s.goto i n).loc) (hr : Rounds t.shared.log)
    (hen : hasEntered n = hasEntered (s.loc i)) (hst : hasStopped (s.loc i) = true → hasStopped n = true) : Turns kind t := by
  refine ⟨fun k m => ?_, hr⟩
  have h1 := h.ahead k m
  have h2 := countOf_delta (g := kind) (k := m) (p := hasStopped) hloc
  rw [countOf_same hloc hen]
  by_cases hs : hasStopped (s.loc i) = true
  · rw [if_pos (hst hs), if_pos hs] at h2
    split_ifs at h2 <;> omega
  · rw [if_neg hs] at h2
    split_ifs at h2 <;> omega

/-- A step that lets nobody in and prints nothing. -/
theorem Turns.move {n : Loc} (h : Turns kind s) (hloc : t.loc = (s.goto i n).loc) (hlog : t.shared.log = s.shared.log)
    (hen : hasEntered n = hasEntered (s.loc i)) (hst : hasStopped n = hasStopped (s.loc i)) : Turns kind t :=
  h.print_move hloc (by rw [hlog]; exact h.rounds) hen fun hs => hst.trans hs

/-- **Step lemma.** -/
theorem Turns.step {a : Act τ} (h : Turns kind s) (hc : Counts kind s) (hok : InTurn kind s a)
    (ha : a = .exec i ∨ ∃ j, a = .signal i j) (he : Effect s i (friends kind i (s.loc i)) s') : Turns kind s' := by
  cases hl : s.loc i with
  | start =>
    rw [hl] at he
    obtain ⟨-, rfl⟩ := he
    exact h.move (i := i) (n := .arrive) rfl rfl (by rw [hl]; rfl) (by rw [hl]; rfl)
  | arrive =>
    rw [hl] at he
    obtain rfl := he
    exact h.move (i := i) (n := .test) rfl rfl (by rw [hl]; rfl) (by rw [hl]; rfl)
  | test =>
    rw [hl] at he
    obtain rfl := he
    by_cases hb : blocked s.shared (kind i)
    · simp only [if_pos hb]
      exact h.move (i := i) (n := .sleep) rfl rfl (by rw [hl]; rfl) (by rw [hl]; rfl)
    · simp only [if_neg hb]
      -- its kind does not play, so it has entered as often as it has finished
      have hw : s.shared.working (kind i) = 0 := by
        by_contra hne
        exact hb (blocked_iff.mpr (.inr hne))
      have heq := hc.entered_eq_stopped hw
      have hturn : ∀ m, countOf kind (kind i) hasStopped s ≤ countOf kind m hasStopped s := by
        intro m
        have hle : s.shared.log.count (.finished (kind i)) ≤ s.shared.log.count (.finished m) := by
          rcases ha with rfl | ⟨j, rfl⟩
          · exact hok hl hb m
          · exact hok hl hb m
        rw [← hc.finished, ← hc.finished]
        exact_mod_cast hle
      have hjoin : ∀ {n : Loc} {x : Shared}, hasEntered n = true → hasStopped n = false → x.log = s.shared.log →
          Turns kind (s.assign i n x) := by
        intro n x hn hn' hx
        refine ⟨fun k m => ?_, by rw [St.assign_shared, hx]; exact h.rounds⟩
        have h1 := countOf_enter (g := kind) (k := k) (p := hasEntered) (t := s.assign i n x) (s := s) (i := i) (n := n)
          rfl (by rw [hl]; rfl) hn
        have h2 := countOf_same (g := kind) (k := m) (p := hasStopped) (t := s.assign i n x) (s := s) (i := i) (n := n)
          rfl (by rw [hn', hl]; rfl)
        rw [h1, h2]
        split_ifs with hk
        · have := hturn m
          rw [hk, heq]
          omega
        · have := h.ahead k m
          omega
      by_cases hu : s.shared.use = false
      · simp only [if_pos hu]
        exact hjoin rfl rfl rfl
      · simp only [if_neg hu]
        exact hjoin rfl rfl rfl
  | sleep =>
    rw [hl] at he
    obtain ⟨-, rfl⟩ := he
    exact h.move (i := i) (n := .test) rfl rfl (by rw [hl]; rfl) (by rw [hl]; rfl)
  | announce =>
    rw [hl] at he
    obtain rfl := he
    exact h.move (i := i) (n := .entered) rfl rfl (by rw [hl]; rfl) (by rw [hl]; rfl)
  | entered =>
    rw [hl] at he
    obtain ⟨-, rfl⟩ := he
    exact h.move (i := i) (n := .started) rfl rfl (by rw [hl]; rfl) (by rw [hl]; rfl)
  | started =>
    rw [hl] at he
    obtain rfl := he
    have hpr : Rounds (s.shared.log ++ [.playing (kind i)]) := by
      refine h.print hc fun m => ?_
      have h1 : countOf kind (kind i) hasStarted s < countOf kind (kind i) hasEntered s :=
        countOf_lt (fun l => hasEntered_of_hasStarted) (by rw [hl]; rfl) (by rw [hl]; rfl)
      have h2 := h.ahead (kind i) m
      rw [hc.playing]
      omega
    exact h.print_move (i := i) (n := .playing) rfl hpr (by rw [hl]; rfl) (by rw [hl]; simp [hasStopped, stage])
  | playing =>
    rw [hl] at he
    obtain rfl := he
    have hpr : Rounds (s.shared.log ++ [.finished (kind i)]) := by
      refine h.print hc fun m => ?_
      have h1 : countOf kind (kind i) hasStopped s < countOf kind (kind i) hasEntered s :=
        countOf_lt (fun l hs => hasEntered_of_hasStarted (hasStarted_of_hasStopped hs)) (by rw [hl]; rfl) (by rw [hl]; rfl)
      have h2 := h.ahead (kind i) m
      rw [hc.finished]
      omega
    exact h.print_move (i := i) (n := .stopped) rfl hpr (by rw [hl]; rfl) fun _ => rfl
  | stopped =>
    rw [hl] at he
    obtain ⟨-, rfl⟩ := he
    exact h.move (i := i) (n := .finish) rfl rfl (by rw [hl]; rfl) (by rw [hl]; rfl)
  | finish =>
    rw [hl] at he
    obtain rfl := he
    by_cases h0 : s.shared.band_members - 1 = 0
    · simp only [if_pos h0]
      exact h.move (i := i) (n := .announceEnd) rfl rfl (by rw [hl]; rfl) (by rw [hl]; rfl)
    · simp only [if_neg h0]
      exact h.move (i := i) (n := .leave) rfl rfl (by rw [hl]; rfl) (by rw [hl]; rfl)
  | announceEnd =>
    rw [hl] at he
    obtain rfl := he
    exact h.move (i := i) (n := .leave) rfl rfl (by rw [hl]; rfl) (by rw [hl]; rfl)
  | leave =>
    rw [hl] at he
    obtain ⟨-, rfl⟩ := he
    exact h.move (i := i) (n := .done) rfl rfl (by rw [hl]; rfl) (by rw [hl]; rfl)
  | done =>
    rw [hl] at he
    cases he

/-- **One band at a time.**  In every run in which each friend enters in turn, the messages come in rounds: each contains one start and
one finish of each kind, and a new round begins when the last one is complete. -/
theorem in_turn_rounds (kind : τ → Kind) (s : State τ)
    (h : Reachable (friends kind) (InTurn kind) start (fun _ => .start) s) : Rounds s.shared.log := by
  have hI := h.program_inv (I := fun s => Counts kind s ∧ Turns kind s) friends_typed (fun _ => rfl)
    ⟨initial_counts, initial_turns⟩ ?_ ?_
  · exact hI.2.2.rounds
  · rintro s t ⟨hc, hT⟩ hsh hloc -
    exact ⟨hc.congr hsh fun i => by rw [hloc], hT.congr hsh hloc⟩
  · rintro s a i s' ⟨hc, hT⟩ - hok ha - he
    exact ⟨hc.step he, hT.step hc hok ha he⟩

end

/-- A drummer, a singer, a guitarist, and a second drummer. -/
def quartet : Fin 4 → Kind
  | 0 => .DRUM
  | 1 => .SING
  | 2 => .GUIT
  | 3 => .DRUM

/-- The first three play one band, while the second drummer waits. -/
theorem in_turn_rounds_run : ∃ s : State (Fin 4),
    Reachable (friends quartet) (InTurn quartet) start (fun _ => .start) s ∧ s.shared.log.length = 6 ∧ Rounds s.shared.log := by
  obtain ⟨s, hr, hl⟩ := exists_reachable (P := friends quartet) (InTurn quartet) start (fun _ => .start)
    [.exec 0, .exec 0, .exec 0, .exec 0, .exec 1, .exec 1, .exec 1, .exec 1,
      .exec 2, .exec 2, .exec 2, .exec 2, .exec 2, .exec 2, .relock 0, .exec 0, .exec 0, .exec 0, .relock 1, .exec 1,
      .exec 1, .exec 1, .exec 3, .exec 3, .exec 3, .exec 3, .exec 0, .exec 1, .exec 2]
    (fun s => s.shared.log.length = 6) (by decide +kernel)
  exact ⟨s, hr, hl, in_turn_rounds quartet s hr⟩

/-- **The same kind twice in one band.**  The three friends play; the drummer finishes; the second drummer arrives, finds a friend of
each kind in `waiting` and no drummer in `working`, and starts while singer and guitarist still play. -/
theorem same_kind_twice : ∃ s : State (Fin 4),
    Reachable (friends quartet) always start (fun _ => .start) s ∧ ¬ Rounds s.shared.log := by
  obtain ⟨s, hr, hp, hf⟩ := exists_reachable (P := friends quartet) always start (fun _ => .start)
    [.exec 0, .exec 0, .exec 0, .exec 0, .exec 1, .exec 1, .exec 1, .exec 1,
      .exec 2, .exec 2, .exec 2, .exec 2, .exec 2, .exec 2, .relock 0, .exec 0, .exec 0, .exec 0, .relock 1, .exec 1,
      .exec 1, .exec 1, .exec 0, .exec 0, .exec 0, .exec 0, .exec 3, .exec 3, .exec 3, .exec 3, .exec 3]
    (fun s => 2 ≤ s.shared.log.count (.playing .DRUM) ∧ s.shared.log.count (.finished .SING) = 0) (by decide +kernel)
  exact ⟨s, hr, not_rounds hp hf⟩

end OsLabs.CondvarChallenge.Band
