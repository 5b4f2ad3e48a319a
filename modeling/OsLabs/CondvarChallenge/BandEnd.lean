import OsLabs.Rank
import OsLabs.CondvarChallenge.Band

/-!
# OsLabs.CondvarChallenge.BandEnd — how the runs of the band end

A friend that finishes takes itself out of `waiting`, even when the friends that it has woken have not started yet.

* `Alive`: nobody sleeps for good while a friend of each kind is there.
* `Patient`: the last friend of a kind does not finish before all others have entered.  `all_play_iff_patient`: a run ends with all friends
  finished exactly when this was so; and every run ends.
* `left_behind`: a run in which two friends sleep for ever.
-/

namespace OsLabs.CondvarChallenge.Band

open Lts Monitor

/-! ## Nobody sleeps for good while a friend of each kind is there -/

section

variable {τ : Type} {kind : τ → Kind} {s s' t : State τ} {i j : τ}

/-- Why a sleeper sleeps: a kind is missing, or somebody plays, or somebody is about to wake all, or somebody is about to look. -/
def Hope (s : State τ) : Prop :=
  (∃ k, s.shared.waiting k = 0) ∨ (∃ j, inBand (s.loc j) = true) ∨ (∃ j, s.loc j = .announceEnd) ∨
    ∃ j, s.loc j = .test ∧ (s.mode j).isAsleep = false

structure Alive (s : State τ) : Prop where
  gate : ∀ i, s.loc i = .sleep → (∃ k, s.shared.waiting k = 0) ∨ ∃ j, inBand (s.loc j) = true
  sleeper : ∀ i c, s.mode i = .asleep c → Hope s

theorem initial_alive : Alive (initial start fun _ => .start : State τ) := by
  constructor
  · intro i hi
    cases hi
  · intro i c hi
    cases hi

theorem Alive.wake (h : Alive s) (hsh : t.shared = s.shared) (hloc : t.loc = s.loc)
    (hm : ∀ i c, t.mode i = .asleep c → s.mode i = .asleep c) : Alive t := by
  constructor
  · rw [hsh, hloc]
    exact h.gate
  · intro i c hi
    unfold Hope
    rw [hsh, hloc]
    rcases h.sleeper i c (hm i c hi) with h1 | h2 | h3 | ⟨j, hj, hj'⟩
    · exact .inl h1
    · exact .inr (.inl h2)
    · exact .inr (.inr (.inl h3))
    · refine .inr (.inr (.inr ⟨j, hj, ?_⟩))
      exact Mode.isAsleep_eq_false.mpr fun d hd => Mode.isAsleep_eq_false.mp hj' d (hm j d hd)

variable [DecidableEq τ]

/-- Thread `i` is in the band after the step. -/
theorem alive_of_inBand {n : Loc} (hloc : t.loc = (s.goto i n).loc) (hn : inBand n = true) : Alive t := by
  have hi : inBand (t.loc i) = true := by
    rw [hloc, St.goto_loc_self]
    exact hn
  exact ⟨fun _ _ => .inr ⟨i, hi⟩, fun _ _ _ => .inr (.inl ⟨i, hi⟩)⟩

/-- A thread comes or goes that has nothing to do with the band. -/
theorem Alive.move {n : Loc} (h : Alive s) (hloc : t.loc = (s.goto i n).loc) (hsh : t.shared = s.shared)
    (hm : t.mode = s.mode) (hb : inBand (s.loc i) = false) (ha : s.loc i ≠ .announceEnd) (ht : s.loc i ≠ .test)
    (hn : n ≠ .sleep) : Alive t := by
  have hsame : ∀ j, inBand (s.loc j) = true → t.loc j = s.loc j := by
    intro j hj
    rw [hloc]
    refine St.goto_loc_of_ne s n ?_
    rintro rfl
    rw [hb] at hj
    cases hj
  constructor
  · intro j hj
    rw [hloc, St.goto_loc_apply] at hj
    rw [hsh]
    split_ifs at hj with hji
    · exact absurd hj hn
    · rcases h.gate j hj with h1 | ⟨k, hk⟩
      · exact .inl h1
      · exact .inr ⟨k, by rw [hsame k hk]; exact hk⟩
  · intro j c hj
    rw [hm] at hj
    unfold Hope
    rw [hsh, hm]
    rcases h.sleeper j c hj with h1 | ⟨k, hk⟩ | ⟨k, hk⟩ | ⟨k, hk, hk'⟩
    · exact .inl h1
    · exact .inr (.inl ⟨k, by rw [hsame k hk]; exact hk⟩)
    · refine .inr (.inr (.inl ⟨k, ?_⟩))
      rw [hloc, St.goto_loc_of_ne s n, hk]
      rintro rfl
      exact ha hk
    · refine .inr (.inr (.inr ⟨k, ?_, hk'⟩))
      rw [hloc, St.goto_loc_of_ne s n, hk]
      rintro rfl
      exact ht hk

variable [Fintype τ]

/-- **Step lemma.** -/
theorem Alive.step (h : Alive s) (hc : Counts kind s) (hmx : MutexInv (friends kind) inside s) (hm : s.mode i = .awake)
    (he : Effect s i (friends kind i (s.loc i)) s') : Alive s' := by
  -- while a thread runs inside, no other is about to sleep
  have hsleep : inside (s.loc i) = true → ∀ j, j ≠ i → s.loc j ≠ .sleep := by
    intro hin j hji hj
    exact hji (alone hmx hm hin (by rw [hj]; rfl) (by simp [hj]))
  have hgate : ∀ {n : Loc}, inside (s.loc i) = true → n ≠ .sleep → ∀ j, (s.goto i n).loc j ≠ .sleep := by
    intro n hin hn j hj
    rw [St.goto_loc_apply] at hj
    split_ifs at hj with hji
    · exact hn hj
    · exact hsleep hin j hji hj
  have hnone : ∀ j c, (s.wakeAll ()).mode j ≠ .asleep c := fun j c hj => (St.asleep_of_wakeAll hj).2 rfl
  cases hl : s.loc i with
  | start =>
    rw [hl] at he
    obtain ⟨-, rfl⟩ := he
    exact h.move (i := i) (n := .arrive) rfl rfl rfl (by rw [hl]; rfl) (by simp [hl]) (by simp [hl]) (by simp)
  | arrive =>
    rw [hl] at he
    obtain rfl := he
    refine ⟨fun j hj => absurd hj (hgate (by rw [hl]; rfl) (by simp) j), fun j c hj => ?_⟩
    refine .inr (.inr (.inr ⟨i, St.goto_loc_self s i _, ?_⟩))
    rw [St.assign_mode, hm]
    rfl
  | test =>
    rw [hl] at he
    obtain rfl := he
    by_cases hb : blocked s.shared (kind i)
    · simp only [if_pos hb]
      have hwhy : (∃ k, s.shared.waiting k = 0) ∨ ∃ j, inBand ((s.goto i .sleep).loc j) = true := by
        rcases blocked_iff.mp hb with h1 | h2
        · exact .inl h1
        · obtain ⟨j, hj, -⟩ := hc.exists_of_working h2
          refine .inr ⟨j, ?_⟩
          rw [St.goto_loc_of_ne s _, hj]
          rintro rfl
          rw [hl] at hj
          cases hj
      refine ⟨fun _ _ => hwhy, fun j c hj => ?_⟩
      rcases hwhy with h1 | h2
      · exact .inl h1
      · exact .inr (.inl h2)
    · simp only [if_neg hb]
      by_cases hu : s.shared.use = false
      · simp only [if_pos hu]
        exact alive_of_inBand (i := i) (n := .announce) rfl rfl
      · simp only [if_neg hu]
        exact alive_of_inBand (i := i) (n := .entered) rfl rfl
  | sleep =>
    rw [hl] at he
    obtain ⟨-, rfl⟩ := he
    refine ⟨fun j hj => absurd hj (hgate (by rw [hl]; rfl) (by simp) j), fun j c hj => ?_⟩
    rcases h.gate i hl with h1 | ⟨k, hk⟩
    · exact .inl h1
    · refine .inr (.inl ⟨k, ?_⟩)
      show inBand ((s.goto i .test).loc k) = true
      rw [St.goto_loc_of_ne s _, hk]
      rintro rfl
      rw [hl] at hk
      cases hk
  | announce =>
    rw [hl] at he
    obtain rfl := he
    exact alive_of_inBand (i := i) (s := s) (n := .entered) rfl rfl
  | entered =>
    rw [hl] at he
    obtain ⟨-, rfl⟩ := he
    exact alive_of_inBand (i := i) (s := s) (n := .started) rfl rfl
  | started =>
    rw [hl] at he
    obtain rfl := he
    exact alive_of_inBand (i := i) (s := s) (n := .playing) rfl rfl
  | playing =>
    rw [hl] at he
    obtain rfl := he
    exact alive_of_inBand (i := i) (s := s) (n := .stopped) rfl rfl
  | stopped =>
    rw [hl] at he
    obtain ⟨-, rfl⟩ := he
    exact alive_of_inBand (i := i) (s := s) (n := .finish) rfl rfl
  | finish =>
    rw [hl] at he
    obtain rfl := he
    by_cases h0 : s.shared.band_members - 1 = 0
    · simp only [if_pos h0]
      refine ⟨fun j hj => absurd hj (hgate (by rw [hl]; rfl) (by simp) j), fun j c hj => ?_⟩
      exact .inr (.inr (.inl ⟨i, St.goto_loc_self s i _⟩))
    · simp only [if_neg h0]
      -- others are in the band
      have hcnt := count_leave (p := fun _ => inBand) (t := s.assign i .leave (quit s.shared (kind i))) (s := s) (i := i)
        (n := .leave) rfl (by rw [hl]; rfl) rfl
      have hnn := count_nonneg (fun _ => inBand) (s.assign i .leave (quit s.shared (kind i)))
      rw [hc.members] at h0
      obtain ⟨j, hj⟩ := exists_of_count_pos (p := fun _ => inBand) (s := s.assign i .leave (quit s.shared (kind i)))
        (by omega)
      exact ⟨fun _ _ => .inr ⟨j, hj⟩, fun _ _ _ => .inr (.inl ⟨j, hj⟩)⟩
  | announceEnd =>
    rw [hl] at he
    obtain rfl := he
    refine ⟨fun j hj => absurd hj (hgate (n := .leave) (by rw [hl]; rfl) (by simp) j), fun j c hj => ?_⟩
    exact absurd hj (hnone j c)
  | leave =>
    rw [hl] at he
    obtain ⟨-, rfl⟩ := he
    exact h.move (i := i) (n := .done) rfl rfl rfl (by rw [hl]; rfl) (by simp [hl]) (by simp [hl]) (by simp)
  | done =>
    rw [hl] at he
    cases he

end

/-! ## The last friend of a kind -/

section

variable {τ : Type} {kind : τ → Kind} {s s' t : State τ} {i j : τ}

/-- **Patient.**  The last friend of a kind that has not finished does not finish before all friends of other kinds have entered. -/
def Patient (kind : τ → Kind) (s : State τ) : Act τ → Prop
  | .exec i | .signal i _ => s.loc i = .finish → (∀ j, j ≠ i → kind j = kind i → hasFinished (s.loc j) = true) →
    ∀ j, kind j ≠ kind i → hasEntered (s.loc j) = true
  | .spurious _ | .relock _ => True

instance [Fintype τ] [DecidableEq τ] (kind : τ → Kind) (s : State τ) (a : Act τ) : Decidable (Patient kind s a) :=
  match a with
  | .exec _ => inferInstanceAs (Decidable (_ → (∀ _, _ → _ → _) → ∀ _, _ → _))
  | .signal _ _ => inferInstanceAs (Decidable (_ → (∀ _, _ → _ → _) → ∀ _, _ → _))
  | .spurious _ => .isTrue trivial
  | .relock _ => .isTrue trivial

/-- All friends of kind `k` have finished. -/
def Gone (kind : τ → Kind) (k : Kind) (s : State τ) : Prop := ∀ i, kind i = k → hasFinished (s.loc i) = true

/-- When a kind is gone, everybody else has entered. -/
def Met (kind : τ → Kind) (s : State τ) : Prop := ∀ k, Gone kind k s → ∀ j, kind j ≠ k → hasEntered (s.loc j) = true

variable [DecidableEq τ]

/-- **Where a friend goes.**  It never goes back; it enters only when the test lets it, and is finished only after the finishing
step. -/
theorem friend_moves (he : Effect s i (friends kind i (s.loc i)) s') :
    ∃ n, s'.loc = (s.goto i n).loc ∧ stage (s.loc i) ≤ stage n ∧
      (stage (s.loc i) < 3 → 3 ≤ stage n → ¬ blocked s.shared (kind i)) ∧
      (stage (s.loc i) < 9 → 9 ≤ stage n → s.loc i = .finish) := by
  cases hl : s.loc i with
  | start =>
    rw [hl] at he
    obtain ⟨-, rfl⟩ := he
    exact ⟨.arrive, rfl, by simp [stage], by simp [stage], by simp [stage]⟩
  | arrive =>
    rw [hl] at he
    obtain rfl := he
    exact ⟨.test, rfl, by simp [stage], by simp [stage], by simp [stage]⟩
  | test =>
    rw [hl] at he
    obtain rfl := he
    by_cases hb : blocked s.shared (kind i)
    · simp only [if_pos hb]
      exact ⟨.sleep, rfl, by simp [stage], by simp [stage], by simp [stage]⟩
    · simp only [if_neg hb]
      by_cases hu : s.shared.use = false
      · simp only [if_pos hu]
        exact ⟨.announce, rfl, by simp [stage], fun _ _ => hb, by simp [stage]⟩
      · simp only [if_neg hu]
        exact ⟨.entered, rfl, by simp [stage], fun _ _ => hb, by simp [stage]⟩
  | sleep =>
    rw [hl] at he
    obtain ⟨-, rfl⟩ := he
    exact ⟨.test, rfl, by simp [stage], by simp [stage], by simp [stage]⟩
  | announce =>
    rw [hl] at he
    obtain rfl := he
    exact ⟨.entered, rfl, by simp [stage], by simp [stage], by simp [stage]⟩
  | entered =>
    rw [hl] at he
    obtain ⟨-, rfl⟩ := he
    exact ⟨.started, rfl, by simp [stage], by simp [stage], by simp [stage]⟩
  | started =>
    rw [hl] at he
    obtain rfl := he
    exact ⟨.playing, rfl, by simp [stage], by simp [stage], by simp [stage]⟩
  | playing =>
    rw [hl] at he
    obtain rfl := he
    exact ⟨.stopped, rfl, by simp [stage], by simp [stage], by simp [stage]⟩
  | stopped =>
    rw [hl] at he
    obtain ⟨-, rfl⟩ := he
    exact ⟨.finish, rfl, by simp [stage], by simp [stage], by simp [stage]⟩
  | finish =>
    rw [hl] at he
    obtain rfl := he
    by_cases h0 : s.shared.band_members - 1 = 0
    · simp only [if_pos h0]
      exact ⟨.announceEnd, rfl, by simp [stage], by simp [stage], fun _ _ => trivial⟩
    · simp only [if_neg h0]
      exact ⟨.leave, rfl, by simp [stage], by simp [stage], fun _ _ => trivial⟩
  | announceEnd =>
    rw [hl] at he
    obtain rfl := he
    exact ⟨.leave, rfl, by simp [stage], by simp [stage], by simp [stage]⟩
  | leave =>
    rw [hl] at he
    obtain ⟨-, rfl⟩ := he
    exact ⟨.done, rfl, by simp [stage], by simp [stage], by simp [stage]⟩
  | done =>
    rw [hl] at he
    cases he

/-- A friend never goes back. -/
theorem stage_mono (he : Effect s i (friends kind i (s.loc i)) s') (j : τ) : stage (s.loc j) ≤ stage (s'.loc j) := by
  obtain ⟨n, hloc, hle, -, -⟩ := friend_moves he
  rw [hloc, St.goto_loc_apply]
  split_ifs with hj
  · rw [hj]
    exact hle
  · exact le_rfl

theorem hasFinished_mono (he : Effect s i (friends kind i (s.loc i)) s') (hj : hasFinished (s.loc j) = true) :
    hasFinished (s'.loc j) = true := by
  have := stage_mono he j
  simp only [hasFinished, decide_eq_true_eq] at hj ⊢
  omega

/-- **Step lemma**, for a patient friend. -/
theorem Met.step {a : Act τ} (h : Met kind s) (hok : Patient kind s a) (ha : a = .exec i ∨ ∃ j, a = .signal i j)
    (he : Effect s i (friends kind i (s.loc i)) s') : Met kind s' := by
  intro k hk j hj
  have hold : hasEntered (s.loc j) = true := by
    by_cases hgone : Gone kind k s
    · exact h k hgone j hj
    · -- the friend that has just finished was the last of its kind
      obtain ⟨n, hloc, -, -, hfin⟩ := friend_moves he
      unfold Gone at hgone
      push Not at hgone
      obtain ⟨m, hm, hmf⟩ := hgone
      have hother : ∀ l, l ≠ i → kind l = k → hasFinished (s.loc l) = true := by
        intro l hli hlk
        have := hk l hlk
        rwa [hloc, St.goto_loc_of_ne s n hli] at this
      have hmi : m = i := by
        by_contra hmi
        exact hmf (hother m hmi hm)
      subst hmi
      have hlast : s.loc m = .finish := by
        have hnow := hk m hm
        rw [hloc, St.goto_loc_self] at hnow
        have hmf' : ¬ 9 ≤ stage (s.loc m) := by simpa [hasFinished] using hmf
        exact hfin (by omega) (by simpa [hasFinished] using hnow)
      have hall : ∀ j, j ≠ m → kind j = kind m → hasFinished (s.loc j) = true := fun l hl hlk => hother l hl (hlk.trans hm)
      rcases ha with rfl | ⟨l, rfl⟩
      · exact hok hlast hall j (by rw [hm]; exact hj)
      · exact hok hlast hall j (by rw [hm]; exact hj)
  have := stage_mono he j
  simp only [hasEntered, decide_eq_true_eq] at hold ⊢
  omega

/-- Friend `j` is left behind: another kind is gone, and it has not entered. -/
def LeftBehind (kind : τ → Kind) (k : Kind) (j : τ) (s : State τ) : Prop := Gone kind k s ∧ hasEntered (s.loc j) = false

/-- An impatient finish leaves somebody behind. -/
theorem exists_leftBehind {a : Act τ} (hs : StepRes (friends kind) s a s') (hno : ¬ Patient kind s a) :
    ∃ k j, LeftBehind kind k j s' := by
  cases hs with
  | spurious => exact absurd trivial hno
  | relock => exact absurd trivial hno
  | @exec i a s' ha hm he =>
    have hno : ¬ (s.loc i = .finish → (∀ j, j ≠ i → kind j = kind i → hasFinished (s.loc j) = true) →
        ∀ j, kind j ≠ kind i → hasEntered (s.loc j) = true) := by
      rcases ha with rfl | ⟨j, rfl⟩
      · exact hno
      · exact hno
    push Not at hno
    obtain ⟨hl, hlast, j, hj, hje⟩ := hno
    have hi : hasFinished (s'.loc i) = true := by
      rw [hl] at he
      obtain rfl := he
      by_cases h0 : s.shared.band_members - 1 = 0
      · simp only [if_pos h0, St.assign_loc, St.goto_loc_self]
        rfl
      · simp only [if_neg h0, St.assign_loc, St.goto_loc_self]
        rfl
    obtain ⟨n, hloc⟩ := he.goto
    refine ⟨kind i, j, fun m hmk => ?_, ?_⟩
    · by_cases hmi : m = i
      · rw [hmi]
        exact hi
      · exact hasFinished_mono he (hlast m hmi hmk)
    · have hji : j ≠ i := by
        rintro rfl
        exact hj rfl
      rw [hloc, St.goto_loc_of_ne s n hji]
      simpa using hje

variable [Fintype τ]

/-- Who is left behind stays there: `waiting` of the kind that is gone is `0`. -/
theorem LeftBehind.step {k : Kind} (h : LeftBehind kind k j s) (hc : Counts kind s)
    (he : Effect s i (friends kind i (s.loc i)) s') : LeftBehind kind k j s' := by
  obtain ⟨hgone, hj⟩ := h
  refine ⟨fun m hm => hasFinished_mono he (hgone m hm), ?_⟩
  have hz : s.shared.waiting k = 0 := by
    rw [hc.waiting k]
    by_contra hne
    have hnn := countOf_nonneg kind k present s
    obtain ⟨m, hm, hmk⟩ := exists_of_countOf_pos (g := kind) (k := k) (p := present) (s := s) (by omega)
    have hf := hgone m hmk
    simp only [present, hasFinished, Bool.and_eq_true, decide_eq_true_eq] at hm hf
    omega
  obtain ⟨n, hloc, -, hen, -⟩ := friend_moves he
  rw [hloc, St.goto_loc_apply]
  split_ifs with hji
  · subst hji
    simp only [hasEntered, decide_eq_false_iff_not] at hj ⊢
    intro h3
    exact hen (by omega) h3 (blocked_iff.mpr (.inl ⟨k, hz⟩))
  · exact hj

end

/-! ## Every run ends -/

section

variable {τ : Type} [Fintype τ] {kind : τ → Kind} {s s' : State τ} {i j : τ}

/-- All that holds in every run. -/
structure Inv (kind : τ → Kind) (s : State τ) : Prop where
  mutex : MutexInv (friends kind) inside s
  counts : Counts kind s
  alive : Alive s

theorem initial_inv : Inv kind (initial start fun _ => .start : State τ) :=
  ⟨initial_mutexInv fun _ => rfl, initial_counts, initial_alive⟩

/-- When all that have not finished sleep and somebody has not finished, a kind is gone that the sleeper still needs. -/
theorem Inv.gone (h : Inv kind s) (ha : AllAsleep (friends kind) s) (hi : Unfinished (friends kind) s i) :
    ∃ k, Gone kind k s ∧ kind i ≠ k ∧ hasEntered (s.loc i) = false := by
  have hstage : ∀ j, s.loc j ≠ .done → s.loc j = .test ∧ (s.mode j).isAsleep = true := by
    intro j hj
    have hsl := ha j (friend_isHalt hj)
    obtain ⟨c, hc⟩ := Mode.isAsleep_iff.mp hsl
    obtain ⟨l, hw⟩ := h.mutex.asleep j c hc
    exact ⟨friend_wait hw, hsl⟩
  have hid : s.loc i ≠ .done := by
    intro hd
    unfold Unfinished at hi
    rw [hd] at hi
    cases hi
  obtain ⟨hit, hisl⟩ := hstage i hid
  obtain ⟨c, hc⟩ := Mode.isAsleep_iff.mp hisl
  rcases h.alive.sleeper i c hc with ⟨k, hk⟩ | ⟨j, hj⟩ | ⟨j, hj⟩ | ⟨j, hj, hj'⟩
  · rw [h.counts.waiting k] at hk
    have hno : ∀ j, kind j = k → present (s.loc j) = false := by
      intro j hjk
      by_contra hp
      have := countOf_pos (g := kind) (p := present) (s := s) (i := j) (by simpa using hp)
      rw [hjk] at this
      omega
    refine ⟨k, fun j hjk => ?_, ?_, by rw [hit]; rfl⟩
    · by_cases hd : s.loc j = .done
      · rw [hd]
        rfl
      · have := hno j hjk
        rw [(hstage j hd).1] at this
        cases this
    · intro hik
      have := hno i hik
      rw [hit] at this
      cases this
  · have hjt := (hstage j (by intro hd; rw [hd] at hj; cases hj)).1
    rw [hjt] at hj
    cases hj
  · have hjt := (hstage j (by simp [hj])).1
    rw [hj] at hjt
    cases hjt
  · have := (hstage j (by simp [hj])).2
    rw [hj'] at this
    cases this

/-- How far a friend is from its end; `cost` is what waking all costs. -/
def rank (cost : ℕ) : Loc → ℕ
  | .start => 2 * cost + 12
  | .arrive => 2 * cost + 11
  | .test => 2 * cost + 10
  | .sleep => 2 * cost + 9
  | .announce => 2 * cost + 8
  | .entered => cost + 7
  | .started => cost + 6
  | .playing => cost + 5
  | .stopped => cost + 4
  | .finish => cost + 3
  | .announceEnd => cost + 2
  | .leave => 1
  | .done => 0

theorem friend_ranked (k : Kind) (l : Loc) :
    Ranked τ (rank (Fintype.card τ * 3)) 2 (fun _ => 3) (friend k l) l := by
  generalize hc : Fintype.card τ * 3 = cost
  cases l with
  | test =>
    intro x
    dsimp only
    split_ifs <;> simp only [rank] <;> omega
  | finish =>
    intro x
    dsimp only
    split_ifs <;> simp only [rank] <;> omega
  | arrive | started | playing =>
    intro x
    simp only [rank]
    omega
  | announce =>
    show cost + 7 + Fintype.card τ * 3 < 2 * cost + 8
    omega
  | announceEnd =>
    show 1 + Fintype.card τ * 3 < cost + 2
    omega
  | done => trivial
  | start | sleep | entered | stopped | leave =>
    simp only [friend, Ranked, rank]
    omega

variable [DecidableEq τ]

theorem Inv.step {a : Act τ} (h : Inv kind s) (hs : StepRes (friends kind) s a s') : Inv kind s' := by
  have hboth := hs.preserves (I := fun s => Counts kind s ∧ Alive s) ⟨h.mutex, h.counts, h.alive⟩ friends_typed ?_ ?_
  · exact ⟨hboth.1, hboth.2.1, hboth.2.2⟩
  · rintro s t ⟨hc, hA⟩ hsh hloc hm
    exact ⟨hc.congr hsh fun i => by rw [hloc], hA.wake hsh hloc hm⟩
  · intro i s' _ hm he
    exact ⟨h.counts.step he, h.alive.step h.counts h.mutex hm he⟩

/-- The number of steps that a run without spurious wakeups takes at most. -/
def bound (n : ℕ) : ℕ := n * (2 * (n * 3) + 14)

theorem run_length_le {tr : List (Ev (State τ) (Act τ) Unit)}
    (h : Run (Step (friends kind)) always (initial start fun _ => .start) tr s) :
    tr.length ≤ bound (Fintype.card τ) + 4 * tr.countP fun e => e.act.isSpurious := by
  have hlen := length_le (r := fun _ => rank (Fintype.card τ * 3)) (D := fun _ => 2) (C := fun _ => 3) (M := 3)
    (I := fun _ => True) h trivial (fun _ _ _ _ _ _ => trivial) (fun s _ i => friend_ranked (kind i) (s.loc i))
    (fun _ _ _ _ _ => le_rfl) fun _ => le_rfl
  have hpot : potential (fun _ => rank (Fintype.card τ * 3)) (fun _ => 2) (initial start fun _ => .start : State τ) =
      bound (Fintype.card τ) := by
    unfold potential
    simp only [initial, rank, Mode.bonus, Finset.sum_const, Finset.card_univ, smul_eq_mul, bound]
  rw [hpot] at hlen
  exact le_trans (Nat.le_add_right _ _) hlen

theorem run_inv {ok : State τ → Act τ → Prop} {tr : List (Ev (State τ) (Act τ) Unit)}
    (h : Run (Step (friends kind)) ok (initial start fun _ => .start) tr s) : Inv kind s :=
  h.inv initial_inv fun _ _ _ _ hI _ hst => hI.step (next_inv hst)

/-- **Run lemma**, for patient friends. -/
theorem run_met {tr : List (Ev (State τ) (Act τ) Unit)} (hex : ∀ k, ∃ i, kind i = k)
    (h : Run (Step (friends kind)) (Patient kind) (initial start fun _ => .start) tr s) : Met kind s := by
  refine h.inv (I := Met kind) ?_ ?_
  · intro k hk
    obtain ⟨i, hi⟩ := hex k
    cases hk i hi
  · intro s a o s' hM hok hst
    cases next_inv hst with
    | exec ha hm he => exact hM.step hok ha he
    | spurious => exact hM
    | relock => exact hM

/-- **Run lemma.**  Who is left behind never plays. -/
theorem run_leftBehind {ok : State τ → Act τ → Prop} {tr : List (Ev (State τ) (Act τ) Unit)} {k : Kind} {t : State τ}
    (hr : Run (Step (friends kind)) ok s tr t) (hI : Inv kind s) (h : LeftBehind kind k j s) : LeftBehind kind k j t := by
  have hboth := hr.inv (I := fun s => Inv kind s ∧ LeftBehind kind k j s) ⟨hI, h⟩ ?_
  · exact hboth.2
  · rintro s a o s' ⟨hI, hL⟩ - hst
    refine ⟨hI.step (next_inv hst), ?_⟩
    cases next_inv hst with
    | exec ha hm he => exact hL.step hI.counts he
    | spurious => exact hL
    | relock => exact hL

/-- **Who plays.**  With the same number of friends of each kind: in a run whose friends are all patient nobody is left sleeping; a run that
has come to rest has all friends finished if and only if all were patient; and every run comes to rest unless sleepers wake
without a signal for ever. -/
theorem all_play_iff_patient (kind : τ → Kind) (n : ℕ) (hn : ∀ k, (Finset.univ.filter fun i => kind i = k).card = n)
    (tr : List (Ev (State τ) (Act τ) Unit)) (s : State τ)
    (h : Run (Step (friends kind)) always (initial start fun _ => .start) tr s) :
    ((∀ e ∈ tr, Patient kind e.pre e.act) → ¬ Deadlock (friends kind) s) ∧
      (Quiet (friends kind) s → ((∀ i, s.loc i = .done) ↔ ∀ e ∈ tr, Patient kind e.pre e.act)) ∧
      tr.length ≤ bound (Fintype.card τ) + 4 * tr.countP fun e => e.act.isSpurious := by
  have hI : Inv kind s := run_inv h
  have hfin : (∀ e ∈ tr, Patient kind e.pre e.act) → AllAsleep (friends kind) s → ∀ i, ¬ Unfinished (friends kind) s i := by
    intro hpat ha i hi
    -- there is a friend of each kind, since there is one at all
    have hpos : 0 < n := by
      rw [← hn (kind i)]
      exact Finset.card_pos.mpr ⟨i, by simp⟩
    have hex : ∀ k, ∃ i, kind i = k := by
      intro k
      obtain ⟨m, hm⟩ := Finset.card_pos.mp (hpos.trans_eq (hn k).symm)
      exact ⟨m, (Finset.mem_filter.mp hm).2⟩
    obtain ⟨k, hk, hik, hne⟩ := hI.gone ha hi
    have := run_met hex (h.guard hpat) k hk i hik
    rw [hne] at this
    cases this
  refine ⟨fun hpat hd => ?_, fun hq => ⟨fun hdone e he => ?_, fun hpat i => ?_⟩, run_length_le h⟩
  · obtain ⟨⟨i, hi⟩, ha⟩ := hd
    exact hfin hpat ha i hi
  · -- an impatient step would have left somebody behind
    by_contra hno
    obtain ⟨tr1, tr2, rfl⟩ := List.append_of_mem he
    obtain ⟨hr1, -, hst, hr2⟩ := h.split
    have hI1 : Inv kind e.pre := run_inv hr1
    obtain ⟨k, j, hL⟩ := exists_leftBehind (next_inv hst) hno
    obtain ⟨-, hj⟩ := run_leftBehind hr2 (hI1.step (next_inv hst)) hL
    rw [hdone j] at hj
    cases hj
  · have ha := hq.allAsleep hI.mutex friends_typed
    by_contra hd
    exact hfin hpat ha i (friend_isHalt hd)

end

/-- A drummer, a singer and a guitarist. -/
def trio : Fin 3 → Kind
  | 0 => .DRUM
  | 1 => .SING
  | 2 => .GUIT

/-- The guitarist waits until the two others have started. -/
theorem all_play_iff_patient_run : ∃ tr, ∃ s : State (Fin 3),
    Run (Step (friends trio)) always (initial start fun _ => .start) tr s ∧ (∀ e ∈ tr, Patient trio e.pre e.act) ∧
      (∀ i, s.loc i = .done) ∧ ¬ Deadlock (friends trio) s := by
  obtain ⟨tr, s, hr, hl⟩ := exists_run (P := friends trio) (Patient trio) (initial start fun _ => .start)
    [.exec 0, .exec 0, .exec 0, .exec 0, .exec 1, .exec 1, .exec 1, .exec 1, .exec 2, .exec 2, .exec 2, .exec 2, .exec 2,
      .exec 2, .relock 0, .exec 0, .exec 0, .exec 0, .relock 1, .exec 1, .exec 1, .exec 1, .exec 2, .exec 2, .exec 2, .exec 2,
      .exec 0, .exec 0, .exec 0, .exec 0, .exec 1, .exec 1, .exec 1, .exec 1, .exec 1]
    (fun _ (s : State (Fin 3)) => ∀ i, s.loc i = .done) (by decide +kernel)
  have hpat : ∀ e ∈ tr, Patient trio e.pre e.act := fun e he => (hr.forall_ev e he).2.1
  have hr' : Run _ always _ tr s := hr.mono fun _ _ _ => trivial
  have hall := all_play_iff_patient trio 1 (by decide) tr s hr'
  exact ⟨tr, s, hr', hpat, hl, hall.1 hpat⟩

/-- **Left behind.**  Drummer and singer sleep; the guitarist arrives, starts, wakes them, finishes and takes itself out of `waiting` before
either of them has the mutex back.  Both find no guitarist and sleep for ever. -/
theorem left_behind : ∃ s : State (Fin 3),
    Reachable (friends trio) always start (fun _ => .start) s ∧ Deadlock (friends trio) s :=
  exists_reachable (P := friends trio) always start (fun _ => .start)
    [.exec 0, .exec 0, .exec 0, .exec 0, .exec 1, .exec 1, .exec 1, .exec 1, .exec 2, .exec 2, .exec 2, .exec 2, .exec 2,
      .exec 2, .exec 2, .exec 2, .exec 2, .exec 2, .exec 2, .relock 0, .exec 0, .exec 0, .relock 1, .exec 1, .exec 1]
    (fun s => Deadlock (friends trio) s) (by decide +kernel)

end OsLabs.CondvarChallenge.Band
