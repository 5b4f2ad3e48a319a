import OsLabs.Rank
import Mathlib.Tactic.Ring
import Mathlib.Tactic.Linarith

/-!
# OsLabs.CondvarChallenge.LittleRedHen — the hen bakes, the other animals eat

`littleredhen.c`: the hen bakes a batch whenever there are no loaves left, a fixed number of times; each animal eats a fixed number
of loaves.  An animal that finds no loaf signals `need_more_bread` and waits for `bread_ready`, the hen waits the other way round.
`numLoaves` is read and written with the mutex held only.

* `littleRedHenThread`, `otherAnimalThread`: the two bodies; `kitchen`: the threads of the program.
* `Inv`: the loaves are accounted for; an animal sleeps only before an empty table; the hen does not sleep while a hungry animal
  does and there is nothing left.
* `everybody_is_fed`: in every reachable state the account is right, batches are baked at an empty table only, and the run does not
  come to rest before each animal has eaten its loaves; without spurious wakeups it does come to rest.
-/

namespace OsLabs.CondvarChallenge.LittleRedHen

open Lts Monitor

/-- The constants of the program. -/
structure Recipe where
  NUM_LOAVES_PER_BATCH : ℕ
  NUM_BATCHES : ℕ
  NUM_LOAVES_TO_EAT : ℕ

structure Shared where
  numLoaves : ℤ
deriving DecidableEq

inductive Cond
  | bread_ready | need_more_bread
deriving DecidableEq

/-- The places of the hen; `batch` is her loop variable. -/
inductive HenLoc
  | again (batch : ℕ) | look (batch : ℕ) | rest (batch : ℕ) | ready (batch : ℕ) | put (batch : ℕ) | fedUp | bye | done
deriving DecidableEq

/-- The places of an animal; the argument is `numLoavesEaten`. -/
inductive AnimalLoc
  | again (numLoavesEaten : ℕ) | look (numLoavesEaten : ℕ) | complain (numLoavesEaten : ℕ) | rest (numLoavesEaten : ℕ)
  | eat (numLoavesEaten : ℕ)
deriving DecidableEq

inductive Loc
  | hen (l : HenLoc)
  | animal (l : AnimalLoc)
deriving DecidableEq

/-- The hen's body. -/
def littleRedHenThread (K : Recipe) : HenLoc → Instr Shared Cond Loc
  | .again batch => if batch ≤ K.NUM_BATCHES then .lock (.hen (.look batch)) else .lock (.hen .fedUp)
  | .look batch => .run fun x =>
    if x.numLoaves > 0 then (x, .hen (.rest batch))
    else (⟨x.numLoaves + K.NUM_LOAVES_PER_BATCH⟩, .hen (.ready batch))
  | .rest batch => .wait .need_more_bread (.hen (.look batch))
  | .ready batch => .broadcast .bread_ready (.hen (.put batch))
  | .put batch => .unlock (.hen (.again (batch + 1)))
  | .fedUp => .broadcast .bread_ready (.hen .bye)
  | .bye => .unlock (.hen .done)
  | .done => .halt

/-- An animal's body.  The message behind `numLoaves <= 0` is printed by nobody: the loop before it ends with a loaf on the
table. -/
def otherAnimalThread (K : Recipe) : AnimalLoc → Instr Shared Cond Loc
  | .again eaten => if eaten < K.NUM_LOAVES_TO_EAT then .lock (.animal (.look eaten)) else .halt
  | .look eaten => .run fun x =>
    if x.numLoaves = 0 then (x, .animal (.complain eaten)) else (⟨x.numLoaves - 1⟩, .animal (.eat eaten))
  | .complain eaten => .signal .need_more_bread (.animal (.rest eaten))
  | .rest eaten => .wait .bread_ready (.animal (.look eaten))
  | .eat eaten => .unlock (.animal (.again (eaten + 1)))

/-- The hen (`none`) and the other animals. -/
def kitchen {α : Type} (K : Recipe) (_ : Option α) : Loc → Instr Shared Cond Loc
  | .hen l => littleRedHenThread K l
  | .animal l => otherAnimalThread K l

def start {α : Type} : Option α → Loc
  | none => .hen (.again 1)
  | some _ => .animal (.again 0)

abbrev State (α : Type) := St (Option α) Shared Cond Loc

def inside : Loc → Bool
  | .hen (.again _) | .hen .done => false
  | .hen _ => true
  | .animal (.again _) => false
  | .animal _ => true

/-- How many batches the hen has baked. -/
def Loc.baked (K : Recipe) : Loc → ℕ
  | .hen (.again batch) | .hen (.look batch) | .hen (.rest batch) => batch - 1
  | .hen (.ready batch) | .hen (.put batch) => batch
  | .hen .fedUp | .hen .bye | .hen .done => K.NUM_BATCHES
  | .animal _ => 0

/-- How many loaves the animal has taken from the table. -/
def Loc.eaten : Loc → ℕ
  | .animal (.again eaten) | .animal (.look eaten) | .animal (.complain eaten) | .animal (.rest eaten) => eaten
  | .animal (.eat eaten) => eaten + 1
  | .hen _ => 0

def Loc.isHen : Loc → Bool
  | .hen _ => true
  | .animal _ => false

/-- The values that the loop variables take. -/
def Loc.Fits (K : Recipe) : Loc → Prop
  | .hen (.again batch) => 1 ≤ batch ∧ batch ≤ K.NUM_BATCHES + 1
  | .hen (.look batch) | .hen (.rest batch) | .hen (.ready batch) | .hen (.put batch) => 1 ≤ batch ∧ batch ≤ K.NUM_BATCHES
  | .hen .fedUp | .hen .bye | .hen .done => True
  | .animal (.again eaten) => eaten ≤ K.NUM_LOAVES_TO_EAT
  | .animal (.look eaten) | .animal (.complain eaten) | .animal (.rest eaten) | .animal (.eat eaten) =>
    eaten < K.NUM_LOAVES_TO_EAT

theorem kitchen_typed {α : Type} (K : Recipe) (i : Option α) (l : Loc) : Typed inside (kitchen K i l) l := by
  match l with
  | .hen (.again batch) =>
    simp only [kitchen, littleRedHenThread]
    split_ifs <;> exact ⟨rfl, rfl⟩
  | .hen (.look batch) =>
    intro x
    dsimp only
    split_ifs <;> rfl
  | .hen (.rest _) | .hen (.ready _) | .hen (.put _) | .hen .fedUp | .hen .bye => exact ⟨rfl, rfl⟩
  | .hen .done => rfl
  | .animal (.again eaten) =>
    simp only [kitchen, otherAnimalThread]
    split_ifs
    · exact ⟨rfl, rfl⟩
    · rfl
  | .animal (.look eaten) =>
    intro x
    dsimp only
    split_ifs <;> rfl
  | .animal (.complain _) | .animal (.rest _) | .animal (.eat _) => exact ⟨rfl, rfl⟩

/-- Where the waits end: the hen waits for `need_more_bread`, the animals for `bread_ready`. -/
theorem kitchen_wait {α : Type} {K : Recipe} {i : Option α} {l n : Loc} {c : Cond} (h : kitchen K i l = .wait c n) :
    (∃ batch, n = .hen (.look batch) ∧ c = .need_more_bread) ∨ ∃ eaten, n = .animal (.look eaten) ∧ c = .bread_ready := by
  match l with
  | .hen (.again batch) =>
    simp only [kitchen, littleRedHenThread] at h
    split_ifs at h
  | .hen (.rest batch) =>
    obtain ⟨rfl, rfl⟩ := Instr.wait.inj h
    exact .inl ⟨batch, rfl, rfl⟩
  | .animal (.again eaten) =>
    simp only [kitchen, otherAnimalThread] at h
    split_ifs at h
  | .animal (.rest eaten) =>
    obtain ⟨rfl, rfl⟩ := Instr.wait.inj h
    exact .inr ⟨eaten, rfl, rfl⟩
  | .hen (.look _) | .hen (.ready _) | .hen (.put _) | .hen .fedUp | .hen .bye | .hen .done => cases h
  | .animal (.look _) | .animal (.complain _) | .animal (.eat _) => cases h

/-- How far the hen is from her end.  `cost` is what waking all animals costs. -/
def henRank (K : Recipe) (cost : ℕ) : HenLoc → ℕ
  | .again b => (K.NUM_BATCHES + 1 - b) * (cost + 5) + cost + 3
  | .look b => (K.NUM_BATCHES - b) * (cost + 5) + 2 * cost + 6
  | .rest b | .ready b => (K.NUM_BATCHES - b) * (cost + 5) + 2 * cost + 5
  | .put b => (K.NUM_BATCHES - b) * (cost + 5) + cost + 4
  | .fedUp => cost + 2
  | .bye => 1
  | .done => 0

/-- How far an animal is from its end. -/
def animalRank (K : Recipe) : AnimalLoc → ℕ
  | .again n => (K.NUM_LOAVES_TO_EAT - n) * 7
  | .look n => (K.NUM_LOAVES_TO_EAT - n - 1) * 7 + 6
  | .complain n => (K.NUM_LOAVES_TO_EAT - n - 1) * 7 + 5
  | .rest n | .eat n => (K.NUM_LOAVES_TO_EAT - n - 1) * 7 + 1

def rank (K : Recipe) (cost : ℕ) : Loc → ℕ
  | .hen l => henRank K cost l
  | .animal l => animalRank K l

/-- What a thread may spend after it was woken. -/
def round {α : Type} : Option α → ℕ
  | none => 2
  | some _ => 6

def wakeCost : Cond → ℕ
  | .need_more_bread => 3
  | .bread_ready => 7

theorem hen_ranked {α : Type} [Fintype α] (K : Recipe) (l : HenLoc) :
    Ranked (Option α) (rank K (Fintype.card (Option α) * 7)) 2 wakeCost (littleRedHenThread K l) (.hen l) := by
  generalize hc : Fintype.card (Option α) * 7 = cost
  cases l with
  | again b =>
    simp only [littleRedHenThread]
    split_ifs with hb
    · have hsub : K.NUM_BATCHES + 1 - b = (K.NUM_BATCHES - b) + 1 := by omega
      show (K.NUM_BATCHES - b) * (cost + 5) + 2 * cost + 6 < (K.NUM_BATCHES + 1 - b) * (cost + 5) + cost + 3
      rw [hsub, Nat.add_mul]
      omega
    · show cost + 2 < (K.NUM_BATCHES + 1 - b) * (cost + 5) + cost + 3
      omega
  | look b =>
    intro x
    dsimp only
    split_ifs
    · exact Nat.lt_succ_self _
    · exact Nat.lt_succ_self _
  | rest b => exact Nat.lt_succ_self _
  | ready b =>
    show (K.NUM_BATCHES - b) * (cost + 5) + cost + 4 + Fintype.card (Option α) * 7 <
      (K.NUM_BATCHES - b) * (cost + 5) + 2 * cost + 5
    omega
  | put b =>
    show (K.NUM_BATCHES + 1 - (b + 1)) * (cost + 5) + cost + 3 < (K.NUM_BATCHES - b) * (cost + 5) + cost + 4
    rw [Nat.add_sub_add_right]
    omega
  | fedUp =>
    show 1 + Fintype.card (Option α) * 7 < cost + 2
    omega
  | bye => exact Nat.lt_succ_self _
  | done => trivial

theorem animal_ranked {α : Type} [Fintype α] (K : Recipe) (cost : ℕ) (l : AnimalLoc) :
    Ranked (Option α) (rank K cost) 6 wakeCost (otherAnimalThread K l) (.animal l) := by
  cases l with
  | again n =>
    simp only [otherAnimalThread]
    split_ifs with hn
    · show (K.NUM_LOAVES_TO_EAT - n - 1) * 7 + 6 < (K.NUM_LOAVES_TO_EAT - n) * 7
      omega
    · trivial
  | look n =>
    intro x
    dsimp only
    split_ifs
    · exact Nat.lt_succ_self _
    · show (K.NUM_LOAVES_TO_EAT - n - 1) * 7 + 1 < (K.NUM_LOAVES_TO_EAT - n - 1) * 7 + 6
      omega
  | complain n =>
    show (K.NUM_LOAVES_TO_EAT - n - 1) * 7 + 1 + 3 < (K.NUM_LOAVES_TO_EAT - n - 1) * 7 + 5
    omega
  | rest n =>
    show (K.NUM_LOAVES_TO_EAT - n - 1) * 7 + 6 < (K.NUM_LOAVES_TO_EAT - n - 1) * 7 + 1 + 6
    omega
  | eat n =>
    show (K.NUM_LOAVES_TO_EAT - (n + 1)) * 7 < (K.NUM_LOAVES_TO_EAT - n - 1) * 7 + 1
    omega

/-- While `i` runs inside, nobody else is inside but at the end of a wait. -/
theorem alone {α : Type} {K : Recipe} {s : State α} {i : Option α} (hmx : MutexInv (kitchen K) inside s)
    (hm : s.mode i = .awake) (hl : inside (s.loc i) = true) {j : Option α} (hj : inside (s.loc j) = true)
    (hw : ∀ n, s.loc j ≠ .hen (.look n) ∧ s.loc j ≠ .animal (.look n)) : j = i := by
  refine hmx.alone hm hl hj fun c l hc => ?_
  rcases kitchen_wait hc with ⟨n, hn, -⟩ | ⟨n, hn, -⟩
  · exact (hw n).1 hn
  · exact (hw n).2 hn

section

variable {α : Type} [Fintype α] {K : Recipe} {s s' t : State α} {i : Option α}

/-- The loaves that all animals together have taken. -/
def eatenSoFar (s : State α) : ℤ := ∑ a : α, ((s.loc (some a)).eaten : ℤ)

/-- The batches baked so far. -/
def bakedSoFar (K : Recipe) (s : State α) : ℤ := ((s.loc none).baked K : ℤ)

structure Inv (K : Recipe) (s : State α) : Prop where
  role : ∀ i, (s.loc i).isHen = i.isNone
  fits : ∀ i, (s.loc i).Fits K
  account : eatenSoFar s + s.shared.numLoaves = K.NUM_LOAVES_PER_BATCH * bakedSoFar K s
  nonneg : 0 ≤ s.shared.numLoaves
  batch : s.shared.numLoaves ≤ K.NUM_LOAVES_PER_BATCH
  /-- An animal complains before an empty table only. -/
  hungry : ∀ i n, s.loc i = .animal (.complain n) ∨ s.loc i = .animal (.rest n) → s.shared.numLoaves = 0
  /-- The hen rests before a table with loaves only. -/
  laid : ∀ i n, s.loc i = .hen (.rest n) → 0 < s.shared.numLoaves
  /-- An animal sleeps before an empty table, unless the hen is about to announce a batch. -/
  sleeps : ∀ a c, s.mode (some a) = .asleep c → s.shared.numLoaves = 0 ∨ ∃ n, s.loc none = .hen (.ready n)
  /-- Before an empty table the hen does not sleep once an animal has complained. -/
  called : ∀ c, s.mode none = .asleep c → s.shared.numLoaves = 0 →
    ∀ a, (s.mode (some a)).isAsleep = false ∧ ∀ n, s.loc (some a) ≠ .animal (.rest n)
  worth : ∀ c, s.mode none = .asleep c → 0 < K.NUM_LOAVES_PER_BATCH

theorem initial_inv : Inv K (initial ⟨0⟩ start : State α) := by
  constructor
  · intro i
    cases i <;> rfl
  · intro i
    cases i with
    | none => exact ⟨le_refl 1, by simp⟩
    | some a => exact Nat.zero_le _
  · simp [eatenSoFar, bakedSoFar, initial, start, Loc.eaten, Loc.baked]
  · exact le_refl 0
  · exact Int.natCast_nonneg _
  · intro i n h
    rfl
  · intro i n h
    cases i <;> cases h
  · intro a c h
    cases h
  · intro c h
    cases h
  · intro c h
    cases h

theorem Inv.wake (h : Inv K s) (hsh : t.shared = s.shared) (hloc : t.loc = s.loc)
    (hm : ∀ i c, t.mode i = .asleep c → s.mode i = .asleep c) : Inv K t := by
  have he : eatenSoFar t = eatenSoFar s := by rw [eatenSoFar, eatenSoFar, hloc]
  have hb : bakedSoFar K t = bakedSoFar K s := by rw [bakedSoFar, bakedSoFar, hloc]
  constructor
  · rw [hloc]
    exact h.role
  · rw [hloc]
    exact h.fits
  · rw [he, hb, hsh]
    exact h.account
  · rw [hsh]
    exact h.nonneg
  · rw [hsh]
    exact h.batch
  · rw [hloc, hsh]
    exact h.hungry
  · rw [hloc, hsh]
    exact h.laid
  · intro a c hc
    rw [hloc, hsh]
    exact h.sleeps a c (hm _ c hc)
  · intro c hc h0 a
    rw [hsh] at h0
    obtain ⟨h1, h2⟩ := h.called c (hm _ c hc) h0 a
    refine ⟨?_, by rw [hloc]; exact h2⟩
    exact Mode.isAsleep_eq_false.mpr fun d hd => Mode.isAsleep_eq_false.mp h1 d (hm _ d hd)
  · intro c hc
    exact h.worth c (hm _ c hc)

theorem eatenSoFar_congr (h : ∀ a, (t.loc (some a)).eaten = (s.loc (some a)).eaten) : eatenSoFar t = eatenSoFar s := by
  unfold eatenSoFar
  simp only [h]

/-- Every animal has eaten at most what it wants. -/
theorem Inv.eaten_le (h : Inv K s) (a : α) : (s.loc (some a)).eaten ≤ K.NUM_LOAVES_TO_EAT := by
  have hfit := h.fits (some a)
  have hrole := h.role (some a)
  match hl : s.loc (some a) with
  | .hen _ =>
    rw [hl] at hrole
    cases hrole
  | .animal (.again n) =>
    rw [hl] at hfit
    exact hfit
  | .animal (.look n) | .animal (.complain n) | .animal (.rest n) =>
    rw [hl] at hfit
    exact Nat.le_of_lt hfit
  | .animal (.eat n) =>
    rw [hl] at hfit
    exact hfit

/-- An animal that has finished has had its fill. -/
theorem Inv.eaten_of_finished (h : Inv K s) {a : α} (hf : ¬ Unfinished (kitchen K) s (some a)) :
    (s.loc (some a)).eaten = K.NUM_LOAVES_TO_EAT := by
  have hle := h.eaten_le a
  have hrole := h.role (some a)
  unfold Unfinished at hf
  match hl : s.loc (some a) with
  | .hen _ =>
    rw [hl] at hrole
    cases hrole
  | .animal (.again n) =>
    rw [hl] at hf hle
    simp only [kitchen, otherAnimalThread] at hf
    split_ifs at hf with hn
    · exact absurd rfl hf
    · exact le_antisymm hle (not_lt.mp hn)
  | .animal (.look n) | .animal (.complain n) | .animal (.rest n) | .animal (.eat n) =>
    rw [hl] at hf
    exact absurd rfl hf

/-- **Nobody is left hungry.**  When all that have not finished sleep, all have finished. -/
theorem Inv.all_finished (h : Inv K s) (hmx : MutexInv (kitchen K) inside s)
    (hk : Fintype.card α * K.NUM_LOAVES_TO_EAT = K.NUM_BATCHES * K.NUM_LOAVES_PER_BATCH)
    (ha : AllAsleep (kitchen K) s) : ∀ i, ¬ Unfinished (kitchen K) s i := by
  have hacc := h.account
  have hnn := h.nonneg
  have hk' : (Fintype.card α : ℤ) * K.NUM_LOAVES_TO_EAT = K.NUM_BATCHES * K.NUM_LOAVES_PER_BATCH := by exact_mod_cast hk
  have hsum : ∑ _a : α, (K.NUM_LOAVES_TO_EAT : ℤ) = Fintype.card α * K.NUM_LOAVES_TO_EAT := by
    rw [Finset.sum_const, nsmul_eq_mul, Finset.card_univ]
  -- the hen has finished: while she sleeps no animal does, so all loaves are eaten and she has batches to bake
  have hhen : ¬ Unfinished (kitchen K) s none := by
    intro hu
    obtain ⟨c, hc⟩ := Mode.isAsleep_iff.mp (ha none hu)
    obtain ⟨b, hb⟩ : ∃ b, s.loc none = .hen (.look b) := by
      obtain ⟨l, hw⟩ := hmx.asleep _ c hc
      have hrole := h.role none
      rcases kitchen_wait hw with ⟨b, hb, -⟩ | ⟨b, hb, -⟩
      · exact ⟨b, hb⟩
      · rw [hb] at hrole
        cases hrole
    obtain ⟨hb1, hb2⟩ : 1 ≤ b ∧ b ≤ K.NUM_BATCHES := by
      have := h.fits none
      rwa [hb] at this
    have hall : ∀ a : α, ((s.loc (some a)).eaten : ℤ) = K.NUM_LOAVES_TO_EAT := by
      intro a
      have hf : ¬ Unfinished (kitchen K) s (some a) := by
        intro hua
        have hsl := ha (some a) hua
        obtain ⟨d, hd⟩ := Mode.isAsleep_iff.mp hsl
        rcases h.sleeps a d hd with h0 | ⟨n, hn⟩
        · rw [(h.called c hc h0 a).1] at hsl
          cases hsl
        · rw [hb] at hn
          cases hn
      rw [h.eaten_of_finished hf]
    have hpos := h.worth c hc
    have htot : eatenSoFar s = Fintype.card α * K.NUM_LOAVES_TO_EAT := by
      unfold eatenSoFar
      rw [← hsum]
      exact Finset.sum_congr rfl fun a _ => hall a
    unfold bakedSoFar at hacc
    rw [hb, htot, hk'] at hacc
    simp only [Loc.baked] at hacc
    have hcast : ((b - 1 : ℕ) : ℤ) = (b : ℤ) - 1 := by omega
    rw [hcast] at hacc
    have hle : (K.NUM_LOAVES_PER_BATCH : ℤ) * ((b : ℤ) - 1) ≤ K.NUM_LOAVES_PER_BATCH * ((K.NUM_BATCHES : ℤ) - 1) :=
      mul_le_mul_of_nonneg_left (by omega) (by omega)
    have hpos' : (0 : ℤ) < K.NUM_LOAVES_PER_BATCH := by exact_mod_cast hpos
    linarith
  intro i hu
  cases i with
  | none => exact hhen hu
  | some a =>
    obtain ⟨c, hc⟩ := Mode.isAsleep_iff.mp (ha (some a) hu)
    have hdone : s.loc none = .hen .done := by
      have hrole := h.role none
      unfold Unfinished at hhen
      match hl : s.loc none with
      | .animal _ =>
        rw [hl] at hrole
        cases hrole
      | .hen .done => rfl
      | .hen (.again b) =>
        rw [hl] at hhen
        simp only [kitchen, littleRedHenThread] at hhen
        split_ifs at hhen <;> exact absurd rfl hhen
      | .hen (.look _) | .hen (.rest _) | .hen (.ready _) | .hen (.put _) | .hen .fedUp | .hen .bye =>
        rw [hl] at hhen
        exact absurd rfl hhen
    -- it sleeps before an empty table although everything was baked, so somebody has eaten too much
    have h0 : s.shared.numLoaves = 0 := by
      rcases h.sleeps a c hc with h0 | ⟨n, hn⟩
      · exact h0
      · rw [hdone] at hn
        cases hn
    have hlt : (s.loc (some a)).eaten < K.NUM_LOAVES_TO_EAT := by
      obtain ⟨l, hw⟩ := hmx.asleep _ c hc
      have hrole := h.role (some a)
      have hfit := h.fits (some a)
      rcases kitchen_wait hw with ⟨b, hb, -⟩ | ⟨n, hn, -⟩
      · rw [hb] at hrole
        cases hrole
      · rw [hn] at hfit ⊢
        exact hfit
    have hless : eatenSoFar s < Fintype.card α * K.NUM_LOAVES_TO_EAT := by
      rw [← hsum]
      refine Finset.sum_lt_sum (fun b _ => ?_) ⟨a, Finset.mem_univ a, ?_⟩
      · exact_mod_cast h.eaten_le b
      · exact_mod_cast hlt
    unfold bakedSoFar at hacc
    rw [hdone, h0] at hacc
    simp only [Loc.baked] at hacc
    linarith

variable [DecidableEq α]

/-- Thread `i` moves and nothing is eaten. -/
theorem eatenSoFar_goto {n : Loc} (hloc : t.loc = (s.goto i n).loc) (hn : n.eaten = (s.loc i).eaten) :
    eatenSoFar t = eatenSoFar s := by
  refine eatenSoFar_congr fun a => ?_
  rw [hloc, St.goto_loc_apply]
  split_ifs with ha
  · rw [hn, ha]
  · rfl

/-- **A step that assigns nothing.**  The thread `i` goes to `n`; sleepers may wake up. -/
theorem Inv.move {n : Loc} (h : Inv K s) (hsh : t.shared = s.shared) (hloc : t.loc = (s.goto i n).loc)
    (hm : ∀ i c, t.mode i = .asleep c → s.mode i = .asleep c) (hhen : n.isHen = (s.loc i).isHen) (hfit : n.Fits K)
    (heat : n.eaten = (s.loc i).eaten) (hbake : n.baked K = (s.loc i).baked K)
    (hhun : ∀ k, n = .animal (.complain k) ∨ n = .animal (.rest k) → s.shared.numLoaves = 0)
    (hlaid : ∀ k, n = .hen (.rest k) → 0 < s.shared.numLoaves)
    (hready : (∃ k, s.loc i = .hen (.ready k)) → ∀ a, (t.mode (some a)).isAsleep = false)
    (hcall : (∃ k, n = .animal (.rest k)) → (t.mode none).isAsleep = false) : Inv K t := by
  have he : eatenSoFar t = eatenSoFar s := eatenSoFar_goto hloc heat
  have hb : bakedSoFar K t = bakedSoFar K s := by
    unfold bakedSoFar
    rw [hloc, St.goto_loc_apply]
    split_ifs with hi
    · rw [hbake, hi]
    · rfl
  constructor
  · intro j
    rw [hloc, St.goto_loc_apply]
    split_ifs with hj
    · rw [hhen, hj]
      exact h.role i
    · exact h.role j
  · intro j
    rw [hloc, St.goto_loc_apply]
    split_ifs with hj
    · exact hfit
    · exact h.fits j
  · rw [he, hb, hsh]
    exact h.account
  · rw [hsh]
    exact h.nonneg
  · rw [hsh]
    exact h.batch
  · intro j k hj
    rw [hsh]
    rw [hloc, St.goto_loc_apply] at hj
    split_ifs at hj
    · exact hhun k hj
    · exact h.hungry j k hj
  · intro j k hj
    rw [hsh]
    rw [hloc, St.goto_loc_apply] at hj
    split_ifs at hj
    · exact hlaid k hj
    · exact h.laid j k hj
  · intro a c hc
    rw [hsh, hloc]
    rcases h.sleeps a c (hm _ c hc) with h0 | ⟨k, hk⟩
    · exact .inl h0
    · by_cases hi : none = i
      · have hna := hready ⟨k, hi ▸ hk⟩ a
        rw [hc] at hna
        cases hna
      · right
        refine ⟨k, ?_⟩
        rw [St.goto_loc_of_ne s n hi]
        exact hk
  · intro c hc h0 a
    rw [hsh] at h0
    obtain ⟨h1, h2⟩ := h.called c (hm _ c hc) h0 a
    constructor
    · exact Mode.isAsleep_eq_false.mpr fun d hd => Mode.isAsleep_eq_false.mp h1 d (hm _ d hd)
    · intro k hk
      rw [hloc, St.goto_loc_apply] at hk
      split_ifs at hk
      · have hna := hcall ⟨k, hk⟩
        rw [hc] at hna
        cases hna
      · exact h2 k hk
  · intro c hc
    exact h.worth c (hm _ c hc)

/-- The hen bakes a batch. -/
theorem Inv.bake {b : ℕ} (h : Inv K s) (hmx : MutexInv (kitchen K) inside s) (hm : s.mode none = .awake)
    (hl : s.loc none = .hen (.look b)) (h0 : s.shared.numLoaves = 0) :
    Inv K (s.assign none (.hen (.ready b)) ⟨s.shared.numLoaves + K.NUM_LOAVES_PER_BATCH⟩) := by
  have hin : inside (s.loc none) = true := by rw [hl]; rfl
  obtain ⟨hb1, hb2⟩ : 1 ≤ b ∧ b ≤ K.NUM_BATCHES := by
    have := h.fits none
    rwa [hl] at this
  constructor
  · intro j
    rw [St.assign_loc, St.goto_loc_apply]
    split_ifs with hj
    · rw [hj]
      rfl
    · exact h.role j
  · intro j
    rw [St.assign_loc, St.goto_loc_apply]
    split_ifs with hj
    · exact ⟨hb1, hb2⟩
    · exact h.fits j
  · have hacc := h.account
    rw [eatenSoFar_goto (t := s.assign none (.hen (.ready b)) ⟨s.shared.numLoaves + K.NUM_LOAVES_PER_BATCH⟩) (s := s)
      (i := none) (n := .hen (.ready b)) rfl (by rw [hl]; rfl)]
    unfold bakedSoFar at hacc ⊢
    rw [hl] at hacc
    rw [St.assign_loc, St.goto_loc_self, St.assign_shared]
    simp only [Loc.baked] at hacc ⊢
    have hcast : ((b - 1 : ℕ) : ℤ) = (b : ℤ) - 1 := by omega
    rw [hcast] at hacc
    linarith
  · show 0 ≤ s.shared.numLoaves + K.NUM_LOAVES_PER_BATCH
    omega
  · show s.shared.numLoaves + K.NUM_LOAVES_PER_BATCH ≤ K.NUM_LOAVES_PER_BATCH
    omega
  · intro j n hj
    rw [St.assign_loc, St.goto_loc_apply] at hj
    split_ifs at hj with hjn
    · rcases hj with hj | hj <;> cases hj
    · have hj' : inside (s.loc j) = true := by
        rcases hj with hj | hj <;> rw [hj] <;> rfl
      refine absurd (alone hmx hm hin hj' fun k => ?_) hjn
      rcases hj with hj | hj <;> rw [hj] <;> simp
  · intro j n hj
    rw [St.assign_loc, St.goto_loc_apply] at hj
    split_ifs at hj with hjn
    · cases hj
    · have hrole := h.role j
      rw [hj] at hrole
      cases j with
      | none => exact absurd rfl hjn
      | some a => cases hrole
  · intro a c hc
    right
    exact ⟨b, St.goto_loc_self s none _⟩
  · intro c hc
    rw [St.assign_mode, hm] at hc
    cases hc
  · intro c hc
    rw [St.assign_mode, hm] at hc
    cases hc

/-- One animal takes a loaf. -/
theorem eatenSoFar_eat {a : α} {n : ℕ} (hl : s.loc (some a) = .animal (.look n))
    (hloc : t.loc = (s.goto (some a) (.animal (.eat n))).loc) :
    eatenSoFar t = eatenSoFar s + 1 := by
  have h := Tally.sum_write (f := fun b : α => ((s.loc (some b)).eaten : ℤ)) (g := fun b : α => ((t.loc (some b)).eaten : ℤ))
    (i := a) fun b hb => by rw [hloc, St.goto_loc_of_ne s _ (by simpa using hb)]
  have hn : t.loc (some a) = .animal (.eat n) := by rw [hloc, St.goto_loc_self]
  rw [hl, hn] at h
  have hs : eatenSoFar s = ∑ b : α, ((s.loc (some b)).eaten : ℤ) := rfl
  have ht : eatenSoFar t = ∑ b : α, ((t.loc (some b)).eaten : ℤ) := rfl
  simp only [Loc.eaten] at h hs ht
  push_cast at h
  linarith

/-- An animal takes a loaf from the table. -/
theorem Inv.eat {a : α} {n : ℕ} (h : Inv K s) (hmx : MutexInv (kitchen K) inside s) (hm : s.mode (some a) = .awake)
    (hl : s.loc (some a) = .animal (.look n)) (h0 : s.shared.numLoaves ≠ 0) :
    Inv K (s.assign (some a) (.animal (.eat n)) ⟨s.shared.numLoaves - 1⟩) := by
  have hin : inside (s.loc (some a)) = true := by rw [hl]; rfl
  have hnn := h.nonneg
  have hfit : n < K.NUM_LOAVES_TO_EAT := by
    have := h.fits (some a)
    rwa [hl] at this
  -- nobody sleeps for bread, since there is some and the hen is not announcing it just now
  have hawake : ∀ b, (s.mode (some b)).isAsleep = false := by
    intro b
    refine Mode.isAsleep_eq_false.mpr fun c hc => ?_
    rcases h.sleeps b c hc with hz | ⟨k, hk⟩
    · exact h0 hz
    · have hja : none = some a := alone hmx hm hin (by rw [hk]; rfl) (by simp [hk])
      cases hja
  constructor
  · intro j
    rw [St.assign_loc, St.goto_loc_apply]
    split_ifs with hj
    · rw [hj]
      rfl
    · exact h.role j
  · intro j
    rw [St.assign_loc, St.goto_loc_apply]
    split_ifs with hj
    · exact hfit
    · exact h.fits j
  · have hacc := h.account
    rw [eatenSoFar_eat (t := s.assign (some a) (.animal (.eat n)) ⟨s.shared.numLoaves - 1⟩) hl rfl]
    unfold bakedSoFar at hacc ⊢
    rw [St.assign_loc, St.goto_loc_of_ne s _ (by simp), St.assign_shared]
    linarith
  · show 0 ≤ s.shared.numLoaves - 1
    omega
  · show s.shared.numLoaves - 1 ≤ _
    have := h.batch
    omega
  · intro j k hj
    rw [St.assign_loc, St.goto_loc_apply] at hj
    split_ifs at hj
    · rcases hj with hj | hj <;> cases hj
    · exact absurd (h.hungry j k hj) h0
  · intro j k hj
    rw [St.assign_loc, St.goto_loc_apply] at hj
    split_ifs at hj with hja
    exact absurd (alone hmx hm hin (by rw [hj]; rfl) (by simp [hj])) hja
  · intro b c hc
    rw [St.assign_mode] at hc
    have hb := hawake b
    rw [hc] at hb
    cases hb
  · intro c hc _ b
    refine ⟨hawake b, fun k hk => ?_⟩
    rw [St.assign_loc, St.goto_loc_apply] at hk
    split_ifs at hk
    · cases hk
    · exact absurd (h.hungry _ k (.inr hk)) h0
  · intro c hc
    exact h.worth c hc

/-- **Step lemma**, the hen's instructions. -/
theorem Inv.hen_step {l : HenLoc} (h : Inv K s) (hmx : MutexInv (kitchen K) inside s) (hm : s.mode none = .awake)
    (hl : s.loc none = .hen l) (he : Effect s none (littleRedHenThread K l) s') : Inv K s' := by
  have hfit := h.fits none
  rw [hl] at hfit
  have hsame : ∀ (i : Option α) (c : Cond), s.mode i = .asleep c → s.mode i = .asleep c := fun _ _ hc => hc
  cases l with
  | again b =>
    have hfit : 1 ≤ b ∧ b ≤ K.NUM_BATCHES + 1 := hfit
    simp only [littleRedHenThread] at he
    by_cases hb : b ≤ K.NUM_BATCHES
    · rw [if_pos hb] at he
      obtain ⟨-, rfl⟩ := he
      exact h.move (i := none) (n := .hen (.look b)) rfl rfl hsame (by rw [hl]; rfl) ⟨hfit.1, hb⟩ (by rw [hl]; rfl)
        (by rw [hl]; rfl) (by simp) (by simp) (by simp [hl]) (by simp)
    · rw [if_neg hb] at he
      obtain ⟨-, rfl⟩ := he
      have hbake : K.NUM_BATCHES = b - 1 := by omega
      exact h.move (i := none) (n := .hen .fedUp) rfl rfl hsame (by rw [hl]; rfl) trivial (by rw [hl]; rfl)
        (by rw [hl]; exact hbake) (by simp) (by simp) (by simp [hl]) (by simp)
  | look b =>
    obtain rfl := he
    by_cases hg : s.shared.numLoaves > 0
    · simp only [if_pos hg]
      exact h.move (i := none) (n := .hen (.rest b)) rfl rfl hsame (by rw [hl]; rfl) hfit (by rw [hl]; rfl)
        (by rw [hl]; rfl) (by simp) (fun _ _ => hg) (by simp [hl]) (by simp)
    · simp only [if_neg hg]
      have hnn := h.nonneg
      exact h.bake hmx hm hl (by omega)
  | rest b =>
    obtain ⟨-, rfl⟩ := he
    have hpos := h.laid none b hl
    have hmv : Inv K (s.goto none (.hen (.look b))) :=
      h.move (i := none) (n := .hen (.look b)) rfl rfl hsame (by rw [hl]; rfl) hfit (by rw [hl]; rfl)
        (by rw [hl]; rfl) (by simp) (by simp) (by simp [hl]) (by simp)
    refine ⟨hmv.role, hmv.fits, hmv.account, hmv.nonneg, hmv.batch, hmv.hungry, hmv.laid, fun a c hc => ?_, ?_, ?_⟩
    · have hc : ((s.goto none (.hen (.look b))).setMode none (.asleep .need_more_bread)).mode (some a) = .asleep c := hc
      rw [St.setMode_mode_apply, if_neg (by simp)] at hc
      exact hmv.sleeps a c hc
    · intro c _ h0
      exact absurd h0 hpos.ne'
    · intro c _
      have := h.batch
      omega
  | ready b =>
    obtain rfl := he
    refine h.move (i := none) (n := .hen (.put b)) rfl rfl ?_ (by rw [hl]; rfl) hfit (by rw [hl]; rfl)
        (by rw [hl]; rfl) (by simp) (by simp) ?_ (by simp)
    · exact fun j c hc => (St.asleep_of_wakeAll hc).1
    · intro _ a
      refine Mode.isAsleep_eq_false.mpr fun c hc => ?_
      obtain ⟨hc, hne⟩ := St.asleep_of_wakeAll hc
      -- an animal sleeps on `bread_ready`
      obtain ⟨l, hw⟩ := hmx.asleep _ c hc
      have hrole := h.role (some a)
      rcases kitchen_wait hw with ⟨n, hn, -⟩ | ⟨n, -, hn⟩
      · rw [hn] at hrole
        cases hrole
      · exact hne hn
  | put b =>
    obtain ⟨-, rfl⟩ := he
    have hfit : 1 ≤ b ∧ b ≤ K.NUM_BATCHES := hfit
    exact h.move (i := none) (n := .hen (.again (b + 1))) rfl rfl hsame (by rw [hl]; rfl) ⟨by omega, by omega⟩
      (by rw [hl]; rfl) (by rw [hl]; rfl) (by simp) (by simp) (by simp [hl]) (by simp)
  | fedUp =>
    obtain rfl := he
    refine h.move (i := none) (n := .hen .bye) rfl rfl ?_ (by rw [hl]; rfl) trivial (by rw [hl]; rfl)
        (by rw [hl]; rfl) (by simp) (by simp) (by simp [hl]) (by simp)
    exact fun j c hc => (St.asleep_of_wakeAll hc).1
  | bye =>
    obtain ⟨-, rfl⟩ := he
    exact h.move (i := none) (n := .hen .done) rfl rfl hsame (by rw [hl]; rfl) trivial (by rw [hl]; rfl)
        (by rw [hl]; rfl) (by simp) (by simp) (by simp [hl]) (by simp)
  | done => cases he

/-- **Step lemma**, an animal's instructions. -/
theorem Inv.animal_step {a : α} {l : AnimalLoc} (h : Inv K s) (hmx : MutexInv (kitchen K) inside s)
    (hm : s.mode (some a) = .awake) (hl : s.loc (some a) = .animal l)
    (he : Effect s (some a) (otherAnimalThread K l) s') : Inv K s' := by
  have hfit := h.fits (some a)
  rw [hl] at hfit
  have hsame : ∀ (i : Option α) (c : Cond), s.mode i = .asleep c → s.mode i = .asleep c := fun _ _ hc => hc
  cases l with
  | again n =>
    simp only [otherAnimalThread] at he
    by_cases hn : n < K.NUM_LOAVES_TO_EAT
    · rw [if_pos hn] at he
      obtain ⟨-, rfl⟩ := he
      exact h.move (i := some a) (n := .animal (.look n)) rfl rfl hsame (by rw [hl]; rfl) hn (by rw [hl]; rfl)
        (by rw [hl]; rfl) (by simp) (by simp) (by simp [hl]) (by simp)
    · rw [if_neg hn] at he
      cases he
  | look n =>
    obtain rfl := he
    by_cases h0 : s.shared.numLoaves = 0
    · simp only [if_pos h0]
      exact h.move (i := some a) (n := .animal (.complain n)) rfl rfl hsame (by rw [hl]; rfl) hfit (by rw [hl]; rfl)
        (by rw [hl]; rfl) (fun _ _ => h0) (by simp) (by simp [hl]) (by simp)
    · simp only [if_neg h0]
      exact h.eat hmx hm hl h0
  | complain n =>
    have h0 := h.hungry (some a) n (.inl hl)
    -- the hen, if she sleeps, sleeps on `need_more_bread`
    have hhen : ∀ c, s.mode none = .asleep c → c = .need_more_bread := by
      intro c hc
      obtain ⟨l, hw⟩ := hmx.asleep _ c hc
      have hrole := h.role none
      rcases kitchen_wait hw with ⟨k, -, hk⟩ | ⟨k, hk, -⟩
      · exact hk
      · rw [hk] at hrole
        cases hrole
    rcases he with ⟨hno, rfl⟩ | ⟨j, hj, rfl⟩
    · refine h.move (i := some a) (n := .animal (.rest n)) rfl rfl hsame (by rw [hl]; rfl) hfit (by rw [hl]; rfl)
        (by rw [hl]; rfl) (fun _ _ => h0) (by simp) (by simp [hl]) fun _ => ?_
      refine Mode.isAsleep_eq_false.mpr fun c hc => ?_
      have hc : s.mode none = .asleep c := hc
      exact hno none (hhen c hc ▸ hc)
    · -- only the hen sleeps on `need_more_bread`
      have hjn : j = none := by
        obtain ⟨l, hw⟩ := hmx.asleep _ _ hj
        have hrole := h.role j
        rcases kitchen_wait hw with ⟨k, hk, -⟩ | ⟨k, -, hk⟩
        · rw [hk] at hrole
          cases j with
          | none => rfl
          | some b => cases hrole
        · cases hk
      subst hjn
      refine h.move (i := some a) (n := .animal (.rest n)) rfl rfl ?_ (by rw [hl]; rfl) hfit (by rw [hl]; rfl)
        (by rw [hl]; rfl) (fun _ _ => h0) (by simp) (by simp [hl]) fun _ => ?_
      · exact fun j c hc => (St.asleep_of_setMode (by simp) hc).1
      · rw [St.goto_mode, St.setMode_mode_self]
        rfl
  | rest n =>
    obtain ⟨-, rfl⟩ := he
    have h0 := h.hungry (some a) n (.inr hl)
    have hmv : Inv K (s.goto (some a) (.animal (.look n))) :=
      h.move (i := some a) (n := .animal (.look n)) rfl rfl hsame (by rw [hl]; rfl) hfit (by rw [hl]; rfl)
        (by rw [hl]; rfl) (by simp) (by simp) (by simp [hl]) (by simp)
    -- she was called just before, so the hen does not sleep
    have hhen : ∀ c, s.mode none ≠ .asleep c := fun c hc => (h.called c hc h0 a).2 n hl
    refine ⟨hmv.role, hmv.fits, hmv.account, hmv.nonneg, hmv.batch, hmv.hungry, hmv.laid, fun _ _ _ => .inl h0, ?_, ?_⟩
    · intro c hc
      exact absurd hc (hhen c)
    · intro c hc
      exact absurd hc (hhen c)
  | eat n =>
    obtain ⟨-, rfl⟩ := he
    exact h.move (i := some a) (n := .animal (.again (n + 1))) rfl rfl hsame (by rw [hl]; rfl) hfit (by rw [hl]; rfl)
      (by rw [hl]; rfl) (by simp) (by simp) (by simp [hl]) (by simp)

/-- **Step lemma.** -/
theorem Inv.step (h : Inv K s) (hmx : MutexInv (kitchen K) inside s) (hm : s.mode i = .awake)
    (he : Effect s i (kitchen K i (s.loc i)) s') : Inv K s' := by
  have hrole := h.role i
  cases i with
  | none =>
    cases hl : s.loc none with
    | hen l =>
      rw [hl] at he
      exact h.hen_step hmx hm hl he
    | animal l =>
      rw [hl] at hrole
      cases hrole
  | some a =>
    cases hl : s.loc (some a) with
    | hen l =>
      rw [hl] at hrole
      cases hrole
    | animal l =>
      rw [hl] at he
      exact h.animal_step hmx hm hl he

/-- **Step lemma**, with the changes among the sleepers. -/
theorem inv_step {a : Act (Option α)} (h : MutexInv (kitchen K) inside s ∧ Inv K s) (hs : StepRes (kitchen K) s a s') :
    MutexInv (kitchen K) inside s' ∧ Inv K s' := by
  refine hs.preserves h (kitchen_typed K) ?_ ?_
  · intro s t hI hsh hloc hm
    exact hI.wake hsh hloc hm
  · intro i s' _ hm he
    exact h.2.step h.1 hm he

/-- **Run lemma.** -/
theorem run_inv {tr : List (Ev (State α) (Act (Option α)) Unit)}
    (h : Run (Step (kitchen K)) always (initial ⟨0⟩ start) tr s) : MutexInv (kitchen K) inside s ∧ Inv K s := by
  have h0 : MutexInv (kitchen K) inside (initial ⟨0⟩ start : State α) :=
    initial_mutexInv fun i => by cases i <;> rfl
  exact h.inv (I := fun s => MutexInv (kitchen K) inside s ∧ Inv K s) ⟨h0, initial_inv⟩
    fun x a o y hI _ hst => inv_step hI (next_inv hst)

/-- A batch is baked at an empty table. -/
theorem Inv.baked_at_empty {a : Act (Option α)} (h : Inv K s) (hs : StepRes (kitchen K) s a s')
    (hne : bakedSoFar K s' ≠ bakedSoFar K s) : s.shared.numLoaves = 0 := by
  cases hs with
  | spurious => exact absurd rfl hne
  | relock => exact absurd rfl hne
  | @exec i _ _ ha hm he =>
    -- the place of the hen after the step, for each way in which thread `i` can move
    have hmove : ∀ {n : Loc}, s'.loc = (s.goto i n).loc → n.baked K = (s.loc i).baked K → False := by
      intro n hloc hn
      apply hne
      unfold bakedSoFar
      rw [hloc, St.goto_loc_apply]
      split_ifs with hi
      · rw [hn, hi]
      · rfl
    have hfit := h.fits i
    have hnn := h.nonneg
    match hl : s.loc i with
    | .hen (.again b) =>
      rw [hl] at he hfit
      have hfit : 1 ≤ b ∧ b ≤ K.NUM_BATCHES + 1 := hfit
      simp only [kitchen, littleRedHenThread] at he
      by_cases hb : b ≤ K.NUM_BATCHES
      · rw [if_pos hb] at he
        obtain ⟨-, rfl⟩ := he
        exact (hmove (n := .hen (.look b)) rfl (by rw [hl]; rfl)).elim
      · rw [if_neg hb] at he
        obtain ⟨-, rfl⟩ := he
        refine (hmove (n := .hen .fedUp) rfl ?_).elim
        rw [hl]
        show K.NUM_BATCHES = b - 1
        omega
    | .hen (.look b) =>
      rw [hl] at he
      obtain rfl := he
      by_contra h0
      have hg : s.shared.numLoaves > 0 := by omega
      refine hmove (n := .hen (.rest b)) ?_ (by rw [hl]; rfl)
      simp only [if_pos hg]
      rfl
    | .hen (.rest b) =>
      rw [hl] at he
      obtain ⟨-, rfl⟩ := he
      exact (hmove (n := .hen (.look b)) rfl (by rw [hl]; rfl)).elim
    | .hen (.ready b) =>
      rw [hl] at he
      obtain rfl := he
      exact (hmove (n := .hen (.put b)) rfl (by rw [hl]; rfl)).elim
    | .hen (.put b) =>
      rw [hl] at he
      obtain ⟨-, rfl⟩ := he
      exact (hmove (n := .hen (.again (b + 1))) rfl (by rw [hl]; rfl)).elim
    | .hen .fedUp =>
      rw [hl] at he
      obtain rfl := he
      exact (hmove (n := .hen .bye) rfl (by rw [hl]; rfl)).elim
    | .hen .bye =>
      rw [hl] at he
      obtain ⟨-, rfl⟩ := he
      exact (hmove (n := .hen .done) rfl (by rw [hl]; rfl)).elim
    | .hen .done =>
      rw [hl] at he
      cases he
    | .animal l =>
      -- an animal's step does not move the hen
      have hi : none ≠ i := by
        rintro rfl
        have hrole := h.role none
        rw [hl] at hrole
        cases hrole
      have hloc : ∃ n, s'.loc = (s.goto i n).loc := he.goto
      obtain ⟨n, hloc⟩ := hloc
      refine absurd ?_ hne
      unfold bakedSoFar
      rw [hloc, St.goto_loc_of_ne s n hi]

/-! ## Every run ends -/

/-- The number of steps that a run without spurious wakeups takes at most. -/
def bound (K : Recipe) (k : ℕ) : ℕ :=
  K.NUM_BATCHES * ((k + 1) * 7 + 5) + (k + 1) * 7 + 5 + k * (K.NUM_LOAVES_TO_EAT * 7 + 6)

theorem run_length_le {tr : List (Ev (State α) (Act (Option α)) Unit)}
    (h : Run (Step (kitchen K)) always (initial ⟨0⟩ start) tr s) :
    tr.length ≤ bound K (Fintype.card α) + 8 * tr.countP fun e => e.act.isSpurious := by
  have h0 : MutexInv (kitchen K) inside (initial ⟨0⟩ start : State α) :=
    initial_mutexInv fun i => by cases i <;> rfl
  have hlen := length_le (r := fun _ => rank K (Fintype.card (Option α) * 7)) (D := round) (C := wakeCost) (M := 7)
    (I := fun s => MutexInv (kitchen K) inside s ∧ Inv K s) h ⟨h0, initial_inv⟩ (fun _ _ _ hI _ hs => inv_step hI hs) ?_ ?_ ?_
  · have hpot : potential (fun _ => rank K (Fintype.card (Option α) * 7)) round (initial ⟨0⟩ start : State α) =
        bound K (Fintype.card α) := by
      unfold potential
      rw [Fintype.sum_option]
      simp only [initial, start, rank, henRank, animalRank, round, Mode.bonus, Nat.sub_zero, Finset.sum_const,
        Finset.card_univ, smul_eq_mul, Fintype.card_option, bound, Nat.add_sub_cancel]
    rw [hpot] at hlen
    exact le_trans (Nat.le_add_right _ _) hlen
  · intro s hI i
    have hrole := hI.2.role i
    cases i with
    | none =>
      cases hl : s.loc none with
      | hen l => exact hen_ranked K l
      | animal l =>
        rw [hl] at hrole
        cases hrole
    | some a =>
      cases hl : s.loc (some a) with
      | hen l =>
        rw [hl] at hrole
        cases hrole
      | animal l => exact animal_ranked K _ l
  · intro s hI j c hc
    obtain ⟨l, hw⟩ := hI.1.asleep j c hc
    have hrole := hI.2.role j
    rcases kitchen_wait hw with ⟨b, hb, rfl⟩ | ⟨b, hb, rfl⟩
    · rw [hb] at hrole
      cases j with
      | none => exact le_refl 3
      | some a => cases hrole
    · rw [hb] at hrole
      cases j with
      | none => cases hrole
      | some a => exact le_refl 7
  · intro j
    cases j <;> simp [round]

/-- **Everybody is fed.**  Whenever the loaves baked in total are the loaves wanted in total, every run keeps the account of loaves,
bakes at an empty table only, never gets to where somebody has not finished and all who have not sleep, comes to rest only with every
animal having eaten what it wants, and comes to rest unless sleepers wake without a signal for ever. -/
theorem everybody_is_fed (K : Recipe)
    (hk : Fintype.card α * K.NUM_LOAVES_TO_EAT = K.NUM_BATCHES * K.NUM_LOAVES_PER_BATCH)
    (tr : List (Ev (State α) (Act (Option α)) Unit)) (s : State α)
    (h : Run (Step (kitchen K)) always (initial ⟨0⟩ start) tr s) :
    (0 ≤ s.shared.numLoaves ∧ s.shared.numLoaves ≤ K.NUM_LOAVES_PER_BATCH) ∧
      eatenSoFar s + s.shared.numLoaves = K.NUM_LOAVES_PER_BATCH * bakedSoFar K s ∧
      (∀ a s', next (kitchen K) s a = some s' → bakedSoFar K s' ≠ bakedSoFar K s → s.shared.numLoaves = 0) ∧
      ¬ Deadlock (kitchen K) s ∧
      (Quiet (kitchen K) s → ∀ a, (s.loc (some a)).eaten = K.NUM_LOAVES_TO_EAT) ∧
      tr.length ≤ bound K (Fintype.card α) + 8 * tr.countP fun e => e.act.isSpurious := by
  obtain ⟨hmx, hI⟩ := run_inv h
  refine ⟨⟨hI.nonneg, hI.batch⟩, hI.account, fun a s' hs => hI.baked_at_empty (next_inv hs), ?_, ?_, run_length_le h⟩
  · rintro ⟨⟨i, hi⟩, ha⟩
    exact hI.all_finished hmx hk ha i hi
  · intro hq a
    have ha := hq.allAsleep hmx (kitchen_typed K)
    exact hI.eaten_of_finished (hI.all_finished hmx hk ha (some a))

/-- One animal that wants two loaves, and two batches of one loaf: both the hen and the animal have to wait. -/
theorem everybody_is_fed_run : ∃ tr, ∃ s : State Unit,
    Run (Step (kitchen ⟨1, 2, 2⟩)) always (initial ⟨0⟩ start) tr s ∧
      (¬ Deadlock (kitchen ⟨1, 2, 2⟩) s) ∧ (s.loc (some ())).eaten = 2 ∧
      tr.length ≤ bound ⟨1, 2, 2⟩ 1 + 8 * tr.countP fun e => e.act.isSpurious := by
  obtain ⟨tr, s, hr, hq⟩ := exists_run (P := kitchen ⟨1, 2, 2⟩) always (initial ⟨0⟩ start)
    [.exec (some ()), .exec (some ()), .exec (some ()), .exec (some ()), .exec none, .exec none, .exec none, .exec none,
      .exec none, .exec none, .exec none, .relock (some ()), .exec (some ()), .exec (some ()), .exec (some ()),
      .exec (some ()), .signal (some ()) none, .exec (some ()), .relock none, .exec none, .exec none, .exec none, .exec none,
      .exec none, .exec none, .relock (some ()), .exec (some ()), .exec (some ())]
    (fun _ (s : State Unit) => s.loc none = .hen .done ∧ s.loc (some ()) = .animal (.again 2)) (by decide +kernel)
  obtain ⟨-, -, -, hd, -, hlen⟩ := everybody_is_fed ⟨1, 2, 2⟩ rfl tr s hr
  refine ⟨tr, s, hr, hd, ?_, hlen⟩
  rw [hq.2]
  rfl

end

end OsLabs.CondvarChallenge.LittleRedHen
