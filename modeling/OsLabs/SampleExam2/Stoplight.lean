import OsLabs.Monitor

/-!
# OsLabs.SampleExam2.Stoplight — cars and a stoplight

`stoplight.c`: cars go north-south or east-west, and the stoplight thread changes the light between yellow (0), green north-south (1) and
green east-west (2).  `north_south` and `east_west` are one function with its values, `car`; both wait for `light` to be 1, and so does
the model.

The threads are `Option τ`: the cars `some c`, each with its direction, and the stoplight `none`.

* `north_south`, `east_west`, `stoplight`: the three functions.
* `Good`: what the intersection is to keep.
* `Held`: the guard, no east-west car tests the light while it is green north-south.
* `good_iff_held`: exactly the runs that respect the guard are good.
* `both_inside`: a run that does not.
-/

namespace OsLabs.SampleExam2.Stoplight

open Lts Monitor

structure Shared where
  light : ℤ
  nscar : ℤ
  ewcar : ℤ

inductive Cond
  | cvns | cvew | lightcv
deriving DecidableEq

inductive CarLoc
  | start | test | sleep | enter | entered | crossing | finish | signal | leave | done
deriving DecidableEq

/-- The two halves of the loop of `stoplight`. -/
inductive Half
  | toEastWest | toNorthSouth
deriving DecidableEq

inductive LightLoc
  | start | yellow | test | sleep | green | announce | leave
deriving DecidableEq

inductive Loc
  | north_south (l : CarLoc)
  | east_west (l : CarLoc)
  | stoplight (h : Half) (l : LightLoc)
deriving DecidableEq

/-- A car that waits on `cv` until the light is `green`, and counts itself by `get` and `set`. -/
def car (green : ℤ) (cv : Cond) (get : Shared → ℤ) (set : Shared → ℤ → Shared) (f : CarLoc → Loc) : CarLoc → Instr Shared Cond Loc
  | .start => .lock (f .test)
  | .test => .run fun x => (x, f (if x.light ≠ green then .sleep else .enter))
  | .sleep => .wait cv (f .test)
  | .enter => .run fun x => (set x (get x + 1), f .entered)
  | .entered => .unlock (f .crossing)
  | .crossing => .lock (f .finish)
  | .finish => .run fun x => (set x (get x - 1), f (if get x - 1 = 0 ∧ x.light = 0 then .signal else .leave))
  | .signal => .signal .lightcv (f .leave)
  | .leave => .unlock (f .done)
  | .done => .halt

def north_south : CarLoc → Instr Shared Cond Loc := car 1 .cvns (·.nscar) (fun x n => { x with nscar := n }) .north_south

/-- As the source has it: the light and the condition variable are those of `north_south`. -/
def east_west : CarLoc → Instr Shared Cond Loc := car 1 .cvns (·.ewcar) (fun x n => { x with ewcar := n }) .east_west

/-- One half of the loop: yellow, wait until `get` is zero, then `green`. -/
def half (get : Shared → ℤ) (green : ℤ) (cv : Cond) (next : Loc) (f : LightLoc → Loc) : LightLoc → Instr Shared Cond Loc
  | .start => .lock (f .yellow)
  | .yellow => .run fun x => ({ x with light := 0 }, f .test)
  | .test => .run fun x => (x, f (if get x > 0 then .sleep else .green))
  | .sleep => .wait .lightcv (f .test)
  | .green => .run fun x => ({ x with light := green }, f .announce)
  | .announce => .broadcast cv (f .leave)
  | .leave => .unlock next

def stoplight : Half → LightLoc → Instr Shared Cond Loc
  | .toEastWest => half (·.nscar) 2 .cvew (.stoplight .toNorthSouth .start) (.stoplight .toEastWest)
  | .toNorthSouth => half (·.ewcar) 1 .cvns (.stoplight .toEastWest .start) (.stoplight .toNorthSouth)

def body : Loc → Instr Shared Cond Loc
  | .north_south l => north_south l
  | .east_west l => east_west l
  | .stoplight h l => stoplight h l

inductive Direction
  | northSouth | eastWest
deriving DecidableEq

def Direction.start : Direction → Loc
  | .northSouth => .north_south .start
  | .eastWest => .east_west .start

def startLoc {τ : Type} (dir : τ → Direction) : Option τ → Loc
  | none => .stoplight .toEastWest .start
  | some c => (dir c).start

def start : Shared := ⟨1, 0, 0⟩

abbrev State (τ : Type) := St (Option τ) Shared Cond Loc

/-- In the intersection: between `nscar++` and `nscar--`, or their like. -/
def CarLoc.crosses : CarLoc → Bool
  | .entered | .crossing | .finish => true
  | _ => false

def nsInside : Loc → Bool
  | .north_south l => l.crosses
  | _ => false

def ewInside : Loc → Bool
  | .east_west l => l.crosses
  | _ => false

def isLight : Loc → Bool
  | .stoplight _ _ => true
  | _ => false

def CarLoc.inside : CarLoc → Bool
  | .start | .crossing | .done => false
  | _ => true

def LightLoc.inside : LightLoc → Bool
  | .start => false
  | _ => true

/-- Where a thread holds the mutex. -/
def inside : Loc → Bool
  | .north_south l => l.inside
  | .east_west l => l.inside
  | .stoplight _ l => l.inside

/-- The light as long as the stoplight thread is there. -/
def lightAt : Half → LightLoc → ℤ
  | .toEastWest, .start | .toEastWest, .yellow => 1
  | .toEastWest, .announce | .toEastWest, .leave => 2
  | .toNorthSouth, .start | .toNorthSouth, .yellow => 2
  | .toNorthSouth, .announce | .toNorthSouth, .leave => 1
  | _, _ => 0

/-- The stoplight thread has waited for the north-south cars to leave and has not let them in again. -/
def cleared : Half → LightLoc → Bool
  | .toEastWest, .green | .toEastWest, .announce | .toEastWest, .leave => true
  | .toEastWest, _ => false
  | .toNorthSouth, .announce | .toNorthSouth, .leave => false
  | .toNorthSouth, _ => true

theorem car_typed {green : ℤ} {cv : Cond} {get : Shared → ℤ} {set : Shared → ℤ → Shared} {f : CarLoc → Loc}
    (h : ∀ l, inside (f l) = l.inside) (l : CarLoc) : Typed inside (car green cv get set f l) (f l) := by
  cases l with
  | test | finish =>
    intro x
    dsimp only
    split_ifs
    · rw [h, h]
      rfl
    · rw [h, h]
      rfl
  | enter =>
    intro x
    exact (h _).trans (h .enter).symm
  | done => exact h .done
  | start | sleep | entered | crossing | signal | leave => exact ⟨h _, h _⟩

theorem half_typed {get : Shared → ℤ} {green : ℤ} {cv : Cond} {next : Loc} {f : LightLoc → Loc} (h : ∀ l, inside (f l) = l.inside)
    (hn : inside next = false) (l : LightLoc) : Typed inside (half get green cv next f l) (f l) := by
  cases l with
  | test =>
    intro x
    dsimp only
    split_ifs
    · rw [h, h]
      rfl
    · rw [h, h]
      rfl
  | yellow | green =>
    intro x
    rw [h, h]
    rfl
  | leave => exact ⟨h _, hn⟩
  | start | sleep | announce => exact ⟨h _, h _⟩

theorem body_typed (l : Loc) : Typed inside (body l) l := by
  cases l with
  | north_south l =>
    show Typed inside (north_south l) (.north_south l)
    unfold north_south
    exact car_typed (fun _ => rfl) l
  | east_west l =>
    show Typed inside (east_west l) (.east_west l)
    unfold east_west
    exact car_typed (fun _ => rfl) l
  | stoplight h l =>
    cases h with
    | toEastWest =>
      show Typed inside (half _ 2 .cvew _ (.stoplight .toEastWest) l) (.stoplight .toEastWest l)
      exact half_typed (fun _ => rfl) rfl l
    | toNorthSouth =>
      show Typed inside (half _ 1 .cvns _ (.stoplight .toNorthSouth) l) (.stoplight .toNorthSouth l)
      exact half_typed (fun _ => rfl) rfl l

/-- No wait ends where a car has passed its test. -/
theorem body_wait_enter {c : Cond} {l n : Loc} (h : body l = .wait c n) : n ≠ .north_south .enter := by
  rintro rfl
  cases l with
  | north_south l => cases l <;> cases h
  | east_west l => cases l <;> cases h
  | stoplight k l => cases k <;> cases l <;> cases h

section

variable {τ : Type} {s s' t : State τ} {i j : Option τ}

/-- **Guard.**  When an east-west car tests the light, it is not green north-south. -/
def Held (s : State τ) : Act (Option τ) → Prop
  | .exec i | .signal i _ => s.loc i = .east_west .test → s.shared.light ≠ 1
  | _ => True

instance (s : State τ) : (a : Act (Option τ)) → Decidable (Held s a)
  | .exec i => inferInstanceAs (Decidable (s.loc i = .east_west .test → s.shared.light ≠ 1))
  | .signal i _ => inferInstanceAs (Decidable (s.loc i = .east_west .test → s.shared.light ≠ 1))
  | .spurious _ => .isTrue trivial
  | .relock _ => .isTrue trivial

variable [Fintype τ]

/-- What the intersection is to keep. -/
structure Good (s : State τ) : Prop where
  exclusive : ∀ i j, nsInside (s.loc i) = true → ewInside (s.loc j) = false
  /-- a car that has passed its test and goes in finds the light green in its direction -/
  northSouth : ∀ i, s.loc i = .north_south .enter → s.shared.light = 1
  eastWest : ∀ i, s.loc i = .east_west .enter → s.shared.light = 2
  /-- where the light turns green nobody is inside -/
  green : ∀ i h, s.loc i = .stoplight h .green → ∀ j, nsInside (s.loc j) = false ∧ ewInside (s.loc j) = false
  nscar : s.shared.nscar = count (fun _ => nsInside) s
  ewcar : s.shared.ewcar = count (fun _ => ewInside) s

/-- **The invariant** of the guarded runs: no east-west car gets in, and the light is what the place of the stoplight thread says. -/
structure Inv (s : State τ) : Prop where
  role : ∀ i, isLight (s.loc i) = i.isNone
  outside : ∀ i l, s.loc i = .east_west l → l = .start ∨ l = .test ∨ l = .sleep
  nscar : s.shared.nscar = count (fun _ => nsInside) s
  ewcar : s.shared.ewcar = 0
  enter : ∀ i, s.loc i = .north_south .enter → s.shared.light = 1
  light : ∀ i h l, s.loc i = .stoplight h l → s.shared.light = lightAt h l
  cleared : ∀ i h l, s.loc i = .stoplight h l → cleared h l = true → s.shared.nscar = 0

theorem initial_inv (dir : τ → Direction) : Inv (initial start (startLoc dir) : State τ) := by
  -- what holds at the three places where threads start
  have hall : ∀ p : Option τ → Loc → Prop, p none (.stoplight .toEastWest .start) → (∀ c, p (some c) (.north_south .start)) →
      (∀ c, p (some c) (.east_west .start)) → ∀ i, p i ((initial start (startLoc dir) : State τ).loc i) := by
    intro p h1 h2 h3 i
    cases i with
    | none => exact h1
    | some c =>
      show p (some c) (dir c).start
      cases dir c
      · exact h2 c
      · exact h3 c
  refine ⟨?_, ?_, ?_, rfl, ?_, ?_, ?_⟩
  · exact hall (fun i l => isLight l = i.isNone) rfl (fun _ => rfl) fun _ => rfl
  · refine hall (fun _ n => ∀ l, n = .east_west l → l = .start ∨ l = .test ∨ l = .sleep) nofun (fun _ => nofun) fun _ l hl => ?_
    exact .inl (Loc.east_west.inj hl).symm
  · exact (count_eq_zero.mpr (hall (fun _ l => nsInside l = false) rfl (fun _ => rfl) fun _ => rfl)).symm
  · exact hall (fun _ l => l = .north_south .enter → _) nofun (fun _ => nofun) fun _ => nofun
  · refine hall (fun _ n => ∀ h l, n = .stoplight h l → _ = lightAt h l) (fun h l hl => ?_) (fun _ => nofun) fun _ => nofun
    obtain ⟨rfl, rfl⟩ := Loc.stoplight.inj hl
    rfl
  · refine hall (fun _ n => ∀ h l, n = .stoplight h l → Stoplight.cleared h l = true → _ = 0) (fun h l hl hc => ?_) (fun _ => nofun) fun _ => nofun
    rfl

theorem Inv.wake (h : Inv s) (hsh : t.shared = s.shared) (hloc : t.loc = s.loc) : Inv t := by
  have hc : count (fun _ => nsInside) t = count (fun _ => nsInside) s := count_congr fun i => by rw [hloc]
  refine ⟨?_, ?_, ?_, ?_, ?_, ?_, ?_⟩
  · rw [hloc]
    exact h.role
  · rw [hloc]
    exact h.outside
  · rw [hsh, hc]
    exact h.nscar
  · rw [hsh]
    exact h.ewcar
  · rw [hsh, hloc]
    exact h.enter
  · rw [hsh, hloc]
    exact h.light
  · rw [hsh, hloc]
    exact h.cleared

theorem Inv.ewInside_eq (h : Inv s) (i : Option τ) : ewInside (s.loc i) = false := by
  cases hl : s.loc i with
  | north_south l => rfl
  | stoplight k l => rfl
  | east_west l =>
    rcases h.outside i l hl with rfl | rfl | rfl
    · rfl
    · rfl
    · rfl

/-- The invariant says that the state is good. -/
theorem Inv.good (h : Inv s) : Good s := by
  refine ⟨fun _ j _ => h.ewInside_eq j, h.enter, fun i hi => ?_, fun i k hi j => ⟨?_, h.ewInside_eq j⟩, h.nscar, ?_⟩
  · rcases h.outside i .enter hi with h1 | h1 | h1 <;> cases h1
  · -- both greens come after the north-south cars have left
    have h0 := h.cleared i k .green hi (by cases k <;> rfl)
    rw [h.nscar] at h0
    exact count_eq_zero.mp h0 j
  · rw [h.ewcar]
    exact (count_eq_zero.mpr h.ewInside_eq).symm

theorem lightAt_of_cleared {h : Half} {l : LightLoc} (hc : Stoplight.cleared h l = true) : lightAt h l ≠ 1 := by
  cases h with
  | toEastWest =>
    cases l with
    | green | announce | leave => simp [lightAt]
    | _ => cases hc
  | toNorthSouth =>
    cases l with
    | announce | leave => cases hc
    | _ => simp [lightAt]

variable [DecidableEq τ]

/-- Thread `i` moves to `n`, and the variables follow. -/
theorem Inv.next {n : Loc} (h : Inv s) (hloc : t.loc = (s.goto i n).loc) (hrole : isLight n = isLight (s.loc i))
    (hout : ∀ l, n = .east_west l → l = .start ∨ l = .test ∨ l = .sleep) (hns : t.shared.nscar = count (fun _ => nsInside) t)
    (hew : t.shared.ewcar = 0) (henter : n = .north_south .enter → t.shared.light = 1)
    (henter' : ∀ j, j ≠ i → s.loc j = .north_south .enter → t.shared.light = 1)
    (hlight : ∀ k l, n = .stoplight k l → t.shared.light = lightAt k l ∧ (Stoplight.cleared k l = true → t.shared.nscar = 0))
    (hlight' : ∀ j k l, j ≠ i → s.loc j = .stoplight k l → t.shared.light = lightAt k l ∧ (Stoplight.cleared k l = true → t.shared.nscar = 0)) :
    Inv t := by
  have hat : ∀ p : Option τ → Loc → Prop, p i n → (∀ j, j ≠ i → p j (s.loc j)) → ∀ j, p j (t.loc j) := by
    intro p hi hj j
    rw [hloc, St.goto_loc_apply]
    split_ifs with hji
    · rw [hji]
      exact hi
    · exact hj j hji
  have hphase := hat (fun _ m => ∀ k l, m = .stoplight k l →
    t.shared.light = lightAt k l ∧ (Stoplight.cleared k l = true → t.shared.nscar = 0)) hlight fun j hj k l => hlight' j k l hj
  refine ⟨?_, ?_, hns, hew, ?_, fun j k l hl => (hphase j k l hl).1, fun j k l hl => (hphase j k l hl).2⟩
  · exact hat (fun j l => isLight l = j.isNone) (hrole.trans (h.role i)) fun j _ => h.role j
  · exact hat (fun _ m => ∀ l, m = .east_west l → l = .start ∨ l = .test ∨ l = .sleep) hout fun j _ => h.outside j
  · exact hat (fun _ m => m = .north_south .enter → t.shared.light = 1) henter henter'

/-- A step that leaves the variables alone. -/
theorem Inv.move {n : Loc} (h : Inv s) (hsh : t.shared = s.shared) (hloc : t.loc = (s.goto i n).loc) (hrole : isLight n = isLight (s.loc i))
    (hout : ∀ l, n = .east_west l → l = .start ∨ l = .test ∨ l = .sleep) (hns : nsInside n = nsInside (s.loc i))
    (henter : n = .north_south .enter → s.shared.light = 1)
    (hlight : ∀ k l, n = .stoplight k l → s.shared.light = lightAt k l ∧ (Stoplight.cleared k l = true → s.shared.nscar = 0)) : Inv t := by
  refine h.next hloc hrole hout ?_ ?_ ?_ (fun j _ hj => ?_) ?_ fun j k l _ hj => ?_
  · rw [hsh, count_same hloc hns]
    exact h.nscar
  · rw [hsh]
    exact h.ewcar
  · rw [hsh]
    exact henter
  · rw [hsh]
    exact h.enter j hj
  · rw [hsh]
    exact hlight
  · rw [hsh]
    exact ⟨h.light j k l hj, h.cleared j k l hj⟩

/-- A north-south car goes in; the light is green for it, so the stoplight thread is not in a part that counts on no car inside. -/
theorem Inv.enter_step (h : Inv s) (hl : s.loc i = .north_south .enter) :
    Inv (s.assign i (.north_south .entered) { s.shared with nscar := s.shared.nscar + 1 }) := by
  have hgreen := h.enter i hl
  refine h.next rfl (by rw [hl]; rfl) nofun ?_ h.ewcar nofun (fun j _ hj => h.enter j hj) nofun fun j k l _ hj => ⟨h.light j k l hj, fun hc => ?_⟩
  · refine Eq.trans ?_ (count_enter (s := s) (i := i) (n := .north_south .entered) (by rfl) (by rw [hl]; rfl) rfl).symm
    rw [← h.nscar]
    rfl
  · exact absurd ((h.light j k l hj).symm.trans hgreen) (lightAt_of_cleared hc)

/-- A north-south car leaves. -/
theorem Inv.finish_step {n : CarLoc} (h : Inv s) (hl : s.loc i = .north_south .finish) (hn : n = .signal ∨ n = .leave) :
    Inv (s.assign i (.north_south n) { s.shared with nscar := s.shared.nscar - 1 }) := by
  have hpos := count_pos (s := s) (p := fun _ => nsInside) (i := i) (by rw [hl]; rfl)
  rw [← h.nscar] at hpos
  have hcross : nsInside (.north_south n) = false := by rcases hn with rfl | rfl <;> rfl
  refine h.next rfl (by rw [hl]; rfl) nofun ?_ h.ewcar ?_ (fun j _ hj => h.enter j hj) nofun fun j k l _ hj => ⟨h.light j k l hj, fun hc => ?_⟩
  · refine Eq.trans ?_ (count_leave (s := s) (i := i) (n := .north_south n) (by rfl) (by rw [hl]; rfl) hcross).symm
    rw [← h.nscar]
    rfl
  · rintro ⟨⟩
    rcases hn with hn | hn <;> cases hn
  · have := h.cleared j k l hj hc
    omega

/-- The stoplight thread changes the light. -/
theorem Inv.light_step {k : Half} {l m : LightLoc} {v : ℤ} (h : Inv s) (hl : s.loc i = .stoplight k l) (hother : ∀ j, s.loc j ≠ .north_south .enter)
    (hv : v = lightAt k m) (hc : Stoplight.cleared k m = true → Stoplight.cleared k l = true) :
    Inv (s.assign i (.stoplight k m) { s.shared with light := v }) := by
  have hnone : ∀ j, isLight (s.loc j) = true → j = none := by
    intro j hj
    rw [h.role j] at hj
    exact Option.isNone_iff_eq_none.mp hj
  refine h.next rfl (by rw [hl]; rfl) nofun ?_ h.ewcar nofun (fun j _ hj => absurd hj (hother j)) (fun k' l' hn => ?_) fun j k' l' hji hj => ?_
  · refine h.nscar.trans (count_same (s := s) (i := i) (n := .stoplight k m) (by rfl) ?_).symm
    rw [hl]
    rfl
  · obtain ⟨rfl, rfl⟩ := Loc.stoplight.inj hn
    exact ⟨hv, fun hm => h.cleared i k l hl (hc hm)⟩
  · refine absurd ?_ hji
    rw [hnone j (by rw [hj]; rfl), hnone i (by rw [hl]; rfl)]

/-- **Step lemma**, north-south cars. -/
theorem Inv.north_south_step {l : CarLoc} (h : Inv s) (hl : s.loc i = .north_south l) (he : Effect s i (north_south l) s') : Inv s' := by
  cases l with
  | start | sleep | entered | crossing | leave =>
    obtain ⟨-, rfl⟩ := he
    exact h.move rfl rfl (by rw [hl]; rfl) nofun (by rw [hl]; rfl) nofun nofun
  | test =>
    obtain rfl := he
    by_cases hg : s.shared.light ≠ 1
    · simp only [if_pos hg]
      exact h.move rfl rfl (by rw [hl]; rfl) nofun (by rw [hl]; rfl) nofun nofun
    · simp only [if_neg hg]
      exact h.move rfl rfl (by rw [hl]; rfl) nofun (by rw [hl]; rfl) (fun _ => not_not.mp hg) nofun
  | enter =>
    obtain rfl := he
    exact h.enter_step hl
  | finish =>
    obtain rfl := he
    refine h.finish_step hl ?_
    split_ifs
    · exact .inl rfl
    · exact .inr rfl
  | signal =>
    rcases he with ⟨-, rfl⟩ | ⟨j, -, rfl⟩
    · exact h.move rfl rfl (by rw [hl]; rfl) nofun (by rw [hl]; rfl) nofun nofun
    · exact h.move (i := i) (n := .north_south .leave) rfl rfl (by rw [hl]; rfl) nofun (by rw [hl]; rfl) nofun nofun
  | done => cases he

/-- **Step lemma**, east-west cars: under the guard they stay before the intersection. -/
theorem Inv.east_west_step {l : CarLoc} (h : Inv s) (hg : l = .test → s.shared.light ≠ 1) (hl : s.loc i = .east_west l)
    (he : Effect s i (east_west l) s') : Inv s' := by
  rcases h.outside i l hl with rfl | rfl | rfl
  · obtain ⟨-, rfl⟩ := he
    refine h.move rfl rfl (by rw [hl]; rfl) (fun l hl => ?_) (by rw [hl]; rfl) nofun nofun
    exact .inr (.inl (Loc.east_west.inj hl).symm)
  · obtain rfl := he
    simp only [if_pos (hg rfl)]
    refine h.move rfl rfl (by rw [hl]; rfl) (fun l hl => ?_) (by rw [hl]; rfl) nofun nofun
    exact .inr (.inr (Loc.east_west.inj hl).symm)
  · obtain ⟨-, rfl⟩ := he
    refine h.move rfl rfl (by rw [hl]; rfl) (fun l hl => ?_) (by rw [hl]; rfl) nofun nofun
    exact .inr (.inl (Loc.east_west.inj hl).symm)

/-- The stoplight thread goes on with the light as it is. -/
theorem Inv.light_move {k k' : Half} {l m : LightLoc} (h : Inv s) (hl : s.loc i = .stoplight k l) (hsh : t.shared = s.shared)
    (hloc : t.loc = (s.goto i (.stoplight k' m)).loc) (hv : lightAt k' m = lightAt k l)
    (hc : Stoplight.cleared k' m = true → Stoplight.cleared k l = true ∨ s.shared.nscar = 0) : Inv t := by
  refine h.move hsh hloc (by rw [hl]; rfl) nofun (by rw [hl]; rfl) nofun fun k'' l'' hn => ?_
  obtain ⟨rfl, rfl⟩ := Loc.stoplight.inj hn
  refine ⟨?_, fun hm => ?_⟩
  · rw [hv]
    exact h.light i k l hl
  · rcases hc hm with hc | hc
    · exact h.cleared i k l hl hc
    · exact hc

/-- **Step lemma**, the stoplight. -/
theorem Inv.stoplight_step {k : Half} {l : LightLoc} (h : Inv s) (hmx : MutexInv (fun _ => body) inside s) (hm : s.mode i = .awake)
    (hl : s.loc i = .stoplight k l) (he : Effect s i (stoplight k l) s') : Inv s' := by
  -- while the stoplight thread has the mutex no car has just passed its test
  have hother : l.inside = true → ∀ j, s.loc j ≠ .north_south .enter := by
    intro hin j hj
    have hji : j = i := hmx.alone hm (by rw [hl]; exact hin) (by rw [hj]; rfl) fun c l hc => by
      rw [hj] at hc
      exact body_wait_enter hc rfl
    rw [hji, hl] at hj
    cases hj
  have hnn : 0 ≤ s.shared.nscar := by
    rw [h.nscar]
    exact count_nonneg _ s
  cases l with
  | start | sleep =>
    cases k <;> obtain ⟨-, rfl⟩ := he <;> exact h.light_move hl rfl rfl rfl fun hc => .inl hc
  | yellow =>
    cases k <;> obtain rfl := he <;> exact h.light_step hl (hother rfl) rfl id
  | test =>
    cases k with
    | toEastWest =>
      obtain rfl := he
      by_cases hg : s.shared.nscar > 0
      · simp only [if_pos hg]
        exact h.light_move hl rfl rfl rfl fun hc => .inl hc
      · simp only [if_neg hg]
        exact h.light_move hl rfl rfl rfl fun _ => .inr (by omega)
    | toNorthSouth =>
      obtain rfl := he
      by_cases hg : s.shared.ewcar > 0
      · simp only [if_pos hg]
        exact h.light_move hl rfl rfl rfl fun hc => .inl hc
      · simp only [if_neg hg]
        exact h.light_move hl rfl rfl rfl fun hc => .inl hc
  | green =>
    cases k <;> obtain rfl := he <;> exact h.light_step hl (hother rfl) rfl fun _ => rfl
  | announce =>
    cases k <;> obtain rfl := he
    · exact h.light_move (i := i) (m := .leave) hl rfl rfl rfl fun hc => .inl hc
    · exact h.light_move (i := i) (m := .leave) hl rfl rfl rfl fun hc => .inl hc
  | leave =>
    cases k <;> obtain ⟨-, rfl⟩ := he <;> exact h.light_move hl rfl rfl rfl fun hc => .inl hc

/-- **Run lemma.** -/
theorem reachable_inv (dir : τ → Direction) (h : Reachable (fun _ => body) Held start (startLoc dir) s) :
    MutexInv (fun _ => body) inside s ∧ Inv s := by
  refine h.program_inv (fun _ => body_typed) (fun i => ?_) (initial_inv dir) ?_ ?_
  · cases i with
    | none => rfl
    | some c =>
      show inside (dir c).start = false
      cases dir c <;> rfl
  · intro s t hI hsh hloc _
    exact hI.wake hsh hloc
  · intro s a i s' hI hmx hok ha hm he
    cases hl : s.loc i with
    | north_south l =>
      rw [hl] at he
      exact hI.north_south_step hl he
    | east_west l =>
      rw [hl] at he
      refine hI.east_west_step (fun hlt => ?_) hl he
      subst hlt
      rcases ha with rfl | ⟨j, rfl⟩
      · exact hok hl
      · exact hok hl
    | stoplight k l =>
      rw [hl] at he
      exact hI.stoplight_step hmx hm hl he

/-- An east-west car that tests the light while it is green north-south goes in. -/
theorem not_good_of_not_held {a : Act (Option τ)} (hs : StepRes (fun _ => body) s a s') (hh : ¬ Held s a) : ¬ Good s' := by
  have hgo : ∀ i, s.loc i = .east_west .test → s.shared.light = 1 → Effect s i (body (s.loc i)) s' → ¬ Good s' := by
    intro i hl hlight he hg
    rw [hl] at he
    obtain rfl := he
    have h2 := hg.eastWest i (by simp [hlight])
    have h2 : s.shared.light = 2 := h2
    omega
  cases hs with
  | spurious => exact absurd trivial hh
  | relock => exact absurd trivial hh
  | @exec i a s' ha hm he =>
    have hh' : ¬ (s.loc i = .east_west .test → s.shared.light ≠ 1) := by
      rcases ha with rfl | ⟨j, rfl⟩
      · exact hh
      · exact hh
    push Not at hh'
    exact hgo i hh'.1 hh'.2 he

/-- **Exactly the runs in which no east-west car tests the light while it is green north-south are good.**  For any number of cars of
either direction: all along such a run cars of the two directions are never inside together, a car goes in only at its green light, the
light turns green only when nobody is inside, and `nscar` and `ewcar` are the numbers of the cars inside; and the first step that breaks
the guard breaks this too. -/
theorem good_iff_held (dir : τ → Direction) (tr : List (Ev (State τ) (Act (Option τ)) Unit)) (t : State τ)
    (h : Run (Step fun _ => body) always (initial start (startLoc dir)) tr t) :
    (∀ e ∈ tr, Good e.post) ↔ ∀ e ∈ tr, Held e.pre e.act := by
  refine h.forall_good_iff (fun x hx => ?_) fun x a o y _ hst hh => ?_
  · have hI : MutexInv (fun _ => body) inside x ∧ Inv x := reachable_inv dir hx
    exact hI.2.good
  · exact not_good_of_not_held (next_inv hst) hh

end

/-- A north-south car and an east-west car. -/
def twoCars : Bool → Direction
  | false => .northSouth
  | true => .eastWest

/-- The north-south car crosses while the light turns yellow; the east-west car, which comes then, waits. -/
theorem good_iff_held_run : ∃ (tr : List (Ev (State Bool) (Act (Option Bool)) Unit)) (t : State Bool),
    Run (Step fun _ => body) always (initial start (startLoc twoCars)) tr t ∧
      t.loc (some false) = .north_south .crossing ∧ t.mode (some true) = .asleep .cvns ∧ ∀ e ∈ tr, Good e.post := by
  obtain ⟨tr, t, hr, hx, hy, hh⟩ := exists_run (P := fun _ => body) always (initial start (startLoc twoCars))
    [.exec (some false), .exec (some false), .exec (some false), .exec (some false), .exec none, .exec none, .exec none, .exec none,
      .exec (some true), .exec (some true), .exec (some true)]
    (fun tr t => t.loc (some false) = .north_south .crossing ∧ t.mode (some true) = .asleep .cvns ∧ ∀ e ∈ tr, Held e.pre e.act)
    (by decide +kernel)
  exact ⟨tr, t, hr, hx, hy, (good_iff_held twoCars tr t hr).mpr hh⟩

/-- **Both inside.**  The light is green north-south; an east-west car goes in after a north-south car. -/
theorem both_inside : ∃ s : State Bool, Reachable (fun _ => body) always start (startLoc twoCars) s ∧ ¬ Good s := by
  obtain ⟨s, hr, hx, hy⟩ := exists_reachable (P := fun _ => body) always start (startLoc twoCars)
    [.exec (some false), .exec (some false), .exec (some false), .exec (some false),
      .exec (some true), .exec (some true), .exec (some true), .exec (some true)]
    (fun s => s.loc (some false) = .north_south .crossing ∧ s.loc (some true) = .east_west .crossing) (by decide +kernel)
  refine ⟨s, hr, fun hg => ?_⟩
  have hew := hg.exclusive (some false) (some true) (by rw [hx]; rfl)
  rw [hy] at hew
  cases hew

end OsLabs.SampleExam2.Stoplight
