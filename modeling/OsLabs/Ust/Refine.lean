import OsLabs.Tally
import OsLabs.Ust.Pool

/-!
# OsLabs.Ust.Refine — the slots refine the pool

* `abs`: the ready threads are the contexts saved in the active slots, but for the slot whose thread runs.
* `step_abs`: every step of the code is a step of the pool or leaves it as it is.
* `refines_pool`: so every run is a run of the pool; each body is executed once, from start to end, with its own function and parameter;
  a create exits the program exactly when `MAX_THREADS` threads are unfinished or there is no memory; and `schedule_threads` returns when
  every thread has finished.
* `exit_without_memory`: the program can exit with nobody unfinished.
-/

namespace OsLabs.Ust

open Lts

variable {Fn Par : Type*}

/-- The slot whose thread runs. -/
def runningSlot (s : St Fn Par) : Option ℕ :=
  match s.ctl with
  | .running i _ => some i
  | _ => none

/-- The context of an active slot. -/
def context (s : St Fn Par) (i : ℕ) : Multiset (Thread Fn Par) :=
  if s.active i = true then
    match (s.threads i).saved with
    | some t => {t}
    | none => 0
  else 0

/-- The thread that waits in a slot. -/
def waitingIn (s : St Fn Par) (i : ℕ) : Multiset (Thread Fn Par) := if runningSlot s = some i then 0 else context s i

def absCtl : Ctl Fn Par → PoolCtl Fn Par
  | .main todo => .main todo
  | .loop _ _ => .idle
  | .running _ t => .running t
  | .back _ => .idle
  | .returned => .returned
  | .exited e => .exited e

def absReady (s : St Fn Par) : Multiset (Thread Fn Par) :=
  match s.ctl with
  | .exited _ => 0
  | _ => ∑ i : Fin MAX_THREADS, waitingIn s i

/-- The pool that the slots stand for. -/
def abs (s : St Fn Par) : Pool Fn Par := ⟨absReady s, absCtl s.ctl, s.created, s.log⟩

section

variable {code : Fn → Option Par → List (Op Fn Par)} {s t : St Fn Par}

/-- Nobody waits when no slot is active. -/
theorem absReady_zero (ha : ∀ i, s.active i = false) : absReady s = 0 := by
  have hsum : ∑ i : Fin MAX_THREADS, waitingIn s i = 0 := by
    refine Finset.sum_eq_zero fun i _ => ?_
    simp [waitingIn, context, ha i]
  unfold absReady
  split
  · rfl
  · exact hsum

theorem absReady_of_ne (h : ∀ e, s.ctl ≠ .exited e) : absReady s = ∑ i : Fin MAX_THREADS, waitingIn s i := by
  unfold absReady
  split
  · rename_i hc
    exact absurd hc (h _)
  · rfl

theorem runningSlot_of_ne (h : ∀ i t, s.ctl ≠ .running i t) : runningSlot s = none := by
  unfold runningSlot
  split
  · rename_i hc
    exact absurd hc (h _ _)
  · rfl

theorem runningSlot_eq {i : ℕ} {u : Thread Fn Par} (h : s.ctl = .running i u) : runningSlot s = some i := by
  simp [runningSlot, h]

theorem context_inactive {i : ℕ} (h : s.active i = false) : context s i = 0 := by
  simp [context, h]

theorem context_active {i : ℕ} {u : Thread Fn Par} (h : s.active i = true) (hu : (s.threads i).saved = some u) :
    context s i = {u} := by
  simp [context, h, hu]

theorem waitingIn_running {i : ℕ} (h : runningSlot s = some i) : waitingIn s i = 0 := by
  simp [waitingIn, h]

theorem waitingIn_ne {i : ℕ} (h : runningSlot s ≠ some i) : waitingIn s i = context s i := by
  simp [waitingIn, h]

/-- The contexts are as many as the active slots. -/
theorem card_contexts (h : Inv s) : (∑ i : Fin MAX_THREADS, context s i).card = ∑ i : Fin MAX_THREADS, if s.active i = true then 1 else 0 := by
  rw [Multiset.card_sum]
  refine Finset.sum_congr rfl fun i _ => ?_
  cases ha : s.active i with
  | false => simp [context_inactive ha]
  | true =>
    obtain ⟨u, hu, -⟩ := h.live i ha
    simp [context_active ha hu]

/-- **Counting.**  The unfinished threads of the pool are as many as the active slots. -/
theorem card_all (h : Inv s) (hne : ∀ e, s.ctl ≠ .exited e) :
    (abs s).all.card = ∑ i : Fin MAX_THREADS, if s.active i = true then 1 else 0 := by
  rw [← card_contexts h]
  by_cases hrun : ∃ i u, s.ctl = .running i u
  · obtain ⟨i, u, hc⟩ := hrun
    obtain ⟨-, ha, -⟩ := h.running i u hc
    obtain ⟨v, hv, -⟩ := h.live i ha
    have hi : i < MAX_THREADS := Nat.lt_of_lt_of_le (h.active_lt i ha) h.num_le
    -- the slot of the running thread does not count among those that wait
    have hsum := Tally.sum_write (f := fun j : Fin MAX_THREADS => context s j) (g := fun j : Fin MAX_THREADS => waitingIn s j)
      (i := ⟨i, hi⟩) (fun j hj => waitingIn_ne (by
        rw [runningSlot_eq hc]
        intro heq
        exact hj (Fin.ext (Option.some.inj heq).symm)))
    have hcard := congrArg Multiset.card hsum
    rw [Multiset.card_add, Multiset.card_add, waitingIn_running (runningSlot_eq hc), context_active ha hv] at hcard
    rw [Pool.all_running (show (abs s).ctl = .running u by simp [abs, absCtl, hc]), Multiset.card_cons]
    show (absReady s).card + 1 = _
    rw [absReady_of_ne hne]
    simpa using hcard
  · have hne' : ∀ i u, s.ctl ≠ .running i u := fun i u hc => hrun ⟨i, u, hc⟩
    have hall : (abs s).all = absReady s := Pool.all_of_ne (by
      intro u hc
      cases hs : s.ctl with
      | running i v => exact hne' i v hs
      | _ => simp [abs, absCtl, hs] at hc)
    rw [hall, absReady_of_ne hne]
    congr 1
    refine Finset.sum_congr rfl fun i _ => waitingIn_ne ?_
    rw [runningSlot_of_ne hne']
    exact nofun

theorem findEmptyFrom_none {active : ℕ → Bool} : ∀ {n i : ℕ}, findEmptyFrom active n i = none → ∀ j, i ≤ j → j ≤ i + n → active j = true
  | 0, i, h, j, hij, hji => by
    unfold findEmptyFrom at h
    split_ifs at h with ha
    obtain rfl : i = j := by omega
    exact ha
  | n + 1, i, h, j, hij, hji => by
    unfold findEmptyFrom at h
    split_ifs at h with ha
    by_cases heq : i = j
    · exact heq ▸ ha
    · exact findEmptyFrom_none h j (by omega) (by omega)

/-- `find_empty` fails exactly when as many threads are unfinished as there are slots. -/
theorem card_of_findEmpty (h : Inv s) (hne : ∀ e, s.ctl ≠ .exited e) :
    (findEmpty s.active = none → (abs s).all.card = MAX_THREADS) ∧
    (∀ e, findEmpty s.active = some e → (abs s).all.card < MAX_THREADS) := by
  rw [card_all h hne, Finset.sum_boole, Nat.cast_id]
  constructor
  · intro hf
    have hall : ∀ i : Fin MAX_THREADS, s.active i = true := by
      intro i
      have hmax : MAX_THREADS = 5 := rfl
      exact findEmptyFrom_none hf i (Nat.zero_le _) (by omega)
    rw [Finset.filter_true_of_mem fun i _ => hall i, Finset.card_univ, Fintype.card_fin]
  · intro e hf
    obtain ⟨hlt, ha⟩ := findEmpty_some hf
    have hcard := Finset.card_lt_univ_of_notMem (s := Finset.univ.filter fun i : Fin MAX_THREADS => s.active i = true)
      (x := ⟨e, hlt⟩) (by simp [ha])
    rwa [Fintype.card_fin] at hcard

/-- One slot changes. -/
theorem absReady_write {i : ℕ} (hi : i < MAX_THREADS) (hs : ∀ e, s.ctl ≠ .exited e) (ht : ∀ e, t.ctl ≠ .exited e)
    (h : ∀ j, j ≠ i → waitingIn t j = waitingIn s j) : absReady t + waitingIn s i = absReady s + waitingIn t i := by
  rw [absReady_of_ne hs, absReady_of_ne ht]
  exact Tally.sum_write (f := fun j : Fin MAX_THREADS => waitingIn s j) (g := fun j : Fin MAX_THREADS => waitingIn t j)
    (i := ⟨i, hi⟩) fun j hj => h j fun heq => hj (Fin.ext heq)

/-- No slot changes. -/
theorem absReady_congr (hs : ∀ e, s.ctl ≠ .exited e) (ht : ∀ e, t.ctl ≠ .exited e) (hr : runningSlot t = runningSlot s)
    (ha : t.active = s.active) (hth : t.threads = s.threads) : absReady t = absReady s := by
  rw [absReady_of_ne hs, absReady_of_ne ht]
  refine Finset.sum_congr rfl fun i _ => ?_
  unfold waitingIn context
  rw [hr, ha, hth]

theorem Creating.not_exited {fn : Fn} {par : Option Par} {ctl : Ctl Fn Par} {log : List (ℕ × Op Fn Par)}
    (hc : Creating s fn par ctl log) : (∀ e, s.ctl ≠ .exited e) ∧ ∀ e, ctl ≠ .exited e := by
  cases hc with
  | main h =>
    rw [h]
    exact ⟨nofun, nofun⟩
  | thread h =>
    rw [h]
    exact ⟨nofun, nofun⟩

/-- The pool is at the same create. -/
theorem Creating.abs {fn : Fn} {par : Option Par} {ctl : Ctl Fn Par} {log : List (ℕ × Op Fn Par)}
    (hc : Creating s fn par ctl log) : Pool.Creating (abs s) fn par (absCtl ctl) log := by
  cases hc with
  | main h => exact .main (by simp [Ust.abs, absCtl, h])
  | thread h hr => exact .thread (by simp [Ust.abs, absCtl, h]) hr

/-- **A create** adds the new thread to the pool. -/
theorem abs_create (h : Inv s) {fn : Fn} {par : Option Par} {ctl : Ctl Fn Par} {log : List (ℕ × Op Fn Par)} {e : ℕ}
    (hc : Creating s fn par ctl log) (hf : findEmpty s.active = some e) :
    Pool.Step code (abs s) (abs { s.install code e fn par with ctl := ctl, log := log }) := by
  obtain ⟨hemax, hea⟩ := findEmpty_some hf
  obtain ⟨hs, ht⟩ := hc.not_exited
  have hstep : Pool.Step code (abs s) _ := .create hc.abs ((card_of_findEmpty h hs).2 e hf)
  have hrun : runningSlot { s.install code e fn par with ctl := ctl, log := log } = runningSlot s := by
    cases hc with
    | main hm => simp [runningSlot, hm]
    | thread hm => simp [runningSlot, hm]
  have hne : runningSlot s ≠ some e := by
    cases hc with
    | main hm => simp [runningSlot, hm]
    | @thread i u rest hm =>
      rw [runningSlot_eq hm]
      rintro heq
      obtain rfl := Option.some.inj heq
      rw [(h.running i u hm).2.1] at hea
      cases hea
  have hw := absReady_write (s := s) (t := { s.install code e fn par with ctl := ctl, log := log }) hemax hs ht (by
    intro j hj
    unfold waitingIn context
    rw [hrun]
    simp [St.install, hj])
  rw [waitingIn_ne hne, context_inactive hea, add_zero, waitingIn_ne (hrun ▸ hne),
    context_active (u := ⟨s.created.length, fn, par, code fn par⟩) (by simp [St.install]) (by simp [St.install]),
    Multiset.add_comm, Multiset.singleton_add] at hw
  unfold abs
  rw [hw]
  exact hstep

/-- **A dispatch** takes the context of the slot out of the pool. -/
theorem abs_dispatch (h : Inv s) {i : ℕ} {run : Bool} {u : Thread Fn Par} (hc : s.ctl = .loop i run) (ha : s.active i = true)
    (hu : (s.threads i).saved = some u) : Pool.Step code (abs s) (abs { s with current := i, ctl := .running i u }) := by
  have hi : i < MAX_THREADS := Nat.lt_of_lt_of_le (h.active_lt i ha) h.num_le
  have hrun : runningSlot s = none := runningSlot_of_ne (by rw [hc]; exact nofun)
  have hrun' : runningSlot { s with current := i, ctl := .running i u } = some i := rfl
  have hw := absReady_write (s := s) (t := { s with current := i, ctl := .running i u }) hi (by rw [hc]; exact nofun) nofun (by
    intro j hj
    rw [waitingIn_ne (by rw [hrun']; simpa using hj.symm), waitingIn_ne (by rw [hrun]; exact nofun)]
    rfl)
  rw [waitingIn_running hrun', add_zero, waitingIn_ne (by rw [hrun]; exact nofun), context_active ha hu, Multiset.add_comm,
    Multiset.singleton_add] at hw
  exact .dispatch (by simp [abs, absCtl, hc]) hw.symm

/-- Behind a switch out of the running thread, the other slots are as they were. -/
theorem waitingIn_swap {i : ℕ} {u : Thread Fn Par} (hc : s.ctl = .running i u) (ht : t.ctl = .back i)
    (ha : ∀ j, j ≠ i → t.active j = s.active j) (hth : ∀ j, j ≠ i → t.threads j = s.threads j) :
    ∀ j, j ≠ i → waitingIn t j = waitingIn s j := by
  intro j hj
  rw [waitingIn_ne (by rw [runningSlot_of_ne (by rw [ht]; exact nofun)]; exact nofun),
    waitingIn_ne (by rw [runningSlot_eq hc]; simpa using hj.symm)]
  unfold context
  rw [ha j hj, hth j hj]

/-- **A yield** puts the thread back into the pool. -/
theorem abs_yield (h : Inv s) {i : ℕ} {u : Thread Fn Par} {rest : List (Op Fn Par)} (hc : s.ctl = .running i u)
    (hr : u.rest = .yield :: rest) : Pool.Step code (abs s) (abs (s.yield i { u with rest := rest })) := by
  obtain ⟨rfl, ha, -⟩ := h.running i u hc
  have hi : s.current < MAX_THREADS := Nat.lt_of_lt_of_le (h.active_lt _ ha) h.num_le
  have hrun : runningSlot (s.yield s.current { u with rest := rest }) = none := rfl
  have hw := absReady_write (s := s) (t := s.yield s.current { u with rest := rest }) hi (by simp [hc]) (fun _ hx => by cases hx)
    (waitingIn_swap hc rfl (fun _ _ => rfl) fun j hj => by simp [St.yield, St.swapOut, hj])
  rw [waitingIn_running (runningSlot_eq hc), add_zero, waitingIn_ne (by simp [hrun]),
    context_active (s := s.yield s.current { u with rest := rest }) (u := { u with rest := rest }) ha
      (by simp [St.yield, St.swapOut]), Multiset.add_comm, Multiset.singleton_add] at hw
  have hstep : Pool.Step code (abs s) _ := .yield (show (abs s).ctl = .running u by simp [abs, absCtl, hc]) hr
  unfold abs
  rw [hw]
  exact hstep

/-- **A finish** leaves the thread out of the pool. -/
theorem abs_finish (h : Inv s) {i : ℕ} {u : Thread Fn Par} {rest : List (Op Fn Par)} (hc : s.ctl = .running i u)
    (hr : u.rest = .finish :: rest ∨ u.rest = []) : Pool.Step code (abs s) (abs (s.finishThread i { u with rest := rest })) := by
  obtain ⟨rfl, ha, -⟩ := h.running i u hc
  have hi : s.current < MAX_THREADS := Nat.lt_of_lt_of_le (h.active_lt _ ha) h.num_le
  have hrun : runningSlot (s.finishThread s.current { u with rest := rest }) = none := rfl
  have hw := absReady_write (s := s) (t := s.finishThread s.current { u with rest := rest }) hi (by simp [hc]) (fun _ hx => by cases hx)
    (waitingIn_swap hc rfl (fun j hj => by simp [St.finishThread, hj]) fun j hj => by simp [St.finishThread, St.swapOut, hj])
  rw [waitingIn_running (runningSlot_eq hc), add_zero, waitingIn_ne (by simp [hrun]),
    context_inactive (by simp [St.finishThread]), add_zero] at hw
  have hstep : Pool.Step code (abs s) _ := .finish (show (abs s).ctl = .running u by simp [abs, absCtl, hc]) hr
  unfold abs
  rw [hw]
  exact hstep

/-- The scheduler moves on, and the pool does not see it. -/
theorem abs_idle (hs : absCtl s.ctl = .idle) (ht : absCtl t.ctl = .idle) (ha : t.active = s.active) (hth : t.threads = s.threads)
    (hcr : t.created = s.created) (hlog : t.log = s.log) : abs t = abs s := by
  have hne : ∀ x : St Fn Par, absCtl x.ctl = .idle → (∀ e, x.ctl ≠ .exited e) ∧ runningSlot x = none := by
    intro x hx
    unfold runningSlot
    cases hc : x.ctl with
    | loop i run => exact ⟨nofun, rfl⟩
    | back i => exact ⟨nofun, rfl⟩
    | _ =>
      rw [hc] at hx
      cases hx
  unfold abs
  rw [absReady_congr (hne s hs).1 (hne t ht).1 ((hne t ht).2.trans (hne s hs).2.symm) ha hth, hs, ht, hcr, hlog]

/-- **Simulation.** -/
theorem step_abs (h : Inv s) {mem : Bool} (hst : StepRes code s mem t) : abs t = abs s ∨ Pool.Step code (abs s) (abs t) := by
  have hI := h.step hst
  cases hst with
  | create hc hf => exact .inr (abs_create h hc hf)
  | noPlace hc hf => exact .inr (.noPlace hc.abs ((card_of_findEmpty h hc.not_exited.1).1 hf))
  | noMemory hc hf => exact .inr (.noMemory hc.abs ((card_of_findEmpty h hc.not_exited.1).2 _ hf))
  | pass hc =>
    rcases hc with hc | ⟨i, hc, -⟩
    · refine .inr ?_
      have hcongr : absReady { s with ctl := .loop 0 false, pass := s.pass + 1 } = absReady s :=
        absReady_congr (by rw [hc]; exact nofun) nofun (runningSlot_of_ne (by rw [hc]; exact nofun)).symm rfl rfl
      have hstep : Pool.Step code (abs s) _ := .start (by simp [abs, absCtl, hc])
      unfold abs
      rw [hcongr]
      exact hstep
    · exact .inl (abs_idle (by rw [hc]; rfl) rfl rfl rfl rfl rfl)
  | dispatch hc hi ha ht => exact .inr (abs_dispatch h hc ha ht)
  | skip hc hi ha => exact .inl (abs_idle (by rw [hc]; rfl) rfl rfl rfl rfl rfl)
  | @ret _ i hc hi =>
    refine .inr ?_
    have hzero : absReady { s with ctl := .returned } = 0 := absReady_zero (hI.returned rfl)
    have hcongr : absReady { s with ctl := .returned } = absReady s :=
      absReady_congr (by rw [hc]; exact nofun) nofun (runningSlot_of_ne (by rw [hc]; exact nofun)).symm rfl rfl
    have hstep : Pool.Step code (abs s) _ := .ret (by simp [abs, absCtl, hc]) (hcongr.symm.trans hzero)
    unfold abs
    rw [hcongr]
    exact hstep
  | yield hc hr => exact .inr (abs_yield h hc hr)
  | finish hc hr => exact .inr (abs_finish h hc (hr.imp_right And.left))
  | keep hc ha => exact .inl (abs_idle (by rw [hc]; rfl) rfl rfl rfl rfl rfl)
  | free hc ha => exact .inl (abs_idle (by rw [hc]; rfl) rfl rfl rfl rfl rfl)

/-- **Run lemma.** -/
theorem run_abs {saved : ℕ → Option (Thread Fn Par)} {current : ℕ} {creates : List (Fn × Option Par)}
    {tr : List (Ev (St Fn Par) Bool Unit)} (h : Run (Step code) always (.initializeBasicThreads saved current creates) tr t) :
    Relation.ReflTransGen (Pool.Step code) (.start creates) (abs t) := by
  induction h with
  | nil =>
    have heq : abs (St.initializeBasicThreads saved current creates) = .start creates := by
      unfold abs
      rw [absReady_zero fun _ => rfl]
      rfl
    rw [heq]
  | snoc hr _ hst ih =>
    rcases step_abs (run_inv ⟨_, _, _, hr⟩) (step_res hst) with heq | hstep
    · rwa [heq]
    · exact ih.tail hstep

theorem lawful_of_steps {creates : List (Fn × Option Par)} {a : Pool Fn Par}
    (h : Relation.ReflTransGen (Pool.Step code) (.start creates) a) : Pool.Lawful code a := by
  induction h with
  | refl => exact Pool.lawful_start creates
  | tail _ hst ih => exact hst.lawful ih

/-- The stacks of the threads that have not finished. -/
def unfinished (s : St Fn Par) : Set ℕ := {p | p < s.created.length ∧ ¬ Finished s p}

/-- The next step calls `create_new_parameterized_thread`. -/
def AtCreate (s : St Fn Par) : Prop := ∃ fn par ctl log, Creating s fn par ctl log

/-- A create exits the program exactly when there is no slot or no memory. -/
theorem create_exits_iff (h : Inv s) (hl : Pool.Lawful code (abs s)) {mem : Bool} (hst : StepRes code s mem t) (hc : AtCreate s) :
    (∃ e, t.ctl = .exited e) ↔ (unfinished s).ncard = MAX_THREADS ∨ mem = false := by
  obtain ⟨fn, par, ctl, log, hc⟩ := hc
  have hne := hc.not_exited.1
  obtain ⟨all, hgood, hall⟩ := hl
  have hcard : (unfinished s).ncard = (abs s).all.card := by
    obtain rfl := hall.resolve_right fun ⟨e, he⟩ => by
      cases hs : s.ctl with
      | exited e' => exact hne e' hs
      | _ => simp [abs, absCtl, hs] at he
    exact hgood.ncard_unfinished
  obtain ⟨hnone, hsome⟩ := card_of_findEmpty h hne
  rw [hcard]
  have hb : ∀ i, s.ctl ≠ .back i := hc.ctl_ne.1
  cases hst with
  | create hc' hf =>
    have hlt := hsome _ hf
    constructor
    · rintro ⟨e, he⟩
      exact absurd he (hc'.not_exited.2 e)
    · rintro (heq | hmem)
      · omega
      · cases hmem
  | noPlace hc' hf => exact ⟨fun _ => .inl (hnone hf), fun _ => ⟨_, rfl⟩⟩
  | noMemory hc' hf => exact ⟨fun _ => .inr rfl, fun _ => ⟨_, rfl⟩⟩
  | pass hm =>
    exfalso
    cases hc with
    | main h' =>
      rcases hm with hm | ⟨i, hm, -⟩
      · rw [h'] at hm; cases hm
      · rw [h'] at hm; cases hm
    | thread h' =>
      rcases hm with hm | ⟨i, hm, -⟩
      · rw [h'] at hm; cases hm
      · rw [h'] at hm; cases hm
  | dispatch hm | skip hm | ret hm =>
    exfalso
    cases hc with
    | main h' => cases h'.symm.trans hm
    | thread h' => cases h'.symm.trans hm
  | yield hm hr =>
    exfalso
    cases hc with
    | main h' => cases h'.symm.trans hm
    | thread h' hr' =>
      obtain ⟨-, rfl⟩ := Ctl.running.inj (h'.symm.trans hm)
      cases hr'.symm.trans hr
  | finish hm hr =>
    exfalso
    cases hc with
    | main h' => cases h'.symm.trans hm
    | thread h' hr' =>
      obtain ⟨-, rfl⟩ := Ctl.running.inj (h'.symm.trans hm)
      rcases hr with hr | ⟨hr, -⟩
      · cases hr'.symm.trans hr
      · cases hr'.symm.trans hr
  | keep hm | free hm => exact absurd hm (hb _)

/-- **Refinement.**  Every run of `initialize_basic_threads`, creates and `schedule_threads` is a run of the pool.  In it each thread
makes the calls of its own function with its own parameter, in order and once, and has made all of them exactly when it has finished; a
create exits the program exactly when `MAX_THREADS` threads are unfinished or `malloc` fails; and `schedule_threads` returns only when
every created thread has finished. -/
theorem refines_pool (code : Fn → Option Par → List (Op Fn Par)) (saved : ℕ → Option (Thread Fn Par)) (current : ℕ)
    (creates : List (Fn × Option Par)) (tr : List (Ev (St Fn Par) Bool Unit)) (t : St Fn Par)
    (h : Run (Step code) always (.initializeBasicThreads saved current creates) tr t) :
    Relation.ReflTransGen (Pool.Step code) (.start creates) (abs t) ∧
    (∀ e ∈ tr, abs e.post = abs e.pre ∨ Pool.Step code (abs e.pre) (abs e.post)) ∧
    (∀ p fn par, t.created[p]? = some (fn, par) →
      callsOf p t.log <+: body (code fn par) ∧ (Finished t p ↔ callsOf p t.log = body (code fn par))) ∧
    (∀ e ∈ tr, AtCreate e.pre →
      ((∃ x, e.post.ctl = .exited x) ↔ (unfinished e.pre).ncard = MAX_THREADS ∨ e.act = false)) ∧
    (t.ctl = .returned → ∀ p < t.created.length, Finished t p) := by
  have hruns : Runs code tr t := ⟨_, _, _, h⟩
  refine ⟨run_abs h, ?_, ?_, ?_, ?_⟩
  · intro e he
    obtain ⟨hI, hst⟩ := run_events hruns e he
    exact step_abs hI hst
  · intro p fn par hp
    obtain ⟨all, hgood, -⟩ := lawful_of_steps (run_abs h)
    exact hgood.calls_of hp
  · intro e he hc
    obtain ⟨hI, hst⟩ := run_events hruns e he
    obtain ⟨⟨tr', hr'⟩, -⟩ := h.forall_ev e he
    exact create_exits_iff hI (lawful_of_steps (run_abs hr')) hst hc
  · intro hret p hp
    have hI := run_inv hruns
    exact hI.freed_fin p (hI.all_freed hret hp)

end

/-- The two quick threads: everything is called, and `schedule_threads` returns. -/
theorem refines_pool_run : ∃ tr t, Run (Step quick) always (boot [(true, none)]) tr t ∧ t.ctl = .returned ∧ Finished t 2 := by
  obtain ⟨tr, t, hr, hret, hlen⟩ := exists_run quick [(true, none)] (List.replicate 26 true)
    (fun _ t => t.ctl = .returned ∧ t.created.length = 3) (by decide +kernel)
  obtain ⟨-, -, -, -, hfin⟩ := refines_pool quick _ _ _ tr t hr
  exact ⟨tr, t, hr, hret, hfin hret 2 (by omega)⟩

/-- **No memory.**  `malloc` fails in the first create: the program exits although nobody is unfinished. -/
theorem exit_without_memory : ∃ tr t, Runs quick tr t ∧ ∃ e ∈ tr, AtCreate e.pre ∧ (∃ x, e.post.ctl = .exited x) ∧
    (unfinished e.pre).ncard ≠ MAX_THREADS := by
  refine ⟨[⟨boot [(true, none)], false, (), _⟩], _, ⟨_, _, _, Run.snoc .nil trivial rfl⟩, _, List.mem_singleton_self _,
    ⟨_, _, _, _, .main rfl⟩, ⟨_, rfl⟩, ?_⟩
  have hempty : unfinished (boot [(true, none)] : St Bool Unit) = ∅ := by
    ext p
    simp [unfinished, boot, St.initializeBasicThreads]
  rw [hempty, Set.ncard_empty]
  decide

end OsLabs.Ust
