import OsLabs.Ust.BasicThreads

/-!
# OsLabs.Ust.RoundRobin — equal turns

The scheduler looks at the slots one by one, in passes; the set of active slots and `num_threads` change while it does.

* `dispatch`: the slot and the thread that an event switches to.
* `next`: the slot the scheduler looks at next.  `Moves`: a step leaves the pass and `next` as they are, visits slot `next`, or begins a
  new pass when `next` is past the last slot; `step_moves`, `pos_run`.
* `Phase`: between two turns of a thread in slot `i` the scheduler is behind `i` in the same pass or not yet at `i` in the following one,
  and a thread in slot `j` has had its turn exactly when the scheduler has gone past `j` since.
* `round_robin`: so between two turns everybody else who is there all the time has one, and the slots of a pass come in order.
-/

namespace OsLabs.Ust

open Lts

variable {Fn Par : Type*}

/-- The switch of the scheduler to a thread: slot and thread. -/
def dispatch (e : Ev (St Fn Par) Bool Unit) : Option (ℕ × ℕ) :=
  match e.pre.ctl, e.post.ctl with
  | .loop i _, .running _ t => some (i, t.stack)
  | _, _ => none

/-- The thread that an event dispatches. -/
def dispatched (e : Ev (St Fn Par) Bool Unit) : Option ℕ := (dispatch e).map Prod.snd

/-- The slot that the scheduler looks at next in this pass; before the first pass there is none left. -/
def next (s : St Fn Par) : ℕ :=
  match s.ctl with
  | .loop i _ => i
  | .running i _ => i + 1
  | .back i => i + 1
  | .main _ => MAX_THREADS
  | .returned => 0
  | .exited _ => 0

/-- `schedule_threads` has returned, or the program has exited. -/
def Ended (s : St Fn Par) : Prop :=
  match s.ctl with
  | .returned => True
  | .exited _ => True
  | _ => False

section

variable {code : Fn → Option Par → List (Op Fn Par)} {s t : St Fn Par} {i j k n p : ℕ}

theorem dispatched_eq_some {e : Ev (St Fn Par) Bool Unit} : dispatched e = some p ↔ ∃ i, dispatch e = some (i, p) := by
  unfold dispatched
  constructor
  · intro h
    obtain ⟨⟨i, q⟩, hd, rfl⟩ := Option.map_eq_some_iff.mp h
    exact ⟨i, hd⟩
  · rintro ⟨i, hd⟩
    rw [hd]
    rfl

/-- What a step does to the place of the scheduler, and whom it dispatches. -/
inductive Moves (s t : St Fn Par) : Option (ℕ × ℕ) → Prop
  | stay (hp : t.pass = s.pass) (hn : next t = next s) : Moves s t none
  | turn {p : ℕ} (hp : t.pass = s.pass) (hn : next t = next s + 1) (ha : At s (next s) p) (ht : At t (next s) p) :
      Moves s t (some (next s, p))
  | skip (hp : t.pass = s.pass) (hn : next t = next s + 1) (ha : s.active (next s) = false) : Moves s t none
  | newPass (hp : t.pass = s.pass + 1) (hn : next t = 0) (hle : s.num_threads ≤ next s) : Moves s t none
  | ended (he : Ended t) : Moves s t none

/-- An event that does not lead into a thread dispatches nobody. -/
theorem Moves.of_post {mem : Bool} {o : Unit} (h : ∀ i u, t.ctl ≠ .running i u) (hm : Moves s t none) :
    Moves s t (dispatch ⟨s, mem, o, t⟩) := by
  have hd : dispatch ⟨s, mem, o, t⟩ = none := by
    unfold dispatch
    split
    · rename_i hu
      exact absurd hu (h _ _)
    · rfl
  rwa [hd]

/-- **Step lemma.** -/
theorem step_moves (h : Inv s) {mem : Bool} {o : Unit} (hst : StepRes code s mem t) : Moves s t (dispatch ⟨s, mem, o, t⟩) := by
  cases hst with
  | create hc hf =>
    cases hc with
    | main hm =>
      exact .of_post (fun _ _ hx => by cases hx) (.stay rfl (by simp [next, hm]))
    | @thread i t rest hm hr =>
      have hd : ∀ u, dispatch ⟨s, true, o, u⟩ = none := by
        intro u
        simp [dispatch, hm]
      rw [hd]
      exact .stay rfl (by simp [next, hm])
  | noPlace hc hf =>
    exact .of_post (fun _ _ hx => by cases hx) (.ended (by simp [Ended]))
  | noMemory hc hf =>
    exact .of_post (fun _ _ hx => by cases hx) (.ended (by simp [Ended]))
  | pass hc =>
    refine .of_post (fun _ _ hx => by cases hx) (.newPass rfl rfl ?_)
    rcases hc with hm | ⟨i, hm, hle⟩
    · simpa [next, hm] using h.num_le
    · simpa [next, hm] using hle
  | @dispatch _ i run t hm hi ha ht =>
    obtain ⟨u, hu, hp⟩ := h.live i ha
    obtain rfl := Option.some.inj (ht.symm.trans hu)
    have hn : next s = i := by simp [next, hm]
    have hd : dispatch ⟨s, mem, o, { s with current := i, ctl := .running i t }⟩ = some (next s, t.stack) := by
      simp [dispatch, hm, hn]
    rw [hd]
    have hat : At s (next s) t.stack := by
      rw [hn]
      exact ⟨ha, hp⟩
    exact .turn rfl (by simp [next, hm]) hat hat
  | @skip _ i run hm hi ha =>
    have hn : next s = i := by simp [next, hm]
    exact .of_post (fun _ _ hx => by cases hx) (.skip rfl (by simp [next, hm]) (hn ▸ ha))
  | ret hm hi =>
    exact .of_post (fun _ _ hx => by cases hx) (.ended (by simp [Ended]))
  | yield hm hr =>
    exact .of_post (fun _ _ hx => by cases hx) (.stay rfl (by simp [next, hm, St.yield, St.swapOut]))
  | finish hm hr =>
    exact .of_post (fun _ _ hx => by cases hx) (.stay rfl (by simp [next, hm, St.finishThread, St.swapOut]))
  | keep hm ha =>
    exact .of_post (fun _ _ hx => by cases hx) (.stay rfl (by simp [next, hm]))
  | free hm ha =>
    exact .of_post (fun _ _ hx => by cases hx) (.stay rfl (by simp [next, hm]))

/-- Nothing happens behind the end. -/
theorem not_ended {mem : Bool} (hst : s.step code mem = some t) : ¬ Ended s := by
  unfold Ended
  unfold St.step at hst
  split at hst
  all_goals simp_all

/-- **The place of the scheduler only goes on**: to a later pass, or in the same pass to a later slot. -/
theorem pos_run (h : Inv s) {tr : List (Ev (St Fn Par) Bool Unit)} (hr : Run (Step code) always s tr t) :
    Inv t ∧ (Ended t ∨ s.pass < t.pass ∨ s.pass = t.pass ∧ next s ≤ next t) := by
  induction hr with
  | nil => exact ⟨h, .inr (.inr ⟨rfl, Nat.le_refl _⟩)⟩
  | @snoc tr t u mem o hr _ hst ih =>
    obtain ⟨hI, hpos⟩ := ih
    refine ⟨hI.step (step_res hst), ?_⟩
    have hpos := hpos.resolve_left (not_ended hst)
    have hmv := step_moves (o := o) hI (step_res hst)
    generalize dispatch ⟨t, mem, o, u⟩ = d at hmv
    cases hmv with
    | stay hp hn => omega
    | turn hp hn => omega
    | skip hp hn ha => omega
    | newPass hp hn hle => omega
    | ended he => exact .inl he

/-- A dispatch: the thread is active in the slot that the scheduler is at, and then the scheduler is behind it. -/
theorem dispatch_some (h : Inv s) {mem : Bool} {o : Unit} (hst : StepRes code s mem t)
    (hd : dispatch ⟨s, mem, o, t⟩ = some (i, p)) : At s i p ∧ next s = i ∧ next t = i + 1 ∧ t.pass = s.pass ∧ At t i p := by
  have hmv := step_moves (o := o) h hst
  rw [hd] at hmv
  cases hmv with
  | turn hp hn ha ht => exact ⟨ha, rfl, hn, hp, ht⟩

/-! ## Between two turns -/

/-- A thread that is still active is in the slot it was in. -/
theorem At.step (hat : At s i p) (h : Inv s) {mem : Bool} (hst : StepRes code s mem t) (hact : Active t p) : At t i p := by
  obtain ⟨j, hj⟩ := hact
  have hi : (t.threads i).ss_sp = some p := by
    by_contra hne
    exact (h.live_held i p hat.1 hat.2).1 (h.overwritten_step hst hat.2 hne)
  obtain rfl := (h.step hst).sp_inj i j p hi hj.2
  exact hj

/-- A thread that is active later was active before, from its creation on. -/
theorem active_of_run (h : Inv s) {tr : List (Ev (St Fn Par) Bool Unit)} (hr : Run (Step code) always s tr t) (hI : Inv t)
    (hlt : p < s.created.length) (hact : Active t p) : Active s p := by
  obtain ⟨-, hlog⟩ := history_run hr
  have hnf := (hI.active_iff.mp hact).2
  exact h.active_iff.mpr ⟨hlt, fun hfin => hnf (hlog.subset hfin)⟩

/-- Since its turn in pass `k` the thread in slot `i` had no other, and the one in slot `j` had `n`. -/
def Phase (i j k n : ℕ) (s : St Fn Par) : Prop :=
  s.pass = k ∧ i < next s ∧ n = (if i < j ∧ j < next s then 1 else 0) ∨
  s.pass = k + 1 ∧ next s ≤ i ∧ n = (if i < j ∨ j < next s then 1 else 0)

/-- How often a thread is dispatched. -/
def turns (tr : List (Ev (St Fn Par) Bool Unit)) (p : ℕ) : ℕ := tr.countP fun e => dispatched e = some p

/-- **Step lemma.**  A pass ends only behind both slots, and a visit to an active slot is a turn. -/
theorem Phase.step {T U : ℕ} {d : Option (ℕ × ℕ)} (hph : Phase i j k n s) (h : Inv s) (hmv : Moves s t d) (hi : At s i T) (hj : At s j U)
    (hT : d.map Prod.snd ≠ some T) : Ended t ∨ Phase i j k (n + if d.map Prod.snd = some U then 1 else 0) t := by
  have hin := h.active_lt i hi.1
  have hjn := h.active_lt j hj.1
  cases hmv with
  | stay hp hn =>
    refine .inr ?_
    unfold Phase at hph ⊢
    rw [hp, hn]
    simpa using hph
  | @turn p hp hn ha ht =>
    refine .inr ?_
    have hni : next s ≠ i := by
      rintro rfl
      exact hT (congrArg some (Option.some.inj (ha.2.symm.trans hi.2)))
    have hU : (p = U ↔ next s = j) := by
      constructor
      · rintro rfl
        exact h.sp_inj _ _ p ha.2 hj.2
      · rintro rfl
        exact Option.some.inj (ha.2.symm.trans hj.2)
    simp only [Option.map_some, Option.some.injEq, hU]
    unfold Phase at hph ⊢
    rw [hp, hn]
    rcases hph with ⟨hk, hlt, rfl⟩ | ⟨hk, hle, rfl⟩
    · refine .inl ⟨hk, by omega, ?_⟩
      split_ifs <;> omega
    · refine .inr ⟨hk, by omega, ?_⟩
      split_ifs <;> omega
  | skip hp hn ha =>
    refine .inr ?_
    have hni : next s ≠ i := by
      rintro rfl
      rw [hi.1] at ha
      cases ha
    have hnj : next s ≠ j := by
      rintro rfl
      rw [hj.1] at ha
      cases ha
    unfold Phase at hph ⊢
    rw [hp, hn]
    rcases hph with ⟨hk, hlt, rfl⟩ | ⟨hk, hle, rfl⟩
    · refine .inl ⟨hk, by omega, ?_⟩
      simp only [Option.map_none, reduceCtorEq, if_false, Nat.add_zero]
      split_ifs <;> omega
    · refine .inr ⟨hk, by omega, ?_⟩
      simp only [Option.map_none, reduceCtorEq, if_false, Nat.add_zero]
      split_ifs <;> omega
  | newPass hp hn hle =>
    refine .inr ?_
    unfold Phase at hph ⊢
    rw [hp, hn]
    rcases hph with ⟨hk, hlt, rfl⟩ | ⟨hk, hle', rfl⟩
    · refine .inr ⟨by omega, Nat.zero_le _, ?_⟩
      simp only [Option.map_none, reduceCtorEq, if_false, Nat.add_zero]
      split_ifs <;> omega
    · omega
  | ended he => exact .inl he

/-- **Run lemma.** -/
theorem Phase.run {T U : ℕ} {tr : List (Ev (St Fn Par) Bool Unit)} (hr : Run (Step code) always s tr t) (h : Inv s)
    (hph : Phase i j k 0 s) (hi : At s i T) (hj : At s j U)
    (hT : ∀ e ∈ tr, Active e.post T ∧ dispatched e ≠ some T) (hU : ∀ e ∈ tr, Active e.post U) :
    Inv t ∧ At t i T ∧ At t j U ∧ (Ended t ∨ Phase i j k (turns tr U) t) := by
  induction hr with
  | nil => exact ⟨h, hi, hj, .inr hph⟩
  | @snoc tr t u mem o hr _ hst ih =>
    obtain ⟨hI, hi, hj, hpos⟩ := ih (fun e he => hT e (by simp [he])) (fun e he => hU e (by simp [he]))
    have hres := step_res hst
    obtain ⟨hTa, hTd⟩ := hT ⟨t, mem, o, u⟩ (by simp)
    have hstep := (hpos.resolve_left (not_ended hst)).step hI (step_moves (o := o) hI hres) hi hj hTd
    refine ⟨hI.step hres, hi.step hI hres hTa, hj.step hI hres (hU ⟨t, mem, o, u⟩ (by simp)), ?_⟩
    have hcount : turns (tr ++ [⟨t, mem, o, u⟩]) U = turns tr U + if dispatched ⟨t, mem, o, u⟩ = some U then 1 else 0 := by
      rw [turns, List.countP_append, List.countP_singleton]
      simp [turns]
    rw [hcount]
    exact hstep

/-- **Equal turns.**  Between two turns of `T` that follow one another. -/
theorem turns_eq_one {T U : ℕ} {tr1 tr2 tr3 : List (Ev (St Fn Par) Bool Unit)} {e1 e2 : Ev (St Fn Par) Bool Unit}
    (h : Runs code (tr1 ++ e1 :: (tr2 ++ e2 :: tr3)) t) (h1 : dispatched e1 = some T) (h2 : dispatched e2 = some T)
    (hT : ∀ e ∈ tr2, dispatched e ≠ some T) (hne : U ≠ T) (hU : ∀ e ∈ e1 :: tr2, Active e.post U) : turns tr2 U = 1 := by
  obtain ⟨hI1, hs1⟩ := run_events h e1 (by simp)
  obtain ⟨hI2, hs2⟩ := run_events h e2 (by simp)
  obtain ⟨saved, current, creates, hr⟩ := h
  obtain ⟨-, -, -, hr2⟩ := hr.split
  obtain ⟨hr2, -, hst2, -⟩ := hr2.split
  obtain ⟨i, hd1⟩ := dispatched_eq_some.mp h1
  obtain ⟨i', hd2⟩ := dispatched_eq_some.mp h2
  obtain ⟨-, -, hn1, hp1, hat1⟩ := dispatch_some hI1 hs1 hd1
  obtain ⟨hat2, hn2, -⟩ := dispatch_some hI2 hs2 hd2
  have hI1' := hI1.step hs1
  obtain ⟨j, hj⟩ := hU e1 (by simp)
  -- the thread is active in between, as it is active when its second turn comes
  have hTact : ∀ e ∈ tr2, Active e.post T ∧ dispatched e ≠ some T := by
    intro e he
    refine ⟨?_, hT e he⟩
    obtain ⟨a, b, rfl⟩ := List.append_of_mem he
    obtain ⟨hra, -, hst, hrb⟩ := hr2.split
    have hIe := (pos_run hI1' hra).1.step (step_res hst)
    have hlen := ((history_run hra).1.trans (history_step (step_res hst)).1).length_le
    exact active_of_run hIe hrb hI2 (Nat.lt_of_lt_of_le (hI1'.sp_lt i _ hat1.2) hlen) ⟨i', hat2⟩
  have hij : i ≠ j := by
    rintro rfl
    exact hne (Option.some.inj (hj.2.symm.trans hat1.2))
  have hph : Phase i j e1.post.pass 0 e1.post := by
    refine .inl ⟨rfl, by omega, ?_⟩
    rw [hn1, if_neg (by omega)]
  obtain ⟨-, hi2, hj2, hend⟩ := Phase.run hr2 hI1' hph hat1 hj hTact fun e he => hU e (List.mem_cons_of_mem _ he)
  obtain rfl := hI2.sp_inj i i' T hi2.2 hat2.2
  have hend := hend.resolve_left (not_ended hst2)
  have hjn := hI2.active_lt j hj2.1
  -- the scheduler is at slot `i` again, so it is in the following pass
  rcases hend with ⟨-, hlt, -⟩ | ⟨-, -, hn⟩
  · omega
  · rw [hn, if_pos (by omega)]

/-- **One pass.**  Of two turns in one pass the later one is in the higher slot. -/
theorem pass_increasing {tr1 tr2 tr3 : List (Ev (St Fn Par) Bool Unit)} {e1 e2 : Ev (St Fn Par) Bool Unit} {q : ℕ}
    (h : Runs code (tr1 ++ e1 :: (tr2 ++ e2 :: tr3)) t) (h1 : dispatch e1 = some (i, p)) (h2 : dispatch e2 = some (j, q))
    (hpass : e1.pre.pass = e2.pre.pass) : i < j := by
  obtain ⟨hI1, hs1⟩ := run_events h e1 (by simp)
  obtain ⟨hI2, hs2⟩ := run_events h e2 (by simp)
  obtain ⟨saved, current, creates, hr⟩ := h
  obtain ⟨-, -, -, hr2⟩ := hr.split
  obtain ⟨hr2, -, hst2, -⟩ := hr2.split
  obtain ⟨-, -, hn1, hp1, -⟩ := dispatch_some hI1 hs1 h1
  obtain ⟨-, hn2, -⟩ := dispatch_some hI2 hs2 h2
  have hpos := (pos_run (hI1.step hs1) hr2).2.resolve_left (not_ended hst2)
  omega

/-- **Round robin.**  In every run: between two turns of a thread that follow one another, every other thread that is active all that time
has exactly one turn; and the turns of one pass are in strictly increasing slots. -/
theorem round_robin (code : Fn → Option Par → List (Op Fn Par)) (tr : List (Ev (St Fn Par) Bool Unit)) (t : St Fn Par)
    (h : Runs code tr t) :
    (∀ T tr1 e1 tr2 e2 tr3, tr = tr1 ++ e1 :: (tr2 ++ e2 :: tr3) → dispatched e1 = some T → dispatched e2 = some T →
      (∀ e ∈ tr2, dispatched e ≠ some T) → ∀ U, U ≠ T → (∀ e ∈ e1 :: tr2, Active e.post U) → turns tr2 U = 1) ∧
    (∀ tr1 e1 tr2 e2 tr3 i p j q, tr = tr1 ++ e1 :: (tr2 ++ e2 :: tr3) → dispatch e1 = some (i, p) → dispatch e2 = some (j, q) →
      e1.pre.pass = e2.pre.pass → i < j) := by
  constructor
  · rintro T tr1 e1 tr2 e2 tr3 rfl h1 h2 hT U hne hU
    exact turns_eq_one h h1 h2 hT hne hU
  · rintro tr1 e1 tr2 e2 tr3 i p j q rfl h1 h2 hpass
    exact pass_increasing h h1 h2 hpass

end

/-- `interleave1` and `interleave2`. -/
def interleave : Unit → Option Unit → List (Op Unit Unit) := fun _ _ => [.yield, .finish]

/-- The second thread has its turn between the two turns of the first. -/
theorem round_robin_run : ∃ tr t, Runs interleave tr t ∧ ∃ tr1 e1 tr2 e2 tr3, tr = tr1 ++ e1 :: (tr2 ++ e2 :: tr3) ∧
    dispatched e1 = some 0 ∧ dispatched e2 = some 0 ∧ turns tr2 1 = 1 := by
  obtain ⟨tr, t, hr, hcut⟩ := exists_run interleave [((), none), ((), none)] (List.replicate 11 true)
    (fun tr _ => tr[3]?.any (fun e1 => tr[10]?.any fun e2 => decide (dispatched e1 = some 0 ∧ dispatched e2 = some 0 ∧
      (∀ e ∈ (tr.take 10).drop 4, dispatched e ≠ some 0) ∧ ∀ e ∈ e1 :: (tr.take 10).drop 4, At e.post 1 1)) = true)
    (by decide +kernel)
  obtain ⟨tr1, e1, tr2, e2, tr3, heq, h1, h2, hT, hU⟩ := exists_two_cuts (m := 3) (n := 10) (by decide)
    (G := fun e1 tr2 e2 => dispatched e1 = some 0 ∧ dispatched e2 = some 0 ∧ (∀ e ∈ tr2, dispatched e ≠ some 0) ∧
      ∀ e ∈ e1 :: tr2, At e.post 1 1) hcut
  have hruns : Runs interleave tr t := ⟨_, _, _, hr⟩
  have hone := (round_robin interleave tr t hruns).1 0 tr1 e1 tr2 e2 tr3 heq h1 h2 hT 1 (by decide) fun e he => ⟨1, hU e he⟩
  exact ⟨tr, t, hruns, tr1, e1, tr2, e2, tr3, heq, h1, h2, hone⟩

end OsLabs.Ust
