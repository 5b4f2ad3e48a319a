import Mathlib.Logic.Relation
import Mathlib.Tactic.SplitIfs

/-!
# OsLabs.Lts — guarded runs of a labelled transition relation

A system is a relation `R : σ → α → ο → σ → Prop`: in state `s` the action `a` may return `o` and lead to `s'`.
`Run R ok s tr t` is a run from `s` to `t` whose events are `tr`, where every action satisfies the guard `ok` in the state
before it.  The guard carries the conditions under which a system keeps its promise; the unguarded runs are those with
`ok := fun _ _ => True`.

* `Run.inv`: a predicate that every admitted step preserves holds at the end of every run.
* `Run.inv_ev`: the same before and after every event on the way.
* `Run.forall_good_iff`: when exactly the guarded runs stay good.
* `Since tr e P`: from the end of the event `e` on, `P` holds along `tr`.
* `execute`: the runs of a system with a step function can be computed; `execute_run` says that they are runs.
-/

namespace OsLabs.Lts

variable {σ α ο : Type*}

/-- One event of a run: the state before, the action, what it returned, the state after. -/
structure Ev (σ α ο : Type*) where
  pre : σ
  act : α
  out : ο
  post : σ

/-- The guarded runs of `R` from `s`; the newest event is last. -/
inductive Run (R : σ → α → ο → σ → Prop) (ok : σ → α → Prop) (s : σ) : List (Ev σ α ο) → σ → Prop
  | nil : Run R ok s [] s
  | snoc {tr : List (Ev σ α ο)} {t u : σ} {a : α} {o : ο} (h : Run R ok s tr t) (hok : ok t a) (hst : R t a o u) :
      Run R ok s (tr ++ [⟨t, a, o, u⟩]) u

/-- Reachable from an initial state by a guarded run. -/
def Reach (R : σ → α → ο → σ → Prop) (ok : σ → α → Prop) (init : σ → Prop) (t : σ) : Prop :=
  ∃ s tr, init s ∧ Run R ok s tr t

/-- A guard that admits everything. -/
def always (_ : σ) (_ : α) : Prop := True

instance (s : σ) (a : α) : Decidable (always s a) := .isTrue trivial

variable {R : σ → α → ο → σ → Prop} {ok ok' : σ → α → Prop} {init : σ → Prop}

namespace Run

variable {s t : σ} {tr : List (Ev σ α ο)}

/-- **Invariant rule.**  What holds at the start and survives every admitted step holds at the end. -/
theorem inv {I : σ → Prop} (h : Run R ok s tr t) (h0 : I s)
    (hstep : ∀ x a o y, I x → ok x a → R x a o y → I y) : I t := by
  induction h with
  | nil => exact h0
  | snoc _ hok hst ih => exact hstep _ _ _ _ ih hok hst

/-- A weaker guard admits more runs. -/
theorem mono (h : Run R ok s tr t) (hm : ∀ x a, ok x a → ok' x a) : Run R ok' s tr t := by
  induction h with
  | nil => exact .nil
  | snoc _ hok hst ih => exact .snoc ih (hm _ _ hok) hst

/-- A run whose events all respect another guard. -/
theorem guard (h : Run R ok s tr t) (hg : ∀ e ∈ tr, ok' e.pre e.act) : Run R ok' s tr t := by
  induction h with
  | nil => exact .nil
  | @snoc tr t u a o h hok hst ih =>
    refine .snoc (ih fun e he => hg e (List.mem_append_left _ he)) ?_ hst
    exact hg ⟨t, a, o, u⟩ (by simp)

/-- Every event of a run is an admitted step out of a state that the part of the run before it reaches. -/
theorem forall_ev (h : Run R ok s tr t) : ∀ e ∈ tr,
    (∃ tr', Run R ok s tr' e.pre) ∧ ok e.pre e.act ∧ R e.pre e.act e.out e.post := by
  induction h with
  | nil => intro e he; cases he
  | snoc h hok hst ih =>
    intro e he
    rcases List.mem_append.mp he with he | he
    · exact ih e he
    · rw [List.mem_singleton] at he
      subst he
      exact ⟨⟨_, h⟩, hok, hst⟩

/-- An invariant holds before and after every event of a run. -/
theorem inv_ev {I : σ → Prop} (h : Run R ok s tr t) (h0 : I s)
    (hstep : ∀ x a o y, I x → ok x a → R x a o y → I y) : ∀ e ∈ tr, I e.pre ∧ I e.post := by
  intro e he
  obtain ⟨⟨tr', hr⟩, hok, hst⟩ := h.forall_ev e he
  have hpre := hr.inv h0 hstep
  exact ⟨hpre, hstep _ _ _ _ hpre hok hst⟩

/-- Two runs, one after the other. -/
theorem append {u : σ} {tr' : List (Ev σ α ο)} (h : Run R ok s tr t) (h' : Run R ok t tr' u) :
    Run R ok s (tr ++ tr') u := by
  induction h' with
  | nil => rwa [List.append_nil]
  | snoc _ hok hst ih =>
    rw [← List.append_assoc]
    exact .snoc ih hok hst

/-- A run cut at one of its events. -/
theorem split {tr1 tr2 : List (Ev σ α ο)} {e : Ev σ α ο} (h : Run R ok s (tr1 ++ e :: tr2) t) :
    Run R ok s tr1 e.pre ∧ ok e.pre e.act ∧ R e.pre e.act e.out e.post ∧ Run R ok e.post tr2 t := by
  generalize htr : tr1 ++ e :: tr2 = tr at h
  induction h generalizing tr2 with
  | nil => simp at htr
  | @snoc tr u v a o h hok hst ih =>
    rcases List.eq_nil_or_concat tr2 with rfl | ⟨tr3, e', rfl⟩
    · obtain ⟨rfl, he⟩ := List.append_inj' htr rfl
      obtain rfl := List.singleton_inj.mp he
      exact ⟨h, hok, hst, .nil⟩
    · rw [List.concat_eq_append, ← List.cons_append, ← List.append_assoc] at htr
      obtain ⟨hpre, he⟩ := List.append_inj' htr rfl
      obtain rfl := List.singleton_inj.mp he
      obtain ⟨h1, h2, h3, h4⟩ := ih hpre
      exact ⟨h1, h2, h3, by simpa using h4.snoc hok hst⟩

end Run

namespace Reach

theorem inv {t : σ} {I : σ → Prop} (h : Reach R ok init t) (h0 : ∀ s, init s → I s)
    (hstep : ∀ x a o y, I x → ok x a → R x a o y → I y) : I t := by
  obtain ⟨s, tr, hs, hr⟩ := h
  exact hr.inv (h0 s hs) hstep

theorem mono {t : σ} (h : Reach R ok init t) (hm : ∀ x a, ok x a → ok' x a) : Reach R ok' init t := by
  obtain ⟨s, tr, hs, hr⟩ := h
  exact ⟨s, tr, hs, hr.mono hm⟩

theorem start {s : σ} (h : init s) : Reach R ok init s := ⟨s, [], h, .nil⟩

theorem step {t u : σ} {a : α} {o : ο} (h : Reach R ok init t) (hok : ok t a) (hst : R t a o u) :
    Reach R ok init u := by
  obtain ⟨s, tr, hs, hr⟩ := h
  exact ⟨s, _, hs, hr.snoc hok hst⟩

/-- A run goes on from a state that is reachable. -/
theorem run {t u : σ} {tr : List (Ev σ α ο)} (h : Reach R ok init t) (h' : Run R ok t tr u) : Reach R ok init u := by
  obtain ⟨s, _, hs, hr⟩ := h
  exact ⟨s, _, hs, hr.append h'⟩

end Reach

/-- **Exactly the guarded runs are good.**  Good states are what guarded runs reach, and a step that breaks the guard, after steps that
respect it, leads to a bad state. -/
theorem Run.forall_good_iff {Good : σ → Prop} {s t : σ} {tr : List (Ev σ α ο)} (h : Run R always s tr t)
    (hgood : ∀ x, Reach R ok (fun y => y = s) x → Good x)
    (hbad : ∀ x a o y, Reach R ok (fun y => y = s) x → R x a o y → ¬ ok x a → ¬ Good y) :
    (∀ e ∈ tr, Good e.post) ↔ ∀ e ∈ tr, ok e.pre e.act := by
  constructor
  · intro hg
    -- up to the first step that breaks the guard the run is a guarded one
    induction h with
    | nil => exact fun e he => absurd he List.not_mem_nil
    | @snoc tr t u a o h _ hst ih =>
      have hok := ih fun e he => hg e (List.mem_append_left _ he)
      intro e he
      rcases List.mem_append.mp he with he' | he'
      · exact hok e he'
      · obtain rfl := List.mem_singleton.mp he'
        refine Classical.byContradiction fun hne => ?_
        exact hbad t a o u ⟨s, tr, rfl, h.guard hok⟩ hst hne (hg _ he)
  · intro hok e he
    obtain ⟨⟨tr', hr⟩, hok, hst⟩ := (h.guard hok).forall_ev e he
    exact hgood e.post (Reach.step ⟨s, tr', rfl, hr⟩ hok hst)

/-! ## Since an event -/

/-- `e` is an event of `tr`, and `P` holds in every state from the end of `e` to the end of `tr`. -/
def Since (tr : List (Ev σ α ο)) (e : Ev σ α ο) (P : σ → Prop) : Prop :=
  ∃ tr1 tr2, tr = tr1 ++ e :: tr2 ∧ P e.post ∧ ∀ e' ∈ tr2, P e'.post

namespace Since

variable {tr : List (Ev σ α ο)} {e e' : Ev σ α ο} {P Q : σ → Prop}

theorem start (h : P e.post) : Since (tr ++ [e]) e P := ⟨tr, [], rfl, h, by simp⟩

theorem snoc (h : Since tr e P) (h' : P e'.post) : Since (tr ++ [e']) e P := by
  obtain ⟨tr1, tr2, rfl, h0, h2⟩ := h
  refine ⟨tr1, tr2 ++ [e'], by simp, h0, fun x hx => ?_⟩
  rcases List.mem_append.mp hx with hx | hx
  · exact h2 x hx
  · rw [List.mem_singleton] at hx
    exact hx ▸ h'

theorem mem (h : Since tr e P) : e ∈ tr := by
  obtain ⟨tr1, tr2, rfl, -, -⟩ := h
  simp

theorem mono (h : Since tr e P) (hPQ : ∀ s, P s → Q s) : Since tr e Q := by
  obtain ⟨tr1, tr2, rfl, h0, h2⟩ := h
  exact ⟨tr1, tr2, rfl, hPQ _ h0, fun x hx => hPQ _ (h2 x hx)⟩

/-- What holds since some event holds at the end. -/
theorem last {s t : σ} (h : Since tr e P) (hr : Run R ok s tr t) : P t := by
  obtain ⟨tr1, tr2, heq, h0, h2⟩ := h
  cases hr with
  | nil => simp at heq
  | @snoc tr' u _ a o hr hok hst =>
    rcases List.eq_nil_or_concat tr2 with rfl | ⟨tr3, e', rfl⟩
    · obtain ⟨-, heq⟩ := List.append_inj' heq rfl
      obtain rfl := List.singleton_inj.mp heq
      exact h0
    · rw [List.concat_eq_append, ← List.cons_append, ← List.append_assoc] at heq
      obtain ⟨-, heq⟩ := List.append_inj' heq rfl
      obtain rfl := List.singleton_inj.mp heq
      exact h2 ⟨u, a, o, t⟩ (by simp)

end Since

/-! ## Computing runs -/

/-- Run the step function `f` on a list of actions, as long as the guard admits them. -/
def execute (f : σ → α → Option (ο × σ)) (ok : σ → α → Prop) [∀ s a, Decidable (ok s a)] :
    σ → List α → Option (List (Ev σ α ο) × σ)
  | s, [] => some ([], s)
  | s, a :: as =>
    if ok s a then
      match f s a with
      | none => none
      | some (o, t) =>
        match execute f ok t as with
        | none => none
        | some (tr, u) => some (⟨s, a, o, t⟩ :: tr, u)
    else none

theorem execute_run {f : σ → α → Option (ο × σ)} [∀ s a, Decidable (ok s a)]
    (hf : ∀ s a o t, f s a = some (o, t) → R s a o t) :
    ∀ {as : List α} {s t : σ} {tr : List (Ev σ α ο)}, execute f ok s as = some (tr, t) → Run R ok s tr t
  | [], s, t, tr, h => by
    obtain ⟨rfl, rfl⟩ := Prod.mk.inj (Option.some.inj h)
    exact .nil
  | a :: as, s, t, tr, h => by
    unfold execute at h
    split_ifs at h with hok
    split at h
    · cases h
    rename_i o u hu
    split at h
    · cases h
    rename_i tr' v hv
    obtain ⟨rfl, rfl⟩ := Prod.mk.inj (Option.some.inj h)
    exact (Run.snoc .nil hok (hf _ _ _ _ hu)).append (execute_run hf hv)

/-- A property of the run that an execution computes. -/
theorem exists_run_of_execute {f : σ → α → Option (ο × σ)} [∀ s a, Decidable (ok s a)]
    (hf : ∀ s a o t, f s a = some (o, t) → R s a o t) {P : List (Ev σ α ο) → σ → Prop} [∀ tr t, Decidable (P tr t)]
    {as : List α} {s : σ} (h : (execute f ok s as).any (fun x => decide (P x.1 x.2)) = true) :
    ∃ tr t, Run R ok s tr t ∧ P tr t := by
  cases hx : execute f ok s as with
  | none =>
    rw [hx] at h
    cases h
  | some x =>
    rw [hx] at h
    exact ⟨x.1, x.2, execute_run hf hx, of_decide_eq_true h⟩

/-- An event of a trace that a computation finds at place `n` cuts it in two. -/
theorem exists_cut {n : Nat} {tr : List (Ev σ α ο)} {G : Ev σ α ο → Prop} [DecidablePred G]
    (h : tr[n]?.any (fun e => decide (G e)) = true) : ∃ tr1 e tr2, tr = tr1 ++ e :: tr2 ∧ G e := by
  cases he : tr[n]? with
  | none =>
    rw [he] at h
    cases h
  | some e =>
    rw [he] at h
    obtain ⟨hn, rfl⟩ := List.getElem?_eq_some_iff.mp he
    refine ⟨tr.take n, tr[n], tr.drop (n + 1), ?_, of_decide_eq_true h⟩
    rw [← List.drop_eq_getElem_cons hn, List.take_append_drop]

/-- Two events of a trace that a computation finds at the places `m` and `n` cut it in three. -/
theorem exists_two_cuts {m n : Nat} {tr : List (Ev σ α ο)} (hmn : m < n) {G : Ev σ α ο → List (Ev σ α ο) → Ev σ α ο → Prop}
    [∀ e l e', Decidable (G e l e')]
    (h : tr[m]?.any (fun e => tr[n]?.any fun e' => decide (G e ((tr.take n).drop (m + 1)) e')) = true) :
    ∃ tr1 e tr2 e' tr3, tr = tr1 ++ e :: (tr2 ++ e' :: tr3) ∧ G e tr2 e' := by
  cases he : tr[m]? with
  | none =>
    rw [he] at h
    cases h
  | some e =>
    cases he' : tr[n]? with
    | none =>
      rw [he, he'] at h
      cases h
    | some e' =>
      rw [he, he'] at h
      obtain ⟨hm, rfl⟩ := List.getElem?_eq_some_iff.mp he
      obtain ⟨hn, rfl⟩ := List.getElem?_eq_some_iff.mp he'
      refine ⟨tr.take m, tr[m], (tr.take n).drop (m + 1), tr[n], tr.drop (n + 1), ?_, of_decide_eq_true h⟩
      -- the part after place `m`, cut once more at `n`
      have h1 : (tr.take n).drop (m + 1) ++ tr.drop n = tr.drop (m + 1) := by
        have := congrArg (List.drop (m + 1)) (List.take_append_drop n tr)
        rwa [List.drop_append_of_le_length (by rw [List.length_take]; omega)] at this
      rw [← List.drop_eq_getElem_cons hn, h1, ← List.drop_eq_getElem_cons hm, List.take_append_drop]

end OsLabs.Lts
