import Mathlib.Data.Finset.Dedup
import Mathlib.Data.Set.Card
import OsLabs.Ust.BasicThreads

/-!
# OsLabs.Ust.Pool — what the scheduler is for

The abstract scheduler: a multiset of threads that are ready, and at most one that runs.  It has no slots, no contexts and no order; it may
run any ready thread.  A create adds a thread, unless `MAX_THREADS` are unfinished.

* `body`: the calls that a body makes from start to end, the `finish_thread` of `thread_helper` included; `callsOf`: those that a thread
  made so far.
* `Pool`, `Pool.Step`: the abstract scheduler.
* `Good`: what a thread has called, and then what it has still to call, is its body; `Step.lawful`, `Good.calls_of`.
-/

namespace OsLabs.Ust

variable {Fn Par : Type*}

/-- The calls of a body; behind a `finish_thread` there are none, and `thread_helper` calls it at the end. -/
def body : List (Op Fn Par) → List (Op Fn Par)
  | [] => [.finish]
  | .finish :: _ => [.finish]
  | .yield :: l => .yield :: body l
  | .create fn par :: l => .create fn par :: body l

/-- The calls of thread `p` in a log. -/
def callsOf (p : ℕ) (log : List (ℕ × Op Fn Par)) : List (Op Fn Par) := (log.filter (·.1 = p)).map Prod.snd

theorem callsOf_append (p : ℕ) (l l' : List (ℕ × Op Fn Par)) : callsOf p (l ++ l') = callsOf p l ++ callsOf p l' := by
  simp [callsOf]

theorem callsOf_self (p : ℕ) (op : Op Fn Par) : callsOf p [(p, op)] = [op] := by
  simp [callsOf]

theorem callsOf_ne {p q : ℕ} (h : q ≠ p) (op : Op Fn Par) : callsOf p [(q, op)] = [] := by
  simp [callsOf, h]

theorem mem_callsOf {p : ℕ} {op : Op Fn Par} {log : List (ℕ × Op Fn Par)} : op ∈ callsOf p log ↔ (p, op) ∈ log := by
  simp [callsOf]

/-- A body calls `finish_thread` once, at its end. -/
theorem body_finish (l : List (Op Fn Par)) : ∃ l', body l = l' ++ [.finish] ∧ Op.finish ∉ l' := by
  induction l with
  | nil => exact ⟨[], rfl, by simp⟩
  | cons op l ih =>
    obtain ⟨l', h1, h2⟩ := ih
    cases op with
    | yield => exact ⟨.yield :: l', by simp [body, h1], by simp [h2]⟩
    | create fn par => exact ⟨.create fn par :: l', by simp [body, h1], by simp [h2]⟩
    | finish => exact ⟨[], rfl, by simp⟩

/-- What the abstract scheduler does: `main` creates threads, nobody runs, somebody runs, it has returned, the program has exited. -/
inductive PoolCtl (Fn Par : Type*)
  | main (todo : List (Fn × Option Par))
  | idle
  | running (t : Thread Fn Par)
  | returned
  | exited (e : Exit)

/-- The abstract scheduler, with the same history. -/
structure Pool (Fn Par : Type*) where
  ready : Multiset (Thread Fn Par)
  ctl : PoolCtl Fn Par
  created : List (Fn × Option Par)
  log : List (ℕ × Op Fn Par)

namespace Pool

/-- The unfinished threads. -/
def all (a : Pool Fn Par) : Multiset (Thread Fn Par) :=
  match a.ctl with
  | .running t => t ::ₘ a.ready
  | _ => a.ready

/-- The control is at a create of `fn` and `par`; with `ctl` and `log` it goes on. -/
inductive Creating (a : Pool Fn Par) (fn : Fn) (par : Option Par) : PoolCtl Fn Par → List (ℕ × Op Fn Par) → Prop
  | main {todo} (h : a.ctl = .main ((fn, par) :: todo)) : Creating a fn par (.main todo) a.log
  | thread {t rest} (h : a.ctl = .running t) (hr : t.rest = .create fn par :: rest) :
      Creating a fn par (.running { t with rest := rest }) (a.log ++ [(t.stack, .create fn par)])

/-- The steps of the abstract scheduler.  With the program its threads are gone. -/
inductive Step (code : Fn → Option Par → List (Op Fn Par)) (a : Pool Fn Par) : Pool Fn Par → Prop
  | create {fn par ctl log} (hc : Creating a fn par ctl log) (hlt : a.all.card < MAX_THREADS) :
      Step code a ⟨⟨a.created.length, fn, par, code fn par⟩ ::ₘ a.ready, ctl, a.created ++ [(fn, par)], log⟩
  | noPlace {fn par ctl log} (hc : Creating a fn par ctl log) (heq : a.all.card = MAX_THREADS) :
      Step code a { a with ctl := .exited .noPlace, ready := 0 }
  | noMemory {fn par ctl log} (hc : Creating a fn par ctl log) (hlt : a.all.card < MAX_THREADS) :
      Step code a { a with ctl := .exited .noMemory, ready := 0 }
  | start (hc : a.ctl = .main []) : Step code a { a with ctl := .idle }
  | dispatch {t r} (hc : a.ctl = .idle) (hr : a.ready = t ::ₘ r) : Step code a { a with ctl := .running t, ready := r }
  | yield {t rest} (hc : a.ctl = .running t) (hr : t.rest = .yield :: rest) :
      Step code a ⟨{ t with rest := rest } ::ₘ a.ready, .idle, a.created, a.log ++ [(t.stack, .yield)]⟩
  | finish {t rest} (hc : a.ctl = .running t) (hr : t.rest = .finish :: rest ∨ t.rest = []) :
      Step code a { a with ctl := .idle, log := a.log ++ [(t.stack, .finish)] }
  | ret (hc : a.ctl = .idle) (hr : a.ready = 0) : Step code a { a with ctl := .returned }

/-- Nothing has been created yet. -/
def start (creates : List (Fn × Option Par)) : Pool Fn Par := ⟨0, .main creates, [], []⟩

end Pool

/-- The thread `t` was created with its function and parameter, and its calls so far and to come make up its body. -/
def Fits (code : Fn → Option Par → List (Op Fn Par)) (created : List (Fn × Option Par)) (log : List (ℕ × Op Fn Par))
    (t : Thread Fn Par) : Prop :=
  created[t.stack]? = some (t.fn, t.par) ∧ callsOf t.stack log ++ body t.rest = body (code t.fn t.par)

/-- **The purpose**, for the unfinished threads `all`. -/
structure Good (code : Fn → Option Par → List (Op Fn Par)) (all : Multiset (Thread Fn Par)) (created : List (Fn × Option Par))
    (log : List (ℕ × Op Fn Par)) : Prop where
  /-- no thread is there twice -/
  nodup : (all.map Thread.stack).Nodup
  fits : ∀ t ∈ all, Fits code created log t
  /-- who is not there any more has called everything -/
  gone : ∀ p fn par, created[p]? = some (fn, par) → (∀ t ∈ all, t.stack ≠ p) → callsOf p log = body (code fn par)
  fresh : ∀ p, created.length ≤ p → callsOf p log = []

namespace Good

variable {code : Fn → Option Par → List (Op Fn Par)} {all : Multiset (Thread Fn Par)} {created : List (Fn × Option Par)}
  {log : List (ℕ × Op Fn Par)} {t : Thread Fn Par}

theorem zero : Good code 0 [] [] where
  nodup := Multiset.nodup_zero
  fits := by simp
  gone := nofun
  fresh _ _ := rfl

theorem stack_lt (h : Good code all created log) (ht : t ∈ all) : t.stack < created.length :=
  (List.getElem?_eq_some_iff.mp (h.fits t ht).1).1

/-- The other threads are on other stacks. -/
theorem stack_ne (h : Good code (t ::ₘ all) created log) {u : Thread Fn Par} (hu : u ∈ all) : t.stack ≠ u.stack := by
  have hnd := h.nodup
  rw [Multiset.map_cons, Multiset.nodup_cons] at hnd
  intro heq
  exact hnd.1 (heq ▸ Multiset.mem_map_of_mem _ hu)

/-- **A call** of the thread `t` that goes on. -/
theorem call (h : Good code (t ::ₘ all) created log) (op : Op Fn Par) (rest : List (Op Fn Par)) (hb : body t.rest = op :: body rest) :
    Good code ({ t with rest := rest } ::ₘ all) created (log ++ [(t.stack, op)]) where
  nodup := by
    have hnd := h.nodup
    rwa [Multiset.map_cons] at hnd ⊢
  fits := by
    intro u hu
    rcases Multiset.mem_cons.mp hu with rfl | hu
    · obtain ⟨h1, h2⟩ := h.fits t (Multiset.mem_cons_self _ _)
      refine ⟨h1, ?_⟩
      rw [callsOf_append, callsOf_self, List.append_assoc, List.singleton_append, ← hb]
      exact h2
    · obtain ⟨h1, h2⟩ := h.fits u (Multiset.mem_cons_of_mem hu)
      refine ⟨h1, ?_⟩
      rwa [callsOf_append, callsOf_ne (h.stack_ne hu), List.append_nil]
  gone := by
    intro p fn par hp hall
    have hne : t.stack ≠ p := hall { t with rest := rest } (Multiset.mem_cons_self _ _)
    rw [callsOf_append, callsOf_ne hne, List.append_nil]
    refine h.gone p fn par hp fun u hu => ?_
    rcases Multiset.mem_cons.mp hu with rfl | hu
    · exact hne
    · exact hall u (Multiset.mem_cons_of_mem hu)
  fresh := by
    intro p hp
    have hlt := h.stack_lt (Multiset.mem_cons_self t all)
    rw [callsOf_append, callsOf_ne (by omega), List.append_nil]
    exact h.fresh p hp

/-- **A new thread**, on a new stack. -/
theorem add (h : Good code all created log) (fn : Fn) (par : Option Par) :
    Good code (⟨created.length, fn, par, code fn par⟩ ::ₘ all) (created ++ [(fn, par)]) log where
  nodup := by
    rw [Multiset.map_cons, Multiset.nodup_cons]
    refine ⟨fun hm => ?_, h.nodup⟩
    obtain ⟨u, hu, heq⟩ := Multiset.mem_map.mp hm
    have hlt := h.stack_lt hu
    rw [heq] at hlt
    exact absurd hlt (Nat.lt_irrefl _)
  fits := by
    intro u hu
    rcases Multiset.mem_cons.mp hu with rfl | hu
    · refine ⟨by simp, ?_⟩
      rw [h.fresh _ (Nat.le_refl _)]
      rfl
    · obtain ⟨h1, h2⟩ := h.fits u hu
      exact ⟨(List.getElem?_append_left (h.stack_lt hu)).trans h1, h2⟩
  gone := by
    intro p gn qar hp hall
    have hne : created.length ≠ p := hall _ (Multiset.mem_cons_self _ _)
    have hlt : p < created.length := by
      have := (List.getElem?_eq_some_iff.mp hp).1
      rw [List.length_append, List.length_singleton] at this
      omega
    rw [List.getElem?_append_left hlt] at hp
    exact h.gone p gn qar hp fun u hu => hall u (Multiset.mem_cons_of_mem hu)
  fresh := by
    intro p hp
    rw [List.length_append] at hp
    exact h.fresh p (by omega)

/-- **The last call** of a thread. -/
theorem finish (h : Good code (t ::ₘ all) created log) (hb : body t.rest = [.finish]) :
    Good code all created (log ++ [(t.stack, .finish)]) where
  nodup := by
    have hnd := h.nodup
    rw [Multiset.map_cons] at hnd
    exact (Multiset.nodup_cons.mp hnd).2
  fits := by
    intro u hu
    obtain ⟨h1, h2⟩ := h.fits u (Multiset.mem_cons_of_mem hu)
    refine ⟨h1, ?_⟩
    rwa [callsOf_append, callsOf_ne (h.stack_ne hu), List.append_nil]
  gone := by
    intro p fn par hp hall
    rw [callsOf_append]
    by_cases hne : t.stack = p
    · subst hne
      obtain ⟨h1, h2⟩ := h.fits t (Multiset.mem_cons_self _ _)
      obtain ⟨rfl, rfl⟩ := Prod.mk.inj (Option.some.inj (h1.symm.trans hp))
      rw [callsOf_self, ← hb]
      exact h2
    · rw [callsOf_ne hne, List.append_nil]
      refine h.gone p fn par hp fun u hu => ?_
      rcases Multiset.mem_cons.mp hu with rfl | hu
      · exact hne
      · exact hall u hu
  fresh := by
    intro p hp
    have hlt := h.stack_lt (Multiset.mem_cons_self t all)
    rw [callsOf_append, callsOf_ne (by omega), List.append_nil]
    exact h.fresh p hp

/-- Who is there has not finished. -/
theorem finish_not_mem (h : Good code all created log) (ht : t ∈ all) : (t.stack, Op.finish) ∉ log := by
  obtain ⟨-, h2⟩ := h.fits t ht
  obtain ⟨l1, h3, -⟩ := body_finish t.rest
  obtain ⟨l2, h4, h5⟩ := body_finish (code t.fn t.par)
  rw [h3, h4, ← List.append_assoc] at h2
  rw [← mem_callsOf]
  intro hm
  exact h5 ((List.append_inj' h2 rfl).1 ▸ List.mem_append_left _ hm)

/-- **What the log holds of a thread**: a part of its body from the start on, and all of it exactly when the thread has finished. -/
theorem calls_of (h : Good code all created log) {p : ℕ} {fn : Fn} {par : Option Par} (hp : created[p]? = some (fn, par)) :
    callsOf p log <+: body (code fn par) ∧ ((p, .finish) ∈ log ↔ callsOf p log = body (code fn par)) := by
  by_cases hall : ∃ t ∈ all, t.stack = p
  · obtain ⟨t, ht, rfl⟩ := hall
    obtain ⟨h1, h2⟩ := h.fits t ht
    obtain ⟨rfl, rfl⟩ := Prod.mk.inj (Option.some.inj (h1.symm.trans hp))
    refine ⟨⟨_, h2⟩, fun hm => absurd hm (h.finish_not_mem ht), fun heq => ?_⟩
    obtain ⟨l, hl, -⟩ := body_finish t.rest
    rw [heq, hl] at h2
    exact absurd (congrArg List.length h2) (by simp)
  · have heq := h.gone p fn par hp fun t ht hts => hall ⟨t, ht, hts⟩
    obtain ⟨l, hl, -⟩ := body_finish (code fn par)
    refine ⟨heq ▸ List.prefix_rfl, fun _ => heq, fun _ => ?_⟩
    rw [← mem_callsOf, heq, hl]
    simp

/-- The unfinished threads, counted by their stacks. -/
theorem ncard_unfinished (h : Good code all created log) :
    Set.ncard {p | p < created.length ∧ (p, Op.finish) ∉ log} = all.card := by
  have hset : {p | p < created.length ∧ (p, Op.finish) ∉ log} = ((all.map Thread.stack).toFinset : Set ℕ) := by
    ext p
    simp only [Set.mem_ofPred_eq, Finset.mem_coe, Multiset.mem_toFinset, Multiset.mem_map]
    constructor
    · rintro ⟨hlt, hnf⟩
      by_contra hno
      have hp : created[p]? = some (created[p].1, created[p].2) := List.getElem?_eq_getElem hlt
      have heq := h.gone p _ _ hp fun t ht hts => hno ⟨t, ht, hts⟩
      exact hnf ((h.calls_of hp).2.mpr heq)
    · rintro ⟨t, ht, rfl⟩
      exact ⟨h.stack_lt ht, h.finish_not_mem ht⟩
  rw [hset, Set.ncard_coe_finset, Multiset.toFinset_card_of_nodup h.nodup, Multiset.card_map]

end Good

/-! ## Every step of the pool keeps it good -/

namespace Pool

variable {code : Fn → Option Par → List (Op Fn Par)} {a b : Pool Fn Par}

theorem all_running {t : Thread Fn Par} (h : a.ctl = .running t) : a.all = t ::ₘ a.ready := by
  simp [all, h]

theorem all_of_ne (h : ∀ t, a.ctl ≠ .running t) : a.all = a.ready := by
  unfold all
  split
  · rename_i hc
    exact absurd hc (h _)
  · rfl

/-- The pool is good, or was when the program exited. -/
def Lawful (code : Fn → Option Par → List (Op Fn Par)) (a : Pool Fn Par) : Prop :=
  ∃ all, Good code all a.created a.log ∧ (all = a.all ∨ ∃ e, a.ctl = .exited e)

theorem lawful_start (creates : List (Fn × Option Par)) : Lawful code (start creates) := ⟨_, .zero, .inl rfl⟩

/-- An exited pool takes no step. -/
theorem Step.not_exited (hst : Step code a b) (e : Exit) : a.ctl ≠ .exited e := by
  intro he
  cases hst with
  | create hc | noPlace hc | noMemory hc =>
    cases hc with
    | main hm | thread hm => cases hm.symm.trans he
  | start hm | dispatch hm | yield hm | finish hm | ret hm => cases hm.symm.trans he

/-- **Step lemma.** -/
theorem Step.lawful (hst : Step code a b) (hl : Lawful code a) : Lawful code b := by
  obtain ⟨all, h, heq⟩ := hl
  obtain rfl := heq.resolve_right fun ⟨e, he⟩ => hst.not_exited e he
  cases hst with
  | @create fn par ctl log hc hlt =>
    cases hc with
    | main hm =>
      rw [all_of_ne (by rw [hm]; exact nofun)] at h
      exact ⟨_, h.add fn par, .inl rfl⟩
    | @thread t rest hm hr =>
      rw [all_running hm] at h
      have hgood := (h.call (.create fn par) rest (by rw [hr, body])).add fn par
      rw [Multiset.cons_swap] at hgood
      exact ⟨_, hgood, .inl rfl⟩
  | noPlace hc heq => exact ⟨_, h, .inr ⟨_, rfl⟩⟩
  | noMemory hc hlt => exact ⟨_, h, .inr ⟨_, rfl⟩⟩
  | start hm =>
    rw [all_of_ne (by rw [hm]; exact nofun)] at h
    exact ⟨_, h, .inl rfl⟩
  | @dispatch t r hm hr =>
    rw [all_of_ne (by rw [hm]; exact nofun), hr] at h
    exact ⟨_, h, .inl rfl⟩
  | @yield t rest hm hr =>
    rw [all_running hm] at h
    exact ⟨_, h.call .yield rest (by rw [hr, body]), .inl rfl⟩
  | @finish t rest hm hr =>
    rw [all_running hm] at h
    refine ⟨_, h.finish ?_, .inl rfl⟩
    rcases hr with hr | hr
    · rw [hr, body]
    · rw [hr, body]
  | ret hm hr =>
    rw [all_of_ne (by rw [hm]; exact nofun)] at h
    exact ⟨_, h, .inl rfl⟩

end Pool

end OsLabs.Ust
