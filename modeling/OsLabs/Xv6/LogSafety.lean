import OsLabs.Xv6.LogStep

/-!
# OsLabs.Xv6.LogSafety — what the logging layer guarantees over whole runs

Any number of processes run operations over the buffer cache, in any order of steps, and the power may fail between any two of them.

* `crash_atomic`: a recovery from the disk of any state finds the last committed group, and a group is committed only while no
  operation is under way, so each operation is in it whole or not at all.
* `reads_current`: `bread` returns the last contents that were logged, or else the committed ones.
* `cache_counted`: one buffer for each block, `refcnt` counts the references, and when `bget` panics.
-/

namespace OsLabs.Xv6.Fs

open Lts (Run)
open RedoLog (Region Live replay)

/-! ## The log stays where it is -/

section Place

variable {s t : Sys} {a : Act} {p : ℕ} {o : Out}

theorem region_step (h : Step s a o t) : t.log.region = s.log.region := by
  unfold Step step at h
  cases a with
  | crash =>
    obtain ⟨-, rfl⟩ := Prod.mk.inj (Option.some.inj h)
    rfl
  | beginOp p =>
    simp only [beginOp] at h
    split_ifs at h <;> obtain ⟨-, rfl⟩ := Prod.mk.inj (Option.some.inj h) <;> rfl
  | get p b =>
    simp only [get] at h
    split_ifs at h
    split at h <;> obtain ⟨-, rfl⟩ := Prod.mk.inj (Option.some.inj h) <;> rfl
  | acquire p =>
    split_ifs at h
    obtain ⟨i, -, -, rfl, -⟩ := acquire_eq_some h
    rfl
  | logWrite p i d =>
    split_ifs at h
    obtain ⟨-, ⟨w, -, rfl⟩ | ⟨-, -, -, -, ⟨-, rfl⟩ | ⟨-, rfl⟩⟩⟩ := logWrite_eq_some h <;> rfl
  | release p i =>
    simp only [release] at h
    split_ifs at h <;> obtain ⟨-, rfl⟩ := Prod.mk.inj (Option.some.inj h) <;> rfl
  | endOp p =>
    simp only [endOp] at h
    split_ifs at h <;> obtain ⟨-, rfl⟩ := Prod.mk.inj (Option.some.inj h) <;> rfl
  | logStep p =>
    split_ifs at h
    obtain ⟨ph, -, h⟩ := logStep_eq_some h
    exact (logPhase_frame h).region

end Place

/-! ## Crash safety -/

section Runs

variable {r : Region} {d st : ℕ → Block} {L : List ℕ} {tr : List Event} {s t : Sys} {k : Stage} {v : View}

theorem view_snoc (st : ℕ → Block) (tr : List Event) (e : Event) : view st (tr ++ [e]) = (view st tr).after e := by
  simp [view]

/-- **Every run** of callers that keep their promise, from a disk that stands for `st`, keeps the invariant. -/
theorem inv_run {ok : Sys → Act → Prop} (hok : ∀ s a, ok s a → Caller s a) (hd : Live readHead r d st L 0)
    (hr : Run Step ok (boot d r) tr t) : t.log.region = r ∧ ∃ k, Inv (view st tr) k t := by
  induction hr with
  | nil => exact ⟨rfl, _, Inv.boot hd⟩
  | @snoc tr t u a o _ hc hst ih =>
    obtain ⟨hreg, k, hk⟩ := ih
    rw [view_snoc]
    exact ⟨(region_step hst).trans hreg, inv_step hk (hok _ _ hc) hst⟩

/-- A group is committed by one process, while no operation is under way. -/
theorem commit_no_active {a : Act} (h : Inv v k s) (hok : Caller s a) (hst : Step s a .commit t) (q : ℕ) : s.op q ≠ .active := by
  unfold Step step at hst
  cases a with
  | logStep p =>
    split_ifs at hst
    obtain ⟨ph, L, rfl, -⟩ := h.logStep_phase hst
    exact h.no_active q
  | crash => cases hst
  | beginOp p =>
    simp only [beginOp] at hst
    split_ifs at hst <;> cases hst
  | get p b =>
    simp only [get] at hst
    split_ifs at hst
    split at hst <;> cases hst
  | acquire p =>
    split_ifs at hst
    obtain ⟨i, -, -, -, ho⟩ := acquire_eq_some hst
    cases ho
  | logWrite p i d =>
    split_ifs at hst
    obtain ⟨-, ⟨w, ho, -⟩ | ⟨ho, -⟩⟩ := logWrite_eq_some hst <;> cases ho
  | release p i =>
    simp only [release] at hst
    split_ifs at hst <;> cases hst
  | endOp p =>
    split_ifs at hst
    cases (h.endOp hok hst).1

/-- **Crash safety.**  Cut a run anywhere: from the disk alone, recovery finds the state at the last commit; each commit came while no
operation was under way, so that it holds the operations before it whole; and whenever no process is in the code of the log, so after
every recovery, the home blocks are that state already. -/
theorem crash_atomic (hd : Live readHead r d st L 0) (hr : Run Step Caller (boot d r) tr t) :
    (∀ b, r.Home b → replay readHead r t.disk b = (view st tr).committed b) ∧
    (∀ e ∈ tr, e.out = .commit → ∀ q, e.pre.op q ≠ .active) ∧
    ((∀ p ph, t.op p ≠ .log ph) → ∀ b, r.Home b → t.disk b = (view st tr).committed b) := by
  obtain ⟨hreg, k, hk⟩ := inv_run (fun _ _ h => h) hd hr
  refine ⟨fun b hb => ?_, fun e he ho q => ?_, fun hout b hb => ?_⟩
  · obtain ⟨L', n, hl⟩ := hk.stage.live
    rw [hreg] at hl
    exact hl.replay_eq hb
  · obtain ⟨⟨tr', hr'⟩, hok, hst⟩ := hr.forall_ev e he
    obtain ⟨-, k', hk'⟩ := inv_run (fun _ _ h => h) hd hr'
    rw [ho] at hst
    exact commit_no_active hk' hok hst q
  · cases k with
    | opened =>
      have := hk.stage.2.2.2.rest b (hreg.symm ▸ hb) (by simp)
      exact this
    | log p ph L => exact absurd ((hk.stage.1 p ph).mpr ⟨rfl, rfl⟩) (hout p ph)

/-- A fresh disk, with an empty log of `mkfs`'s size behind the super block. -/
def mkfsLog : Region := ⟨2, LOGSIZE⟩

def zeros : ℕ → Block := fun _ _ => 0

theorem zeros_live : Live readHead mkfsLog zeros zeros [] 0 where
  header := rfl
  nodup := List.nodup_nil
  home _ h := absurd h List.not_mem_nil
  fits := by decide
  copy _ h := absurd h (Nat.not_lt_zero _)
  rest _ _ _ := rfl

/-- A run that a computation finds. -/
theorem exists_run (ok : Sys → Act → Prop) [∀ s a, Decidable (ok s a)] (as : List Act) {P : List Event → Sys → Prop}
    [∀ tr t, Decidable (P tr t)] (h : (Lts.execute step ok s as).any (fun x => decide (P x.1 x.2)) = true) :
    ∃ tr t, Run Step ok s tr t ∧ P tr t :=
  Lts.exists_run_of_execute (fun _ _ _ _ h => h) h

theorem one_lt_NBUF : 1 < NBUF := by decide

/-- The first process recovers from an empty log. -/
def bootActs : List Act := [.get 1 2, .acquire 1, .logStep 1, .logStep 1, .get 1 2, .acquire 1, .logStep 1]

/-- Process 2 writes block 50 and commits it; the header has just been written. -/
def commitActs : List Act :=
  bootActs ++ [.beginOp 2, .get 2 50, .acquire 2, .logWrite 2 ⟨1, one_lt_NBUF⟩ (fun _ => 7), .release 2 ⟨1, one_lt_NBUF⟩, .endOp 2,
    .get 2 3, .acquire 2, .get 2 50, .acquire 2, .logStep 2, .logStep 2, .get 2 2, .acquire 2, .logStep 2]

set_option maxRecDepth 4000 in
theorem exists_commit_run : ∃ tr t, Run Step Caller (boot zeros mkfsLog) tr t ∧
    (t.disk 50 0 = 0 ∧ (view zeros tr).committed 50 0 = 7) :=
  exists_run Caller commitActs (by decide +kernel)

theorem crash_atomic_committed : ∃ tr t, Run Step Caller (boot zeros mkfsLog) tr t ∧ t.disk 50 0 = 0 ∧
    replay readHead mkfsLog t.disk 50 0 = 7 := by
  obtain ⟨tr, t, hr, h1, h2⟩ := exists_commit_run
  refine ⟨tr, t, hr, h1, ?_⟩
  rw [(crash_atomic zeros_live hr).1 50 (by decide), h2]

/-- Only a recovery has homes to write that readers must not see. -/
theorem Inv.stale_nil (h : Inv v k s) (hb : s.booted = true) : k.stale = [] := by
  cases k with
  | opened => rfl
  | log p ph L =>
    obtain ⟨-, -, hph⟩ := h.stage
    cases ph with
    | readHead =>
      rw [hph.1] at hb
      cases hb
    | install recovering tail =>
      rw [hph.1] at hb
      cases recovering with
      | false => rfl
      | true => cases hb
    | writeLog tail => rfl
    | writeHead => rfl
    | clear recovering => rfl
    | finish => rfl

/-- **Reads.**  In every reachable state of a machine that is up, a home block that `bread` returns holds what was logged last, or else
what was committed last before the power failed. -/
theorem reads_current {p b : ℕ} {x : Block} (hd : Live readHead r d st L 0) (hr : Run Step Caller (boot d r) tr s)
    (hst : Step s (.acquire p) (.data b x) t) (hup : s.booted = true) (hb : r.Home b) : x = (view st tr).current b := by
  obtain ⟨hreg, k, hk⟩ := inv_run (fun _ _ h => h) hd hr
  unfold Step step at hst
  split_ifs at hst
  have hk' := hk.acquire hst
  obtain ⟨i, hw, hl, rfl, ho⟩ := acquire_eq_some hst
  obtain ⟨rfl, rfl⟩ := Out.data.inj ho
  -- the process has just locked the buffer
  have hlock : (((s.bc.acquire i p).fill i s.disk).buf i).lock = some p := by
    rw [Bcache.fill_same]
    simp [Bcache.acquire]
  obtain ⟨hc, hv⟩ := hk'.locked hlock
  refine hk'.coh.home i _ hc hv ?_ ?_
  · exact hreg.symm ▸ hb
  · rw [hk.stale_nil hup]
    exact List.not_mem_nil

/-- Process 3 reads block 50 after process 2 has logged it, in the same group. -/
def readActs : List Act :=
  bootActs ++ [.beginOp 2, .beginOp 3, .get 2 50, .acquire 2, .logWrite 2 ⟨1, one_lt_NBUF⟩ (fun _ => 7),
    .release 2 ⟨1, one_lt_NBUF⟩, .get 3 50]

set_option maxRecDepth 4000 in
theorem exists_read_run : ∃ tr s, Run Step Caller (boot zeros mkfsLog) tr s ∧
    ((view zeros tr).current 50 0 = 7 ∧ s.booted = true ∧ s.panicked = none ∧ s.waiting = [(3, ⟨1, one_lt_NBUF⟩)] ∧
      (s.bc.buf ⟨1, one_lt_NBUF⟩).lock = none ∧ (s.bc.buf ⟨1, one_lt_NBUF⟩).blockno = 50) :=
  exists_run Caller readActs (by decide +kernel)

theorem reads_current_logged : ∃ tr s t x, Run Step Caller (boot zeros mkfsLog) tr s ∧ Step s (.acquire 3) (.data 50 x) t ∧
    x 0 = 7 := by
  obtain ⟨tr, s, hr, h1, h2, h3, h4, h5, h6⟩ := exists_read_run
  let bc := (s.bc.acquire ⟨1, one_lt_NBUF⟩ 3).fill ⟨1, one_lt_NBUF⟩ s.disk
  have hblock : (bc.buf ⟨1, one_lt_NBUF⟩).blockno = 50 := by
    simp only [bc, Bcache.fill_same]
    simp [Bcache.acquire, h6]
  have hst : Step s (.acquire 3) (.data 50 (bc.buf ⟨1, one_lt_NBUF⟩).data)
      { s with bc, waiting := s.waiting.erase (3, ⟨1, one_lt_NBUF⟩) } := by
    unfold Step step acquire
    simp [h3, h4, h5, ← hblock, bc]
  exact ⟨tr, s, _, _, hr, hst, (congrFun (reads_current zeros_live hr hst h2 (by decide)) 0).trans h1⟩

end Runs

/-! ## The buffer cache -/

section Cache

variable {r : Region} {d st : ℕ → Block} {L : List ℕ} {tr : List Event} {s t : Sys} {k : Stage} {v : View}

/-- The block is logged and its buffer still has the pin of `log_write`. -/
def Sys.Pinned (s : Sys) (b : ℕ) : Prop :=
  b ∈ s.log.lh ∧ ∀ p recovering tail, s.op p = .log (.install recovering tail) → recovering = false ∧ b ∈ s.log.lh.drop tail

theorem Inv.mem_pins (h : Inv v k s) (b : ℕ) : b ∈ k.pins s.log.lh ↔ s.Pinned b := by
  unfold Sys.Pinned
  cases k with
  | opened =>
    refine ⟨fun hb => ⟨hb, fun p recovering tail hp => absurd hp (h.stage.1 p _)⟩, fun hb => hb.1⟩
  | log q ph L =>
    have hq := h.stage.1
    have hph := h.stage.2.2
    -- outside the installation nobody is installing
    have hother : (∀ recovering tail, ph ≠ .install recovering tail) → ∀ p recovering tail,
        s.op p = .log (.install recovering tail) → recovering = false ∧ b ∈ s.log.lh.drop tail :=
      fun hne p recovering tail hp => absurd ((hq p _).mp hp).2.symm (hne recovering tail)
    have hnil : s.log.lh = [] → (b ∈ ([] : List ℕ) ↔ b ∈ s.log.lh) := fun hlh => by rw [hlh]
    cases ph with
    | writeLog tail => exact ⟨fun hb => ⟨hb, hother (by simp)⟩, fun hb => hb.1⟩
    | writeHead => exact ⟨fun hb => ⟨hb, hother (by simp)⟩, fun hb => hb.1⟩
    | readHead => exact (hnil hph.2.2.1).trans ⟨fun hb => ⟨hb, hother (by simp)⟩, fun hb => hb.1⟩
    | clear recovering => exact (hnil hph.2.2.1).trans ⟨fun hb => ⟨hb, hother (by simp)⟩, fun hb => hb.1⟩
    | finish => exact (hnil hph.2.2.1).trans ⟨fun hb => ⟨hb, hother (by simp)⟩, fun hb => hb.1⟩
    | install recovering tail =>
      constructor
      · intro hb
        cases recovering with
        | true => exact absurd hb List.not_mem_nil
        | false =>
          refine ⟨List.mem_of_mem_drop hb, fun p recovering tail' hp => ?_⟩
          obtain ⟨rfl, rfl⟩ := Phase.install.inj ((hq p _).mp hp).2
          exact ⟨rfl, hb⟩
      · rintro ⟨-, hb⟩
        obtain ⟨rfl, hb⟩ := hb q recovering tail ((hq q _).mpr ⟨rfl, rfl⟩)
        exact hb

open Classical in
/-- **The buffer cache**, in every reachable state: a block is in at most one buffer, `refcnt` counts the holder of the sleep lock,
the processes that wait for it and the pin of the log, a pinned block is in a valid buffer, and `bget` panics exactly when the block is
in no buffer and every buffer is locked, waited for or pinned. -/
theorem cache_counted (hd : Live readHead r d st L 0) (hr : Run Step Caller (boot d r) tr t) :
    (∀ i j b, (t.bc.buf i).Caches b → (t.bc.buf j).Caches b → i = j) ∧
    (∀ i, (t.bc.buf i).refcnt = (t.bc.buf i).lock.isSome.toNat + t.waiting.countP (fun w => w.2 = i) +
      if (t.bc.buf i).dev = ROOTDEV ∧ t.Pinned (t.bc.buf i).blockno then 1 else 0) ∧
    (∀ b, t.Pinned b → ∃ i, (t.bc.buf i).Caches b ∧ (t.bc.buf i).valid = true) ∧
    ∀ b, t.bc.bget ROOTDEV b = none ↔ (∀ i, ¬ (t.bc.buf i).Caches b) ∧
      ∀ i, (t.bc.buf i).lock ≠ none ∨ (∃ p, (p, i) ∈ t.waiting) ∨
        ((t.bc.buf i).dev = ROOTDEV ∧ t.Pinned (t.bc.buf i).blockno) := by
  obtain ⟨-, k, hk⟩ := inv_run (fun _ _ h => h) hd hr
  have hcount : ∀ i, (t.bc.buf i).refcnt = (t.bc.buf i).lock.isSome.toNat + t.waiting.countP (fun w => w.2 = i) +
      if (t.bc.buf i).dev = ROOTDEV ∧ t.Pinned (t.bc.buf i).blockno then 1 else 0 := by
    intro i
    rw [hk.cnt.count i]
    simp only [hk.mem_pins]
  refine ⟨fun i j b hi hj => hk.coh.wf.caches_inj hi hj, hcount, fun b hb => hk.coh.pin b ((hk.mem_pins b).mpr hb), fun b => ?_⟩
  rw [hk.coh.wf.bget_eq_none]
  refine and_congr Iff.rfl (forall_congr' fun i => ?_)
  -- a count of zero is no holder, nobody waiting and no pin
  have hlock : (t.bc.buf i).lock.isSome.toNat = 0 ↔ (t.bc.buf i).lock = none := by
    cases (t.bc.buf i).lock <;> simp
  have hwait : t.waiting.countP (fun w => w.2 = i) = 0 ↔ ¬ ∃ p, (p, i) ∈ t.waiting := by
    rw [List.countP_eq_zero]
    constructor
    · rintro hn ⟨p, hp⟩
      exact hn (p, i) hp (by simp)
    · intro hn w hw he
      simp only [decide_eq_true_eq] at he
      exact hn ⟨w.1, he ▸ hw⟩
  rw [hcount i]
  by_cases hp : (t.bc.buf i).dev = ROOTDEV ∧ t.Pinned (t.bc.buf i).blockno
  · simp [hp]
  · rw [if_neg hp, Nat.add_zero, Ne, Nat.add_eq_zero_iff, hlock, hwait]
    tauto

theorem cache_counted_read : ∃ tr t, Run Step Caller (boot zeros mkfsLog) tr t ∧ t.waiting = [(3, ⟨1, one_lt_NBUF⟩)] ∧
    1 ≤ (t.bc.buf ⟨1, one_lt_NBUF⟩).refcnt := by
  obtain ⟨tr, t, hr, -, -, -, hw, -, -⟩ := exists_read_run
  refine ⟨tr, t, hr, hw, ?_⟩
  rw [(cache_counted zeros_live hr).2.1, hw]
  simp only [List.countP_cons, List.countP_nil, decide_true, if_true]
  omega

end Cache

end OsLabs.Xv6.Fs
