import Mathlib.Algebra.BigOperators.Group.List.Basic
import Mathlib.Algebra.Order.Ring.Nat
import OsLabs.Xv6.LogSafety

/-!
# OsLabs.Xv6.LogRoom — who waits in `begin_op`, and whether the log is large enough

* `sleepers_blocked`: a process asleep in `begin_op` could not go on, and there is another that will call `wakeup`.
* `Writes m`: callers whose operations log at most `m` different blocks each.
* `room_run`: with `m < MAXOPBLOCKS` two slots of the log are always free.
* `tooBig_iff`: `panic("too big a transaction")` is out of reach exactly when `m < MAXOPBLOCKS`.
-/

namespace OsLabs.Xv6.Fs

open Lts (Run)
open RedoLog (Region Live)

/-! ## Waiting for the log -/

section Waiting

variable {v : View} {k : Stage} {s t : Sys} {a : Act} {p : ℕ} {o : Out}

/-- Who sleeps in `begin_op` could not go on, and an idle log is empty. -/
structure Quiet (s : Sys) : Prop where
  asleep : ∀ p, s.op p = .asleep → s.booted = true ∧ s.log.full
  idle : s.booted = true → s.log.committing = false → s.log.outstanding = 0 → s.log.lh = []

/-- The header in memory gets longer, or more operations are under way. -/
theorem Log.full.mono {l l' : Log} (h : l.full) (hc : l.committing = true → l'.committing = true)
    (hl : l.lh.length + l.outstanding * MAXOPBLOCKS ≤ l'.lh.length + l'.outstanding * MAXOPBLOCKS) : l'.full := by
  rcases h with h | h
  · exact .inl (hc h)
  · refine .inr ?_
    simp only [LOGSIZE, MAXOPBLOCKS] at *
    omega

theorem Quiet.boot (d : ℕ → Block) (r : Region) : Quiet (boot d r) where
  asleep p hp := by
    simp only [Sys.op, Fs.boot] at hp
    split_ifs at hp
  idle hb := by cases hb

theorem Quiet.beginOp (hq : Quiet s) (h : Inv v k s) (hst : beginOp p s = some (o, t)) : Quiet t := by
  unfold Fs.beginOp at hst
  split_ifs at hst with hg hf
  · obtain ⟨rfl, rfl⟩ := Prod.mk.inj (Option.some.inj hst)
    refine ⟨fun q hqa => ?_, hq.idle⟩
    by_cases hqp : q = p
    · exact ⟨hg.2.1, hf⟩
    · rw [op_setOp_of_ne hqp] at hqa
      exact hq.asleep q hqa
  · obtain ⟨rfl, rfl⟩ := Prod.mk.inj (Option.some.inj hst)
    obtain ⟨as, -, -, hlen⟩ := h.ops
    refine ⟨fun q hqa => ?_, fun _ _ h0 => ?_⟩
    · have hqs : s.op q = .asleep := by
        by_cases hqp : q = p
        · subst hqp
          simp [Sys.op] at hqa
        · simpa [Sys.op, hqp] using hqa
      exact absurd (hq.asleep q hqs).2 hf
    · have h0 : s.log.outstanding + 1 = 0 := h0
      omega

theorem Quiet.logWrite {i : BufId} {d : Block} (hq : Quiet s) (hst : logWrite p i d s = some (o, t)) : Quiet t := by
  obtain ⟨hl, ⟨w, rfl, rfl⟩ | ⟨rfl, hout, -, -, ⟨-, rfl⟩ | ⟨-, rfl⟩⟩⟩ := logWrite_eq_some hst
  · exact ⟨hq.asleep, hq.idle⟩
  · refine ⟨fun q hqa => hq.asleep q ?_, hq.idle⟩
    by_cases hqp : q = p
    · subst hqp
      simpa [Sys.op] using hqa
    · simpa [Sys.op, hqp] using hqa
  · refine ⟨fun q hqa => ?_, fun _ _ h0 => ?_⟩
    · have hqs : s.op q = .asleep := by
        by_cases hqp : q = p
        · subst hqp
          simpa [Sys.op] using hqa
        · simpa [Sys.op, hqp] using hqa
      obtain ⟨hb, hf⟩ := hq.asleep q hqs
      refine ⟨hb, hf.mono id ?_⟩
      simp only [List.length_append, List.length_singleton]
      omega
    · have h0 : s.log.outstanding = 0 := h0
      omega

theorem Quiet.endOp (hq : Quiet s) (hst : endOp p s = some (o, t)) : Quiet t := by
  unfold Fs.endOp at hst
  dsimp only at hst
  split_ifs at hst with hfree hc h0 hlh
  · obtain ⟨rfl, rfl⟩ := Prod.mk.inj (Option.some.inj hst)
    refine ⟨fun q hqa => ⟨(hq.asleep q hqa).1, .inl hc⟩, fun _ hc' => ?_⟩
    rw [show s.log.committing = false from hc'] at hc
    cases hc
  · obtain ⟨rfl, rfl⟩ := Prod.mk.inj (Option.some.inj hst)
    exact ⟨fun q hqa => ⟨(hq.asleep q (op_setOp_asleep (by simp) hqa)).1, .inl rfl⟩, fun _ hc' => by cases hc'⟩
  · obtain ⟨rfl, rfl⟩ := Prod.mk.inj (Option.some.inj hst)
    exact ⟨fun q hqa => ⟨(hq.asleep q (op_setOp_asleep (by simp) hqa)).1, .inl rfl⟩, fun _ hc' => by cases hc'⟩
  · obtain ⟨rfl, rfl⟩ := Prod.mk.inj (Option.some.inj hst)
    exact ⟨fun q hqa => absurd (op_setOp_asleep (by simp) hqa) (op_wakeup_ne _ q), fun _ _ h0' => absurd h0' h0⟩

/-- While the log is in use by `commit` the flag is set; while it is recovered nobody sleeps. -/
theorem Inv.committing_of_booted {ph : Phase} {L : List ℕ} (h : Inv v (.log p ph L) s) (hb : s.booted = true) :
    s.log.committing = true := by
  obtain ⟨-, -, hph⟩ := h.stage
  cases hc : s.log.committing with
  | true => rfl
  | false =>
    have := h.committing hb hc
    cases this

theorem Quiet.logStep (hq : Quiet s) (h : Inv v k s) (hst : logStep p s = some (o, t)) : Quiet t := by
  obtain ⟨ph, L, rfl, hst⟩ := h.logStep_phase hst
  have hfr := logPhase_frame hst
  refine ⟨fun q hqa => ?_, fun hb hc _ => ?_⟩
  · obtain ⟨hqs, hnf⟩ := hfr.asleep q hqa
    obtain ⟨hb, -⟩ := hq.asleep q hqs
    refine ⟨hfr.booted.mp (.inl hb), .inl ?_⟩
    rw [hfr.committing, if_neg hnf, h.committing_of_booted hb]
  · -- the log was idle before only at the end of a commit or of a recovery
    have hlast : ph = .finish ∨ ph = .clear true := by
      rcases hfr.booted.mpr hb with hb' | hcl
      · refine .inl (Classical.byContradiction fun hnf => ?_)
        rw [hfr.committing, if_neg hnf, h.committing_of_booted hb'] at hc
        cases hc
      · exact .inr hcl
    rw [hfr.lh hlast]
    rcases hlast with rfl | rfl
    · exact h.stage.2.2.2.2.1
    · exact h.stage.2.2.2.2.1

theorem quiet_step (hq : Quiet s) (h : Inv v k s) (hst : Step s a o t) : Quiet t := by
  unfold Step step at hst
  cases a with
  | crash =>
    obtain ⟨-, rfl⟩ := Prod.mk.inj (Option.some.inj hst)
    exact Quiet.boot _ _
  | beginOp p =>
    split_ifs at hst
    exact hq.beginOp h hst
  | get p b =>
    simp only [get] at hst
    split_ifs at hst
    split at hst <;> obtain ⟨-, rfl⟩ := Prod.mk.inj (Option.some.inj hst) <;> exact ⟨hq.asleep, hq.idle⟩
  | acquire p =>
    split_ifs at hst
    obtain ⟨i, -, -, rfl, -⟩ := acquire_eq_some hst
    exact ⟨hq.asleep, hq.idle⟩
  | logWrite p i d =>
    split_ifs at hst
    exact hq.logWrite hst
  | release p i =>
    simp only [release] at hst
    split_ifs at hst <;> obtain ⟨-, rfl⟩ := Prod.mk.inj (Option.some.inj hst) <;> exact ⟨hq.asleep, hq.idle⟩
  | endOp p =>
    split_ifs at hst
    exact hq.endOp hst
  | logStep p =>
    split_ifs at hst
    exact hq.logStep h hst

theorem quiet_run {r : Region} {d st : ℕ → Block} {L : List ℕ} {tr : List Event} {ok : Sys → Act → Prop}
    (hok : ∀ s a, ok s a → Caller s a) (hd : Live readHead r d st L 0) (hr : Run Step ok (boot d r) tr t) : Quiet t := by
  induction hr with
  | nil => exact Quiet.boot d r
  | snoc hr _ hst ih =>
    obtain ⟨-, k, hk⟩ := inv_run hok hd hr
    exact quiet_step ih hk hst

/-- **No lost wakeup.**  A process asleep in `begin_op` would find the log full if it looked again, and some other process is inside an
operation or committing, and will call `wakeup` when it is done. -/
theorem sleepers_blocked {r : Region} {d st : ℕ → Block} {L : List ℕ} {tr : List Event} (hd : Live readHead r d st L 0)
    (hr : Run Step Caller (boot d r) tr t) (hp : t.op p = .asleep) :
    t.log.full ∧ ∃ q, t.op q = .active ∨ ∃ ph, t.op q = .log ph := by
  have hq := quiet_run (fun _ _ h => h) hd hr
  obtain ⟨-, k, hk⟩ := inv_run (fun _ _ h => h) hd hr
  obtain ⟨hb, hf⟩ := hq.asleep p hp
  refine ⟨hf, ?_⟩
  cases k with
  | log q ph L => exact ⟨q, .inr ⟨ph, (hk.stage.1 q ph).mpr ⟨rfl, rfl⟩⟩⟩
  | opened =>
    obtain ⟨as, -, hmem, hlen⟩ := hk.ops
    cases as with
    | cons q as => exact ⟨q, .inl ((hmem q).mp List.mem_cons_self)⟩
    | nil =>
      -- an idle log is empty, and so not full
      have hlh := hq.idle hb hk.stage.2.2.1 hlen
      rcases hf with hc | hc
      · rw [hk.stage.2.2.1] at hc
        cases hc
      · rw [hlh, hlen] at hc
        simp [LOGSIZE, MAXOPBLOCKS] at hc

/-- Three operations are under way, and a fourth process asks for one. -/
def sleepActs : List Act := bootActs ++ [.beginOp 2, .beginOp 3, .beginOp 4, .beginOp 5]

theorem exists_sleep_run : ∃ tr t, Run Step Caller (boot zeros mkfsLog) tr t ∧ t.op 5 = .asleep :=
  exists_run Caller sleepActs (by decide +kernel)

theorem sleepers_blocked_three : ∃ tr t, Run Step Caller (boot zeros mkfsLog) tr t ∧ t.op 5 = .asleep ∧ t.log.full := by
  obtain ⟨tr, t, hr, h5⟩ := exists_sleep_run
  exact ⟨tr, t, hr, h5, (sleepers_blocked zeros_live hr h5).1⟩

end Waiting

/-! ## Room in the log -/

section Room

variable {v : View} {k : Stage} {s t : Sys} {a : Act} {p m : ℕ} {o : Out} {as : List ℕ}

/-- Callers that keep their promise, and whose operations log at most `m` different blocks. -/
def Writes (m : ℕ) (s : Sys) (a : Act) : Prop :=
  Caller s a ∧ match a with
    | .logWrite p i _ => ((s.proc p).wrote.insert (s.bc.buf i).blockno).length ≤ m
    | _ => True

/-- How many blocks an operation has logged. -/
def Sys.used (s : Sys) (p : ℕ) : ℕ := (s.proc p).wrote.length

/-- **Room in the log** for the operations `as` under way: what is logged and what they may still log fits.  The last field is what
remains of the space that an operation reserved and did not use, unless all that is logged comes from `as`. -/
structure RoomFor (m : ℕ) (s : Sys) (as : List ℕ) : Prop where
  nodup : as.Nodup
  mem : ∀ p, p ∈ as ↔ s.op p = .active
  len : s.log.outstanding = as.length
  sub : ∀ p ∈ as, ∀ b ∈ (s.proc p).wrote, b ∈ s.log.lh
  le : ∀ p ∈ as, s.used p ≤ m
  sum : s.log.lh.length + (as.map fun p => MAXOPBLOCKS - s.used p).sum ≤ LOGSIZE
  spare : s.log.lh.length ≤ (as.map s.used).sum ∨ s.log.lh.length + (as.map fun p => MAXOPBLOCKS - s.used p).sum < LOGSIZE ∨
    2 ≤ as.length

namespace RoomFor

/-- The operations in another order. -/
theorem perm {as' : List ℕ} (h : RoomFor m s as) (hp : as.Perm as') : RoomFor m s as' where
  nodup := hp.nodup_iff.mp h.nodup
  mem q := hp.mem_iff.symm.trans (h.mem q)
  len := by rw [h.len, hp.length_eq]
  sub q hq := h.sub q (hp.mem_iff.mpr hq)
  le q hq := h.le q (hp.mem_iff.mpr hq)
  sum := by rw [← (hp.map _).sum_eq]; exact h.sum
  spare := by rw [← (hp.map _).sum_eq, ← (hp.map _).sum_eq, ← hp.length_eq]; exact h.spare

theorem front (h : RoomFor m s as) (hp : s.op p = .active) : RoomFor m s (p :: as.erase p) :=
  h.perm (List.perm_cons_erase ((h.mem p).mpr hp))

/-- Nothing that matters has changed. -/
theorem congr (h : RoomFor m s as) (hlh : t.log.lh = s.log.lh) (hout : t.log.outstanding = s.log.outstanding)
    (hact : ∀ q, t.op q = .active → t.proc q = s.proc q) (hact' : ∀ q, s.op q = .active → t.op q = .active) :
    RoomFor m t as := by
  have hop : ∀ q, q ∈ as ↔ t.op q = .active := by
    intro q
    rw [h.mem]
    refine ⟨hact' q, fun hq => ?_⟩
    have := hact q hq
    rwa [Sys.op, this] at hq
  have hproc : ∀ q ∈ as, t.proc q = s.proc q := fun q hq => hact q ((hop q).mp hq)
  have hused : ∀ q ∈ as, t.used q = s.used q := fun q hq => by rw [Sys.used, hproc q hq, Sys.used]
  have h1 : (as.map fun q => MAXOPBLOCKS - t.used q) = as.map fun q => MAXOPBLOCKS - s.used q :=
    List.map_congr_left fun q hq => by rw [hused q hq]
  have h2 : as.map t.used = as.map s.used := List.map_congr_left hused
  refine ⟨h.nodup, hop, hout.trans h.len, fun q hq => ?_, fun q hq => ?_, ?_, ?_⟩
  · rw [hproc q hq, hlh]
    exact h.sub q hq
  · rw [hused q hq]
    exact h.le q hq
  · rw [hlh, h1]
    exact h.sum
  · rw [hlh, h1, h2]
    exact h.spare

/-- **Two slots are free** whenever an operation is under way that logs fewer than `MAXOPBLOCKS` blocks. -/
theorem two_free (h : RoomFor m s as) (hm : m < MAXOPBLOCKS) (hp : s.op p = .active) : s.log.lh.length + 2 ≤ LOGSIZE := by
  have hf := h.front hp
  have hple := hf.le p List.mem_cons_self
  have hsum := hf.sum
  have hspare := hf.spare
  cases has : as.erase p with
  | nil =>
    rw [has] at hsum hspare
    simp only [List.map_cons, List.map_nil, List.sum_cons, List.sum_nil, List.length_cons, List.length_nil, LOGSIZE,
      MAXOPBLOCKS] at hsum hspare hm ⊢
    omega
  | cons q as' =>
    have hqle := hf.le q (by simp [has])
    rw [has] at hsum
    simp only [List.map_cons, List.sum_cons, LOGSIZE, MAXOPBLOCKS] at hsum hm ⊢
    omega

end RoomFor

/-- When the machine is up there is room for the operations under way. -/
def Room (m : ℕ) (s : Sys) : Prop := s.booted = true → ∃ as, RoomFor m s as

theorem Room.congr (hr : Room m s) (hb : t.booted = true → s.booted = true) (hlh : t.log.lh = s.log.lh)
    (hout : t.log.outstanding = s.log.outstanding) (hact : ∀ q, t.op q = .active → t.proc q = s.proc q)
    (hact' : ∀ q, s.op q = .active → t.op q = .active) : Room m t := by
  intro hbt
  obtain ⟨as, has⟩ := hr (hb hbt)
  exact ⟨as, has.congr hlh hout hact hact'⟩

theorem sum_slack_le (s : Sys) (as : List ℕ) : (as.map fun p => MAXOPBLOCKS - s.used p).sum ≤ as.length * MAXOPBLOCKS := by
  induction as with
  | nil => simp
  | cons q as ih =>
    simp only [List.map_cons, List.sum_cons, List.length_cons, MAXOPBLOCKS] at *
    omega

theorem Room.beginOp (hr : Room m s) (hq : Quiet s) (hst : beginOp p s = some (o, t)) : Room m t := by
  unfold Fs.beginOp at hst
  split_ifs at hst with hg hf
  · obtain ⟨rfl, rfl⟩ := Prod.mk.inj (Option.some.inj hst)
    have hna : s.op p ≠ .active := by rcases hg.2.2 with hx | hx <;> simp [hx]
    refine hr.congr id rfl rfl (fun q => proc_setOp_active (by simp)) fun q hqa => ?_
    have hqp : q ≠ p := by
      rintro rfl
      exact hna hqa
    rwa [op_setOp_of_ne hqp]
  · obtain ⟨rfl, rfl⟩ := Prod.mk.inj (Option.some.inj hst)
    intro hb
    obtain ⟨as, has⟩ := hr hb
    have hna : s.op p ≠ .active := by rcases hg.2.2 with hx | hx <;> simp [hx]
    unfold Log.full at hf
    have hcf : s.log.committing = false := by simpa using fun hc => hf (.inl hc)
    have hroom : ¬ (LOGSIZE : ℤ) < s.log.lh.length + (s.log.outstanding + 1) * MAXOPBLOCKS := fun hx => hf (.inr hx)
    have hpas : p ∉ as := fun hx => hna ((has.mem p).mp hx)
    have hother : ∀ q ∈ as, (Function.update s.proc p { op := .active, wrote := [] }) q = s.proc q := by
      intro q hqas
      rw [Function.update_of_ne]
      rintro rfl
      exact hpas hqas
    refine ⟨p :: as, List.nodup_cons.mpr ⟨hpas, has.nodup⟩, fun q => ?_, ?_, fun q hqas b hbq => ?_, fun q hqas => ?_, ?_, ?_⟩
    · by_cases hqp : q = p
      · subst hqp
        simp [Sys.op]
      · rw [List.mem_cons, or_iff_right hqp, has.mem q]
        simp [Sys.op, hqp]
    · simp [has.len]
    · rcases List.mem_cons.mp hqas with rfl | hqas
      · simp at hbq
      · dsimp only at hbq
        rw [hother q hqas] at hbq
        exact has.sub q hqas b hbq
    · rcases List.mem_cons.mp hqas with rfl | hqas
      · simp [Sys.used]
      · rw [Sys.used]
        dsimp only
        rw [hother q hqas]
        exact has.le q hqas
    · -- the test of `begin_op`
      have hlen := has.len
      have hsum := sum_slack_le { s with
        log := { s.log with outstanding := s.log.outstanding + 1 }
        proc := Function.update s.proc p { op := .active, wrote := [] } } (p :: as)
      simp only [List.length_cons, LOGSIZE, MAXOPBLOCKS] at hsum hroom ⊢
      omega
    · cases as with
      | nil =>
        -- nothing is logged when the first operation begins
        have := hq.idle hb hcf has.len
        exact .inl (by simp [this])
      | cons q as => exact .inr (.inr (by simp))

/-- An operation logs a block. -/
theorem Room.logWrite {i : BufId} {d : Block} (hr : Room m s) (hm : m ≤ MAXOPBLOCKS) (hp : s.op p = .active)
    (hw : ((s.proc p).wrote.insert (s.bc.buf i).blockno).length ≤ m) (hst : logWrite p i d s = some (o, t)) : Room m t := by
  obtain ⟨hl, ⟨w, rfl, rfl⟩ | ⟨rfl, hout, -, -, hcase⟩⟩ := logWrite_eq_some hst
  · exact hr.congr id rfl rfl (fun _ _ => rfl) fun _ hq => hq
  intro hb
  -- the operation's list of blocks, and the header, afterwards
  obtain ⟨lh, hlh, hlen, hsub, hbmem, hproc, hbt, hot⟩ : ∃ lh, t.log.lh = lh ∧ (lh.length = s.log.lh.length ∨
      (lh.length = s.log.lh.length + 1 ∧ (s.bc.buf i).blockno ∉ s.log.lh)) ∧ (∀ b ∈ s.log.lh, b ∈ lh) ∧
      (s.bc.buf i).blockno ∈ lh ∧ t.proc = Function.update s.proc p
        { s.proc p with wrote := (s.proc p).wrote.insert (s.bc.buf i).blockno } ∧ t.booted = s.booted ∧
      t.log.outstanding = s.log.outstanding := by
    rcases hcase with ⟨hmem, rfl⟩ | ⟨hmem, rfl⟩
    · exact ⟨_, rfl, .inl rfl, fun _ hx => hx, hmem, rfl, rfl, rfl⟩
    · exact ⟨_, rfl, .inr ⟨by simp, hmem⟩, fun _ hx => List.mem_append_left _ hx, by simp, rfl, rfl, rfl⟩
  obtain ⟨as, has⟩ := hr (hbt ▸ hb)
  have hf := has.front hp
  have hself : (t.proc p).wrote = (s.proc p).wrote.insert (s.bc.buf i).blockno := by rw [hproc, Function.update_self]
  have hother : ∀ q, q ≠ p → t.proc q = s.proc q := fun q hq => by rw [hproc, Function.update_of_ne hq]
  have hop : ∀ q, t.op q = s.op q := by
    intro q
    by_cases hq : q = p
    · rw [hq, Sys.op, hproc, Function.update_self, Sys.op]
    · rw [Sys.op, hother q hq, Sys.op]
  have hnp : ∀ q ∈ as.erase p, q ≠ p := by
    rintro q hq rfl
    exact has.nodup.not_mem_erase hq
  have hused : ∀ q ∈ as.erase p, t.used q = s.used q := fun q hq => by rw [Sys.used, hother q (hnp q hq), Sys.used]
  have h1 : ((as.erase p).map fun q => MAXOPBLOCKS - t.used q) = (as.erase p).map fun q => MAXOPBLOCKS - s.used q :=
    List.map_congr_left fun q hq => by rw [hused q hq]
  have h2 : (as.erase p).map t.used = (as.erase p).map s.used := List.map_congr_left hused
  -- a block that was not logged is new to the operation
  have hp1 : t.used p = s.used p ∨ t.used p = s.used p + 1 := by
    rw [Sys.used, hself]
    by_cases hmem : (s.bc.buf i).blockno ∈ (s.proc p).wrote
    · exact .inl (by rw [List.insert_of_mem hmem, Sys.used])
    · exact .inr (by rw [List.insert_of_not_mem hmem, List.length_cons, Sys.used])
  have hp2 : lh.length = s.log.lh.length + 1 → t.used p = s.used p + 1 := by
    intro hl'
    rcases hlen with hx | ⟨-, hx⟩
    · omega
    · have hmem : (s.bc.buf i).blockno ∉ (s.proc p).wrote := fun hx' => hx (hf.sub p List.mem_cons_self _ hx')
      rw [Sys.used, hself, List.insert_of_not_mem hmem, List.length_cons, Sys.used]
  have hle : t.used p ≤ m := by
    rw [Sys.used, hself]
    exact hw
  have hlen' : lh.length = s.log.lh.length ∨ lh.length = s.log.lh.length + 1 := hlen.imp id And.left
  have hsum := hf.sum
  have hspare := hf.spare
  simp only [List.map_cons, List.sum_cons, List.length_cons] at hsum hspare
  refine ⟨p :: as.erase p, hf.nodup, fun q => (hf.mem q).trans (by rw [hop]), hot.trans hf.len, fun q hq b hbq => ?_, fun q hq => ?_,
    ?_, ?_⟩
  · rw [hlh]
    by_cases hqp : q = p
    · subst hqp
      rw [hself] at hbq
      rcases List.mem_insert_iff.mp hbq with rfl | hbq
      · exact hbmem
      · exact hsub b (hf.sub q hq b hbq)
    · rw [hother q hqp] at hbq
      exact hsub b (hf.sub q hq b hbq)
  · by_cases hqp : q = p
    · exact hqp ▸ hle
    · rw [Sys.used, hother q hqp]
      exact hf.le q hq
  · rw [hlh, List.map_cons, List.sum_cons, h1]
    omega
  · rw [hlh, List.map_cons, List.sum_cons, h2, List.map_cons, List.sum_cons, h1, List.length_cons]
    omega

theorem Room.endOp (hr : Room m s) (hm : m < MAXOPBLOCKS) (hp : s.op p = .active) (h : Inv v k s)
    (hst : endOp p s = some (o, t)) : Room m t := by
  obtain rfl := h.opened (h.ops.outstanding_pos hp)
  obtain ⟨hno, hboot, hcom, hlive⟩ := h.stage
  obtain ⟨as, has⟩ := hr hboot
  have hf := has.front hp
  have hroom := has.two_free hm hp
  have hpnot : p ∉ as.erase p := has.nodup.not_mem_erase
  -- what remains of the operations, whatever becomes of the process
  have hrest : ∀ (u : Sys) {o' : Op}, u.log.lh = s.log.lh → u.log.outstanding = s.log.outstanding - 1 → o' ≠ .active →
      (∀ q, u.op q = .active ↔ s.op q = .active) → (∀ q, u.op q = .active → u.proc q = s.proc q) →
      RoomFor m (u.setOp p o') (as.erase p) := by
    intro u o' hlh hout ho' hact hproc
    have hmem : ∀ q, q ∈ as.erase p ↔ (u.setOp p o').op q = .active := by
      intro q
      by_cases hqp : q = p
      · subst hqp
        rw [op_setOp_same]
        exact iff_of_false hpnot ho'
      · rw [op_setOp_of_ne hqp, hact, List.mem_erase_of_ne hqp, has.mem]
    have hpq : ∀ q ∈ as.erase p, (u.setOp p o').proc q = s.proc q := by
      intro q hq
      rw [proc_setOp_active ho' ((hmem q).mp hq)]
      exact hproc q ((hact q).mpr ((hf.mem q).mp (List.mem_cons_of_mem _ hq)))
    have hused : ∀ q ∈ as.erase p, (u.setOp p o').used q = s.used q := fun q hq => by rw [Sys.used, hpq q hq, Sys.used]
    have h1 : ((as.erase p).map fun q => MAXOPBLOCKS - (u.setOp p o').used q) = (as.erase p).map fun q => MAXOPBLOCKS - s.used q :=
      List.map_congr_left fun q hq => by rw [hused q hq]
    have hple := hf.le p List.mem_cons_self
    have hsum := hf.sum
    have hlen := hf.len
    simp only [List.map_cons, List.sum_cons, List.length_cons] at hsum hlen
    have hlh' : (u.setOp p o').log.lh = s.log.lh := hlh
    refine ⟨has.nodup.erase p, hmem, ?_, fun q hq b hb => ?_, fun q hq => ?_, ?_, ?_⟩
    · change u.log.outstanding = _
      omega
    · rw [hpq q hq] at hb
      exact hlh'.symm ▸ hf.sub q (List.mem_cons_of_mem _ hq) b hb
    · rw [hused q hq]
      exact hf.le q (List.mem_cons_of_mem _ hq)
    · rw [hlh', h1]
      omega
    · -- the operation reserved more than it used
      refine .inr (.inl ?_)
      rw [hlh', h1]
      simp only [MAXOPBLOCKS] at hm hsum ⊢
      omega
  unfold Fs.endOp at hst
  dsimp only at hst
  split_ifs at hst with hfree hc h0 hlh
  · rw [hcom] at hc
    cases hc
  · obtain ⟨rfl, rfl⟩ := Prod.mk.inj (Option.some.inj hst)
    exact fun _ => ⟨_, hrest _ rfl rfl (by simp) (fun _ => Iff.rfl) fun _ _ => rfl⟩
  · obtain ⟨rfl, rfl⟩ := Prod.mk.inj (Option.some.inj hst)
    exact fun _ => ⟨_, hrest _ rfl rfl (by simp) (fun _ => Iff.rfl) fun _ _ => rfl⟩
  · obtain ⟨rfl, rfl⟩ := Prod.mk.inj (Option.some.inj hst)
    refine fun _ => ⟨_, hrest _ rfl rfl (by simp) (fun q => op_wakeup_eq (by simp) (by simp)) fun q hq => ?_⟩
    rw [op_wakeup_eq (by simp) (by simp)] at hq
    have hq : s.op q = .active := hq
    exact if_neg (by rw [show (s.proc q).op = .active from hq]; simp)

/-- The log is rewritten while no operation is under way. -/
theorem Room.logStep (hr : Room m s) (h : Inv v k s) (hst : logStep p s = some (o, t)) : Room m t := by
  obtain ⟨ph, L, rfl, hst⟩ := h.logStep_phase hst
  have hfr := logPhase_frame hst
  intro hb
  have hlen : t.log.lh.length < LOGSIZE := by
    rcases hfr.booted.mpr hb with hbs | rfl
    · obtain ⟨as, has⟩ := hr hbs
      have hnil : as = [] := List.eq_nil_iff_forall_not_mem.mpr fun q hq => h.no_active q ((has.mem q).mp hq)
      subst hnil
      have hle := hfr.shrinks fun hph => by
        subst hph
        rw [h.stage.2.2.1] at hbs
        cases hbs
      have hspare := has.spare
      simp only [List.map_nil, List.sum_nil, List.length_nil, LOGSIZE, MAXOPBLOCKS] at hspare ⊢
      omega
    · rw [hfr.lh (.inr rfl), h.stage.2.2.2.2.1]
      decide
  refine ⟨[], List.nodup_nil, fun q => iff_of_false List.not_mem_nil fun hq => ?_, ?_, fun q hq => absurd hq List.not_mem_nil,
    fun q hq => absurd hq List.not_mem_nil, hlen.le, .inr (.inl hlen)⟩
  · have hpq := hfr.active q hq
    rw [Sys.op, hpq] at hq
    exact h.no_active q hq
  · rw [hfr.outstanding, h.stage.2.1]
    rfl

theorem room_step (hr : Room m s) (hm : m < MAXOPBLOCKS) (hq : Quiet s) (h : Inv v k s) (hok : Writes m s a)
    (hst : Step s a o t) : Room m t := by
  unfold Step step at hst
  cases a with
  | crash =>
    obtain ⟨-, rfl⟩ := Prod.mk.inj (Option.some.inj hst)
    exact fun hb => by cases hb
  | beginOp p =>
    split_ifs at hst
    exact hr.beginOp hq hst
  | get p b =>
    simp only [get] at hst
    split_ifs at hst
    split at hst <;> obtain ⟨-, rfl⟩ := Prod.mk.inj (Option.some.inj hst) <;>
      exact hr.congr id rfl rfl (fun _ _ => rfl) fun _ hq => hq
  | acquire p =>
    split_ifs at hst
    obtain ⟨i, -, -, rfl, -⟩ := acquire_eq_some hst
    exact hr.congr id rfl rfl (fun _ _ => rfl) fun _ hq => hq
  | logWrite p i d =>
    split_ifs at hst
    exact hr.logWrite hm.le hok.1.1 hok.2 hst
  | release p i =>
    simp only [release] at hst
    split_ifs at hst <;> obtain ⟨-, rfl⟩ := Prod.mk.inj (Option.some.inj hst) <;>
      exact hr.congr id rfl rfl (fun _ _ => rfl) fun _ hq => hq
  | endOp p =>
    split_ifs at hst
    exact hr.endOp hm hok.1 h hst
  | logStep p =>
    split_ifs at hst
    exact hr.logStep h hst

theorem room_run {r : Region} {d st : ℕ → Block} {L : List ℕ} {tr : List Event} (hm : m < MAXOPBLOCKS)
    (hd : Live readHead r d st L 0) (hr : Run Step (Writes m) (boot d r) tr t) : Room m t := by
  induction hr with
  | nil => exact fun hb => by cases hb
  | snoc hr hok hst ih =>
    obtain ⟨-, k, hk⟩ := inv_run (fun _ _ h => h.1) hd hr
    exact room_step ih hm (quiet_run (fun _ _ h => h.1) hd hr) hk hok hst

/-- **No panic.**  In a log of at least `LOGSIZE` blocks the operations that log fewer than `MAXOPBLOCKS` blocks each never find it
full. -/
theorem no_tooBig {r : Region} {d st : ℕ → Block} {L : List ℕ} {tr : List Event} (hm : m < MAXOPBLOCKS) (hr : LOGSIZE ≤ r.size)
    (hd : Live readHead r d st L 0) (hrun : Run Step (Writes m) (boot d r) tr t) : ∀ e ∈ tr, e.out ≠ .panic .tooBig := by
  intro e he ho
  obtain ⟨⟨tr', hr'⟩, hok, hst⟩ := hrun.forall_ev e he
  have hroom := room_run hm hd hr'
  obtain ⟨hreg, k, hk⟩ := inv_run (fun _ _ h => h.1) hd hr'
  rw [ho] at hst
  unfold Step step at hst
  generalize e.act = a at hok hst
  cases a with
  | crash => cases hst
  | beginOp p =>
    simp only [beginOp] at hst
    split_ifs at hst <;> cases hst
  | get p b =>
    simp only [get] at hst
    split_ifs at hst
    split at hst <;> cases hst
  | acquire p =>
    split_ifs at hst
    obtain ⟨i, -, -, -, ho⟩ := acquire_eq_some hst
    cases ho
  | logWrite p i d =>
    obtain rfl := hk.opened (hk.ops.outstanding_pos hok.1.1)
    obtain ⟨as, has⟩ := hroom hk.stage.2.1
    have hfree := has.two_free hm hok.1.1
    simp only [logWrite] at hst
    split_ifs at hst with hpan hg hbig
    · rw [hreg] at hbig
      omega
    · cases hst
    all_goals cases hst
  | release p i =>
    simp only [release] at hst
    split_ifs at hst <;> cases hst
  | endOp p =>
    split_ifs at hst
    cases (hk.endOp hok.1 hst).1
  | logStep p =>
    split_ifs at hst
    obtain ⟨ph, L, rfl, hst⟩ := hk.logStep_phase hst
    cases ph with
    | readHead => cases (hk.readHead hst).1
    | writeLog tail => cases (hk.writeLog hst).1
    | writeHead => cases (hk.writeHead hst).1
    | install recovering tail => cases (hk.install hst).1
    | clear recovering => cases (hk.clear hst).1
    | finish => cases (hk.finish hst).1

instance (m : ℕ) (s : Sys) : (a : Act) → Decidable (Writes m s a)
  | .logWrite _ _ _ => inferInstanceAs (Decidable (Caller _ _ ∧ _))
  | .endOp _ => inferInstanceAs (Decidable (Caller _ _ ∧ True))
  | .release _ _ => inferInstanceAs (Decidable (Caller _ _ ∧ True))
  | .beginOp _ | .get _ _ | .acquire _ | .logStep _ | .crash => .isTrue ⟨trivial, trivial⟩

/-- The buffer that the block number `i` of `fillActs` gets. -/
def fillBuf (i : ℕ) : BufId := ⟨(i + 1) % NBUF, Nat.mod_lt _ NBUF_pos⟩

/-- The processes 2, 3 and 4 log ten blocks each, but the last one only nine. -/
def fillActs : List Act :=
  bootActs ++ [.beginOp 2, .beginOp 3, .beginOp 4] ++ (List.range 29).flatMap fun i =>
    [.get (2 + i / 10) (50 + i), .acquire (2 + i / 10), .logWrite (2 + i / 10) (fillBuf i) (fun _ => 0),
      .release (2 + i / 10) (fillBuf i)]

def Out.tooBig : Out → Bool
  | .panic .tooBig => true
  | _ => false

theorem Out.tooBig_eq {o : Out} (h : o.tooBig = true) : o = .panic .tooBig := by
  unfold Out.tooBig at h
  split at h
  · rfl
  · cases h

set_option maxRecDepth 4000 in
theorem exists_fill_run : ∃ tr t, Run Step (Writes MAXOPBLOCKS) (boot zeros mkfsLog) tr t ∧ ∃ e ∈ tr, e.out.tooBig = true :=
  exists_run (Writes MAXOPBLOCKS) (fillActs ++ [.get 4 79, .acquire 4, .logWrite 4 (fillBuf 29) fun _ => 0]) (by decide +kernel)

/-- **`MAXOPBLOCKS` is one too many.**  With the log that `mkfs` makes, operations that log at most `m` different blocks each never run
into `panic("too big a transaction")` exactly if `m` is less than `MAXOPBLOCKS`. -/
theorem tooBig_iff (m : ℕ) : (∀ (start : ℕ) (d st : ℕ → Block) (L : List ℕ) (tr : List Event) (t : Sys),
    Live readHead ⟨start, LOGSIZE⟩ d st L 0 → Run Step (Writes m) (boot d ⟨start, LOGSIZE⟩) tr t →
      ∀ e ∈ tr, e.out ≠ .panic .tooBig) ↔ m < MAXOPBLOCKS := by
  constructor
  · intro h
    refine Nat.lt_of_not_le fun hm => ?_
    obtain ⟨tr, t, hr, e, he, ho⟩ := exists_fill_run
    refine h 2 zeros zeros [] tr t zeros_live (hr.mono fun s a ha => ⟨ha.1, ?_⟩) e he (Out.tooBig_eq ho)
    cases a with
    | logWrite p i d => exact ha.2.trans hm
    | _ => trivial
  · intro hm start d st L tr t hd hr
    exact no_tooBig hm le_rfl hd hr

end Room

end OsLabs.Xv6.Fs
