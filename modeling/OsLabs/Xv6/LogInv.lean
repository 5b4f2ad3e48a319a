import OsLabs.Xv6.LogCache

/-!
# OsLabs.Xv6.LogInv — the invariant of the logging layer

`View` is the abstract file store: the state that a restart goes back to and the state that readers see.  `View.after` is what one event
does to it.  `Inv v k s` ties the machine `s` to the view `v`; the stage `k` says which process is in the code of the log, in which
phase, and what the header on the disk names.

* `Inv.boot`: every start of the machine on a disk that stands for a state.
* one lemma per section of `log.c` and `bio.c`, and one per phase of `commit` and `recover_from_log`.
* `inv_step`: the invariant goes with every step of a machine whose callers keep their promise.
-/

namespace OsLabs.Xv6.Fs

open RedoLog (Region Live)

/-- The store as its users see it. -/
structure View where
  committed : ℕ → Block
  current : ℕ → Block

/-- An event of the machine. -/
abbrev Event := Lts.Ev Sys Act Out

/-- What an event does to the store: an operation writes, a group commits, a restart forgets. -/
def View.after (v : View) (e : Event) : View :=
  match e.act, e.out with
  | .logWrite _ i d, .done => { v with current := Function.update v.current (e.pre.bc.buf i).blockno d }
  | .logStep _, .commit => { v with committed := v.current }
  | .crash, _ => { v with current := v.committed }
  | _, _ => v

/-- The store after a run from the state `st`. -/
def view (st : ℕ → Block) (tr : List Event) : View := tr.foldl View.after ⟨st, st⟩

inductive Stage
  | opened
  | log (p : ℕ) (ph : Phase) (L : List ℕ)

/-- The blocks that are pinned. -/
def Stage.pins (lh : List ℕ) : Stage → List ℕ
  | .opened | .log _ (.writeLog _) _ | .log _ .writeHead _ => lh
  | .log _ (.install false tail) _ => lh.drop tail
  | .log _ _ _ => []

/-- The blocks whose homes a recovery has still to write. -/
def Stage.stale : Stage → List ℕ
  | .log _ .readHead L => L
  | .log _ (.install true tail) L => L.drop tail
  | _ => []

/-- The first `t` copies are in the log. -/
def Copied (v : View) (s : Sys) (t : ℕ) : Prop :=
  ∀ (i : ℕ) (h : i < s.log.lh.length), i < t → s.disk (s.log.region.slot i) = v.current s.log.lh[i]

/-- Readers see what a restart goes back to. -/
def Settled (v : View) (r : Region) : Prop := ∀ b, r.Home b → v.current b = v.committed b

def PhaseInv (v : View) (s : Sys) (L : List ℕ) : Phase → Prop
  | .readHead => s.booted = false ∧ s.log.committing = false ∧ s.log.lh = [] ∧ Settled v s.log.region ∧
      Live readHead s.log.region s.disk v.committed L 0
  | .writeLog tail => s.booted = true ∧ s.log.committing = true ∧ tail ≤ s.log.lh.length ∧ Copied v s tail ∧
      Live readHead s.log.region s.disk v.committed [] 0
  | .writeHead => s.booted = true ∧ s.log.committing = true ∧ Copied v s s.log.lh.length ∧
      Live readHead s.log.region s.disk v.committed [] 0
  | .install recovering tail => s.booted = !recovering ∧ s.log.committing = !recovering ∧ L = s.log.lh ∧
      tail ≤ s.log.lh.length ∧ Settled v s.log.region ∧ Live readHead s.log.region s.disk v.committed L tail
  | .clear recovering => s.booted = !recovering ∧ s.log.committing = !recovering ∧ s.log.lh = [] ∧
      Settled v s.log.region ∧ Live readHead s.log.region s.disk v.committed L L.length
  | .finish => s.booted = true ∧ s.log.committing = true ∧ s.log.lh = [] ∧ Settled v s.log.region ∧
      Live readHead s.log.region s.disk v.committed [] 0

/-- **One process at a time** is in the code of the log, and no operation is under way meanwhile. -/
def StageInv (v : View) (s : Sys) : Stage → Prop
  | .opened => (∀ q ph, s.op q ≠ .log ph) ∧ s.booted = true ∧ s.log.committing = false ∧
      Live readHead s.log.region s.disk v.committed [] 0
  | .log p ph L => (∀ q ph', s.op q = .log ph' ↔ q = p ∧ ph' = ph) ∧ s.log.outstanding = 0 ∧ PhaseInv v s L ph

/-- `log.outstanding` counts the operations under way. -/
def Ops (s : Sys) : Prop :=
  ∃ as : List ℕ, as.Nodup ∧ (∀ p, p ∈ as ↔ s.op p = .active) ∧ s.log.outstanding = as.length

structure Inv (v : View) (k : Stage) (s : Sys) : Prop where
  coh : Coherent s.log.region v.current (k.pins s.log.lh) k.stale s.disk s.bc
  cnt : Counted (k.pins s.log.lh) s.waiting s.bc
  nodup : s.log.lh.Nodup
  home : ∀ b ∈ s.log.lh, s.log.region.Home b
  fits : s.log.lh.length < s.log.region.size
  ops : Ops s
  stage : StageInv v s k

/-! ## What the processes are doing -/

section Procs

variable {s t : Sys} {p q : ℕ} {o : Op}

@[simp] theorem op_setOp_same : (s.setOp p o).op p = o := by simp [Sys.op, Sys.setOp]

theorem op_setOp_of_ne (h : q ≠ p) : (s.setOp p o).op q = s.op q := by simp [Sys.op, Sys.setOp, h]

theorem op_wakeup (s : Sys) (q : ℕ) : s.wakeup.op q = if s.op q = .asleep then .woken else s.op q := by
  unfold Sys.wakeup Sys.op
  dsimp only
  split_ifs <;> rfl

theorem op_wakeup_eq (ho : o ≠ .asleep) (ho' : o ≠ .woken) : s.wakeup.op q = o ↔ s.op q = o := by
  rw [op_wakeup]
  split_ifs with h
  · exact iff_of_false (Ne.symm ho') (h ▸ Ne.symm ho)
  · exact Iff.rfl

theorem op_setOp_asleep {o : Op} {q : ℕ} (ho : o ≠ .asleep) (h : (s.setOp p o).op q = .asleep) : s.op q = .asleep := by
  by_cases hq : q = p
  · subst hq
    rw [op_setOp_same] at h
    exact absurd h ho
  · rwa [op_setOp_of_ne hq] at h

theorem op_wakeup_ne (s : Sys) (q : ℕ) : s.wakeup.op q ≠ .asleep := by
  rw [op_wakeup]
  split_ifs with h
  · simp
  · exact h

theorem Ops.congr (h : Ops s) (hop : ∀ q, t.op q = .active ↔ s.op q = .active) (hout : t.log.outstanding = s.log.outstanding) :
    Ops t := by
  obtain ⟨as, hnd, hmem, hlen⟩ := h
  exact ⟨as, hnd, fun q => (hmem q).trans (hop q).symm, hout.trans hlen⟩

/-- A process that was and is outside the operations moves. -/
theorem Ops.setOp (h : Ops s) (hp : s.op p ≠ .active) (ho : o ≠ .active) : Ops (s.setOp p o) := by
  refine h.congr (fun q => ?_) rfl
  by_cases hq : q = p
  · subst hq
    rw [op_setOp_same]
    exact iff_of_false ho hp
  · rw [op_setOp_of_ne hq]

theorem Ops.outstanding_pos (h : Ops s) (hp : s.op p = .active) : 0 < s.log.outstanding := by
  obtain ⟨as, -, hmem, hlen⟩ := h
  have := List.length_pos_of_mem ((hmem p).mpr hp)
  omega

end Procs

section Start

variable {v : View} {k : Stage} {s : Sys} {r : Region} {d st : ℕ → Block} {L : List ℕ} {t : ℕ}

/-- The disk always stands for the committed state. -/
theorem StageInv.live (h : StageInv v s k) : ∃ L t, Live readHead s.log.region s.disk v.committed L t := by
  cases k with
  | opened => exact ⟨_, _, h.2.2.2⟩
  | log p ph L =>
    obtain ⟨-, -, h⟩ := h
    cases ph with
    | readHead => exact ⟨_, _, h.2.2.2.2⟩
    | writeLog tail => exact ⟨_, _, h.2.2.2.2⟩
    | writeHead => exact ⟨_, _, h.2.2.2⟩
    | install recovering tail => exact ⟨_, _, h.2.2.2.2.2⟩
    | clear recovering => exact ⟨_, _, h.2.2.2.2⟩
    | finish => exact ⟨_, _, h.2.2.2.2⟩

/-- **A start of the machine**, on a disk that stands for `st`. -/
theorem Inv.boot (h : Live readHead r d st L 0) : Inv ⟨st, st⟩ (.log 1 .readHead L) (boot d r) where
  coh := by
    refine ⟨Bcache.binit_wf _, fun i b hc => ?_, fun i b hc => ?_, fun b hb _ hs => ?_, fun b hb => absurd hb List.not_mem_nil⟩
    · exact absurd hc.1 (Nat.zero_ne_one)
    · exact absurd hc.1 (Nat.zero_ne_one)
    · exact h.rest b hb hs
  cnt := by
    refine ⟨fun i => ?_, fun i hi => absurd rfl hi, fun i hi => absurd rfl hi⟩
    rw [if_neg fun hx => absurd hx.2 List.not_mem_nil]
    rfl
  nodup := List.nodup_nil
  home b hb := absurd hb List.not_mem_nil
  fits := Nat.zero_lt_of_lt h.fits
  ops := by
    refine ⟨[], List.nodup_nil, fun p => iff_of_false List.not_mem_nil ?_, rfl⟩
    simp only [Sys.op, Fs.boot]
    split_ifs <;> simp
  stage := by
    refine ⟨fun q ph => ?_, rfl, rfl, rfl, rfl, fun _ _ => rfl, h⟩
    simp only [Sys.op, Fs.boot]
    split_ifs with hq <;> simp [hq, eq_comm]

/-- A power failure at any point leaves a disk to start from. -/
theorem Inv.crash (h : Inv v k s) : ∃ k', Inv ⟨v.committed, v.committed⟩ k' (reboot s) := by
  obtain ⟨L, t, hl⟩ := h.stage.live
  exact ⟨_, Inv.boot hl.restart⟩

end Start

/-! ## The sections of the callers -/

section Callers

variable {v : View} {k : Stage} {s t : Sys} {p b : ℕ} {i : BufId} {d : Block} {o : Out}

/-- Nothing in memory is lost by a panic. -/
theorem Inv.panic (h : Inv v k s) (w : FsPanic) : Inv v k (s.panic w).2 :=
  ⟨h.coh, h.cnt, h.nodup, h.home, h.fits, h.ops, h.stage⟩

/-- An operation under way keeps the log open. -/
theorem Inv.opened (h : Inv v k s) (hp : 0 < s.log.outstanding) : k = .opened := by
  cases k with
  | opened => rfl
  | log q ph L =>
    have := h.stage.2.1
    omega

theorem Inv.committing (h : Inv v k s) (hb : s.booted = true) (hc : s.log.committing = false) : k = .opened := by
  cases k with
  | opened => rfl
  | log q ph L =>
    obtain ⟨-, -, hph⟩ := h.stage
    cases ph with
    | readHead => rw [hph.1] at hb; cases hb
    | writeLog tail => rw [hph.2.1] at hc; cases hc
    | writeHead => rw [hph.2.1] at hc; cases hc
    | install recovering tail =>
      have := hph.1.symm.trans hb
      rw [hph.2.1, this] at hc
      cases hc
    | clear recovering =>
      have := hph.1.symm.trans hb
      rw [hph.2.1, this] at hc
      cases hc
    | finish => rw [hph.2.1] at hc; cases hc

/-- A process outside the code of the log moves, and stays outside. -/
theorem StageInv.setOp {o : Op} (h : StageInv v s k) (hp : ∀ ph, s.op p ≠ .log ph) (ho : ∀ ph, o ≠ .log ph) :
    StageInv v (s.setOp p o) k := by
  have hop : ∀ q ph, (s.setOp p o).op q = .log ph ↔ s.op q = .log ph := by
    intro q ph
    by_cases hq : q = p
    · subst hq
      rw [op_setOp_same]
      exact iff_of_false (ho ph) (hp ph)
    · rw [op_setOp_of_ne hq]
  cases k with
  | opened => exact ⟨fun q ph => (hop q ph).not.mpr (h.1 q ph), h.2⟩
  | log q ph L => exact ⟨fun q ph => (hop q ph).trans (h.1 q ph), h.2⟩

theorem Inv.beginOp (h : Inv v k s) (hst : beginOp p s = some (o, t)) : Inv v k t := by
  unfold Fs.beginOp at hst
  split_ifs at hst with hg hf
  · -- the process goes to sleep
    obtain ⟨rfl, rfl⟩ := Prod.mk.inj (Option.some.inj hst)
    have hna : s.op p ≠ .active := by rcases hg.2.2 with hx | hx <;> simp [hx]
    have hnl : ∀ ph, s.op p ≠ .log ph := by rcases hg.2.2 with hx | hx <;> simp [hx]
    exact ⟨h.coh, h.cnt, h.nodup, h.home, h.fits, h.ops.setOp hna (by simp), h.stage.setOp hnl (by simp)⟩
  · obtain ⟨rfl, rfl⟩ := Prod.mk.inj (Option.some.inj hst)
    unfold Log.full at hf
    have hcf : s.log.committing = false := by simpa using fun hc => hf (.inl hc)
    obtain rfl := h.committing hg.2.1 hcf
    have hna : s.op p ≠ .active := by rcases hg.2.2 with hx | hx <;> simp [hx]
    refine ⟨h.coh, h.cnt, h.nodup, h.home, h.fits, ?_, ?_⟩
    · obtain ⟨as, hnd, hmem, hlen⟩ := h.ops
      refine ⟨p :: as, List.nodup_cons.mpr ⟨fun hx => hna ((hmem p).mp hx), hnd⟩, fun q => ?_, ?_⟩
      · by_cases hq : q = p
        · subst hq
          simp [Sys.op]
        · rw [List.mem_cons, or_iff_right hq, hmem q]
          simp [Sys.op, hq]
      · simp [hlen]
    · refine ⟨fun q ph => ?_, h.stage.2⟩
      by_cases hq : q = p
      · subst hq
        simp [Sys.op]
      · have := h.stage.1 q ph
        simpa [Sys.op, hq] using this

theorem Inv.get (h : Inv v k s) (hst : get p b s = some (o, t)) : Inv v k t := by
  unfold Fs.get at hst
  split_ifs at hst with hg
  split at hst
  · obtain ⟨rfl, rfl⟩ := Prod.mk.inj (Option.some.inj hst)
    exact h.panic _
  · rename_i i bc hb
    obtain ⟨rfl, rfl⟩ := Prod.mk.inj (Option.some.inj hst)
    exact ⟨h.coh.get h.cnt hb, h.cnt.get h.coh hb p, h.nodup, h.home, h.fits, h.ops, h.stage⟩

/-- What `acquire` does: the process waited for the buffer, whose lock is free. -/
theorem acquire_eq_some (hst : acquire p s = some (o, t)) : ∃ i, (p, i) ∈ s.waiting ∧ (s.bc.buf i).lock = none ∧
    t = { s with bc := (s.bc.acquire i p).fill i s.disk, waiting := s.waiting.erase (p, i) } ∧
    o = .data (t.bc.buf i).blockno (t.bc.buf i).data := by
  unfold Fs.acquire at hst
  split at hst
  · cases hst
  · rename_i q i hw
    have hq := List.find?_some hw
    simp only [decide_eq_true_eq] at hq
    subst hq
    split_ifs at hst with hl
    obtain ⟨rfl, rfl⟩ := Prod.mk.inj (Option.some.inj hst)
    exact ⟨i, List.mem_of_find?_eq_some hw, hl, rfl, rfl⟩

theorem Inv.acquire (h : Inv v k s) (hst : acquire p s = some (o, t)) : Inv v k t := by
  obtain ⟨i, hw, hl, rfl, -⟩ := acquire_eq_some hst
  exact ⟨h.coh.acquire p, h.cnt.acquire hw hl, h.nodup, h.home, h.fits, h.ops, h.stage⟩

/-- A locked buffer caches a block of the root device, and is valid. -/
theorem Inv.locked (h : Inv v k s) (hl : (s.bc.buf i).lock = some p) :
    (s.bc.buf i).Caches (s.bc.buf i).blockno ∧ (s.bc.buf i).valid = true := by
  have hc := h.cnt.count i
  rw [hl, Option.isSome_some, Bool.toNat_true] at hc
  exact ⟨⟨h.cnt.dev i (by omega), rfl⟩, h.cnt.valid i (by rw [hl]; exact Option.some_ne_none p)⟩

theorem Inv.release (h : Inv v k s) (hst : release p i s = some (o, t)) : Inv v k t := by
  unfold Fs.release at hst
  split_ifs at hst with hg hl
  · obtain ⟨rfl, rfl⟩ := Prod.mk.inj (Option.some.inj hst)
    exact ⟨h.coh.relse, h.cnt.relse hl, h.nodup, h.home, h.fits, h.ops, h.stage⟩
  · obtain ⟨rfl, rfl⟩ := Prod.mk.inj (Option.some.inj hst)
    exact h.panic _

/-- The process that logs a block stays in its operation. -/
theorem Ops.wrote (h : Ops s) {w : List ℕ} {bc : Bcache Block} {lh : List ℕ} :
    Ops { s with bc, log := { s.log with lh }, proc := Function.update s.proc p { s.proc p with wrote := w } } := by
  refine h.congr (fun q => ?_) rfl
  by_cases hq : q = p
  · subst hq
    simp [Sys.op]
  · simp [Sys.op, hq]

theorem StageInv.wrote (h : StageInv v s .opened) {w lh : List ℕ} {bc : Bcache Block} {cur : ℕ → Block} :
    StageInv { v with current := cur }
      { s with bc, log := { s.log with lh }, proc := Function.update s.proc p { s.proc p with wrote := w } } .opened := by
  refine ⟨fun q ph => ?_, h.2⟩
  by_cases hq : q = p
  · subst hq
    simpa [Sys.op] using h.1 q ph
  · simpa [Sys.op, hq] using h.1 q ph

/-- What `logWrite` does: a panic, or the block is changed and, unless it was logged already, pinned and named in the header. -/
theorem logWrite_eq_some (hst : logWrite p i d s = some (o, t)) : (s.bc.buf i).lock = some p ∧
    ((∃ w, o = .panic w ∧ t = { s with panicked := some w }) ∨
    (o = .done ∧ 1 ≤ s.log.outstanding ∧ s.log.lh.length < LOGSIZE ∧ s.log.lh.length + 1 < s.log.region.size ∧
      (((s.bc.buf i).blockno ∈ s.log.lh ∧ t = { s with
          bc := s.bc.assign i d
          proc := Function.update s.proc p { s.proc p with wrote := (s.proc p).wrote.insert (s.bc.buf i).blockno } }) ∨
        ((s.bc.buf i).blockno ∉ s.log.lh ∧ t = { s with
          bc := (s.bc.assign i d).bpin i, log := { s.log with lh := s.log.lh ++ [(s.bc.buf i).blockno] }
          proc := Function.update s.proc p { s.proc p with wrote := (s.proc p).wrote.insert (s.bc.buf i).blockno } })))) := by
  unfold Fs.logWrite at hst
  dsimp only at hst
  split_ifs at hst with hg h1 h2 h3
  · obtain ⟨rfl, rfl⟩ := Prod.mk.inj (Option.some.inj hst)
    exact ⟨hg.2, .inl ⟨_, rfl, rfl⟩⟩
  · obtain ⟨rfl, rfl⟩ := Prod.mk.inj (Option.some.inj hst)
    exact ⟨hg.2, .inl ⟨_, rfl, rfl⟩⟩
  · obtain ⟨rfl, rfl⟩ := Prod.mk.inj (Option.some.inj hst)
    exact ⟨hg.2, .inr ⟨rfl, by omega, by omega, by omega, .inl ⟨h3, rfl⟩⟩⟩
  · obtain ⟨rfl, rfl⟩ := Prod.mk.inj (Option.some.inj hst)
    exact ⟨hg.2, .inr ⟨rfl, by omega, by omega, by omega, .inr ⟨h3, rfl⟩⟩⟩

theorem View.after_logWrite (v : View) (s t : Sys) (p : ℕ) (i : BufId) (d : Block) :
    v.after ⟨s, .logWrite p i d, .done, t⟩ =
      { v with current := Function.update v.current (s.bc.buf i).blockno d } := rfl

theorem Inv.logWrite (h : Inv v k s) (hb : s.log.region.Home (s.bc.buf i).blockno) (hst : logWrite p i d s = some (o, t)) :
    Inv (v.after ⟨s, .logWrite p i d, o, t⟩) k t := by
  obtain ⟨hl, ⟨w, rfl, rfl⟩ | ⟨rfl, hout, hlt, hsz, ⟨hmem, rfl⟩ | ⟨hmem, rfl⟩⟩⟩ := logWrite_eq_some hst
  · exact h.panic w
  · -- the block is in the log already
    obtain rfl := h.opened (by omega)
    obtain ⟨hc, hv⟩ := h.locked hl
    rw [View.after_logWrite]
    refine ⟨?_, h.cnt.assign d, h.nodup, h.home, h.fits, h.ops.wrote, h.stage.wrote⟩
    refine h.coh.assign hc hv (fun _ _ => (Function.update_self _ d v.current).symm) (fun hx => absurd hb hx) (fun _ hx _ => absurd hmem hx)
      (fun x hx => Function.update_of_ne hx _ _) (fun _ _ => rfl) (fun _ _ => Iff.rfl) fun _ _ => Iff.rfl
  · obtain rfl := h.opened (by omega)
    obtain ⟨hc, hv⟩ := h.locked hl
    rw [View.after_logWrite]
    have hc' : ((s.bc.assign i d).buf i).Caches (s.bc.buf i).blockno := by
      unfold Bcache.assign
      rw [Bcache.setBuf_same]
      exact hc
    have hcnt : Counted (s.log.lh ++ [(s.bc.buf i).blockno]) s.waiting ((s.bc.assign i d).bpin i) :=
      (h.cnt.assign d).bpin (h.coh.wf.setBuf rfl rfl) hc' hmem
    refine ⟨Coherent.bpin ?_, hcnt, ?_, ?_, ?_, h.ops.wrote, h.stage.wrote⟩
    · refine h.coh.assign hc hv (fun _ _ => (Function.update_self _ d v.current).symm) (fun hx => absurd hb hx)
        (fun _ hx _ => absurd ?_ hx) (fun x hx => Function.update_of_ne hx _ _) (fun _ _ => rfl) (fun x hx => ?_) fun _ _ => Iff.rfl
      · exact List.mem_append_right _ List.mem_cons_self
      · change x ∈ s.log.lh ++ [_] ↔ x ∈ s.log.lh
        rw [List.mem_append, List.mem_singleton, or_iff_left hx]
    · exact List.nodup_append.mpr ⟨h.nodup, List.nodup_singleton _, fun a ha x hx => by
        rw [List.mem_singleton.mp hx]
        rintro rfl
        exact hmem ha⟩
    · intro x hx
      rcases List.mem_append.mp hx with hx | hx
      · exact h.home x hx
      · exact List.mem_singleton.mp hx ▸ hb
    · simpa using hsz

theorem StageInv.wakeup (h : StageInv v s k) : StageInv v s.wakeup k := by
  cases k with
  | opened => exact ⟨fun q ph => (op_wakeup_eq (by simp) (by simp)).not.mpr (h.1 q ph), h.2⟩
  | log q ph L => exact ⟨fun q ph => (op_wakeup_eq (by simp) (by simp)).trans (h.1 q ph), h.2⟩

end Callers

end OsLabs.Xv6.Fs
