import OsLabs.Xv6.LogInv

/-!
# OsLabs.Xv6.LogStep — the invariant through `end_op`, `commit` and `recover_from_log`

One lemma for `end_op` and one for each phase of a process in the code of the log; `inv_step` puts them together with the sections of
`LogInv`.
-/

namespace OsLabs.Xv6.Fs

open RedoLog (Region Live)

section Facts

variable {c : Bcache Block} {i j : BufId} {d : Block} {s : Sys} {p q : ℕ}

theorem Bcache.assign_same (c : Bcache Block) (i : BufId) (d : Block) : (c.assign i d).buf i = { c.buf i with data := d } := by
  simp [Bcache.assign]

theorem Bcache.assign_lock (c : Bcache Block) (i j : BufId) (d : Block) : ((c.assign i d).buf j).lock = (c.buf j).lock := by
  by_cases hj : j = i
  · subst hj
    rw [Bcache.assign_same]
  · simp [Bcache.assign, Bcache.setBuf_of_ne _ _ hj]

theorem Bcache.bunpin_lock (c : Bcache Block) (i j : BufId) : ((c.bunpin i).buf j).lock = (c.buf j).lock := by
  by_cases hj : j = i
  · subst hj
    simp [Bcache.bunpin]
  · simp [Bcache.bunpin, Bcache.setBuf_of_ne _ _ hj]

/-- The buffer is changed and written to its block. -/
theorem assign_bwrite (s : Sys) (i : BufId) (d : Block) : ({ s with bc := s.bc.assign i d } : Sys).bwrite i =
    { s with bc := s.bc.assign i d, disk := Function.update s.disk (s.bc.buf i).blockno d } := by
  simp [Sys.bwrite, Bcache.assign_same]

/-- A process enters the code of the log, or goes on in it, while no other is in it. -/
theorem log_op_iff {ph : Phase} (h : ∀ q, q ≠ p → ∀ ph, s.op q ≠ .log ph) (q : ℕ) (ph' : Phase) :
    (s.setOp p (.log ph)).op q = .log ph' ↔ q = p ∧ ph' = ph := by
  by_cases hq : q = p
  · subst hq
    rw [op_setOp_same]
    simp [eq_comm]
  · rw [op_setOp_of_ne hq]
    exact iff_of_false (h q hq ph') fun hx => hq hx.1

theorem log_left {o : Op} (h : ∀ q, q ≠ p → ∀ ph, s.op q ≠ .log ph) (ho : ∀ ph, o ≠ .log ph) (q : ℕ) (ph : Phase) :
    (s.setOp p o).op q ≠ .log ph := by
  by_cases hq : q = p
  · subst hq
    rw [op_setOp_same]
    exact ho ph
  · rw [op_setOp_of_ne hq]
    exact h q hq ph

end Facts

section EndOp

variable {v : View} {k : Stage} {s t : Sys} {p : ℕ} {o : Out}

/-- The home blocks that nobody has logged are the same to readers and to a restart. -/
theorem Inv.settled (h : Inv v .opened s) (hlh : s.log.lh = []) : Settled v s.log.region := by
  intro b hb
  have hcl := h.coh.clean b hb (by simp [Stage.pins, hlh]) List.not_mem_nil
  rw [← hcl, h.stage.2.2.2.rest b hb (by simp)]

/-- When the last operation ends, none is left. -/
theorem Ops.last {ph : Phase} (h : Ops s) (hp : s.op p = .active) (h0 : s.log.outstanding - 1 = 0) (c : Bool) :
    Ops ({ s with log := { s.log with outstanding := s.log.outstanding - 1, committing := c } }.setOp p (.log ph)) := by
  obtain ⟨as, hnd, hmem, hlen⟩ := h
  have hpas := (hmem p).mpr hp
  have hone : as = [p] := by
    obtain ⟨a, rfl⟩ := List.length_eq_one_iff.mp (show as.length = 1 by omega)
    rw [List.mem_singleton.mp hpas]
  refine ⟨[], List.nodup_nil, fun q => iff_of_false List.not_mem_nil fun hq => ?_, h0⟩
  by_cases hqp : q = p
  · subst hqp
    rw [op_setOp_same] at hq
    cases hq
  · rw [op_setOp_of_ne hqp] at hq
    exact hqp (List.mem_singleton.mp (hone ▸ (hmem q).mpr hq))

/-- **`end_op`** finds `log.committing` clear; the last operation goes on to `commit`. -/
theorem Inv.endOp (h : Inv v k s) (hp : s.op p = .active) (hst : endOp p s = some (o, t)) : o = .done ∧ ∃ k', Inv v k' t := by
  obtain rfl := h.opened (h.ops.outstanding_pos hp)
  obtain ⟨hno, hboot, hcom, hlive⟩ := h.stage
  unfold Fs.endOp at hst
  dsimp only at hst
  split_ifs at hst with hfree hc h0 hlh
  · rw [hcom] at hc
    cases hc
  · obtain ⟨rfl, rfl⟩ := Prod.mk.inj (Option.some.inj hst)
    have hcoh := h.coh
    have hcnt := h.cnt
    simp only [Stage.pins, Stage.stale, hlh] at hcoh hcnt
    exact ⟨rfl, .log p .finish [], hcoh, hcnt, h.nodup, h.home, h.fits, h.ops.last hp h0 true, log_op_iff (fun q _ => hno q), h0,
      hboot, rfl, hlh, h.settled hlh, hlive⟩
  · obtain ⟨rfl, rfl⟩ := Prod.mk.inj (Option.some.inj hst)
    exact ⟨rfl, .log p (.writeLog 0) [], h.coh, h.cnt, h.nodup, h.home, h.fits, h.ops.last hp h0 true,
      log_op_iff (fun q _ => hno q), h0, hboot, rfl, Nat.zero_le _, fun i _ hi => absurd hi (Nat.not_lt_zero i), hlive⟩
  · obtain ⟨rfl, rfl⟩ := Prod.mk.inj (Option.some.inj hst)
    obtain ⟨as, hnd, hmem, hlen⟩ := h.ops
    have hpas := (hmem p).mpr hp
    refine ⟨rfl, .opened, h.coh, h.cnt, h.nodup, h.home, h.fits, ⟨as.erase p, hnd.erase p, fun q => ?_, ?_⟩, ?_⟩
    · by_cases hqp : q = p
      · subst hqp
        rw [op_setOp_same]
        exact iff_of_false hnd.not_mem_erase (by simp)
      · rw [op_setOp_of_ne hqp, List.mem_erase_of_ne hqp, hmem q, op_wakeup_eq (by simp) (by simp)]
        exact Iff.rfl
    · have h1 := List.length_erase_of_mem hpas
      have h2 := List.length_pos_of_mem hpas
      change s.log.outstanding - 1 = _
      omega
    · refine ⟨log_left (fun q _ ph => ?_) (by simp), hboot, hcom, hlive⟩
      rw [Ne, op_wakeup_eq (by simp) (by simp)]
      exact hno q ph

end EndOp

/-- What a step in the code of the log leaves alone. -/
structure Frame (ph : Phase) (s t : Sys) : Prop where
  region : t.log.region = s.log.region
  outstanding : t.log.outstanding = s.log.outstanding
  booted : (s.booted = true ∨ ph = .clear true) ↔ t.booted = true
  committing : t.log.committing = if ph = .finish then false else s.log.committing
  lh : ph = .finish ∨ ph = .clear true → t.log.lh = s.log.lh
  shrinks : ph ≠ .readHead → t.log.lh.length ≤ s.log.lh.length
  asleep : ∀ q, t.op q = .asleep → s.op q = .asleep ∧ ph ≠ .finish
  active : ∀ q, t.op q = .active → t.proc q = s.proc q

section Frame

variable {s t : Sys} {p : ℕ} {o : Out}

theorem proc_setOp_active {o : Op} {q : ℕ} (ho : o ≠ .active) (h : (s.setOp p o).op q = .active) :
    (s.setOp p o).proc q = s.proc q := by
  by_cases hq : q = p
  · subst hq
    rw [op_setOp_same] at h
    exact absurd h ho
  · simp [Sys.setOp, hq]

theorem logPhase_frame {ph : Phase} (h : logPhase p s ph = some (o, t)) : Frame ph s t := by
  have hasleep : ∀ (u : Sys) {o' : Op}, u.proc = s.proc → o' ≠ .asleep → ph ≠ .finish →
      ∀ q, (u.setOp p o').op q = .asleep → s.op q = .asleep ∧ ph ≠ .finish := by
    intro u o' hu ho' hne q hq
    refine ⟨?_, hne⟩
    have := op_setOp_asleep ho' hq
    rwa [Sys.op, hu] at this
  have hactive : ∀ (u : Sys) {o' : Op}, u.proc = s.proc → o' ≠ .active →
      ∀ q, (u.setOp p o').op q = .active → (u.setOp p o').proc q = s.proc q := by
    intro u o' hu ho' q hq
    rw [proc_setOp_active ho' hq, hu]
  cases ph with
  | readHead =>
    obtain ⟨i, -, h⟩ := Option.bind_eq_some_iff.mp h
    obtain ⟨-, rfl⟩ := Prod.mk.inj (Option.some.inj h)
    exact ⟨rfl, rfl, by simp [Sys.setOp], rfl, by simp, fun hx => absurd rfl hx, hasleep _ rfl (by simp) (by simp), hactive _ rfl (by simp)⟩
  | writeLog tail =>
    rw [logPhase] at h
    cases hn : s.log.lh[tail]? with
    | none =>
      rw [hn] at h
      obtain ⟨-, rfl⟩ := Prod.mk.inj (Option.some.inj h)
      exact ⟨rfl, rfl, by simp [Sys.setOp], rfl, by simp, fun _ => le_rfl, hasleep _ rfl (by simp) (by simp), hactive _ rfl (by simp)⟩
    | some b =>
      rw [hn] at h
      obtain ⟨i, -, h⟩ := Option.bind_eq_some_iff.mp h
      obtain ⟨j, -, h⟩ := Option.bind_eq_some_iff.mp h
      obtain ⟨-, rfl⟩ := Prod.mk.inj (Option.some.inj h)
      exact ⟨rfl, rfl, by simp [Sys.setOp, Sys.bwrite], rfl, by simp, fun _ => le_rfl, hasleep _ rfl (by simp) (by simp),
        hactive _ rfl (by simp)⟩
  | writeHead =>
    obtain ⟨i, -, h⟩ := Option.bind_eq_some_iff.mp h
    obtain ⟨-, rfl⟩ := Prod.mk.inj (Option.some.inj h)
    exact ⟨rfl, rfl, by simp [Sys.setOp, Sys.bwrite], rfl, by simp, fun _ => le_rfl, hasleep _ rfl (by simp) (by simp), hactive _ rfl (by simp)⟩
  | install recovering tail =>
    rw [logPhase] at h
    cases hn : s.log.lh[tail]? with
    | none =>
      rw [hn] at h
      obtain ⟨-, rfl⟩ := Prod.mk.inj (Option.some.inj h)
      exact ⟨rfl, rfl, by simp [Sys.setOp], rfl, by simp, fun _ => Nat.zero_le _, hasleep _ rfl (by simp) (by simp), hactive _ rfl (by simp)⟩
    | some b =>
      rw [hn] at h
      obtain ⟨i, -, h⟩ := Option.bind_eq_some_iff.mp h
      obtain ⟨j, -, h⟩ := Option.bind_eq_some_iff.mp h
      obtain ⟨-, rfl⟩ := Prod.mk.inj (Option.some.inj h)
      exact ⟨rfl, rfl, by simp [Sys.setOp, Sys.bwrite], rfl, by simp, fun _ => le_rfl, hasleep _ rfl (by simp) (by simp),
        hactive _ rfl (by simp)⟩
  | clear recovering =>
    obtain ⟨i, -, h⟩ := Option.bind_eq_some_iff.mp h
    cases recovering with
    | true =>
      obtain ⟨-, rfl⟩ := Prod.mk.inj (Option.some.inj h)
      exact ⟨rfl, rfl, by simp [Sys.setOp], rfl, fun _ => rfl, fun _ => le_rfl, hasleep _ rfl (by simp) (by simp), hactive _ rfl (by simp)⟩
    | false =>
      obtain ⟨-, rfl⟩ := Prod.mk.inj (Option.some.inj h)
      exact ⟨rfl, rfl, by simp [Sys.setOp, Sys.bwrite], rfl, fun _ => rfl, fun _ => le_rfl, hasleep _ rfl (by simp) (by simp),
        hactive _ rfl (by simp)⟩
  | finish =>
    obtain ⟨-, rfl⟩ := Prod.mk.inj (Option.some.inj h)
    refine ⟨rfl, rfl, by simp [Sys.setOp, Sys.wakeup], rfl, fun _ => rfl, fun _ => le_rfl,
      fun q hq => absurd (op_setOp_asleep (by simp) hq) (op_wakeup_ne _ q), fun q hq => ?_⟩
    -- a process inside an operation is not one that is woken
    rw [proc_setOp_active (by simp) hq]
    have hne : s.op q ≠ .asleep := by
      intro hs
      have hqp : q ≠ p := by
        rintro rfl
        rw [op_setOp_same] at hq
        cases hq
      rw [op_setOp_of_ne hqp, op_wakeup_eq (by simp) (by simp)] at hq
      have hq : s.op q = .active := hq
      rw [hs] at hq
      cases hq
    exact if_neg hne

end Frame

section Phases

variable {v : View} {s t : Sys} {p : ℕ} {L : List ℕ} {o : Out} {tail : ℕ} {recovering : Bool}

/-- A buffer that a process in the code of the log has locked. -/
theorem Inv.holds {k : Stage} {b : ℕ} {i : BufId} (h : Inv v k s) (hi : s.holds p b = some i) :
    (s.bc.buf i).Caches b ∧ (s.bc.buf i).lock = some p ∧ (s.bc.buf i).valid = true := by
  obtain ⟨hc, hl⟩ := (Sys.holds_eq_some h.coh.wf).mp hi
  exact ⟨hc, hl, (h.locked hl).2⟩

variable {ph : Phase} (h : Inv v (.log p ph L) s)

include h

theorem Inv.alone : ∀ q, q ≠ p → ∀ ph, s.op q ≠ .log ph := fun q hq ph' hx => hq ((h.stage.1 q ph').mp hx).1

theorem Inv.logOps {o : Op} (ho : o ≠ .active) : Ops (s.setOp p o) :=
  h.ops.setOp (by rw [(h.stage.1 p ph).mpr ⟨rfl, rfl⟩]; simp) ho

/-- No operation is under way. -/
theorem Inv.no_active (q : ℕ) : s.op q ≠ .active := by
  intro hq
  have := h.ops.outstanding_pos hq
  have := h.stage.2.1
  omega

omit h

theorem Inv.readHead (h : Inv v (.log p .readHead L) s) (hst : logPhase p s .readHead = some (o, t)) :
    o = .done ∧ ∃ k', Inv v k' t := by
  obtain ⟨hboot, hcom, hlh, hset, hlive⟩ := h.stage.2.2
  obtain ⟨i, hi, hst⟩ := Option.bind_eq_some_iff.mp hst
  obtain ⟨rfl, rfl⟩ := Prod.mk.inj (Option.some.inj hst)
  obtain ⟨hc, hl, hv⟩ := h.holds hi
  have hpos : 0 < s.log.region.size := Nat.zero_lt_of_lt hlive.fits
  have hhead : Fs.readHead (s.bc.buf i).data = L := by
    rw [h.coh.log i _ hc hv (Region.start_not_home hpos), hlive.header]
  refine ⟨rfl, .log p (.install true 0) L, ?_⟩
  have hcoh : Coherent s.log.region v.current [] (L.drop 0) s.disk (s.bc.relse i) := h.coh.relse
  have hcnt : Counted [] s.waiting (s.bc.relse i) := h.cnt.relse hl
  refine ⟨hcoh, hcnt, ?_, ?_, ?_, h.logOps (by simp), log_op_iff h.alone, h.stage.2.1, hboot, hcom, hhead.symm, Nat.zero_le _, hset,
    hlive⟩
  · exact hhead ▸ hlive.nodup
  · exact hhead ▸ hlive.home
  · exact hhead ▸ hlive.fits

theorem Inv.writeLog (h : Inv v (.log p (.writeLog tail) L) s) (hst : logPhase p s (.writeLog tail) = some (o, t)) :
    o = .done ∧ ∃ k', Inv v k' t := by
  obtain ⟨hboot, hcom, htail, hcopied, hlive⟩ := h.stage.2.2
  rw [logPhase] at hst
  cases hn : s.log.lh[tail]? with
  | none =>
    -- every copy is in the log
    rw [hn] at hst
    obtain ⟨rfl, rfl⟩ := Prod.mk.inj (Option.some.inj hst)
    have hlen := List.getElem?_eq_none_iff.mp hn
    refine ⟨rfl, .log p .writeHead L, h.coh, h.cnt, h.nodup, h.home, h.fits, h.logOps (by simp), log_op_iff h.alone, h.stage.2.1,
      hboot, hcom, fun i hi _ => hcopied i hi (Nat.lt_of_lt_of_le hi hlen), hlive⟩
  | some b =>
    rw [hn] at hst
    obtain ⟨ht, rfl⟩ := List.getElem?_eq_some_iff.mp hn
    obtain ⟨bto, hto, hst⟩ := Option.bind_eq_some_iff.mp hst
    obtain ⟨bfrom, hfrom, hst⟩ := Option.bind_eq_some_iff.mp hst
    obtain ⟨hcto, hlto, hvto⟩ := h.holds hto
    obtain ⟨hcfrom, hlfrom, hvfrom⟩ := h.holds hfrom
    have hhome := h.home _ (List.getElem_mem ht)
    have hslot : tail + 1 < s.log.region.size := by
      have := h.fits
      omega
    have hdata : (s.bc.buf bfrom).data = v.current s.log.lh[tail] := h.coh.home bfrom _ hcfrom hvfrom hhome List.not_mem_nil
    have hne : bto ≠ bfrom := by
      rintro rfl
      exact hhome.ne_slot hslot (hcfrom.2.symm.trans hcto.2)
    dsimp only at hst
    rw [assign_bwrite, hdata, hcto.2] at hst
    obtain ⟨rfl, rfl⟩ := Prod.mk.inj (Option.some.inj hst)
    refine ⟨rfl, .log p (.writeLog (tail + 1)) L, ?_, ?_, h.nodup, h.home, h.fits, h.logOps (by simp), log_op_iff h.alone,
      h.stage.2.1, hboot, hcom, ht, ?_, hlive.copy_write hslot _⟩
    · refine Coherent.relse (Coherent.relse (h.coh.assign hcto hvto (fun hx => ?_) (fun _ => ?_) (fun hx => ?_) (fun _ _ => rfl)
        (fun x hx => Function.update_of_ne hx _ _) (fun _ _ => Iff.rfl) fun _ _ => Iff.rfl))
      · exact absurd hx (Region.slot_not_home hslot)
      · exact (Function.update_self _ _ s.disk).symm
      · exact absurd hx (Region.slot_not_home hslot)
    · refine ((h.cnt.assign _).relse (p := p) ?_).relse (p := p) ?_
      · rw [Bcache.assign_lock, hlfrom]
      · rw [Bcache.relse_of_ne _ hne, Bcache.assign_lock, hlto]
    · intro i hi hit
      by_cases hitail : i = tail
      · subst hitail
        exact Function.update_self _ _ s.disk
      · exact (Function.update_of_ne (Region.slot_inj.not.mpr hitail) _ _).trans (hcopied i hi (by omega))

/-- **The commit**: when the header is on the disk, the committed state is the one that readers see. -/
theorem Inv.writeHead (h : Inv v (.log p .writeHead L) s) (hst : logPhase p s .writeHead = some (o, t)) :
    o = .commit ∧ ∃ k', Inv ⟨v.current, v.current⟩ k' t := by
  obtain ⟨hboot, hcom, hcopied, hlive⟩ := h.stage.2.2
  obtain ⟨i, hi, hst⟩ := Option.bind_eq_some_iff.mp hst
  obtain ⟨hc, hl, hv⟩ := h.holds hi
  have hpos : 0 < s.log.region.size := Nat.zero_lt_of_lt hlive.fits
  dsimp only at hst
  rw [assign_bwrite, hc.2] at hst
  obtain ⟨rfl, rfl⟩ := Prod.mk.inj (Option.some.inj hst)
  refine ⟨rfl, .log p (.install false 0) s.log.lh, ?_, ?_, h.nodup, h.home, h.fits, h.logOps (by simp), log_op_iff h.alone,
    h.stage.2.1, hboot, hcom, rfl, Nat.zero_le _, fun _ _ => rfl, ?_⟩
  · refine Coherent.relse (h.coh.assign hc hv (fun hx => ?_) (fun _ => ?_) (fun hx => ?_) (fun _ _ => rfl)
      (fun x hx => Function.update_of_ne hx _ _) (fun _ _ => Iff.rfl) fun _ _ => Iff.rfl)
    · exact absurd hx (Region.start_not_home hpos)
    · exact (Function.update_self _ _ s.disk).symm
    · exact absurd hx (Region.start_not_home hpos)
  · refine (h.cnt.assign _).relse (p := p) ?_
    rw [Bcache.assign_lock, hl]
  · refine hlive.commit h.nodup h.home h.fits (fun i hi => hcopied i hi hi) (fun b hb hn => ?_) (readHead_writeHead _ _)
    have heq : v.current b = v.committed b := by
      rw [← h.coh.clean b hb hn List.not_mem_nil, hlive.rest b hb (by simp)]
    exact heq

theorem Inv.install (h : Inv v (.log p (.install recovering tail) L) s)
    (hst : logPhase p s (.install recovering tail) = some (o, t)) : o = .done ∧ ∃ k', Inv v k' t := by
  obtain ⟨hboot, hcom, rfl, htail, hset, hlive⟩ := h.stage.2.2
  rw [logPhase] at hst
  cases hn : s.log.lh[tail]? with
  | none =>
    -- everything is installed
    rw [hn] at hst
    obtain ⟨rfl, rfl⟩ := Prod.mk.inj (Option.some.inj hst)
    have hlen : tail = s.log.lh.length := le_antisymm htail (List.getElem?_eq_none_iff.mp hn)
    have hcoh := h.coh
    have hcnt := h.cnt
    subst hlen
    refine ⟨rfl, .log p (.clear recovering) s.log.lh, ?_, ?_, List.nodup_nil, fun b hb => absurd hb List.not_mem_nil,
      Nat.zero_lt_of_lt h.fits, h.logOps (by simp), log_op_iff h.alone, h.stage.2.1, hboot, hcom, rfl, hset, hlive⟩
    · cases recovering <;> simp only [Stage.pins, Stage.stale, List.drop_length] at hcoh <;> exact hcoh
    · cases recovering <;> simp only [Stage.pins, List.drop_length] at hcnt <;> exact hcnt
  | some b =>
    rw [hn] at hst
    obtain ⟨ht, rfl⟩ := List.getElem?_eq_some_iff.mp hn
    obtain ⟨lbuf, hlb, hst⟩ := Option.bind_eq_some_iff.mp hst
    obtain ⟨dbuf, hdb, hst⟩ := Option.bind_eq_some_iff.mp hst
    obtain ⟨hcl, hll, hvl⟩ := h.holds hlb
    obtain ⟨hcd, hld, hvd⟩ := h.holds hdb
    have hhome := h.home _ (List.getElem_mem ht)
    have hslot : tail + 1 < s.log.region.size := by
      have := h.fits
      omega
    have hdata : (s.bc.buf lbuf).data = v.committed s.log.lh[tail] := by
      rw [h.coh.log lbuf _ hcl hvl (Region.slot_not_home hslot), hlive.copy tail ht]
    have hne : dbuf ≠ lbuf := by
      rintro rfl
      exact hhome.ne_slot hslot (hcd.2.symm.trans hcl.2)
    have hdrop : s.log.lh.drop tail = s.log.lh[tail] :: s.log.lh.drop (tail + 1) := List.drop_eq_getElem_cons ht
    have hnot : s.log.lh[tail] ∉ s.log.lh.drop (tail + 1) := by
      have := h.nodup.sublist (List.drop_sublist tail s.log.lh)
      rw [hdrop] at this
      exact (List.nodup_cons.mp this).1
    have hmem : ∀ x, x ≠ s.log.lh[tail] → (x ∈ s.log.lh.drop (tail + 1) ↔ x ∈ s.log.lh.drop tail) := by
      intro x hx
      rw [hdrop, List.mem_cons, or_iff_right hx]
    dsimp only at hst
    rw [assign_bwrite, hdata, hcd.2] at hst
    obtain ⟨rfl, rfl⟩ := Prod.mk.inj (Option.some.inj hst)
    have hlive' := hlive.install ht
    refine ⟨rfl, .log p (.install recovering (tail + 1)) s.log.lh, ?_, ?_, h.nodup, h.home, h.fits, h.logOps (by simp),
      log_op_iff h.alone, h.stage.2.1, hboot, hcom, rfl, ht, hset, hlive'⟩
    · have hself : v.committed s.log.lh[tail] = v.current s.log.lh[tail] := (hset _ hhome).symm
      cases recovering with
      | false =>
        have hcoh : Coherent s.log.region v.current (s.log.lh.drop tail) [] s.disk s.bc := h.coh
        have hnew : Coherent s.log.region v.current (s.log.lh.drop (tail + 1)) [] _ _ :=
          hcoh.assign hcd hvd (fun _ _ => hself) (fun hx => absurd hhome hx)
            (fun _ _ _ => (Function.update_self _ _ s.disk).trans hself) (fun _ _ => rfl)
            (fun x hx => Function.update_of_ne hx (v.committed s.log.lh[tail]) s.disk) hmem fun _ _ => Iff.rfl
        exact hnew.bunpin.relse.relse
      | true =>
        have hcoh : Coherent s.log.region v.current [] (s.log.lh.drop tail) s.disk s.bc := h.coh
        have hnew : Coherent s.log.region v.current [] (s.log.lh.drop (tail + 1)) _ _ :=
          hcoh.assign hcd hvd (fun _ _ => hself) (fun hx => absurd hhome hx)
            (fun _ _ _ => (Function.update_self _ _ s.disk).trans hself) (fun _ _ => rfl)
            (fun x hx => Function.update_of_ne hx (v.committed s.log.lh[tail]) s.disk) (fun _ _ => Iff.rfl) hmem
        exact hnew.relse.relse
    · cases recovering with
      | false =>
        have hcnt : Counted (s.log.lh.drop tail) s.waiting s.bc := h.cnt
        rw [hdrop] at hcnt
        have hc' : ((s.bc.assign dbuf (v.committed s.log.lh[tail])).buf dbuf).Caches s.log.lh[tail] := by
          rw [Bcache.assign_same]
          exact hcd
        have hnew := (hcnt.assign (i := dbuf) (v.committed s.log.lh[tail])).bunpin (h.coh.wf.setBuf rfl rfl) hc' hnot
        have h1 : (((s.bc.assign dbuf (v.committed s.log.lh[tail])).bunpin dbuf).buf lbuf).lock = some p := by
          rw [Bcache.bunpin_lock, Bcache.assign_lock, hll]
        have h2 : ((((s.bc.assign dbuf (v.committed s.log.lh[tail])).bunpin dbuf).relse lbuf).buf dbuf).lock = some p := by
          rw [Bcache.relse_of_ne _ hne, Bcache.bunpin_lock, Bcache.assign_lock, hld]
        exact (hnew.relse h1).relse h2
      | true =>
        have hcnt : Counted [] s.waiting s.bc := h.cnt
        have h1 : ((s.bc.assign dbuf (v.committed s.log.lh[tail])).buf lbuf).lock = some p := by
          rw [Bcache.assign_lock, hll]
        have h2 : (((s.bc.assign dbuf (v.committed s.log.lh[tail])).relse lbuf).buf dbuf).lock = some p := by
          rw [Bcache.relse_of_ne _ hne, Bcache.assign_lock, hld]
        exact ((hcnt.assign _).relse h1).relse h2

theorem Inv.clear (h : Inv v (.log p (.clear recovering) L) s) (hst : logPhase p s (.clear recovering) = some (o, t)) :
    o = .done ∧ ∃ k', Inv v k' t := by
  obtain ⟨hboot, hcom, hlh, hset, hlive⟩ := h.stage.2.2
  obtain ⟨i, hi, hst⟩ := Option.bind_eq_some_iff.mp hst
  obtain ⟨hc, hl, hv⟩ := h.holds hi
  have hpos : 0 < s.log.region.size := Nat.zero_lt_of_lt hlive.fits
  dsimp only at hst
  rw [assign_bwrite, hc.2] at hst
  have hlive' := hlive.erase (x := Fs.writeHead (s.bc.buf i).data s.log.lh) (by rw [readHead_writeHead, hlh])
  have hcoh : ∀ pins, pins = [] → Coherent s.log.region v.current pins [] (Function.update s.disk s.log.region.start
      (Fs.writeHead (s.bc.buf i).data s.log.lh)) ((s.bc.assign i (Fs.writeHead (s.bc.buf i).data s.log.lh)).relse i) := by
    have h0 : Coherent s.log.region v.current [] [] s.disk s.bc := by
      have := h.coh
      cases recovering <;> exact this
    rintro pins rfl
    refine Coherent.relse (h0.assign hc hv (fun hx => ?_) (fun _ => ?_) (fun hx => ?_) (fun _ _ => rfl)
      (fun x hx => Function.update_of_ne hx _ _) (fun _ _ => Iff.rfl) fun _ _ => Iff.rfl)
    · exact absurd hx (Region.start_not_home hpos)
    · exact (Function.update_self _ _ s.disk).symm
    · exact absurd hx (Region.start_not_home hpos)
  have hcnt : ∀ pins, pins = [] → Counted pins s.waiting ((s.bc.assign i (Fs.writeHead (s.bc.buf i).data s.log.lh)).relse i) := by
    have h0 : Counted [] s.waiting s.bc := by
      have := h.cnt
      cases recovering <;> exact this
    rintro pins rfl
    refine (h0.assign _).relse (p := p) ?_
    rw [Bcache.assign_lock, hl]
  cases recovering with
  | true =>
    obtain ⟨rfl, rfl⟩ := Prod.mk.inj (Option.some.inj hst)
    exact ⟨rfl, .opened, hcoh _ hlh, hcnt _ hlh, h.nodup, h.home, h.fits, h.logOps (by simp), log_left h.alone (by simp), rfl, hcom,
      hlive'⟩
  | false =>
    obtain ⟨rfl, rfl⟩ := Prod.mk.inj (Option.some.inj hst)
    exact ⟨rfl, .log p .finish [], hcoh _ rfl, hcnt _ rfl, h.nodup, h.home, h.fits, h.logOps (by simp), log_op_iff h.alone,
      h.stage.2.1, hboot, hcom, hlh, hset, hlive'⟩

theorem Inv.finish (h : Inv v (.log p .finish L) s) (hst : logPhase p s .finish = some (o, t)) : o = .done ∧ ∃ k', Inv v k' t := by
  obtain ⟨hboot, hcom, hlh, hset, hlive⟩ := h.stage.2.2
  obtain ⟨rfl, rfl⟩ := Prod.mk.inj (Option.some.inj hst)
  have hcoh : Coherent s.log.region v.current s.log.lh [] s.disk s.bc := by
    rw [hlh]
    exact h.coh
  have hcnt : Counted s.log.lh s.waiting s.bc := by
    rw [hlh]
    exact h.cnt
  refine ⟨rfl, .opened, hcoh, hcnt, h.nodup, h.home, h.fits, ?_, ?_, hboot, rfl, hlive⟩
  · refine Ops.setOp (h.ops.congr (fun q => op_wakeup_eq (by simp) (by simp)) rfl) ?_ (by simp)
    rw [Ne, op_wakeup_eq (by simp) (by simp)]
    exact h.no_active p
  · refine log_left (fun q hq ph => ?_) (by simp)
    rw [Ne, op_wakeup_eq (by simp) (by simp)]
    exact h.alone q hq ph

end Phases

section Step

variable {v : View} {k : Stage} {s t : Sys} {a : Act} {p : ℕ} {o : Out}

theorem logStep_eq_some (hst : logStep p s = some (o, t)) : ∃ ph, s.op p = .log ph ∧ logPhase p s ph = some (o, t) := by
  unfold logStep at hst
  split at hst
  · rename_i ph hop
    split_ifs at hst
    exact ⟨ph, hop, hst⟩
  · cases hst

/-- A step of the process in the code of the log. -/
theorem Inv.logStep_phase (h : Inv v k s) (hst : logStep p s = some (o, t)) :
    ∃ ph L, k = .log p ph L ∧ logPhase p s ph = some (o, t) := by
  obtain ⟨ph, hop, hst⟩ := logStep_eq_some hst
  cases k with
  | opened => exact absurd hop (h.stage.1 p ph)
  | log q ph' L =>
    obtain ⟨rfl, rfl⟩ := (h.stage.1 p ph).mp hop
    exact ⟨ph, L, rfl, hst⟩

theorem Inv.logStep (h : Inv v k s) (hst : logStep p s = some (o, t)) :
    ∃ k', Inv (v.after ⟨s, .logStep p, o, t⟩) k' t := by
  obtain ⟨ph, L, rfl, hst⟩ := h.logStep_phase hst
  have hplain : (o = .done ∧ ∃ k', Inv v k' t) → ∃ k', Inv (v.after ⟨s, .logStep p, o, t⟩) k' t := by
    rintro ⟨rfl, hk⟩
    exact hk
  cases ph with
  | readHead => exact hplain (h.readHead hst)
  | writeLog tail => exact hplain (h.writeLog hst)
  | writeHead =>
    obtain ⟨rfl, hk⟩ := h.writeHead hst
    exact hk
  | install recovering tail => exact hplain (h.install hst)
  | clear recovering => exact hplain (h.clear hst)
  | finish => exact hplain (h.finish hst)

/-- **One step.**  The invariant goes with every step of a machine whose callers keep their promise. -/
theorem inv_step (h : Inv v k s) (hok : Caller s a) (hst : Step s a o t) : ∃ k', Inv (v.after ⟨s, a, o, t⟩) k' t := by
  unfold Step step at hst
  cases a with
  | crash =>
    obtain ⟨rfl, rfl⟩ := Prod.mk.inj (Option.some.inj hst)
    exact h.crash
  | beginOp p =>
    split_ifs at hst
    exact ⟨k, h.beginOp hst⟩
  | get p b =>
    split_ifs at hst
    exact ⟨k, h.get hst⟩
  | acquire p =>
    split_ifs at hst
    exact ⟨k, h.acquire hst⟩
  | logWrite p i d =>
    split_ifs at hst
    exact ⟨k, h.logWrite hok.2 hst⟩
  | release p i =>
    split_ifs at hst
    exact ⟨k, h.release hst⟩
  | endOp p =>
    split_ifs at hst
    exact (h.endOp hok hst).2
  | logStep p =>
    split_ifs at hst
    exact h.logStep hst

end Step

end OsLabs.Xv6.Fs
