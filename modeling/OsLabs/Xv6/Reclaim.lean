import OsLabs.Xv6.Total
import OsLabs.Xv6.Machine

/-!
# OsLabs.Xv6.Reclaim — what `thread_join` gives back of a thread

* `JoinCall`: the two ways into the loop of `thread_join`, the call itself and the return from its sleep.
* `join_panics`, `join_reaps`: a zombie with a page above its size makes `freewalk` panic; any other one gives back its trapframe page and
  the pages of its page table, and nothing else.
* `exited_not_reclaimed`: the stack of a thread that ended through `exit` is never given back.
-/

namespace OsLabs.Xv6

open Fallible Lts

variable {k k' : Kernel} {p q : Slot} {pt : PageTable} {e : ℕ} {tid : ℤ} {l : Option Slot} {a : Action} {o : Option ℤ}

/-- `p` takes a round of `thread_join(tid)` with the local `leader = l`. -/
inductive JoinCall (k : Kernel) (p : Slot) (tid : ℤ) (l : Option Slot) : Action → Prop
  | call {t : ℤ} {as : List Pa} (hp : (k.proc p).state = .running) (hfr : (k.proc p).frame = .user)
      (hk : (k.proc p).killed = false) (ht : int32 t = tid) (hl : groupLeader k p = l) :
      JoinCall k p tid l (.syscall p (.threadJoin t) as)
  | again {inp : ExecInput} {as : List Pa} (hp : (k.proc p).state = .running) (hfr : (k.proc p).frame = .join tid l) :
      JoinCall k p tid l (.resume p inp as)

/-- A round runs in a state that differs in what `kalloc` will answer and in the channel of the caller only. -/
theorem JoinCall.round (h : JoinCall k p tid l a) : ∃ k1, step k a = joinRound k1 p tid l ∧ (k1.proc p).state = .running ∧
    joinTarget k1 tid l = joinTarget k tid l ∧ k1.mem.free = k.mem.free ∧ (∀ e, k.mem.OkAt e → k1.mem.OkAt e) ∧
    (∀ q, q ≠ p → k1.proc q = k.proc q) ∧ ∃ c, k1.proc p = { k.proc p with chan := c } := by
  cases h with
  | @call t as hp hfr hk ht hl =>
    refine ⟨k.setAnswers as, ?_, hp, rfl, rfl, fun e h => h, fun q _ => rfl, (k.proc p).chan, rfl⟩
    rw [step_syscall hk]
    show joinRound _ p (int32 t) (groupLeader k p) = _
    rw [ht, hl]
  | @again inp as hp hfr =>
    refine ⟨k.tidy p as, ?_, by simpa [Kernel.tidy] using hp, joinTarget_tidy k p as tid l, rfl, fun e h => h,
      fun q hq => Kernel.setProc_of_ne _ _ hq, none, Kernel.setProc_self _ _ _⟩
    show resume (k.setAnswers as) p inp = _
    unfold resume
    simp only [Kernel.setProc_self, Kernel.setAnswers_proc]
    split <;> rename_i hf <;> rw [hfr] at hf <;> cases hf
    rfl

/-- A round that finds a zombie collects it. -/
theorem JoinCall.collects (h : JoinCall k p tid l a) (ht : joinTarget k tid l = some q) (hz : (k.proc q).state = .zombie) :
    ∃ k1, step k a = (do
      let k2 ← freeprocThread k1 q
      .ok (some (k.proc q).tid, k2.setProc p { k2.proc p with frame := .user })) ∧
    k1.mem.free = k.mem.free ∧ (∀ e, k.mem.OkAt e → k1.mem.OkAt e) ∧ k1.proc q = k.proc q ∧ p ≠ q ∧
    (∀ i, i ≠ p → k1.proc i = k.proc i) ∧ ∃ c, k1.proc p = { k.proc p with chan := c } := by
  have hpq : q ≠ p := by
    rintro rfl
    cases h with
    | call hp => simp [hz] at hp
    | again hp => simp [hz] at hp
  obtain ⟨k1, hstep, hp1, htgt, hfree, hok, hproc, hp⟩ := h.round
  have hq := hproc q hpq
  refine ⟨k1, ?_, hfree, hok, hq, Ne.symm hpq, hproc, hp⟩
  rw [hstep]
  unfold joinRound
  rw [htgt, ht]
  dsimp only
  rw [hq, if_pos hz]

/-- **A page above the size.**  `freewalk` finds it. -/
theorem join_panics (h : JoinCall k p tid l a) (ht : joinTarget k tid l = some q) (hz : (k.proc q).state = .zombie) (hf : k.Fine e)
    (hpt : (k.proc q).pagetable = some pt) {v : ℕ} (h1 : npages (k.proc q).sz ≤ v) (h2 : v < tfPage) (hv : pt.pte v ≠ none) :
    step k a = .error .freewalkLeaf := by
  obtain ⟨k1, hstep, -, -, hq, -⟩ := h.collects ht hz
  rw [hstep, freeprocThread_leaf (e := e) (v := v) (by rw [hq]; exact hf q) (hq ▸ hpt) (by rwa [hq]) h2 hv]
  rfl

/-- **No page above the size.**  The trapframe page and the pages of the table are free, the slot is. -/
theorem join_reaps (h : JoinCall k p tid l a) (ht : joinTarget k tid l = some q) (hz : (k.proc q).state = .zombie) (hf : k.Fine e)
    (hm : k.mem.OkAt e) (hpt : (k.proc q).pagetable = some pt) (hnone : ∀ v, npages (k.proc q).sz ≤ v → v < tfPage → pt.pte v = none) :
    ∃ k', step k a = .ok (some (k.proc q).tid, k') := by
  obtain ⟨k1, hstep, -, hok, hq, -⟩ := h.collects ht hz
  obtain ⟨k2, h2⟩ := freeprocThread_total (k := k1) (i := q) (by rw [hq]; exact hf q) (hok e hm) (hq ▸ hpt)
    (by rwa [hq])
  exact ⟨_, by rw [hstep, h2, ok_bind]⟩

/-- What a round that collects a zombie gives back. -/
theorem join_gives (h : JoinCall k p tid l a) (ht : joinTarget k tid l = some q) (hz : (k.proc q).state = .zombie) (hf : k.Fine e)
    (hpt : (k.proc q).pagetable = some pt) (hs : step k a = .ok (o, k')) (x : Pa) :
    k'.mem.free x = k.mem.free x + onePage (k.proc q).trapframe x + pt.tab x := by
  obtain ⟨k1, hstep, hfree, -, hq, -⟩ := h.collects ht hz
  rw [hstep, bind_ok] at hs
  obtain ⟨k2, h2, hs⟩ := hs
  obtain ⟨-, rfl⟩ := Prod.mk.inj (Except.ok.inj hs)
  obtain ⟨m, hmem, rfl⟩ := freeprocThread_inv h2
  rw [hq] at hmem
  have hx := hmem.held (fun y hy => ((hf q).table y hy).shaped) x
  rwa [hfree, hpt] at hx

/-- What a round that collects a zombie does to the process table. -/
theorem join_frees (h : JoinCall k p tid l a) (ht : joinTarget k tid l = some q) (hz : (k.proc q).state = .zombie)
    (hs : step k a = .ok (o, k')) : k'.proc q = (k.proc q).freedThread ∧ (∀ i, i ≠ q → i ≠ p → k'.proc i = k.proc i) ∧
    ∃ c, k'.proc p = { k.proc p with chan := c, frame := .user } := by
  obtain ⟨k1, hstep, -, -, hq, hpq, hother, c, hp⟩ := h.collects ht hz
  rw [hstep, bind_ok] at hs
  obtain ⟨k2, h2, hs⟩ := hs
  obtain ⟨-, rfl⟩ := Prod.mk.inj (Except.ok.inj hs)
  obtain ⟨m, -, rfl⟩ := freeprocThread_inv h2
  refine ⟨?_, fun i hi hip => ?_, c, ?_⟩
  · rw [Kernel.setProc_of_ne _ _ (Ne.symm hpq), Kernel.setProc_self, hq]
  · rw [Kernel.setProc_of_ne _ _ hip, Kernel.setProc_of_ne _ _ hi, Kernel.setMem_proc, hother i hip]
  · rw [Kernel.setProc_self, Kernel.setProc_of_ne _ _ hpq, Kernel.setMem_proc, hp]

/-! ## Threads that end through exit -/

/-- Thread `q` ended through `exit`: by its own call, killed, or by a trap. -/
structure Exited (k : Kernel) (q : Slot) : Prop where
  thread : (k.proc q).isThread = true
  zombie : (k.proc q).state = .zombie
  exit : ∃ st, (k.proc q).frame = .exit st

/-- The round returns the thread, and gives back its trapframe page, the pages of its page table and one more page, its stack. -/
def Reclaims (k : Kernel) (a : Action) (q : Slot) : Prop :=
  ∃ k' pt s, step k a = .ok (some (k.proc q).tid, k') ∧ (k.proc q).pagetable = some pt ∧
    ∀ x, k'.mem.free x = k.mem.free x + onePage (k.proc q).trapframe x + pt.tab x + single s x

/-- **A thread that ended through `exit` is never reclaimed**: `thread_join` panics in `freewalk` where the stack is still mapped, and
returns without it where the heap has grown over it. -/
theorem exited_not_reclaimed (hr : Reach Step always Boot k) (h : JoinCall k p tid l a) (ht : joinTarget k tid l = some q)
    (hx : Exited k q) : ¬ Reclaims k a q := by
  rintro ⟨k', pt, s, hs, hpt, hall⟩
  obtain ⟨e, -, hf⟩ := fine_reach hr
  have h1 := join_gives h ht hx.zombie hf hpt hs s
  have h2 := hall s
  have h3 : single s s = 1 := if_pos rfl
  omega

/-- The first process makes a thread, which calls `exit`. -/
def exitedThread : List Action :=
  startInit ++ [.syscall 0 (.threadCreate 0 0 0) (pages 50 20), .scheduler 1, .syscall 1 (.exit 0) [], .resume 1 (.done 0 []) []]

theorem Frame.tag_exit {fr : Frame} (h : fr.tag = .exit) : ∃ st, fr = .exit st := by
  cases fr with
  | exit st => exact ⟨st, rfl⟩
  | _ => cases h

theorem Frame.tag_user {fr : Frame} (h : fr.tag = .user) : fr = .user := by
  cases fr with
  | user => rfl
  | _ => cases h

theorem exited_not_reclaimed_run : ∃ k a, Reach Step always Boot k ∧ JoinCall k 0 2 (some 0) a ∧
    joinTarget k 2 (some 0) = some 1 ∧ Exited k 1 ∧ ¬ Reclaims k a 1 := by
  obtain ⟨hreach, hp, hfr, hk, hl, htgt, hthr, hz, hx⟩ := endOf_reach small_boot exitedThread
    (fun k => (k.proc 0).state = .running ∧ (k.proc 0).frame.tag = .user ∧ (k.proc 0).killed = false ∧ groupLeader k 0 = some 0 ∧
      joinTarget k 2 (some 0) = some 1 ∧ (k.proc 1).isThread = true ∧ (k.proc 1).state = .zombie ∧ (k.proc 1).frame.tag = .exit)
    (by decide +kernel)
  have hj : JoinCall (endOf small exitedThread) 0 2 (some 0) (.syscall 0 (.threadJoin 2) []) :=
    .call hp (Frame.tag_user hfr) hk (by decide) hl
  have hex : Exited (endOf small exitedThread) 1 := ⟨hthr, hz, Frame.tag_exit hx⟩
  exact ⟨_, _, hreach, hj, htgt, hex, exited_not_reclaimed hreach hj htgt hex⟩

/-- The first process joins the thread that called `exit`: `freewalk` panics. -/
theorem join_exited_panics : ¬ ∀ (k : Kernel) (p q : Slot) (tid : ℤ) (l : Option Slot) (a : Action), Reach Step always Boot k →
    JoinCall k p tid l a → joinTarget k tid l = some q → Exited k q → Reclaims k a q := by
  intro hall
  obtain ⟨hreach, hp, hfr, hk, hl, htgt, hthr, hz, hx, hs⟩ := endOf_reach small_boot exitedThread
    (fun k => (k.proc 0).state = .running ∧ (k.proc 0).frame.tag = .user ∧ (k.proc 0).killed = false ∧ groupLeader k 0 = some 0 ∧
      joinTarget k 2 (some 0) = some 1 ∧ (k.proc 1).isThread = true ∧ (k.proc 1).state = .zombie ∧ (k.proc 1).frame.tag = .exit ∧
      (step k (.syscall 0 (.threadJoin 2) [])).isOk = false)
    (by decide +kernel)
  obtain ⟨k', pt, s, hstep, -⟩ := hall (endOf small exitedThread) 0 1 2 (some 0) (.syscall 0 (.threadJoin 2) []) hreach
    (.call hp (Frame.tag_user hfr) hk (by decide) hl) htgt ⟨hthr, hz, Frame.tag_exit hx⟩
  rw [hstep] at hs
  cases hs

end OsLabs.Xv6
