import OsLabs.Xv6.Join

/-!
# OsLabs.Xv6.Killed — a killed process in thread_join

The loop of `wait` looks at `killed` before it goes to sleep again, the loop of `thread_join` does not.

* `Kept`, `step_kept`: what the steps of others leave of a process that is not a zombie: it may be woken, and it may be killed.
* `Caught`, `caught_step`: a killed process inside `thread_join`, while the joined thread has not exited.
* `killed_joiner_sleeps_on`: it does not get out; each time it runs it goes back to sleep.
-/

namespace OsLabs.Xv6

open Lts

variable {k k' k0 : Kernel} {p i j : Slot} {o : Option ℤ} {a : Action} {r : ℤ}

/-! ## The steps of others -/

/-- What others can do to a process: wake it, kill it, change its memory or its parent. -/
structure Kept (P Q : Proc) : Prop where
  frame : Q.frame = P.frame
  killed : P.killed = true → Q.killed = true
  state : Q.state = P.state ∨ P.state = .sleeping ∧ Q.state = .runnable

theorem Kept.refl (P : Proc) : Kept P P := ⟨rfl, id, .inl rfl⟩

theorem Kept.of_eq {P Q : Proc} (h : Q = P) : Kept P Q := h ▸ .refl P

theorem Kept.trans {P Q R : Proc} (h1 : Kept P Q) (h2 : Kept Q R) : Kept P R := by
  refine ⟨h2.frame.trans h1.frame, fun h => h2.killed (h1.killed h), ?_⟩
  rcases h2.state with h2 | ⟨h2, h3⟩
  · rw [h2]
    exact h1.state
  · rcases h1.state with h1 | ⟨h1, -⟩
    · exact .inr ⟨h1 ▸ h2, h3⟩
    · exact .inr ⟨h1, h3⟩

theorem AllocRes.proc_live {np : Option Slot} (h : AllocRes k np k') (hj : (k.proc j).state ≠ .unused) :
    k'.proc j = k.proc j := by
  have hne : ∀ {i : Slot}, (k.proc i).state = .unused → j ≠ i := fun hi hji => hj (hji ▸ hi)
  cases h with
  | noSlot => rfl
  | noTrapframe hi _ _ => exact Kernel.setProc_of_ne _ _ (hne hi)
  | noPagetable hi _ _ _ => exact Kernel.setProc_of_ne _ _ (hne hi)
  | ok hi _ _ => exact Kernel.setProc_of_ne _ _ (hne hi)

theorem AllocRes.other {np : Slot} (h : AllocRes k (some np) k') (hj : j ≠ np) : k'.proc j = k.proc j := by
  cases h with
  | ok _ _ _ => exact Kernel.setProc_of_ne _ _ hj

/-- A failed `allocproc` leaves unused slots unused. -/
theorem AllocRes.stays_unused (h : AllocRes k none k') (hj : (k.proc j).state = .unused) : (k'.proc j).state = .unused := by
  cases h with
  | noSlot => exact hj
  | noTrapframe _ _ _ =>
    rw [Kernel.setProc_apply]
    split_ifs
    · rfl
    · exact hj
  | noPagetable _ _ _ _ =>
    rw [Kernel.setProc_apply]
    split_ifs
    · rfl
    · exact hj

/-- So does a slot that was taken and given up again. -/
theorem AllocRes.freed_unused {np : Slot} {m : Kmem} (h : AllocRes k (some np) k') (hj : (k.proc j).state = .unused) :
    (((k'.setMem m).setProc np (k'.proc np).freed).proc j).state = .unused := by
  rw [Kernel.setProc_apply]
  split_ifs with hn
  · rfl
  · rw [Kernel.setMem_proc, h.other hn]
    exact hj

theorem ForkRes.proc_live (h : ForkRes k p r k') (hj : (k.proc j).state ≠ .unused) : k'.proc j = k.proc j := by
  cases h with
  | noSlot ha => exact ha.proc_live hj
  | noCopy ha _ _ _ => exact (Kernel.setProc_of_ne _ _ (ha.ne hj)).trans (ha.proc_live hj)
  | ok ha _ _ _ _ => exact (Kernel.setProc_of_ne _ _ (ha.ne hj)).trans (ha.proc_live hj)

theorem ThreadRes.proc_live {fn arg retfn : ℕ} (h : ThreadRes k p fn arg retfn r k') (hj : (k.proc j).state ≠ .unused) :
    k'.proc j = k.proc j := by
  cases h with
  | noSlot ha => exact ha.proc_live hj
  | noShare ha _ _ _ _ => exact (Kernel.setProc_of_ne _ _ (ha.ne hj)).trans (ha.proc_live hj)
  | noStack ha _ _ _ _ _ => exact (Kernel.setProc_of_ne _ _ (ha.ne hj)).trans (ha.proc_live hj)
  | ok ha _ _ _ _ _ _ _ => exact (Kernel.setProc_of_ne _ _ (ha.ne hj)).trans (ha.proc_live hj)

theorem JoinRes.proc_other {tid : ℤ} {l : Option Slot} (h : JoinRes k p tid l o k') (hjp : j ≠ p)
    (hj : (k.proc j).state ≠ .zombie) : k'.proc j = k.proc j := by
  cases h with
  | gone _ => exact Kernel.setProc_of_ne _ _ hjp
  | reap _ hz _ _ => exact (Kernel.setProc_of_ne _ _ hjp).trans (Kernel.setProc_of_ne _ _ fun hjq => hj (hjq ▸ hz))
  | sleep _ _ => exact Kernel.setProc_of_ne _ _ hjp

theorem WaitRes.proc_other {addr : ℕ} (h : WaitRes k p addr o k') (hjp : j ≠ p) (hj : (k.proc j).state ≠ .zombie) :
    k'.proc j = k.proc j := by
  cases h with
  | badAddr _ _ => exact Kernel.setProc_of_ne _ _ hjp
  | reap hq _ _ _ =>
    have hjq : ∀ {q : Slot}, (k.proc q).state = .zombie → j ≠ q := fun hz hjq => hj (hjq ▸ hz)
    exact (Kernel.setProc_of_ne _ _ hjp).trans (Kernel.setProc_of_ne _ _ (hjq (zombieChild_some hq).2))
  | nobody _ => exact Kernel.setProc_of_ne _ _ hjp
  | sleep _ => exact Kernel.setProc_of_ne _ _ hjp

theorem ExecBeginRes.proc_other (h : ExecBeginRes k p o k') (hjp : j ≠ p) : k'.proc j = k.proc j := by
  cases h with
  | noHeader => rfl
  | noPagetable _ _ => rfl
  | ok _ _ => exact Kernel.setProc_of_ne _ _ hjp

theorem ExecRes.proc_other {pt : PageTable} {sz : ℕ} (h : ExecRes k p pt sz o k') (hjp : j ≠ p) : k'.proc j = k.proc j := by
  cases h with
  | skip => rfl
  | bad _ => exact Kernel.setProc_of_ne _ _ hjp
  | noMem _ _ => exact Kernel.setProc_of_ne _ _ hjp
  | badLoad _ _ _ _ => exact Kernel.setProc_of_ne _ _ hjp
  | seg _ _ _ => exact Kernel.setProc_of_ne _ _ hjp
  | noStack _ _ => exact Kernel.setProc_of_ne _ _ hjp
  | badArgs _ _ _ _ _ => exact Kernel.setProc_of_ne _ _ hjp
  | commit _ _ _ _ _ _ => exact Kernel.setProc_of_ne _ _ hjp

theorem FileRes.proc_other (h : FileRes k p k') (hjp : j ≠ p) : k'.proc j = k.proc j := by
  cases h with
  | same => rfl
  | openBad => rfl
  | openNoFd _ _ => rfl
  | «open» _ _ _ _ _ => exact Kernel.setProc_of_ne _ _ hjp
  | dup _ _ _ => exact Kernel.setProc_of_ne _ _ hjp
  | close _ _ => exact Kernel.setProc_of_ne _ _ hjp
  | noPipe _ => rfl
  | pipeBad _ _ _ _ => rfl
  | pipe _ _ _ _ => exact Kernel.setProc_of_ne _ _ hjp

theorem closeFiles_other {fr : Frame} (h : closeFiles k p fr = .ok k') (hjp : j ≠ p) : k'.proc j = k.proc j := by
  obtain ⟨fs, m, -, rfl⟩ := closeFiles_inv h
  exact Kernel.setProc_of_ne _ _ hjp

theorem tidy_other (k : Kernel) (as : List Pa) (hjp : j ≠ p) : (k.tidy p as).proc j = k.proc j :=
  Kernel.setProc_of_ne _ _ hjp

theorem PtOnly.kept (h : PtOnly k k') : Kept (k.proc j) (k'.proc j) := by
  obtain ⟨f, m, rfl⟩ := h
  exact ⟨rfl, id, .inl rfl⟩

theorem setGroupSz_kept (k : Kernel) (l : Slot) (sz : ℕ) : Kept (k.proc j) ((setGroupSz k l sz).proc j) := by
  simp only [setGroupSz]
  split_ifs
  · exact ⟨rfl, id, .inl rfl⟩
  · exact .refl _

theorem GrowRes.kept {n : ℤ} (h : GrowRes k p n r k') : Kept (k.proc j) (k'.proc j) := by
  cases h with
  | zero _ => exact .refl _
  | nullGrow _ _ _ _ => exact .refl _
  | nullShrink _ _ _ => exact setGroupSz_kept _ _ _
  | noMem _ _ _ _ => exact (PtOnly.setPt k _ _ _).kept
  | grow _ _ _ _ _ hb => exact ((PtOnly.setPt k _ _ _).trans (broadcast_ptOnly hb)).kept.trans (setGroupSz_kept _ _ _)
  | shrink _ _ _ _ hb => exact ((PtOnly.setPt k _ _ _).trans (unbroadcast_ptOnly hb)).kept.trans (setGroupSz_kept _ _ _)

theorem wakeup_kept (k : Kernel) (self : Slot) (c : Option Slot) : Kept (k.proc j) ((wakeup k self c).proc j) := by
  simp only [wakeup]
  split_ifs with h
  · exact ⟨rfl, id, .inr ⟨h.2.1, rfl⟩⟩
  · exact .refl _

theorem reparent_kept (k : Kernel) (p : Slot) : Kept (k.proc j) ((reparent k p).proc j) := by
  have hk : ∀ k1 : Kernel, (∀ i, k1.proc i =
      (if (k.proc i).parent = some p then { k.proc i with parent := some k.initproc } else k.proc i)) →
      Kept (k.proc j) (k1.proc j) := by
    intro k1 h1
    rw [h1 j]
    split_ifs
    · exact ⟨rfl, id, .inl rfl⟩
    · exact .refl _
  unfold reparent
  dsimp only
  split_ifs
  · exact (hk _ fun _ => rfl).trans (wakeup_kept _ _ _)
  · exact hk _ fun _ => rfl

theorem exitEnd_kept {st : ℤ} (hjp : j ≠ p) : Kept (k.proc j) ((exitEnd k p st).proc j) := by
  unfold exitEnd
  dsimp only
  rw [Kernel.setProc_of_ne _ _ hjp]
  exact (reparent_kept k p).trans (wakeup_kept _ _ _)

theorem threadExitEnd_kept (h : threadExitEnd k p = .ok k') (hjp : j ≠ p) : Kept (k.proc j) (k'.proc j) := by
  obtain ⟨P, m, hr, rfl⟩ := threadExitEnd_inv h
  exact (Kept.of_eq (Kernel.setProc_of_ne _ _ hjp)).trans (wakeup_kept _ _ _)

theorem kill_kept {pid : ℤ} : Kept (k.proc j) ((kill k pid).2.proc j) := by
  unfold kill
  split
  · exact .refl _
  dsimp only
  rw [Kernel.setProc_apply]
  split_ifs with hj hs
  · subst hj
    exact ⟨rfl, fun _ => rfl, .inr ⟨hs, rfl⟩⟩
  · subst hj
    exact ⟨rfl, fun _ => rfl, .inl rfl⟩
  · exact .refl _

/-- The slot whose process takes the action. -/
def Action.slot : Action → Slot
  | .scheduler p | .yield p | .syscall p _ _ | .fault p _ | .resume p _ _ => p

/-- What a step can do to the process in slot `j` that does not take it. -/
inductive OtherStep (k : Kernel) (a : Action) (j : Slot) (k' : Kernel) : Prop
  | same (h : k'.proc j = k.proc j)
  | grow {n r : ℤ} {as : List Pa} (h : GrowRes (k.setAnswers as) a.slot n r k')
  | kill {pid : ℤ} {as : List Pa} (h : k' = (Xv6.kill (k.setAnswers as) pid).2)
  | exit {st : ℤ} {as : List Pa} (hp : (k.proc a.slot).state = .running) (h : k' = exitEnd (k.tidy a.slot as) a.slot st)
  | threadExit {as : List Pa} (h : threadExitEnd (k.tidy a.slot as) a.slot = .ok k')

/-- A process that does not take the step and is not a zombie stays as it is, but for `growproc`, `kill` and the end of another process. -/
theorem step_other (h : Step k a o k') (hj : j ≠ a.slot) (hu : (k.proc j).state ≠ .unused) (hz : (k.proc j).state ≠ .zombie) :
    OtherStep k a j k' := by
  cases step_inv h with
  | scheduler _ => exact .same (Kernel.setProc_of_ne _ _ hj)
  | yield _ => exact .same (Kernel.setProc_of_ne _ _ hj)
  | @killed _ _ as _ _ _ _ _ h => exact .same (closeFiles_other (k := k.setAnswers as) h hj)
  | fault _ _ _ h => exact .same ((closeFiles_other h hj).trans (Kernel.setProc_of_ne _ _ hj))
  | fork _ _ _ h => exact .same (h.proc_live hu)
  | exec _ _ _ h => exact .same (h.proc_other hj)
  | sbrk _ _ _ h => exact .grow h
  | threadCreate _ _ _ h => exact .same (h.proc_live hu)
  | threadJoin _ _ _ h => exact .same (h.proc_other hj hz)
  | @threadExit _ as _ _ _ _ _ h => exact .same (closeFiles_other (k := k.setAnswers as) h hj)
  | @leaderExit _ as _ _ _ _ _ h => exact .same (closeFiles_other (k := k.setAnswers as) h hj)
  | @exit _ _ as _ _ _ _ _ h => exact .same (closeFiles_other (k := k.setAnswers as) h hj)
  | wait _ _ _ h => exact .same (h.proc_other hj hz)
  | kill _ _ _ => exact .kill rfl
  | file _ _ _ _ h => exact .same (h.proc_other hj)
  | @resumeWait q _ as _ _ _ _ _ h =>
    have ht : (k.tidy q as).proc j = k.proc j := tidy_other k as hj
    exact .same ((h.proc_other hj (ht ▸ hz)).trans ht)
  | @resumeJoin q _ as _ _ _ _ _ _ h =>
    have ht : (k.tidy q as).proc j = k.proc j := tidy_other k as hj
    exact .same ((h.proc_other hj (ht ▸ hz)).trans ht)
  | resumeExit hp _ => exact .exit hp rfl
  | resumeThreadExit _ _ h => exact .threadExit h
  | resumeExec _ _ h => exact .same ((h.proc_other hj).trans (tidy_other k _ hj))

/-- **What a step leaves of a process that does not take it** and is not a zombie. -/
theorem step_kept (h : Step k a o k') (hj : j ≠ a.slot) (hu : (k.proc j).state ≠ .unused) (hz : (k.proc j).state ≠ .zombie) :
    Kept (k.proc j) (k'.proc j) := by
  cases step_other h hj hu hz with
  | same h => exact .of_eq h
  | grow h => exact h.kept
  | @kill _ as h =>
    subst h
    exact kill_kept (k := k.setAnswers as)
  | exit _ h =>
    subst h
    exact (Kept.of_eq (tidy_other k _ hj)).trans (exitEnd_kept hj)
  | threadExit h => exact (Kept.of_eq (tidy_other k _ hj)).trans (threadExitEnd_kept h hj)

/-! ## A killed joiner -/

/-- The thread that `thread_join(tid)` looks for is there and has not exited. -/
def Unexited (tid : ℤ) (l : Option Slot) (k : Kernel) : Prop :=
  ∃ q, joinTarget k tid l = some q ∧ (k.proc q).state ≠ .zombie

/-- A killed process inside `thread_join(tid)`. -/
structure Caught (tid : ℤ) (l : Option Slot) (p : Slot) (k : Kernel) : Prop where
  frame : (k.proc p).frame = .join tid l
  killed : (k.proc p).killed = true
  state : (k.proc p).state = .sleeping ∨ (k.proc p).state = .runnable ∨ (k.proc p).state = .running

section Joiner

variable {tid : ℤ} {l : Option Slot}

/-- **A round of `thread_join`** by a killed process: back to sleep, without a look at the mark. -/
theorem caught_resume {inp : ExecInput} {as : List Pa} (hc : Caught tid l p k) (hx : Unexited tid l k)
    (h : Step k (.resume p inp as) o k') : o = none ∧ (k'.proc p).state = .sleeping ∧ Caught tid l p k' := by
  obtain ⟨q, hq, hz⟩ := hx
  have hfr := hc.frame
  cases step_inv h with
  | resumeJoin hp hfr' h =>
    obtain ⟨rfl, rfl⟩ := Frame.join.inj (hfr.symm.trans hfr')
    have hq' : joinTarget (k.tidy p as) tid l = some q := by rw [joinTarget_tidy, hq]
    have hzt : ((k.tidy p as).proc q).state ≠ .zombie := by
      rw [Kernel.tidy, Kernel.setProc_apply]
      split_ifs with hqp
      · exact hqp ▸ hz
      · exact hz
    cases h with
    | gone hn => exact absurd (hn.symm.trans hq') (by simp)
    | reap hq'' hz' _ _ =>
      rw [Option.some.inj (hq''.symm.trans hq')] at hz'
      exact absurd hz' hzt
    | sleep hq'' _ =>
      refine ⟨rfl, by rw [Kernel.setProc_self], ?_, ?_, .inl ?_⟩
      · rw [Kernel.setProc_self]
      · rw [Kernel.setProc_self, Kernel.tidy, Kernel.setProc_self]
        exact hc.killed
      · rw [Kernel.setProc_self]
  | resumeWait _ hfr' _ => exact absurd (hfr'.symm.trans hfr) (by simp)
  | resumeExit _ hfr' => exact absurd (hfr'.symm.trans hfr) (by simp)
  | resumeThreadExit _ hfr' _ => exact absurd (hfr'.symm.trans hfr) (by simp)
  | resumeExec _ hfr' _ => exact absurd (hfr'.symm.trans hfr) (by simp)

/-- **Step lemma.**  A killed joiner stays in `thread_join` while the joined thread has not exited. -/
theorem caught_step (hc : Caught tid l p k) (hx : Unexited tid l k) (h : Step k a o k') : Caught tid l p k' := by
  by_cases hp : p = a.slot
  · -- its own steps: the scheduler, the timer, and the loop itself
    cases a with
    | scheduler q =>
      obtain rfl : p = q := hp
      cases step_inv h with
      | scheduler _ => exact ⟨by rw [Kernel.setProc_self]; exact hc.frame, by rw [Kernel.setProc_self]; exact hc.killed,
          by rw [Kernel.setProc_self]; exact .inr (.inr rfl)⟩
    | yield q =>
      obtain rfl : p = q := hp
      cases step_inv h with
      | yield _ => exact ⟨by rw [Kernel.setProc_self]; exact hc.frame, by rw [Kernel.setProc_self]; exact hc.killed,
          by rw [Kernel.setProc_self]; exact .inr (.inl rfl)⟩
    | syscall q c as =>
      obtain rfl : p = q := hp
      have hen := h.1
      simp [Action.enabled, hc.frame, Frame.isUser] at hen
    | fault q as =>
      obtain rfl : p = q := hp
      have hen := h.1
      simp [Action.enabled, hc.frame, Frame.isUser] at hen
    | resume q inp as =>
      obtain rfl : p = q := hp
      exact (caught_resume hc hx h).2.2
  · have hlive : (k.proc p).state ≠ .unused ∧ (k.proc p).state ≠ .zombie := by
      rcases hc.state with hs | hs | hs <;> rw [hs] <;> decide
    have hk := step_kept h hp hlive.1 hlive.2
    refine ⟨hk.frame.trans hc.frame, hk.killed hc.killed, ?_⟩
    rcases hk.state with hs | ⟨-, hs⟩
    · rw [hs]
      exact hc.state
    · exact .inr (.inl hs)

/-- **A killed joiner does not give up.**  In every run from a state in which a killed process is inside `thread_join(tid)`, as long as the
joined thread has not exited: each time the process runs, `thread_join` goes back to sleep instead of returning, and in the end the process
is still inside. -/
theorem killed_joiner_sleeps_on {tr : Trace} (hc : Caught tid l p k) (hr : Run Step (fun k _ => Unexited tid l k) k tr k') :
    (∀ e ∈ tr, ∀ inp as, e.act = .resume p inp as → e.out = none ∧ (e.post.proc p).state = .sleeping ∧
      (e.post.proc p).killed = true) ∧ Caught tid l p k' := by
  have hI : ∀ x a o y, Caught tid l p x → Unexited tid l x → Step x a o y → Caught tid l p y :=
    fun _ _ _ _ hc hx hs => caught_step hc hx hs
  refine ⟨fun e he inp as ha => ?_, hr.inv hc hI⟩
  obtain ⟨⟨tr', hr'⟩, hx, hs⟩ := hr.forall_ev e he
  rw [ha] at hs
  obtain ⟨ho, hsl, hc'⟩ := caught_resume (hr'.inv hc hI) hx hs
  exact ⟨ho, hsl, hc'.killed⟩

end Joiner

instance (tid : ℤ) (l : Option Slot) (k : Kernel) : Decidable (Unexited tid l k) :=
  inferInstanceAs (Decidable (∃ q, joinTarget k tid l = some q ∧ (k.proc q).state ≠ .zombie))

/-- A child of the first process joins a thread it made; the first process kills it. -/
def killJoiner : List Action :=
  startInit ++ [.syscall 0 .fork (pages 50 20), .scheduler 1, .syscall 1 (.threadCreate 0 0 0) (pages 70 20),
    .syscall 1 (.threadJoin 3) [], .syscall 0 (.kill 2) []]

theorem killed_joiner_sleeps_on_run : ∃ k tr k', Reach Step always Boot k ∧ Caught 3 (some 1) 1 k ∧
    Run Step (fun k _ => Unexited 3 (some 1) k) k tr k' ∧ tr.length = 2 ∧
    (∀ e ∈ tr, ∀ inp as, e.act = .resume 1 inp as → e.out = none ∧ (e.post.proc 1).state = .sleeping ∧
      (e.post.proc 1).killed = true) ∧ Caught 3 (some 1) 1 k' := by
  have hrun : (execute stepOpt (fun k _ => Unexited 3 (some 1) k) (endOf small killJoiner)
      [.scheduler 1, .resume 1 (.done 0 []) []]).any (fun x => decide (x.1.length = 2)) = true := by decide +kernel
  obtain ⟨hreach, hfr, hkd, hst⟩ := endOf_reach small_boot killJoiner
    (fun k => (k.proc 1).frame.tag = .join 3 (some 1) ∧ (k.proc 1).killed = true ∧ (k.proc 1).state = .runnable)
    (by decide +kernel)
  have hc : Caught 3 (some 1) 1 (endOf small killJoiner) := ⟨Frame.tag_join.mp hfr, hkd, .inr (.inl hst)⟩
  obtain ⟨tr, k', hr, hlen⟩ := exists_run _ _ _ (fun tr _ => tr.length = 2) hrun
  exact ⟨_, tr, k', hreach, hc, hr, hlen, killed_joiner_sleeps_on hc hr⟩

/-- The killed process runs once more and goes back to sleep, while the joined thread has not even started. -/
theorem killed_joiner_sleeps_again : ¬ ∀ (k k' : Kernel) (p : Slot) (tid : ℤ) (l : Option Slot) (inp : ExecInput) (as : List Pa)
    (o : Option ℤ), Reach Step always Boot k → Caught tid l p k → Unexited tid l k → Step k (.resume p inp as) o k' → o ≠ none := by
  intro hall
  obtain ⟨hreach, hfr, hkd, hst, hx, hs⟩ := endOf_reach small_boot (killJoiner ++ [.scheduler 1])
    (fun k => (k.proc 1).frame.tag = .join 3 (some 1) ∧ (k.proc 1).killed = true ∧ (k.proc 1).state = .running ∧
      Unexited 3 (some 1) k ∧ (stepOpt k (.resume 1 (.done 0 []) [])).any (fun r => r.1.isNone) = true)
    (by decide +kernel)
  have hc : Caught 3 (some 1) 1 (endOf small (killJoiner ++ [.scheduler 1])) := ⟨Frame.tag_join.mp hfr, hkd, .inr (.inr hst)⟩
  cases hr : stepOpt (endOf small (killJoiner ++ [.scheduler 1])) (.resume 1 (.done 0 []) []) with
  | none =>
    rw [hr] at hs
    cases hs
  | some r =>
    rw [hr] at hs
    exact hall _ r.2 1 3 (some 1) (.done 0 []) [] r.1 hreach hc hx (stepOpt_step hr) (Option.isNone_iff_eq_none.mp hs)

end OsLabs.Xv6
