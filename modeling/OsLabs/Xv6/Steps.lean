import OsLabs.Xv6.Calls

/-!
# OsLabs.Xv6.Steps — what one step of the kernel can be

* `StepRes`, `step_inv`: the inversion of a step; a proof that something survives every step is one case for each of its
  constructors.
* `boot_inv`: the inversion of `Boot`.
-/

namespace OsLabs.Xv6

open Fallible

variable {k k' : Kernel} {p i : Slot} {o : Option ℤ} {r : ℤ}

theorem returns_ok {x : Except Panic (ℤ × Kernel)} (h : returns x = .ok (o, k')) : ∃ r, x = .ok (r, k') ∧ o = some r := by
  unfold returns at h
  rw [bind_ok] at h
  obtain ⟨⟨r, k1⟩, hx, h⟩ := h
  obtain ⟨rfl, rfl⟩ := Prod.mk.inj (Except.ok.inj h)
  exact ⟨r, hx, rfl⟩

theorem goesOn_ok {x : Except Panic Kernel} (h : goesOn x = .ok (o, k')) : x = .ok k' ∧ o = none := by
  unfold goesOn at h
  rw [bind_ok] at h
  obtain ⟨k1, hx, h⟩ := h
  obtain ⟨rfl, rfl⟩ := Prod.mk.inj (Except.ok.inj h)
  exact ⟨hx, rfl⟩

theorem sysSbrk_inv {n : ℤ} (h : sysSbrk k p n = .ok (r, k')) : ∃ r', GrowRes k p (int32 n) r' k' := by
  unfold sysSbrk at h
  rw [bind_ok] at h
  obtain ⟨⟨r', k1⟩, hg, h⟩ := h
  obtain ⟨-, rfl⟩ := Prod.mk.inj (Except.ok.inj h)
  exact ⟨r', growproc_inv hg⟩

/-- A process that is not killed gets to its call. -/
theorem step_syscall {c : Syscall} {as : List Pa} (hk : (k.proc p).killed = false) :
    step k (.syscall p c as) = syscall (k.setAnswers as) p c := by
  unfold step
  dsimp only
  rw [hk, if_neg (by simp)]

/-- The state in which a resumed call goes on: `sleep` tidied up the channel. -/
def Kernel.tidy (k : Kernel) (p : Slot) (as : List Pa) : Kernel :=
  (k.setAnswers as).setProc p { k.proc p with chan := none }

/-- Whether a call is on descriptors only. -/
def Syscall.onFiles : Syscall → Bool
  | .open _ _ | .dup _ | .close _ | .pipe _ => true
  | _ => false

/-- **What a step of the kernel can be.**  `p` is on a CPU, in user space for a trap, inside a call otherwise. -/
inductive StepRes (k : Kernel) : Action → Option ℤ → Kernel → Prop
  | scheduler {p : Slot} (hp : (k.proc p).state = .runnable) :
      StepRes k (.scheduler p) none (k.setProc p { k.proc p with state := .running })
  | yield {p : Slot} (hp : (k.proc p).state = .running) :
      StepRes k (.yield p) none (k.setProc p { k.proc p with state := .runnable })
  /-- `usertrap` sends a killed process to `exit(-1)`. -/
  | killed {p : Slot} {c : Syscall} {as : List Pa} {k' : Kernel} (hp : (k.proc p).state = .running)
      (hfr : (k.proc p).frame = .user) (hk : (k.proc p).killed = true) (hne : p ≠ k.initproc)
      (h : closeFiles (k.setAnswers as) p (.exit (-1)) = .ok k') : StepRes k (.syscall p c as) none k'
  | fault {p : Slot} {as : List Pa} {k' : Kernel} (hp : (k.proc p).state = .running) (hfr : (k.proc p).frame = .user)
      (hne : p ≠ k.initproc)
      (h : closeFiles ((k.setAnswers as).setProc p { k.proc p with killed := true }) p (.exit (-1)) = .ok k') :
      StepRes k (.fault p as) none k'
  | fork {p : Slot} {as : List Pa} {r : ℤ} {k' : Kernel} (hp : (k.proc p).state = .running)
      (hfr : (k.proc p).frame = .user) (hk : (k.proc p).killed = false) (h : ForkRes (k.setAnswers as) p r k') :
      StepRes k (.syscall p .fork as) (some r) k'
  | exec {p : Slot} {b : Bool} {as : List Pa} {o : Option ℤ} {k' : Kernel} (hp : (k.proc p).state = .running)
      (hfr : (k.proc p).frame = .user) (hk : (k.proc p).killed = false) (h : ExecBeginRes (k.setAnswers as) p o k') :
      StepRes k (.syscall p (.exec b) as) o k'
  | sbrk {p : Slot} {n : ℤ} {as : List Pa} {r r' : ℤ} {k' : Kernel} (hp : (k.proc p).state = .running)
      (hfr : (k.proc p).frame = .user) (hk : (k.proc p).killed = false)
      (h : GrowRes (k.setAnswers as) p (int32 n) r' k') : StepRes k (.syscall p (.sbrk n) as) (some r) k'
  | threadCreate {p : Slot} {fn arg retfn : ℕ} {as : List Pa} {r : ℤ} {k' : Kernel} (hp : (k.proc p).state = .running)
      (hfr : (k.proc p).frame = .user) (hk : (k.proc p).killed = false)
      (h : ThreadRes (k.setAnswers as) p fn arg retfn r k') :
      StepRes k (.syscall p (.threadCreate fn arg retfn) as) (some r) k'
  | threadJoin {p : Slot} {tid : ℤ} {as : List Pa} {o : Option ℤ} {k' : Kernel} (hp : (k.proc p).state = .running)
      (hfr : (k.proc p).frame = .user) (hk : (k.proc p).killed = false)
      (h : JoinRes (k.setAnswers as) p (int32 tid) (groupLeader k p) o k') :
      StepRes k (.syscall p (.threadJoin tid) as) o k'
  | threadExit {p : Slot} {as : List Pa} {k' : Kernel} (hp : (k.proc p).state = .running)
      (hfr : (k.proc p).frame = .user) (hk : (k.proc p).killed = false) (ht : (k.proc p).isThread = true)
      (h : closeFiles (k.setAnswers as) p .threadExit = .ok k') : StepRes k (.syscall p .threadExit as) none k'
  /-- `thread_exit` of a leader is `exit(0)`. -/
  | leaderExit {p : Slot} {as : List Pa} {k' : Kernel} (hp : (k.proc p).state = .running)
      (hfr : (k.proc p).frame = .user) (hk : (k.proc p).killed = false) (hne : p ≠ k.initproc)
      (h : closeFiles (k.setAnswers as) p (.exit 0) = .ok k') : StepRes k (.syscall p .threadExit as) none k'
  | exit {p : Slot} {st : ℤ} {as : List Pa} {k' : Kernel} (hp : (k.proc p).state = .running)
      (hfr : (k.proc p).frame = .user) (hk : (k.proc p).killed = false) (hne : p ≠ k.initproc)
      (h : closeFiles (k.setAnswers as) p (.exit (int32 st)) = .ok k') : StepRes k (.syscall p (.exit st) as) none k'
  | wait {p : Slot} {addr : ℕ} {as : List Pa} {o : Option ℤ} {k' : Kernel} (hp : (k.proc p).state = .running)
      (hfr : (k.proc p).frame = .user) (hk : (k.proc p).killed = false) (h : WaitRes (k.setAnswers as) p addr o k') :
      StepRes k (.syscall p (.wait addr) as) o k'
  | kill {p : Slot} {pid : ℤ} {as : List Pa} (hp : (k.proc p).state = .running) (hfr : (k.proc p).frame = .user)
      (hk : (k.proc p).killed = false) :
      StepRes k (.syscall p (.kill pid) as) (some (Xv6.kill (k.setAnswers as) (int32 pid)).1)
        (Xv6.kill (k.setAnswers as) (int32 pid)).2
  | file {p : Slot} {c : Syscall} {as : List Pa} {r : ℤ} {k' : Kernel} (hp : (k.proc p).state = .running)
      (hfr : (k.proc p).frame = .user) (hk : (k.proc p).killed = false) (hc : c.onFiles = true)
      (h : FileRes (k.setAnswers as) p k') : StepRes k (.syscall p c as) (some r) k'
  | resumeWait {p : Slot} {inp : ExecInput} {as : List Pa} {addr : ℕ} {o : Option ℤ} {k' : Kernel}
      (hp : (k.proc p).state = .running) (hfr : (k.proc p).frame = .wait addr) (h : WaitRes (k.tidy p as) p addr o k') :
      StepRes k (.resume p inp as) o k'
  | resumeJoin {p : Slot} {inp : ExecInput} {as : List Pa} {tid : ℤ} {l : Option Slot} {o : Option ℤ} {k' : Kernel}
      (hp : (k.proc p).state = .running) (hfr : (k.proc p).frame = .join tid l)
      (h : JoinRes (k.tidy p as) p tid l o k') : StepRes k (.resume p inp as) o k'
  | resumeExit {p : Slot} {inp : ExecInput} {as : List Pa} {st : ℤ} (hp : (k.proc p).state = .running)
      (hfr : (k.proc p).frame = .exit st) : StepRes k (.resume p inp as) none (exitEnd (k.tidy p as) p st)
  | resumeThreadExit {p : Slot} {inp : ExecInput} {as : List Pa} {k' : Kernel} (hp : (k.proc p).state = .running)
      (hfr : (k.proc p).frame = .threadExit) (h : threadExitEnd (k.tidy p as) p = .ok k') :
      StepRes k (.resume p inp as) none k'
  | resumeExec {p : Slot} {inp : ExecInput} {as : List Pa} {pt : PageTable} {sz : ℕ} {o : Option ℤ} {k' : Kernel}
      (hp : (k.proc p).state = .running) (hfr : (k.proc p).frame = .exec pt sz)
      (h : ExecRes (k.tidy p as) p pt sz o k') : StepRes k (.resume p inp as) o k'

theorem Frame.isUser_iff {fr : Frame} : fr.isUser = true ↔ fr = .user := by
  cases fr <;> simp [Frame.isUser]

theorem syscall_inv {c : Syscall} {as : List Pa} (hp : (k.proc p).state = .running) (hfr : (k.proc p).frame = .user)
    (hk : (k.proc p).killed = false) (h : syscall (k.setAnswers as) p c = .ok (o, k')) :
    StepRes k (.syscall p c as) o k' := by
  have hne : (k.proc p).state ≠ .unused := by rw [hp]; decide
  cases c with
  | fork =>
    obtain ⟨r, hx, rfl⟩ := returns_ok h
    exact .fork hp hfr hk (fork_inv hne hx)
  | exec b => exact .exec hp hfr hk (execBegin_inv h)
  | sbrk n =>
    obtain ⟨r, hx, rfl⟩ := returns_ok h
    obtain ⟨r', h⟩ := sysSbrk_inv hx
    exact .sbrk hp hfr hk h
  | threadCreate fn arg retfn =>
    obtain ⟨r, hx, rfl⟩ := returns_ok h
    exact .threadCreate hp hfr hk (threadCreate_inv hne hx)
  | threadJoin tid => exact .threadJoin hp hfr hk (joinRound_inv (k := k.setAnswers as) hp h)
  | threadExit =>
    obtain ⟨hx, rfl⟩ := goesOn_ok h
    rcases threadExit_inv hx with ⟨ht, h⟩ | ⟨hne, h⟩
    · exact .threadExit hp hfr hk ht h
    · exact .leaderExit hp hfr hk hne h
  | exit st =>
    obtain ⟨hx, rfl⟩ := goesOn_ok h
    obtain ⟨hne, h⟩ := exit_inv hx
    exact .exit hp hfr hk hne h
  | wait addr => exact .wait hp hfr hk (waitRound_inv (k := k.setAnswers as) hp h)
  | kill pid =>
    obtain ⟨rfl, rfl⟩ := Prod.mk.inj (Except.ok.inj h)
    exact .kill hp hfr hk
  | «open» path omode =>
    obtain ⟨r, hx, rfl⟩ := returns_ok h
    exact .file hp hfr hk rfl (sysOpen_inv hx)
  | dup fd =>
    obtain ⟨r, hx, rfl⟩ := returns_ok h
    exact .file hp hfr hk rfl (sysDup_inv hx)
  | close fd =>
    obtain ⟨r, hx, rfl⟩ := returns_ok h
    exact .file hp hfr hk rfl (sysClose_inv hx)
  | pipe a =>
    obtain ⟨r, hx, rfl⟩ := returns_ok h
    exact .file hp hfr hk rfl (sysPipe_inv hx)

theorem resume_inv {inp : ExecInput} {as : List Pa} (hp : (k.proc p).state = .running)
    (hfr : (k.proc p).frame ≠ .user) (h : resume (k.setAnswers as) p inp = .ok (o, k')) :
    StepRes k (.resume p inp as) o k' := by
  unfold resume at h
  simp only [Kernel.setProc_self, Kernel.setAnswers_proc] at h
  have hp' : ((k.tidy p as).proc p).state = .running := by simpa [Kernel.tidy] using hp
  split at h
  · rename_i hu
    exact absurd hu hfr
  · rename_i addr hf
    exact .resumeWait hp hf (waitRound_inv hp' h)
  · rename_i tid l hf
    exact .resumeJoin hp hf (joinRound_inv hp' h)
  · rename_i st hf
    obtain ⟨rfl, rfl⟩ := Prod.mk.inj (Except.ok.inj h)
    exact .resumeExit hp hf
  · rename_i hf
    obtain ⟨hx, rfl⟩ := goesOn_ok h
    exact .resumeThreadExit hp hf hx
  · rename_i pt sz hf
    split at h
    · exact .resumeExec hp hf (execSeg_inv h)
    · exact .resumeExec hp hf (execEnd_inv h)

/-- **Inversion of a step.** -/
theorem step_inv {a : Action} (h : Step k a o k') : StepRes k a o k' := by
  obtain ⟨hen, h⟩ := h
  cases a with
  | scheduler p =>
    obtain ⟨rfl, rfl⟩ := Prod.mk.inj (Except.ok.inj h)
    exact .scheduler (by simpa [Action.enabled] using hen)
  | yield p =>
    obtain ⟨rfl, rfl⟩ := Prod.mk.inj (Except.ok.inj h)
    exact .yield (by simpa [Action.enabled] using hen)
  | syscall p c as =>
    obtain ⟨hp, hfr⟩ : (k.proc p).state = .running ∧ (k.proc p).frame = .user := by
      simpa [Action.enabled, Frame.isUser_iff] using hen
    unfold step at h
    dsimp only at h
    split at h
    · rename_i hk
      obtain ⟨hx, rfl⟩ := goesOn_ok h
      obtain ⟨hne, h⟩ := exit_inv hx
      exact .killed hp hfr hk hne h
    · rename_i hk
      exact syscall_inv hp hfr (by simpa using hk) h
  | fault p as =>
    obtain ⟨hp, hfr⟩ : (k.proc p).state = .running ∧ (k.proc p).frame = .user := by
      simpa [Action.enabled, Frame.isUser_iff] using hen
    obtain ⟨hx, rfl⟩ := goesOn_ok h
    obtain ⟨hne, h⟩ := exit_inv hx
    exact .fault hp hfr hne h
  | resume p inp as =>
    obtain ⟨hp, hfr⟩ : (k.proc p).state = .running ∧ (k.proc p).frame.isUser = false := by
      simpa [Action.enabled] using hen
    refine resume_inv hp (fun hu => ?_) h
    rw [hu] at hfr
    cases hfr

/-! ## Boot -/

/-- The first process. -/
def Proc.first (tf : Pa) (pt : PageTable) (root : ℕ) : Proc :=
  { Proc.zero.allocated 1 tf pt with
    sz := PGSIZE, tf := { Proc.zero.tf with epc := 0, sp := PGSIZE }, cwd := some root, state := .runnable }

/-- **Inversion of boot.**  One process, made from the free pages. -/
theorem boot_inv (h : Boot k) : ∃ m0 root tf pt0 pt m1 m2 m,
    Kmem.Fresh m0 ∧ kalloc m0 = (some tf, m1) ∧ procPagetable tf m1 = .ok (some pt0, m2) ∧
    uvmfirst pt0 initcode m2 = .ok (pt, m) ∧ k.mem = m ∧ k.fs = (Kernel.zero m0).fs.iget root ∧ k.nextpid = 2 ∧
    k.proc = Function.update (fun _ => Proc.zero) k.initproc (Proc.first tf pt root) := by
  obtain ⟨m0, root, hm0, h⟩ := h
  unfold userinit at h
  rw [bind_ok] at h
  obtain ⟨⟨p, k1⟩, hal, h⟩ := h
  cases p with
  | none => cases h
  | some p =>
    cases allocproc_inv hal with
    | @ok _ tf pt0 m1 m2 hi h1 h2 =>
      simp only [Kernel.setProc_self] at h
      simp only [Proc.allocated, bind_ok] at h
      obtain ⟨⟨pt, m⟩, hu, h⟩ := h
      obtain rfl := Except.ok.inj h
      refine ⟨m0, root, tf, pt0, pt, m1, m2, m, hm0, h1, h2, hu, rfl, rfl, ?_, ?_⟩
      · show int32 (1 + 1) = 2
        decide
      · show Function.update (Function.update _ p _) p _ = _
        rw [Function.update_idem]
        rfl

end OsLabs.Xv6
