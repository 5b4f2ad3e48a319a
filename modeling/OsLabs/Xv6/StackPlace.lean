import OsLabs.Xv6.CleanFail
import OsLabs.Xv6.Join

/-!
# OsLabs.Xv6.StackPlace — where `thread_create` puts a stack

The stack page of a thread lies `1 + 2 * pid` pages below `TRAPFRAME`, computed in `uint64`.  The pid comes from a counter that never
starts over before it overflows, and the heap grows from below; nothing compares the two.

* `stackBase_eq`: the address as an integer modulo `2 ^ 64`.
* `stacks_reach`: the recorded stack of a thread is where its pid puts it.
* `threadCreate_mild`: with room for the stack no `walk` and no `mappages` of the call panics.
* `threadCreate_fits_iff`: there is room exactly when the counter is small enough and not in use again.
-/

namespace OsLabs.Xv6

open Fallible Lts

variable {m : Kmem} {pt : PageTable} {k k' : Kernel} {p np l : Slot} {o : Option ℤ}

/-! ## The address -/

theorem TRAPFRAME_eq : TRAPFRAME = 274877898752 := by decide

/-- `base` modulo `2 ^ 64`. -/
theorem stackBase_eq (pid : ℤ) : (stackBase pid : ℤ) = (TRAPFRAME - (1 + 2 * pid) * PGSIZE) % 2 ^ 64 := by
  unfold stackBase add64 sub64 u64
  rw [TRAPFRAME_eq, show PGSIZE = 4096 from rfl]
  omega

/-- A value of a C `int`. -/
def IsInt (x : ℤ) : Prop := -(2 ^ 31) ≤ x ∧ x < 2 ^ 31

theorem isInt_int32 (x : ℤ) : IsInt (int32 x) := by
  simp only [IsInt, int32]
  omega

/-- Two pids put their stacks more than a page apart. -/
theorem stackBase_apart {a b : ℤ} (ha : IsInt a) (hb : IsInt b) (hab : a ≠ b) :
    stackBase a + PGSIZE < stackBase b ∨ stackBase b + PGSIZE < stackBase a := by
  have h1 := stackBase_eq a
  have h2 := stackBase_eq b
  rw [TRAPFRAME_eq, show PGSIZE = 4096 from rfl] at h1 h2
  unfold IsInt at ha hb
  rw [show PGSIZE = 4096 from rfl]
  omega

/-! ## Recorded stacks -/

/-- The pid is an `int`, and the stack, where there is one, is where the pid puts it. -/
def Proc.StackOk (P : Proc) : Prop :=
  IsInt P.pid ∧ (P.state ≠ .unused → P.size ≠ 0 → P.start = stackBase P.pid ∧ P.size = PGSIZE)

def Kernel.Stacks (k : Kernel) : Prop := IsInt k.nextpid ∧ ∀ i, (k.proc i).StackOk

theorem step_stacks {a : Action} (hs : Step k a o k') (h : k.Stacks) : k'.Stacks := by
  constructor
  · obtain ⟨t, ht, -⟩ := step_tab hs
    show IsInt k'.tab.nextpid
    rcases ht.nextpid_eq with heq | ⟨-, heq⟩
    · rw [heq]
      exact h.1
    · rw [heq]
      exact isInt_int32 _
  · intro i
    obtain ⟨hpid, hst⟩ := h.2 i
    rcases step_change hs i with he | ⟨hu, -, h0⟩ | ⟨-, -, -, hnew, hst'⟩
    · refine ⟨he.pid ▸ hpid, fun hu hsz => ?_⟩
      rcases he.stack with ⟨hstart, hsize⟩ | ⟨-, h0⟩
      · rw [hstart, hsize, he.pid]
        exact hst (fun h => hu (he.unused.mpr h)) (hsize ▸ hsz)
      · exact absurd h0 hsz
    · refine ⟨?_, fun h => absurd hu h⟩
      rw [h0]
      simp [IsInt]
    · refine ⟨hnew ▸ h.1, fun _ hsz => ?_⟩
      rw [hnew]
      exact hst'.resolve_left hsz

theorem boot_stacks (h : Boot k) : k.Stacks := by
  obtain ⟨m0, root, tf, pt0, pt, m1, m2, m, -, -, -, -, -, -, hn, hp⟩ := boot_inv h
  refine ⟨by rw [hn]; simp [IsInt], fun i => ?_⟩
  rw [hp, Function.update_apply]
  split_ifs
  · exact ⟨by simp [IsInt, Proc.first, Proc.allocated], fun _ hsz => absurd rfl hsz⟩
  · exact ⟨by simp [IsInt, Proc.zero], fun hu => absurd rfl hu⟩

/-- **The recorded stack of every process is where its pid puts it**, in every reachable state. -/
theorem stacks_reach {ok : Kernel → Action → Prop} (h : Reach Step ok Boot k) : k.Stacks :=
  h.inv (fun _ => boot_stacks) fun _ _ _ _ h _ hs => step_stacks hs h

/-! ## Panics -/

/-- Neither the panic of `walk` nor the remap panic of `mappages`. -/
def Mild (e : Panic) : Prop := e ≠ .walk ∧ e ≠ .mappagesRemap

instance (e : Panic) : Decidable (Mild e) := inferInstanceAs (Decidable (e ≠ .walk ∧ e ≠ .mappagesRemap))

theorem kfree_mild {pa : Pa} : Fails Mild (kfree pa m) := by
  unfold kfree
  split_ifs
  · exact .error (by decide)
  · exact .ok _

theorem kfreeOpt_mild {pa : Option Pa} : Fails Mild (kfreeOpt pa m) := by
  cases pa with
  | none => exact .ok _
  | some pa => exact kfree_mild

theorem kfreeIf_mild {d : Bool} {pa : Pa} : Fails Mild (kfreeIf d pa m) := by
  unfold kfreeIf
  split_ifs
  · exact kfree_mild
  · exact .ok _

theorem kfreeAll_mild : ∀ {ps : List Pa} {m : Kmem}, Fails Mild (kfreeAll ps m)
  | [], _ => .ok _
  | _ :: _, _ => kfree_mild.bind fun _ _ => kfreeAll_mild

theorem walk_mild {va : ℕ} {alloc : Bool} (hva : va < MAXVA) : Fails Mild (walk pt va alloc m) := by
  unfold walk
  rw [if_neg (by omega)]
  split <;> exact .ok _

theorem uvmunmapLoop_mild {d : Bool} : ∀ {n a : ℕ} {pt : PageTable} {m : Kmem}, a + n * PGSIZE ≤ MAXVA →
    Fails Mild (uvmunmapLoop d n a pt m)
  | 0, _, _, _, _ => .ok _
  | n + 1, a, pt, m, h => by
    have hP : 0 < PGSIZE := PGSIZE_pos
    rw [Nat.succ_mul] at h
    unfold uvmunmapLoop
    refine (walk_mild (by omega)).bind fun x _ => ?_
    obtain ⟨found, pt, m⟩ := x
    dsimp only
    split_ifs
    · exact .error (by decide)
    · split
      · exact .error (by decide)
      · split_ifs
        · exact .error (by decide)
        · exact kfreeIf_mild.bind fun _ _ => uvmunmapLoop_mild (by omega)

theorem uvmunmap_mild {va n : ℕ} {d : Bool} (h : va + n * PGSIZE ≤ MAXVA) : Fails Mild (uvmunmap pt va n d m) := by
  unfold uvmunmap
  split_ifs
  · exact .error (by decide)
  · exact uvmunmapLoop_mild h

theorem freewalk_mild : Fails Mild (freewalk pt m) := by
  unfold freewalk
  split_ifs
  · exact .error (by decide)
  · exact kfreeAll_mild

theorem uvmfree_mild {sz : ℕ} (h : npages sz * PGSIZE ≤ MAXVA) : Fails Mild (uvmfree pt sz m) := by
  unfold uvmfree
  split_ifs
  · exact (uvmunmap_mild (by rw [pgroundup_div]; omega)).bind fun _ _ => freewalk_mild
  · exact freewalk_mild

theorem procFreepagetable_mild {sz : ℕ} (h : npages sz * PGSIZE ≤ MAXVA) : Fails Mild (procFreepagetable pt sz m) :=
  (uvmunmap_mild (by decide)).bind fun _ _ => (uvmunmap_mild (by decide)).bind fun _ _ => uvmfree_mild h

theorem giveUp_mild {k1 : Kernel} (h : npages (k1.proc l).sz * PGSIZE ≤ MAXVA) : Fails Mild (giveUp k1 np l pt m) := by
  unfold giveUp freeproc
  refine Fails.bind ?_ fun _ _ => .ok _
  refine kfreeOpt_mild.bind fun _ _ => Fails.bind ?_ fun _ _ => .ok _
  simp only [half, Kernel.setProc_self]
  exact procFreepagetable_mild h

/-- A page that is not mapped yet. -/
theorem mappages_mild {va : ℕ} {pa : Pa} {perm : Perm} (ha : va % PGSIZE = 0) (hva : va < MAXVA)
    (hn : pt.pte (va / PGSIZE) = none) : Fails Mild (mappages pt va PGSIZE pa perm m) := by
  rw [mappages_one ha]
  refine (walk_mild hva).bind fun ⟨found, pt1, m1⟩ hw => ?_
  obtain ⟨-, hg, -, -⟩ := walk_inv hw
  dsimp only
  rw [hg.pte, hn]
  split_ifs with h1 h2
  · exact .ok _
  · cases h2
  · exact .ok _

theorem TRAPFRAME_lt : TRAPFRAME < MAXVA := by decide

theorem shareLoop_mild {lpt : PageTable} : ∀ {n va : ℕ} {pt : PageTable} {m : Kmem}, va % PGSIZE = 0 →
    (∀ v, va / PGSIZE ≤ v → v < tfPage → pt.pte v = none) → Fails Mild (shareLoop lpt n va pt m)
  | 0, _, _, _, _, _ => .ok _
  | n + 1, va, pt, m, ha, hnone => by
    have hnext : ∀ {pt1 : PageTable} {m1 : Kmem}, (∀ v, va / PGSIZE + 1 ≤ v → v < tfPage → pt1.pte v = none) →
        Fails Mild (shareLoop lpt n (va + PGSIZE) pt1 m1) := fun h1 =>
      shareLoop_mild (add_PGSIZE_mod ha) (by rwa [add_PGSIZE_div])
    have hskip : ∀ v, va / PGSIZE + 1 ≤ v → v < tfPage → pt.pte v = none := fun v hv => hnone v (by omega)
    unfold shareLoop
    split_ifs with htf
    · exact .ok _
    have hva : va < MAXVA := by
      have := TRAPFRAME_lt
      omega
    refine (walk_mild hva).bind fun x _ => ?_
    obtain ⟨found, _, m1⟩ := x
    dsimp only
    split
    · exact hnext hskip
    split_ifs
    · refine (mappages_mild ha hva (hnone _ le_rfl ((lt_tfPage_iff ha).mpr (by omega)))).bind fun x hmap => ?_
      obtain ⟨ok, pt1, m2⟩ := x
      obtain ⟨-, pt2, hg, ⟨rfl, rfl⟩ | ⟨rfl, -, -, rfl⟩⟩ := mappages_inv ha hmap
      · exact .ok _
      · refine hnext fun v hv hv' => ?_
        rw [PageTable.setPte_of_ne _ _ (by omega), hg.pte]
        exact hskip v hv hv'
    · exact hnext hskip

theorem share_mild {lpt : Option PageTable} {sz : ℕ} (ho : OnlyKernel pt) : Fails Mild (share lpt sz pt m) := by
  cases lpt with
  | none =>
    show Fails Mild (if pgroundup sz = 0 then _ else _)
    split_ifs
    · exact .ok _
    · exact .error (by decide)
  | some lpt => exact shareLoop_mild rfl fun v _ => ho.user v

/-- `uvmalloc` of one page at an aligned address below `TRAPFRAME`. -/
theorem uvmalloc_mild {base : ℕ} (ha : base % PGSIZE = 0) (hb : base + PGSIZE ≤ TRAPFRAME)
    (hn : pt.pte (base / PGSIZE) = none) : Fails Mild (uvmalloc pt base (base + PGSIZE) true false m) := by
  have hT := TRAPFRAME_eq
  have hM : MAXVA = 274877906944 := by decide
  have hP : PGSIZE = 4096 := rfl
  have hup : pgroundup base = base := pgroundup_of_mod ha (by omega)
  have hone : (base + PGSIZE - base + (PGSIZE - 1)) / PGSIZE = 1 := by
    rw [hP]
    omega
  unfold uvmalloc
  rw [if_neg (by omega), hup]
  dsimp only
  rw [hone]
  refine Fails.bind ?_ fun _ _ => .ok _
  unfold uvmallocLoop
  split
  · refine Fails.bind ?_ fun _ _ => .ok _
    unfold uvmdealloc
    rw [if_pos le_rfl]
    exact .ok _
  · refine (mappages_mild ha (by omega) hn).bind fun ⟨ok, pt1, m1⟩ _ => ?_
    dsimp only
    split_ifs
    · exact .ok _
    · refine kfree_mild.bind fun _ _ => Fails.bind ?_ fun _ _ => .ok _
      unfold uvmdealloc
      rw [if_pos le_rfl]
      exact .ok _

theorem filedupAll_mild {of : Ofile} {fs : Files} : Fails Mild (filedupAll of fs) := by
  refine Fails.foldlM (I := fun _ => True) (fun _ _ _ _ _ => trivial) (fun s fd _ => ?_) trivial
  split
  · exact .ok _
  · unfold filedup
    split_ifs
    · exact .error (by decide)
    · exact .ok _

/-! ## The stack of the next thread -/

/-- A stack of a live thread in the group of `l`. -/
def HasStack (k : Kernel) (l q : Slot) : Prop :=
  (k.proc q).state ≠ .unused ∧ (k.proc q).isThread = true ∧ (k.proc q).father = some l ∧ (k.proc q).size ≠ 0

/-- **The stack of pid `pid` fits**: below `TRAPFRAME`, with no wrap, apart from the heap and from every other stack of the group. -/
structure StackFits (k : Kernel) (l : Slot) (pid : ℤ) : Prop where
  base : (stackBase pid : ℤ) = TRAPFRAME - (1 + 2 * pid) * PGSIZE
  below : stackBase pid + PGSIZE ≤ TRAPFRAME
  heap : pgroundup (k.proc l).sz ≤ stackBase pid
  apart : ∀ q, HasStack k l q →
    (k.proc q).start + (k.proc q).size < stackBase pid ∨ stackBase pid + PGSIZE < (k.proc q).start

/-- The condition on the state before the call: the next pid is small enough for the heap, and no stack of the group has it. -/
structure Room (k : Kernel) (l : Slot) : Prop where
  nonneg : 0 ≤ k.nextpid
  heap : (1 + 2 * k.nextpid) * PGSIZE + pgroundup (k.proc l).sz ≤ TRAPFRAME
  fresh : ∀ q, HasStack k l q → (k.proc q).pid ≠ k.nextpid

theorem stackFits_iff (h : k.Stacks) : StackFits k l k.nextpid ↔ Room k l := by
  have hbase := stackBase_eq k.nextpid
  have hT := TRAPFRAME_eq
  have hP : PGSIZE = 4096 := rfl
  rw [hT, hP] at hbase
  constructor
  · intro hf
    have h1 := hf.base
    have h2 := hf.below
    have h3 := hf.heap
    rw [hT, hP] at h1 h2
    refine ⟨by omega, ?_, fun q hq heq => ?_⟩
    · rw [hT, hP]
      omega
    · obtain ⟨hst, -⟩ := (h.2 q).2 hq.1 hq.2.2.2
      have h4 := hf.apart q hq
      rw [hst, heq] at h4
      omega
  · intro hr
    have h1 := hr.nonneg
    have h2 := hr.heap
    rw [hT, hP] at h2
    refine ⟨?_, ?_, by omega, fun q hq => ?_⟩
    · rw [hT, hP]
      omega
    · rw [hT, hP]
      omega
    · obtain ⟨hst, hsz⟩ := (h.2 q).2 hq.1 hq.2.2.2
      rw [hst, hsz]
      exact stackBase_apart (h.2 q).1 h.1 (hr.fresh q hq)

/-- **With room for the stack, no `walk` and no `mappages` of the call panics.** -/
theorem threadCreate_mild {e fn arg retfn : ℕ} (hm : k.mem.OkAt e) (hb : k.Bare) (hp : (k.proc p).state ≠ .unused)
    (hl : groupLeader k p = some l) (hr : Room k l) : Fails Mild (threadCreate k p fn arg retfn) := by
  rcases allocproc_total hm hb with ⟨-, k1, hal, -⟩ | ⟨-, -, np, k1, tf, pt, hal, ht⟩
  · simp only [threadCreate, hal, ok_bind]
    exact .ok _
  have hT := TRAPFRAME_eq
  have hP : PGSIZE = 4096 := rfl
  have hM : MAXVA = 274877906944 := by decide
  have h1 := hr.nonneg
  have h2 := hr.heap
  have hbase := stackBase_eq k.nextpid
  have hup := pgroundup_mod (k.proc l).sz
  rw [hT, hP] at hbase h2
  have hpid : k.nextpid = (k1.proc np).pid := by
    rw [ht.self]
    rfl
  rw [hpid] at hbase h1 h2
  have hn : npages (k1.proc l).sz * PGSIZE ≤ MAXVA := by
    rw [ht.sz]
    have : npages (k.proc l).sz * PGSIZE = pgroundup (k.proc l).sz := Nat.div_mul_cancel (Nat.dvd_of_mod_eq_zero hup)
    omega
  simp only [threadCreate, hal, ok_bind, ht.leader hp, hl, ht.pagetable]
  refine (share_mild ht.only).bind fun x hs => ?_
  obtain ⟨b, pt1, m1⟩ := x
  obtain ⟨-, hother, -, -⟩ := share_inv ht.only hs
  dsimp only
  split_ifs
  · exact giveUp_mild hn
  unfold threadFinish
  simp only [Kernel.setProc_self, Kernel.setProc_mem, Kernel.setMem_mem]
  have htop : add64 (stackBase (k1.proc np).pid) PGSIZE = stackBase (k1.proc np).pid + PGSIZE := by
    rw [hP]
    unfold add64
    omega
  rw [htop]
  have hnone : pt1.pte (stackBase (k1.proc np).pid / PGSIZE) = none := by
    rw [hother, ht.only.user]
    · rw [lt_tfPage_iff (by rw [hP]; omega)]
      omega
    · rw [ht.sz]
      exact Nat.div_le_div_right (by omega)
  refine (uvmalloc_mild (by rw [hP]; omega) (by rw [hT, hP]; omega) hnone).bind fun x _ => ?_
  obtain ⟨r, pt2, m2⟩ := x
  dsimp only
  split_ifs
  · simp only [Kernel.setProc_setMem, Kernel.setMem_setMem, Kernel.setProc_setProc]
    exact giveUp_mild hn
  · exact .error (by decide)
  · refine filedupAll_mild.bind fun fs _ => ?_
    split
    · exact .error (by decide)
    · exact .ok _

/-- **Where `thread_create` puts the stack.**  In every reachable state, for every caller that gets a slot: the stack fits and no `walk` or
`mappages` panics exactly when there is room for it. -/
theorem threadCreate_fits_iff {as : List Pa} {fn arg retfn : ℕ} {k1 : Kernel} (hr : Reach Step always Boot k)
    (hp : (k.proc p).state = .running) (hal : allocproc (k.setAnswers as) = .ok (some np, k1))
    (hl : groupLeader k p = some l) :
    (StackFits k l (k1.proc np).pid ∧ Fails Mild (threadCreate (k.setAnswers as) p fn arg retfn)) ↔ Room k l := by
  obtain ⟨e, hm⟩ := okAt_reach hr
  have hb : k.Bare := bare_reach hr
  have hpid : (k1.proc np).pid = k.nextpid := (allocproc_inv hal).ok_self.2.1
  rw [hpid, stackFits_iff (stacks_reach hr)]
  refine and_iff_left_of_imp fun hroom => ?_
  have hm' : (k.setAnswers as).mem.OkAt e := hm
  have hb' : (k.setAnswers as).Bare := hb
  have hp' : ((k.setAnswers as).proc p).state ≠ .unused := by
    rw [Kernel.setAnswers_proc, hp]
    decide
  have hroom' : Room (k.setAnswers as) l := ⟨hroom.nonneg, hroom.heap, hroom.fresh⟩
  exact threadCreate_mild hm' hb' hp' hl hroom'

/-! ## A machine that has run for long -/

/-- The small machine with the first process on a CPU. -/
def awake : Kernel := small.setProc 0 { small.proc 0 with state := .running }

theorem awake_reach : Reach Step always Boot awake :=
  (Reach.start small_boot).step (a := .scheduler 0) trivial ⟨by decide +kernel, rfl⟩

/-- A call that returned a value. -/
theorem exists_slot {x : Except Panic (Option Slot × Kernel)} (h : (x.toOption.any fun r => r.1.isSome) = true) :
    ∃ np k1, x = .ok (some np, k1) := by
  rcases x with e | ⟨np | np, k1⟩
  · cases h
  · cases h
  · exact ⟨np, k1, rfl⟩

/-- The first thread of the first process. -/
theorem threadCreate_fits_awake : ∃ np k1, Reach Step always Boot awake ∧ (awake.proc 0).state = .running ∧
    allocproc (awake.setAnswers (pages 20 10)) = .ok (some np, k1) ∧ groupLeader awake 0 = some 0 ∧
    ((StackFits awake 0 (k1.proc np).pid ∧ Fails Mild (threadCreate (awake.setAnswers (pages 20 10)) 0 0 0 0)) ↔
      Room awake 0) := by
  obtain ⟨np, k1, hal⟩ := exists_slot (x := allocproc (awake.setAnswers (pages 20 10))) (by decide +kernel)
  have hp : (awake.proc 0).state = .running := rfl
  have hl : groupLeader awake 0 = some 0 := by decide +kernel
  exact ⟨np, k1, awake_reach, hp, hal, hl, threadCreate_fits_iff awake_reach hp hal hl⟩

/-- The same machine with another next pid. -/
def late (n : ℤ) : Kernel := { awake.setAnswers [] with nextpid := n }

theorem late_proc_one (n : ℤ) : (late n).proc 1 = Proc.zero := by
  obtain ⟨m0, root, tf, pt0, pt, m1, m2, m, -, -, -, -, -, -, -, hp⟩ := boot_inv small_boot
  show awake.proc 1 = Proc.zero
  unfold awake
  rw [Kernel.setProc_of_ne _ _ (by decide), hp, Function.update_of_ne]
  decide +kernel

theorem allocproc_noPage {i : Slot} {m1 : Kmem} (hf : (slots.find? fun i => (k.proc i).state = .unused) = some i)
    (hk : kalloc k.mem = (none, m1)) (hb : (k.proc i).pagetable = none) :
    allocproc k = .ok (none, (k.bumpPid.setMem m1).setProc i (k.proc i).freed) := by
  unfold allocproc
  rw [hf]
  simp only [allocpid, hk, freeproc, Kernel.setProc_self, kfreeOpt, procFreepagetableOpt, hb, ok_bind, Kernel.setProc_mem,
    Kernel.setMem_mem, Kernel.setProc_setMem, Kernel.setMem_setMem, Kernel.setProc_setProc]
  rfl

theorem Kernel.setProc_eq_self {i : Slot} {P : Proc} (h : k.proc i = P) : k.setProc i P = k := by
  unfold Kernel.setProc
  rw [← h, Function.update_eq_self]

/-- A `fork` that finds no page only uses up a pid. -/
theorem late_fork (n : ℤ) : fork (late n) 0 = .ok (-1, late (int32 (n + 1))) := by
  have hfind : (slots.find? fun i => ((late n).proc i).state = .unused) = some 1 := by
    show (slots.find? fun i => (awake.proc i).state = .unused) = some 1
    decide +kernel
  have h1 := late_proc_one n
  have hal : allocproc (late n) = .ok (none, late (int32 (n + 1))) := by
    rw [allocproc_noPage hfind rfl (by rw [h1]; rfl), h1]
    show Except.ok (none, (late (int32 (n + 1))).setProc 1 Proc.zero) = _
    rw [Kernel.setProc_eq_self (late_proc_one _)]
  simp only [fork, hal, ok_bind]

theorem late_answers (n : ℤ) : (late n).setAnswers [] = late n := rfl

theorem late_step {k : Kernel} {n : ℤ} (hk : k.setAnswers [] = late n) :
    Step k (.syscall 0 .fork []) (some (-1)) (late (int32 (n + 1))) := by
  have hp : (k.setAnswers []).proc = (late n).proc := by rw [hk]
  have hp : k.proc = awake.proc := hp
  refine ⟨?_, ?_⟩
  · simp only [Action.enabled, hp]
    decide +kernel
  · have hkilled : (awake.proc 0).killed = false := by decide +kernel
    simp only [step, hp, hkilled, Bool.false_eq_true, if_false, hk, syscall, late_fork, returns, ok_bind]

theorem late_two : awake.setAnswers [] = late 2 := by
  obtain ⟨_, _, _, _, _, _, _, _, -, -, -, -, -, -, hn, -⟩ := boot_inv small_boot
  have hn : awake.nextpid = 2 := hn
  unfold late
  rw [← hn]
  rfl

/-- **The counter can get anywhere**: every failed `fork` takes a pid. -/
theorem late_reach (n : ℕ) (hn : (n : ℤ) + 3 ≤ INTMAX) : Reach Step always Boot (late (n + 3)) := by
  induction n with
  | zero => exact awake_reach.step trivial (late_step late_two)
  | succ n ih =>
    have hsucc : int32 ((n : ℤ) + 3 + 1) = ((n + 1 : ℕ) : ℤ) + 3 := by
      simp only [int32, INTMAX] at *
      omega
    rw [← hsucc]
    exact (ih (by omega)).step trivial (late_step (late_answers _))

/-- After `2 ^ 25` pids the stack would lie below address 0: the subtraction wraps. -/
theorem stack_wraps : ¬ ∀ (k : Kernel) (p l np : Slot) (k1 : Kernel) (as : List Pa) (fn arg retfn : ℕ),
    Reach Step always Boot k → (k.proc p).state = .running → allocproc (k.setAnswers as) = .ok (some np, k1) →
    groupLeader k p = some l →
    StackFits k l (k1.proc np).pid ∧ Fails Mild (threadCreate (k.setAnswers as) p fn arg retfn) := by
  intro h
  have hr : Reach Step always Boot (late (2 ^ 25)) := by
    have h3 := late_reach (2 ^ 25 - 3) (by decide)
    rwa [show ((2 ^ 25 - 3 : ℕ) : ℤ) + 3 = 2 ^ 25 by decide] at h3
  obtain ⟨np, k1, hal⟩ := exists_slot (x := allocproc ((late (2 ^ 25)).setAnswers (pages 20 10))) (by decide +kernel)
  have hl : groupLeader (late (2 ^ 25)) 0 = some 0 := by decide +kernel
  have hpid : (k1.proc np).pid = 2 ^ 25 := (allocproc_inv hal).ok_self.2.1
  have hbase := (h _ 0 0 np k1 _ 0 0 0 hr rfl hal hl).1.base
  rw [hpid, TRAPFRAME_eq, show PGSIZE = 4096 from rfl] at hbase
  omega

end OsLabs.Xv6
