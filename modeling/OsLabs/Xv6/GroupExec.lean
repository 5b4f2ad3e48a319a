import OsLabs.Xv6.UserStack

/-!
# OsLabs.Xv6.GroupExec — exec inside a thread group

`exec` frees the whole image of its caller, and says nothing to the threads that share it: `is_thread` and `father` survive.

* `Overruns`: the one way in which `uvmalloc` panics on a table that `exec` builds.
* `execSeg_cases`, `execEnd_cases`: what becomes of every step of `exec`.
* `exec_in_group_iff`: a thread, and a leader with a live thread, can call `exec` as long as it fails.
-/

namespace OsLabs.Xv6

open Fallible Lts

variable {k k' : Kernel} {p q : Slot} {pt pt' old : PageTable} {m m' : Kmem} {pa : Pa} {sz n e : ℕ} {a : Action} {o : Option ℤ}

/-! ## Growing the new image -/

/-- Growing a table of `sz` bytes to `n` comes to the trapframe page, and `kalloc` still gives a page for it. -/
def Overruns (pt : PageTable) (sz n : ℕ) (m : Kmem) : Prop :=
  TRAPFRAME < n ∧ serves (mapNeeds (tfPage - npages sz) (pgroundup sz) pt.keys + 1) m = true

theorem addPages_le {o : ℕ} (ho : o ≤ TRAPFRAME) (hon : o ≤ n) : npages o + addPages o n ≤ tfPage ↔ n ≤ TRAPFRAME := by
  have hT : TRAPFRAME < MAXVA := by decide
  rw [addPages, npages_of_le (by omega), pgroundup_of_le (by omega)]
  simp only [tfPage, TRAPFRAME, TRAMPOLINE, MAXVA, PGSIZE] at *
  omega

/-- A table whose user pages lie below its size can be grown up to the trapframe. -/
theorem uvmalloc_full_ok_iff {o c : ℕ} {xw xx : Bool} (hs : Sane e pt) (hm : m.OkAt e) (ho : o ≤ TRAPFRAME) (hf : Full c pt o) :
    (∃ r, uvmalloc pt o n xw xx m = .ok r) ↔ ¬ Overruns pt o n m := by
  rw [uvmalloc_ok_iff hs hm ho]
  have hnp := npages_le ho
  constructor
  · rintro h ⟨hn, hserv⟩
    have hlt : tfPage < npages o + addPages o n := not_le.mp fun hle => absurd ((addPages_le ho (by omega)).mp hle) (by omega)
    rw [h (by omega) tfPage hnp hlt hs.shaped.trapf] at hserv
    cases hserv
  · intro hno hon v h1 h2 h3
    have hv : tfPage ≤ v := not_lt.mp fun hv => h3 (hf.high v h1 hv)
    have hn : TRAPFRAME < n := not_le.mp fun hle => by
      have := (addPages_le ho hon).mpr hle
      omega
    refine serves_mono ?_ (Bool.eq_false_iff.mpr fun h => hno ⟨hn, h⟩)
    exact Nat.succ_le_succ (mapNeeds_mono (by omega))

theorem loadsegLoop_total {img : Image} {va off : ℕ} : ∀ {n i : ℕ} {m : Kmem},
    (∀ j, j < n → walkaddr pt (add64 va (i + j * PGSIZE)) ≠ none) → ∃ r, loadsegLoop img pt va off sz n i m = .ok r
  | 0, i, m, _ => ⟨_, rfl⟩
  | n + 1, i, m, h => by
    unfold loadsegLoop
    obtain ⟨pa, hpa⟩ := Option.ne_none_iff_exists'.mp (h 0 (by omega))
    rw [Nat.zero_mul, Nat.add_zero] at hpa
    rw [hpa]
    dsimp only
    split_ifs
    · exact ⟨_, rfl⟩
    · refine loadsegLoop_total fun j hj => ?_
      have := h (j + 1) (by omega)
      rwa [Nat.succ_mul, Nat.add_comm (j * PGSIZE), ← Nat.add_assoc] at this

/-- `loadseg` into pages that the user can reach. -/
theorem loadseg_total {img : Image} {va off fsz : ℕ} (hs : Sane e pt) (hf : Full 0 pt sz) (hu : AllUser pt) (hsz : sz ≤ TRAPFRAME)
    (hva : va % PGSIZE = 0) (hend : va + fsz ≤ sz) : ∃ r, loadseg img pt va off fsz m = .ok r := by
  unfold loadseg
  refine loadsegLoop_total fun j hj => ?_
  have hT : TRAPFRAME < MAXVA := by decide
  have hM : MAXVA < 2 ^ 63 := by decide
  have hmod : fsz % 2 ^ 32 ≤ fsz := Nat.mod_le _ _
  have hjlt : j * PGSIZE < fsz % 2 ^ 32 := by
    simp only [PGSIZE] at *
    omega
  have hadd : add64 va (0 + j * PGSIZE) = (va / PGSIZE + j) * PGSIZE := by
    rw [add64, Nat.zero_add, Nat.mod_eq_of_lt (by omega), Nat.add_mul, Nat.div_mul_cancel (Nat.dvd_of_mod_eq_zero hva)]
  have hlt : va / PGSIZE + j < npages sz := by
    rw [npages_of_le (by omega)]
    simp only [PGSIZE] at *
    omega
  obtain ⟨en, hen⟩ := Option.ne_none_iff_exists'.mp (hf.low _ (Nat.zero_le _) hlt)
  have hv : va / PGSIZE + j < tfPage := lt_of_lt_of_le hlt (npages_le hsz)
  rw [hadd, walkaddr_of_pte hs.shaped.wf hv hen (hu _ _ hv hen)]
  simp

/-! ## The steps of exec -/

/-- A step of `exec` that does not commit: only the call itself has moved on. -/
structure ExecKeeps (k k' : Kernel) (p : Slot) : Prop where
  pagetable : (k'.proc p).pagetable = (k.proc p).pagetable
  sz : (k'.proc p).sz = (k.proc p).sz
  trapframe : (k'.proc p).trapframe = (k.proc p).trapframe
  tf : (k'.proc p).tf = (k.proc p).tf
  isThread : (k'.proc p).isThread = (k.proc p).isThread
  father : (k'.proc p).father = (k.proc p).father

theorem execBad_total (hs : Sane e pt) (hm : m.OkAt e) (hsz : sz ≤ TRAPFRAME) (hf : Full 0 pt sz) :
    ∃ m', execBad (k.setMem m) p pt sz = .ok (some (-1), (k.setMem m').setProc p { k.proc p with frame := .user }) := by
  obtain ⟨m', h⟩ := (procFreepagetable_ok_iff hs hm hsz).mpr hf
  refine ⟨m', ?_⟩
  unfold execBad
  rw [Kernel.setMem_mem, h, ok_bind]
  rfl

theorem uvmalloc_ge {s r : ℕ} {xw xx : Bool} (h : uvmalloc pt s n xw xx m = .ok (r, pt', m')) (hr : r ≠ 0) : n ≤ r := by
  unfold uvmalloc at h
  split_ifs at h with hns
  · simp only [Except.ok.injEq, Prod.mk.injEq] at h
    omega
  · rw [bind_ok] at h
    obtain ⟨⟨ok, pt1, m1⟩, -, h⟩ := h
    simp only [Except.ok.injEq, Prod.mk.injEq] at h
    obtain ⟨rfl, -, -⟩ := h
    split_ifs at hr ⊢
    · exact le_rfl
    · exact absurd rfl hr

/-- What the file says are numbers of 64 bits. -/
def ExecInput.Words : ExecInput → Prop
  | .seg _ (some ph) => ph.off < 2 ^ 64 ∧ ph.vaddr < 2 ^ 64 ∧ ph.filesz < 2 ^ 64 ∧ ph.memsz < 2 ^ 64
  | _ => True

/-- A loadable segment of the file reaches over the trapframe page, and there is memory for it. -/
def SegOverruns (pt : PageTable) (sz : ℕ) (ph : Option Proghdr) (m : Kmem) : Prop :=
  ∃ h, ph = some h ∧ h.load = true ∧ h.filesz ≤ h.memsz ∧ h.vaddr ≤ add64 h.vaddr h.memsz ∧ h.vaddr % PGSIZE = 0 ∧
    Overruns pt sz (add64 h.vaddr h.memsz) m

/-- The caller of `exec` after a step that does not commit. -/
def MovedOn (k k' : Kernel) (p : Slot) : Prop := k'.proc p = { k.proc p with frame := (k'.proc p).frame }

theorem MovedOn.set (fr : Frame) : MovedOn k ((k.setMem m).setProc p { k.proc p with frame := fr }) p := by
  unfold MovedOn
  rw [Kernel.setProc_self]

/-- **One segment.** -/
theorem execSeg_cases {img : Image} {ph : Option Proghdr} (hm : k.mem.OkAt e) (hf : k.Fine e) (hfr : (k.proc p).frame = .exec pt sz)
    (hw : (ExecInput.seg img ph).Words) :
    (SegOverruns pt sz ph k.mem ∧ ∀ r, execSeg k p pt sz img ph ≠ .ok r) ∨
      (¬ SegOverruns pt sz ph k.mem ∧ ∃ o k', execSeg k p pt sz img ph = .ok (o, k') ∧ (o = none ∨ o = some (-1)) ∧ MovedOn k k' p) := by
  obtain ⟨hs, hsz, hfull, hall⟩ := (hf p).exec pt sz hfr
  have hbad : (¬ SegOverruns pt sz ph k.mem) → execSeg k p pt sz img ph = execBad k p pt sz →
      (SegOverruns pt sz ph k.mem ∧ ∀ r, execSeg k p pt sz img ph ≠ .ok r) ∨
      (¬ SegOverruns pt sz ph k.mem ∧ ∃ o k', execSeg k p pt sz img ph = .ok (o, k') ∧ (o = none ∨ o = some (-1)) ∧ MovedOn k k' p) := by
    intro hno heq
    obtain ⟨m', hm'⟩ := execBad_total (k := k) (p := p) hs hm hsz hfull
    exact .inr ⟨hno, _, _, heq.trans hm', .inr rfl, .set _⟩
  cases ph with
  | none => exact hbad (by rintro ⟨h, hh, -⟩; cases hh) rfl
  | some ph =>
    have hover : SegOverruns pt sz (some ph) k.mem ↔ ph.load = true ∧ ph.filesz ≤ ph.memsz ∧ ph.vaddr ≤ add64 ph.vaddr ph.memsz ∧
        ph.vaddr % PGSIZE = 0 ∧ Overruns pt sz (add64 ph.vaddr ph.memsz) k.mem :=
      ⟨by rintro ⟨_, hh, h⟩; exact Option.some.inj hh ▸ h, fun h => ⟨ph, rfl, h⟩⟩
    by_cases h1 : ph.load = true
    swap
    · refine .inr ⟨fun h => h1 (hover.mp h).1, none, k, ?_, .inl rfl, rfl⟩
      unfold execSeg
      simp [h1]
    by_cases h2 : ph.filesz ≤ ph.memsz
    swap
    · refine hbad (fun h => h2 (hover.mp h).2.1) ?_
      unfold execSeg
      simp [h1, not_le.mp h2]
    by_cases h3 : ph.vaddr ≤ add64 ph.vaddr ph.memsz
    swap
    · refine hbad (fun h => h3 (hover.mp h).2.2.1) ?_
      unfold execSeg
      simp [h1, not_lt.mpr h2, not_le.mp h3]
    by_cases h4 : ph.vaddr % PGSIZE = 0
    swap
    · refine hbad (fun h => h4 (hover.mp h).2.2.2.1) ?_
      unfold execSeg
      simp [h1, not_lt.mpr h2, not_lt.mpr h3, h4]
    have heq : execSeg k p pt sz img (some ph) = (uvmalloc pt sz (add64 ph.vaddr ph.memsz) ph.flagW ph.flagX k.mem >>= fun x =>
        if x.1 = 0 then execBad (k.setMem x.2.2) p x.2.1 sz
        else loadseg img x.2.1 ph.vaddr ph.off ph.filesz x.2.2 >>= fun y =>
          if !y.1 then execBad (k.setMem y.2) p x.2.1 x.1
          else .ok (none, (k.setMem y.2).setProc p { k.proc p with frame := .exec x.2.1 x.1 })) := by
      unfold execSeg
      simp [h1, not_lt.mpr h2, not_lt.mpr h3, h4]
    rw [hover, heq]
    have hiff := @uvmalloc_full_ok_iff _ _ (add64 ph.vaddr ph.memsz) _ _ _ ph.flagW ph.flagX hs hm hsz hfull
    by_cases h5 : Overruns pt sz (add64 ph.vaddr ph.memsz) k.mem
    · refine .inl ⟨⟨h1, h2, h3, h4, h5⟩, fun r hr => hiff.mp ?_ h5⟩
      obtain ⟨x, hx, -⟩ := bind_ok.mp hr
      exact ⟨x, hx⟩
    refine .inr ⟨fun h => h5 h.2.2.2.2, ?_⟩
    obtain ⟨⟨sz1, pt1, m1⟩, hu⟩ := hiff.mpr h5
    have hs1 := uvmalloc_sane hs hm hsz hu
    have hm1 : m1.OkAt e := uvmalloc_okAt hm _ hu
    rw [hu, ok_bind]
    dsimp only
    split_ifs with h0
    · have hf1 : Full 0 pt1 sz := by
        rcases uvmalloc_full hs hfull hsz hu with ⟨-, hf1⟩ | ⟨hle, -, hf1⟩
        · exact hf1
        · rwa [show sz = sz1 by omega]
      obtain ⟨m', hm'⟩ := execBad_total (k := k) (p := p) hs1 hm1 hsz hf1
      exact ⟨_, _, hm', .inr rfl, .set _⟩
    · obtain ⟨-, htop, hf1⟩ := (uvmalloc_full hs hfull hsz hu).resolve_left fun h => h0 h.1
      have hge := uvmalloc_ge hu h0
      have hend : ph.vaddr + ph.filesz ≤ sz1 := by
        obtain ⟨-, hv, -, hmem⟩ := hw
        simp only [add64] at hge h3
        omega
      obtain ⟨⟨ok, m2⟩, hl⟩ := @loadseg_total _ m1 _ _ img ph.vaddr ph.off ph.filesz hs1 hf1
        (uvmalloc_allUser hs.shaped hall hsz hu) htop h4 hend
      have hm2 : m2.OkAt e := by
        obtain ⟨d, rfl⟩ := loadseg_dataOnly hl
        exact hm1
      rw [hl, ok_bind]
      cases ok with
      | true => exact ⟨_, _, rfl, .inl rfl, .set _⟩
      | false =>
        obtain ⟨m', hm'⟩ := execBad_total (k := k) (p := p) hs1 hm2 htop hf1
        exact ⟨_, _, hm', .inr rfl, .set _⟩

theorem uvmclear_total {va : ℕ} (hw : pt.WF) (hva : va < MAXVA) (hpte : pt.pte (va / PGSIZE) ≠ none) : ∃ pt', uvmclear pt va m = .ok pt' := by
  unfold uvmclear
  rw [walk_reaches hva (hw.reaches hpte), ok_bind]
  exact ⟨_, rfl⟩

/-- The end of `exec` gives up: there is no memory for the stack, or the arguments do not fit on it. -/
def GivesUp (pt : PageTable) (sz : ℕ) (argv : List (List UInt8)) (m : Kmem) : Prop :=
  ¬ Overruns pt sz ((npages sz + 2) * PGSIZE) m ∧ (serves (mapNeeds 2 (pgroundup sz) pt.keys) m = false ∨
    placeStack ((npages sz + 1) * PGSIZE) ((npages sz + 2) * PGSIZE) argv = none)

/-- **The end of `exec`.**  It gives up, it panics, or the caller has a new image and is otherwise the same. -/
theorem execEnd_cases {entry : ℕ} {argv : List (List UInt8)} (hm : k.mem.OkAt e) (hf : k.Fine e) (hfr : (k.proc p).frame = .exec pt sz) :
    (GivesUp pt sz argv k.mem ∧ ∃ k', execEnd k p pt sz entry argv = .ok (some (-1), k') ∧ MovedOn k k' p) ∨
      (¬ GivesUp pt sz argv k.mem ∧ ∀ o k', execEnd k p pt sz entry argv = .ok (o, k') → ∃ r : ℕ, o = some (r : ℤ) ∧
        (k'.proc p).isThread = (k.proc p).isThread ∧ (k'.proc p).father = (k.proc p).father ∧ ∀ q, q ≠ p → k'.proc q = k.proc q) := by
  obtain ⟨hs, hsz, hfull, -⟩ := (hf p).exec pt sz hfr
  have hup : pgroundup sz ≤ TRAPFRAME := pgroundup_le hsz
  have hup' : pgroundup (pgroundup sz) = pgroundup sz :=
    pgroundup_of_mod (pgroundup_mod sz) (lt_of_le_of_lt hup (by decide))
  have hover : Overruns pt (pgroundup sz) ((npages sz + 2) * PGSIZE) k.mem ↔ Overruns pt sz ((npages sz + 2) * PGSIZE) k.mem := by
    unfold Overruns
    rw [npages_pgroundup hsz, hup']
  have hiff := @uvmalloc_full_ok_iff _ _ ((npages sz + 2) * PGSIZE) _ _ _ true false hs hm hup (hfull.roundup hsz)
  rw [hover] at hiff
  by_cases h5 : Overruns pt sz ((npages sz + 2) * PGSIZE) k.mem
  · refine .inr ⟨fun h => h.1 h5, fun o k' h => ?_⟩
    unfold execEnd at h
    rw [stackTop hsz] at h
    obtain ⟨x, hx, -⟩ := bind_ok.mp h
    exact absurd h5 (hiff.mp ⟨x, hx⟩)
  obtain ⟨⟨sz1, pt1, m1⟩, hu⟩ := hiff.mpr h5
  have hs1 := uvmalloc_sane hs hm hup hu
  have hm1 : m1.OkAt e := uvmalloc_okAt hm _ hu
  have hnp : pgroundup sz ≤ (npages sz + 2) * PGSIZE := by
    rw [pgroundup_eq]
    exact Nat.mul_le_mul_right _ (by omega)
  have hlong := uvmalloc_full hs (hfull.roundup hsz) hup hu
  unfold execEnd
  rw [stackTop hsz, hu, ok_bind]
  dsimp only
  rcases uvmalloc_takes hnp hu with ⟨hr, htakes⟩ | ⟨rfl, hno⟩
  · rw [addPages_stack hsz, hup'] at htakes
    have h0 : sz1 ≠ 0 := by
      rw [hr]
      simp [PGSIZE]
    obtain ⟨-, htop, hf1⟩ := hlong.resolve_left fun h => h0 h.1
    have hguard : sub64 sz1 (2 * PGSIZE) = pgroundup sz := by rw [hr, guard_addr (hr ▸ htop)]
    have hT : TRAPFRAME < MAXVA := by decide
    have hmapped : pt1.pte (pgroundup sz / PGSIZE) ≠ none := by
      have hnp1 : npages sz1 = npages sz + 2 := by
        rw [npages_of_mod (by rw [hr]; exact Nat.mul_mod_left _ _) (by omega), hr, Nat.mul_div_cancel _ PGSIZE_pos]
      exact hf1.low _ (Nat.zero_le _) (by rw [pgroundup_div, hnp1]; omega)
    obtain ⟨pt2, hc⟩ := uvmclear_total (m := m1) hs1.shaped.wf (show pgroundup sz < MAXVA by omega) hmapped
    rw [← hguard] at hc
    rw [← stackTop hsz] at hu
    obtain ⟨pa, hn⟩ := newStack hs hsz hfull hm hu h0 hc
    rw [if_neg h0, hc, ok_bind]
    rcases hpush : pushStack pt2 sz1 argv m1 with ⟨x, m2⟩
    obtain ⟨hx, -⟩ := pushStack_spec hn.stack hn.size hpush
    rw [hn.size] at hx
    have hm2 : m2.OkAt e := by
      obtain ⟨d, rfl⟩ := pushStack_dataOnly hpush
      exact hm1
    cases x with
    | none =>
      obtain ⟨m', hm'⟩ := execBad_total (k := k) (p := p) hn.sane hm2 hn.top hn.full
      exact .inl ⟨⟨h5, .inr hx.symm⟩, _, hm', .set _⟩
    | some sp =>
      refine .inr ⟨fun hg => ?_, fun o k' h => ?_⟩
      · rcases hg.2 with h | h
        · rw [htakes.serves] at h
          cases h
        · rw [h] at hx
          cases hx
      · dsimp only at h
        split at h
        · cases h
        · rw [bind_ok] at h
          obtain ⟨m', -, h⟩ := h
          obtain ⟨rfl, rfl⟩ := Prod.mk.inj (Except.ok.inj h)
          refine ⟨argv.length, rfl, ?_, ?_, fun q hq => Kernel.setProc_of_ne _ _ hq⟩
          · rw [Kernel.setProc_self]
          · rw [Kernel.setProc_self]
  · rw [addPages_stack hsz, hup'] at hno
    have hf1 : Full 0 pt1 (pgroundup sz) := by
      rcases hlong with ⟨-, hf1⟩ | ⟨hle, -, hf1⟩
      · exact hf1
      · rwa [Nat.le_zero.mp hle]
    obtain ⟨m', hm'⟩ := execBad_total (k := k) (p := p) hs1 hm1 hup hf1
    rw [if_pos rfl]
    exact .inl ⟨⟨h5, .inl hno⟩, _, hm', .set _⟩

/-! ## exec in a group -/

/-- A member that can still run. -/
def Proc.Live (P : Proc) : Prop := P.state ≠ .unused ∧ P.state ≠ .zombie

/-- `p` is a thread, or has a live thread. -/
def Grouped (k : Kernel) (p : Slot) : Prop :=
  (k.proc p).isThread = true ∨ ∃ q, q ≠ p ∧ (k.proc q).Live ∧ (k.proc q).isThread = true ∧ (k.proc q).father = some p

/-- A step of `exec`: the call, or its going on after a read of the file. -/
inductive ExecStep (k : Kernel) : Action → Slot → Prop
  | call {p : Slot} {b : Bool} {as : List Pa} (hp : (k.proc p).state = .running) (hfr : (k.proc p).frame = .user)
      (hk : (k.proc p).killed = false) : ExecStep k (.syscall p (.exec b) as) p
  | goOn {p : Slot} {inp : ExecInput} {as : List Pa} {pt : PageTable} {sz : ℕ} (hp : (k.proc p).state = .running)
      (hfr : (k.proc p).frame = .exec pt sz) (hw : inp.Words) : ExecStep k (.resume p inp as) p

/-- **After a successful `exec`** of `p` no page of another live member was freed, and `p` is out of the group: `thread_join` and `growproc` do
not take it for a thread of its old leader, and `growproc` in another live member does not visit it. -/
structure LeavesGroup (k k' : Kernel) (p : Slot) : Prop where
  pages : ∀ q pt v en, q ≠ p → (k.proc q).Live → groupLeader k q = groupLeader k p → (k'.proc q).pagetable = some pt → v < tfPage →
    pt.pte v = some en → k'.mem.free en.pa ≤ k.mem.free en.pa
  thread : ∀ l, groupLeader k p = some l → ¬ ((k'.proc p).isThread = true ∧ (k'.proc p).father = some l)
  visit : ∀ q l, q ≠ p → (k.proc q).Live → groupLeader k q = groupLeader k p → groupLeader k' q = some l → inGroup k' p l = false

/-- The step does not panic; before the commit and on failure it keeps the caller as it is, and the commit takes it out of its group. -/
def ExecMeets (k : Kernel) (a : Action) (p : Slot) : Prop :=
  ∃ o k', step k a = .ok (o, k') ∧ (if o = none ∨ o = some (-1) then ExecKeeps k k' p else LeavesGroup k k' p)

/-- The step does not get to the commit, and no segment runs into the trapframe page. -/
def ExecFails (k : Kernel) (a : Action) : Prop :=
  match a with
  | .resume p (.seg _ ph) as => ∀ pt sz, (k.proc p).frame = .exec pt sz → ¬ SegOverruns pt sz ph (k.setAnswers as).mem
  | .resume p (.done _ argv) as => ∀ pt sz, (k.proc p).frame = .exec pt sz → GivesUp pt sz argv (k.setAnswers as).mem
  | _ => True

theorem MovedOn.keeps {k0 : Kernel} (h : MovedOn k k' p) (h0 : k.proc p = { k0.proc p with chan := (k.proc p).chan }) : ExecKeeps k0 k' p := by
  unfold MovedOn at h
  rw [h0] at h
  constructor <;> rw [h]

/-- A thread, and a leader of a live thread, stays in its group. -/
theorem Grouped.stays (hg : Grouped k p) (hth : (k'.proc p).isThread = (k.proc p).isThread) (hfa : (k'.proc p).father = (k.proc p).father)
    (hoth : ∀ q, q ≠ p → k'.proc q = k.proc q) (hfather : (k.proc p).isThread = true → (k.proc p).father ≠ none) : ¬ LeavesGroup k k' p := by
  intro h
  rcases hg with ht | ⟨q, hqp, hlive, ht, hf⟩
  · obtain ⟨l, hl⟩ := Option.ne_none_iff_exists'.mp (hfather ht)
    exact h.thread l (by rw [groupLeader, if_pos ht, hl]) ⟨by rw [hth, ht], by rw [hfa, hl]⟩
  · by_cases hp : (k.proc p).isThread = true
    · obtain ⟨l, hl⟩ := Option.ne_none_iff_exists'.mp (hfather hp)
      exact h.thread l (by rw [groupLeader, if_pos hp, hl]) ⟨by rw [hth, hp], by rw [hfa, hl]⟩
    · have hq : groupLeader k q = groupLeader k p := by rw [groupLeader, if_pos ht, hf, groupLeader, if_neg hp]
      have hv := h.visit q p hqp hlive hq (by rw [groupLeader, hoth q hqp, if_pos ht, hf])
      simp [inGroup] at hv

/-- The first part of `exec` always returns. -/
theorem execBegin_total {b : Bool} (hm : k.mem.OkAt e) (htf : (k.proc p).trapframe ≠ none) :
    ∃ o k', execBegin k p b = .ok (o, k') ∧ (o = none ∨ o = some (-1)) ∧ MovedOn k k' p := by
  unfold execBegin
  cases b with
  | false => exact ⟨_, k, rfl, .inr rfl, rfl⟩
  | true =>
    obtain ⟨tf, htf⟩ := Option.ne_none_iff_exists'.mp htf
    rw [htf]
    simp only [Bool.not_true, Bool.false_eq_true, if_false]
    rcases procPagetable_total tf hm with ⟨-, m1, h1, -⟩ | ⟨-, pt1, m1, h1, -⟩
    · rw [h1, ok_bind]
      exact ⟨_, _, rfl, .inr rfl, rfl⟩
    · rw [h1, ok_bind]
      exact ⟨_, _, rfl, .inl rfl, .set _⟩

theorem resume_seg {img : Image} {ph : Option Proghdr} {as : List Pa} (hfr : (k.proc p).frame = .exec pt sz) :
    resume (k.setAnswers as) p (.seg img ph) = execSeg (k.tidy p as) p pt sz img ph := by
  have ht : (k.setAnswers as).setProc p { (k.setAnswers as).proc p with chan := none } = k.tidy p as := rfl
  have hft : ((k.tidy p as).proc p).frame = .exec pt sz := by simpa [Kernel.tidy] using hfr
  unfold resume
  dsimp only
  rw [ht, hft]

/-- **`exec` in a thread group** meets its contract exactly when it fails. -/
theorem exec_in_group_iff (hr : Reach Step always Boot k) (h : ExecStep k a p) (hg : Grouped k p) : ExecMeets k a p ↔ ExecFails k a := by
  obtain ⟨e, hm, hf⟩ := fine_reach hr
  cases h with
  | @call _ b as hp hfr hk =>
    have hlive : (k.proc p).state ≠ .unused := by rw [hp]; decide
    obtain ⟨o, k', hx, ho, hmv⟩ := execBegin_total (k := k.setAnswers as) (p := p) (b := b) hm ((hf p).live hlive).2
    refine iff_of_true ⟨o, k', (step_syscall hk).trans hx, ?_⟩ trivial
    rw [if_pos ho]
    exact hmv.keeps rfl
  | @goOn _ inp as pt sz hp hfr hw =>
    have hft : ((k.tidy p as).proc p).frame = .exec pt sz := by simpa [Kernel.tidy] using hfr
    have hff := (tidy_quiet k p as).fine hf
    have hmt : (k.tidy p as).mem.OkAt e := hm
    have hmem : (k.tidy p as).mem = (k.setAnswers as).mem := rfl
    have hpt := tidy_proc k p as
    cases inp with
    | seg img ph =>
      have hstep : step k (.resume p (.seg img ph) as) = execSeg (k.tidy p as) p pt sz img ph := resume_seg hfr
      have hfails : ExecFails k (.resume p (.seg img ph) as) ↔ ¬ SegOverruns pt sz ph (k.setAnswers as).mem := by
        refine ⟨fun h => h pt sz hfr, fun h pt' sz' hfr' => ?_⟩
        obtain ⟨rfl, rfl⟩ := Frame.exec.inj (hfr.symm.trans hfr')
        exact h
      rw [hfails]
      rcases @execSeg_cases _ _ _ _ _ img ph hmt hff hft hw with ⟨hover, hno⟩ | ⟨hok, o, k', hx, ho, hmv⟩
      · rw [hmem] at hover
        refine iff_of_false ?_ fun h => h hover
        rintro ⟨o, k', hs, -⟩
        exact hno _ (hstep.symm.trans hs)
      · rw [hmem] at hok
        refine iff_of_true ⟨o, k', hstep.trans hx, ?_⟩ hok
        rw [if_pos ho]
        exact hmv.keeps (by rw [hpt])
    | done entry argv =>
      have hstep : step k (.resume p (.done entry argv) as) = execEnd (k.tidy p as) p pt sz entry argv := resume_done hfr
      have hfails : ExecFails k (.resume p (.done entry argv) as) ↔ GivesUp pt sz argv (k.setAnswers as).mem := by
        refine ⟨fun h => h pt sz hfr, fun h pt' sz' hfr' => ?_⟩
        obtain ⟨rfl, rfl⟩ := Frame.exec.inj (hfr.symm.trans hfr')
        exact h
      rw [hfails]
      rcases @execEnd_cases _ _ _ _ _ entry argv hmt hff hft with ⟨hgive, k', hx, hmv⟩ | ⟨hno, hcommit⟩
      · rw [hmem] at hgive
        refine iff_of_true ⟨_, k', hstep.trans hx, ?_⟩ hgive
        rw [if_pos (.inr rfl)]
        exact hmv.keeps (by rw [hpt])
      · rw [hmem] at hno
        refine iff_of_false ?_ hno
        rintro ⟨o, k', hs, hmeets⟩
        obtain ⟨r, rfl, hth, hfa, hoth⟩ := hcommit o k' (hstep.symm.trans hs)
        rw [if_neg (by simp)] at hmeets
        rw [hpt] at hth hfa
        refine hg.stays hth hfa (fun q hq => ?_) (hf p).father hmeets
        rw [hoth q hq]
        exact Kernel.setProc_of_ne _ _ hq

/-- The thread of the first process has called `exec`; the program file has no segments. -/
def threadExec : List Action := runThread ++ [.syscall 1 (.exec true) (pages 70 10)]

theorem exec_in_group_iff_small : ∃ k p, Reach Step always Boot k ∧ ExecStep k (.resume p (.done 0 []) (pages 80 10)) p ∧ Grouped k p ∧
    (ExecMeets k (.resume p (.done 0 []) (pages 80 10)) p ↔ ExecFails k (.resume p (.done 0 []) (pages 80 10))) := by
  obtain ⟨hreach, hp, hfr, ht⟩ := endOf_reach small_boot threadExec
    (fun k => (k.proc 1).state = .running ∧ (k.proc 1).frame.tag = .exec ∧ (k.proc 1).isThread = true) (by decide +kernel)
  obtain ⟨pt, sz, hfr⟩ := Frame.tag_exec hfr
  have hstep : ExecStep (endOf small threadExec) (.resume 1 (.done 0 []) (pages 80 10)) 1 := .goOn hp hfr trivial
  exact ⟨_, 1, hreach, hstep, .inl ht, exec_in_group_iff hreach hstep (.inl ht)⟩

/-- A thread that calls `exec` has a hole in its old image where the guard page is, and `uvmunmap` panics. -/
theorem thread_exec_panics : ¬ ∀ (k : Kernel) (a : Action) (p : Slot), Reach Step always Boot k → ExecStep k a p → Grouped k p →
    ExecMeets k a p := by
  intro hall
  obtain ⟨hreach, hp, hfr, ht, hs⟩ := endOf_reach small_boot threadExec
    (fun k => (k.proc 1).state = .running ∧ (k.proc 1).frame.tag = .exec ∧ (k.proc 1).isThread = true ∧
      (step k (.resume 1 (.done 0 []) (pages 80 10))).isOk = false) (by decide +kernel)
  obtain ⟨pt, sz, hfr⟩ := Frame.tag_exec hfr
  obtain ⟨o, k', hstep, -⟩ := hall _ (.resume 1 (.done 0 []) (pages 80 10)) 1 hreach (.goOn hp hfr trivial) (.inl ht)
  rw [hstep] at hs
  cases hs

end OsLabs.Xv6
