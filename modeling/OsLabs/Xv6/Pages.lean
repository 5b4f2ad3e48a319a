import OsLabs.Xv6.Steps

/-!
# OsLabs.Xv6.Pages — the free list holds pages that `kfree` accepts

`kfree` panics on an address that is not a page of the memory above the kernel.  Everything that it put on the free list passed
that check, and boot fills the list with such pages only; so a page from `kalloc` can always be given back.

* `Kmem.OkAt e m`: the kernel ends at `e`, and every free page is legal.
* one lemma per function that touches physical memory: whatever it returns, the memory is still `OkAt e`.
* `okAt_reach`: so in every reachable state.
-/

namespace OsLabs.Xv6

open Fallible Lts

/-- `kfree` accepts the page. -/
def Legal (e : ℕ) (pa : Pa) : Prop := pa % PGSIZE = 0 ∧ e ≤ pa ∧ pa < PHYSTOP

/-- The kernel ends at `e`, and every page on the free list is legal. -/
def Kmem.OkAt (e : ℕ) (m : Kmem) : Prop := m.kend = e ∧ ∀ pa ∈ m.freelist, Legal e pa

variable {e : ℕ} {m m' : Kmem} {pt : PageTable}

theorem Kmem.OkAt.dataOnly (h : m.OkAt e) (hd : m.DataOnly m') : m'.OkAt e := by
  obtain ⟨d, rfl⟩ := hd
  exact h

/-! ## The allocator -/

theorem kalloc_okAt {pa : Option Pa} (h : m.OkAt e) (hk : kalloc m = (pa, m')) : m'.OkAt e := by
  unfold kalloc at hk
  split at hk
  · obtain ⟨-, rfl⟩ := Prod.mk.inj hk
    exact h
  · split_ifs at hk
    · obtain ⟨-, rfl⟩ := Prod.mk.inj hk
      exact ⟨h.1, fun x hx => h.2 x (List.mem_of_mem_erase hx)⟩
    · obtain ⟨-, rfl⟩ := Prod.mk.inj hk
      exact h

/-- A page from `kalloc` is legal. -/
theorem kalloc_legal {pa : Pa} (h : m.OkAt e) (hk : kalloc m = (some pa, m')) : Legal e pa := by
  have hx := kalloc_some hk pa
  have hpos : 0 < m.freelist.count pa := by
    simp only [single, if_true, Kmem.free] at hx
    omega
  exact h.2 pa (List.count_pos_iff.mp hpos)

theorem kfree_okAt {pa : Pa} (h : m.OkAt e) : Gives (Kmem.OkAt e) (kfree pa m) := by
  unfold kfree
  split_ifs with hpa
  · exact .error _
  · refine .ok ⟨h.1, fun x hx => ?_⟩
    rcases List.mem_cons.mp hx with rfl | hx
    · obtain ⟨h1, h2, h3⟩ : x % PGSIZE = 0 ∧ m.kend ≤ x ∧ x < PHYSTOP := by simpa [not_or] using hpa
      exact ⟨h1, h.1 ▸ h2, h3⟩
    · exact h.2 x hx

theorem kfreeOpt_okAt {pa : Option Pa} (h : m.OkAt e) : Gives (Kmem.OkAt e) (kfreeOpt pa m) := by
  cases pa with
  | none => exact .ok h
  | some pa => exact kfree_okAt h

theorem kfreeIf_okAt {d : Bool} {pa : Pa} (h : m.OkAt e) : Gives (Kmem.OkAt e) (kfreeIf d pa m) := by
  unfold kfreeIf
  split_ifs
  · exact kfree_okAt h
  · exact .ok h

theorem kfreeAll_okAt : ∀ {l : List Pa} {m : Kmem}, m.OkAt e → Gives (Kmem.OkAt e) (kfreeAll l m)
  | [], _, h => .ok h
  | _ :: _, _, h => (kfree_okAt h).bind fun _ h => kfreeAll_okAt h

/-! ## Page tables -/

theorem walkLevel_okAt {level va : ℕ} {alloc : Bool} (h : m.OkAt e) : (walkLevel pt level va alloc m).2.2.OkAt e := by
  unfold walkLevel
  split_ifs
  · exact h
  · exact h
  · split
    · rename_i hm
      exact kalloc_okAt h hm
    · rename_i m1 hm
      have hk : m1.OkAt e := kalloc_okAt h hm
      exact hk

theorem walk_okAt {va : ℕ} {alloc : Bool} (h : m.OkAt e) : Gives (fun r => r.2.2.OkAt e) (walk pt va alloc m) := by
  unfold walk
  split_ifs
  · exact .error _
  · have h1 : (walkLevel pt 1 va alloc m).2.2.OkAt e := walkLevel_okAt h
    split
    · rename_i hw
      rw [hw] at h1
      exact .ok h1
    · rename_i hw
      rw [hw] at h1
      exact .ok (walkLevel_okAt h1)

theorem mappagesLoop_okAt {perm : Perm} : ∀ {n a : ℕ} {pa : Pa} {pt : PageTable} {m : Kmem}, m.OkAt e →
    Gives (fun r => r.2.2.OkAt e) (mappagesLoop perm n a pa pt m)
  | n, a, pa, pt, m, h => by
    unfold mappagesLoop
    refine (walk_okAt h).bind fun ⟨found, pt, m⟩ h => ?_
    dsimp only
    split_ifs
    · exact .ok h
    · exact .error _
    · cases n with
      | zero => exact .ok h
      | succ n => exact mappagesLoop_okAt h

theorem mappages_okAt {va size : ℕ} {pa : Pa} {perm : Perm} (h : m.OkAt e) :
    Gives (fun r => r.2.2.OkAt e) (mappages pt va size pa perm m) := by
  unfold mappages
  split_ifs
  · exact .error _
  · exact mappagesLoop_okAt h

theorem uvmunmapLoop_okAt {d : Bool} : ∀ {n a : ℕ} {pt : PageTable} {m : Kmem}, m.OkAt e →
    Gives (fun r => r.2.OkAt e) (uvmunmapLoop d n a pt m)
  | 0, _, _, _, h => .ok h
  | n + 1, a, pt, m, h => by
    unfold uvmunmapLoop
    refine (walk_okAt h).bind fun ⟨found, pt, m⟩ h => ?_
    dsimp only
    split_ifs
    · exact .error _
    · split
      · exact .error _
      · split_ifs
        · exact .error _
        · exact (kfreeIf_okAt h).bind fun _ h => uvmunmapLoop_okAt h

theorem uvmunmap_okAt {va n : ℕ} {d : Bool} (h : m.OkAt e) : Gives (fun r => r.2.OkAt e) (uvmunmap pt va n d m) := by
  unfold uvmunmap
  split_ifs
  · exact .error _
  · exact uvmunmapLoop_okAt h

theorem unmapMapped_okAt {va : ℕ} {d : Bool} (h : m.OkAt e) : Gives (fun r => r.2.OkAt e) (unmapMapped pt va d m) := by
  unfold unmapMapped
  refine (walk_okAt h).bind fun ⟨found, pt, m⟩ h => ?_
  dsimp only
  split_ifs
  · exact uvmunmap_okAt h
  · exact .ok h

theorem unmapShared_okAt : ∀ {n va : ℕ} {pt : PageTable} {m : Kmem}, m.OkAt e →
    Gives (fun r => r.2.OkAt e) (unmapShared n va pt m)
  | 0, _, _, _, h => .ok h
  | _ + 1, _, _, _, h => (unmapMapped_okAt h).bind fun _ h => unmapShared_okAt h

theorem uvmdealloc_okAt {o n : ℕ} (h : m.OkAt e) : Gives (fun r => r.2.2.OkAt e) (uvmdealloc pt o n m) := by
  unfold uvmdealloc
  split_ifs
  · exact .ok h
  · exact (uvmunmap_okAt h).bind fun _ h => .ok h
  · exact .ok h

theorem uvmallocLoop_okAt {perm : Perm} {o : ℕ} : ∀ {n a : ℕ} {pt : PageTable} {m : Kmem}, m.OkAt e →
    Gives (fun r => r.2.2.OkAt e) (uvmallocLoop perm o n a pt m)
  | 0, _, _, _, h => .ok h
  | n + 1, a, pt, m, h => by
    unfold uvmallocLoop
    split
    · rename_i hm
      exact (uvmdealloc_okAt (kalloc_okAt h hm)).bind fun _ h => .ok h
    · rename_i mem m1 hm
      have hk : m1.OkAt e := kalloc_okAt h hm
      have hk' : (m1.memset mem 0).OkAt e := hk
      refine (mappages_okAt hk').bind fun ⟨ok, pt, m⟩ h => ?_
      dsimp only
      split_ifs
      · exact uvmallocLoop_okAt h
      · exact (kfree_okAt h).bind fun _ h => (uvmdealloc_okAt h).bind fun _ h => .ok h

theorem uvmalloc_okAt {o n : ℕ} {xw xx : Bool} (h : m.OkAt e) :
    Gives (fun r => r.2.2.OkAt e) (uvmalloc pt o n xw xx m) := by
  unfold uvmalloc
  split_ifs
  · exact .ok h
  · exact (uvmallocLoop_okAt h).bind fun _ h => .ok h

theorem freewalk_okAt (h : m.OkAt e) : Gives (Kmem.OkAt e) (freewalk pt m) := by
  unfold freewalk
  split_ifs
  · exact .error _
  · exact kfreeAll_okAt h

theorem uvmfree_okAt {sz : ℕ} (h : m.OkAt e) : Gives (Kmem.OkAt e) (uvmfree pt sz m) := by
  unfold uvmfree
  split_ifs
  · exact (uvmunmap_okAt h).bind fun _ h => freewalk_okAt h
  · exact freewalk_okAt h

theorem uvmcopyLoop_okAt {old : PageTable} : ∀ {n i : ℕ} {new : PageTable} {m : Kmem}, m.OkAt e →
    Gives (fun r => r.2.2.OkAt e) (uvmcopyLoop old n i new m)
  | 0, _, _, _, h => .ok h
  | n + 1, i, new, m, h => by
    unfold uvmcopyLoop
    refine (walk_okAt h).bind fun ⟨found, _, m⟩ h => ?_
    dsimp only
    split_ifs
    · exact .error _
    split
    · exact .error _
    rename_i x hx
    split
    · rename_i hm
      exact (uvmunmap_okAt (kalloc_okAt h hm)).bind fun _ h => .ok h
    · rename_i mem m1 hm
      have hk : m1.OkAt e := kalloc_okAt h hm
      have hk' : (m1.memmove mem x.pa).OkAt e := hk
      refine (mappages_okAt hk').bind fun ⟨ok, pt, m⟩ h => ?_
      dsimp only
      split_ifs
      · exact uvmcopyLoop_okAt h
      · exact (kfree_okAt h).bind fun _ h => (uvmunmap_okAt h).bind fun _ h => .ok h

theorem uvmcopyOpt_okAt {old : Option PageTable} {sz : ℕ} (h : m.OkAt e) :
    Gives (fun r => r.2.2.OkAt e) (uvmcopyOpt old pt sz m) := by
  cases old with
  | none =>
    show Gives _ (if sz = 0 then _ else _)
    split_ifs
    · exact .ok h
    · exact .error _
  | some old => exact uvmcopyLoop_okAt h

theorem uvmfirst_okAt {src : List UInt8} (h : m.OkAt e) : Gives (fun r => r.2.OkAt e) (uvmfirst pt src m) := by
  unfold uvmfirst
  split_ifs
  · exact .error _
  split
  · exact .error _
  · rename_i mem m1 hm
    have hk : m1.OkAt e := kalloc_okAt h hm
    have hk' : (m1.memset mem 0).OkAt e := hk
    exact (mappages_okAt hk').bind fun _ h => .ok h

theorem procPagetable_okAt {tf : Pa} (h : m.OkAt e) : Gives (fun r => r.2.OkAt e) (procPagetable tf m) := by
  unfold procPagetable uvmcreate
  split
  · rename_i hu
    split at hu
    · rename_i hm
      obtain ⟨-, rfl⟩ := Prod.mk.inj hu
      exact .ok (kalloc_okAt h hm)
    · cases hu
  · rename_i m1 hu
    have h1 : m1.OkAt e := by
      split at hu
      · cases hu
      · rename_i m2 hm
        obtain ⟨-, rfl⟩ := Prod.mk.inj hu
        have hk : m2.OkAt e := kalloc_okAt h hm
        exact hk
    refine (mappages_okAt h1).bind fun ⟨ok, pt, m⟩ h => ?_
    dsimp only
    split_ifs
    · exact (uvmfree_okAt h).bind fun _ h => .ok h
    · refine (mappages_okAt h).bind fun ⟨ok, pt, m⟩ h => ?_
      dsimp only
      split_ifs
      · exact (uvmunmap_okAt h).bind fun _ h => (uvmfree_okAt h).bind fun _ h => .ok h
      · exact .ok h

theorem procFreepagetable_okAt {sz : ℕ} (h : m.OkAt e) : Gives (Kmem.OkAt e) (procFreepagetable pt sz m) :=
  (uvmunmap_okAt h).bind fun _ h => (uvmunmap_okAt h).bind fun _ h => uvmfree_okAt h

theorem procFreepagetableOpt_okAt {pt : Option PageTable} {sz : ℕ} (h : m.OkAt e) :
    Gives (Kmem.OkAt e) (procFreepagetableOpt pt sz m) := by
  cases pt with
  | none => exact .ok h
  | some pt => exact procFreepagetable_okAt h

theorem shareLoop_okAt {lpt : PageTable} : ∀ {n va : ℕ} {pt : PageTable} {m : Kmem}, m.OkAt e →
    Gives (fun r => r.2.2.OkAt e) (shareLoop lpt n va pt m)
  | 0, _, _, _, h => .ok h
  | n + 1, va, pt, m, h => by
    unfold shareLoop
    split_ifs
    · exact .ok h
    refine (walk_okAt h).bind fun ⟨found, _, m⟩ h => ?_
    dsimp only
    split
    · exact shareLoop_okAt h
    · split_ifs
      · refine (mappages_okAt h).bind fun ⟨ok, pt, m⟩ h => ?_
        dsimp only
        split_ifs
        · exact shareLoop_okAt h
        · exact .ok h
      · exact shareLoop_okAt h

theorem share_okAt {lpt : Option PageTable} {sz : ℕ} (h : m.OkAt e) :
    Gives (fun r => r.2.2.OkAt e) (share lpt sz pt m) := by
  cases lpt with
  | none =>
    show Gives _ (if pgroundup sz = 0 then _ else _)
    split_ifs
    · exact .ok h
    · exact .error _
  | some lpt => exact shareLoop_okAt h

/-! ## Files -/

theorem pipeclose_okAt {i : ℕ} {w : Bool} {fs : Files} (h : m.OkAt e) :
    Gives (fun r => r.2.OkAt e) (pipeclose i w fs m) := by
  unfold pipeclose
  split
  · exact .error _
  dsimp only
  split_ifs
  · exact (kfree_okAt h).bind fun _ h => .ok h
  · exact .ok h
  · exact (kfree_okAt h).bind fun _ h => .ok h
  · exact .ok h

theorem fileclose_okAt {f : FileId} {fs : Files} (h : m.OkAt e) : Gives (fun r => r.2.OkAt e) (fileclose f fs m) := by
  unfold fileclose
  dsimp only
  split_ifs
  · exact .error _
  · exact .ok h
  · split
    · exact pipeclose_okAt h
    · exact .ok h
    · exact .ok h
    · exact .ok h

theorem filecloseAll_okAt {of : Ofile} {fs : Files} (h : m.OkAt e) :
    Gives (fun r => r.2.OkAt e) (filecloseAll of fs m) := by
  refine Gives.foldlM (I := fun r : Files × Kmem => r.2.OkAt e) (fun s fd hs => ?_) h
  split
  · exact .ok hs
  · exact fileclose_okAt hs

theorem pipealloc_okAt {fs : Files} (h : m.OkAt e) : Gives (fun r => r.2.2.OkAt e) (pipealloc fs m) := by
  unfold pipealloc
  split
  · exact .ok h
  split
  · exact (fileclose_okAt h).bind fun _ h => .ok h
  split
  · rename_i hm
    exact (fileclose_okAt (kalloc_okAt h hm)).bind fun _ h => (fileclose_okAt h).bind fun _ h => .ok h
  · rename_i hm
    exact .ok (kalloc_okAt h hm)

/-! ## Calls -/

variable {k k' : Kernel} {p i : Slot} {o : Option ℤ} {r : ℤ}

theorem FreeMem.okAt {P : Proc} (hm : FreeMem P m m') (h : m.OkAt e) : m'.OkAt e := by
  obtain ⟨m1, h1, h2⟩ := hm
  exact procFreepagetableOpt_okAt (kfreeOpt_okAt h m1 h1) m' h2

theorem FreeThreadMem.okAt {P : Proc} (hm : FreeThreadMem P m m') (h : m.OkAt e) : m'.OkAt e := by
  obtain ⟨pt, pt1, pt2, pt3, m1, m2, m3, m4, -, h1, h2, h3, h4, h5⟩ := hm
  have h1 := unmapShared_okAt h _ h1
  have h2 := unmapMapped_okAt h1 _ h2
  have h3 := unmapMapped_okAt h2 _ h3
  exact kfreeOpt_okAt (uvmfree_okAt h3 _ h4) _ h5

theorem AllocRes.okAt {np : Option Slot} (hr : AllocRes k np k') (h : k.mem.OkAt e) : k'.mem.OkAt e := by
  cases hr with
  | noSlot => exact h
  | noTrapframe hi h1 h2 => exact h2.okAt (kalloc_okAt h h1)
  | noPagetable hi h1 h2 h3 => exact h3.okAt (procPagetable_okAt (kalloc_okAt h h1) _ h2)
  | ok hi h1 h2 => exact procPagetable_okAt (kalloc_okAt h h1) _ h2

theorem ForkRes.okAt (hr : ForkRes k p r k') (h : k.mem.OkAt e) : k'.mem.OkAt e := by
  cases hr with
  | noSlot ha => exact ha.okAt h
  | noCopy ha hpt hu hm => exact hm.okAt (uvmcopyOpt_okAt (ha.okAt h) _ hu)
  | ok ha hpt hu hf hc => exact uvmcopyOpt_okAt (ha.okAt h) _ hu

theorem ThreadRes.okAt {fn arg retfn : ℕ} (hr : ThreadRes k p fn arg retfn r k') (h : k.mem.OkAt e) :
    k'.mem.OkAt e := by
  cases hr with
  | noSlot ha => exact ha.okAt h
  | noShare ha hl hpt hs hm => exact hm.okAt (share_okAt (ha.okAt h) _ hs)
  | noStack ha hl hpt hs hu hm => exact hm.okAt (uvmalloc_okAt (share_okAt (ha.okAt h) _ hs) _ hu)
  | ok ha hl hpt hs hu hr hf hc => exact uvmalloc_okAt (share_okAt (ha.okAt h) _ hs) _ hu

theorem JoinRes.okAt {tid : ℤ} {l : Option Slot} (hr : JoinRes k p tid l o k') (h : k.mem.OkAt e) : k'.mem.OkAt e := by
  cases hr with
  | gone _ => exact h
  | reap _ _ _ hm => exact hm.okAt h
  | sleep _ _ => exact h

theorem WaitRes.okAt {addr : ℕ} (hr : WaitRes k p addr o k') (h : k.mem.OkAt e) : k'.mem.OkAt e := by
  cases hr with
  | badAddr _ hc => exact h.dataOnly (copyStatus_dataOnly hc)
  | reap _ _ hc hm => exact hm.okAt (h.dataOnly (copyStatus_dataOnly hc))
  | nobody _ => exact h
  | sleep _ => exact h

theorem broadcastPage_okAt {l : Slot} {lroot : Pa} {va : ℕ} {pa : Pa} (h : k.mem.OkAt e) :
    Gives (fun r => r.2.mem.OkAt e) (broadcastPage l lroot va pa k) := by
  refine Gives.foldlM (I := fun r : Bool × Kernel => r.2.mem.OkAt e) (fun s q hs => ?_) h
  split_ifs
  · split
    · exact .ok hs
    · split_ifs
      · exact .ok hs
      · refine (walk_okAt hs).bind fun ⟨found, _, _⟩ _ => ?_
        dsimp only
        split_ifs
        · exact .ok hs
        · exact (mappages_okAt hs).bind fun _ h => .ok h
  · exact .ok hs

theorem broadcast_okAt {l : Slot} {lpt : PageTable} : ∀ {n va : ℕ} {k : Kernel}, k.mem.OkAt e →
    Gives (fun r => r.2.mem.OkAt e) (broadcast l lpt n va k)
  | 0, _, _, h => .ok h
  | n + 1, va, k, h => by
    unfold broadcast
    split_ifs
    · exact .ok h
    · exact (broadcastPage_okAt h).bind fun _ h => (broadcast_okAt h).bind fun _ h => .ok h

theorem unbroadcastPage_okAt {l : Slot} {lroot : Pa} {va : ℕ} (h : k.mem.OkAt e) :
    Gives (fun k' => k'.mem.OkAt e) (unbroadcastPage l lroot va k) := by
  refine Gives.foldlM (I := fun s : Kernel => s.mem.OkAt e) (fun s q hs => ?_) h
  split_ifs
  · split
    · exact .ok hs
    · split_ifs
      · exact .ok hs
      · exact (uvmunmap_okAt hs).bind fun _ h => .ok h
  · exact .ok hs

theorem unbroadcast_okAt {l : Slot} {lroot : Pa} : ∀ {n va : ℕ} {k : Kernel}, k.mem.OkAt e →
    Gives (fun k' => k'.mem.OkAt e) (unbroadcast l lroot n va k)
  | 0, _, _, h => .ok h
  | n + 1, va, k, h => by
    unfold unbroadcast
    split_ifs
    · exact .ok h
    · exact (unbroadcastPage_okAt h).bind fun _ h => unbroadcast_okAt h

theorem GrowRes.okAt {n : ℤ} (hr : GrowRes k p n r k') (h : k.mem.OkAt e) : k'.mem.OkAt e := by
  cases hr with
  | zero _ => exact h
  | nullGrow _ _ _ hm => exact kalloc_okAt h hm
  | nullShrink _ _ _ => exact h
  | noMem _ _ _ hu => exact uvmalloc_okAt h _ hu
  | grow _ _ _ hu _ hb =>
    have h2 := broadcast_okAt (uvmalloc_okAt h _ hu) _ hb
    exact h2
  | shrink _ _ _ hu hb =>
    have h2 := unbroadcast_okAt (uvmdealloc_okAt h _ hu) _ hb
    exact h2

theorem ExecBeginRes.okAt (hr : ExecBeginRes k p o k') (h : k.mem.OkAt e) : k'.mem.OkAt e := by
  cases hr with
  | noHeader => exact h
  | noPagetable _ hp => exact procPagetable_okAt h _ hp
  | ok _ hp => exact procPagetable_okAt h _ hp

theorem ExecRes.okAt {sz : ℕ} (hr : ExecRes k p pt sz o k') (h : k.mem.OkAt e) : k'.mem.OkAt e := by
  cases hr with
  | skip => exact h
  | bad hf => exact procFreepagetable_okAt h _ hf
  | noMem hu hf => exact procFreepagetable_okAt (uvmalloc_okAt h _ hu) _ hf
  | badLoad hu _ hl hf => exact procFreepagetable_okAt ((uvmalloc_okAt h _ hu).dataOnly (loadseg_dataOnly hl)) _ hf
  | seg hu _ hl => exact (uvmalloc_okAt h _ hu).dataOnly (loadseg_dataOnly hl)
  | noStack hu hf => exact procFreepagetable_okAt (uvmalloc_okAt h _ hu) _ hf
  | badArgs hu _ _ hs hf => exact procFreepagetable_okAt ((uvmalloc_okAt h _ hu).dataOnly (pushStack_dataOnly hs)) _ hf
  | commit hu _ _ hs _ hf => exact procFreepagetable_okAt ((uvmalloc_okAt h _ hu).dataOnly (pushStack_dataOnly hs)) _ hf

theorem FileRes.okAt (hr : FileRes k p k') (h : k.mem.OkAt e) : k'.mem.OkAt e := by
  cases hr with
  | same => exact h
  | openBad => exact h
  | openNoFd _ hc => exact fileclose_okAt h _ hc
  | «open» _ _ _ _ _ => exact h
  | dup _ _ _ => exact h
  | close _ hc => exact fileclose_okAt h _ hc
  | noPipe hp => exact pipealloc_okAt h _ hp
  | pipeBad hp hm h1 h2 => exact fileclose_okAt (fileclose_okAt ((pipealloc_okAt h _ hp).dataOnly hm) _ h1) _ h2
  | pipe hp hm _ _ => exact (pipealloc_okAt h _ hp).dataOnly hm

theorem closeFiles_okAt {fr : Frame} (hr : closeFiles k p fr = .ok k') (h : k.mem.OkAt e) : k'.mem.OkAt e := by
  obtain ⟨fs, m, hc, rfl⟩ := closeFiles_inv hr
  exact filecloseAll_okAt h _ hc

theorem threadExitEnd_okAt (hr : threadExitEnd k p = .ok k') (h : k.mem.OkAt e) : k'.mem.OkAt e := by
  obtain ⟨P, m, hs, rfl⟩ := threadExitEnd_inv hr
  rcases releaseStack_inv hs with ⟨pt, pt', -, hu, -⟩ | ⟨-, -, rfl⟩
  · exact unmapMapped_okAt h _ hu
  · exact h

theorem exitEnd_mem (k : Kernel) (p : Slot) (st : ℤ) : (exitEnd k p st).mem = k.mem := by
  unfold exitEnd reparent
  dsimp only
  split_ifs <;> rfl

theorem kill_mem (k : Kernel) (pid : ℤ) : (kill k pid).2.mem = k.mem := by
  unfold kill
  split <;> rfl

/-- Every step keeps the free list legal. -/
theorem step_okAt {a : Action} (hs : Step k a o k') (h : k.mem.OkAt e) : k'.mem.OkAt e := by
  have ha : ∀ as, (k.setAnswers as).mem.OkAt e := fun _ => h
  cases step_inv hs with
  | scheduler _ => exact h
  | yield _ => exact h
  | killed _ _ _ _ hc => exact closeFiles_okAt hc (ha _)
  | fault _ _ _ hc => exact closeFiles_okAt hc (ha _)
  | fork _ _ _ hr => exact hr.okAt (ha _)
  | exec _ _ _ hr => exact hr.okAt (ha _)
  | sbrk _ _ _ hr => exact hr.okAt (ha _)
  | threadCreate _ _ _ hr => exact hr.okAt (ha _)
  | threadJoin _ _ _ hr => exact hr.okAt (ha _)
  | threadExit _ _ _ _ hc => exact closeFiles_okAt hc (ha _)
  | leaderExit _ _ _ _ hc => exact closeFiles_okAt hc (ha _)
  | exit _ _ _ _ hc => exact closeFiles_okAt hc (ha _)
  | wait _ _ _ hr => exact hr.okAt (ha _)
  | kill _ _ _ =>
    rw [kill_mem]
    exact ha _
  | file _ _ _ _ hr => exact hr.okAt (ha _)
  | resumeWait _ _ hr => exact hr.okAt (ha _)
  | resumeJoin _ _ hr => exact hr.okAt (ha _)
  | resumeExit _ _ =>
    rw [exitEnd_mem]
    exact ha _
  | resumeThreadExit _ _ hr => exact threadExitEnd_okAt hr (ha _)
  | resumeExec _ _ hr => exact hr.okAt (ha _)

theorem boot_okAt (h : Boot k) : ∃ e, k.mem.OkAt e := by
  obtain ⟨m0, root, tf, pt0, pt, m1, m2, m, hf, h1, h2, h3, rfl, -⟩ := boot_inv h
  have h0 : m0.OkAt m0.kend := ⟨rfl, hf.2⟩
  exact ⟨m0.kend, uvmfirst_okAt (procPagetable_okAt (kalloc_okAt h0 h1) _ h2) _ h3⟩

/-- **The free list is legal in every reachable state.** -/
theorem okAt_reach {ok : Kernel → Action → Prop} (h : Reach Step ok Boot k) : ∃ e, k.mem.OkAt e :=
  h.inv (fun _ => boot_okAt) fun _ _ _ _ ⟨e, h⟩ _ hs => ⟨e, step_okAt hs h⟩

end OsLabs.Xv6
