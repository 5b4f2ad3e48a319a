import OsLabs.Xv6.Calls

/-!
# OsLabs.Xv6.Panics — where the panics of the file table can come from

`NotFile` leaves out the panics of `filedup` and `fileclose`.  Every function on memory and page tables fails in `NotFile` only; so
does every call, once the loops over descriptors do.
-/

namespace OsLabs.Xv6

open Fallible

/-- Not one of the two panics of the file table. -/
def NotFile (e : Panic) : Prop := e ≠ .filedup ∧ e ≠ .fileclose

instance (e : Panic) : Decidable (NotFile e) := inferInstanceAs (Decidable (e ≠ .filedup ∧ e ≠ .fileclose))

variable {k : Kernel} {p i : Slot} {m : Kmem} {pt : PageTable}

/-! ## Memory and page tables -/

theorem kfree_fails {pa : Pa} : Fails NotFile (kfree pa m) := by
  unfold kfree
  split_ifs
  · exact .error (by decide)
  · exact .ok _

theorem kfreeOpt_fails {pa : Option Pa} : Fails NotFile (kfreeOpt pa m) := by
  cases pa with
  | none => exact .ok _
  | some pa => exact kfree_fails

theorem kfreeIf_fails {b : Bool} {pa : Pa} : Fails NotFile (kfreeIf b pa m) := by
  unfold kfreeIf
  split_ifs
  · exact kfree_fails
  · exact .ok _

theorem kfreeAll_fails : ∀ {l : List Pa} {m : Kmem}, Fails NotFile (kfreeAll l m)
  | [], _ => .ok _
  | _ :: _, _ => kfree_fails.bind fun _ _ => kfreeAll_fails

theorem walk_fails {va : ℕ} {b : Bool} : Fails NotFile (walk pt va b m) := by
  unfold walk
  split_ifs
  · exact .error (by decide)
  · split <;> exact .ok _

theorem mappagesLoop_fails {perm : Perm} : ∀ {n a : ℕ} {pa : Pa} {pt : PageTable} {m : Kmem},
    Fails NotFile (mappagesLoop perm n a pa pt m)
  | n, a, pa, pt, m => by
    unfold mappagesLoop
    refine walk_fails.bind fun ⟨found, pt, m⟩ _ => ?_
    dsimp only
    split_ifs
    · exact .ok _
    · exact .error (by decide)
    · cases n with
      | zero => exact .ok _
      | succ n => exact mappagesLoop_fails

theorem mappages_fails {va size : ℕ} {pa : Pa} {perm : Perm} : Fails NotFile (mappages pt va size pa perm m) := by
  unfold mappages
  split_ifs
  · exact .error (by decide)
  · exact mappagesLoop_fails

theorem uvmunmapLoop_fails {b : Bool} : ∀ {n a : ℕ} {pt : PageTable} {m : Kmem},
    Fails NotFile (uvmunmapLoop b n a pt m)
  | 0, _, _, _ => .ok _
  | n + 1, a, pt, m => by
    unfold uvmunmapLoop
    refine walk_fails.bind fun ⟨found, pt, m⟩ _ => ?_
    dsimp only
    split_ifs
    · exact .error (by decide)
    · split
      · exact .error (by decide)
      · split_ifs
        · exact .error (by decide)
        · exact kfreeIf_fails.bind fun _ _ => uvmunmapLoop_fails

theorem uvmunmap_fails {va n : ℕ} {b : Bool} : Fails NotFile (uvmunmap pt va n b m) := by
  unfold uvmunmap
  split_ifs
  · exact .error (by decide)
  · exact uvmunmapLoop_fails

theorem unmapMapped_fails {va : ℕ} {b : Bool} : Fails NotFile (unmapMapped pt va b m) := by
  refine walk_fails.bind fun ⟨found, pt, m⟩ _ => ?_
  dsimp only
  split_ifs
  · exact uvmunmap_fails
  · exact .ok _

theorem unmapShared_fails : ∀ {n va : ℕ} {pt : PageTable} {m : Kmem}, Fails NotFile (unmapShared n va pt m)
  | 0, _, _, _ => .ok _
  | _ + 1, _, _, _ => unmapMapped_fails.bind fun _ _ => unmapShared_fails

theorem uvmdealloc_fails {o n : ℕ} : Fails NotFile (uvmdealloc pt o n m) := by
  unfold uvmdealloc
  split_ifs
  · exact .ok _
  · exact uvmunmap_fails.bind fun _ _ => .ok _
  · exact .ok _

theorem uvmallocLoop_fails {perm : Perm} {o : ℕ} : ∀ {n a : ℕ} {pt : PageTable} {m : Kmem},
    Fails NotFile (uvmallocLoop perm o n a pt m)
  | 0, _, _, _ => .ok _
  | n + 1, a, pt, m => by
    unfold uvmallocLoop
    split
    · exact uvmdealloc_fails.bind fun _ _ => .ok _
    · refine mappages_fails.bind fun ⟨ok, pt, m⟩ _ => ?_
      dsimp only
      split_ifs
      · exact uvmallocLoop_fails
      · exact kfree_fails.bind fun _ _ => uvmdealloc_fails.bind fun _ _ => .ok _

theorem uvmalloc_fails {o n : ℕ} {xw xx : Bool} : Fails NotFile (uvmalloc pt o n xw xx m) := by
  unfold uvmalloc
  split_ifs
  · exact .ok _
  · exact uvmallocLoop_fails.bind fun _ _ => .ok _

theorem freewalk_fails : Fails NotFile (freewalk pt m) := by
  unfold freewalk
  split_ifs
  · exact .error (by decide)
  · exact kfreeAll_fails

theorem uvmfree_fails {sz : ℕ} : Fails NotFile (uvmfree pt sz m) := by
  unfold uvmfree
  split_ifs
  · exact uvmunmap_fails.bind fun _ _ => freewalk_fails
  · exact freewalk_fails

theorem uvmcopyLoop_fails {old : PageTable} : ∀ {n i : ℕ} {new : PageTable} {m : Kmem},
    Fails NotFile (uvmcopyLoop old n i new m)
  | 0, _, _, _ => .ok _
  | n + 1, i, new, m => by
    unfold uvmcopyLoop
    refine walk_fails.bind fun ⟨found, _, m⟩ _ => ?_
    dsimp only
    split_ifs
    · exact .error (by decide)
    · split
      · exact .error (by decide)
      · split
        · exact uvmunmap_fails.bind fun _ _ => .ok _
        · refine mappages_fails.bind fun ⟨ok, new, m⟩ _ => ?_
          dsimp only
          split_ifs
          · exact uvmcopyLoop_fails
          · exact kfree_fails.bind fun _ _ => uvmunmap_fails.bind fun _ _ => .ok _

theorem uvmcopyOpt_fails {old : Option PageTable} {new : PageTable} {sz : ℕ} :
    Fails NotFile (uvmcopyOpt old new sz m) := by
  unfold uvmcopyOpt
  split
  · split_ifs
    · exact .ok _
    · exact .error (by decide)
  · exact uvmcopyLoop_fails

theorem uvmclear_fails {va : ℕ} : Fails NotFile (uvmclear pt va m) := by
  refine walk_fails.bind fun ⟨found, pt, m⟩ _ => ?_
  dsimp only
  split_ifs
  · exact .error (by decide)
  · exact .ok _

/-! ## Processes -/

theorem procPagetable_fails {tf : Pa} : Fails NotFile (procPagetable tf m) := by
  unfold procPagetable
  split
  · exact .ok _
  · refine mappages_fails.bind fun ⟨ok, pt, m⟩ _ => ?_
    dsimp only
    split_ifs
    · exact uvmfree_fails.bind fun _ _ => .ok _
    · refine mappages_fails.bind fun ⟨ok, pt, m⟩ _ => ?_
      dsimp only
      split_ifs
      · exact uvmunmap_fails.bind fun _ _ => uvmfree_fails.bind fun _ _ => .ok _
      · exact .ok _

theorem procFreepagetable_fails {sz : ℕ} : Fails NotFile (procFreepagetable pt sz m) :=
  uvmunmap_fails.bind fun _ _ => uvmunmap_fails.bind fun _ _ => uvmfree_fails

theorem procFreepagetableOpt_fails {pt : Option PageTable} {sz : ℕ} : Fails NotFile (procFreepagetableOpt pt sz m) := by
  cases pt with
  | none => exact .ok _
  | some pt => exact procFreepagetable_fails

theorem freeproc_fails : Fails NotFile (freeproc k i) :=
  kfreeOpt_fails.bind fun _ _ => procFreepagetableOpt_fails.bind fun _ _ => .ok _

theorem freeprocThread_fails : Fails NotFile (freeprocThread k i) := by
  unfold freeprocThread
  split
  · exact .error (by decide)
  · exact unmapShared_fails.bind fun _ _ => unmapMapped_fails.bind fun _ _ => unmapMapped_fails.bind fun _ _ =>
      uvmfree_fails.bind fun _ _ => kfreeOpt_fails.bind fun _ _ => .ok _

theorem allocproc_fails : Fails NotFile (allocproc k) := by
  unfold allocproc
  split
  · exact .ok _
  · dsimp only
    split
    · exact freeproc_fails.bind fun _ _ => .ok _
    · refine procPagetable_fails.bind fun ⟨pt, m⟩ _ => ?_
      dsimp only
      split
      · exact freeproc_fails.bind fun _ _ => .ok _
      · exact .ok _

theorem shareLoop_fails {lpt : PageTable} : ∀ {n va : ℕ} {pt : PageTable} {m : Kmem},
    Fails NotFile (shareLoop lpt n va pt m)
  | 0, _, _, _ => .ok _
  | n + 1, va, pt, m => by
    unfold shareLoop
    split
    · exact .ok _
    refine walk_fails.bind fun ⟨found, _, m⟩ _ => ?_
    dsimp only
    split
    · exact shareLoop_fails
    · split
      · refine mappages_fails.bind fun ⟨ok, pt, m⟩ _ => ?_
        dsimp only
        split_ifs
        · exact shareLoop_fails
        · exact .ok _
      · exact shareLoop_fails

theorem share_fails {lpt : Option PageTable} {sz : ℕ} : Fails NotFile (share lpt sz pt m) := by
  unfold share
  split
  · split_ifs
    · exact .ok _
    · exact .error (by decide)
  · exact shareLoop_fails

/-- The descriptor loop of `thread_create` and `fork` does not panic once a slot `np` was allocated. -/
def DupOk (k : Kernel) (p : Slot) : Prop :=
  ∀ np k1, AllocRes k (some np) k1 → Fails NotFile (filedupAll (k1.proc p).ofile k1.fs)

theorem threadCreate_fails {fn arg retfn : ℕ} (hp : (k.proc p).state ≠ .unused) (hf : DupOk k p) :
    Fails NotFile (threadCreate k p fn arg retfn) := by
  refine allocproc_fails.bind fun ⟨np, k1⟩ hal => ?_
  have hal := allocproc_inv hal
  cases np with
  | none => exact .ok _
  | some np =>
    have hne : p ≠ np := hal.ne hp
    dsimp only
    split
    · exact .error (by decide)
    split
    · exact .error (by decide)
    refine share_fails.bind fun ⟨ok, pt, m⟩ _ => ?_
    dsimp only
    split_ifs
    · exact freeproc_fails.bind fun _ _ => .ok _
    unfold threadFinish
    refine uvmalloc_fails.bind fun ⟨r, pt, m⟩ _ => ?_
    dsimp only
    split_ifs
    · exact freeproc_fails.bind fun _ _ => .ok _
    · exact .error (by decide)
    · simp only [Kernel.setProc_of_ne _ _ hne, Kernel.setMem_proc, Kernel.setProc_fs, Kernel.setMem_fs]
      refine (hf np k1 hal).bind fun fs _ => ?_
      split
      · exact .error (by decide)
      · exact .ok _

theorem fork_fails (hp : (k.proc p).state ≠ .unused) (hf : DupOk k p) : Fails NotFile (fork k p) := by
  refine allocproc_fails.bind fun ⟨np, k1⟩ hal => ?_
  have hal := allocproc_inv hal
  cases np with
  | none => exact .ok _
  | some np =>
    have hne : p ≠ np := hal.ne hp
    dsimp only
    split
    · exact .error (by decide)
    refine uvmcopyOpt_fails.bind fun ⟨ok, new, m⟩ _ => ?_
    dsimp only
    split_ifs
    · exact freeproc_fails.bind fun _ _ => .ok _
    · simp only [Kernel.setProc_of_ne _ _ hne, Kernel.setMem_proc, Kernel.setProc_fs, Kernel.setMem_fs]
      refine (hf np k1 hal).bind fun fs _ => ?_
      split
      · exact .error (by decide)
      · exact .ok _

theorem joinRound_fails {tid : ℤ} {l : Option Slot} : Fails NotFile (joinRound k p tid l) := by
  unfold joinRound
  split
  · exact .ok _
  · split_ifs
    · exact freeprocThread_fails.bind fun _ _ => .ok _
    · exact .ok _

theorem releaseStack_fails {P : Proc} : Fails NotFile (releaseStack P m) := by
  unfold releaseStack
  split_ifs
  · split
    · exact .error (by decide)
    · exact unmapMapped_fails.bind fun _ _ => .ok _
  · exact .ok _

theorem threadExitEnd_fails : Fails NotFile (threadExitEnd k p) := releaseStack_fails.bind fun _ _ => .ok _

theorem broadcastPage_fails {leader : Slot} {lroot : Pa} {va : ℕ} {pa : Pa} :
    Fails NotFile (broadcastPage leader lroot va pa k) := by
  refine Fails.foldlM (I := fun _ => True) (fun _ _ _ _ _ => trivial) (fun s q _ => ?_) trivial
  split_ifs
  · split
    · exact .ok _
    · split_ifs
      · exact .ok _
      · refine walk_fails.bind fun ⟨found, _, _⟩ _ => ?_
        dsimp only
        split_ifs
        · exact .ok _
        · exact mappages_fails.bind fun _ _ => .ok _
  · exact .ok _

theorem broadcast_fails {leader : Slot} {lpt : PageTable} : ∀ {n va : ℕ} {k : Kernel},
    Fails NotFile (broadcast leader lpt n va k)
  | 0, _, _ => .ok _
  | n + 1, va, k => by
    unfold broadcast
    split_ifs
    · exact .ok _
    · exact broadcastPage_fails.bind fun _ _ => broadcast_fails.bind fun _ _ => .ok _

theorem unbroadcastPage_fails {leader : Slot} {lroot : Pa} {va : ℕ} :
    Fails NotFile (unbroadcastPage leader lroot va k) := by
  refine Fails.foldlM (I := fun _ => True) (fun _ _ _ _ _ => trivial) (fun s q _ => ?_) trivial
  split_ifs
  · split
    · exact .ok _
    · split_ifs
      · exact .ok _
      · exact uvmunmap_fails.bind fun _ _ => .ok _
  · exact .ok _

theorem unbroadcast_fails {leader : Slot} {lroot : Pa} : ∀ {n va : ℕ} {k : Kernel},
    Fails NotFile (unbroadcast leader lroot n va k)
  | 0, _, _ => .ok _
  | n + 1, va, k => by
    unfold unbroadcast
    split_ifs
    · exact .ok _
    · exact unbroadcastPage_fails.bind fun _ _ => unbroadcast_fails

theorem growproc_fails {n : ℤ} : Fails NotFile (growproc k p n) := by
  unfold growproc
  split
  · exact .error (by decide)
  dsimp only
  split
  · exact .ok _
  split
  · split_ifs
    · split
      · exact .ok _
      · exact .error (by decide)
    · exact .ok _
  · split_ifs
    · refine uvmalloc_fails.bind fun ⟨sz, pt, m⟩ _ => ?_
      dsimp only
      split_ifs
      · exact .ok _
      · exact broadcast_fails.bind fun _ _ => .ok _
    · exact uvmdealloc_fails.bind fun _ _ => unbroadcast_fails.bind fun _ _ => .ok _

theorem copyStatus_fails {pt : Option PageTable} {addr : ℕ} {x : ℤ} : Fails NotFile (copyStatus pt addr x m) := by
  unfold copyStatus
  split_ifs
  · exact .ok _
  · split
    · exact .error (by decide)
    · exact .ok _

theorem waitRound_fails {addr : ℕ} : Fails NotFile (waitRound k p addr) := by
  unfold waitRound
  split
  · refine copyStatus_fails.bind fun ⟨ok, m⟩ _ => ?_
    dsimp only
    split_ifs
    · exact .ok _
    · exact freeproc_fails.bind fun _ _ => .ok _
  · dsimp only
    split_ifs <;> exact .ok _

/-! ## exec -/

theorem execBegin_fails {header : Bool} : Fails NotFile (execBegin k p header) := by
  unfold execBegin
  split_ifs
  · exact .ok _
  · split
    · exact .error (by decide)
    · refine procPagetable_fails.bind fun ⟨pt, m⟩ _ => ?_
      dsimp only
      split <;> exact .ok _

theorem execBad_fails {sz : ℕ} : Fails NotFile (execBad k p pt sz) := procFreepagetable_fails.bind fun _ _ => .ok _

theorem loadsegLoop_fails {img : Image} {va off sz : ℕ} : ∀ {n i : ℕ} {m : Kmem},
    Fails NotFile (loadsegLoop img pt va off sz n i m)
  | 0, _, _ => .ok _
  | n + 1, i, m => by
    unfold loadsegLoop
    split
    · exact .error (by decide)
    · dsimp only
      split_ifs
      · exact .ok _
      · exact loadsegLoop_fails

theorem execSeg_fails {sz : ℕ} {img : Image} {ph : Option Proghdr} : Fails NotFile (execSeg k p pt sz img ph) := by
  unfold execSeg
  split
  · exact execBad_fails
  split_ifs
  · exact .ok _
  · exact execBad_fails
  · exact execBad_fails
  · exact execBad_fails
  refine uvmalloc_fails.bind fun ⟨sz1, pt, m⟩ _ => ?_
  dsimp only
  split_ifs
  · exact execBad_fails
  refine loadsegLoop_fails.bind fun ⟨ok, m⟩ _ => ?_
  dsimp only
  split_ifs
  · exact execBad_fails
  · exact .ok _

theorem execEnd_fails {sz entry : ℕ} {argv : List (List UInt8)} : Fails NotFile (execEnd k p pt sz entry argv) := by
  refine uvmalloc_fails.bind fun ⟨sz1, pt, m⟩ _ => ?_
  dsimp only
  split_ifs
  · exact execBad_fails
  refine uvmclear_fails.bind fun pt _ => ?_
  split
  · exact execBad_fails
  split
  · exact .error (by decide)
  · exact procFreepagetable_fails.bind fun _ _ => .ok _

end OsLabs.Xv6
