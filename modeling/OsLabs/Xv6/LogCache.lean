import OsLabs.Xv6.Log

/-!
# OsLabs.Xv6.LogCache — what the buffer cache holds while the log is in use

Two invariants of the cache and the disk, each with a lemma for every way in which the kernel touches a buffer.  `pins` are the blocks
that are logged and not yet installed, `stale` those whose home a recovery has still to write, `cur` the state that readers see.

* `Coherent`: a valid buffer of a home block holds what readers see, a valid buffer of a log block what is on the disk; a home block that
  is neither pinned nor stale is on the disk as readers see it; a pinned block is in a buffer.
* `Counted`: `refcnt` counts the holder of the sleep lock, those who wait for it, and the pin.
-/

namespace OsLabs.Xv6.Fs

open RedoLog (Region)

/-! ## Coherence -/

/-- The buffer is the one of block `b` of the root device. -/
def Buf.Caches {β : Type} (x : Buf β) (b : ℕ) : Prop := x.dev = ROOTDEV ∧ x.blockno = b

instance {β : Type} (x : Buf β) (b : ℕ) : Decidable (x.Caches b) := inferInstanceAs (Decidable (_ ∧ _))

structure Coherent (r : Region) (cur : ℕ → Block) (pins stale : List ℕ) (disk : ℕ → Block) (bc : Bcache Block) : Prop where
  wf : bc.WF
  home : ∀ i b, (bc.buf i).Caches b → (bc.buf i).valid = true → r.Home b → b ∉ stale → (bc.buf i).data = cur b
  log : ∀ i b, (bc.buf i).Caches b → (bc.buf i).valid = true → ¬ r.Home b → (bc.buf i).data = disk b
  clean : ∀ b, r.Home b → b ∉ pins → b ∉ stale → disk b = cur b
  pin : ∀ b ∈ pins, ∃ i, (bc.buf i).Caches b ∧ (bc.buf i).valid = true

/-- `refcnt` counts the references. -/
structure Counted (pins : List ℕ) (waiting : List (ℕ × BufId)) (bc : Bcache Block) : Prop where
  count : ∀ i, (bc.buf i).refcnt = (bc.buf i).lock.isSome.toNat + waiting.countP (fun w => w.2 = i) +
    if (bc.buf i).dev = ROOTDEV ∧ (bc.buf i).blockno ∈ pins then 1 else 0
  dev : ∀ i, (bc.buf i).refcnt ≠ 0 → (bc.buf i).dev = ROOTDEV
  valid : ∀ i, (bc.buf i).lock ≠ none → (bc.buf i).valid = true

variable {r : Region} {cur : ℕ → Block} {pins stale : List ℕ} {disk : ℕ → Block} {bc bc' : Bcache Block}
  {waiting : List (ℕ × BufId)} {i j : BufId} {b p : ℕ}

/-- Two buffers of one block are one buffer. -/
theorem Bcache.WF.caches_inj (h : bc.WF) (hi : (bc.buf i).Caches b) (hj : (bc.buf j).Caches b) : i = j :=
  h.uniq i j (by rw [hi.1]; decide) (hi.1.trans hj.1.symm) (hi.2.trans hj.2.symm)

theorem Sys.holds_eq_some {s : Sys} (h : s.bc.WF) :
    s.holds p b = some i ↔ (s.bc.buf i).Caches b ∧ (s.bc.buf i).lock = some p := by
  unfold Sys.holds
  rw [Option.filter_eq_some_iff, h.hit_eq_some (by decide), decide_eq_true_eq]
  exact Iff.rfl

namespace Coherent

/-- The locks, the counts and the order of the list do not matter. -/
theorem congr (h : Coherent r cur pins stale disk bc) (hwf : bc'.WF)
    (hbuf : ∀ k, (bc'.buf k).dev = (bc.buf k).dev ∧ (bc'.buf k).blockno = (bc.buf k).blockno ∧
      (bc'.buf k).valid = (bc.buf k).valid ∧ (bc'.buf k).data = (bc.buf k).data) :
    Coherent r cur pins stale disk bc' := by
  have hc : ∀ k b, (bc'.buf k).Caches b ↔ (bc.buf k).Caches b := by
    intro k b
    unfold Buf.Caches
    rw [(hbuf k).1, (hbuf k).2.1]
  refine ⟨hwf, fun k b hk hv hb hs => ?_, fun k b hk hv hb => ?_, h.clean, fun b hb => ?_⟩
  · rw [(hbuf k).2.2.2]
    exact h.home k b ((hc k b).mp hk) ((hbuf k).2.2.1 ▸ hv) hb hs
  · rw [(hbuf k).2.2.2]
    exact h.log k b ((hc k b).mp hk) ((hbuf k).2.2.1 ▸ hv) hb
  · obtain ⟨k, hk, hv⟩ := h.pin b hb
    exact ⟨k, (hc k b).mpr hk, (hbuf k).2.2.1.trans hv⟩

/-- One buffer gets another lock or count. -/
theorem setBuf (h : Coherent r cur pins stale disk bc) {x : Buf Block} (hdev : x.dev = (bc.buf i).dev)
    (hbn : x.blockno = (bc.buf i).blockno) (hv : x.valid = (bc.buf i).valid) (hd : x.data = (bc.buf i).data) :
    Coherent r cur pins stale disk (bc.setBuf i x) := by
  refine h.congr (h.wf.setBuf hdev hbn) fun k => ?_
  by_cases hk : k = i
  · subst hk
    rw [Bcache.setBuf_same]
    exact ⟨hdev, hbn, hv, hd⟩
  · rw [Bcache.setBuf_of_ne _ _ hk]
    exact ⟨rfl, rfl, rfl, rfl⟩

theorem bpin (h : Coherent r cur pins stale disk bc) : Coherent r cur pins stale disk (bc.bpin i) := h.setBuf rfl rfl rfl rfl

theorem bunpin (h : Coherent r cur pins stale disk bc) : Coherent r cur pins stale disk (bc.bunpin i) := h.setBuf rfl rfl rfl rfl

theorem relse (h : Coherent r cur pins stale disk bc) : Coherent r cur pins stale disk (bc.relse i) := by
  refine h.congr h.wf.relse fun k => ?_
  by_cases hk : k = i
  · subst hk
    rw [Bcache.relse_same]
    exact ⟨rfl, rfl, rfl, rfl⟩
  · rw [Bcache.relse_of_ne _ hk]
    exact ⟨rfl, rfl, rfl, rfl⟩

/-- **A miss takes a buffer that is not pinned**, since a pin is a reference. -/
theorem get (h : Coherent r cur pins stale disk bc) (hc : Counted pins waiting bc)
    (hg : bc.bget ROOTDEV b = some (i, bc')) : Coherent r cur pins stale disk bc' := by
  rcases Bcache.bget_cases hg with ⟨-, -, rfl⟩ | ⟨hno, h0, rfl⟩
  · exact h.setBuf rfl rfl rfl rfl
  · refine ⟨h.wf.recycle hno rfl rfl, fun k b' hk hv hb hs => ?_, fun k b' hk hv hb => ?_, h.clean, fun b' hb => ?_⟩
    · by_cases hki : k = i
      · subst hki
        rw [Bcache.setBuf_same] at hv
        cases hv
      · rw [Bcache.setBuf_of_ne _ _ hki] at hk hv ⊢
        exact h.home k b' hk hv hb hs
    · by_cases hki : k = i
      · subst hki
        rw [Bcache.setBuf_same] at hv
        cases hv
      · rw [Bcache.setBuf_of_ne _ _ hki] at hk hv ⊢
        exact h.log k b' hk hv hb
    · obtain ⟨k, hk, hv⟩ := h.pin b' hb
      have hki : k ≠ i := by
        rintro rfl
        have := hc.count k
        rw [h0, if_pos ⟨hk.1, hk.2 ▸ hb⟩] at this
        omega
      refine ⟨k, ?_, ?_⟩
      · rwa [Bcache.setBuf_of_ne _ _ hki]
      · rwa [Bcache.setBuf_of_ne _ _ hki]

/-- A buffer is read from the disk if it was not valid; a pinned block's buffer was. -/
theorem fill (h : Coherent r cur pins stale disk bc) : Coherent r cur pins stale disk (bc.fill i disk) := by
  by_cases hvi : (bc.buf i).valid = true
  · unfold Bcache.fill
    rwa [if_pos hvi]
  have hbuf : bc.fill i disk = bc.setBuf i { bc.buf i with data := disk (bc.buf i).blockno, valid := true } := by
    unfold Bcache.fill
    rw [if_neg hvi]
  rw [hbuf]
  have hkey : ∀ k b', ((bc.setBuf i { bc.buf i with data := disk (bc.buf i).blockno, valid := true }).buf k).Caches b' ↔
      (bc.buf k).Caches b' := by
    intro k b'
    by_cases hki : k = i
    · subst hki
      rw [Bcache.setBuf_same]
      exact Iff.rfl
    · rw [Bcache.setBuf_of_ne _ _ hki]
  refine ⟨h.wf.setBuf rfl rfl, fun k b' hk hv hb hs => ?_, fun k b' hk hv hb => ?_, h.clean, fun b' hb => ?_⟩
  · rw [hkey] at hk
    by_cases hki : k = i
    · subst hki
      rw [Bcache.setBuf_same]
      have hnp : b' ∉ pins := by
        intro hp
        obtain ⟨m, hm, hmv⟩ := h.pin b' hp
        rw [h.wf.caches_inj hm hk] at hmv
        exact hvi hmv
      rw [← h.clean b' hb hnp hs, ← hk.2]
    · rw [Bcache.setBuf_of_ne _ _ hki] at hv ⊢
      exact h.home k b' hk hv hb hs
  · rw [hkey] at hk
    by_cases hki : k = i
    · subst hki
      rw [Bcache.setBuf_same, ← hk.2]
    · rw [Bcache.setBuf_of_ne _ _ hki] at hv ⊢
      exact h.log k b' hk hv hb
  · obtain ⟨k, hk, hv⟩ := h.pin b' hb
    refine ⟨k, (hkey k b').mpr hk, ?_⟩
    by_cases hki : k = i
    · subst hki
      rw [Bcache.setBuf_same]
    · rwa [Bcache.setBuf_of_ne _ _ hki]

theorem acquire (h : Coherent r cur pins stale disk bc) (p : ℕ) : Coherent r cur pins stale disk ((bc.acquire i p).fill i disk) :=
  fill (h.setBuf rfl rfl rfl rfl)

/-- **A locked buffer gets new contents `d`** together with `cur'` and `disk'`: what has to hold of the block, and of all others. -/
theorem assign {cur' disk' : ℕ → Block} {pins' stale' : List ℕ} {d : Block} (h : Coherent r cur pins stale disk bc)
    (hi : (bc.buf i).Caches b) (hv : (bc.buf i).valid = true)
    (hhome : r.Home b → b ∉ stale' → d = cur' b) (hlog : ¬ r.Home b → d = disk' b)
    (hclean : r.Home b → b ∉ pins' → b ∉ stale' → disk' b = cur' b)
    (hcur : ∀ x, x ≠ b → cur' x = cur x) (hdisk : ∀ x, x ≠ b → disk' x = disk x)
    (hpins : ∀ x, x ≠ b → (x ∈ pins' ↔ x ∈ pins)) (hstale : ∀ x, x ≠ b → (x ∈ stale' ↔ x ∈ stale)) :
    Coherent r cur' pins' stale' disk' (bc.assign i d) := by
  have hkey : ∀ k x, ((bc.assign i d).buf k).Caches x ↔ (bc.buf k).Caches x := by
    intro k x
    by_cases hk : k = i
    · subst hk
      unfold Bcache.assign
      rw [Bcache.setBuf_same]
      exact Iff.rfl
    · unfold Bcache.assign
      rw [Bcache.setBuf_of_ne _ _ hk]
  have hval : ∀ k, ((bc.assign i d).buf k).valid = (bc.buf k).valid := by
    intro k
    by_cases hk : k = i
    · subst hk
      unfold Bcache.assign
      rw [Bcache.setBuf_same]
    · unfold Bcache.assign
      rw [Bcache.setBuf_of_ne _ _ hk]
  have hself : ((bc.assign i d).buf i).data = d := by
    unfold Bcache.assign
    rw [Bcache.setBuf_same]
  have hother : ∀ k, k ≠ i → ((bc.assign i d).buf k).data = (bc.buf k).data := by
    intro k hk
    unfold Bcache.assign
    rw [Bcache.setBuf_of_ne _ _ hk]
  -- a buffer of another block is another buffer
  have hne : ∀ k x, (bc.buf k).Caches x → k ≠ i → x ≠ b := by
    intro k x hk hki hx
    exact hki (h.wf.caches_inj (hx ▸ hk) hi)
  refine ⟨h.wf.setBuf rfl rfl, fun k x hk hkv hx hs => ?_, fun k x hk hkv hx => ?_, fun x hx hp hs => ?_, fun x hx => ?_⟩
  · rw [hkey] at hk
    rw [hval] at hkv
    by_cases hki : k = i
    · subst hki
      obtain rfl : x = b := hk.2.symm.trans hi.2
      rw [hself]
      exact hhome hx hs
    · have hxb := hne k x hk hki
      rw [hother k hki, hcur x hxb]
      exact h.home k x hk hkv hx ((hstale x hxb).not.mp hs)
  · rw [hkey] at hk
    rw [hval] at hkv
    by_cases hki : k = i
    · subst hki
      obtain rfl : x = b := hk.2.symm.trans hi.2
      rw [hself]
      exact hlog hx
    · have hxb := hne k x hk hki
      rw [hother k hki, hdisk x hxb]
      exact h.log k x hk hkv hx
  · by_cases hxb : x = b
    · subst hxb
      exact hclean hx hp hs
    · rw [hdisk x hxb, hcur x hxb]
      exact h.clean x hx ((hpins x hxb).not.mp hp) ((hstale x hxb).not.mp hs)
  · by_cases hxb : x = b
    · exact ⟨i, (hkey i x).mpr (hxb ▸ hi), (hval i).trans hv⟩
    · obtain ⟨k, hk, hkv⟩ := h.pin x ((hpins x hxb).mp hx)
      exact ⟨k, (hkey k x).mpr hk, (hval k).trans hkv⟩

end Coherent

namespace Counted

/-- What a change of one buffer has to add up to. -/
theorem setBuf {pins' : List ℕ} {waiting' : List (ℕ × BufId)} {x : Buf Block} (h : Counted pins waiting bc)
    (hcount : x.refcnt = x.lock.isSome.toNat + waiting'.countP (fun w => w.2 = i) +
      if x.dev = ROOTDEV ∧ x.blockno ∈ pins' then 1 else 0)
    (hdev : x.refcnt ≠ 0 → x.dev = ROOTDEV) (hvalid : x.lock ≠ none → x.valid = true)
    (hw : ∀ j, j ≠ i → waiting'.countP (fun w => w.2 = j) = waiting.countP fun w => w.2 = j)
    (hp : ∀ j, j ≠ i → (bc.buf j).dev = ROOTDEV → ((bc.buf j).blockno ∈ pins' ↔ (bc.buf j).blockno ∈ pins)) :
    Counted pins' waiting' (bc.setBuf i x) := by
  refine ⟨fun j => ?_, fun j hj => ?_, fun j hj => ?_⟩
  · by_cases hji : j = i
    · subst hji
      rw [Bcache.setBuf_same, hcount]
    · rw [Bcache.setBuf_of_ne _ _ hji, h.count j, hw j hji]
      congr 1
      by_cases hd : (bc.buf j).dev = ROOTDEV
      · simp only [hd, true_and, hp j hji hd]
      · simp only [hd, false_and]
  · by_cases hji : j = i
    · subst hji
      rw [Bcache.setBuf_same] at hj ⊢
      exact hdev hj
    · rw [Bcache.setBuf_of_ne _ _ hji] at hj ⊢
      exact h.dev j hj
  · by_cases hji : j = i
    · subst hji
      rw [Bcache.setBuf_same] at hj ⊢
      exact hvalid hj
    · rw [Bcache.setBuf_of_ne _ _ hji] at hj ⊢
      exact h.valid j hj

theorem get (h : Counted pins waiting bc) (hcoh : Coherent r cur pins stale disk bc)
    (hg : bc.bget ROOTDEV b = some (i, bc')) (p : ℕ) : Counted pins ((p, i) :: waiting) bc' := by
  have hother : ∀ j, j ≠ i → ((p, i) :: waiting).countP (fun w => w.2 = j) = waiting.countP fun w => w.2 = j := by
    intro j hj
    rw [List.countP_cons_of_neg]
    simpa using Ne.symm hj
  have hself : ((p, i) :: waiting).countP (fun w => w.2 = i) = waiting.countP (fun w => w.2 = i) + 1 := by
    rw [List.countP_cons_of_pos]
    simp
  rcases Bcache.bget_cases hg with ⟨hd, -, rfl⟩ | ⟨hno, h0, rfl⟩
  · refine h.setBuf ?_ (fun _ => hd) (h.valid i) hother fun _ _ _ => Iff.rfl
    have hc := h.count i
    dsimp only
    rw [hself]
    omega
  · -- a buffer without references is neither locked nor waited for, and its new block is in no buffer, so it is not pinned
    have hc := h.count i
    rw [h0] at hc
    have hlock : (bc.buf i).lock.isSome.toNat = 0 := by omega
    have hwait : waiting.countP (fun w => w.2 = i) = 0 := by omega
    have hnp : b ∉ pins := by
      intro hp
      obtain ⟨k, hk, -⟩ := hcoh.pin b hp
      exact hno k (hcoh.wf.mem k) hk
    refine h.setBuf ?_ (fun _ => rfl) (fun hl => ?_) hother fun _ _ _ => Iff.rfl
    · dsimp only
      rw [hself, hwait, hlock, if_neg fun hx => hnp hx.2]
    · have : (bc.buf i).lock = none := by
        cases hl' : (bc.buf i).lock with
        | none => rfl
        | some q =>
          rw [hl'] at hlock
          cases hlock
      exact absurd this hl

theorem acquire (h : Counted pins waiting bc) (hw : (p, i) ∈ waiting) (hl : (bc.buf i).lock = none) :
    Counted pins (waiting.erase (p, i)) ((bc.acquire i p).fill i disk) := by
  have hself : waiting.countP (fun w => w.2 = i) = (waiting.erase (p, i)).countP (fun w => w.2 = i) + 1 := by
    rw [(List.perm_cons_erase hw).countP_eq, List.countP_cons_of_pos]
    simp
  have hother : ∀ j, j ≠ i → (waiting.erase (p, i)).countP (fun w => w.2 = j) = waiting.countP fun w => w.2 = j := by
    intro j hj
    rw [(List.perm_cons_erase hw).countP_eq, List.countP_cons_of_neg]
    simpa using Ne.symm hj
  have hc := h.count i
  rw [hl, hself] at hc
  have hnz : (bc.buf i).refcnt ≠ 0 := by omega
  have hbuf : (bc.acquire i p).fill i disk = bc.setBuf i { bc.buf i with
      lock := some p, valid := true, data := if (bc.buf i).valid then (bc.buf i).data else disk (bc.buf i).blockno } := by
    unfold Bcache.fill Bcache.acquire
    rw [Bcache.setBuf_same]
    split_ifs with hv
    · rw [← hv]
    · simp [Bcache.setBuf]
  rw [hbuf]
  refine h.setBuf ?_ (fun _ => h.dev i hnz) (fun _ => rfl) hother fun _ _ _ => Iff.rfl
  dsimp only
  simp only [Option.isSome_none, Bool.toNat_false] at hc
  simp only [Option.isSome_some, Bool.toNat_true]
  omega

/-- New contents do not change the references. -/
theorem assign (h : Counted pins waiting bc) (d : Block) : Counted pins waiting (bc.assign i d) :=
  h.setBuf (h.count i) (h.dev i) (h.valid i) (fun _ _ => rfl) fun _ _ _ => Iff.rfl

theorem relse (h : Counted pins waiting bc) (hl : (bc.buf i).lock = some p) : Counted pins waiting (bc.relse i) := by
  have hc := h.count i
  rw [hl] at hc
  have hs : Counted pins waiting (bc.setBuf i { bc.buf i with lock := none, refcnt := (bc.buf i).refcnt - 1 }) := by
    refine h.setBuf ?_ (fun hx => h.dev i fun h0 => hx (by simp [h0])) (fun hx => absurd rfl hx) (fun _ _ => rfl)
      fun _ _ _ => Iff.rfl
    simp only [Option.isSome_some, Bool.toNat_true] at hc
    simp only [Option.isSome_none, Bool.toNat_false]
    omega
  refine ⟨fun j => ?_, fun j => ?_, fun j => ?_⟩
  · rw [Bcache.relse_buf]
    exact hs.count j
  · rw [Bcache.relse_buf]
    exact hs.dev j
  · rw [Bcache.relse_buf]
    exact hs.valid j

/-- `bpin`, for a block that was not pinned. -/
theorem bpin (h : Counted pins waiting bc) (hwf : bc.WF) (hi : (bc.buf i).Caches b) (hb : b ∉ pins) :
    Counted (pins ++ [b]) waiting (bc.bpin i) := by
  have hc := h.count i
  rw [if_neg (by rw [hi.2]; exact fun hx => hb hx.2)] at hc
  refine h.setBuf ?_ (fun _ => hi.1) (h.valid i) (fun _ _ => rfl) fun j hj hd => ?_
  · rw [if_pos ⟨hi.1, by simp [hi.2]⟩]
    exact congrArg (· + 1) hc
  · rw [List.mem_append, List.mem_singleton, or_iff_left]
    exact fun he => hj (hwf.caches_inj ⟨hd, he⟩ hi)

/-- `bunpin`, for the first of the pinned blocks. -/
theorem bunpin (h : Counted (b :: pins) waiting bc) (hwf : bc.WF) (hi : (bc.buf i).Caches b) (hb : b ∉ pins) :
    Counted pins waiting (bc.bunpin i) := by
  have hc := h.count i
  rw [if_pos ⟨hi.1, hi.2 ▸ List.mem_cons_self⟩] at hc
  refine h.setBuf ?_ (fun _ => hi.1) (h.valid i) (fun _ _ => rfl) fun j hj hd => ?_
  · rw [if_neg (by rw [hi.2]; exact fun hx => hb hx.2)]
    exact (congrArg (· - 1) hc).trans (Nat.add_sub_cancel _ 1)
  · rw [List.mem_cons, or_iff_right]
    exact fun he => hj (hwf.caches_inj ⟨hd, he⟩ hi)

end Counted

end OsLabs.Xv6.Fs
