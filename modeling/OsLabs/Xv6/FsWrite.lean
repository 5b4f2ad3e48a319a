import OsLabs.Xv6.BufferCache
import OsLabs.Xv6.FsFiles

/-!
# OsLabs.Xv6.FsWrite — a write in several transactions (file.c)

`filewrite` cuts a write into pieces and makes a transaction of each.

* `writei_fits`: if one block holds the bit map, a piece logs fewer than `MAXOPBLOCKS` different blocks.
* `filewriteLoop_spec`, `filewrite_spec`: what the pieces leave together.
-/

namespace OsLabs.Xv6.Inodes

open Fs (MAXOPBLOCKS)
open Lts (Run Ev)

/-- `max` in `filewrite` -/
def maxChunk : ℕ := (MAXOPBLOCKS - 1 - 1 - 2) / 2 * BSIZE

/-- `begin_op` -/
def Disk.begin (d : Disk) : Disk := { d with logged := [] }

/-- The loop of `filewrite` for a file on the disk: `i`, `f->off`, the inode and the disk, and what each transaction has logged. -/
def filewriteLoop (sb : Superblock) (src : ℕ → ℕ) (room n inum : ℕ) :
    ℕ → ℕ → ℕ → Inode → Disk → Option (ℕ × ℕ × Inode × Disk × List (List ℕ))
  | 0, _, _, _, _ => none
  | k + 1, i, off, ip, d =>
    if i < n then
      let n1 := min (n - i) maxChunk
      match writei sb (fun x => src (i + x)) (room - i) inum ip off n1 d.begin with
      | none => none
      | some (r, ip, d) =>
        let off := if 0 < r then (off + r.toNat) % UINT else off
        if r = n1 then
          (filewriteLoop sb src room n inum k (i + n1) off ip d).map fun x => (x.1, x.2.1, x.2.2.1, x.2.2.2.1, d.logged :: x.2.2.2.2)
        else some (i, off, ip, d, [d.logged])
    else some (i, off, ip, d, [])

/-- `filewrite`: the return value, and what the loop leaves. -/
def filewrite (sb : Superblock) (src : ℕ → ℕ) (room n inum off : ℕ) (ip : Inode) (d : Disk) :
    Option (ℤ × ℕ × Inode × Disk × List (List ℕ)) :=
  (filewriteLoop sb src room n inum (n + 1) 0 off ip d).map fun x => (if x.1 = n then (n : ℤ) else -1, x.2)

/-- Fewer than `MAXOPBLOCKS` different blocks. -/
def Fits (l : List ℕ) : Prop := ∃ u : List ℕ, u.length < MAXOPBLOCKS ∧ ∀ x ∈ l, x ∈ u

variable {sb : Superblock} {first i off n room tot j m k inum : ℕ} {src : ℕ → ℕ} {tab : ℕ → Inode} {d d' : Disk} {c : List ℕ}

/-! ## Pieces of a write -/

section Pieces

theorem length_overwrite (c : List ℕ) (off tot j : ℕ) (src : ℕ → ℕ) : (overwrite c off tot j src).length = max c.length (off + tot) := by
  unfold overwrite
  rw [List.length_map, List.length_range]

theorem overwrite_getD {x : ℕ} (hx : x < max c.length (off + tot)) :
    (overwrite c off tot j src).getD x 0 = if off ≤ x ∧ x < off + (tot + j) then src (x - off) else c.getD x 0 := by
  rw [List.getD_eq_getElem _ _ (by rwa [length_overwrite])]
  unfold overwrite
  rw [List.getElem_map, List.getElem_range]

theorem overwrite_zero (h : off ≤ c.length) : overwrite c off 0 0 src = c := by
  rw [overwrite_eq h, Nat.add_zero, List.range_zero, List.map_nil, List.append_nil, List.take_append_drop]

/-- One piece after the other. -/
theorem overwrite_overwrite (c : List ℕ) (off m tot j : ℕ) (src : ℕ → ℕ) :
    overwrite (overwrite c off m 0 src) (off + m) tot j (fun x => src (m + x)) = overwrite c off (m + tot) j src := by
  apply List.ext_getElem
  · simp only [length_overwrite]
    omega
  · intro x h1 h2
    rw [length_overwrite] at h2
    rw [← List.getD_eq_getElem _ 0 h1, ← List.getD_eq_getElem _ 0 (by rwa [length_overwrite]),
      overwrite_getD (by rw [length_overwrite]; omega), overwrite_getD h2]
    by_cases hnew : off + m ≤ x ∧ x < off + m + (tot + j)
    · rw [if_pos hnew, if_pos (by omega)]
      exact congrArg src (by omega)
    · rw [if_neg hnew, overwrite_getD (by omega)]
      exact if_congr (by omega) rfl rfl

end Pieces

theorem AbsStep.write_cases {f f' : ℕ → List ℕ} {o : Out} (A : AbsStep f (.write i off n room src) o f') :
    (o.ret = -1 ∧ f' = f) ∨ ∃ tot j : ℕ, o.ret = tot ∧ f' = Function.update f i (overwrite (f i) off tot j src) ∧ tot + j ≤ n ∧
      (tot = n → j = 0) ∧ off + n ≤ MAXFILE * BSIZE := by
  cases A with
  | refused h => exact .inl ⟨rfl, rfl⟩
  | write hoff hmax hle hroom hfull hshort => exact .inr ⟨_, _, rfl, rfl, hle, hfull, hmax⟩

/-! ## filewrite -/

theorem Sound.begin (S : Sound sb first tab d) : Sound sb first tab d.begin :=
  ⟨S.owned.congr (fun _ => rfl) rfl rfl, S.mapped, S.bound, S.synced⟩

/-- What a piece of `filewrite` logs: at most four blocks of the file, the indirect block, the bit map and the inode. -/
theorem fits_of_logged {l : List ℕ} (hb : sb.size ≤ BPB)
    (hl : ∀ x ∈ l, x = iblock sb i ∨ LogsIn sb tab d i (off / BSIZE) (off / BSIZE + 3) x) : Fits l := by
  refine ⟨[iblock sb i, sb.bmapstart, allHeld tab d (i, NDIRECT), allHeld tab d (i, place (off / BSIZE)),
    allHeld tab d (i, place (off / BSIZE + 1)), allHeld tab d (i, place (off / BSIZE + 2)), allHeld tab d (i, place (off / BSIZE + 3))],
    by simp [MAXOPBLOCKS], fun x hx => ?_⟩
  simp only [List.mem_cons, List.not_mem_nil, or_false]
  rcases hl x hx with h | ⟨r, hr, h⟩ | ⟨-, h | ⟨bn, h1, h2, h⟩⟩
  · exact .inl h
  · refine .inr (.inl ?_)
    rw [h, bblock, Nat.div_eq_of_lt (Nat.lt_of_lt_of_le hr hb), Nat.zero_add]
  · exact .inr (.inr (.inl h))
  · obtain rfl | rfl | rfl | rfl : bn = off / BSIZE ∨ bn = off / BSIZE + 1 ∨ bn = off / BSIZE + 2 ∨ bn = off / BSIZE + 3 := by omega
    · exact .inr (.inr (.inr (.inl h)))
    · exact .inr (.inr (.inr (.inr (.inl h))))
    · exact .inr (.inr (.inr (.inr (.inr (.inl h)))))
    · exact .inr (.inr (.inr (.inr (.inr (.inr h)))))

/-- What the loop leaves: `tot` bytes are written, and `j` more have been changed by a copy that failed. -/
structure Filewritten (sb : Superblock) (first : ℕ) (tab : ℕ → Inode) (d : Disk) (inum off : ℕ) (src : ℕ → ℕ) (tot j off' : ℕ)
    (ip : Inode) (d' : Disk) (txs : List (List ℕ)) : Prop where
  sound : Sound sb first (Function.update tab inum ip) d'
  files : content (Function.update tab inum ip) d' = Function.update (content tab d) inum (overwrite (content tab d inum) off tot j src)
  off : off' = off + tot
  fits : ∀ l ∈ txs, Fits l

theorem filewriteLoop_spec (S : Sound sb first tab d) (hb : sb.size ≤ BPB) (hoff : off ≤ (tab inum).size) (hn : n < UINT) (hi : i ≤ n)
    (hk : n - i < k) :
    ∃ i' tot j off' ip d' txs, filewriteLoop sb src room n inum k i off (tab inum) d = some (i', off', ip, d', txs) ∧
      Filewritten sb first tab d inum off (fun x => src (i + x)) tot j off' ip d' txs ∧ tot + j ≤ n - i ∧ (i' = n ↔ tot = n - i) ∧
      (tot = n - i → j = 0) := by
  induction k generalizing i off tab d with
  | zero => exact absurd hk (Nat.not_lt_zero _)
  | succ k ih =>
    have hmaxU : MAXFILE * BSIZE < UINT := by decide
    have hmax : maxChunk = 3072 := by decide
    have hsize := S.bound inum
    rw [filewriteLoop]
    by_cases hlt : i < n
    · rw [if_pos hlt]
      dsimp only
      generalize hn1 : min (n - i) maxChunk = n1
      have hhi : ∀ x, x < off + n1 → x / BSIZE ≤ off / BSIZE + 3 := by
        intro x hx
        have : n1 ≤ 3072 := by omega
        unfold BSIZE
        omega
      obtain ⟨r, ip, d1, h1, S1, A, l, hl, hm⟩ :=
        writei_spec S.begin inum (fun x => src (i + x)) (room - i) (show off < UINT by omega) (show n1 < UINT by omega) hhi
      have hfit : Fits d1.logged := by
        have hnil : d1.logged = l := hl.trans (List.append_nil l)
        rw [hnil]
        exact fits_of_logged hb hm
      have hfits : ∀ l ∈ [d1.logged], Fits l := List.forall_mem_singleton.mpr hfit
      rw [h1]
      dsimp only
      rcases A.write_cases with ⟨hr, hf⟩ | ⟨tot, j, hr, hf, hle, hj, hmaxf⟩
      · -- the piece is refused
        have hr : r = -1 := hr
        rw [if_neg (by omega), if_neg (by omega)]
        refine ⟨i, 0, 0, off, ip, d1, [d1.logged], rfl, ⟨S1, ?_, rfl, hfits⟩, by omega, by omega, fun _ => rfl⟩
        rw [overwrite_zero (by rw [length_content]; exact hoff), Function.update_eq_self]
        exact hf
      · have hr : r = (tot : ℤ) := hr
        have hoff' : (if 0 < r then (off + r.toNat) % UINT else off) = off + tot := by
          rw [hr, Int.toNat_natCast]
          split_ifs
          · exact Nat.mod_eq_of_lt (by omega)
          · omega
        rw [hoff']
        by_cases hall : tot = n1
        · rw [if_pos (by omega)]
          obtain rfl := hj hall
          have hat : Function.update tab inum ip inum = ip := Function.update_self _ _ _
          have hsize1 : off + tot ≤ (Function.update tab inum ip inum).size := by
            rw [← length_content _ d1, hf, Function.update_self, length_overwrite]
            exact Nat.le_max_right _ _
          obtain ⟨i', tot', j', off', ip', d', txs, h2, F, h3, h4, h5⟩ := ih (i := i + n1) S1 hsize1 (by omega) (by omega)
          rw [hat] at h2
          rw [h2]
          have hsound := F.sound
          have hfiles := F.files
          rw [Function.update_idem] at hsound hfiles
          refine ⟨i', tot + tot', j', off', ip', d', d1.logged :: txs, rfl, ⟨hsound, ?_, by rw [F.off, Nat.add_assoc],
            List.forall_mem_cons.mpr ⟨hfit, F.fits⟩⟩, by omega, by omega, fun h => h5 (by omega)⟩
          rw [hfiles, hf, Function.update_idem, Function.update_self]
          have hsrc : (fun x => src (i + n1 + x)) = fun x => (fun x => src (i + x)) (tot + x) := by
            ext x
            exact congrArg src (by omega)
          rw [hsrc, overwrite_overwrite _ off tot tot' j' fun x => src (i + x)]
          rfl
        · rw [if_neg (by omega)]
          exact ⟨i, tot, j, off + tot, ip, d1, [d1.logged], rfl, ⟨S1, hf, rfl, hfits⟩, by omega, by omega, by omega⟩
    · rw [if_neg hlt]
      refine ⟨i, 0, 0, off, tab inum, d, [], rfl, ⟨?_, ?_, rfl, List.forall_mem_nil _⟩, by omega, by omega, fun _ => rfl⟩
      · rwa [Function.update_eq_self]
      · rw [overwrite_zero (by rw [length_content]; exact hoff), Function.update_eq_self, Function.update_eq_self]

/-- **`filewrite`**, in any state that a run reaches: it returns, with -1 if it has not written everything; the file has the bytes that are
written, the offset has moved behind them, and no transaction has logged more than it may. -/
theorem filewrite_file {tr : List (Ev Sys Act Out)} {t : Sys} (hpos : 0 < first) (hb : sb.size ≤ BPB)
    (hr : Run (Step sb) Uints (mkfs first) tr t) (hoff : off ≤ (t.tab inum).size) (hn : n < 2 ^ 31) :
    ∃ tot j ip d' txs, filewrite sb src room n inum off (t.tab inum) t.d = some (if tot = n then (n : ℤ) else -1, off + tot, ip, d', txs) ∧
      tot + j ≤ n ∧ (tot = n → j = 0) ∧
      content (Function.update t.tab inum ip) d' =
        Function.update (content t.tab t.d) inum (overwrite (content t.tab t.d inum) off tot j src) ∧
      ∀ l ∈ txs, Fits l := by
  have hB : BPB ≤ UINT := by decide
  have hU : 2 ^ 31 < UINT := by decide
  have S := run_sound hpos (Nat.le_trans hb hB) hr
  obtain ⟨i', tot, j, off', ip, d', txs, h1, F, h2, h3, h4⟩ :=
    @filewriteLoop_spec _ _ 0 _ n room (n + 1) _ src _ _ S hb hoff (Nat.lt_trans hn hU) (Nat.zero_le _) (Nat.lt_succ_self _)
  rw [Nat.sub_zero] at h2 h3 h4
  simp only [Nat.zero_add] at F
  refine ⟨tot, j, ip, d', txs, ?_, h2, h4, F.files, F.fits⟩
  rw [filewrite, h1, Option.map_some, F.off]
  dsimp only
  rw [if_congr h3 rfl rfl]

theorem exists_three_run : ∃ tr t, Run (Step ⟨8, 2, 1⟩) Uints (mkfs 4) tr t ∧ content t.tab t.d 1 = [7, 8, 9] :=
  exists_run [.write 1 0 3 3 fun x => x + 7] (by decide +kernel)

theorem filewrite_file_three : ∃ tr t, Run (Step ⟨8, 2, 1⟩) Uints (mkfs 4) tr t ∧ content t.tab t.d 1 = [7, 8, 9] ∧ ∃ tot j ip d' txs,
    filewrite ⟨8, 2, 1⟩ (fun x => x + 1) 5000 5000 1 3 (t.tab 1) t.d = some (if tot = 5000 then 5000 else -1, 3 + tot, ip, d', txs) ∧
    content (Function.update t.tab 1 ip) d' 1 = overwrite [7, 8, 9] 3 tot j (fun x => x + 1) ∧ ∀ l ∈ txs, Fits l := by
  obtain ⟨tr, t, hr, h⟩ := exists_three_run
  have hlen : (t.tab 1).size = 3 := by rw [← length_content t.tab t.d, h]; rfl
  obtain ⟨tot, j, ip, d', txs, h1, -, -, h2, h3⟩ := @filewrite_file _ 4 3 5000 5000 1 (fun x => x + 1) tr t (by decide) (by decide) hr
    (by omega) (by decide)
  exact ⟨tr, t, hr, h, tot, j, ip, d', txs, h1, by rw [h2, Function.update_self, h], h3⟩

end OsLabs.Xv6.Inodes
