import OsLabs.Xv6.FsOwn

/-!
# OsLabs.Xv6.FsContent — reading and writing files (fs.c)

* `Wrote`: what a piece of `writei` leaves, and `writeLoop_spec`, by induction on the bytes that are left.
* `readLoop_spec`: what `readi` delivers.
* `itrunc_spec`: every block of the file is free afterwards, and no other.
-/

namespace OsLabs.Xv6.Inodes

open Holdings (Exact)

variable {sb : Superblock} {first i k r o bn m : ℕ} {tab tab' tab'' : ℕ → Inode} {d d' d'' : Disk}

/-- A data block with new contents. -/
theorem write_block {b : Bytes} (O : Owned sb first tab d) (h : allHeld tab d (i, place bn) ≠ 0) (hbit : d'.bit = d.bit)
    (hd : d'.block = Function.update d.block (allHeld tab d (i, place bn)) b) :
    (∀ p, allHeld tab d' p = allHeld tab d p) ∧ Owned sb first tab d' ∧
      ∀ i' o, byteAt tab d' i' o = if i' = i ∧ o / BSIZE = bn then b (o % BSIZE) else byteAt tab d i' o := by
  have hheld : ∀ p, allHeld tab d' p = allHeld tab d p := by
    intro p
    refine held_congr fun hn => ?_
    have hp : allHeld tab d (p.1, NDIRECT) = (tab p.1).addrs NDIRECT := held_of_le (Nat.le_refl _)
    rw [hd]
    refine Function.update_of_ne (fun he => ?_) _ _
    -- a data block is no indirect block
    have := O.exact.inj (p.1, NDIRECT) (i, place bn) (by rw [hp, he]) (by rwa [hp])
    exact place_ne bn (Prod.mk.inj this).2.symm
  refine ⟨hheld, ⟨O.exact.congr (fun r _ => by unfold InUse; rw [hbit]) hheld, fun r hr => by rw [hbit]; exact O.low r hr, O.pos, O.uint⟩,
    fun i' o => ?_⟩
  unfold byteAt
  rw [hheld, hd]
  by_cases hio : i' = i ∧ o / BSIZE = bn
  · obtain ⟨rfl, rfl⟩ := hio
    rw [if_neg h, if_pos ⟨rfl, rfl⟩, Function.update_self]
  · rw [if_neg hio]
    split_ifs with h0
    · rfl
    · rw [Function.update_of_ne fun he => hio ?_]
      have := O.exact.inj _ _ he h0
      obtain ⟨h1, h2⟩ := Prod.mk.inj this
      exact ⟨h1, place_inj h2⟩

/-- The bytes `[lo, lo + len)` of file `i` have come from `src`; its block numbers are those it had, and new ones. -/
structure Wrote (sb : Superblock) (first : ℕ) (tab : ℕ → Inode) (d : Disk) (i lo len : ℕ) (src : ℕ → ℕ) (tab' : ℕ → Inode) (d' : Disk) :
    Prop where
  owned : Owned sb first tab' d'
  keep : ∀ p, allHeld tab d p ≠ 0 → allHeld tab' d' p = allHeld tab d p
  byteAt : ∀ i' o, byteAt tab' d' i' o = if i' = i ∧ lo ≤ o ∧ o < lo + len then src (o - lo) else byteAt tab d i' o
  inode : ∃ addrs, tab' = Function.update tab i { tab i with addrs := addrs }
  dinode : d'.dinode = d.dinode

namespace Wrote

variable {lo len len' : ℕ} {src src' : ℕ → ℕ}

theorem of_grown (G : Grown sb first tab d i bn tab' d') (lo : ℕ) (src : ℕ → ℕ) : Wrote sb first tab d i lo 0 src tab' d' := by
  refine ⟨G.owned, G.keep, fun i' o => ?_, G.inode, G.dinode⟩
  rw [if_neg (by omega), G.byteAt]

theorem trans (h : Wrote sb first tab d i lo len src tab' d') (h' : Wrote sb first tab' d' i (lo + len) len' src' tab'' d'')
    (hs : ∀ x, src' x = src (len + x)) : Wrote sb first tab d i lo (len + len') src tab'' d'' := by
  obtain ⟨a, ha⟩ := h.inode
  obtain ⟨a', ha'⟩ := h'.inode
  refine ⟨h'.owned, fun p hp => ?_, fun i' o => ?_, ⟨a', ?_⟩, h'.dinode.trans h.dinode⟩
  · have hp' := h.keep p hp
    rw [h'.keep p (by rwa [hp']), hp']
  · rw [h'.byteAt, h.byteAt]
    by_cases hi : i' = i
    · by_cases h1 : lo ≤ o ∧ o < lo + len
      · rw [if_neg (by omega), if_pos ⟨hi, h1⟩, if_pos ⟨hi, h1.1, by omega⟩]
      · by_cases h2 : lo + len ≤ o ∧ o < lo + len + len'
        · rw [if_pos ⟨hi, h2⟩, if_pos ⟨hi, by omega, by omega⟩, hs]
          exact congrArg src (by omega)
        · rw [if_neg (by omega), if_neg (by omega), if_neg (by omega)]
    · rw [if_neg (fun h0 => hi h0.1), if_neg (fun h0 => hi h0.1), if_neg (fun h0 => hi h0.1)]
  · rw [ha', ha, Function.update_self, Function.update_idem]

/-- Written after blocks have been allocated. -/
theorem after (W : Wrote sb first tab' d' i lo len src tab'' d'') (G : Grown sb first tab d i bn tab' d') :
    Wrote sb first tab d i lo len src tab'' d'' := by
  have h := (of_grown G lo src).trans W fun x => by rw [Nat.zero_add]
  rwa [Nat.zero_add] at h

/-- A piece of one block. -/
theorem of_patch (O : Owned sb first tab d) (h : allHeld tab d (i, place (lo / BSIZE)) ≠ 0) (hm : m ≤ BSIZE - lo % BSIZE)
    (hbit : d'.bit = d.bit) (hdi : d'.dinode = d.dinode) (hd : d'.block = Function.update d.block (allHeld tab d (i, place (lo / BSIZE)))
      (patch (d.block (allHeld tab d (i, place (lo / BSIZE)))) (lo % BSIZE) m src)) :
    Wrote sb first tab d i lo m src tab d' := by
  obtain ⟨hheld, O', hbyte⟩ := write_block O h hbit hd
  refine ⟨O', fun p _ => hheld p, fun i' o => ?_, ⟨(tab i).addrs, (Function.update_eq_self i tab).symm⟩, hdi⟩
  rw [hbyte]
  have hm' : m ≤ 1024 - lo % 1024 := hm
  by_cases hi : i' = i
  · subst hi
    by_cases hb : o / BSIZE = lo / BSIZE
    · have hb' : o / 1024 = lo / 1024 := hb
      rw [if_pos ⟨rfl, hb⟩]
      unfold patch BSIZE
      by_cases hin : lo ≤ o ∧ o < lo + m
      · rw [if_pos (by omega), if_pos ⟨rfl, hin⟩]
        exact congrArg src (by omega)
      · rw [if_neg (by omega), if_neg (fun h0 => hin h0.2)]
        unfold Inodes.byteAt
        rw [hb, if_neg h]
        rfl
    · have hb' : ¬ o / 1024 = lo / 1024 := hb
      rw [if_neg (fun h0 => hb h0.2), if_neg (by omega)]
  · rw [if_neg (fun h0 => hi h0.1), if_neg (fun h0 => hi h0.1)]

end Wrote

/-! ## writei -/

/-- What `log_write` may get while file `i` is written between its blocks `lo` and `hi`. -/
def LogsIn (sb : Superblock) (tab : ℕ → Inode) (d : Disk) (i lo hi x : ℕ) : Prop :=
  (∃ r, r < sb.size ∧ x = bblock sb r) ∨
  (x ≠ 0 ∧ (x = allHeld tab d (i, NDIRECT) ∨ ∃ bn, lo ≤ bn ∧ bn ≤ hi ∧ x = allHeld tab d (i, place bn)))

theorem LogsIn.keep {lo hi x : ℕ} (h : LogsIn sb tab d i lo hi x) (hk : ∀ p, allHeld tab d p ≠ 0 → allHeld tab' d' p = allHeld tab d p) :
    LogsIn sb tab' d' i lo hi x := by
  rcases h with h | ⟨h0, h | ⟨bn, h1, h2, h⟩⟩
  · exact .inl h
  · exact .inr ⟨h0, .inl (by rw [hk _ (h ▸ h0), h])⟩
  · exact .inr ⟨h0, .inr ⟨bn, h1, h2, by rw [hk _ (h ▸ h0), h]⟩⟩

/-- The blocks logged between two states. -/
def LoggedIn (sb : Superblock) (d : Disk) (i lo hi : ℕ) (tab' : ℕ → Inode) (d' : Disk) : Prop :=
  ∃ l, d'.logged = l ++ d.logged ∧ ∀ x ∈ l, LogsIn sb tab' d' i lo hi x

theorem LoggedIn.trans {lo hi : ℕ} (h : LoggedIn sb d i lo hi tab' d') (h' : LoggedIn sb d' i lo hi tab'' d'')
    (hk : ∀ p, allHeld tab' d' p ≠ 0 → allHeld tab'' d'' p = allHeld tab' d' p) : LoggedIn sb d i lo hi tab'' d'' := by
  obtain ⟨l, hl, hm⟩ := h
  obtain ⟨l', hl', hm'⟩ := h'
  exact ⟨l' ++ l, by rw [hl', hl, List.append_assoc], List.forall_mem_append.mpr ⟨hm', fun x hx => (hm x hx).keep hk⟩⟩

theorem Grown.loggedIn {lo hi : ℕ} (G : Grown sb first tab d i bn tab' d') (hlo : lo ≤ bn) (hhi : bn ≤ hi) :
    LoggedIn sb d i lo hi tab' d' := by
  obtain ⟨l, hl, hm⟩ := G.logged
  refine ⟨l, hl, fun x hx => ?_⟩
  rcases hm x hx with h | ⟨h0, h | h⟩
  · exact .inl h
  · exact .inr ⟨h0, .inr ⟨bn, hlo, hhi, h⟩⟩
  · exact .inr ⟨h0, .inl h⟩

/-- What the loop of `writei` leaves: `tot'` bytes are written, and `j` more have been changed by a copy that failed. -/
structure WriteDone (sb : Superblock) (first : ℕ) (tab : ℕ → Inode) (d : Disk) (i : ℕ) (src : ℕ → ℕ) (room n tot off lo hi tot' j : ℕ)
    (tab' : ℕ → Inode) (d' : Disk) : Prop where
  wrote : Wrote sb first tab d i off (tot' - tot + j) (fun x => src (tot + x)) tab' d'
  le : tot ≤ tot'
  le_n : tot' + j ≤ n
  le_room : tot' + j ≤ room
  mapped : ∀ o, off ≤ o → o < off + (tot' - tot) → allHeld tab' d' (i, place (o / BSIZE)) ≠ 0
  stop : tot' < n → (room < n ∧ tot' + j = room) ∨ (j = 0 ∧ ∀ x, x < sb.size → d'.bit x = true)
  full : tot' = n → j = 0
  logged : LoggedIn sb d i lo hi tab' d'

theorem writeLoop_spec {src : ℕ → ℕ} {room n tot off lo hi : ℕ} (O : Owned sb first tab d) (hlen : off + (n - tot) ≤ MAXFILE * BSIZE)
    (htot : tot ≤ n) (hroom : tot ≤ room) (hk : n - tot < k) (hlo : lo ≤ off / BSIZE) (hhi : ∀ x, x < off + (n - tot) → x / BSIZE ≤ hi) :
    ∃ tot' j tab' d', writeLoop sb src room n k tot off (tab i) d = some (tot', off + (tot' - tot), tab' i, d') ∧
      WriteDone sb first tab d i src room n tot off lo hi tot' j tab' d' := by
  induction k generalizing tab d tot off with
  | zero => exact absurd hk (Nat.not_lt_zero _)
  | succ k ih =>
    rw [writeLoop]
    by_cases hlt : tot < n
    · rw [if_pos hlt]
      have hbn : off / BSIZE < MAXFILE := Nat.div_lt_of_lt_mul (by rw [Nat.mul_comm]; omega)
      obtain ⟨tab1, d1, h1, G, hfull⟩ := bmap_spec (i := i) O hbn
      have hG := G.loggedIn hlo (hhi off (by omega))
      rw [h1]
      dsimp only
      by_cases ha : allHeld tab1 d1 (i, place (off / BSIZE)) = 0
      · rw [if_pos ha]
        refine ⟨tot, 0, tab1, d1, by rw [Nat.sub_self, Nat.add_zero], ⟨?_, Nat.le_refl _, htot, hroom, fun o h2 h3 => ?_,
          fun _ => .inr ⟨rfl, hfull ha⟩, fun _ => rfl, hG⟩⟩
        · rw [Nat.sub_self]
          exact Wrote.of_grown G off _
        · omega
      · rw [if_neg ha]
        generalize hm : min (n - tot) (BSIZE - off % BSIZE) = m
        have hmod : off % BSIZE < BSIZE := Nat.mod_lt _ (by decide)
        have hm0 : 0 < m := by omega
        have hmn : m ≤ n - tot := by omega
        have hmB : m ≤ BSIZE - off % BSIZE := by omega
        by_cases hr : room < tot + m
        · -- the copy fails after `room - tot` bytes of the piece
          rw [if_pos hr]
          generalize hd2 : fill d1 (allHeld tab1 d1 (i, place (off / BSIZE))) (off % BSIZE) (room - tot) (fun x => src (tot + x)) = d2
          have W : Wrote sb first tab1 d1 i off (room - tot) (fun x => src (tot + x)) tab1 d2 :=
            Wrote.of_patch G.owned ha (by omega) (by rw [← hd2]; rfl) (by rw [← hd2]; rfl) (by rw [← hd2]; rfl)
          have hlog : d2.logged = d1.logged := by rw [← hd2]; rfl
          have hkeep := W.keep
          refine ⟨tot, room - tot, tab1, d2, by rw [Nat.sub_self, Nat.add_zero], ⟨?_, Nat.le_refl _, by omega, by omega, fun o h2 h3 => ?_,
            fun _ => .inl ⟨by omega, by omega⟩, fun h0 => by omega, ?_⟩⟩
          · rw [Nat.sub_self, Nat.zero_add]
            exact W.after G
          · omega
          · obtain ⟨l, hl, hmem⟩ := hG
            exact ⟨l, by rw [hlog, hl], fun x hx => (hmem x hx).keep hkeep⟩
        · rw [if_neg hr]
          generalize hd2 : logWrite (fill d1 (allHeld tab1 d1 (i, place (off / BSIZE))) (off % BSIZE) m fun x => src (tot + x))
            (allHeld tab1 d1 (i, place (off / BSIZE))) = d2
          have W : Wrote sb first tab1 d1 i off m (fun x => src (tot + x)) tab1 d2 :=
            Wrote.of_patch G.owned ha hmB (by rw [← hd2]; rfl) (by rw [← hd2]; rfl) (by rw [← hd2]; rfl)
          have hheld2 : allHeld tab1 d2 (i, place (off / BSIZE)) = allHeld tab1 d1 (i, place (off / BSIZE)) := W.keep _ ha
          have hlog : LoggedIn sb d1 i lo hi tab1 d2 := by
            refine ⟨[allHeld tab1 d1 (i, place (off / BSIZE))], by rw [← hd2]; rfl, fun x hx => ?_⟩
            rw [List.mem_singleton.mp hx]
            exact .inr ⟨ha, .inr ⟨_, hlo, hhi off (by omega), hheld2.symm⟩⟩
          obtain ⟨tot', j, tab', d', h2, D⟩ := @ih _ _ (tot + m) (off + m) W.owned (by omega) (by omega)
            (by omega) (by omega) (Nat.le_trans hlo (Nat.div_le_div_right (Nat.le_add_right _ _))) fun x hx => hhi x (by omega)
          have hle := D.le
          rw [h2]
          refine ⟨tot', j, tab', d', by rw [show off + m + (tot' - (tot + m)) = off + (tot' - tot) by omega], ⟨?_, by omega, D.le_n, D.le_room,
            fun o h3 h4 => ?_, D.stop, D.full, ?_⟩⟩
          · have W2 := (W.after G).trans D.wrote fun x => congrArg src (by omega)
            rwa [show m + (tot' - (tot + m) + j) = tot' - tot + j by omega] at W2
          · by_cases ho : o < off + m
            · -- the block of this piece
              have hob : o / BSIZE = off / BSIZE := by
                have hmB' : m ≤ 1024 - off % 1024 := hmB
                unfold BSIZE
                omega
              rw [hob, D.wrote.keep _ (by rwa [hheld2]), hheld2]
              exact ha
            · exact D.mapped o (by omega) (by omega)
          · exact (hG.trans hlog W.keep).trans D.logged D.wrote.keep
    · rw [if_neg hlt]
      refine ⟨tot, 0, tab, d, by rw [Nat.sub_self, Nat.add_zero], ⟨?_, Nat.le_refl _, htot, hroom, fun o h2 h3 => ?_,
        fun h0 => absurd h0 hlt, fun _ => rfl, [], rfl, List.forall_mem_nil _⟩⟩
      · rw [Nat.sub_self]
        exact Wrote.of_grown (Grown.refl O i 0) off _
      · omega

/-! ## readi -/

/-- A block that is there is looked up, and nothing changes. -/
theorem bmap_mapped (h : allHeld tab d (i, place bn) ≠ 0) (hbn : bn < MAXFILE) :
    bmap sb (tab i) bn d = some (allHeld tab d (i, place bn), tab i, d) := by
  unfold bmap
  by_cases hlo : bn < NDIRECT
  · have hheld : allHeld tab d (i, place bn) = (tab i).addrs bn := by
      unfold allHeld place
      rw [if_pos hlo]
      exact held_of_le (Nat.le_of_lt hlo)
    rw [if_pos hlo, hheld]
    unfold loadAddr
    rw [if_neg (by rwa [← hheld])]
  · have hhi : bn - NDIRECT < NINDIRECT := by
      unfold MAXFILE at hbn
      omega
    have hheld : allHeld tab d (i, place bn) = number d.block ((tab i).addrs NDIRECT) (bn - NDIRECT) := by
      unfold allHeld place
      rw [if_neg hlo]
      refine (held_of_gt (by dsimp only; omega)).trans ?_
      rw [show bn + 1 - (NDIRECT + 1) = bn - NDIRECT by omega]
    have ha : (tab i).addrs NDIRECT ≠ 0 := by
      intro h0
      rw [hheld, h0] at h
      exact h (number_zero _ _)
    have hword : number d.block ((tab i).addrs NDIRECT) (bn - NDIRECT) = word (d.block ((tab i).addrs NDIRECT)) (bn - NDIRECT) :=
      if_neg (fun h0 => h0.elim ha (by omega))
    have hload : loadAddr sb (tab i) NDIRECT d = ((tab i).addrs NDIRECT, tab i, d) := if_neg ha
    rw [if_neg hlo]
    dsimp only
    rw [if_pos hhi, hload, if_neg ha]
    dsimp only
    unfold loadEntry
    rw [hheld, hword] at h
    rw [if_neg h, hheld, hword]

/-- The loop of `readi`, where the file has all blocks: it delivers bytes until it is done or the copy fails. -/
theorem readLoop_spec {room n tot off : ℕ} (hmap : ∀ o, off ≤ o → o < off + (n - tot) → allHeld tab d (i, place (o / BSIZE)) ≠ 0)
    (hlen : off + (n - tot) ≤ MAXFILE * BSIZE) (htot : tot ≤ n) (hroom : tot ≤ room) (hk : n - tot < k) :
    readLoop sb room n k tot off (tab i) d =
      some (if n ≤ room then (n : ℤ) else -1, (List.range (min n room - tot)).map fun x => byteAt tab d i (off + x), tab i, d) := by
  induction k generalizing tot off with
  | zero => exact absurd hk (Nat.not_lt_zero _)
  | succ k ih =>
    rw [readLoop]
    by_cases hlt : tot < n
    · have hm := hmap off (Nat.le_refl _) (by omega)
      have hbn : off / BSIZE < MAXFILE := Nat.div_lt_of_lt_mul (by rw [Nat.mul_comm]; omega)
      rw [if_pos hlt, bmap_mapped hm hbn]
      dsimp only
      rw [if_neg hm]
      generalize hmm : min (n - tot) (BSIZE - off % BSIZE) = m
      have hmod : off % BSIZE < BSIZE := Nat.mod_lt _ (by decide)
      have hm0 : 0 < m := by omega
      have hmn : m ≤ n - tot := by omega
      -- the piece, as bytes of the file
      have hchunk : ((List.range m).map fun x => d.block (allHeld tab d (i, place (off / BSIZE))) (off % BSIZE + x)) =
          (List.range m).map fun x => byteAt tab d i (off + x) := by
        refine List.map_congr_left fun x hx => ?_
        have hxm := List.mem_range.mp hx
        have h1 : (off + x) / BSIZE = off / BSIZE ∧ (off + x) % BSIZE = off % BSIZE + x := by
          have hmB : m ≤ 1024 - off % 1024 := by
            have : m ≤ BSIZE - off % BSIZE := by omega
            exact this
          unfold BSIZE
          omega
        unfold byteAt
        rw [h1.1, h1.2, if_neg hm]
      rw [hchunk]
      by_cases hr : room < tot + m
      · rw [if_pos hr, if_neg (by omega), ← List.map_take, List.take_range, show min (room - tot) m = min n room - tot by omega]
      · rw [if_neg hr, ih (fun o h1 h2 => hmap o (by omega) (by omega)) (by omega) (by omega) (by omega) (by omega), Option.map_some]
        rw [show min n room - tot = m + (min n room - (tot + m)) by omega, List.range_add, List.map_append, List.map_map]
        congr 3
        refine congrArg₂ _ rfl (List.map_congr_left fun x _ => ?_)
        exact congrArg (byteAt tab d i) (Nat.add_assoc off m x)
    · obtain rfl : tot = n := by omega
      rw [if_neg hlt, if_pos hroom, show min tot room - tot = 0 by omega]
      rfl

/-! ## itrunc -/

/-- The blocks at the places `gone` of file `i` have been freed. -/
structure Freed (sb : Superblock) (first : ℕ) (tab : ℕ → Inode) (d : Disk) (i : ℕ) (gone : ℕ → Bool) (d' : Disk) : Prop where
  exact : Exact 0 (InUse sb first d') fun p : ℕ × ℕ => if p.1 = i ∧ gone p.2 = true then 0 else allHeld tab d p
  low : ∀ r, r < first → d'.bit r = true
  block : d'.block = d.block
  dinode : d'.dinode = d.dinode
  logged : ∃ l, d'.logged = l ++ d.logged ∧ ∀ x ∈ l, ∃ r, r < sb.size ∧ x = bblock sb r

namespace Freed

variable {gone gone' : ℕ → Bool}

theorem congr (F : Freed sb first tab d i gone d') (h : ∀ x, allHeld tab d (i, x) ≠ 0 → gone' x = gone x) :
    Freed sb first tab d i gone' d' := by
  refine ⟨F.exact.congr (fun r _ => Iff.rfl) fun p => ?_, F.low, F.block, F.dinode, F.logged⟩
  obtain ⟨i', x⟩ := p
  by_cases hi : i' = i
  · subst hi
    by_cases h0 : allHeld tab d (i', x) = 0
    · dsimp only
      rw [h0]
      split_ifs <;> rfl
    · dsimp only
      rw [h x h0]
  · rw [if_neg (fun h0 => hi h0.1), if_neg (fun h0 => hi h0.1)]

/-- One more block. -/
theorem bfree (F : Freed sb first tab d i gone d') (hk : allHeld tab d (i, k) ≠ 0) (hg : gone k = false)
    (hg' : ∀ x, gone' x = (decide (x = k) || gone x)) :
    ∃ d'', bfree sb d' (allHeld tab d (i, k)) = some d'' ∧ Freed sb first tab d i gone' d'' := by
  have hat : (if (i, k).1 = i ∧ gone (i, k).2 = true then 0 else allHeld tab d (i, k)) = allHeld tab d (i, k) :=
    if_neg (fun h0 => by rw [hg] at h0; cases h0.2)
  have hne : (if (i, k).1 = i ∧ gone (i, k).2 = true then 0 else allHeld tab d (i, k)) ≠ 0 := by rwa [hat]
  obtain ⟨h1, h2, h3⟩ := F.exact.used_held hne
  rw [hat] at h1 h2 h3
  obtain ⟨l, hl, hm⟩ := F.logged
  refine ⟨_, if_neg (by rw [h3]; exact Bool.noConfusion), F.exact.release hne (fun r _ => ?_) ?_ (fun p hp => ?_), fun r hr => ?_, F.block, F.dinode,
    bblock sb (allHeld tab d (i, k)) :: l, by rw [List.cons_append, ← hl]; rfl, List.forall_mem_cons.mpr ⟨⟨_, h2, rfl⟩, hm⟩⟩
  · rw [hat]
    unfold InUse logWrite
    dsimp only
    by_cases hr : r = allHeld tab d (i, k)
    · subst hr
      rw [Function.update_self]
      exact iff_of_false (fun h0 => by cases h0.2.2) fun h0 => h0.2 rfl
    · rw [Function.update_of_ne hr]
      exact ⟨fun h0 => ⟨h0, hr⟩, fun h0 => h0.1⟩
  · rw [if_pos ⟨rfl, by rw [hg']; simp⟩]
  · obtain ⟨i', x⟩ := p
    dsimp only
    by_cases hi : i' = i
    · subst hi
      have hx : x ≠ k := fun h0 => hp (by rw [h0])
      rw [hg', decide_eq_false hx, Bool.false_or]
    · rw [if_neg (fun h0 => hi h0.1), if_neg (fun h0 => hi h0.1)]
  · unfold logWrite
    dsimp only
    rw [Function.update_of_ne (by omega)]
    exact F.low r hr

end Freed

theorem truncDirect_spec {n idx : ℕ} {ip : Inode} (F : Freed sb first tab d i (fun x => decide (x < idx)) d') (hn : idx + n ≤ NDIRECT)
    (hip : ip = { tab i with addrs := fun x => if x < idx then 0 else (tab i).addrs x }) :
    ∃ d'', truncDirect sb n idx ip d' = some ({ tab i with addrs := fun x => if x < idx + n then 0 else (tab i).addrs x }, d'') ∧
      Freed sb first tab d i (fun x => decide (x < idx + n)) d'' := by
  induction n generalizing idx ip d' with
  | zero => exact ⟨d', by rw [truncDirect, hip]; rfl, F⟩
  | succ n ih =>
    have haddr : ip.addrs idx = (tab i).addrs idx := by
      rw [hip]
      exact if_neg (Nat.lt_irrefl _)
    have hheld : allHeld tab d (i, idx) = (tab i).addrs idx := held_of_le (by dsimp only; omega)
    have hdec : ∀ x, decide (x < idx + 1) = (decide (x = idx) || decide (x < idx)) := by
      intro x
      rw [← Bool.decide_or]
      exact decide_eq_decide.mpr (by omega)
    have hnext : (fun x => if x < idx + 1 then 0 else (tab i).addrs x) = Function.update ip.addrs idx 0 := by
      ext x
      by_cases hx : x = idx
      · subst hx
        rw [Function.update_self, if_pos (Nat.lt_succ_self _)]
      · rw [Function.update_of_ne hx, hip]
        exact if_congr (by omega) rfl rfl
    have hadd : idx + (n + 1) = idx + 1 + n := by omega
    rw [truncDirect, haddr]
    by_cases h0 : (tab i).addrs idx = 0
    · rw [if_pos h0]
      have hsame : Function.update ip.addrs idx 0 = ip.addrs := by
        rw [← h0, ← haddr]
        exact Function.update_eq_self _ _
      have F' : Freed sb first tab d i (fun x => decide (x < idx + 1)) d' := F.congr fun x hx => by
        have hne : x ≠ idx := by
          rintro rfl
          exact hx (hheld.trans h0)
        rw [hdec, decide_eq_false hne, Bool.false_or]
      obtain ⟨d'', h1, h2⟩ := @ih _ _ ip F' (by omega) (by rw [hnext, hsame, hip])
      rw [hadd]
      exact ⟨d'', h1, h2⟩
    · rw [if_neg h0]
      obtain ⟨d1, h1, F'⟩ := F.bfree (k := idx) (by rwa [hheld]) (decide_eq_false (Nat.lt_irrefl _)) hdec
      rw [hheld] at h1
      rw [h1]
      dsimp only
      obtain ⟨d'', h2, h3⟩ := @ih _ _ { ip with addrs := Function.update ip.addrs idx 0 } F' (by omega) (by rw [hnext, hip])
      rw [hadd]
      exact ⟨d'', h2, h3⟩

theorem truncIndirect_spec {n j : ℕ} (F : Freed sb first tab d i (fun x => decide (x < NDIRECT ∨ (NDIRECT < x ∧ x < NDIRECT + 1 + j))) d')
    (hn : j + n ≤ NINDIRECT) (ha : (tab i).addrs NDIRECT ≠ 0) :
    ∃ d'', truncIndirect sb (d.block ((tab i).addrs NDIRECT)) n j d' = some d'' ∧
      Freed sb first tab d i (fun x => decide (x < NDIRECT ∨ (NDIRECT < x ∧ x < NDIRECT + 1 + (j + n)))) d'' := by
  induction n generalizing j d' with
  | zero => exact ⟨d', rfl, F⟩
  | succ n ih =>
    have hheld : allHeld tab d (i, NDIRECT + 1 + j) = word (d.block ((tab i).addrs NDIRECT)) j := by
      unfold allHeld
      refine (held_of_gt (by dsimp only; omega)).trans ?_
      rw [show NDIRECT + 1 + j - (NDIRECT + 1) = j by omega]
      exact if_neg (fun h0 => h0.elim ha (by omega))
    have hdec : ∀ x, decide (x < NDIRECT ∨ (NDIRECT < x ∧ x < NDIRECT + 1 + (j + 1))) =
        (decide (x = NDIRECT + 1 + j) || decide (x < NDIRECT ∨ (NDIRECT < x ∧ x < NDIRECT + 1 + j))) := by
      intro x
      rw [← Bool.decide_or]
      exact decide_eq_decide.mpr (by omega)
    have hadd : j + (n + 1) = j + 1 + n := by omega
    rw [truncIndirect, hadd]
    by_cases h0 : word (d.block ((tab i).addrs NDIRECT)) j = 0
    · rw [if_pos h0]
      refine ih (F.congr fun x hx => ?_) (by omega)
      have hne : x ≠ NDIRECT + 1 + j := by
        rintro rfl
        exact hx (hheld.trans h0)
      rw [hdec, decide_eq_false hne, Bool.false_or]
    · rw [if_neg h0]
      obtain ⟨d1, h1, F'⟩ := F.bfree (k := NDIRECT + 1 + j) (by rwa [hheld]) (decide_eq_false (by omega)) hdec
      rw [hheld] at h1
      rw [h1]
      exact ih F' (by omega)

/-- Where a file can have a block at all. -/
theorem allHeld_ne {x : ℕ} (h : allHeld tab d (i, x) ≠ 0) : x ≤ NDIRECT ∨ ((tab i).addrs NDIRECT ≠ 0 ∧ x < NDIRECT + 1 + NINDIRECT) := by
  rcases Nat.lt_or_ge NDIRECT x with hgt | hle
  · have hnum : allHeld tab d (i, x) = number d.block ((tab i).addrs NDIRECT) (x - (NDIRECT + 1)) := held_of_gt hgt
    rw [hnum] at h
    unfold number at h
    split_ifs at h with h0
    · exact absurd rfl h
    · exact .inr ⟨fun h1 => h0 (.inl h1), by omega⟩
  · exact .inl hle

theorem truncRest_spec {a : ℕ → ℕ} (F : Freed sb first tab d i (fun x => decide (x < NDIRECT)) d') (ha : ∀ x, x < NDIRECT → a x = 0)
    (hind : a NDIRECT = (tab i).addrs NDIRECT) :
    ∃ a' d'', truncRest sb { tab i with addrs := a } d' = some ({ tab i with addrs := a' }, d'') ∧ Freed sb first tab d i (fun _ => true) d'' ∧
      ∀ x, x ≤ NDIRECT → a' x = 0 := by
  have hheld : allHeld tab d (i, NDIRECT) = (tab i).addrs NDIRECT := held_of_le (Nat.le_refl _)
  unfold truncRest
  dsimp only
  by_cases h0 : (tab i).addrs NDIRECT = 0
  · rw [if_pos (hind.trans h0)]
    refine ⟨a, d', rfl, F.congr fun x hx => (decide_eq_true ?_).symm, fun x hx => ?_⟩
    · rcases allHeld_ne hx with hle | ⟨h1, -⟩
      · refine Nat.lt_of_le_of_ne hle ?_
        rintro rfl
        exact hx (hheld.trans h0)
      · exact absurd h0 h1
    · rcases Nat.lt_or_eq_of_le hx with hlt | rfl
      · exact ha x hlt
      · rw [hind, h0]
  · rw [if_neg (by rwa [hind]), F.block, hind]
    have F' : Freed sb first tab d i (fun x => decide (x < NDIRECT ∨ (NDIRECT < x ∧ x < NDIRECT + 1 + 0))) d' :=
      F.congr fun x _ => decide_eq_decide.mpr (by omega)
    obtain ⟨d2, h2, F2⟩ := truncIndirect_spec (n := NINDIRECT) F' (by omega) h0
    obtain ⟨d3, h3, F3⟩ := F2.bfree (k := NDIRECT) (by rwa [hheld]) (decide_eq_false (by omega)) fun x => rfl
    rw [hheld] at h3
    rw [h2]
    dsimp only
    rw [h3]
    refine ⟨_, d3, rfl, F3.congr fun x hx => ?_, fun x hx => ?_⟩
    · rw [← Bool.decide_or]
      refine (decide_eq_true ?_).symm
      rcases allHeld_ne hx with hle | ⟨-, h1⟩
      · omega
      · omega
    · rcases Nat.lt_or_eq_of_le hx with hlt | rfl
      · rw [Function.update_of_ne (Nat.ne_of_lt hlt), ha x hlt]
      · exact Function.update_self _ _ _

/-- **`itrunc`.**  All places of the file are empty afterwards, and the places of the other files are as they were. -/
theorem itrunc_spec (i : ℕ) (O : Owned sb first tab d) :
    ∃ tab' d', itrunc sb i (tab i) d = some (tab' i, d') ∧ Owned sb first tab' d' ∧
      (∃ addrs, tab' = Function.update tab i { tab i with size := 0, addrs := addrs }) ∧
      (∀ p, allHeld tab' d' p = if p.1 = i then 0 else allHeld tab d p) ∧ d'.block = d.block ∧
      d'.dinode = Function.update d.dinode i (tab' i) ∧
      ∃ l, d'.logged = l ++ d.logged ∧ ∀ x ∈ l, x = iblock sb i ∨ ∃ r, r < sb.size ∧ x = bblock sb r := by
  have F0 : Freed sb first tab d i (fun x => decide (x < 0)) d := by
    refine ⟨O.exact.congr (fun r _ => Iff.rfl) fun p => if_neg fun h0 => ?_, O.low, rfl, rfl, [], rfl, List.forall_mem_nil _⟩
    exact absurd (of_decide_eq_true h0.2) (Nat.not_lt_zero _)
  obtain ⟨d1, h1, F1⟩ := @truncDirect_spec _ _ _ _ _ _ NDIRECT 0 (tab i) F0 (by omega) (by simp)
  rw [Nat.zero_add] at h1 F1
  obtain ⟨a, d2, h2, F2, ha⟩ := truncRest_spec (a := fun x => if x < NDIRECT then 0 else (tab i).addrs x) F1 (fun x hx => if_pos hx)
    (if_neg (Nat.lt_irrefl _))
  obtain ⟨l, hl, hm⟩ := F2.logged
  let tab' := Function.update tab i { tab i with size := 0, addrs := a }
  have htab : tab' i = { tab i with size := 0, addrs := a } := Function.update_self _ _ _
  have hheld : ∀ p, allHeld tab' (iupdate sb i (tab' i) d2) p = if p.1 = i then 0 else allHeld tab d p := by
    rintro ⟨i', x⟩
    by_cases hi : i' = i
    · subst hi
      rw [if_pos rfl]
      unfold allHeld
      dsimp only
      rw [htab]
      rcases Nat.lt_or_ge NDIRECT x with hgt | hle
      · rw [held_of_gt hgt]
        dsimp only
        rw [ha NDIRECT (Nat.le_refl _)]
        exact number_zero _ _
      · rw [held_of_le hle]
        exact ha x hle
    · rw [if_neg hi]
      unfold allHeld
      dsimp only
      rw [show tab' i' = tab i' from Function.update_of_ne hi _ _]
      refine held_congr fun _ => ?_
      exact congrFun F2.block _
  refine ⟨tab', iupdate sb i (tab' i) d2, ?_, ⟨F2.exact.congr (fun r _ => Iff.rfl) fun p => ?_, F2.low, O.pos, O.uint⟩, ⟨a, rfl⟩, hheld, F2.block,
    ?_, iblock sb i :: l, ?_, List.forall_mem_cons.mpr ⟨.inl rfl, fun x hx => .inr (hm x hx)⟩⟩
  · unfold itrunc
    rw [h1]
    dsimp only
    rw [h2, htab]
  · rw [hheld]
    exact if_congr (by simp) rfl rfl
  · unfold iupdate logWrite
    dsimp only
    rw [F2.dinode]
  · unfold iupdate logWrite
    dsimp only
    rw [hl, List.cons_append]

end OsLabs.Xv6.Inodes
