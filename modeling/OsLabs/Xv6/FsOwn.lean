import OsLabs.Xv6.FsBlocks

/-!
# OsLabs.Xv6.FsOwn — which block belongs to which file (fs.c)

An inode has places for block numbers: the direct ones, the one of the indirect block, and those in the indirect block.

* `held`: the block number at a place; `byteAt`: the byte of a file, 0 where it has no block.
* `Owned`: every block that the bit map has in use stands at one place, and the other way round.
* `Alloc`: a free block goes to an empty place; `Alloc.owned`, `Alloc.byteAt`: that keeps `Owned`, and no byte of any file changes.
* `bmap_spec`: what `bmap` does.
-/

namespace OsLabs.Xv6.Inodes

open Holdings (Exact)

/-- Number `j` in the indirect block `a`, if there is one. -/
def number (block : ℕ → Bytes) (a j : ℕ) : ℕ := if a = 0 ∨ NINDIRECT ≤ j then 0 else word (block a) j

/-- The block number at place `k` of an inode: `addrs[k]`, or a number in the indirect block. -/
def held (block : ℕ → Bytes) (ip : Inode) (k : ℕ) : ℕ :=
  if k ≤ NDIRECT then ip.addrs k else number block (ip.addrs NDIRECT) (k - (NDIRECT + 1))

/-- The place of block `bn` of the data. -/
def place (bn : ℕ) : ℕ := if bn < NDIRECT then bn else bn + 1

theorem place_ne (bn : ℕ) : place bn ≠ NDIRECT := by
  unfold place
  split_ifs <;> omega

theorem place_inj {a b : ℕ} (h : place a = place b) : a = b := by
  unfold place at h
  split_ifs at h <;> omega

section Held

variable {block block' : ℕ → Bytes} {ip : Inode} {a k r j : ℕ}

theorem held_of_le (hk : k ≤ NDIRECT) : held block ip k = ip.addrs k := if_pos hk

theorem held_of_gt (hk : NDIRECT < k) : held block ip k = number block (ip.addrs NDIRECT) (k - (NDIRECT + 1)) :=
  if_neg (Nat.not_le_of_lt hk)

theorem number_zero (block : ℕ → Bytes) (j : ℕ) : number block 0 j = 0 := if_pos (.inl rfl)

theorem number_congr (h : a ≠ 0 → block' a = block a) : number block' a j = number block a j := by
  unfold number
  split_ifs with h0
  · rfl
  · rw [h fun h1 => h0 (.inl h1)]

/-- A new indirect block holds no numbers. -/
theorem number_new (h : block a = fun _ => 0) : number block a j = 0 := by
  unfold number
  split_ifs
  · rfl
  · rw [h, word_zero]

/-- Only the indirect block counts. -/
theorem held_congr (h : ip.addrs NDIRECT ≠ 0 → block' (ip.addrs NDIRECT) = block (ip.addrs NDIRECT)) :
    held block' ip k = held block ip k := by
  unfold held
  rw [number_congr h]

end Held

variable {sb : Superblock} {first i k r o : ℕ} {tab tab' : ℕ → Inode} {d d' : Disk} {ip : Inode}

/-- The block numbers of all inodes. -/
def allHeld (tab : ℕ → Inode) (d : Disk) (p : ℕ × ℕ) : ℕ := held d.block (tab p.1) p.2

/-- The blocks of the data area, from `first` on, that the bit map has in use. -/
def InUse (sb : Superblock) (first : ℕ) (d : Disk) (r : ℕ) : Prop := first ≤ r ∧ r < sb.size ∧ d.bit r = true

/-- **Ownership.**  Every block in use belongs to one place of one file. -/
structure Owned (sb : Superblock) (first : ℕ) (tab : ℕ → Inode) (d : Disk) : Prop where
  exact : Exact 0 (InUse sb first d) (allHeld tab d)
  low : ∀ r, r < first → d.bit r = true
  pos : 0 < first
  uint : sb.size ≤ UINT

/-- Byte `o` of file `i`. -/
def byteAt (tab : ℕ → Inode) (d : Disk) (i o : ℕ) : ℕ :=
  if allHeld tab d (i, place (o / BSIZE)) = 0 then 0 else d.block (allHeld tab d (i, place (o / BSIZE))) (o % BSIZE)

/-- A free block `r` goes to the empty place `(i, k)`. -/
structure Alloc (sb : Superblock) (tab : ℕ → Inode) (d : Disk) (i k r : ℕ) (tab' : ℕ → Inode) (d' : Disk) : Prop where
  lt : r < sb.size
  free : d.bit r = false
  empty : allHeld tab d (i, k) = 0
  same : allHeld tab' d' (i, k) = r
  other : ∀ p, p ≠ (i, k) → allHeld tab' d' p = allHeld tab d p
  bit : d'.bit = Function.update d.bit r true
  zero : k ≠ NDIRECT → d'.block r = fun _ => 0
  block : ∀ p : ℕ × ℕ, p.2 ≠ NDIRECT → allHeld tab d p ≠ 0 → d'.block (allHeld tab d p) = d.block (allHeld tab d p)

namespace Alloc

theorem first_le (h : Alloc sb tab d i k r tab' d') (O : Owned sb first tab d) : first ≤ r := by
  refine Nat.le_of_not_lt fun hlt => ?_
  have := O.low r hlt
  rw [h.free] at this
  cases this

theorem ne_zero (h : Alloc sb tab d i k r tab' d') (O : Owned sb first tab d) : r ≠ 0 := by
  have := h.first_le O
  have := O.pos
  omega

theorem owned (h : Alloc sb tab d i k r tab' d') (O : Owned sb first tab d) : Owned sb first tab' d' := by
  refine ⟨O.exact.alloc (fun hu => ?_) (h.ne_zero O) h.empty (fun x _ => ?_) h.same h.other, fun x hx => ?_, O.pos, O.uint⟩
  · rw [InUse, h.free] at hu
    cases hu.2.2
  · unfold InUse
    rw [h.bit]
    by_cases hx : x = r
    · subst hx
      rw [Function.update_self]
      exact iff_of_true ⟨h.first_le O, h.lt, rfl⟩ (.inr rfl)
    · rw [Function.update_of_ne hx]
      exact ⟨.inl, fun h0 => h0.resolve_right hx⟩
  · rw [h.bit]
    by_cases hxr : x = r
    · subst hxr
      exact Function.update_self _ _ _
    · rw [Function.update_of_ne hxr]
      exact O.low x hx

/-- New blocks hold zeros, as a file does where it has no block. -/
theorem byteAt (h : Alloc sb tab d i k r tab' d') (i' o : ℕ) : byteAt tab' d' i' o = byteAt tab d i' o := by
  unfold Inodes.byteAt
  by_cases hp : (i', place (o / BSIZE)) = (i, k)
  · rw [hp, h.same, h.empty, if_pos rfl, h.zero]
    · split_ifs <;> rfl
    · obtain ⟨-, rfl⟩ := Prod.mk.inj hp
      exact place_ne _
  · rw [h.other _ hp]
    split_ifs with h0
    · rfl
    · rw [h.block _ (place_ne _) h0]

end Alloc

/-- What `balloc` leaves of the disk when it finds `r`. -/
def marked (sb : Superblock) (d : Disk) (r : ℕ) : Disk := bzero (logWrite { d with bit := Function.update d.bit r true } (bblock sb r)) r

/-- A block that is free is at no place. -/
theorem Owned.not_held (O : Owned sb first tab d) (hr : d.bit r = false) (p : ℕ × ℕ) (hp : allHeld tab d p ≠ 0) : allHeld tab d p ≠ r := by
  rintro rfl
  have := (O.exact.used_held hp).2.2
  rw [hr] at this
  cases this

/-- A direct block, or the indirect one. -/
theorem alloc_addr (O : Owned sb first tab d) (hr : r < sb.size) (hf : d.bit r = false) (hk : k ≤ NDIRECT) (h0 : (tab i).addrs k = 0) :
    Alloc sb tab d i k r (Function.update tab i { tab i with addrs := Function.update (tab i).addrs k r }) (marked sb d r) := by
  have hempty : allHeld tab d (i, k) = 0 := (held_of_le hk).trans h0
  have hblock : ∀ p : ℕ × ℕ, allHeld tab d p ≠ 0 → (marked sb d r).block (allHeld tab d p) = d.block (allHeld tab d p) := by
    intro p hp
    exact Function.update_of_ne (O.not_held hf p hp) _ _
  refine ⟨hr, hf, hempty, ?_, fun p hp => ?_, rfl, fun _ => Function.update_self _ _ _, fun p _ hp => hblock p hp⟩
  · unfold allHeld
    rw [Function.update_self, held_of_le hk]
    exact Function.update_self _ _ _
  · obtain ⟨i', k'⟩ := p
    -- the indirect blocks of the old places are as they were
    have hind : ∀ i, (tab i).addrs NDIRECT ≠ 0 → (marked sb d r).block ((tab i).addrs NDIRECT) = d.block ((tab i).addrs NDIRECT) := by
      intro i hi
      have := hblock (i, NDIRECT)
      unfold allHeld at this
      rw [held_of_le (Nat.le_refl _)] at this
      exact this hi
    unfold allHeld
    dsimp only
    by_cases hi : i' = i
    · subst hi
      have hk' : k' ≠ k := fun h1 => hp (by rw [h1])
      rw [Function.update_self]
      rcases Nat.lt_or_ge NDIRECT k' with hgt | hle
      · rw [held_of_gt hgt, held_of_gt hgt]
        dsimp only
        by_cases hkn : k = NDIRECT
        · subst hkn
          rw [Function.update_self, h0, number_zero]
          exact number_new (Function.update_self _ _ _)
        · rw [Function.update_of_ne (Ne.symm hkn)]
          exact number_congr (hind i')
      · rw [held_of_le hle, held_of_le hle]
        exact Function.update_of_ne hk' _ _
    · rw [Function.update_of_ne hi]
      exact held_congr (hind i')

/-- A number in the indirect block. -/
theorem alloc_entry {j : ℕ} (O : Owned sb first tab d) (hr : r < sb.size) (hf : d.bit r = false) (hj : j < NINDIRECT)
    (ha : (tab i).addrs NDIRECT ≠ 0) (h0 : word (d.block ((tab i).addrs NDIRECT)) j = 0) :
    Alloc sb tab d i (NDIRECT + 1 + j) r tab (logWrite { marked sb d r with
      block := Function.update (marked sb d r).block ((tab i).addrs NDIRECT) (setWord ((marked sb d r).block ((tab i).addrs NDIRECT)) j r) }
      ((tab i).addrs NDIRECT)) := by
  have hgt : NDIRECT < NDIRECT + 1 + j := by omega
  have hsub : NDIRECT + 1 + j - (NDIRECT + 1) = j := by omega
  have hind : allHeld tab d (i, NDIRECT) = (tab i).addrs NDIRECT := held_of_le (Nat.le_refl _)
  have hra : (tab i).addrs NDIRECT ≠ r := by
    have := O.not_held hf (i, NDIRECT) (by rwa [hind])
    rwa [hind] at this
  have hold : (marked sb d r).block ((tab i).addrs NDIRECT) = d.block ((tab i).addrs NDIRECT) := Function.update_of_ne hra _ _
  generalize hd' : logWrite { marked sb d r with
      block := Function.update (marked sb d r).block ((tab i).addrs NDIRECT) (setWord ((marked sb d r).block ((tab i).addrs NDIRECT)) j r) }
      ((tab i).addrs NDIRECT) = d'
  have hself : d'.block ((tab i).addrs NDIRECT) = setWord (d.block ((tab i).addrs NDIRECT)) j r := by
    subst hd'
    exact (Function.update_self _ _ _).trans (by rw [hold])
  have hother : ∀ x, x ≠ (tab i).addrs NDIRECT → x ≠ r → d'.block x = d.block x := by
    intro x h1 h2
    subst hd'
    exact (Function.update_of_ne h1 _ _).trans (Function.update_of_ne h2 _ _)
  have hnum : ∀ j', number d.block ((tab i).addrs NDIRECT) j' = if NINDIRECT ≤ j' then 0 else word (d.block ((tab i).addrs NDIRECT)) j' := by
    intro j'
    unfold number
    exact if_congr (or_iff_right ha) rfl rfl
  have hnum' : ∀ j', number d'.block ((tab i).addrs NDIRECT) j' = if NINDIRECT ≤ j' then 0 else word (d'.block ((tab i).addrs NDIRECT)) j' := by
    intro j'
    unfold number
    exact if_congr (or_iff_right ha) rfl rfl
  refine ⟨hr, hf, ?_, ?_, fun p hp => ?_, by subst hd'; rfl, fun _ => ?_, fun p hp hp0 => hother _ (fun he => ?_) (O.not_held hf p hp0)⟩
  · unfold allHeld
    rw [held_of_gt hgt, hsub, hnum, if_neg (by omega), h0]
  · unfold allHeld
    rw [held_of_gt hgt, hsub, hnum', if_neg (by omega), hself, word_setWord (Nat.lt_of_lt_of_le hr O.uint)]
  · obtain ⟨i', k'⟩ := p
    unfold allHeld
    dsimp only
    by_cases hi : i' = i
    · subst hi
      rcases Nat.lt_or_ge NDIRECT k' with hgt' | hle
      · have hne : k' - (NDIRECT + 1) ≠ j := fun h1 => hp (by rw [show k' = NDIRECT + 1 + j by omega])
        rw [held_of_gt hgt', held_of_gt hgt', hnum, hnum', hself, word_setWord_of_ne hne]
      · rw [held_of_le hle, held_of_le hle]
    · -- no other file has this indirect block
      have hi' : allHeld tab d (i', NDIRECT) = (tab i').addrs NDIRECT := held_of_le (Nat.le_refl _)
      refine held_congr fun hn => hother _ (fun he => hi ?_) ?_
      · have := O.exact.inj (i', NDIRECT) (i, NDIRECT) (by rw [hi', hind, he]) (by rwa [hi'])
        exact (Prod.mk.inj this).1
      · have := O.not_held hf (i', NDIRECT) (by rwa [hi'])
        rwa [hi'] at this
  · subst hd'
    exact (Function.update_of_ne hra.symm _ _).trans (Function.update_self _ _ _)
  · have := O.exact.inj p (i, NDIRECT) (by rw [hind, he]) hp0
    exact hp (by rw [this])

/-! ## bmap -/

/-- What `log_write` may get while file `i` gets its block `bn`. -/
def Logs (sb : Superblock) (tab : ℕ → Inode) (d : Disk) (i bn x : ℕ) : Prop :=
  (∃ r, r < sb.size ∧ x = bblock sb r) ∨ (x ≠ 0 ∧ (x = allHeld tab d (i, place bn) ∨ x = allHeld tab d (i, NDIRECT)))

/-- File `i` may have got blocks on the way to its block `bn`; no byte of any file has changed. -/
structure Grown (sb : Superblock) (first : ℕ) (tab : ℕ → Inode) (d : Disk) (i bn : ℕ) (tab' : ℕ → Inode) (d' : Disk) : Prop where
  owned : Owned sb first tab' d'
  keep : ∀ p, allHeld tab d p ≠ 0 → allHeld tab' d' p = allHeld tab d p
  byteAt : ∀ i o, byteAt tab' d' i o = byteAt tab d i o
  inode : ∃ addrs, tab' = Function.update tab i { tab i with addrs := addrs }
  dinode : d'.dinode = d.dinode
  logged : ∃ l, d'.logged = l ++ d.logged ∧ ∀ x ∈ l, Logs sb tab' d' i bn x

namespace Grown

variable {bn : ℕ} {tab'' : ℕ → Inode} {d'' : Disk}

theorem refl (O : Owned sb first tab d) (i bn : ℕ) : Grown sb first tab d i bn tab d := by
  refine ⟨O, fun _ _ => rfl, fun _ _ => rfl, ⟨(tab i).addrs, ?_⟩, rfl, [], rfl, List.forall_mem_nil _⟩
  exact (Function.update_eq_self i tab).symm

theorem trans (h : Grown sb first tab d i bn tab' d') (h' : Grown sb first tab' d' i bn tab'' d'') :
    Grown sb first tab d i bn tab'' d'' := by
  obtain ⟨l, hl, hm⟩ := h.logged
  obtain ⟨l', hl', hm'⟩ := h'.logged
  obtain ⟨a, ha⟩ := h.inode
  obtain ⟨a', ha'⟩ := h'.inode
  refine ⟨h'.owned, fun p hp => ?_, fun i o => (h'.byteAt i o).trans (h.byteAt i o), ⟨a', ?_⟩, h'.dinode.trans h.dinode, l' ++ l,
    by rw [hl', hl, List.append_assoc], List.forall_mem_append.mpr ⟨hm', fun x hx => ?_⟩⟩
  · have hp' := h.keep p hp
    rw [h'.keep p (by rwa [hp']), hp']
  · rw [ha', ha, Function.update_self, Function.update_idem]
  · rcases hm x hx with h0 | ⟨h0, h1 | h1⟩
    · exact .inl h0
    · exact .inr ⟨h0, .inl (by rw [h'.keep _ (h1 ▸ h0), h1])⟩
    · exact .inr ⟨h0, .inr (by rw [h'.keep _ (h1 ▸ h0), h1])⟩

/-- One allocation. -/
theorem of_alloc {l : List ℕ} (O : Owned sb first tab d) (h : Alloc sb tab d i k r tab' d') (hk : k = place bn ∨ k = NDIRECT)
    (hi : ∃ addrs, tab' = Function.update tab i { tab i with addrs := addrs }) (hd : d'.dinode = d.dinode)
    (hl : d'.logged = l ++ d.logged) (hm : ∀ x ∈ l, x = bblock sb r ∨ x = r ∨ (x ≠ 0 ∧ x = allHeld tab' d' (i, NDIRECT))) :
    Grown sb first tab d i bn tab' d' := by
  refine ⟨h.owned O, fun p hp => h.other p ?_, h.byteAt, hi, hd, l, hl, fun x hx => ?_⟩
  · rintro rfl
    exact hp h.empty
  · rcases hm x hx with rfl | rfl | ⟨h0, h1⟩
    · exact .inl ⟨r, h.lt, rfl⟩
    · refine .inr ⟨h.ne_zero O, ?_⟩
      rcases hk with rfl | rfl
      · exact .inl h.same.symm
      · exact .inr h.same.symm
    · exact .inr ⟨h0, .inr h1⟩

end Grown

/-- The number at `addrs[k]` after `loadAddr`; 0 only if all blocks are in use. -/
theorem loadAddr_spec {bn : ℕ} (O : Owned sb first tab d) (hk : k ≤ NDIRECT) (hp : k = place bn ∨ k = NDIRECT) :
    ∃ tab' d', loadAddr sb (tab i) k d = ((tab' i).addrs k, tab' i, d') ∧ Grown sb first tab d i bn tab' d' ∧
      ((tab' i).addrs k = 0 → ∀ x, x < sb.size → d'.bit x = true) := by
  unfold loadAddr
  split_ifs with h0
  · rcases balloc_cases sb d with ⟨r, hr, hf, hb⟩ | ⟨hfull, hb⟩
    · have A := alloc_addr (i := i) O hr hf hk h0
      have hr0 := A.ne_zero O
      refine ⟨_, marked sb d r, ?_, Grown.of_alloc (l := [r, bblock sb r]) O A hp ⟨_, rfl⟩ rfl rfl ?_, ?_⟩
      · rw [hb]
        dsimp only
        rw [if_neg hr0, Function.update_self]
        exact Prod.ext (Function.update_self k r (tab i).addrs).symm rfl
      · intro x hx
        rcases List.mem_cons.mp hx with rfl | hx
        · exact .inr (.inl rfl)
        · exact .inl (List.mem_singleton.mp hx)
      · rw [Function.update_self]
        intro h1
        exact absurd ((Function.update_self k r (tab i).addrs).symm.trans h1) hr0
    · refine ⟨tab, d, ?_, Grown.refl O i bn, fun _ => hfull⟩
      rw [hb, h0]
      rfl
  · exact ⟨tab, d, rfl, Grown.refl O i bn, fun h1 => absurd h1 h0⟩

/-- A number in the indirect block after `loadEntry`. -/
theorem loadEntry_spec {bn : ℕ} (O : Owned sb first tab d) (hlo : NDIRECT ≤ bn) (hbn : bn - NDIRECT < NINDIRECT)
    (ha : (tab i).addrs NDIRECT ≠ 0) :
    ∃ d', loadEntry sb ((tab i).addrs NDIRECT) (bn - NDIRECT) d = (allHeld tab d' (i, place bn), d') ∧ Grown sb first tab d i bn tab d' ∧
      (allHeld tab d' (i, place bn) = 0 → ∀ x, x < sb.size → d'.bit x = true) := by
  have hplace : place bn = NDIRECT + 1 + (bn - NDIRECT) := by
    unfold place
    rw [if_neg (by omega)]
    omega
  have hheld : ∀ d : Disk, allHeld tab d (i, place bn) = word (d.block ((tab i).addrs NDIRECT)) (bn - NDIRECT) := by
    intro d
    unfold allHeld
    rw [hplace, held_of_gt (by dsimp only; omega)]
    dsimp only
    rw [show NDIRECT + 1 + (bn - NDIRECT) - (NDIRECT + 1) = bn - NDIRECT by omega]
    exact if_neg (fun h => h.elim ha (by omega))
  unfold loadEntry
  split_ifs with h0
  · rcases balloc_cases sb d with ⟨r, hr, hf, hb⟩ | ⟨hfull, hb⟩
    · have A := alloc_entry O hr hf hbn ha h0
      have hr0 := A.ne_zero O
      rw [hb]
      dsimp only
      rw [if_neg hr0]
      refine ⟨_, Prod.ext ?_ rfl, Grown.of_alloc (l := [(tab i).addrs NDIRECT, r, bblock sb r]) O A (.inl hplace.symm)
        ⟨(tab i).addrs, (Function.update_eq_self i tab).symm⟩ rfl rfl ?_, fun h1 => ?_⟩
      · rw [hplace]
        exact A.same.symm
      · intro x hx
        rcases List.mem_cons.mp hx with rfl | hx
        · exact .inr (.inr ⟨ha, (held_of_le (Nat.le_refl _)).symm⟩)
        · rcases List.mem_cons.mp hx with rfl | hx
          · exact .inr (.inl rfl)
          · exact .inl (List.mem_singleton.mp hx)
      · rw [hplace] at h1
        exact absurd (A.same.symm.trans h1) hr0
    · refine ⟨d, ?_, Grown.refl O i bn, fun _ => hfull⟩
      rw [hb, hheld, h0]
      rfl
  · exact ⟨d, by rw [hheld], Grown.refl O i bn, fun h1 => absurd ((hheld d).symm.trans h1) h0⟩

/-- **`bmap`.**  It returns the block at the place for `bn`, after it has filled the place if it was empty and there is a free block. -/
theorem bmap_spec {bn : ℕ} (O : Owned sb first tab d) (hbn : bn < MAXFILE) :
    ∃ tab' d', bmap sb (tab i) bn d = some (allHeld tab' d' (i, place bn), tab' i, d') ∧ Grown sb first tab d i bn tab' d' ∧
      (allHeld tab' d' (i, place bn) = 0 → ∀ x, x < sb.size → d'.bit x = true) := by
  unfold bmap
  by_cases hlo : bn < NDIRECT
  · rw [if_pos hlo]
    have hplace : place bn = bn := if_pos hlo
    obtain ⟨tab', d', h1, G, hfull⟩ := loadAddr_spec (i := i) O (Nat.le_of_lt hlo) (.inl hplace.symm)
    have hheld : allHeld tab' d' (i, place bn) = (tab' i).addrs bn := by
      unfold allHeld
      rw [hplace]
      exact held_of_le (Nat.le_of_lt hlo)
    exact ⟨tab', d', by rw [h1, hheld], G, by rwa [hheld]⟩
  · rw [if_neg hlo]
    have hhi : bn - NDIRECT < NINDIRECT := by
      unfold MAXFILE at hbn
      omega
    dsimp only
    rw [if_pos hhi]
    obtain ⟨tab', d', h1, G, hfull⟩ := @loadAddr_spec _ _ i _ _ _ bn O (Nat.le_refl NDIRECT) (.inr rfl)
    rw [h1]
    dsimp only
    by_cases ha : (tab' i).addrs NDIRECT = 0
    · have hheld : allHeld tab' d' (i, place bn) = 0 := by
        unfold allHeld
        rw [held_of_gt (by unfold place; rw [if_neg hlo]; dsimp only; omega), ha]
        exact number_zero _ _
      refine ⟨tab', d', by rw [if_pos ha, hheld], G, fun _ => hfull ha⟩
    · rw [if_neg ha]
      obtain ⟨d2, h2, G2, hfull2⟩ := loadEntry_spec G.owned (Nat.le_of_not_lt hlo) hhi ha
      exact ⟨tab', d2, by rw [h2], G.trans G2, hfull2⟩

end OsLabs.Xv6.Inodes
