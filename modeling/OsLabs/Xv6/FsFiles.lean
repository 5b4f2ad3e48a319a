import OsLabs.Lts
import OsLabs.Xv6.FsContent
import Mathlib.Data.List.GetD

/-!
# OsLabs.Xv6.FsFiles — files as lists of bytes (fs.c)

`content` forgets the blocks, the bit map and the inodes: a file is the list of its bytes.  The operations come one
after the other, and a buffer stays in the cache; `FsCrash` has recycled buffers, commits and crashes.

* `AbsStep`: what the operations are for, on lists of bytes.
* `Sound`: the invariant; the inode in memory is the one on the disk, and a file has a block for every byte.
* `writei_spec`, `readi_spec`, `step_spec`: one operation on a sound state.
* `files_refine`: every run does what `AbsStep` says, and no call panics.
* `blocks_owned`: in every run each block in use belongs to one place of one file.
-/

namespace OsLabs.Xv6.Inodes

open Lts (Run Ev always)

structure Sys where
  /-- The inodes in memory. -/
  tab : ℕ → Inode
  d : Disk

inductive Act
  | write (i off n room : ℕ) (src : ℕ → ℕ)
  | read (i off n room : ℕ)
  | trunc (i : ℕ)
  /-- `ilock` of an inode that had left the table. -/
  | load (i : ℕ)

structure Out where
  ret : ℤ
  data : List ℕ

def Sys.set (s : Sys) (i : ℕ) (ip : Inode) (d : Disk) : Sys := ⟨Function.update s.tab i ip, d⟩

def step (sb : Superblock) (s : Sys) : Act → Option (Out × Sys)
  | .write i off n room src => (writei sb src room i (s.tab i) off n s.d).map fun r => (⟨r.1, []⟩, s.set i r.2.1 r.2.2)
  | .read i off n room => (readi sb room (s.tab i) off n s.d).map fun r => (⟨r.1, r.2.1⟩, s.set i r.2.2.1 r.2.2.2)
  | .trunc i => (itrunc sb i (s.tab i) s.d).map fun r => (⟨0, []⟩, s.set i r.1 r.2)
  | .load i => some (⟨0, []⟩, s.set i (s.d.dinode i) s.d)

def Step (sb : Superblock) (s : Sys) (a : Act) (o : Out) (t : Sys) : Prop := step sb s a = some (o, t)

/-- Offsets and counts are `uint`s. -/
def Act.Uints : Act → Prop
  | .write _ off n _ _ => off < UINT ∧ n < UINT
  | .read _ off n _ => off < UINT ∧ n < UINT
  | .trunc _ => True
  | .load _ => True

/-- An empty disk, as mkfs makes it: the blocks in front of `first` are in use. -/
def mkfs (first : ℕ) : Sys where
  tab := fun _ => ⟨0, 0, 0, 0, 0, fun _ => 0⟩
  d := ⟨fun r => decide (r < first), fun _ _ => 0, fun _ => ⟨0, 0, 0, 0, 0, fun _ => 0⟩, []⟩

/-! ## Lists of bytes -/

/-- `c` with the bytes from `off` on replaced: it grows to hold `tot` of them, and `j` more change where there are any. -/
def overwrite (c : List ℕ) (off tot j : ℕ) (src : ℕ → ℕ) : List ℕ :=
  (List.range (max c.length (off + tot))).map fun o => if off ≤ o ∧ o < off + (tot + j) then src (o - off) else c.getD o 0

/-- **The files.**  A write that is out of range is refused; any other replaces the first `tot` bytes, all of them unless a copy fails or
the disk is full, and a copy that fails has changed `j` bytes more.  A read delivers the bytes that are there, up to where a copy fails. -/
inductive AbsStep (f : ℕ → List ℕ) : Act → Out → (ℕ → List ℕ) → Prop
  | refused {i off n room : ℕ} {src : ℕ → ℕ} (h : (f i).length < off ∨ MAXFILE * BSIZE < off + n) :
      AbsStep f (.write i off n room src) ⟨-1, []⟩ f
  | write {i off n room tot j : ℕ} {src : ℕ → ℕ} (hoff : off ≤ (f i).length) (hmax : off + n ≤ MAXFILE * BSIZE) (hle : tot + j ≤ n)
      (hroom : tot + j ≤ room) (hfull : tot = n → j = 0) (hshort : tot < n → tot + j = room ∨ j = 0) :
      AbsStep f (.write i off n room src) ⟨tot, []⟩ (Function.update f i (overwrite (f i) off tot j src))
  | nothing {i off n room : ℕ} (h : (f i).length < off ∨ UINT ≤ off + n) : AbsStep f (.read i off n room) ⟨0, []⟩ f
  | read {i off n room : ℕ} (hoff : off ≤ (f i).length) (hn : off + n < UINT) :
      AbsStep f (.read i off n room)
        ⟨if min n ((f i).length - off) ≤ room then (min n ((f i).length - off) : ℕ) else -1, ((f i).drop off).take (min n room)⟩ f
  | trunc {i : ℕ} : AbsStep f (.trunc i) ⟨0, []⟩ (Function.update f i [])
  | load {i : ℕ} : AbsStep f (.load i) ⟨0, []⟩ f

variable {sb : Superblock} {first i off n room lo len : ℕ} {src : ℕ → ℕ} {tab tab' : ℕ → Inode} {d d' : Disk} {s t : Sys} {a : Act}
  {o : Out}

/-- Replacing bytes, as one cuts and joins lists. -/
theorem overwrite_eq {c : List ℕ} {tot : ℕ} (h : off ≤ c.length) :
    overwrite c off tot 0 src = c.take off ++ (List.range tot).map src ++ c.drop (off + tot) := by
  unfold overwrite
  apply List.ext_getElem
  · simp only [List.length_map, List.length_range, List.length_append, List.length_take, List.length_drop]
    omega
  · intro x h1 h2
    rw [List.getElem_map, List.getElem_range]
    rw [List.length_map, List.length_range] at h1
    by_cases hlo : x < off
    · rw [if_neg (by omega), List.getElem_append_left (by simp; omega), List.getElem_append_left (by simp; omega), List.getElem_take,
        List.getD_eq_getElem _ _ (by omega)]
    · by_cases hhi : x < off + tot
      · rw [if_pos (by omega), List.getElem_append_left (by simp; omega), List.getElem_append_right (by simp; omega)]
        simp only [List.getElem_map, List.getElem_range, List.length_take]
        rw [Nat.min_eq_left h]
      · rw [if_neg (by omega), List.getElem_append_right (by simp; omega), List.getElem_drop, List.getD_eq_getElem _ _ (by omega)]
        simp only [List.length_append, List.length_take, List.length_map, List.length_range]
        congr 1
        omega

/-! ## The files of a disk -/

/-- The bytes of file `i`. -/
def content (tab : ℕ → Inode) (d : Disk) (i : ℕ) : List ℕ := (List.range (tab i).size).map (byteAt tab d i)

theorem length_content (tab : ℕ → Inode) (d : Disk) (i : ℕ) : (content tab d i).length = (tab i).size := by
  unfold content
  rw [List.length_map, List.length_range]

theorem content_getD {x : ℕ} (hx : x < (tab i).size) : (content tab d i).getD x 0 = byteAt tab d i x := by
  unfold content
  rw [List.getD_eq_getElem _ _ (by simpa using hx), List.getElem_map, List.getElem_range]

/-- Only the block numbers of the inodes count. -/
theorem allHeld_congr (ha : ∀ i, (tab' i).addrs = (tab i).addrs) (hb : d'.block = d.block) (p : ℕ × ℕ) :
    allHeld tab' d' p = allHeld tab d p := by
  unfold allHeld held
  rw [ha, hb]

theorem byteAt_congr (ha : ∀ i, (tab' i).addrs = (tab i).addrs) (hb : d'.block = d.block) (i o : ℕ) :
    byteAt tab' d' i o = byteAt tab d i o := by
  unfold byteAt
  rw [allHeld_congr ha hb, hb]

theorem Owned.congr (O : Owned sb first tab d) (ha : ∀ i, (tab' i).addrs = (tab i).addrs) (hb : d'.block = d.block)
    (hbit : d'.bit = d.bit) : Owned sb first tab' d' := by
  refine ⟨O.exact.congr (fun r _ => ?_) (allHeld_congr ha hb), fun r hr => ?_, O.pos, O.uint⟩
  · unfold InUse
    rw [hbit]
  · rw [hbit]
    exact O.low r hr

/-- The bit map, block by block. -/
theorem Owned.bit_iff {r : ℕ} (O : Owned sb first tab d) (h1 : first ≤ r) (h2 : r < sb.size) :
    d.bit r = true ↔ ∃! p, allHeld tab d p = r := by
  have hpos := O.pos
  have hused : InUse sb first d r ↔ d.bit r = true := ⟨fun h => h.2.2, fun h => ⟨h1, h2, h⟩⟩
  rw [← hused, O.exact.used_iff r (by omega)]
  constructor
  · rintro ⟨p, rfl⟩
    exact ⟨p, rfl, fun q hq => O.exact.inj q p hq (by rw [hq]; omega)⟩
  · rintro ⟨p, hp, -⟩
    exact ⟨p, hp⟩

/-- **The invariant.** -/
structure Sound (sb : Superblock) (first : ℕ) (tab : ℕ → Inode) (d : Disk) : Prop where
  owned : Owned sb first tab d
  mapped : ∀ i o, o < (tab i).size → allHeld tab d (i, place (o / BSIZE)) ≠ 0
  bound : ∀ i, (tab i).size ≤ MAXFILE * BSIZE
  synced : d.dinode = tab

/-- The contents after a write, with the size that `writei` stores. -/
theorem Wrote.content {tot j : ℕ} {tab2 : ℕ → Inode} {d2 : Disk} (W : Wrote sb first tab d i off (tot + j) src tab' d')
    (hsize : ∀ i', (tab2 i').size = if i' = i then max (tab i).size (off + tot) else (tab i').size)
    (hbyte : ∀ i' x, Inodes.byteAt tab2 d2 i' x = Inodes.byteAt tab' d' i' x) (hoff : off ≤ (tab i).size) :
    content tab2 d2 = Function.update (content tab d) i (overwrite (content tab d i) off tot j src) := by
  ext1 i'
  by_cases hi : i' = i
  · subst hi
    rw [Function.update_self]
    unfold overwrite
    rw [length_content]
    unfold Inodes.content
    rw [hsize, if_pos rfl]
    refine List.map_congr_left fun x hx => ?_
    have hx := List.mem_range.mp hx
    rw [hbyte, W.byteAt]
    by_cases h : off ≤ x ∧ x < off + (tot + j)
    · rw [if_pos ⟨rfl, h⟩, if_pos h]
    · rw [if_neg (fun h0 => h h0.2), if_neg h]
      exact (content_getD (by omega)).symm
  · rw [Function.update_of_ne hi]
    unfold Inodes.content
    rw [hsize, if_neg hi]
    refine List.map_congr_left fun x _ => ?_
    rw [hbyte, W.byteAt, if_neg (fun h0 => hi h0.1)]

/-! ## The operations -/

theorem wraps_iff (hoff : off < UINT) (hn : n < UINT) : (off + n) % UINT < off ↔ UINT ≤ off + n := by
  by_cases h : UINT ≤ off + n
  · rw [Nat.mod_eq_sub_mod h, Nat.mod_eq_of_lt (by omega)]
    omega
  · rw [Nat.mod_eq_of_lt (by omega)]
    omega

/-- **`writei`**, and what it logs: the inode, and what belongs to the blocks that it writes. -/
theorem writei_spec {hi : ℕ} (S : Sound sb first tab d) (i : ℕ) (src : ℕ → ℕ) (room : ℕ) (hoff : off < UINT) (hn : n < UINT)
    (hhi : ∀ x, x < off + n → x / BSIZE ≤ hi) :
    ∃ ret ip d', writei sb src room i (tab i) off n d = some (ret, ip, d') ∧ Sound sb first (Function.update tab i ip) d' ∧
      AbsStep (content tab d) (.write i off n room src) ⟨ret, []⟩ (content (Function.update tab i ip) d') ∧
      ∃ l, d'.logged = l ++ d.logged ∧ ∀ x ∈ l, x = iblock sb i ∨ LogsIn sb (Function.update tab i ip) d' i (off / BSIZE) hi x := by
  have hmaxU : MAXFILE * BSIZE < UINT := by decide
  have hrefused : (tab i).size < off ∨ MAXFILE * BSIZE < off + n →
      AbsStep (content tab d) (.write i off n room src) ⟨-1, []⟩ (content (Function.update tab i (tab i)) d) := by
    intro h
    rw [Function.update_eq_self]
    exact .refused (by rwa [length_content])
  have hself : Sound sb first (Function.update tab i (tab i)) d := by rwa [Function.update_eq_self]
  unfold writei
  by_cases h1 : off > (tab i).size ∨ (off + n) % UINT < off
  · rw [if_pos h1]
    rw [wraps_iff hoff hn] at h1
    exact ⟨-1, tab i, d, rfl, hself, hrefused (by omega), [], rfl, List.forall_mem_nil _⟩
  · rw [if_neg h1]
    rw [wraps_iff hoff hn] at h1
    have hlt : (off + n) % UINT = off + n := Nat.mod_eq_of_lt (by omega)
    rw [hlt]
    by_cases h2 : off + n > MAXFILE * BSIZE
    · rw [if_pos h2]
      exact ⟨-1, tab i, d, rfl, hself, hrefused (.inr h2), [], rfl, List.forall_mem_nil _⟩
    · rw [if_neg h2]
      obtain ⟨tot, j, tab1, d1, h3, D⟩ := @writeLoop_spec sb first i (n + 1) tab d src room n 0 off (off / BSIZE) hi S.owned (by omega)
        (Nat.zero_le _) (Nat.zero_le _) (Nat.lt_succ_self _) (Nat.le_refl _) fun x hx => hhi x (by omega)
      rw [h3]
      dsimp only
      have W := D.wrote
      have htot := D.le_n
      rw [Nat.sub_zero] at W ⊢
      simp only [Nat.zero_add] at W
      obtain ⟨addrs, htab1⟩ := W.inode
      have hsize1 : (tab1 i).size = (tab i).size := by rw [htab1, Function.update_self]
      have hother : ∀ i', i' ≠ i → tab1 i' = tab i' := fun i' hi => by rw [htab1, Function.update_of_ne hi]
      -- the inode that is stored
      generalize hip : (if off + tot > (tab1 i).size then { tab1 i with size := off + tot } else tab1 i) = ip
      have haddrs : ip.addrs = (tab1 i).addrs := by
        rw [← hip]
        split_ifs <;> rfl
      have hsize : ip.size = max (tab i).size (off + tot) := by
        rw [← hip]
        split_ifs with h4
        · dsimp only
          omega
        · omega
      generalize htab2 : Function.update tab i ip = tab2
      have hat : tab2 i = ip := by rw [← htab2, Function.update_self]
      have hne : ∀ i', i' ≠ i → tab2 i' = tab i' := fun i' hi => by rw [← htab2, Function.update_of_ne hi]
      have ha : ∀ i', (tab2 i').addrs = (tab1 i').addrs := by
        intro i'
        by_cases hi : i' = i
        · rw [hi, hat, haddrs]
        · rw [hne i' hi, hother i' hi]
      have hb : (iupdate sb i ip d1).block = d1.block := rfl
      have hsizes : ∀ i', (tab2 i').size = if i' = i then max (tab i).size (off + tot) else (tab i').size := by
        intro i'
        split_ifs with hi
        · rw [hi, hat, hsize]
        · rw [hne i' hi]
      refine ⟨tot, ip, iupdate sb i ip d1, rfl, ?_, ?_, ?_⟩
      · rw [htab2]
        refine ⟨W.owned.congr ha hb rfl, fun i' x hx => ?_, fun i' => ?_, ?_⟩
        · rw [allHeld_congr ha hb]
          rw [hsizes] at hx
          by_cases hold : x < (tab i').size
          · have := S.mapped i' x hold
            rwa [W.keep _ this]
          · split_ifs at hx with hi
            · subst hi
              exact D.mapped x (by omega) (by omega)
            · exact absurd hx hold
        · rw [hsizes]
          have := S.bound i
          split_ifs
          · omega
          · exact S.bound i'
        · unfold iupdate logWrite
          dsimp only
          rw [W.dinode, S.synced, htab2]
      · rw [htab2, W.content hsizes (byteAt_congr ha hb) (by omega)]
        refine .write (by rw [length_content]; omega) (by omega) (by omega) D.le_room D.full fun hlt => ?_
        rcases D.stop hlt with h4 | h4
        · exact .inl h4.2
        · exact .inr h4.1
      · obtain ⟨l, hl, hm⟩ := D.logged
        refine ⟨iblock sb i :: l, by rw [List.cons_append, ← hl]; rfl, List.forall_mem_cons.mpr ⟨.inl rfl, fun x hx => .inr ?_⟩⟩
        rw [htab2]
        exact (hm x hx).keep fun p _ => allHeld_congr ha hb p

/-- **`readi`.** -/
theorem readi_spec (S : Sound sb first tab d) (i room : ℕ) (hoff : off < UINT) (hn : n < UINT) :
    ∃ ret data, readi sb room (tab i) off n d = some (ret, data, tab i, d) ∧
      AbsStep (content tab d) (.read i off n room) ⟨ret, data⟩ (content tab d) := by
  unfold readi
  by_cases h1 : off > (tab i).size ∨ (off + n) % UINT < off
  · rw [if_pos h1]
    rw [wraps_iff hoff hn] at h1
    exact ⟨0, [], rfl, .nothing (by rwa [length_content])⟩
  · rw [if_neg h1]
    rw [wraps_iff hoff hn] at h1
    have hlt : (off + n) % UINT = off + n := Nat.mod_eq_of_lt (by omega)
    have hbound := S.bound i
    -- the count is cut at the end of the file
    have hcut : (if (off + n) % UINT > (tab i).size then (tab i).size - off else n) = min n ((tab i).size - off) := by
      rw [hlt]
      split_ifs <;> omega
    rw [hcut]
    have hread := @readLoop_spec sb i (min n ((tab i).size - off) + 1) tab d room (min n ((tab i).size - off)) 0 off
      (fun x _ hx => S.mapped i x (by omega)) (by omega) (Nat.zero_le _) (Nat.zero_le _) (by omega)
    refine ⟨_, _, hread, ?_⟩
    have hdata : ((List.range (min (min n ((tab i).size - off)) room - 0)).map fun x => byteAt tab d i (off + x)) =
        ((content tab d i).drop off).take (min n room) := by
      apply List.ext_getElem
      · simp only [List.length_map, List.length_range, List.length_take, List.length_drop, length_content]
        omega
      · intro x h2 h3
        rw [List.getElem_map, List.getElem_range, List.getElem_take, List.getElem_drop]
        unfold content
        rw [List.getElem_map, List.getElem_range]
    rw [hdata]
    rw [← length_content tab d i] at h1 ⊢
    exact .read (by omega) (by omega)

/-- **`itrunc`.** -/
theorem itrunc_sound (S : Sound sb first tab d) (i : ℕ) :
    ∃ ip d', itrunc sb i (tab i) d = some (ip, d') ∧ Sound sb first (Function.update tab i ip) d' ∧
      content (Function.update tab i ip) d' = Function.update (content tab d) i [] := by
  obtain ⟨tab', d', h1, O, ⟨addrs, htab⟩, hheld, hb, hdi, -⟩ := itrunc_spec i S.owned
  have hat : tab' i = { tab i with size := 0, addrs := addrs } := by rw [htab, Function.update_self]
  have hup : Function.update tab i (tab' i) = tab' := by rw [hat, htab]
  have hsize : ∀ i', (tab' i').size = if i' = i then 0 else (tab i').size := by
    intro i'
    split_ifs with hi
    · rw [hi, hat]
    · rw [htab, Function.update_of_ne hi]
  refine ⟨tab' i, d', h1, ?_, ?_⟩
  · rw [hup]
    refine ⟨O, fun i' x hx => ?_, fun i' => ?_, by rw [hdi, S.synced, hup]⟩
    · rw [hsize] at hx
      split_ifs at hx with hi
      · exact absurd hx (Nat.not_lt_zero _)
      · rw [hheld, if_neg hi]
        exact S.mapped i' x hx
    · rw [hsize]
      split_ifs
      · exact Nat.zero_le _
      · exact S.bound i'
  · rw [hup]
    ext1 i'
    unfold content
    rw [hsize]
    by_cases hi : i' = i
    · rw [hi, Function.update_self, if_pos rfl]
      rfl
    · rw [Function.update_of_ne hi, if_neg hi]
      refine List.map_congr_left fun x _ => ?_
      unfold byteAt
      rw [hheld, if_neg hi, hb]

/-- **One operation**, in any sound state: it returns, and does to the files what it is for. -/
theorem step_spec (S : Sound sb first s.tab s.d) (hu : a.Uints) :
    ∃ o t, Step sb s a o t ∧ Sound sb first t.tab t.d ∧ AbsStep (content s.tab s.d) a o (content t.tab t.d) := by
  have hsame : ∀ i, s.set i (s.tab i) s.d = s := fun i => by
    unfold Sys.set
    rw [Function.update_eq_self]
  cases a with
  | write i off n room src =>
    obtain ⟨ret, ip, d', h, S', A, -⟩ := writei_spec S i src room hu.1 hu.2 fun x hx => Nat.div_le_div_right (Nat.le_of_lt hx)
    exact ⟨⟨ret, []⟩, s.set i ip d', by rw [Step, step, h]; rfl, S', A⟩
  | read i off n room =>
    obtain ⟨ret, data, h, A⟩ := readi_spec S i room hu.1 hu.2
    exact ⟨⟨ret, data⟩, s, by rw [Step, step, h, Option.map_some, hsame], S, A⟩
  | trunc i =>
    obtain ⟨ip, d', h, S', hc⟩ := itrunc_sound S i
    refine ⟨⟨0, []⟩, s.set i ip d', by rw [Step, step, h]; rfl, S', ?_⟩
    unfold Sys.set
    rw [hc]
    exact .trunc
  | load i =>
    refine ⟨⟨0, []⟩, s, ?_, S, .load⟩
    rw [Step, step, S.synced, hsame]

/-! ## Runs -/

section Runs

variable {tr : List (Ev Sys Act Out)}

/-- What the callers keep to. -/
def Uints (_ : Sys) (a : Act) : Prop := a.Uints

instance uintsDecidable (s : Sys) : ∀ a, Decidable (Uints s a)
  | .write _ off n _ _ => inferInstanceAs (Decidable (off < UINT ∧ n < UINT))
  | .read _ off n _ => inferInstanceAs (Decidable (off < UINT ∧ n < UINT))
  | .trunc _ => .isTrue trivial
  | .load _ => .isTrue trivial

theorem step_keeps (S : Sound sb first s.tab s.d) (hu : Uints s a) (hst : Step sb s a o t) :
    Sound sb first t.tab t.d ∧ AbsStep (content s.tab s.d) a o (content t.tab t.d) := by
  obtain ⟨o', t', h, S', A⟩ := step_spec S hu
  unfold Step at h hst
  rw [hst] at h
  obtain ⟨rfl, rfl⟩ := Prod.mk.inj (Option.some.inj h)
  exact ⟨S', A⟩

/-- An empty disk holds no blocks. -/
theorem mkfs_held (first : ℕ) (p : ℕ × ℕ) : allHeld (mkfs first).tab (mkfs first).d p = 0 := by
  unfold allHeld held
  split_ifs
  · rfl
  · exact number_zero _ _

theorem mkfs_sound (hpos : 0 < first) (hsize : sb.size ≤ UINT) : Sound sb first (mkfs first).tab (mkfs first).d := by
  refine ⟨⟨⟨fun p q _ hp => absurd (mkfs_held first p) hp, fun r hr => iff_of_false (fun h => ?_) ?_⟩, fun r hr => decide_eq_true hr,
    hpos, hsize⟩, fun i x hx => absurd hx (Nat.not_lt_zero _), fun i => Nat.zero_le _, rfl⟩
  · have := of_decide_eq_true h.2.2
    have := h.1
    omega
  · rintro ⟨p, hp⟩
    rw [mkfs_held] at hp
    exact hr hp.symm

theorem run_sound (hpos : 0 < first) (hsize : sb.size ≤ UINT) (hr : Run (Step sb) Uints (mkfs first) tr t) : Sound sb first t.tab t.d :=
  hr.inv (I := fun s => Sound sb first s.tab s.d) (mkfs_sound hpos hsize) fun _ _ _ _ S hu hst => (step_keeps S hu hst).1

/-- What a run does to the files. -/
def fileEv (e : Ev Sys Act Out) : Ev (ℕ → List ℕ) Act Out := ⟨content e.pre.tab e.pre.d, e.act, e.out, content e.post.tab e.post.d⟩

theorem run_files (S : Sound sb first s.tab s.d) (hr : Run (Step sb) Uints s tr t) :
    Run AbsStep always (content s.tab s.d) (tr.map fileEv) (content t.tab t.d) := by
  induction hr with
  | nil => exact .nil
  | @snoc tr u t a o hr hok hst ih =>
    have hu := hr.inv (I := fun s => Sound sb first s.tab s.d) S fun _ _ _ _ S hu hst => (step_keeps S hu hst).1
    rw [List.map_append]
    exact ih.snoc trivial (step_keeps hu hok hst).2

/-- **Files.**  Every run from an empty disk does, with the same results, what `AbsStep` says on lists of bytes that are empty at the
start. -/
theorem files_refine (hpos : 0 < first) (hsize : sb.size ≤ UINT) (hr : Run (Step sb) Uints (mkfs first) tr t) :
    Run AbsStep always (fun _ => []) (tr.map fileEv) (content t.tab t.d) :=
  run_files (mkfs_sound hpos hsize) hr

/-- A run that a computation finds. -/
theorem exists_run (acts : List Act) {P : List (Ev Sys Act Out) → Sys → Prop} [∀ tr t, Decidable (P tr t)]
    (h : (Lts.execute (step ⟨8, 2, 1⟩) Uints (mkfs 4) acts).any (fun x => decide (P x.1 x.2)) = true) :
    ∃ tr t, Run (Step ⟨8, 2, 1⟩) Uints (mkfs 4) tr t ∧ P tr t :=
  Lts.exists_run_of_execute (fun _ _ _ _ h => h) h

theorem exists_refine_run : ∃ tr t, Run (Step ⟨8, 2, 1⟩) Uints (mkfs 4) tr t ∧
    (tr.map fun e => (e.out.ret, e.out.data)) = [(3, []), (2, [8, 9])] :=
  exists_run [.write 1 0 3 3 fun x => x + 7, .read 1 1 5 9] (by decide +kernel)

theorem files_refine_two : ∃ tr t, Run (Step ⟨8, 2, 1⟩) Uints (mkfs 4) tr t ∧
    (tr.map fun e => (e.out.ret, e.out.data)) = [(3, []), (2, [8, 9])] ∧
    Run AbsStep always (fun _ => []) (tr.map fileEv) (content t.tab t.d) := by
  obtain ⟨tr, t, hr, h⟩ := exists_refine_run
  exact ⟨tr, t, hr, h, files_refine (by decide) (by decide) hr⟩

/-- **No panic.**  In every state of every run each operation returns: `bfree` finds no block free, and `bmap` is never out of range. -/
theorem calls_return (hpos : 0 < first) (hsize : sb.size ≤ UINT) (hr : Run (Step sb) Uints (mkfs first) tr t) (hu : a.Uints) :
    ∃ o u, Step sb t a o u := by
  obtain ⟨o, u, h, -⟩ := step_spec (run_sound hpos hsize hr) hu
  exact ⟨o, u, h⟩

theorem calls_return_trunc : ∃ tr t, Run (Step ⟨8, 2, 1⟩) Uints (mkfs 4) tr t ∧
    (tr.map fun e => (e.out.ret, e.out.data)) = [(3, []), (2, [8, 9])] ∧ ∃ o u, Step ⟨8, 2, 1⟩ t (.trunc 1) o u := by
  obtain ⟨tr, t, hr, h⟩ := exists_refine_run
  exact ⟨tr, t, hr, h, calls_return (by decide) (by decide) hr trivial⟩

/-- **Blocks.**  In every run a block of the data area is marked in the bit map exactly if it belongs to one place of one file, and no block
number in an inode or an indirect block is outside the data area. -/
theorem blocks_owned (hpos : 0 < first) (hsize : sb.size ≤ UINT) (hr : Run (Step sb) Uints (mkfs first) tr t) :
    (∀ r, first ≤ r → r < sb.size → (t.d.bit r = true ↔ ∃! p, allHeld t.tab t.d p = r)) ∧
    ∀ p, allHeld t.tab t.d p ≠ 0 → first ≤ allHeld t.tab t.d p ∧ allHeld t.tab t.d p < sb.size := by
  have O := (run_sound hpos hsize hr).owned
  refine ⟨fun r h1 h2 => O.bit_iff h1 h2, fun p hp => ?_⟩
  have h := O.exact.used_held hp
  exact ⟨h.1, h.2.1⟩

theorem blocks_owned_two : ∃ tr t, Run (Step ⟨8, 2, 1⟩) Uints (mkfs 4) tr t ∧
    (tr.map fun e => (e.out.ret, e.out.data)) = [(3, []), (2, [8, 9])] ∧ (t.d.bit 4 = true ↔ ∃! p, allHeld t.tab t.d p = 4) := by
  obtain ⟨tr, t, hr, h⟩ := exists_refine_run
  exact ⟨tr, t, hr, h, (blocks_owned (by decide) (by decide) hr).1 4 (by decide) (by decide)⟩

end Runs

end OsLabs.Xv6.Inodes
