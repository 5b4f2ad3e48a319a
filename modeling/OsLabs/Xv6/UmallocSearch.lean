import OsLabs.Xv6.Umalloc

/-!
# OsLabs.Xv6.UmallocSearch — what `malloc` finds (umalloc.c)

* `Taken`: a block, or the end of a block, taken from the free list; `take_spec`.
* `search_walk`: the loop of `malloc` visits the whole ring, up to the first block that is long enough.
* `search_spec`: one call of `sbrk` is enough; `malloc` fails only if no free addresses in a row are enough and `sbrk` fails.
-/

namespace OsLabs.Xv6.Umalloc

open LinkedRing (Links lastOf lastOf_mem)
open Extents

variable {base p prevp k nunits : ℕ} {h h' : Heap} {L L' xs ys : List (ℕ × ℕ)} {zs : List ℕ} {sbrks : List (Option ℕ)}

/-- The block with the header `r` taken from the list `L`. -/
structure Taken (base : ℕ) (h : Heap) (L : List (ℕ × ℕ)) (nunits r : ℕ) (h' : Heap) (L' : List (ℕ × ℕ)) : Prop where
  list : FreeList base h' L'
  size : h'.size r = nunits
  was_free : ∀ b, In (r, HDR * nunits) b → Cov L b
  cov : ∀ b, Cov L' b ↔ Cov L b ∧ ¬ In (r, HDR * nunits) b
  frame : ∀ a, ¬ Cov L a → h'.size a = h.size a

/-- The whole block is used. -/
theorem take_all (F : FreeList base h (xs ++ (p, HDR * nunits) :: ys)) (hp : lastOf base (xs.map Prod.fst) = prevp) :
    Taken base h (xs ++ (p, HDR * nunits) :: ys) nunits p { h with ptr := Function.update h.ptr prevp (h.ptr p), freep := prevp }
      (xs ++ ys) := by
  obtain ⟨hs, hc⟩ := F.sorted.removed
  have hring := F.ring
  rw [List.map_append, List.map_cons] at hring
  obtain ⟨hl1, hl2⟩ := Links.append.mp hring
  have hasc := F.ascending
  rw [List.map_append] at hasc
  have hnd : (base :: xs.map Prod.fst).Nodup := by
    have := hasc.imp (fun {a b} hab => Nat.ne_of_lt hab)
    exact (List.nodup_append.mp (show ((base :: xs.map Prod.fst) ++ _).Nodup from this)).1
  have hlast : lastOf base (xs.map Prod.fst) ∉ ys.map Prod.fst := fun hm =>
    Nat.lt_irrefl _ ((lastOf_lt hasc).2 _ (List.mem_cons_of_mem _ hm))
  have hsize : h.size p = nunits := by
    have := F.sizes (p, HDR * nunits) (by simp)
    exact (Nat.eq_of_mul_eq_mul_left (by decide) this).symm
  refine ⟨⟨?_, fun x hx => F.sizes x ?_, F.base_size, ?_, hs, fun b hb => F.above b ((hc b).mp hb).1, fun b hb => F.top b ((hc b).mp hb).1⟩,
    hsize, fun b hb => ⟨_, List.mem_append_right _ List.mem_cons_self, hb⟩, hc, fun a _ => rfl⟩
  · have := hl1.skip hnd hl2 hlast
    rw [hp] at this
    rwa [List.map_append]
  · rcases List.mem_append.mp hx with hx | hx
    · exact List.mem_append_left _ hx
    · exact List.mem_append_right _ (List.mem_cons_of_mem _ hx)
  · rw [List.map_append]
    have := List.mem_append_left (ys.map Prod.fst) (lastOf_mem base (xs.map Prod.fst))
    rwa [hp] at this

/-- The end of the block is used. -/
theorem take_end {m : ℕ} (F : FreeList base h (xs ++ (p, HDR * (m + nunits)) :: ys)) (hp : prevp ∈ base :: xs.map Prod.fst) (hm : 0 < m)
    (hn : 0 < nunits) :
    Taken base h (xs ++ (p, HDR * (m + nunits)) :: ys) nunits (p + HDR * m)
      { h with size := Function.update (Function.update h.size p m) (p + HDR * m) nunits, freep := prevp } (xs ++ (p, HDR * m) :: ys) := by
  have hH : 0 < HDR := by decide
  have F0 := F
  rw [Nat.mul_add] at F0 ⊢
  obtain ⟨hs, hc⟩ := F0.sorted.cut (Nat.mul_pos hH hm)
  obtain ⟨-, hsy, hgap⟩ := sorted_append.mp F0.sorted
  obtain ⟨hgy, -, -⟩ := sorted_cons.mp hsy
  have hpos : 0 < HDR * m := Nat.mul_pos hH hm
  have hnpos : 0 < HDR * nunits := Nat.mul_pos hH hn
  have hin : ∀ b, In (p + HDR * m, HDR * nunits) b → Cov (xs ++ (p, HDR * m + HDR * nunits) :: ys) b := by
    intro b hb
    refine ⟨_, List.mem_append_right _ List.mem_cons_self, ?_⟩
    have h1 := hb.1
    have h2 := hb.2
    dsimp only at h1 h2
    exact ⟨by dsimp only; omega, by dsimp only; omega⟩
  -- sizes outside the block stay
  have hsz : ∀ a, a ≠ p → a ≠ p + HDR * m → Function.update (Function.update h.size p m) (p + HDR * m) nunits a = h.size a := by
    intro a h1 h2
    rw [Function.update_of_ne h2, Function.update_of_ne h1]
  refine ⟨⟨?_, ?_, ?_, ?_, hs, fun b hb => F0.above b ((hc b).mp hb).1, fun b hb => F0.top b ((hc b).mp hb).1⟩, Function.update_self _ _ _,
    hin, hc, fun a ha => hsz a ?_ ?_⟩
  · have := F0.ring
    rwa [List.map_append, List.map_cons] at this ⊢
  · refine List.forall_mem_append.mpr ⟨fun x hx => ?_, List.forall_mem_cons.mpr ⟨?_, fun y hy => ?_⟩⟩
    · have : x.1 + x.2 < p := hgap x hx (p, HDR * m + HDR * nunits) List.mem_cons_self
      dsimp only
      rw [hsz x.1 (by omega) (by omega)]
      exact F0.sizes x (List.mem_append_left _ hx)
    · dsimp only
      rw [Function.update_of_ne (by omega), Function.update_self]
    · have : p + (HDR * m + HDR * nunits) < y.1 := hgy y hy
      dsimp only
      rw [hsz y.1 (by omega) (by omega)]
      exact F0.sizes y (List.mem_append_right _ (List.mem_cons_of_mem _ hy))
  · have : base < p := F0.base_lt (List.mem_append_right _ List.mem_cons_self)
    dsimp only
    rw [hsz base (by omega) (by omega)]
    exact F0.base_size
  · rw [List.map_append]
    exact List.mem_append_left _ hp
  · rintro rfl
    exact ha (F0.first_cov (List.mem_append_right _ List.mem_cons_self))
  · rintro rfl
    exact ha (hin _ ⟨Nat.le_refl _, Nat.lt_add_of_pos_right hnpos⟩)

/-- **A block found.** -/
theorem take_spec (F : FreeList base h L) (hprev : prevp ∈ base :: L.map Prod.fst) (hp : h.ptr prevp = p) (hsz : nunits ≤ h.size p)
    (hn : 0 < nunits) : ∃ r L', (take h nunits prevp p).1 = r + HDR ∧ Taken base h L nunits r (take h nunits prevp p).2 L' := by
  obtain ⟨us, vs, hA, hlast⟩ := exists_cut hprev
  obtain ⟨xs, ys, rfl, rfl, rfl⟩ := List.map_eq_append_iff.mp hA
  have hring := F.ring
  rw [List.map_append] at hring
  have hl := (Links.split.mp hring).2
  rw [← hlast] at hl
  cases ys with
  | nil =>
    -- the ring would end here, but `base` has size 0
    have hb : h.ptr prevp = base := hl
    rw [← hp, hb, F.base_size] at hsz
    omega
  | cons y ys =>
    obtain rfl : y.1 = p := hl.1.symm.trans hp
    obtain ⟨y1, y2⟩ := y
    have hy : y2 = HDR * h.size y1 := F.sizes _ (List.mem_append_right _ List.mem_cons_self)
    subst hy
    unfold take
    dsimp only
    by_cases he : h.size y1 = nunits
    · rw [if_pos he]
      subst he
      exact ⟨y1, _, rfl, take_all F hlast.symm⟩
    · rw [if_neg he]
      obtain ⟨m, hm⟩ : ∃ m, h.size y1 = m + nunits := ⟨h.size y1 - nunits, by dsimp only at hsz; omega⟩
      rw [hm] at F ⊢
      rw [Nat.add_sub_cancel, Function.update_self]
      exact ⟨y1 + HDR * m, _, rfl, take_end F (hlast ▸ lastOf_mem base _) (by omega) hn⟩

/-! ## The search -/

/-- The ring as one sees it from `freep`. -/
theorem exists_rotation (F : FreeList base h L) : ∃ zs, Links h.ptr h.freep zs h.freep ∧ h.freep ∉ zs ∧ zs.length = L.length ∧
    ∀ a, a ∈ h.freep :: zs ↔ a ∈ base :: L.map Prod.fst := by
  have hnd : (base :: L.map Prod.fst).Nodup := F.ascending.imp fun {a b} hab => Nat.ne_of_lt hab
  rcases List.mem_cons.mp F.freep with he | hm
  · rw [he]
    exact ⟨L.map Prod.fst, F.ring, (List.nodup_cons.mp hnd).1, List.length_map _, fun a => Iff.rfl⟩
  · obtain ⟨us, vs, hA⟩ := List.append_of_mem hm
    have hring := F.ring
    rw [hA] at hring hnd ⊢
    obtain ⟨h1, h2⟩ := Links.append.mp hring
    have hperm : (base :: (us ++ h.freep :: vs)).Perm (h.freep :: (vs ++ base :: us)) := by
      have h0 : (base :: us ++ h.freep :: vs).Perm (h.freep :: vs ++ (base :: us)) := List.perm_append_comm
      simpa using h0
    refine ⟨vs ++ base :: us, Links.append.mpr ⟨h2, h1⟩, (List.nodup_cons.mp (hperm.nodup_iff.mp hnd)).1, ?_, fun a => hperm.mem_iff.symm⟩
    have := congrArg List.length hA
    simp only [List.length_map, List.length_append, List.length_cons] at this ⊢
    omega

theorem place_mono {bp q k' : ℕ} (h1 : place h bp k p = some q) (hk : k ≤ k') : place h bp k' p = some q := by
  induction k generalizing p k' with
  | zero => cases h1
  | succ k ih =>
    obtain ⟨k', rfl⟩ : ∃ m, k' = m + 1 := ⟨k' - 1, by omega⟩
    rw [place] at h1 ⊢
    split_ifs at h1 ⊢
    · exact h1
    · exact h1
    · exact ih h1 (by omega)

theorem free_mono {ap k' : ℕ} (h1 : free k ap h = some h') (hk : k ≤ k') : free k' ap h = some h' := by
  obtain ⟨q, hq, hh⟩ := Option.map_eq_some_iff.mp h1
  exact Option.map_eq_some_iff.mpr ⟨q, place_mono hq hk, hh⟩

theorem morecore_mono {sbrk : Option ℕ} {x : Option ℕ × Heap} {k' : ℕ} (h1 : morecore k nunits sbrk h = some x) (hk : k ≤ k') :
    morecore k' nunits sbrk h = some x := by
  cases sbrk with
  | none => exact h1
  | some p =>
    obtain ⟨g, hg, hx⟩ := Option.map_eq_some_iff.mp h1
    exact Option.map_eq_some_iff.mpr ⟨g, free_mono hg hk, hx⟩

/-- **Enough is enough.**  More rounds do not change what `malloc` returns. -/
theorem search_mono {x : Option ℕ × List (Option ℕ) × Heap} {k' : ℕ} (h1 : search nunits k sbrks prevp p h = some x) (hk : k ≤ k') :
    search nunits k' sbrks prevp p h = some x := by
  induction k generalizing k' sbrks prevp p h with
  | zero =>
    rw [search.eq_def] at h1
    cases h1
  | succ k ih =>
    obtain ⟨k', rfl⟩ : ∃ m, k' = m + 1 := ⟨k' - 1, by omega⟩
    rw [search.eq_def] at h1 ⊢
    dsimp only at h1 ⊢
    split_ifs at h1 ⊢
    · exact h1
    · cases sbrks with
      | nil => exact h1
      | cons sbrk sbrks =>
        dsimp only at h1 ⊢
        cases hm : morecore k nunits sbrk h with
        | none =>
          rw [hm] at h1
          cases h1
        | some y =>
          rw [hm] at h1
          rw [morecore_mono hm (by omega)]
          obtain ⟨_ | q, g⟩ := y
          · exact h1
          · exact ih h1 (by omega)
    · exact ih h1 (by omega)

theorem search_here (hs : nunits ≤ h.size p) :
    search nunits (k + 1) sbrks prevp p h = some (some (take h nunits prevp p).1, sbrks, (take h nunits prevp p).2) := by
  unfold search
  exact if_pos hs

theorem search_next (hs : ¬ nunits ≤ h.size p) (hp : p ≠ h.freep) :
    search nunits (k + 1) sbrks prevp p h = search nunits k sbrks p (h.ptr p) h := by
  rw [search.eq_def]
  dsimp only
  rw [if_neg hs, if_neg hp]

/-- The loop goes along the ring to the first block that is long enough, or comes to `freep` and finds none. -/
theorem search_walk (hl : Links h.ptr prevp zs h.freep) (hz : h.freep ∉ zs) (hk : zs.length < k) :
    (∃ q r, q ∈ prevp :: zs ∧ h.ptr q = r ∧ nunits ≤ h.size r ∧
      search nunits k sbrks prevp (h.ptr prevp) h = some (some (take h nunits q r).1, sbrks, (take h nunits q r).2)) ∨
    ((∀ z ∈ h.freep :: zs, h.size z < nunits) ∧
      search nunits k sbrks prevp (h.ptr prevp) h = search nunits (k - zs.length) sbrks (lastOf prevp zs) h.freep h) := by
  induction zs generalizing prevp k with
  | nil =>
    have hp : h.ptr prevp = h.freep := hl
    by_cases hs : nunits ≤ h.size h.freep
    · obtain ⟨k, rfl⟩ : ∃ m, k = m + 1 := ⟨k - 1, by omega⟩
      refine .inl ⟨prevp, h.freep, List.mem_cons_self, hp, hs, ?_⟩
      rw [hp, search_here hs]
    · refine .inr ⟨fun z hz => ?_, by rw [hp]; rfl⟩
      rw [List.mem_singleton.mp hz]
      omega
  | cons z zs ih =>
    obtain ⟨hp, hl⟩ := hl
    obtain ⟨hne, hz⟩ := List.ne_and_not_mem_of_not_mem_cons hz
    obtain ⟨k, rfl⟩ : ∃ m, k = m + 1 := ⟨k - 1, by omega⟩
    rw [List.length_cons] at hk
    by_cases hs : nunits ≤ h.size z
    · refine .inl ⟨prevp, z, List.mem_cons_self, hp, hs, ?_⟩
      rw [hp, search_here hs]
    · have hstep : search nunits (k + 1) sbrks prevp (h.ptr prevp) h = search nunits k sbrks z (h.ptr z) h := by
        rw [hp, search_next hs hne.symm]
      rw [hstep]
      rcases ih (k := k) hl hz (by omega) with ⟨q, r, hq, h1, h2, h3⟩ | ⟨h1, h2⟩
      · exact .inl ⟨q, r, List.mem_cons_of_mem _ hq, h1, h2, h3⟩
      · refine .inr ⟨fun y hy => ?_, ?_⟩
        · rcases List.mem_cons.mp hy with rfl | hy
          · exact h1 _ List.mem_cons_self
          · rcases List.mem_cons.mp hy with rfl | hy
            · omega
            · exact h1 y (List.mem_cons_of_mem _ hy)
        · rw [h2, List.length_cons, Nat.add_sub_add_right]
          rfl

/-- There are `nunits` headers of free addresses in a row. -/
def Fits (L : List (ℕ × ℕ)) (nunits : ℕ) : Prop := ∃ a, ∀ b, In (a, HDR * nunits) b → Cov L b

theorem fits_iff (F : FreeList base h L) (hn : 0 < nunits) : Fits L nunits ↔ ∃ x ∈ L, nunits ≤ h.size x.1 := by
  have hH : 0 < HDR := by decide
  constructor
  · rintro ⟨a, ha⟩
    obtain ⟨x, hx, h1, h2⟩ := F.sorted.whole (w := (a, HDR * nunits)) (Nat.mul_pos hH hn) ha
    refine ⟨x, hx, Nat.le_of_mul_le_mul_left (c := HDR) ?_ hH⟩
    rw [← F.sizes x hx]
    dsimp only at h1 h2
    omega
  · rintro ⟨x, hx, h1⟩
    refine ⟨x.1, fun b hb => ⟨x, hx, hb.1, Nat.lt_of_lt_of_le hb.2 ?_⟩⟩
    rw [F.sizes x hx]
    exact Nat.add_le_add_left (Nat.mul_le_mul_left HDR h1) _

/-- **A block that is long enough is found.** -/
theorem search_fits (F : FreeList base h L) (hn : 0 < nunits) (hf : Fits L nunits) (hk : L.length < k) :
    ∃ r h' L', search nunits k sbrks h.freep (h.ptr h.freep) h = some (some (r + HDR), sbrks, h') ∧ Taken base h L nunits r h' L' := by
  obtain ⟨zs, hl, hz, hlen, hmem⟩ := exists_rotation F
  rcases @search_walk _ k nunits _ _ sbrks hl hz (by omega) with ⟨q, r, hq, h1, h2, h3⟩ | ⟨h1, -⟩
  · obtain ⟨r', L', h4, h5⟩ := take_spec F ((hmem q).mp hq) h1 h2 hn
    exact ⟨r', _, L', by rw [h3, h4], h5⟩
  · obtain ⟨x, hx, h2⟩ := (fits_iff F hn).mp hf
    have := h1 x.1 ((hmem x.1).mpr (List.mem_cons_of_mem _ (List.mem_map_of_mem hx)))
    omega

/-- Otherwise the loop comes to `morecore`. -/
theorem search_more (F : FreeList base h L) (hn : 0 < nunits) (hf : ¬ Fits L nunits) (hk : L.length < k) :
    ∃ prevp, search nunits k sbrks h.freep (h.ptr h.freep) h = search nunits (k - L.length) sbrks prevp h.freep h ∧
      h.size h.freep < nunits := by
  obtain ⟨zs, hl, hz, hlen, hmem⟩ := exists_rotation F
  rcases @search_walk _ k nunits _ _ sbrks hl hz (by omega) with ⟨q, r, hq, h1, h2, h3⟩ | ⟨h1, h2⟩
  · obtain ⟨r', L', h4, h5⟩ := take_spec F ((hmem q).mp hq) h1 h2 hn
    exact absurd ⟨r', h5.was_free⟩ hf
  · exact ⟨_, by rw [h2, hlen], h1 _ List.mem_cons_self⟩

/-- The memory that `sbrk` returns at `p` is not in the free list yet. -/
structure Fresh (base : ℕ) (L : List (ℕ × ℕ)) (nunits p : ℕ) : Prop where
  above : base + HDR ≤ p
  top : p + HDR * max nunits 4096 < HDR * UINT
  disjoint : ∀ b, In (p, HDR * max nunits 4096) b → ¬ Cov L b

/-- **`sbrk` gives memory.**  The block comes from a list that has it too. -/
theorem search_grow (F : FreeList base h L) (hn : 0 < nunits) (hf : ¬ Fits L nunits) (hp : Fresh base L nunits p)
    (hk : 3 * L.length + 3 < k) :
    ∃ r h' L' h1 L1, search nunits k [some p] h.freep (h.ptr h.freep) h = some (some (r + HDR), [], h') ∧
      FreeList base h1 L1 ∧ Taken base h1 L1 nunits r h' L' ∧ (∀ b, Cov L1 b ↔ Cov L b ∨ In (p, HDR * max nunits 4096) b) ∧
      ∀ a, ¬ Cov L a → a ≠ p → h1.size a = h.size a := by
  have hH : 0 < HDR := by decide
  obtain ⟨prevp, h1, h2⟩ := @search_more _ k _ _ _ [some p] F hn hf (by omega)
  obtain ⟨m, hm⟩ : ∃ m, k - L.length = m + 1 := ⟨k - L.length - 1, by omega⟩
  have hnu : 0 < max nunits 4096 := Nat.lt_of_lt_of_le hn (Nat.le_max_left _ _)
  have hself : In (p, HDR * max nunits 4096) p := ⟨Nat.le_refl _, Nat.lt_add_of_pos_right (Nat.mul_pos hH hnu)⟩
  have hpL : ¬ Cov L p := hp.disjoint p hself
  -- the header of the new block is outside the list
  have hne : ∀ a, Cov L a → a ≠ p := by
    rintro a ha rfl
    exact hpL ha
  have habove := hp.above
  generalize hh0 : ({ h with size := Function.update h.size p (max nunits 4096) } : Heap) = h0
  have hsize : h0.size p = max nunits 4096 := by rw [← hh0]; exact Function.update_self _ _ _
  have F0 : FreeList base h0 L := by
    subst hh0
    refine ⟨F.ring, fun x hx => ?_, ?_, F.freep, F.sorted, F.above, F.top⟩
    · dsimp only
      rw [Function.update_of_ne (hne _ (F.first_cov hx))]
      exact F.sizes x hx
    · dsimp only
      rw [Function.update_of_ne (by omega)]
      exact F.base_size
  obtain ⟨h3, L1, hfree, F1, hc1, hlen, hframe⟩ := @free_spec _ p m _ _ F0 habove (by rw [hsize]; exact hnu)
    (by rw [hsize]; exact hp.top) (by rw [hsize]; exact hp.disjoint) (by omega)
  rw [hsize] at hc1
  have hfit : Fits L1 nunits := by
    refine ⟨p, fun b hb => (hc1 b).mpr (.inr ⟨hb.1, Nat.lt_of_lt_of_le hb.2 ?_⟩)⟩
    exact Nat.add_le_add_left (Nat.mul_le_mul_left HDR (Nat.le_max_left _ _)) _
  obtain ⟨r, h', L', h4, h5⟩ := @search_fits _ m _ _ _ [] F1 hn hfit (by omega)
  refine ⟨r, h', L', h3, L1, ?_, F1, h5, hc1, fun a ha hap => ?_⟩
  · rw [h1, hm, search, if_neg (by omega), if_pos rfl]
    unfold morecore
    dsimp only
    rw [hh0, hfree]
    exact h4
  · rw [hframe a ha hap, ← hh0]
    exact Function.update_of_ne hap _ _

/-- **`sbrk` fails**, and so does `malloc`. -/
theorem search_fails (F : FreeList base h L) (hn : 0 < nunits) (hf : ¬ Fits L nunits) (hk : L.length < k) :
    search nunits k [none] h.freep (h.ptr h.freep) h = some (none, [], h) := by
  obtain ⟨prevp, h1, h2⟩ := @search_more _ k _ _ _ [none] F hn hf hk
  obtain ⟨m, hm⟩ : ∃ m, k - L.length = m + 1 := ⟨k - L.length - 1, by omega⟩
  rw [h1, hm, search, if_neg (by omega), if_pos rfl]
  rfl

end OsLabs.Xv6.Umalloc
