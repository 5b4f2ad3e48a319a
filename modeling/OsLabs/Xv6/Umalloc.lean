import OsLabs.CText
import OsLabs.Extents
import OsLabs.LinkedRing

/-!
# OsLabs.Xv6.Umalloc — the free list of umalloc.c

Addresses count bytes; a block has a header of `sizeof(Header)` bytes and counts its own size in headers.  The free blocks are on a ring of
links through `base`, in order of their addresses.

* `free`, `morecore`, `malloc`: the functions, with a bound on the rounds of their loops.
* `FreeList base h L`: the ring stands for the sorted list `L` of extents.
* `place_spec`: the loop of `free` ends between the neighbours of the block, wherever it starts.
* `free_spec`: `free` adds the addresses of the block, and joins what touches.
-/

namespace OsLabs.Xv6.Umalloc

open LinkedRing (Links lastOf lastOf_mem)
open Extents

/-- `sizeof(Header)` -/
def HDR : ℕ := 16

/-- How many values a `uint` has. -/
def UINT : ℕ := 2 ^ 32

/-- The headers in memory, by address, and `freep`. -/
structure Heap where
  ptr : ℕ → ℕ
  size : ℕ → ℕ
  freep : ℕ

/-- The search of `free` for the place of `bp`. -/
def place (h : Heap) (bp : ℕ) : ℕ → ℕ → Option ℕ
  | 0, _ => none
  | k + 1, p =>
    if bp > p ∧ bp < h.ptr p then some p
    else if p ≥ h.ptr p ∧ (bp > p ∨ bp < h.ptr p) then some p
    else place h bp k (h.ptr p)

/-- Join to the upper neighbour. -/
def joinUpper (h : Heap) (bp p : ℕ) : Heap :=
  if bp + HDR * h.size bp = h.ptr p then
    { h with size := Function.update h.size bp ((h.size bp + h.size (h.ptr p)) % UINT), ptr := Function.update h.ptr bp (h.ptr (h.ptr p)) }
  else { h with ptr := Function.update h.ptr bp (h.ptr p) }

/-- Join to the lower neighbour. -/
def joinLower (h : Heap) (bp p : ℕ) : Heap :=
  if p + HDR * h.size p = bp then
    { h with size := Function.update h.size p ((h.size p + h.size bp) % UINT), ptr := Function.update h.ptr p (h.ptr bp) }
  else { h with ptr := Function.update h.ptr p bp }

def free (k ap : ℕ) (h : Heap) : Option Heap :=
  let bp := ap - HDR
  (place h bp k h.freep).map fun p => { joinLower (joinUpper h bp p) bp p with freep := p }

/-- What `sbrk` gets for `nu` headers: the argument is an `int`. -/
def sbrkArg (nu : ℕ) : ℤ := CText.toInt (nu * HDR : ℕ)

/-- `morecore`, with what `sbrk` returns. -/
def morecore (k nu : ℕ) (sbrk : Option ℕ) (h : Heap) : Option (Option ℕ × Heap) :=
  match sbrk with
  | none => some (none, h)
  | some p => (free k (p + HDR) { h with size := Function.update h.size p (max nu 4096) }).map fun h => (some h.freep, h)

/-- The block `p` is used, or its end if it is longer. -/
def take (h : Heap) (nunits prevp p : ℕ) : ℕ × Heap :=
  if h.size p = nunits then (p + HDR, { h with ptr := Function.update h.ptr prevp (h.ptr p), freep := prevp })
  else
    let size := Function.update h.size p (h.size p - nunits)
    let q := p + HDR * size p
    (q + HDR, { h with size := Function.update size q nunits, freep := prevp })

/-- The search of `malloc`; `sbrks` are the results of the next calls of `sbrk`. -/
def search (nunits : ℕ) : ℕ → List (Option ℕ) → ℕ → ℕ → Heap → Option (Option ℕ × List (Option ℕ) × Heap)
  | 0, _, _, _, _ => none
  | k + 1, sbrks, prevp, p, h =>
    if h.size p ≥ nunits then some (some (take h nunits prevp p).1, sbrks, (take h nunits prevp p).2)
    else if p = h.freep then
      match sbrks with
      | [] => none
      | sbrk :: sbrks =>
        match morecore k nunits sbrk h with
        | none => none
        | some (none, h) => some (none, sbrks, h)
        | some (some p, h) => search nunits k sbrks p (h.ptr p) h
    else search nunits k sbrks p (h.ptr p) h

def units (nbytes : ℕ) : ℕ := (nbytes + HDR - 1) / HDR + 1

/-- The first call of `malloc` makes a free list of nothing. -/
def start (base : ℕ) (h : Heap) : Heap :=
  if h.freep = 0 then { ptr := Function.update h.ptr base base, size := Function.update h.size base 0, freep := base } else h

def malloc (base k nbytes : ℕ) (sbrks : List (Option ℕ)) (h : Heap) : Option (Option ℕ × List (Option ℕ) × Heap) :=
  let h := start base h
  search (units nbytes) k sbrks h.freep (h.ptr h.freep) h

/-! ## The free list -/

section FreeList

variable {base bp p k : ℕ} {h : Heap} {L xs ys : List (ℕ × ℕ)} {A us vs : List ℕ}

structure FreeList (base : ℕ) (h : Heap) (L : List (ℕ × ℕ)) : Prop where
  ring : Links h.ptr base (L.map Prod.fst) base
  sizes : ∀ x ∈ L, x.2 = HDR * h.size x.1
  base_size : h.size base = 0
  freep : h.freep ∈ base :: L.map Prod.fst
  sorted : Sorted L
  above : ∀ b, Cov L b → base + HDR ≤ b
  top : ∀ b, Cov L b → b + 1 < HDR * UINT

theorem lastOf_snoc (a x : ℕ) (xs : List ℕ) : lastOf a (xs ++ [x]) = x := by
  induction xs generalizing a with
  | nil => rfl
  | cons y xs ih => exact ih y

/-- The last node of a path in ascending order. -/
theorem lastOf_lt (hs : (base :: (us ++ vs)).Pairwise (· < ·)) : base ≤ lastOf base us ∧ ∀ v ∈ vs, lastOf base us < v := by
  obtain ⟨h1, h2⟩ := List.pairwise_cons.mp hs
  rcases List.mem_cons.mp (lastOf_mem base us) with he | hm
  · rw [he]
    exact ⟨Nat.le_refl _, fun v hv => h1 v (List.mem_append_right _ hv)⟩
  · exact ⟨Nat.le_of_lt (h1 _ (List.mem_append_left _ hm)), (List.pairwise_append.mp h2).2.2 _ hm⟩

theorem lastOf_below (hb : base < bp) (hus : ∀ u ∈ us, u < bp) : lastOf base us < bp := by
  rcases List.mem_cons.mp (lastOf_mem base us) with he | hm
  · rw [he]
    exact hb
  · exact hus _ hm

/-- Where the search ends: between the blocks below `bp` and the blocks above it. -/
def Found (base bp : ℕ) (A : List ℕ) (r : Option ℕ) : Prop :=
  ∃ xs ys, A = xs ++ ys ∧ r = some (lastOf base xs) ∧ (∀ x ∈ xs, x < bp) ∧ ∀ y ∈ ys, bp < y

/-- From below, the search goes up to the place. -/
theorem place_up (hr : Links h.ptr base (us ++ vs) base) (hs : (base :: (us ++ vs)).Pairwise (· < ·)) (hbp : bp ∉ vs) (hb : base < bp)
    (hus : ∀ u ∈ us, u < bp) (hk : vs.length < k) : Found base bp (us ++ vs) (place h bp k (lastOf base us)) := by
  induction vs generalizing us k with
  | nil =>
    cases k with
    | zero => exact absurd hk (Nat.not_lt_zero _)
    | succ k =>
      have hlt := lastOf_below hb hus
      have hle := (lastOf_lt hs).1
      rw [List.append_nil] at hr
      refine ⟨us, [], rfl, ?_, hus, List.forall_mem_nil _⟩
      rw [place, hr.last, if_neg (by omega), if_pos ⟨hle, .inl hlt⟩]
  | cons v vs ih =>
    cases k with
    | zero => exact absurd hk (Nat.not_lt_zero _)
    | succ k =>
      have hlt := lastOf_below hb hus
      have hpv := (lastOf_lt hs).2 v List.mem_cons_self
      have hnext : h.ptr (lastOf base us) = v := (Links.split.mp hr).2.1
      rw [place, hnext]
      by_cases hv : bp < v
      · rw [if_pos ⟨hlt, hv⟩]
        refine ⟨us, v :: vs, rfl, rfl, hus, fun y hy => ?_⟩
        have hvs := (List.pairwise_append.mp (List.pairwise_cons.mp hs).2).2.1
        rcases List.mem_cons.mp hy with rfl | hy
        · exact hv
        · exact Nat.lt_trans hv ((List.pairwise_cons.mp hvs).1 y hy)
      · obtain ⟨hne, hbp⟩ := List.ne_and_not_mem_of_not_mem_cons hbp
        rw [if_neg (fun hc => hv hc.2), if_neg (by omega)]
        have : Found base bp ((us ++ [v]) ++ vs) (place h bp k (lastOf base (us ++ [v]))) := ih (by simpa using hr) (by simpa using hs) hbp
          (List.forall_mem_append.mpr ⟨hus, List.forall_mem_singleton.mpr (by omega)⟩) (by simpa using hk)
        rw [lastOf_snoc] at this
        simpa using this

/-- From above, the search goes to the end of the list first. -/
theorem place_down (hr : Links h.ptr base (us ++ vs) base) (hs : (base :: (us ++ vs)).Pairwise (· < ·)) (hbp : bp ∉ us ++ vs)
    (hb : base < bp) (hp : bp < lastOf base us) (hk : vs.length + (us ++ vs).length + 1 < k) :
    Found base bp (us ++ vs) (place h bp k (lastOf base us)) := by
  induction vs generalizing us k with
  | nil =>
    obtain ⟨k, rfl⟩ : ∃ m, k = m + 1 := ⟨k - 1, by omega⟩
    have hlast : h.ptr (lastOf base us) = base := (Links.split.mp hr).2
    rw [place, hlast, if_neg (by omega), if_neg (by omega)]
    have : Found base bp ([] ++ (us ++ [])) (place h bp k (lastOf base [])) :=
      place_up hr hs hbp hb (List.forall_mem_nil _) (by rw [List.length_nil] at hk; omega)
    exact this
  | cons v vs ih =>
    obtain ⟨k, rfl⟩ : ∃ m, k = m + 1 := ⟨k - 1, by omega⟩
    have hpv := (lastOf_lt hs).2 v List.mem_cons_self
    have hnext : h.ptr (lastOf base us) = v := (Links.split.mp hr).2.1
    rw [place, hnext, if_neg (by omega), if_neg (by omega)]
    have : Found base bp ((us ++ [v]) ++ vs) (place h bp k (lastOf base (us ++ [v]))) := ih (by simpa using hr) (by simpa using hs)
      (by simpa using hbp) (by rw [lastOf_snoc]; omega)
      (by simp only [List.length_append, List.length_cons, List.length_nil] at hk ⊢; omega)
    rw [lastOf_snoc] at this
    simpa using this

theorem le_lastOf (hs : us.Pairwise (· < ·)) : ∀ u ∈ us, u ≤ lastOf base us := by
  intro u hu
  rcases List.eq_nil_or_concat us with rfl | ⟨ws, w, rfl⟩
  · cases hu
  · rw [List.concat_eq_append] at hs hu ⊢
    rw [lastOf_snoc]
    rcases List.mem_append.mp hu with hu | hu
    · exact Nat.le_of_lt ((List.pairwise_append.mp hs).2.2 u hu w (List.mem_singleton.mpr rfl))
    · exact Nat.le_of_eq (List.mem_singleton.mp hu)

/-- A node of the ring is the last one of a beginning. -/
theorem exists_cut (hp : p ∈ base :: A) : ∃ us vs, A = us ++ vs ∧ p = lastOf base us := by
  rcases List.mem_cons.mp hp with rfl | hm
  · exact ⟨[], A, rfl, rfl⟩
  · obtain ⟨us, vs, rfl⟩ := List.append_of_mem hm
    exact ⟨us ++ [p], vs, by simp, (lastOf_snoc base p us).symm⟩

/-- **The place of a block.**  The loop of `free` ends between the neighbours of `bp`, wherever on the ring it starts. -/
theorem place_spec (hr : Links h.ptr base A base) (hs : (base :: A).Pairwise (· < ·)) (hbp : bp ∉ A) (hb : base < bp)
    (hp : p ∈ base :: A) (hk : 2 * A.length + 1 < k) : Found base bp A (place h bp k p) := by
  obtain ⟨us, vs, rfl, rfl⟩ := exists_cut hp
  have hlen : vs.length ≤ (us ++ vs).length := by
    rw [List.length_append]
    exact Nat.le_add_left _ _
  rcases Nat.lt_or_ge bp (lastOf base us) with hlt | hge
  · exact place_down hr hs hbp hb hlt (by omega)
  · refine place_up hr hs (fun hm => hbp (List.mem_append_right _ hm)) hb (fun u hu => ?_) (by omega)
    have hus := (List.pairwise_append.mp (List.pairwise_cons.mp hs).2).1
    have hne : u ≠ bp := fun he => hbp (he ▸ List.mem_append_left _ hu)
    have : u ≤ lastOf base us := le_lastOf hus u hu
    omega

namespace FreeList

theorem first_cov (F : FreeList base h L) {x : ℕ × ℕ} (hx : x ∈ L) : Cov L x.1 :=
  ⟨x, hx, Nat.le_refl _, Nat.lt_add_of_pos_right (F.sorted.pos x hx)⟩

theorem base_lt (F : FreeList base h L) {x : ℕ × ℕ} (hx : x ∈ L) : base < x.1 := by
  have : base + HDR ≤ x.1 := F.above _ (F.first_cov hx)
  have : 0 < HDR := by decide
  omega

theorem end_lt (F : FreeList base h L) {x : ℕ × ℕ} (hx : x ∈ L) : x.1 + x.2 < HDR * UINT := by
  have hpos := F.sorted.pos x hx
  have := F.top (x.1 + x.2 - 1) ⟨x, hx, by omega, by omega⟩
  omega

/-- The addresses on the ring ascend. -/
theorem ascending (F : FreeList base h L) : (base :: L.map Prod.fst).Pairwise (· < ·) := by
  refine List.pairwise_cons.mpr ⟨fun a ha => ?_, List.pairwise_map.mpr (F.sorted.gap.imp fun {x y} hxy => by omega)⟩
  obtain ⟨x, hx, rfl⟩ := List.mem_map.mp ha
  exact F.base_lt hx

end FreeList

/-- What `joinUpper` leaves: the block leads to the rest of the list. -/
structure Upper (base : ℕ) (h : Heap) (bp : ℕ) (r : (ℕ × ℕ) × List (ℕ × ℕ)) (h1 : Heap) : Prop where
  links : Links h1.ptr bp (r.2.map Prod.fst) base
  size : r.1.2 = HDR * h1.size bp
  sizes : ∀ x ∈ r.2, x.2 = HDR * h.size x.1
  other_size : ∀ a, a ≠ bp → h1.size a = h.size a
  other_ptr : ∀ a, a ≠ bp → h1.ptr a = h.ptr a

theorem joinUpper_spec (hl : Links h.ptr p (ys.map Prod.fst) base) (hy : ∀ y ∈ ys, y.2 = HDR * h.size y.1) (hbp : bp ∉ ys.map Prod.fst)
    (hb : base < bp) (htop : ∀ y ∈ ys, y.1 + y.2 < HDR * UINT) :
    Upper base h bp (joinNext (bp, HDR * h.size bp) ys) (joinUpper h bp p) := by
  cases ys with
  | nil =>
    have hp : h.ptr p = base := hl
    unfold joinUpper
    rw [hp, if_neg (by omega)]
    refine ⟨Function.update_self _ _ _, rfl, List.forall_mem_nil _, fun _ _ => rfl, fun a ha => Function.update_of_ne ha _ _⟩
  | cons y ys =>
    obtain ⟨hp, hl⟩ := hl
    obtain ⟨hy0, hys⟩ := List.forall_mem_cons.mp hy
    obtain ⟨hne, hbp⟩ := List.ne_and_not_mem_of_not_mem_cons hbp
    have hp : h.ptr p = y.1 := hp
    rw [joinUpper, joinNext, hp]
    dsimp only
    by_cases ht : bp + HDR * h.size bp = y.1
    · rw [if_pos ht, if_pos ht]
      refine ⟨hl.redirect hbp, ?_, hys, fun a ha => Function.update_of_ne ha _ _, fun a ha => Function.update_of_ne ha _ _⟩
      have hlt : h.size bp + h.size y.1 < UINT := by
        have hfit := htop y List.mem_cons_self
        rw [hy0] at hfit
        refine Nat.lt_of_mul_lt_mul_left (a := HDR) ?_
        rw [Nat.mul_add]
        omega
      dsimp only
      rw [Function.update_self, Nat.mod_eq_of_lt hlt, hy0, Nat.mul_add]
    · rw [if_neg ht, if_neg ht]
      refine ⟨?_, rfl, hy, fun _ _ => rfl, fun a ha => Function.update_of_ne ha _ _⟩
      dsimp only
      rw [List.map_cons, Links, Function.update_self]
      exact ⟨rfl, hl.update fun hm => (List.mem_cons.mp hm).elim hne hbp⟩

/-- What `joinLower` leaves, behind the blocks `xs`: the block is on the ring, or the last of `xs` has grown. -/
theorem joinLower_spec {n : ℕ} {h1 : Heap} {r : (ℕ × ℕ) × List (ℕ × ℕ)} (F : FreeList base h (xs ++ ys)) (hU : Upper base h bp r h1)
    (hJ : Joined (bp, n) ys r) (hp : lastOf base (xs.map Prod.fst) = p) (hb : base + HDR ≤ bp) (htop : bp + n < HDR * UINT)
    (hpos : ∀ x ∈ xs, x.1 < bp) (hlow : ∀ x ∈ xs, x.1 + x.2 ≤ bp) (hend : r.1.1 + r.1.2 < HDR * UINT) :
    ∃ L', FreeList base { joinLower h1 bp p with freep := p } L' ∧ (∀ b, Cov L' b ↔ Cov (xs ++ ys) b ∨ In (bp, n) b) ∧
      L'.length ≤ (xs ++ ys).length + 1 ∧ ∀ a, ¬ Cov (xs ++ ys) a → a ≠ bp → (joinLower h1 bp p).size a = h.size a := by
  have hH : 0 < HDR := by decide
  have hstart : r.1.1 = bp := hJ.start
  have hsx : Sorted xs := (sorted_append.mp F.sorted).1
  have hpmem : p ∈ base :: xs.map Prod.fst := hp ▸ lastOf_mem base _
  have hpbp : p < bp := hp ▸ lastOf_below (by omega) fun u hu => by
    obtain ⟨x, hx, rfl⟩ := List.mem_map.mp hu
    exact hpos x hx
  have hsp : h1.size p = h.size p := hU.other_size p (Nat.ne_of_lt hpbp)
  have habove : ∀ y ∈ r.2, bp < y.1 := by
    intro y hy
    have := (sorted_cons.mp hJ.sorted).1 y hy
    omega
  have hpr : p ∉ r.2.map Prod.fst := by
    intro hm
    obtain ⟨y, hy, hyp⟩ := List.mem_map.mp hm
    have := habove y hy
    omega
  have hnd : (base :: xs.map Prod.fst).Nodup := by
    have := F.ascending.imp (fun {a b} hab => Nat.ne_of_lt hab)
    rw [List.map_append] at this
    exact (List.nodup_append.mp (show ((base :: xs.map Prod.fst) ++ ys.map Prod.fst).Nodup from this)).1
  -- the ring up to `p` is as before
  have hl : Links h1.ptr base (xs.map Prod.fst) (h.ptr p) := by
    have hring := F.ring
    rw [List.map_append] at hring
    obtain ⟨hl1, -⟩ := Links.split.mp hring
    rw [hp] at hl1
    refine hl1.congr fun a ha => hU.other_ptr a ?_
    rcases List.mem_cons.mp ha with rfl | ha
    · omega
    · obtain ⟨x, hx, rfl⟩ := List.mem_map.mp ha
      exact Nat.ne_of_lt (hpos x hx)
  have hnew : ∀ L' : List (ℕ × ℕ), (∀ b, Cov L' b ↔ Cov (xs ++ ys) b ∨ In (bp, n) b) →
      (∀ b, Cov L' b → base + HDR ≤ b) ∧ ∀ b, Cov L' b → b + 1 < HDR * UINT := by
    intro L' hc
    refine ⟨fun b hb' => ?_, fun b hb' => ?_⟩
    · rcases (hc b).mp hb' with h0 | h0
      · exact F.above b h0
      · exact Nat.le_trans hb h0.1
    · rcases (hc b).mp hb' with h0 | h0
      · exact F.top b h0
      · have := h0.2
        dsimp only at this
        omega
  by_cases ht : p + HDR * h1.size p = bp
  · -- the block below touches; `base`, of size 0, never does
    obtain ⟨us, w, rfl⟩ : ∃ us w, xs = us ++ [w] := by
      rcases List.eq_nil_or_concat xs with rfl | ⟨us, w, rfl⟩
      · obtain rfl : base = p := hp
        rw [hsp, F.base_size, Nat.mul_zero] at ht
        omega
      · exact ⟨us, w, List.concat_eq_append⟩
    obtain rfl : w.1 = p := by
      rw [← hp, List.map_append]
      exact (lastOf_snoc _ _ _).symm
    have hw : w.2 = HDR * h.size w.1 := F.sizes w (by simp)
    have hne : w.1 ≠ bp := Nat.ne_of_lt hpbp
    have hfit : h1.size w.1 + h1.size bp < UINT := by
      refine Nat.lt_of_mul_lt_mul_left (a := HDR) ?_
      rw [Nat.mul_add, ← hU.size]
      omega
    obtain ⟨hs', hc'⟩ := hJ.glue hsx (by rw [hw, ← hsp]; exact ht)
    obtain ⟨ha', ht'⟩ := hnew _ hc'
    have hj : joinLower h1 bp w.1 =
        { h1 with size := Function.update h1.size w.1 ((h1.size w.1 + h1.size bp) % UINT),
                  ptr := Function.update h1.ptr w.1 (h1.ptr bp) } :=
      if_pos ht
    rw [hj]
    refine ⟨us ++ (w.1, w.2 + r.1.2) :: r.2, ⟨?_, ?_, ?_, ?_, hs', ha', ht'⟩, hc', ?_, ?_⟩
    · have hring := hl.skip hnd hU.links (by rw [hp]; exact hpr)
      rw [hp] at hring
      simpa using hring
    · refine List.forall_mem_append.mpr ⟨fun x hx => ?_, List.forall_mem_cons.mpr ⟨?_, fun y hy => ?_⟩⟩
      · have hxw : x.1 + x.2 < w.1 := (sorted_append.mp hsx).2.2 x hx w List.mem_cons_self
        rw [F.sizes x (by simp [hx])]
        dsimp only
        rw [Function.update_of_ne (by omega), hU.other_size _ (Nat.ne_of_lt (hpos x (by simp [hx])))]
      · dsimp only
        rw [Function.update_self, Nat.mod_eq_of_lt hfit, Nat.mul_add, hsp, hw, hU.size]
      · have hyr := habove y hy
        rw [hU.sizes y hy]
        dsimp only
        rw [Function.update_of_ne (by omega), hU.other_size _ (by omega)]
    · dsimp only
      rw [Function.update_of_ne (Nat.ne_of_lt (F.base_lt (by simp))), hU.other_size _ (by omega), F.base_size]
    · simp
    · have := hJ.length
      simp only [List.length_append, List.length_cons, List.length_nil]
      omega
    · intro a ha hab
      have haw : a ≠ w.1 := by
        rintro rfl
        exact ha (F.first_cov (by simp))
      dsimp only
      rw [Function.update_of_ne haw, hU.other_size a hab]
  · have hgap : ∀ x ∈ xs, x.1 + x.2 < bp := by
      intro x hx
      refine Nat.lt_of_le_of_ne (hlow x hx) fun he => ?_
      rcases List.eq_nil_or_concat xs with rfl | ⟨us, w, rfl⟩
      · cases hx
      rw [List.concat_eq_append] at hx hp hsx hlow F
      have hpw : p = w.1 := by
        rw [← hp, List.map_append]
        exact lastOf_snoc _ _ _
      -- only the last of them could touch
      rcases List.mem_append.mp hx with hx | hx
      · have := (sorted_append.mp hsx).2.2 x hx w List.mem_cons_self
        have := hlow w (by simp)
        omega
      · obtain rfl := List.mem_singleton.mp hx
        rw [F.sizes x (by simp)] at he
        exact ht (by rw [hsp, hpw]; exact he)
    obtain ⟨hs', hc'⟩ := hJ.put hsx hgap
    obtain ⟨ha', ht'⟩ := hnew _ hc'
    have hj : joinLower h1 bp p = { h1 with ptr := Function.update h1.ptr p bp } := if_neg ht
    rw [hj]
    refine ⟨xs ++ r.1 :: r.2, ⟨?_, ?_, ?_, ?_, hs', ha', ht'⟩, hc', ?_, fun a _ hab => hU.other_size a hab⟩
    · rw [List.map_append, List.map_cons, hstart, ← hp]
      exact hl.hang hnd hU.links (by rw [hp]; exact fun hm => (List.mem_cons.mp hm).elim (Nat.ne_of_lt hpbp) hpr)
    · refine List.forall_mem_append.mpr ⟨fun x hx => ?_, List.forall_mem_cons.mpr ⟨?_, fun y hy => ?_⟩⟩
      · dsimp only
        rw [F.sizes x (List.mem_append_left _ hx), hU.other_size _ (Nat.ne_of_lt (hpos x hx))]
      · dsimp only
        rw [hstart, hU.size]
      · have hyr := habove y hy
        dsimp only
        rw [hU.sizes y hy, hU.other_size _ (by omega)]
    · dsimp only
      rw [hU.other_size _ (by omega), F.base_size]
    · refine (List.mem_cons.mp hpmem).elim (fun h0 => h0 ▸ List.mem_cons_self) fun hm => ?_
      rw [List.map_append]
      exact List.mem_cons_of_mem _ (List.mem_append_left _ hm)
    · have := hJ.length
      simp only [List.length_append, List.length_cons]
      omega

/-- **`free`.**  The list afterwards stands for the old addresses and those of the block. -/
theorem free_spec (F : FreeList base h L) (hb : base + HDR ≤ bp) (hn : 0 < h.size bp) (htop : bp + HDR * h.size bp < HDR * UINT)
    (hdis : ∀ b, In (bp, HDR * h.size bp) b → ¬ Cov L b) (hk : 2 * L.length + 1 < k) :
    ∃ h' L', free k (bp + HDR) h = some h' ∧ FreeList base h' L' ∧ (∀ b, Cov L' b ↔ Cov L b ∨ In (bp, HDR * h.size bp) b) ∧
      L'.length ≤ L.length + 1 ∧ ∀ a, ¬ Cov L a → a ≠ bp → h'.size a = h.size a := by
  have hH : 0 < HDR := by decide
  have hlen : 0 < HDR * h.size bp := Nat.mul_pos hH hn
  have hself : In (bp, HDR * h.size bp) bp := ⟨Nat.le_refl _, Nat.lt_add_of_pos_right hlen⟩
  have hbpL : bp ∉ L.map Prod.fst := by
    intro hm
    obtain ⟨x, hx, rfl⟩ := List.mem_map.mp hm
    exact hdis _ hself (F.first_cov hx)
  obtain ⟨us, vs, hA, hplace, hus, hvs⟩ := place_spec F.ring F.ascending hbpL (by omega) F.freep (by rwa [List.length_map])
  obtain ⟨xs, ys, rfl, rfl, rfl⟩ := List.map_eq_append_iff.mp hA
  generalize hp : lastOf base (xs.map Prod.fst) = p at hplace
  -- the block lies between the two parts of the list
  have hlow : ∀ x ∈ xs, x.1 + x.2 ≤ bp := by
    intro x hx
    refine Nat.le_of_not_lt fun hlt => hdis _ hself ⟨x, List.mem_append_left _ hx, ?_, hlt⟩
    exact Nat.le_of_lt (hus _ (List.mem_map_of_mem hx))
  have hhigh : ∀ y ∈ ys, bp + HDR * h.size bp ≤ y.1 := by
    intro y hy
    refine Nat.le_of_not_lt fun hlt => hdis y.1 ⟨?_, hlt⟩ (F.first_cov (List.mem_append_right _ hy))
    exact Nat.le_of_lt (hvs _ (List.mem_map_of_mem hy))
  have hJ : Joined (bp, HDR * h.size bp) ys (joinNext (bp, HDR * h.size bp) ys) :=
    joinNext_spec (sorted_append.mp F.sorted).2.1 hlen hhigh
  have hring := F.ring
  rw [List.map_append] at hring
  have hl2 := (Links.split.mp hring).2
  rw [hp] at hl2
  rw [List.map_append, List.mem_append, not_or] at hbpL
  have hU : Upper base h bp (joinNext (bp, HDR * h.size bp) ys) (joinUpper h bp p) :=
    joinUpper_spec hl2 (fun y hy => F.sizes y (List.mem_append_right _ hy)) hbpL.2 (by omega)
      fun y hy => F.end_lt (List.mem_append_right _ hy)
  have hend : (joinNext (bp, HDR * h.size bp) ys).1.1 + (joinNext (bp, HDR * h.size bp) ys).1.2 < HDR * UINT := by
    generalize joinNext (bp, HDR * h.size bp) ys = r at hJ
    have hpos := hJ.pos
    rcases (hJ.cov (r.1.1 + r.1.2 - 1)).mp (cov_cons.mpr (.inl ⟨by omega, by omega⟩)) with h0 | h0
    · have : r.1.1 + r.1.2 - 1 < bp + HDR * h.size bp := h0.2
      omega
    · have := F.top _ (cov_append.mpr (.inr h0))
      omega
  obtain ⟨L', F', hc, hf⟩ := joinLower_spec F hU hJ hp hb htop (fun x hx => hus _ (List.mem_map_of_mem hx)) hlow hend
  refine ⟨_, L', ?_, F', hc, hf⟩
  unfold free
  dsimp only
  rw [Nat.add_sub_cancel, hplace]
  rfl

end FreeList

end OsLabs.Xv6.Umalloc
