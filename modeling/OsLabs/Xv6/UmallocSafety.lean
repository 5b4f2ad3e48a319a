import OsLabs.Lts
import OsLabs.Xv6.UmallocSearch

/-!
# OsLabs.Xv6.UmallocSafety — a program that uses `malloc` and `free` (umalloc.c)

The program frees what it has got from `malloc`, once, and writes into its own blocks, whatever it likes.  `sbrk` succeeds or fails at
will; it returns memory above all that it has returned before, since other calls of it only add memory in between.

* `heap_partition`: every byte that came from `sbrk` is free or in one block, and the free list is what it has to be.
* `malloc_block`: what `malloc` returns, and exactly when it returns 0.
* `loops_end`: `malloc` and `free` return.
* `heap_rejoined`: once everything has been freed the memory is in one piece again.
-/

namespace OsLabs.Xv6.Umalloc

open Lts (Run)
open LinkedRing (Links)
open Extents

/-- The heap; the blocks that the program has, with their headers; and the memory that `sbrk` has returned. -/
structure Sys where
  heap : Heap
  live : List (ℕ × ℕ)
  arena : List (ℕ × ℕ)

inductive Act
  /-- `malloc(nbytes)`, and what `sbrk` returns if it is called. -/
  | malloc (nbytes : ℕ) (sbrk : Option ℕ)
  | free (ap : ℕ)
  /-- The program writes into the block `x`, behind its header: what a header would be anywhere there changes. -/
  | write (x : ℕ × ℕ) (ptr size : ℕ → ℕ)

/-- The bytes that `sbrk` adds for `nunits` headers. -/
def grown (nunits : ℕ) : ℕ := (sbrkArg (max nunits 4096)).toNat

def scribble (h : Heap) (x : ℕ × ℕ) (ptr size : ℕ → ℕ) : Heap :=
  { h with ptr := fun a => if x.1 < a ∧ a < x.1 + x.2 then ptr a else h.ptr a,
           size := fun a => if x.1 < a ∧ a < x.1 + x.2 then size a else h.size a }

def step (base k : ℕ) (s : Sys) : Act → Option (Option ℕ × Sys)
  | .malloc nbytes sbrk =>
    match malloc base k nbytes [sbrk] s.heap with
    | none => none
    | some (ret, sbrks, heap) =>
      let arena := match sbrks, sbrk with
        | [], some p => (p, grown (units nbytes)) :: s.arena
        | _, _ => s.arena
      match ret with
      | none => some (none, { s with heap, arena })
      | some ap => some (some ap, { heap, live := (ap - HDR, HDR * units nbytes) :: s.live, arena })
  | .free ap => (free k ap s.heap).map fun heap => (none, { s with heap, live := s.live.filter fun x => x.1 ≠ ap - HDR })
  | .write x ptr size => some (none, { s with heap := scribble s.heap x ptr size })

def Step (base : ℕ) (s : Sys) (a : Act) (o : Option ℕ) (t : Sys) : Prop := ∃ k, step base k s a = some (o, t)

/-- A program that uses the heap as it should, and asks for less than 2 GiB at once: `sbrk` takes an `int`. -/
def Client (base : ℕ) (s : Sys) : Act → Prop
  | .malloc nbytes sbrk => HDR * max (units nbytes) 4096 < 2 ^ 31 ∧ ∀ p ∈ sbrk, base + HDR ≤ p ∧
      p + HDR * max (units nbytes) 4096 < HDR * UINT ∧ ∀ x ∈ s.arena, x.1 + x.2 ≤ p
  | .free ap => ∃ x ∈ s.live, ap = x.1 + HDR
  | .write x _ _ => x ∈ s.live

instance clientDecidable (base : ℕ) : ∀ s a, Decidable (Client base s a)
  | s, .malloc _ sbrk => inferInstanceAs (Decidable (_ ∧ ∀ p ∈ sbrk, _ ∧ _ ∧ ∀ x ∈ s.arena, _))
  | s, .free ap => inferInstanceAs (Decidable (∃ x ∈ s.live, ap = x.1 + HDR))
  | s, .write x _ _ => inferInstanceAs (Decidable (x ∈ s.live))

def init (ptr size : ℕ → ℕ) : Sys := ⟨⟨ptr, size, 0⟩, [], []⟩

variable {base k p nunits nbytes : ℕ} {s t : Sys} {L : List (ℕ × ℕ)} {a : Act} {o : Option ℕ} {x : ℕ × ℕ}

/-- The free list `L`, the blocks and the memory from `sbrk` fit together. -/
structure Parts (base : ℕ) (h : Heap) (L live arena : List (ℕ × ℕ)) : Prop where
  list : FreeList base h L
  sizes : ∀ x ∈ live, x.2 = HDR * h.size x.1 ∧ 0 < x.2
  apart : live.Pairwise Apart
  disjoint : ∀ b, Cov L b → ¬ Cov live b
  all : ∀ b, Cov L b ∨ Cov live b ↔ Cov arena b
  bounds : ∀ b, Cov arena b → base + HDR ≤ b ∧ b + 1 < HDR * UINT

/-- The invariant. -/
structure Inv (base : ℕ) (s : Sys) (L : List (ℕ × ℕ)) : Prop where
  parts : Parts base (start base s.heap) L s.live s.arena
  ready : s.heap.freep = 0 → s.live = []

theorem grown_eq (h : HDR * max nunits 4096 < 2 ^ 31) : grown nunits = HDR * max nunits 4096 := by
  unfold grown sbrkArg
  rw [CText.toInt_of_isInt]
  · rw [Int.toNat_natCast, Nat.mul_comm]
  · unfold CText.IsInt
    rw [Nat.mul_comm] at h
    omega

theorem start_of_ready {h : Heap} (hr : h.freep ≠ 0) : start base h = h := if_neg hr

theorem inv_init (ptr size : ℕ → ℕ) : Inv base (init ptr size) [] := by
  refine ⟨⟨⟨?_, List.forall_mem_nil _, ?_, List.mem_cons_self, sorted_nil, fun b hc => absurd hc cov_nil, fun b hc => absurd hc cov_nil⟩,
    List.forall_mem_nil _, .nil, fun b hc => absurd hc cov_nil, fun b => ?_, fun b hc => absurd hc cov_nil⟩, fun _ => rfl⟩
  · exact Function.update_self _ _ _
  · exact Function.update_self _ _ _
  · exact ⟨fun h => h.elim id id, .inl⟩

theorem units_pos : 0 < units nbytes := Nat.succ_pos _

namespace Parts

variable {h h' : Heap} {L' live arena : List (ℕ × ℕ)} {r : ℕ}

theorem live_cov (P : Parts base h L live arena) (hx : x ∈ live) : Cov live x.1 :=
  ⟨x, hx, Nat.le_refl _, Nat.lt_add_of_pos_right (P.sizes x hx).2⟩

theorem live_not_free (P : Parts base h L live arena) (hx : x ∈ live) : ¬ Cov L x.1 := fun hc => P.disjoint _ hc (P.live_cov hx)

theorem live_above (P : Parts base h L live arena) (hx : x ∈ live) : base + HDR ≤ x.1 :=
  (P.bounds _ ((P.all _).mp (.inr (P.live_cov hx)))).1

/-- A block goes from the free list to the program. -/
theorem take (P : Parts base h L live arena) (T : Taken base h L nunits r h' L') (hn : 0 < nunits) :
    Parts base h' L' ((r, HDR * nunits) :: live) arena := by
  have hpos : 0 < HDR * nunits := Nat.mul_pos (by decide) hn
  refine ⟨T.list, List.forall_mem_cons.mpr ⟨⟨by rw [T.size], hpos⟩, fun x hx => ?_⟩,
    List.pairwise_cons.mpr ⟨fun x hx b h1 h2 => ?_, P.apart⟩, fun b hb => ?_, fun b => ?_, P.bounds⟩
  · rw [T.frame _ (P.live_not_free hx)]
    exact P.sizes x hx
  · exact P.disjoint b (T.was_free b h1) ⟨x, hx, h2⟩
  · obtain ⟨h1, h2⟩ := (T.cov b).mp hb
    rw [cov_cons, not_or]
    exact ⟨h2, P.disjoint b h1⟩
  · rw [← P.all, cov_cons, T.cov]
    have := T.was_free b
    tauto

/-- `sbrk` adds memory. -/
theorem grow (P : Parts base h L live arena) (F : FreeList base h' L') (hp : Fresh base L nunits p)
    (hnew : ∀ b, In (p, HDR * max nunits 4096) b → ¬ Cov arena b) (hc : ∀ b, Cov L' b ↔ Cov L b ∨ In (p, HDR * max nunits 4096) b)
    (hf : ∀ a, ¬ Cov L a → a ≠ p → h'.size a = h.size a) : Parts base h' L' live ((p, HDR * max nunits 4096) :: arena) := by
  have hnu : 0 < HDR * max nunits 4096 := Nat.mul_pos (by decide) (Nat.lt_of_lt_of_le (by decide) (Nat.le_max_right _ _))
  refine ⟨F, fun x hx => ?_, P.apart, fun b hb => ?_, fun b => ?_, fun b hb => ?_⟩
  · have hxp : x.1 ≠ p := by
      rintro rfl
      have hlive := (P.all x.1).mp (.inr ⟨x, hx, Nat.le_refl _, Nat.lt_add_of_pos_right (P.sizes x hx).2⟩)
      exact hnew _ ⟨Nat.le_refl _, Nat.lt_add_of_pos_right hnu⟩ hlive
    rw [hf _ (P.live_not_free hx) hxp]
    exact P.sizes x hx
  · rcases (hc b).mp hb with h0 | h0
    · exact P.disjoint b h0
    · exact fun h1 => hnew b h0 ((P.all b).mp (.inr h1))
  · rw [cov_cons, ← P.all, hc]
    tauto
  · rcases cov_cons.mp hb with h0 | h0
    · have h1 := h0.1
      have h2 := h0.2
      have h3 := hp.above
      have h4 := hp.top
      dsimp only at h1 h2
      exact ⟨by omega, by omega⟩
    · exact P.bounds b h0

/-- A block goes back to the free list. -/
theorem free (P : Parts base h L live arena) (hx : x ∈ live) (F : FreeList base h' L') (hc : ∀ b, Cov L' b ↔ Cov L b ∨ In x b)
    (hf : ∀ a, ¬ Cov L a → a ≠ x.1 → h'.size a = h.size a) : Parts base h' L' (live.filter fun y => y.1 ≠ x.1) arena := by
  have hcov : ∀ b, Cov (live.filter fun y => y.1 ≠ x.1) b ↔ Cov live b ∧ ¬ In x b := fun b =>
    cov_filter P.apart (fun y hy => (P.sizes y hy).2) hx
  refine ⟨F, fun y hy => ?_, P.apart.filter _, fun b hb => ?_, fun b => ?_, P.bounds⟩
  · obtain ⟨hy, hne⟩ := List.mem_filter.mp hy
    rw [hf _ (P.live_not_free hy) (of_decide_eq_true hne)]
    exact P.sizes y hy
  · rw [hcov]
    rcases (hc b).mp hb with h0 | h0
    · exact fun h1 => P.disjoint b h0 h1.1
    · exact fun h1 => h1.2 h0
  · rw [← P.all, hc, hcov]
    have : In x b → Cov live b := fun h0 => ⟨x, hx, h0⟩
    tauto

/-- The program writes into a block. -/
theorem scribble (P : Parts base h L live arena) (hx : x ∈ live) (ptr size : ℕ → ℕ) :
    Parts base (scribble h x ptr size) L live arena := by
  have hin : ∀ a, x.1 < a ∧ a < x.1 + x.2 → Cov live a := fun a ha => ⟨x, hx, Nat.le_of_lt ha.1, ha.2⟩
  have hbase : ¬(x.1 < base ∧ base < x.1 + x.2) := fun h0 => by
    have := P.live_above hx
    omega
  have hfree : ∀ y ∈ L, ¬(x.1 < y.1 ∧ y.1 < x.1 + x.2) := fun y hy h0 => P.disjoint _ (P.list.first_cov hy) (hin _ h0)
  refine ⟨⟨P.list.ring.congr fun a ha => if_neg ?_, fun y hy => ?_, (if_neg hbase).trans P.list.base_size, P.list.freep, P.list.sorted,
    P.list.above, P.list.top⟩, fun y hy => ?_, P.apart, P.disjoint, P.all, P.bounds⟩
  · rcases List.mem_cons.mp ha with rfl | ha
    · exact hbase
    · obtain ⟨y, hy, rfl⟩ := List.mem_map.mp ha
      exact hfree y hy
  · rw [P.list.sizes y hy]
    exact congrArg (HDR * ·) (if_neg (hfree y hy)).symm
  · have hy0 : ¬(x.1 < y.1 ∧ y.1 < x.1 + x.2) := by
      intro h0
      have hne : x ≠ y := by
        rintro rfl
        exact Nat.lt_irrefl _ h0.1
      exact P.apart.forall hx hy hne y.1 ⟨Nat.le_of_lt h0.1, h0.2⟩ ⟨Nat.le_refl _, Nat.lt_add_of_pos_right (P.sizes y hy).2⟩
    have hsz : (Umalloc.scribble h x ptr size).size y.1 = h.size y.1 := if_neg hy0
    rw [hsz]
    exact P.sizes y hy

end Parts

/-! ## Steps -/

/-- A heap with a free list has been started. -/
theorem start_list {h : Heap} (hb : base ≠ 0) (F : FreeList base h L) : start base h = h := by
  refine start_of_ready fun h0 => ?_
  rcases List.mem_cons.mp F.freep with he | hm
  · exact hb (he.symm.trans h0)
  · obtain ⟨x, hx, he⟩ := List.mem_map.mp hm
    have := F.base_lt hx
    omega

/-- What a call of `malloc` comes to. -/
inductive Outcome (base : ℕ) (s : Sys) (L : List (ℕ × ℕ)) (nunits : ℕ) (sbrk : Option ℕ) : Option ℕ → List (Option ℕ) → Heap → Prop
  | found (r : ℕ) (h' : Heap) (L' : List (ℕ × ℕ)) (hf : Fits L nunits) (P : Parts base h' L' ((r, HDR * nunits) :: s.live) s.arena) :
      Outcome base s L nunits sbrk (some (r + HDR)) [sbrk] h'
  | grown (p r : ℕ) (h' : Heap) (L' : List (ℕ × ℕ)) (hf : ¬ Fits L nunits) (hs : sbrk = some p)
      (P : Parts base h' L' ((r, HDR * nunits) :: s.live) ((p, grown nunits) :: s.arena)) :
      Outcome base s L nunits sbrk (some (r + HDR)) [] h'
  | failed (hf : ¬ Fits L nunits) (hs : sbrk = none) : Outcome base s L nunits sbrk none [] (start base s.heap)

theorem malloc_outcome {sbrk : Option ℕ} (I : Inv base s L) (hok : Client base s (.malloc nbytes sbrk)) :
    ∃ k ret sbrks h', malloc base k nbytes [sbrk] s.heap = some (ret, sbrks, h') ∧ Outcome base s L (units nbytes) sbrk ret sbrks h' := by
  obtain ⟨hlt, hsb⟩ := hok
  have F := I.parts.list
  have hn : 0 < units nbytes := units_pos
  refine ⟨3 * L.length + 4, ?_⟩
  by_cases hf : Fits L (units nbytes)
  · obtain ⟨r, h', L', h1, T⟩ := @search_fits _ (3 * L.length + 4) _ _ _ [sbrk] F hn hf (by omega)
    exact ⟨_, _, _, h1, .found r h' L' hf (I.parts.take T hn)⟩
  · cases hs : sbrk with
    | none => exact ⟨_, _, _, search_fails F hn hf (by omega), .failed hf rfl⟩
    | some p =>
      obtain ⟨h1, h2, h3⟩ := hsb p hs
      have hnew : ∀ b, In (p, HDR * max (units nbytes) 4096) b → ¬ Cov s.arena b := by
        rintro b hb ⟨y, hy, -, hyb⟩
        have h4 := h3 y hy
        have h5 := hb.1
        dsimp only at h5
        omega
      have hp : Fresh base L (units nbytes) p := ⟨h1, h2, fun b hb hc => hnew b hb ((I.parts.all b).mp (.inl hc))⟩
      obtain ⟨r, h', L', g, L1, h4, F1, T, hc, hfr⟩ := search_grow F hn hf hp (k := 3 * L.length + 4) (by omega)
      refine ⟨_, _, _, h4, .grown p r h' L' hf rfl ?_⟩
      rw [grown_eq hlt]
      exact (I.parts.grow F1 hp hnew hc hfr).take T hn

/-- A call of `malloc` has one outcome. -/
theorem malloc_det {k' : ℕ} {sbrks : List (Option ℕ)} {h : Heap} {x y : Option ℕ × List (Option ℕ) × Heap}
    (hx : malloc base k nbytes sbrks h = some x) (hy : malloc base k' nbytes sbrks h = some y) : x = y := by
  have h1 := search_mono hx (Nat.le_max_left k k')
  have h2 := search_mono hy (Nat.le_max_right k k')
  exact Option.some.inj (h1.symm.trans h2)

/-- What a `malloc` step does. -/
theorem step_malloc {sbrk : Option ℕ} (hb : base ≠ 0) (I : Inv base s L) (hok : Client base s (.malloc nbytes sbrk))
    (hst : Step base s (.malloc nbytes sbrk) o t) :
    (Fits L (units nbytes) ∧ ∃ r L', o = some (r + HDR) ∧ t.live = (r, HDR * units nbytes) :: s.live ∧ t.arena = s.arena ∧ Inv base t L') ∨
    (¬ Fits L (units nbytes) ∧ ∃ p r L', sbrk = some p ∧ o = some (r + HDR) ∧ t.live = (r, HDR * units nbytes) :: s.live ∧
      t.arena = (p, grown (units nbytes)) :: s.arena ∧ Inv base t L') ∨
    (¬ Fits L (units nbytes) ∧ sbrk = none ∧ o = none ∧ t.live = s.live ∧ t.arena = s.arena ∧ Inv base t L) := by
  obtain ⟨k, hst⟩ := hst
  obtain ⟨k', ret, sbrks, h', hm, hout⟩ := malloc_outcome I hok
  have hinv : ∀ {h' : Heap} {L' live arena}, Parts base h' L' live arena → Inv base ⟨h', live, arena⟩ L' := by
    intro h' L' live arena P
    have hs := start_list hb P.list
    refine ⟨by rw [hs]; exact P, fun h0 => ?_⟩
    have : (start base h').freep = base := by
      unfold start
      rw [if_pos h0]
    rw [hs] at this
    exact absurd (this.symm.trans h0) hb
  rw [step] at hst
  cases hx : malloc base k nbytes [sbrk] s.heap with
  | none =>
    rw [hx] at hst
    cases hst
  | some x =>
    obtain rfl := malloc_det hx hm
    rw [hx] at hst
    cases hout with
    | found r h' L' hf P =>
      obtain ⟨rfl, rfl⟩ := Prod.mk.inj (Option.some.inj hst)
      refine .inl ⟨hf, r, L', rfl, ?_, rfl, ?_⟩
      · rw [Nat.add_sub_cancel]
      · rw [Nat.add_sub_cancel]
        exact hinv P
    | grown p r h' L' hf hs P =>
      subst hs
      obtain ⟨rfl, rfl⟩ := Prod.mk.inj (Option.some.inj hst)
      refine .inr (.inl ⟨hf, p, r, L', rfl, rfl, ?_, rfl, ?_⟩)
      · rw [Nat.add_sub_cancel]
      · rw [Nat.add_sub_cancel]
        exact hinv P
    | failed hf hs =>
      subst hs
      obtain ⟨rfl, rfl⟩ := Prod.mk.inj (Option.some.inj hst)
      exact .inr (.inr ⟨hf, rfl, rfl, rfl, rfl, hinv I.parts⟩)

/-- `free` of a block that the program has. -/
theorem free_block (hb : base ≠ 0) (I : Inv base s L) (hx : x ∈ s.live) :
    ∃ k h' L', free k (x.1 + HDR) s.heap = some h' ∧ Inv base ⟨h', s.live.filter fun y => y.1 ≠ x.1, s.arena⟩ L' := by
  have hready : start base s.heap = s.heap := start_of_ready fun h0 => by
    rw [I.ready h0] at hx
    cases hx
  have P := I.parts
  rw [hready] at P
  obtain ⟨hsz, hpos⟩ := P.sizes x hx
  have hxe : (x.1, HDR * s.heap.size x.1) = x := Prod.ext rfl hsz.symm
  have hlast := P.bounds (x.1 + x.2 - 1) ((P.all _).mp (.inr ⟨x, hx, by omega, by omega⟩))
  obtain ⟨h', L', h1, F, hc, -, hf⟩ := @free_spec _ x.1 (2 * L.length + 2) _ _ P.list (P.live_above hx)
    (Nat.pos_of_mul_pos_left (hsz ▸ hpos)) (by omega) (fun b hin hc => P.disjoint b hc ⟨x, hx, hxe ▸ hin⟩) (by omega)
  rw [hxe] at hc
  have P' := P.free hx F hc hf
  refine ⟨_, h', L', h1, ⟨by rw [start_list hb F]; exact P', fun h0 => ?_⟩⟩
  have := start_list hb F
  unfold start at this
  rw [if_pos h0] at this
  exact absurd ((congrArg Heap.freep this).trans h0) hb

/-- **Every step of the program keeps the invariant.** -/
theorem step_inv (hb : base ≠ 0) (I : Inv base s L) (hok : Client base s a) (hst : Step base s a o t) : ∃ L', Inv base t L' := by
  cases a with
  | malloc nbytes sbrk =>
    rcases step_malloc hb I hok hst with ⟨-, r, L', -, -, -, I'⟩ | ⟨-, p, r, L', -, -, -, -, I'⟩ | ⟨-, -, -, -, -, I'⟩
    · exact ⟨L', I'⟩
    · exact ⟨L', I'⟩
    · exact ⟨L, I'⟩
  | free ap =>
    obtain ⟨x, hx, rfl⟩ := hok
    obtain ⟨k, hst⟩ := hst
    obtain ⟨k', h', L', h1, I'⟩ := free_block hb I hx
    rw [step] at hst
    obtain ⟨h2, h3, h4⟩ := Option.map_eq_some_iff.mp hst
    obtain ⟨rfl, rfl⟩ := Prod.mk.inj h4
    obtain rfl : h' = h2 := Option.some.inj ((free_mono h1 (Nat.le_max_left k' k)).symm.trans (free_mono h3 (Nat.le_max_right k' k)))
    rw [Nat.add_sub_cancel]
    exact ⟨L', I'⟩
  | write x ptr size =>
    obtain ⟨k, hst⟩ := hst
    obtain ⟨rfl, rfl⟩ := Prod.mk.inj (Option.some.inj hst)
    have hne : s.heap.freep ≠ 0 := fun h0 => by
      have hx : x ∈ s.live := hok
      rw [I.ready h0] at hx
      cases hx
    have P := I.parts
    rw [start_of_ready hne] at P
    refine ⟨L, ?_, fun h0 => absurd h0 hne⟩
    have hs : start base (scribble s.heap x ptr size) = scribble s.heap x ptr size := start_of_ready hne
    dsimp only
    rw [hs]
    exact P.scribble hok ptr size

/-! ## Runs -/

variable {tr : List (Lts.Ev Sys Act (Option ℕ))} {ptr size : ℕ → ℕ}

theorem run_inv (hb : base ≠ 0) (hr : Run (Step base) (Client base) (init ptr size) tr s) : ∃ L, Inv base s L := by
  refine hr.inv (I := fun s => ∃ L, Inv base s L) ⟨[], inv_init ptr size⟩ ?_
  rintro x a o y ⟨L, I⟩ hok hst
  exact step_inv hb I hok hst

/-- A run that a computation finds. -/
theorem exists_run (as : List Act) {P : List (Lts.Ev Sys Act (Option ℕ)) → Sys → Prop} [∀ tr t, Decidable (P tr t)]
    (h : (Lts.execute (step 4096 40) (Client 4096) (init (fun _ => 0) fun _ => 0) as).any (fun x => decide (P x.1 x.2)) = true) :
    ∃ tr t, Run (Step 4096) (Client 4096) (init (fun _ => 0) fun _ => 0) tr t ∧ P tr t :=
  Lts.exists_run_of_execute (fun _ _ _ _ h => ⟨40, h⟩) h

/-- Two blocks of the first memory from `sbrk`; the lower one is still there. -/
def twoActs : List Act := [.malloc 100 (some 8192), .malloc 50 none, .write (73600, 128) (fun _ => 7) (fun _ => 7), .free 73616]

theorem exists_two_run : ∃ tr t, Run (Step 4096) (Client 4096) (init (fun _ => 0) fun _ => 0) tr t ∧ t.live = [(73520, 80)] :=
  exists_run twoActs (by decide +kernel)

/-- **The heap.**  After any run the bytes that came from `sbrk` are the free ones and those in the blocks of the program, none of them
twice; the headers of the blocks are as `malloc` wrote them, whatever the program has written; and the ring of free blocks is in order,
with a gap between any two. -/
theorem heap_partition (hb : base ≠ 0) (hr : Run (Step base) (Client base) (init ptr size) tr s) :
    ∃ L, Parts base (start base s.heap) L s.live s.arena := by
  obtain ⟨L, I⟩ := run_inv hb hr
  exact ⟨L, I.parts⟩

theorem heap_partition_two : ∃ tr t L, Run (Step 4096) (Client 4096) (init (fun _ => 0) fun _ => 0) tr t ∧ t.live = [(73520, 80)] ∧
    Parts 4096 (start 4096 t.heap) L t.live t.arena := by
  obtain ⟨tr, t, hr, h⟩ := exists_two_run
  obtain ⟨L, P⟩ := heap_partition (by decide) hr
  exact ⟨tr, t, L, hr, h, P⟩

theorem nbytes_le : nbytes + HDR ≤ HDR * units nbytes := by
  unfold units HDR
  omega

theorem free_iff (I : Inv base s L) (b : ℕ) : Cov L b ↔ Cov s.arena b ∧ ¬ Cov s.live b := by
  have h1 := I.parts.all b
  have h2 := I.parts.disjoint b
  tauto

/-- **`malloc`.**  What it returns is memory from `sbrk` that no block of the program has; and it returns 0 exactly if `sbrk` fails and
there are not enough free bytes in a row. -/
theorem malloc_block {sbrk : Option ℕ} (hb : base ≠ 0) (hr : Run (Step base) (Client base) (init ptr size) tr s)
    (hok : Client base s (.malloc nbytes sbrk)) (hst : Step base s (.malloc nbytes sbrk) o t) :
    (∀ ap, o = some ap → ∀ b, ap ≤ b → b < ap + nbytes → Cov t.arena b ∧ ¬ Cov s.live b) ∧
    (o = none ↔ sbrk = none ∧ ¬ ∃ a, ∀ b, In (a, HDR * units nbytes) b → Cov s.arena b ∧ ¬ Cov s.live b) := by
  obtain ⟨L, I⟩ := run_inv hb hr
  have hfits : Fits L (units nbytes) ↔ ∃ a, ∀ b, In (a, HDR * units nbytes) b → Cov s.arena b ∧ ¬ Cov s.live b :=
    exists_congr fun a => forall_congr' fun b => by rw [free_iff I]
  -- a block that has been handed out
  have hblock : ∀ {r L'}, t.live = (r, HDR * units nbytes) :: s.live → Inv base t L' → ∀ ap, some (r + HDR) = some ap → ∀ b, ap ≤ b →
      b < ap + nbytes → Cov t.arena b ∧ ¬ Cov s.live b := by
    rintro r L' hl I' ap hap b h1 h2
    have hap := Option.some.inj hap
    have hle : nbytes + HDR ≤ HDR * units nbytes := nbytes_le
    have hin : In (r, HDR * units nbytes) b := ⟨by dsimp only; omega, by dsimp only; omega⟩
    have ha := I'.parts.apart
    rw [hl] at ha
    refine ⟨(I'.parts.all b).mp (.inr (hl ▸ cov_cons.mpr (.inl hin))), ?_⟩
    rintro ⟨y, hy, hyb⟩
    exact (List.pairwise_cons.mp ha).1 y hy b hin hyb
  rw [← hfits]
  rcases step_malloc hb I hok hst with ⟨hf, r, L', rfl, hl, -, I'⟩ | ⟨hf, p, r, L', rfl, rfl, hl, -, I'⟩ | ⟨hf, rfl, rfl, -, -, -⟩
  · exact ⟨hblock hl I', iff_of_false (Option.some_ne_none _) fun h => h.2 hf⟩
  · exact ⟨hblock hl I', iff_of_false (Option.some_ne_none _) fun h => Option.some_ne_none _ h.1⟩
  · exact ⟨fun ap h => (Option.some_ne_none _ h.symm).elim, iff_of_true rfl ⟨rfl, hf⟩⟩

theorem exists_malloc_run : ∃ tr t, Run (Step 4096) (Client 4096) (init (fun _ => 0) fun _ => 0) tr t ∧
    (Client 4096 t (.malloc 50 none) ∧ ((step 4096 40 t (.malloc 50 none)).map fun x => x.1) = some (some 73536)) :=
  exists_run [.malloc 100 (some 8192)] (by decide +kernel)

theorem malloc_block_fifty : ∃ tr, ∃ s t : Sys, Run (Step 4096) (Client 4096) (init (fun _ => 0) fun _ => 0) tr s ∧
    Step 4096 s (.malloc 50 none) (some 73536) t ∧ ∀ b, 73536 ≤ b → b < 73536 + 50 → Cov t.arena b ∧ ¬ Cov s.live b := by
  obtain ⟨tr, s, hr, h1, h2⟩ := exists_malloc_run
  obtain ⟨⟨o, t⟩, hst, ho⟩ := Option.map_eq_some_iff.mp h2
  obtain rfl : o = some 73536 := ho
  exact ⟨tr, s, t, hr, ⟨40, hst⟩, (malloc_block (by decide) hr h1 ⟨40, hst⟩).1 _ rfl⟩

/-- **The loops end.**  `malloc` and `free` return, in every state of every run. -/
theorem loops_end (hb : base ≠ 0) (hr : Run (Step base) (Client base) (init ptr size) tr s) (hok : Client base s a) :
    ∃ o t, Step base s a o t := by
  obtain ⟨L, I⟩ := run_inv hb hr
  cases a with
  | malloc nbytes sbrk =>
    obtain ⟨k, ret, sbrks, h', hm, -⟩ := malloc_outcome I hok
    have hsome : (step base k s (.malloc nbytes sbrk)).isSome := by
      rw [step, hm]
      cases ret with
      | none => rfl
      | some ap => rfl
    obtain ⟨x, hx⟩ := Option.isSome_iff_exists.mp hsome
    exact ⟨x.1, x.2, k, hx⟩
  | free ap =>
    obtain ⟨x, hx, rfl⟩ := hok
    obtain ⟨k, h', L', h1, -⟩ := free_block hb I hx
    have hst : step base k s (.free (x.1 + HDR)) =
        some (none, { s with heap := h', live := s.live.filter fun y => y.1 ≠ x.1 + HDR - HDR }) := by
      rw [step, h1]
      rfl
    exact ⟨_, _, k, hst⟩
  | write x ptr size => exact ⟨_, _, 0, rfl⟩

theorem loops_end_two : ∃ tr s, Run (Step 4096) (Client 4096) (init (fun _ => 0) fun _ => 0) tr s ∧
    ∃ o t, Step 4096 s (.free 73536) o t := by
  obtain ⟨tr, s, hr, h⟩ := exists_two_run
  exact ⟨tr, s, hr, loops_end (by decide) hr ⟨(73520, 80), h ▸ List.mem_singleton.mpr rfl, rfl⟩⟩

/-- **Nothing is lost.**  When the program has freed everything, and `sbrk` has returned one piece of memory, the free list is that one
piece: `malloc` of anything that fits into it needs no `sbrk`. -/
theorem heap_rejoined {lo n : ℕ} (hb : base ≠ 0) (hr : Run (Step base) (Client base) (init ptr size) tr s) (hl : s.live = []) (hn : 0 < n)
    (ha : ∀ b, Cov s.arena b ↔ In (lo, n) b) :
    FreeList base (start base s.heap) [(lo, n)] ∧ ∀ nbytes o t, HDR * units nbytes ≤ n → Client base s (.malloc nbytes none) →
      Step base s (.malloc nbytes none) o t → o.isSome := by
  obtain ⟨L, I⟩ := run_inv hb hr
  have hL : L = [(lo, n)] := by
    refine I.parts.list.sorted.unique (sorted_cons.mpr ⟨List.forall_mem_nil _, hn, sorted_nil⟩) fun b => ?_
    rw [free_iff I, hl, ha, cov_cons]
    have hnil := cov_nil (b := b)
    tauto
  subst hL
  refine ⟨I.parts.list, fun nbytes o t hle hok hst => ?_⟩
  rcases step_malloc hb I hok hst with ⟨-, r, L', rfl, -⟩ | ⟨-, p, r, L', hs, -⟩ | ⟨hf, -⟩
  · rfl
  · cases hs
  · exact absurd ⟨lo, fun b hin => cov_cons.mpr (.inl ⟨hin.1, Nat.lt_of_lt_of_le hin.2 (Nat.add_le_add_left hle _)⟩)⟩ hf

theorem exists_freed_run : ∃ tr t, Run (Step 4096) (Client 4096) (init (fun _ => 0) fun _ => 0) tr t ∧
    (t.live = [] ∧ t.arena = [(8192, 65536)]) :=
  exists_run (twoActs ++ [.free 73536]) (by decide +kernel)

theorem heap_rejoined_two : ∃ tr t, Run (Step 4096) (Client 4096) (init (fun _ => 0) fun _ => 0) tr t ∧ t.live = [] ∧
    FreeList 4096 (start 4096 t.heap) [(8192, 65536)] := by
  obtain ⟨tr, t, hr, h1, h2⟩ := exists_freed_run
  refine ⟨tr, t, hr, h1, (heap_rejoined (by decide) hr h1 (by decide) fun b => ?_).1⟩
  rw [h2, cov_cons]
  exact or_iff_left cov_nil

end OsLabs.Xv6.Umalloc
