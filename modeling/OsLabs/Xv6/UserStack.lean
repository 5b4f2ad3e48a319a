import OsLabs.Xv6.Needs
import OsLabs.Xv6.Reclaim
import OsLabs.Xv6.Killed

/-!
# OsLabs.Xv6.UserStack — the first stack of a program and of a thread

`exec` pushes the arguments below the top of a page of its own, each string at a multiple of 16, and the array of pointers last.
`thread_create` starts one byte below the top of the page.

* `StackAt`: one page that the user can write, and nothing above it.
* `placeArgs`, `placeStack`: where the pushes go; `pushArgs_spec`, `pushStack_spec`: what they leave in memory.
* `readLE`, `Reads`, `ArgvAt`: what the program reads back through its page table.
* `stack_installed_iff`: when the stack that a program or a thread starts with is as it should be.
-/

namespace OsLabs.Xv6

open Fallible Lts

variable {k k' : Kernel} {p q : Slot} {pt pt' old : PageTable} {m m' : Kmem} {pa : Pa} {s sp e : ℕ} {a : Action}

/-! ## Writing a page -/

/-- `bs` written to page `pa` from offset `o` on. -/
def Kmem.put (m : Kmem) (pa : Pa) : ℕ → List UInt8 → Kmem
  | _, [] => m
  | o, b :: bs => (m.store pa o b).put pa (o + 1) bs

/-- Page `pa` holds `bs` from offset `o` on. -/
def Holds (m : Kmem) (pa : Pa) (o : ℕ) (bs : List UInt8) : Prop := ∀ i b, bs[i]? = some b → m.data pa (o + i) = b

theorem Kmem.store_data (m : Kmem) (pa : Pa) (o : ℕ) (b : UInt8) (i : ℕ) : (m.store pa o b).data pa i = if i = o then b else m.data pa i := by
  simp [Kmem.store, Function.update_apply]

/-- Other bytes of the page stay. -/
theorem Kmem.put_outside : ∀ {bs : List UInt8} {o i : ℕ} {m : Kmem}, (i < o ∨ o + bs.length ≤ i) → (m.put pa o bs).data pa i = m.data pa i
  | [], o, i, m, _ => rfl
  | b :: bs, o, i, m, h => by
    rw [List.length_cons] at h
    rw [Kmem.put, Kmem.put_outside (by omega), Kmem.store_data, if_neg (by omega)]

theorem Kmem.put_holds : ∀ {bs : List UInt8} {o : ℕ} {m : Kmem}, Holds (m.put pa o bs) pa o bs
  | [], o, m, i, b, h => by simp at h
  | c :: bs, o, m, i, b, h => by
    rw [Kmem.put]
    cases i with
    | zero =>
      obtain rfl : c = b := by simpa using h
      rw [Kmem.put_outside (by omega), Kmem.store_data, if_pos (by omega)]
    | succ i =>
      have := @Kmem.put_holds bs (o + 1) (m.store pa o c) i b (by simpa using h)
      rwa [show o + (i + 1) = o + 1 + i by omega]

/-! ## copyout to the stack page -/

/-- The user can write page `s`, held by `pa`, and no page above it. -/
structure StackAt (pt : PageTable) (s : ℕ) (pa : Pa) : Prop where
  page : walkaddr pt (s * PGSIZE) = some pa
  above : ∀ v, s < v → walkaddr pt (v * PGSIZE) = none

theorem StackAt.lt (h : StackAt pt s pa) : (s + 1) * PGSIZE ≤ MAXVA := by
  have hp := h.page
  unfold walkaddr at hp
  split_ifs at hp with h1
  simp only [MAXVA, PGSIZE] at *
  omega

/-- What fits on the page is written there. -/
theorem StackAt.copyout_fits (h : StackAt pt s pa) : ∀ {bs : List UInt8} {va : ℕ} {m : Kmem}, s * PGSIZE ≤ va →
    va + bs.length ≤ (s + 1) * PGSIZE → copyout pt va bs m = (true, m.put pa (va - s * PGSIZE) bs)
  | [], va, m, _, _ => rfl
  | b :: bs, va, m, h1, h2 => by
    have hlt := h.lt
    rw [List.length_cons] at h2
    have hdiv : va / PGSIZE = s := Nat.div_eq_of_lt_le h1 (by omega)
    have hmod : va % PGSIZE = va - s * PGSIZE := by
      have := Nat.div_add_mod va PGSIZE
      rw [hdiv, Nat.mul_comm] at this
      omega
    have hadd : add64 va 1 = va + 1 := Nat.mod_eq_of_lt (by simp only [MAXVA] at hlt; omega)
    rw [copyout, pgrounddown, hdiv, h.page]
    dsimp only
    rw [hadd, h.copyout_fits (by omega) (by omega), hmod, Kmem.put, show va + 1 - s * PGSIZE = va - s * PGSIZE + 1 by omega]

/-- What does not fit is refused. -/
theorem StackAt.copyout_long (h : StackAt pt s pa) : ∀ {bs : List UInt8} {va : ℕ} {m : Kmem}, s * PGSIZE ≤ va → bs ≠ [] →
    (s + 1) * PGSIZE < va + bs.length → (copyout pt va bs m).1 = false
  | [], va, m, _, hne, _ => absurd rfl hne
  | b :: bs, va, m, h1, _, h2 => by
    have hlt := h.lt
    by_cases hva : va < (s + 1) * PGSIZE
    · have hdiv : va / PGSIZE = s := Nat.div_eq_of_lt_le h1 hva
      have hadd : add64 va 1 = va + 1 := Nat.mod_eq_of_lt (by simp only [MAXVA] at hlt; omega)
      rw [List.length_cons] at h2
      rw [copyout, pgrounddown, hdiv, h.page]
      dsimp only
      rw [hadd]
      refine h.copyout_long (by omega) ?_ (by omega)
      rintro rfl
      rw [List.length_nil] at h2
      omega
    · have hdiv : s + 1 ≤ va / PGSIZE := (Nat.le_div_iff_mul_le PGSIZE_pos).mpr (not_lt.mp hva)
      rw [copyout, pgrounddown, h.above _ hdiv]

/-! ## Where the pushes go -/

/-- `n` bytes below `sp`, from a multiple of 16 on. -/
def below (sp n : ℕ) : ℕ := sub64 sp n - sub64 sp n % 16

/-- The addresses of the strings: `argc` of them are placed already, at `ustack`.  None when one of them does not fit. -/
def placeArgs (base top : ℕ) : List (List UInt8) → ℕ → ℕ → List ℕ → Option (ℕ × List ℕ)
  | [], _, sp, ustack => some (sp, ustack)
  | arg :: args, argc, sp, ustack =>
    if MAXARG ≤ argc then none
    else if below sp (arg.length + 1) < base ∨ top < below sp (arg.length + 1) + (arg.length + 1) then none
    else placeArgs base top args (argc + 1) (below sp (arg.length + 1)) (ustack ++ [below sp (arg.length + 1)])

/-- The address of the array of pointers. -/
def placeStack (base top : ℕ) (argv : List (List UInt8)) : Option ℕ :=
  match placeArgs base top argv 0 top [] with
  | none => none
  | some (sp, _) =>
    if below sp ((argv.length + 1) * 8) < base ∨ top < below sp ((argv.length + 1) * 8) + (argv.length + 1) * 8 then none
    else some (below sp ((argv.length + 1) * 8))

theorem below_mod (sp n : ℕ) : below sp n % 16 = 0 := by
  unfold below
  omega

/-- A push that stays below the top does not wrap around. -/
theorem below_le {top n : ℕ} (hsp : sp ≤ top) (htop : top ≤ MAXVA) (h : below sp n + n ≤ top) : below sp n + n ≤ sp := by
  simp only [below, sub64, MAXVA] at *
  omega

/-- One string that `exec` pushed: its address, between the last one pushed and the end of the page, and its bytes with the NUL. -/
structure Pushed (m : Kmem) (pa : Pa) (base sp top : ℕ) (addr : ℕ) (arg : List UInt8) : Prop where
  low : sp ≤ addr
  high : addr + (arg.length + 1) ≤ top
  bytes : Holds m pa (addr - base) (arg ++ [0])

/-- **The strings.**  They go where `placeArgs` says, and a later one does not touch an earlier one. -/
theorem pushArgs_spec (h : StackAt pt s pa) {top : ℕ} (htop : top = (s + 1) * PGSIZE) :
    ∀ {args : List (List UInt8)} {argc sp : ℕ} {ustack : List ℕ} {m m' : Kmem} {x : Option (ℕ × List ℕ)}, s * PGSIZE ≤ sp → sp ≤ top →
      sp % 16 = 0 → pushArgs pt (s * PGSIZE) args argc sp ustack m = (x, m') →
      x = placeArgs (s * PGSIZE) top args argc sp ustack ∧ ∀ sp' us, x = some (sp', us) →
        s * PGSIZE ≤ sp' ∧ sp' ≤ sp ∧ sp' % 16 = 0 ∧ (∀ i, sp - s * PGSIZE ≤ i → m'.data pa i = m.data pa i) ∧
        ∃ new, us = ustack ++ new ∧ List.Forall₂ (Pushed m' pa (s * PGSIZE) sp' top) new args
  | [], argc, sp, ustack, m, m', x, h1, h2, h3, hp => by
    obtain ⟨rfl, rfl⟩ := Prod.mk.inj hp
    refine ⟨rfl, fun sp' us hx => ?_⟩
    obtain ⟨rfl, rfl⟩ := Prod.mk.inj (Option.some.inj hx)
    exact ⟨h1, le_rfl, h3, fun _ _ => rfl, [], (List.append_nil _).symm, .nil⟩
  | arg :: args, argc, sp, ustack, m, m', x, h1, h2, h3, hp => by
    have hlt : top ≤ MAXVA := htop ▸ h.lt
    have hlen : (arg ++ [0]).length = arg.length + 1 := by simp
    unfold pushArgs at hp
    unfold placeArgs
    split_ifs at hp with hmax
    · obtain ⟨rfl, rfl⟩ := Prod.mk.inj hp
      rw [if_pos hmax]
      exact ⟨rfl, fun _ _ hx => by cases hx⟩
    rw [if_neg hmax]
    change (if below sp (arg.length + 1) < s * PGSIZE then (none, m) else _) = _ at hp
    split_ifs at hp with hlow
    · obtain ⟨rfl, rfl⟩ := Prod.mk.inj hp
      rw [if_pos (.inl hlow)]
      exact ⟨rfl, fun _ _ hx => by cases hx⟩
    rw [show sub64 sp (arg.length + 1) - sub64 sp (arg.length + 1) % 16 = below sp (arg.length + 1) from rfl] at hp
    by_cases hfit : below sp (arg.length + 1) + (arg.length + 1) ≤ top
    · have hle := below_le h2 hlt hfit
      rw [h.copyout_fits (by omega) (by rw [hlen, ← htop]; exact hfit)] at hp
      dsimp only at hp
      rw [if_neg (by omega)]
      obtain ⟨hx, hrest⟩ := pushArgs_spec h htop (by omega) (by omega) (below_mod _ _) hp
      refine ⟨hx, fun sp' us hs => ?_⟩
      obtain ⟨hlow', hle', hmod, hkeep, new, rfl, hall⟩ := hrest sp' us hs
      refine ⟨hlow', by omega, hmod, fun i hi => ?_, below sp (arg.length + 1) :: new, by simp, .cons ⟨hle', hfit, ?_⟩ hall⟩
      · rw [hkeep i (by omega), Kmem.put_outside (by rw [hlen]; omega)]
      · intro i b hb
        rw [hkeep _ (by omega)]
        exact Kmem.put_holds i b hb
    · have hno : (copyout pt (below sp (arg.length + 1)) (arg ++ [0]) m).1 = false := h.copyout_long (by omega) (by simp) (by rw [hlen]; omega)
      rw [if_pos (by omega)]
      split at hp
      · obtain ⟨rfl, rfl⟩ := Prod.mk.inj hp
        exact ⟨rfl, fun _ _ hx => by cases hx⟩
      · rename_i hc
        rw [hc] at hno
        cases hno

theorem wordBytes_length (x : ℕ) : (wordBytes x).length = 8 := by simp [wordBytes]

theorem words_length (l : List ℕ) : (l.flatMap wordBytes).length = 8 * l.length := by
  simp [List.length_flatMap, wordBytes_length, Nat.mul_comm]

/-- **The whole stack.**  The array of pointers lies below the strings. -/
theorem pushStack_spec (h : StackAt pt s pa) {top : ℕ} (htop : top = (s + 1) * PGSIZE) {argv : List (List UInt8)} {x : Option ℕ}
    (hp : pushStack pt top argv m = (x, m')) :
    x = placeStack (s * PGSIZE) top argv ∧ ∀ sp, x = some sp → s * PGSIZE ≤ sp ∧ sp + 8 * (argv.length + 1) ≤ top ∧ sp % 16 = 0 ∧
      ∃ ptrs, Holds m' pa (sp - s * PGSIZE) ((ptrs ++ [0]).flatMap wordBytes) ∧
        List.Forall₂ (Pushed m' pa (s * PGSIZE) sp top) ptrs argv := by
  have hlt : top ≤ MAXVA := htop ▸ h.lt
  have hbase : sub64 top PGSIZE = s * PGSIZE := by
    simp only [sub64, MAXVA, PGSIZE] at *
    omega
  have h1 : s * PGSIZE ≤ top := by rw [htop, Nat.succ_mul]; omega
  have h3 : top % 16 = 0 := by rw [htop]; simp only [PGSIZE]; omega
  unfold pushStack at hp
  dsimp only at hp
  rw [hbase] at hp
  unfold placeStack
  split at hp
  · rename_i m1 hargs
    obtain ⟨hx, -⟩ := pushArgs_spec h htop h1 le_rfl h3 hargs
    obtain ⟨rfl, rfl⟩ := Prod.mk.inj hp
    rw [← hx]
    exact ⟨rfl, fun _ hs => by cases hs⟩
  rename_i sp us m1 hargs
  obtain ⟨hx, hsome⟩ := pushArgs_spec h htop h1 le_rfl h3 hargs
  obtain ⟨hlow, hle, hmod, -, new, hus, hall⟩ := hsome sp us rfl
  rw [List.nil_append] at hus
  subst hus
  rw [← hx]
  have hn : ((us ++ [0]).flatMap wordBytes).length = (argv.length + 1) * 8 := by
    rw [words_length, List.length_append, hall.length_eq, List.length_singleton, Nat.mul_comm]
  rw [show sub64 sp ((argv.length + 1) * 8) - sub64 sp ((argv.length + 1) * 8) % 16 = below sp ((argv.length + 1) * 8) from rfl] at hp
  dsimp only
  split_ifs at hp with hb
  · obtain ⟨rfl, rfl⟩ := Prod.mk.inj hp
    rw [if_pos (.inl hb)]
    exact ⟨rfl, fun _ hs => by cases hs⟩
  by_cases hfit : below sp ((argv.length + 1) * 8) + (argv.length + 1) * 8 ≤ top
  · have hbl := below_le hle hlt hfit
    rw [h.copyout_fits (by omega) (by rw [hn, ← htop]; exact hfit)] at hp
    obtain ⟨rfl, rfl⟩ := Prod.mk.inj hp
    rw [if_neg (by omega)]
    refine ⟨rfl, fun sp' hs => ?_⟩
    obtain rfl := Option.some.inj hs
    refine ⟨by omega, by omega, below_mod _ _, us, Kmem.put_holds, hall.imp fun addr arg hpu => ⟨by have := hpu.low; omega, hpu.high, ?_⟩⟩
    -- the array ends below every string
    intro i b hi
    have := hpu.low
    rw [Kmem.put_outside (by rw [hn]; omega)]
    exact hpu.bytes i b hi
  · have hno : (copyout pt (below sp ((argv.length + 1) * 8)) ((us ++ [0]).flatMap wordBytes) m1).1 = false := h.copyout_long (by omega)
      (fun h0 => by rw [h0, List.length_nil] at hn; omega) (by rw [hn, ← htop]; omega)
    rw [if_pos (by omega)]
    split at hp
    · obtain ⟨rfl, rfl⟩ := Prod.mk.inj hp
      exact ⟨rfl, fun _ hs => by cases hs⟩
    · rename_i hc
      rw [hc] at hno
      cases hno

/-! ## Reading back -/

/-- The byte that the user reads at `va`. -/
def readByte (pt : PageTable) (m : Kmem) (va : ℕ) : Option UInt8 :=
  (walkaddr pt (pgrounddown va)).map fun pa => m.data pa (va % PGSIZE)

/-- The number in the `n` bytes from `va` on, little end first. -/
def readLE (pt : PageTable) (m : Kmem) : ℕ → ℕ → Option ℕ
  | 0, _ => some 0
  | n + 1, va =>
    match readByte pt m va, readLE pt m n (va + 1) with
    | some b, some x => some (b.toNat + 256 * x)
    | _, _ => none

/-- The user reads the bytes `bs` from `va` on. -/
def Reads (pt : PageTable) (m : Kmem) (va : ℕ) (bs : List UInt8) : Prop := ∀ i b, bs[i]? = some b → readByte pt m (va + i) = some b

/-- At `sp` the user finds the array of pointers to the strings `argv`, each with its NUL, and a null pointer after the last. -/
def ArgvAt (pt : PageTable) (m : Kmem) (sp : ℕ) (argv : List (List UInt8)) : Prop :=
  ∃ ptrs : List ℕ, (∀ i x, (ptrs ++ [0])[i]? = some x → readLE pt m 8 (sp + 8 * i) = some x) ∧
    List.Forall₂ (fun addr arg => Reads pt m addr (arg ++ [0])) ptrs argv

theorem StackAt.readByte (h : StackAt pt s pa) {va : ℕ} (hva : s * PGSIZE ≤ va) :
    readByte pt m va = if va < (s + 1) * PGSIZE then some (m.data pa (va - s * PGSIZE)) else none := by
  unfold Xv6.readByte pgrounddown
  split_ifs with hlt
  · have hdiv : va / PGSIZE = s := Nat.div_eq_of_lt_le hva hlt
    have hmod : va % PGSIZE = va - s * PGSIZE := by
      have := Nat.div_add_mod va PGSIZE
      rw [hdiv, Nat.mul_comm] at this
      omega
    rw [hdiv, h.page, Option.map_some, hmod]
  · have hdiv : s + 1 ≤ va / PGSIZE := (Nat.le_div_iff_mul_le PGSIZE_pos).mpr (not_lt.mp hlt)
    rw [h.above _ hdiv, Option.map_none]

theorem StackAt.reads (h : StackAt pt s pa) {va : ℕ} {bs : List UInt8} (h1 : s * PGSIZE ≤ va) (h2 : va + bs.length ≤ (s + 1) * PGSIZE)
    (hb : Holds m pa (va - s * PGSIZE) bs) : Reads pt m va bs := by
  intro i b hi
  have hlt : i < bs.length := (List.getElem?_eq_some_iff.mp hi).1
  rw [h.readByte (by omega), if_pos (by omega), show va + i - s * PGSIZE = va - s * PGSIZE + i by omega, hb i b hi]

theorem Reads.left {va : ℕ} {bs cs : List UInt8} (h : Reads pt m va (bs ++ cs)) : Reads pt m va bs := by
  intro i b hi
  have hlt : i < bs.length := (List.getElem?_eq_some_iff.mp hi).1
  exact h i b (by rw [List.getElem?_append_left hlt]; exact hi)

theorem Reads.right {va : ℕ} {bs cs : List UInt8} (h : Reads pt m va (bs ++ cs)) : Reads pt m (va + bs.length) cs := by
  intro i b hi
  rw [Nat.add_assoc]
  exact h _ b (by rw [List.getElem?_append_right (Nat.le_add_right _ _), Nat.add_sub_cancel_left]; exact hi)

/-- A number is read back from its bytes. -/
theorem readLE_bytes : ∀ {n x va : ℕ}, Reads pt m va ((List.range n).map fun i => UInt8.ofNat (x / 256 ^ i % 256)) →
    readLE pt m n va = some (x % 256 ^ n)
  | 0, x, va, _ => by simp [readLE, Nat.mod_one]
  | n + 1, x, va, h => by
    rw [List.range_succ_eq_map, List.map_cons, List.map_map] at h
    have h0 := h 0 _ rfl
    have hrest : Reads pt m (va + 1) ((List.range n).map fun i => UInt8.ofNat (x / 256 / 256 ^ i % 256)) := by
      have hr := @Reads.right pt m va [UInt8.ofNat (x / 256 ^ 0 % 256)] _ h
      have hfun : ((fun i => UInt8.ofNat (x / 256 ^ i % 256)) ∘ Nat.succ) = fun i => UInt8.ofNat (x / 256 / 256 ^ i % 256) := by
        funext i
        simp only [Function.comp_apply, Nat.succ_eq_add_one, Nat.pow_succ', Nat.div_div_eq_div_mul]
      rwa [hfun] at hr
    rw [readLE, show va = va + 0 from rfl, h0, Nat.add_zero, readLE_bytes hrest]
    dsimp only
    rw [Nat.pow_succ', Nat.mod_mul, Nat.pow_zero, Nat.div_one, UInt8.toNat_ofNat', Nat.mod_mod]

/-- A pointer is read back from the array. -/
theorem Reads.word : ∀ {l : List ℕ} {va i x : ℕ}, Reads pt m va (l.flatMap wordBytes) → l[i]? = some x → x < 2 ^ 64 →
    readLE pt m 8 (va + 8 * i) = some x
  | [], va, i, x, _, hi, _ => by simp at hi
  | y :: l, va, i, x, h, hi, hx => by
    rw [List.flatMap_cons] at h
    cases i with
    | zero =>
      obtain rfl : y = x := by simpa using hi
      rw [Nat.mul_zero, Nat.add_zero, readLE_bytes h.left, Nat.mod_eq_of_lt (lt_of_lt_of_eq hx (by decide))]
    | succ i =>
      have hr := h.right
      rw [wordBytes_length] at hr
      rw [show va + 8 * (i + 1) = va + 8 + 8 * i by omega]
      exact Reads.word hr (by simpa using hi) hx

/-- What was pushed is read back. -/
theorem StackAt.argvAt (h : StackAt pt s pa) {top : ℕ} (htop : top = (s + 1) * PGSIZE) {argv : List (List UInt8)} {ptrs : List ℕ}
    (h1 : s * PGSIZE ≤ sp) (h2 : sp + 8 * (argv.length + 1) ≤ top) (hw : Holds m pa (sp - s * PGSIZE) ((ptrs ++ [0]).flatMap wordBytes))
    (hs : List.Forall₂ (Pushed m pa (s * PGSIZE) sp top) ptrs argv) : ArgvAt pt m sp argv := by
  have hlt : top ≤ MAXVA := htop ▸ h.lt
  have hM : MAXVA < 2 ^ 64 := by decide
  have hsmall : ∀ x ∈ ptrs ++ [0], x < 2 ^ 64 := by
    intro x hx
    rcases List.mem_append.mp hx with hx | hx
    · obtain ⟨i, hi, rfl⟩ := List.mem_iff_getElem.mp hx
      have : ptrs[i] + _ ≤ top := (hs.get hi (by rw [← hs.length_eq]; exact hi)).high
      omega
    · rw [List.mem_singleton.mp hx]
      decide
  refine ⟨ptrs, fun i x hi => ?_, hs.imp fun addr arg hp => ?_⟩
  · refine Reads.word (h.reads h1 ?_ hw) hi (hsmall x (List.mem_of_getElem? hi))
    rw [words_length, List.length_append, hs.length_eq, List.length_singleton, ← htop]
    exact h2
  · have := hp.low
    have := hp.high
    exact h.reads (by omega) (by rw [List.length_append, List.length_singleton, ← htop]; omega) hp.bytes

/-- There is no null pointer on a page full of ones. -/
theorem StackAt.junk (h : StackAt pt s pa) {argv : List (List UInt8)} (h1 : s * PGSIZE ≤ sp) (hj : m.data pa = fun _ => 1) :
    ¬ ArgvAt pt m sp argv := by
  rintro ⟨ptrs, hw, -⟩
  have h0 := hw ptrs.length 0 (by simp)
  rw [readLE, h.readByte (by omega), hj] at h0
  split_ifs at h0
  · split at h0
    · rename_i b x hb _
      obtain rfl := Option.some.inj hb
      have h1 := Option.some.inj h0
      rw [show (1 : UInt8).toNat = 1 from rfl] at h1
      omega
    · cases h0

/-! ## Pages that are given back -/

theorem kfree_junk {x : Pa} (h : kfree pa m = .ok m') : m'.data x = if x = pa then fun _ => 1 else m.data x := by
  unfold kfree at h
  split_ifs at h
  obtain rfl := Except.ok.inj h
  exact Function.update_apply _ _ _ _

/-- Once a page is full of ones, giving pages back leaves it so. -/
theorem kfree_stays {x : Pa} (h : kfree pa m = .ok m') (hx : x = pa ∨ m.data x = fun _ => 1) : m'.data x = fun _ => 1 := by
  rw [kfree_junk h]
  split_ifs with hne
  · rfl
  · exact hx.resolve_left hne

theorem kfreeAll_junk : ∀ {l : List Pa} {m m' : Kmem} {x : Pa}, kfreeAll l m = .ok m' → (x ∈ l ∨ m.data x = fun _ => 1) →
    m'.data x = fun _ => 1
  | [], m, m', x, h, hx => by
    obtain rfl := Except.ok.inj h
    exact hx.resolve_left (List.not_mem_nil)
  | y :: l, m, m', x, h, hx => by
    unfold kfreeAll at h
    rw [bind_ok] at h
    obtain ⟨m1, h1, h⟩ := h
    rcases hx with hx | hx
    · rcases List.mem_cons.mp hx with rfl | hx
      · exact kfreeAll_junk h (.inr (kfree_stays h1 (.inl rfl)))
      · exact kfreeAll_junk h (.inl hx)
    · exact kfreeAll_junk h (.inr (kfree_stays h1 (.inr hx)))

theorem freewalk_junk {x : Pa} (h : freewalk pt m = .ok m') (hx : x ∈ pt.pages ∨ m.data x = fun _ => 1) : m'.data x = fun _ => 1 := by
  unfold freewalk at h
  split_ifs at h
  exact kfreeAll_junk h hx

theorem uvmunmapLoop_junk {x : Pa} : ∀ {n a : ℕ} {pt pt' : PageTable} {m m' : Kmem}, uvmunmapLoop true n a pt m = .ok (pt', m') →
    ((∃ v en, a / PGSIZE ≤ v ∧ v < a / PGSIZE + n ∧ pt.pte v = some en ∧ en.pa = x) ∨ m.data x = fun _ => 1) → m'.data x = fun _ => 1
  | 0, a, pt, pt', m, m', h, hx => by
    obtain ⟨rfl, rfl⟩ := Prod.mk.inj (Except.ok.inj h)
    exact hx.resolve_left fun ⟨v, _, h1, h2, _⟩ => by omega
  | n + 1, a, pt, pt', m, m', h, hx => by
    unfold uvmunmapLoop at h
    rw [bind_ok] at h
    obtain ⟨⟨found, pt1, m1⟩, hw, h⟩ := h
    obtain ⟨-, -, -, hlook⟩ := walk_inv hw
    obtain ⟨-, rfl, rfl⟩ := hlook rfl
    dsimp only at h
    split_ifs at h
    split at h
    · cases h
    rename_i en hen
    split_ifs at h
    rw [bind_ok] at h
    obtain ⟨m2, hk, h⟩ := h
    rw [kfreeIf, if_pos rfl] at hk
    refine uvmunmapLoop_junk h ?_
    rw [add_PGSIZE_div]
    rcases hx with ⟨v, en', h1, h2, hen', rfl⟩ | hx
    · by_cases hv : v = a / PGSIZE
      · rw [hv, hen] at hen'
        exact .inr (kfree_stays hk (.inl (by rw [Option.some.inj hen'])))
      · refine .inl ⟨v, en', by omega, by omega, ?_, rfl⟩
        rwa [PageTable.setPte_apply, if_neg hv]
    · exact .inr (kfree_stays hk (.inr hx))

/-- The pages that a process of `sz` bytes with the table `pt` gives back. -/
def InImage (pt : PageTable) (sz : ℕ) (x : Pa) : Prop := x ∈ pt.pages ∨ ∃ v en, v < npages sz ∧ pt.pte v = some en ∧ en.pa = x

/-- Every page that `proc_freepagetable` gives back is full of ones afterwards. -/
theorem procFreepagetable_junk {sz : ℕ} {x : Pa} (hsz : sz ≤ TRAPFRAME) (h : procFreepagetable pt sz m = .ok m') (hx : InImage pt sz x) :
    m'.data x = fun _ => 1 := by
  have hnp := npages_le hsz
  have ht := tfPage_lt_trampPage
  unfold procFreepagetable at h
  simp only [bind_ok] at h
  obtain ⟨⟨pt1, m1⟩, h1, ⟨pt2, m2⟩, h2, h⟩ := h
  obtain ⟨-, rfl, -⟩ := uvmunmap_inv h1
  obtain ⟨-, rfl, -⟩ := uvmunmap_inv h2
  unfold uvmfree at h
  split_ifs at h with h0
  · rw [bind_ok] at h
    obtain ⟨⟨pt3, m3⟩, h3, h⟩ := h
    obtain ⟨-, rfl, -⟩ := uvmunmap_inv h3
    refine freewalk_junk h ?_
    rcases hx with hx | ⟨v, en, hv, hen, rfl⟩
    · exact .inl hx
    · unfold uvmunmap at h3
      split_ifs at h3
      refine .inr (uvmunmapLoop_junk h3 (.inl ⟨v, en, by rw [Nat.zero_div]; omega, by rw [Nat.zero_div, pgroundup_div]; omega, ?_, rfl⟩))
      rw [PageTable.unmap_apply, if_neg (by simp only [tfPage] at *; omega), PageTable.unmap_apply,
        if_neg (by simp only [trampPage] at *; omega), hen]
  · refine freewalk_junk h ?_
    rcases hx with hx | ⟨v, en, hv, -⟩
    · exact .inl hx
    · rw [show sz = 0 by omega, npages_zero] at hv
      omega

/-! ## exec -/

theorem uvmclear_pte {va v : ℕ} (h : uvmclear pt va m = .ok pt') (hv : v ≠ va / PGSIZE) : pt'.pte v = pt.pte v := by
  unfold uvmclear at h
  rw [bind_ok] at h
  obtain ⟨⟨found, pt1, m1⟩, hw, h⟩ := h
  obtain ⟨-, -, -, hlook⟩ := walk_inv hw
  obtain ⟨-, rfl, -⟩ := hlook rfl
  dsimp only at h
  split_ifs at h
  obtain rfl := Except.ok.inj h
  rw [PageTable.setPte_apply, if_neg hv]

/-- Nothing above the user's pages can be reached. -/
theorem Sane.walkaddr_none (hs : Sane e pt) {v n : ℕ} (hn : ∀ v, n ≤ v → v < tfPage → pt.pte v = none) (hv : n ≤ v) :
    walkaddr pt (v * PGSIZE) = none := by
  unfold walkaddr
  rw [Nat.mul_div_cancel v PGSIZE_pos]
  split_ifs
  · rfl
  · rfl
  · by_cases hlt : v < tfPage
    · rw [hn v hv hlt]
    · split
      · rfl
      · rename_i en hen
        rw [if_neg (by rw [hs.shaped.high v en (by omega) hen]; simp)]

/-- What `exec` makes of the table `pt` of `sz` bytes: a guard page, and the stack above it. -/
structure NewStack (e : ℕ) (pt : PageTable) (sz : ℕ) (m : Kmem) (pt' : PageTable) (sz' : ℕ) (pa : Pa) : Prop where
  size : sz' = (npages sz + 2) * PGSIZE
  top : sz' ≤ TRAPFRAME
  handed : handed (mapNeeds 1 (pgroundup sz) pt.keys) m = some pa
  entry : pt'.pte (npages sz + 1) = some ⟨pa, ⟨true, true, false, true⟩⟩
  stack : StackAt pt' (npages sz + 1) pa
  sane : Sane e pt'
  full : Full 0 pt' sz'

/-- The new size, with the guard page and the stack. -/
theorem stackTop {sz : ℕ} (hsz : sz ≤ TRAPFRAME) : add64 (pgroundup sz) (2 * PGSIZE) = (npages sz + 2) * PGSIZE := by
  have hup := pgroundup_le hsz
  have hT : TRAPFRAME < 2 ^ 63 := by decide
  have hP : PGSIZE = 4096 := rfl
  rw [add64, Nat.mod_eq_of_lt (by omega), pgroundup_eq, ← Nat.add_mul]

theorem addPages_stack {sz : ℕ} (hsz : sz ≤ TRAPFRAME) : addPages (pgroundup sz) ((npages sz + 2) * PGSIZE) = 2 := by
  have hup := pgroundup_le hsz
  have hT : TRAPFRAME < 2 ^ 63 := by decide
  rw [addPages, pgroundup_of_mod (pgroundup_mod sz) (by omega), pgroundup_eq, ← Nat.mul_comm PGSIZE, ← Nat.mul_comm PGSIZE, ← Nat.mul_sub,
    Nat.add_sub_cancel_left]
  decide

/-- The address of the guard page. -/
theorem guard_addr {sz : ℕ} (h : (npages sz + 2) * PGSIZE ≤ TRAPFRAME) : sub64 ((npages sz + 2) * PGSIZE) (2 * PGSIZE) = pgroundup sz := by
  rw [pgroundup_eq, sub64]
  simp only [TRAPFRAME, TRAMPOLINE, MAXVA, PGSIZE] at *
  omega

theorem newStack {pt1 pt2 : PageTable} {m1 : Kmem} {sz sz1 : ℕ} (hs : Sane e pt) (hsz : sz ≤ TRAPFRAME) (hfull : Full 0 pt sz)
    (hm : m.OkAt e) (hu : uvmalloc pt (pgroundup sz) (add64 (pgroundup sz) (2 * PGSIZE)) true false m = .ok (sz1, pt1, m1)) (h0 : sz1 ≠ 0)
    (hc : uvmclear pt1 (sub64 sz1 (2 * PGSIZE)) m1 = .ok pt2) : ∃ pa, NewStack e pt sz m pt2 sz1 pa := by
  have hT : TRAPFRAME < MAXVA := by decide
  have hM : MAXVA < 2 ^ 63 := by decide
  have hP : PGSIZE = 4096 := rfl
  have hup : pgroundup sz ≤ TRAPFRAME := pgroundup_le hsz
  have hmod := pgroundup_mod sz
  have hmul := pgroundup_eq sz
  have hs1 := uvmalloc_sane hs hm hup hu
  obtain ⟨hs2, hnone⟩ := uvmclear_sane hs1 hc
  rw [stackTop hsz] at hu
  obtain ⟨-, htop, hf1⟩ := (uvmalloc_full hs (hfull.roundup hsz) hup hu).resolve_left fun h => h0 h.1
  have hf2 : Full 0 pt2 sz1 := ⟨fun v hc hv h => hf1.low v hc hv ((hnone v).mp h), fun v hv hv' => (hnone v).mpr (hf1.high v hv hv')⟩
  unfold uvmalloc at hu
  rw [if_neg (by rw [hmul, hP]; omega), bind_ok] at hu
  obtain ⟨⟨ok, pt3, m3⟩, hl, hu⟩ := hu
  simp only [Except.ok.injEq, Prod.mk.injEq] at hu
  obtain ⟨hr, rfl, rfl⟩ := hu
  cases ok with
  | false => exact absurd hr.symm h0
  | true =>
    have hsize : sz1 = (npages sz + 2) * PGSIZE := by rw [← hr, if_pos rfl]
    change uvmallocLoop _ _ (addPages (pgroundup sz) ((npages sz + 2) * PGSIZE)) _ _ _ = _ at hl
    rw [addPages_stack hsz, pgroundup_of_mod hmod (by omega)] at hl
    obtain ⟨pa, hpa, hhand⟩ := uvmallocLoop_handed hmod hmod le_rfl (.inl rfl) hl 1 (by omega)
    rw [pgroundup_div] at hpa
    have hguard : sub64 sz1 (2 * PGSIZE) / PGSIZE = npages sz := by
      rw [hsize, guard_addr (hsize ▸ htop), pgroundup_div]
    have hentry : pt2.pte (npages sz + 1) = some ⟨pa, ⟨true, true, false, true⟩⟩ := by
      rw [uvmclear_pte hc (by rw [hguard]; omega), hpa]
    have hlt : npages sz + 1 < tfPage := by
      rw [hsize] at htop
      simp only [tfPage, TRAPFRAME, TRAMPOLINE, MAXVA, PGSIZE] at *
      omega
    refine ⟨pa, hsize, htop, hhand, hentry, ⟨walkaddr_of_pte hs2.shaped.wf hlt hentry rfl, fun v hv => ?_⟩, hs2, hf2⟩
    refine hs2.walkaddr_none (fun w hw hw' => hf2.high w hw hw') ?_
    rw [npages_of_mod (by rw [hsize]; exact Nat.mul_mod_left _ _) (by omega), hsize, Nat.mul_div_cancel _ PGSIZE_pos]
    omega

/-- **A successful `exec`.** -/
theorem execEnd_commit {sz entry : ℕ} {argv : List (List UInt8)} {r : ℤ} (h : execEnd k p pt sz entry argv = .ok (some r, k')) (hr : r ≠ -1) :
    ∃ pt1 pt2 old m1 m2 m sz1 sp,
      uvmalloc pt (pgroundup sz) (add64 (pgroundup sz) (2 * PGSIZE)) true false k.mem = .ok (sz1, pt1, m1) ∧ sz1 ≠ 0 ∧
      uvmclear pt1 (sub64 sz1 (2 * PGSIZE)) m1 = .ok pt2 ∧ pushStack pt2 sz1 argv m1 = (some sp, m2) ∧
      (k.proc p).pagetable = some old ∧ procFreepagetable old (k.proc p).sz m2 = .ok m ∧
      k' = (k.setMem m).setProc p { k.proc p with
        pagetable := some pt2, sz := sz1, tf := { (k.proc p).tf with a1 := sp, epc := entry, sp := sp }, frame := .user } := by
  unfold execEnd at h
  rw [bind_ok] at h
  obtain ⟨⟨sz1, pt1, m1⟩, hu, h⟩ := h
  dsimp only at h
  split_ifs at h with hsz
  · obtain ⟨m, -, ho, -⟩ := execBad_inv h
    exact absurd (Option.some.inj ho) hr
  rw [bind_ok] at h
  obtain ⟨pt2, hc, h⟩ := h
  split at h
  · obtain ⟨m, -, ho, -⟩ := execBad_inv h
    exact absurd (Option.some.inj ho) hr
  · rename_i sp m2 hs
    split at h
    · cases h
    rename_i old hold
    rw [bind_ok] at h
    obtain ⟨m, hm, h⟩ := h
    obtain ⟨-, rfl⟩ := Prod.mk.inj (Except.ok.inj h)
    exact ⟨pt1, pt2, old, m1, m2, m, sz1, sp, hu, hsz, hc, hs, hold, hm, rfl⟩

theorem resume_done {sz entry : ℕ} {argv : List (List UInt8)} {as : List Pa} (hfr : (k.proc p).frame = .exec pt sz) :
    resume (k.setAnswers as) p (.done entry argv) = execEnd (k.tidy p as) p pt sz entry argv := by
  have ht : (k.setAnswers as).setProc p { (k.setAnswers as).proc p with chan := none } = k.tidy p as := rfl
  have hft : ((k.tidy p as).proc p).frame = .exec pt sz := by simpa [Kernel.tidy] using hfr
  unfold resume
  dsimp only
  rw [ht, hft]

/-! ## The first stack -/

/-- The successful calls that install a stack pointer, with the slot that gets it: `exec` at its end, and `thread_create`. -/
inductive Installs (k : Kernel) : Action → Kernel → Slot → Prop
  | exec {p : Slot} {pt : PageTable} {sz entry : ℕ} {argv : List (List UInt8)} {as : List Pa} {r : ℤ} {k' : Kernel}
      (h : Step k (.resume p (.done entry argv) as) (some r) k') (hfr : (k.proc p).frame = .exec pt sz) (hr : r ≠ -1) :
      Installs k (.resume p (.done entry argv) as) k' p
  | threadCreate {p np : Slot} {fn arg retfn : ℕ} {as : List Pa} {r : ℤ} {k' : Kernel}
      (h : Step k (.syscall p (.threadCreate fn arg retfn) as) (some r) k') (h0 : (k.proc np).state = .unused)
      (h1 : (k'.proc np).state ≠ .unused) : Installs k (.syscall p (.threadCreate fn arg retfn) as) k' np

/-- The stack pointer is a multiple of 16 and lies in a page that the process can write, or at its end. -/
def SpOk (P : Proc) : Prop :=
  P.tf.sp % 16 = 0 ∧ ∃ pt b en, P.pagetable = some pt ∧ b % PGSIZE = 0 ∧ b ≤ P.tf.sp ∧ P.tf.sp ≤ b + PGSIZE ∧
    pt.reaches b = true ∧ pt.pte (b / PGSIZE) = some en ∧ en.perm.u = true ∧ en.perm.w = true

/-- The arguments of `exec` can be read back from `a1`, which is the stack pointer. -/
def ArgsOk (a : Action) (k' : Kernel) (q : Slot) : Prop :=
  match a with
  | .resume _ (.done _ argv) _ => ∃ pt, (k'.proc q).pagetable = some pt ∧ (k'.proc q).tf.a1 = (k'.proc q).tf.sp ∧
      ArgvAt pt k'.mem (k'.proc q).tf.a1 argv
  | _ => True

/-- The call is `exec`, and the page that `kalloc` is going to hand out for the stack is not a page of the caller's old image. -/
def FreshStack (k : Kernel) (a : Action) : Prop :=
  match a with
  | .resume p _ as => ∀ pt sz old pa, (k.proc p).frame = .exec pt sz → (k.proc p).pagetable = some old →
      handed (mapNeeds 1 (pgroundup sz) pt.keys) (k.setAnswers as).mem = some pa → ¬ InImage old (k.proc p).sz pa
  | _ => False

theorem stackTop_mod (pid : ℤ) : sub64 (add64 (stackBase pid) PGSIZE) 1 % 16 = 15 := by
  have h := stackBase_mod pid
  simp only [sub64, add64, PGSIZE] at *
  omega

/-- **`thread_create`** starts a thread one byte below the top of its stack. -/
theorem threadCreate_sp {fn arg retfn : ℕ} {r : ℤ} (h : ThreadRes k p fn arg retfn r k') (h0 : (k.proc q).state = .unused)
    (h1 : (k'.proc q).state ≠ .unused) : (k'.proc q).tf.sp % 16 = 15 := by
  cases h with
  | noSlot hal => exact absurd (hal.stays_unused h0) h1
  | noShare hal _ _ _ _ => exact absurd (hal.freed_unused h0) h1
  | noStack hal _ _ _ _ _ => exact absurd (hal.freed_unused h0) h1
  | @ok np l k1 pt pt1 pt2 m1 m2 sz c fs hal _ _ _ _ _ _ _ =>
    by_cases hq : q = np
    · subst hq
      rw [Kernel.setProc_self]
      exact stackTop_mod _
    · refine absurd ?_ h1
      rw [Kernel.setProc_of_ne _ _ hq]
      exact (congrArg Proc.state (hal.other hq)).trans h0

/-- **`exec`** installs an aligned stack pointer in its stack page; the arguments can be read there unless the page was given back
with the old image. -/
theorem execEnd_stack {sz entry : ℕ} {argv : List (List UInt8)} {r : ℤ} (hm : k.mem.OkAt e) (hf : k.Fine e)
    (hfr : (k.proc p).frame = .exec pt sz) (h : execEnd k p pt sz entry argv = .ok (some r, k')) (hr : r ≠ -1) :
    SpOk (k'.proc p) ∧ ∃ old pa pt', (k.proc p).pagetable = some old ∧ handed (mapNeeds 1 (pgroundup sz) pt.keys) k.mem = some pa ∧
      (k'.proc p).pagetable = some pt' ∧ (k'.proc p).tf.a1 = (k'.proc p).tf.sp ∧
      (ArgvAt pt' k'.mem (k'.proc p).tf.a1 argv ↔ ¬ InImage old (k.proc p).sz pa) := by
  obtain ⟨pt1, pt2, old, m1, m2, m, sz1, sp, hu, h0, hc, hpush, hold, hfree, rfl⟩ := execEnd_commit h hr
  obtain ⟨hs, hsz, hfull, -⟩ := (hf p).exec pt sz hfr
  obtain ⟨pa, hn⟩ := newStack hs hsz hfull hm hu h0 hc
  have htop : sz1 = (npages sz + 1 + 1) * PGSIZE := hn.size
  obtain ⟨-, hsp⟩ := pushStack_spec hn.stack htop hpush
  obtain ⟨hlow, hhigh, hmod, ptrs, hw, hall⟩ := hsp sp rfl
  have hdiv : (npages sz + 1) * PGSIZE / PGSIZE = npages sz + 1 := Nat.mul_div_cancel _ PGSIZE_pos
  rw [Kernel.setProc_self, Kernel.setProc_mem, Kernel.setMem_mem]
  refine ⟨⟨hmod, pt2, (npages sz + 1) * PGSIZE, _, rfl, Nat.mul_mod_left _ _, hlow, ?_, ?_, by rw [hdiv, hn.entry], rfl, rfl⟩,
    old, pa, pt2, hold, hn.handed, rfl, rfl, ?_⟩
  · rw [Nat.succ_mul] at htop
    show sp ≤ _
    omega
  · exact hn.sane.shaped.wf.reaches (by rw [hdiv, hn.entry]; simp)
  · constructor
    · intro hargs hin
      exact hn.stack.junk hlow (procFreepagetable_junk (hf p).sz hfree hin) hargs
    · intro hout
      have hdata : m.data pa = m2.data pa :=
        procFreepagetable_data hfree (fun hp => hout (.inl hp)) fun v en hv hen hpa => hout (.inr ⟨v, en, hv, hen, hpa⟩)
      have hkeep : ∀ {o : ℕ} {bs : List UInt8}, Holds m2 pa o bs → Holds m pa o bs := fun hb i b hi => by
        rw [hdata]
        exact hb i b hi
      exact hn.stack.argvAt htop hlow hhigh (hkeep hw) (hall.imp fun _ _ hp => ⟨hp.low, hp.high, hkeep hp.bytes⟩)

/-- **The first stack.**  `thread_create` always misaligns it; `exec` gets it right unless the free list gives it a page of the image that it
is about to free. -/
theorem stack_installed_iff (hr : Reach Step always Boot k) (h : Installs k a k' q) :
    SpOk (k'.proc q) ∧ ArgsOk a k' q ↔ FreshStack k a := by
  obtain ⟨e, hm, hf⟩ := fine_reach hr
  cases h with
  | @threadCreate p np fn arg retfn as r k' h h0 h1 =>
    cases step_inv h with
    | file _ _ _ hc _ => cases hc
    | threadCreate _ _ _ hres =>
      have hmod := threadCreate_sp hres h0 h1
      refine iff_of_false (fun hok => ?_) (by simp [FreshStack])
      have := hok.1.1
      omega
  | @exec p pt sz entry argv as r k' h hfr hne =>
    have hft : ((k.tidy q as).proc q).frame = .exec pt sz := by simpa [Kernel.tidy] using hfr
    have hend : execEnd (k.tidy q as) q pt sz entry argv = .ok (some r, k') := by
      rw [← resume_done hfr]
      exact h.2
    obtain ⟨hsp, old, pa, pt', hold, hhand, hpt', ha1, hiff⟩ :=
      execEnd_stack (show (k.tidy q as).mem.OkAt e from hm) ((tidy_quiet k q as).fine hf) hft hend hne
    have hold' : (k.proc q).pagetable = some old := by simpa [Kernel.tidy] using hold
    have hszt : ((k.tidy q as).proc q).sz = (k.proc q).sz := by simp [Kernel.tidy]
    have hmem : (k.tidy q as).mem = (k.setAnswers as).mem := rfl
    rw [hszt] at hiff
    rw [hmem] at hhand
    constructor
    · rintro ⟨-, ptx, hptx, -, hargs⟩ pt2 sz2 old2 pa2 hfr2 hold2 hhand2
      obtain ⟨rfl, rfl⟩ := Frame.exec.inj (hfr.symm.trans hfr2)
      obtain rfl := Option.some.inj (hold'.symm.trans hold2)
      obtain rfl := Option.some.inj (hhand.symm.trans hhand2)
      obtain rfl := Option.some.inj (hpt'.symm.trans hptx)
      exact hiff.mp hargs
    · intro hfresh
      exact ⟨hsp, pt', hpt', ha1, hiff.mpr (hfresh pt sz old pa hfr hold' hhand)⟩

/-- The first process has loaded its program; the stack is still missing. -/
def loadInit : List Action := startInit.take 3

theorem Frame.tag_exec {fr : Frame} (h : fr.tag = .exec) : ∃ pt sz, fr = .exec pt sz := by
  cases fr <;> first | exact ⟨_, _, rfl⟩ | cases h

theorem stack_installed_iff_small : ∃ k a k', Reach Step always Boot k ∧ Installs k a k' 0 ∧
    (SpOk (k'.proc 0) ∧ ArgsOk a k' 0 ↔ FreshStack k a) := by
  obtain ⟨hreach, hfr, hs⟩ := endOf_reach small_boot loadInit
    (fun k => (k.proc 0).frame.tag = .exec ∧
      ((stepOpt k (.resume 0 (.done 0 [[0x69, 0x6e, 0x69, 0x74]]) (pages 40 10))).any fun x => x.1 = some 1) = true) (by decide +kernel)
  obtain ⟨pt, sz, hfr⟩ := Frame.tag_exec hfr
  obtain ⟨o, k', hstep, ho⟩ := exists_step hs
  obtain rfl : o = some 1 := of_decide_eq_true ho
  have hi : Installs (endOf small loadInit) _ k' 0 := .exec hstep hfr (by decide)
  exact ⟨_, _, k', hreach, hi, stack_installed_iff hreach hi⟩

/-- A thread starts with an odd stack pointer. -/
theorem thread_sp_unaligned : ¬ ∀ (k : Kernel) (a : Action) (k' : Kernel) (q : Slot), Reach Step always Boot k → Installs k a k' q →
    SpOk (k'.proc q) ∧ ArgsOk a k' q := by
  intro hall
  obtain ⟨hreach, h0, hs⟩ := endOf_reach small_boot startInit
    (fun k => (k.proc 1).state = .unused ∧ ((stepOpt k (.syscall 0 (.threadCreate 0 0 0) (pages 50 20))).any fun x =>
      decide (x.1 = some 2 ∧ (x.2.proc 1).state ≠ .unused ∧ (x.2.proc 1).tf.sp % 2 = 1)) = true) (by decide +kernel)
  obtain ⟨o, k', hstep, ho⟩ := exists_step hs
  obtain ⟨rfl, h1, hsp⟩ : o = some 2 ∧ (k'.proc 1).state ≠ .unused ∧ (k'.proc 1).tf.sp % 2 = 1 := of_decide_eq_true ho
  have hok := (hall _ _ k' 1 hreach (.threadCreate hstep h0 h1)).1.1
  omega

end OsLabs.Xv6
