import OsLabs.LinkedRing
import OsLabs.Lts

/-!
# OsLabs.Debug.Sllist — the circular singly linked list (debug/sllist.c)

The heap is the field `next` of every node.  A loop runs for as many rounds as it is given; that enough rounds exist is part of what is
proved.  The list through `head` is a `Ring`, and what the calls do to it is what the operations on a sequence do.

* `tailLoop_ends`, `findLoop_ends`, `printLoop_ends`: where the three loops end, on a path through the heap.
* `call_refines`: one call, on a heap in which a ring goes through `head`.
* `sllist_refines`: every run of calls refines the same operations on a sequence, and every next call returns.
-/

namespace OsLabs.Debug.Sllist

open LinkedRing Lts

variable {P : Type} [DecidableEq P]

/-! ## The program -/

/-- `node->next`, for every node. -/
abbrev Heap (P : Type) := P → P

def initNode (node : P) (next : Heap P) : Heap P := Function.update next node node

def addHead (head node : P) (next : Heap P) : Heap P :=
  let next := Function.update next node (next head)
  let next := Function.update next node (next head)
  Function.update next head node

def addTail (fuel : ℕ) (head node : P) (next : Heap P) : Option (Heap P) :=
  match whileLoop (fun p => next p ≠ head) next fuel (next head) with
  | none => none
  | some p =>
    let next := Function.update next node (next p)
    let next := Function.update next node (next p)
    some (Function.update next p node)

def delNode (fuel : ℕ) (head node : P) (next : Heap P) : Option (Heap P) :=
  match whileLoop (fun x : P × P => x.2 ≠ node ∧ x.2 ≠ head) (fun x => (x.2, next x.2)) fuel (head, next head) with
  | none => none
  | some (p, n) =>
    if n = head then some next
    else
      let next := Function.update next p (next n)
      some (Function.update next n n)

/-- It returns the nodes that `print_fn` is called on. -/
def printList (fuel : ℕ) (head : P) (next : Heap P) : Option (List P) :=
  (whileLoop (fun x : P × List P => x.1 ≠ head) (fun x => (next x.1, x.2 ++ [x.1])) fuel (next head, [])).map Prod.snd

/-- A call. -/
inductive Op (P : Type)
  | initNode (node : P)
  | addHead (node : P)
  | addTail (node : P)
  | delNode (node : P)
  | printList

/-- What the call prints, and the heap after it. -/
def Op.call (fuel : ℕ) (head : P) (next : Heap P) : Op P → Option (List P × Heap P)
  | .initNode node => some ([], Sllist.initNode node next)
  | .addHead node => some ([], Sllist.addHead head node next)
  | .addTail node => (Sllist.addTail fuel head node next).map fun h => ([], h)
  | .delNode node => (Sllist.delNode fuel head node next).map fun h => ([], h)
  | .printList => (Sllist.printList fuel head next).map fun out => (out, next)

/-- A call that returns. -/
def Step (head : P) (next : Heap P) (op : Op P) (out : List P) (next' : Heap P) : Prop :=
  ∃ fuel, op.call fuel head next = some (out, next')

/-! ## Sequences -/

/-- What the call does to the sequence. -/
def Op.after (xs : List P) : Op P → List P
  | .initNode _ => xs
  | .addHead node => node :: xs
  | .addTail node => xs ++ [node]
  | .delNode node => xs.erase node
  | .printList => xs

/-- What the call prints. -/
def Op.printed (xs : List P) : Op P → List P
  | .printList => xs
  | _ => []

/-- Only nodes that are not in the list are initialised or put into it. -/
def Op.Allowed (head : P) (xs : List P) : Op P → Prop
  | .initNode node => node ∉ head :: xs
  | .addHead node => node ∉ head :: xs
  | .addTail node => node ∉ head :: xs
  | .delNode _ => True
  | .printList => True

/-- What the call does to single nodes: which ones it leaves alone, and which one it links to itself. -/
def Op.Writes (head : P) (xs : List P) (next next' : Heap P) : Op P → Prop
  | .initNode node => next' node = node ∧ ∀ p, p ≠ node → next' p = next p
  | .addHead node => ∀ p, p ∉ node :: head :: xs → next' p = next p
  | .addTail node => ∀ p, p ∉ node :: head :: xs → next' p = next p
  | .delNode node => if node ∈ xs then next' node = node ∧ ∀ p, p ∉ head :: xs → next' p = next p else next' = next
  | .printList => next' = next

/-- **A call refines its operation on the sequence `xs`.** -/
structure Refines (head : P) (xs : List P) (op : Op P) (next : Heap P) (out : List P) (next' : Heap P) : Prop where
  ring : Ring next' head (op.after xs)
  out : out = op.printed xs
  writes : op.Writes head xs next next'

/-! ## The loops -/

variable {next next' : Heap P} {head node a z : P} {xs ys out : List P} {fuel : ℕ}

theorem tailLoop_ends : ∀ {ys : List P} {a : P} {fuel : ℕ}, Links next a ys head → head ∉ ys → ys.length < fuel →
    whileLoop (fun p => next p ≠ head) next fuel a = some (lastOf a ys)
  | [], a, fuel, h, _, hf => by
    obtain ⟨fuel, rfl⟩ : ∃ k, fuel = k + 1 := ⟨fuel - 1, by omega⟩
    exact whileLoop_stop fun hne => hne h
  | y :: ys, a, fuel, h, hhead, hf => by
    obtain ⟨hne, hhead⟩ := List.ne_and_not_mem_of_not_mem_cons hhead
    obtain ⟨fuel, rfl⟩ : ∃ k, fuel = k + 1 := ⟨fuel - 1, by omega⟩
    refine Eq.trans (whileLoop_next (by rw [h.1]; exact hne.symm)) ?_
    rw [h.1]
    exact tailLoop_ends h.2 hhead (by simpa using hf)

/-- The search of `del_node` goes on up to the first of `node` and `head`. -/
theorem findLoop_ends (hz : z = node ∨ z = head) : ∀ {ys : List P} {a : P} {fuel : ℕ}, Links next a ys z →
    (∀ y ∈ ys, y ≠ node ∧ y ≠ head) → ys.length < fuel →
    whileLoop (fun x : P × P => x.2 ≠ node ∧ x.2 ≠ head) (fun x => (x.2, next x.2)) fuel (a, next a) = some (lastOf a ys, z)
  | [], a, fuel, h, _, hf => by
    obtain ⟨fuel, rfl⟩ : ∃ k, fuel = k + 1 := ⟨fuel - 1, by omega⟩
    rw [show next a = z from h]
    exact whileLoop_stop fun hne => hz.elim hne.1 hne.2
  | y :: ys, a, fuel, h, hys, hf => by
    obtain ⟨fuel, rfl⟩ : ∃ k, fuel = k + 1 := ⟨fuel - 1, by omega⟩
    rw [h.1]
    refine Eq.trans (whileLoop_next (hys y List.mem_cons_self)) ?_
    exact findLoop_ends hz h.2 (fun y hy => hys y (List.mem_cons_of_mem _ hy)) (by simpa using hf)

theorem printLoop_ends : ∀ {ys : List P} {a : P} {out : List P} {fuel : ℕ}, Links next a ys head → head ∉ ys → ys.length < fuel →
    whileLoop (fun x : P × List P => x.1 ≠ head) (fun x => (next x.1, x.2 ++ [x.1])) fuel (next a, out) = some (head, out ++ ys)
  | [], a, out, fuel, h, _, hf => by
    obtain ⟨fuel, rfl⟩ : ∃ k, fuel = k + 1 := ⟨fuel - 1, by omega⟩
    rw [show next a = head from h, List.append_nil]
    exact whileLoop_stop fun hne => hne rfl
  | y :: ys, a, out, fuel, h, hhead, hf => by
    obtain ⟨hne, hhead⟩ := List.ne_and_not_mem_of_not_mem_cons hhead
    obtain ⟨fuel, rfl⟩ : ∃ k, fuel = k + 1 := ⟨fuel - 1, by omega⟩
    rw [h.1]
    refine Eq.trans (whileLoop_next hne.symm) ?_
    exact (printLoop_ends h.2 hhead (by simpa using hf)).trans (by rw [List.append_assoc]; rfl)

/-! ## The calls -/

theorem addHead_ring (h : Ring next head xs) (hn : node ∉ head :: xs) : Ring (addHead head node next) head (node :: xs) := by
  have hne : head ≠ node := fun he => hn (he ▸ List.mem_cons_self)
  have heq : addHead head node next = Function.update (Function.update next node (next head)) head node := by
    unfold addHead
    dsimp only
    rw [Function.update_of_ne hne, Function.update_idem]
  rw [heq]
  have h' : Ring next head ([] ++ xs) := h
  exact h'.insert hn

theorem addTail_ring (h : Ring next head xs) (hn : node ∉ head :: xs) (hf : xs.length < fuel) :
    ∃ next', addTail fuel head node next = some next' ∧ Ring next' head (xs ++ [node]) ∧
      ∀ p, p ∉ node :: head :: xs → next' p = next p := by
  have hloop : whileLoop (fun p => next p ≠ head) next fuel (next head) = some (lastOf head xs) := by
    cases xs with
    | nil =>
      rw [show next head = head from h.links]
      exact tailLoop_ends h.links h.head_notMem hf
    | cons x xs =>
      rw [h.links.1]
      exact tailLoop_ends h.links.2 (fun hm => h.head_notMem (List.mem_cons_of_mem _ hm)) (Nat.lt_of_succ_lt hf)
  have hlast := lastOf_mem head xs
  have hne : lastOf head xs ≠ node := fun he => hn (he ▸ hlast)
  unfold addTail
  rw [hloop]
  dsimp only
  rw [Function.update_of_ne hne, Function.update_idem]
  refine ⟨_, rfl, ?_, fun p hp => ?_⟩
  · have h' : Ring next head (xs ++ []) := by rwa [List.append_nil]
    exact h'.insert (by rwa [List.append_nil])
  · obtain ⟨hp1, hp2⟩ := List.ne_and_not_mem_of_not_mem_cons hp
    have hpl : p ≠ lastOf head xs := fun he => hp2 (he ▸ hlast)
    rw [Function.update_of_ne hpl, Function.update_of_ne hp1]

/-- A node of the list is taken out and linked to itself. -/
theorem delNode_ring (h : Ring next head (xs ++ node :: ys)) (hf : xs.length < fuel) :
    ∃ next', delNode fuel head node next = some next' ∧ Ring next' head (xs ++ ys) ∧ next' node = node ∧
      ∀ p, p ∉ head :: (xs ++ node :: ys) → next' p = next p := by
  obtain ⟨hhead, hnd⟩ := List.nodup_cons.mp h.nodup
  have hnode : node ∉ xs := fun hm => (List.nodup_append.mp hnd).2.2 node hm node List.mem_cons_self rfl
  have hne : node ≠ head := fun he => hhead (he ▸ List.mem_append_right xs List.mem_cons_self)
  have hxs : ∀ y ∈ xs, y ≠ node ∧ y ≠ head := fun y hy =>
    ⟨fun he => hnode (he ▸ hy), fun he => hhead (he ▸ List.mem_append_left _ hy)⟩
  unfold delNode
  rw [findLoop_ends (.inl rfl) (Links.append.mp h.links).1 hxs hf]
  dsimp only
  rw [if_neg hne]
  refine ⟨_, rfl, h.remove, Function.update_self .., fun p hp => ?_⟩
  have hpn : p ≠ node := fun he => hp (he ▸ List.mem_cons_of_mem _ (List.mem_append_right xs List.mem_cons_self))
  have hpl : p ≠ lastOf head xs := fun he => hp (he ▸ List.mem_append_left (node :: ys) (lastOf_mem head xs))
  rw [Function.update_of_ne hpn, Function.update_of_ne hpl]

/-- A node that is not in the list, and the head itself, are not found. -/
theorem delNode_absent (h : Ring next head xs) (hn : node ∉ xs) (hf : xs.length < fuel) :
    delNode fuel head node next = some next := by
  have hxs : ∀ y ∈ xs, y ≠ node ∧ y ≠ head := fun y hy => ⟨fun he => hn (he ▸ hy), fun he => h.head_notMem (he ▸ hy)⟩
  unfold delNode
  rw [findLoop_ends (.inr rfl) h.links hxs hf]
  exact if_pos rfl

/-- **One call.** -/
theorem call_refines (h : Ring next head xs) (op : Op P) (hal : op.Allowed head xs) (hf : xs.length < fuel) :
    ∃ out next', op.call fuel head next = some (out, next') ∧ Refines head xs op next out next' := by
  cases op with
  | initNode node =>
    exact ⟨_, _, rfl, h.update hal, rfl, Function.update_self .., fun p hp => Function.update_of_ne hp ..⟩
  | addHead node =>
    refine ⟨_, _, rfl, addHead_ring h hal, rfl, fun p hp => ?_⟩
    obtain ⟨hp1, hp2⟩ := List.ne_and_not_mem_of_not_mem_cons hp
    have hph : p ≠ head := fun he => hp2 (he ▸ List.mem_cons_self)
    unfold Sllist.addHead
    rw [Function.update_of_ne hph, Function.update_of_ne hp1, Function.update_of_ne hp1]
  | addTail node =>
    obtain ⟨next', hcall, hring, hout⟩ := addTail_ring h hal hf
    exact ⟨[], next', by rw [Op.call, hcall]; rfl, hring, rfl, hout⟩
  | delNode node =>
    by_cases hn : node ∈ xs
    · obtain ⟨ys, zs, rfl⟩ := List.append_of_mem hn
      have hnys : node ∉ ys := fun hm =>
        (List.nodup_append.mp (List.nodup_cons.mp h.nodup).2).2.2 node hm node List.mem_cons_self rfl
      obtain ⟨next', hcall, hring, hself, hout⟩ := delNode_ring h (show ys.length < fuel by
        rw [List.length_append] at hf
        omega)
      refine ⟨[], next', by rw [Op.call, hcall]; rfl, ?_, rfl, ?_⟩
      · rw [Op.after, List.erase_append_right _ hnys, List.erase_cons_head]
        exact hring
      · rw [Op.Writes, if_pos hn]
        exact ⟨hself, hout⟩
    · refine ⟨[], next, by rw [Op.call, delNode_absent h hn hf]; rfl, ?_, rfl, ?_⟩
      · rw [Op.after, List.erase_of_not_mem hn]
        exact h
      · rw [Op.Writes, if_neg hn]
  | printList =>
    refine ⟨xs, next, ?_, h, rfl, rfl⟩
    rw [Op.call, printList, printLoop_ends h.links h.head_notMem hf]
    rfl

/-- More rounds change nothing. -/
theorem call_mono {m n : ℕ} {op : Op P} {r : List P × Heap P} (h : op.call m head next = some r) (hmn : m ≤ n) :
    op.call n head next = some r := by
  cases op with
  | initNode node => exact h
  | addHead node => exact h
  | addTail node =>
    rw [Op.call, Option.map_eq_some_iff] at h ⊢
    obtain ⟨next', hcall, rfl⟩ := h
    refine ⟨next', ?_, rfl⟩
    unfold addTail at hcall ⊢
    split at hcall
    · cases hcall
    · rename_i p hp
      rw [whileLoop_mono hp hmn]
      exact hcall
  | delNode node =>
    rw [Op.call, Option.map_eq_some_iff] at h ⊢
    obtain ⟨next', hcall, rfl⟩ := h
    refine ⟨next', ?_, rfl⟩
    unfold delNode at hcall ⊢
    split at hcall
    · cases hcall
    · rename_i p n hp
      rw [whileLoop_mono hp hmn]
      exact hcall
  | printList =>
    rw [Op.call, Option.map_eq_some_iff] at h ⊢
    obtain ⟨out, hcall, rfl⟩ := h
    refine ⟨out, ?_, rfl⟩
    unfold printList at hcall ⊢
    rw [Option.map_eq_some_iff] at hcall ⊢
    obtain ⟨x, hx, rfl⟩ := hcall
    exact ⟨x, whileLoop_mono hx hmn, rfl⟩

/-! ## Runs -/

/-- The call is allowed: its node is not currently in the list, where that is asked for. -/
def Admits (head : P) (next : Heap P) (op : Op P) : Prop := ∀ xs, Ring next head xs → op.Allowed head xs

/-- The sequence after the calls of a trace. -/
def seqAfter (xs : List P) (tr : List (Ev (Heap P) (Op P) (List P))) : List P := tr.foldl (fun xs e => e.act.after xs) xs

theorem step_refines (h : Ring next head xs) {op : Op P} (hal : op.Allowed head xs) (hs : Step head next op out next') :
    Refines head xs op next out next' := by
  obtain ⟨fuel, hcall⟩ := hs
  obtain ⟨out', next'', hcall', hr⟩ := call_refines h op hal (show xs.length < max fuel (xs.length + 1) by omega)
  rw [call_mono hcall (Nat.le_max_left _ _)] at hcall'
  obtain ⟨rfl, rfl⟩ := Prod.mk.inj (Option.some.inj hcall')
  exact hr

theorem run_ring {s t : Heap P} {tr : List (Ev (Heap P) (Op P) (List P))} (h : Ring s head xs)
    (hrun : Run (Step head) (Admits head) s tr t) : Ring t head (seqAfter xs tr) := by
  induction hrun with
  | nil => exact h
  | snoc _ hok hst ih =>
    rw [seqAfter, List.foldl_append]
    exact (step_refines ih (hok _ ih) hst).ring

omit [DecidableEq P] in
theorem admits_of_ring (h : Ring next head xs) {op : Op P} (hal : op.Allowed head xs) : Admits head next op :=
  fun _ h' => h'.unique h ▸ hal

/-- Each call is allowed after those before it. -/
def AllowedAll (head : P) : List P → List (Op P) → Prop
  | _, [] => True
  | xs, op :: ops => op.Allowed head xs ∧ AllowedAll head (op.after xs) ops

/-- Every allowed sequence of calls can be carried out. -/
theorem exists_run : ∀ {ops : List (Op P)} {xs : List P} {s : Heap P}, Ring s head xs → AllowedAll head xs ops →
    ∃ tr t, Run (Step head) (Admits head) s tr t ∧ tr.map Ev.act = ops
  | [], xs, s, _, _ => ⟨[], s, .nil, rfl⟩
  | op :: ops, xs, s, h, hal => by
    obtain ⟨out, t, hcall, hr⟩ := call_refines h op hal.1 (Nat.lt_succ_self _)
    obtain ⟨tr, u, hrun, hacts⟩ := exists_run hr.ring hal.2
    have hfirst : Run (Step head) (Admits head) s [⟨s, op, out, t⟩] t := Run.snoc .nil (admits_of_ring h hal.1) ⟨_, hcall⟩
    exact ⟨_, u, hfirst.append hrun, by rw [List.map_append, hacts]; rfl⟩

/-- **The list refines a sequence.**  In every run of calls from a heap with a ring through `head`, every call refines its operation on
the sequence that the calls before it have built, and after the run every allowed call returns. -/
theorem sllist_refines {s t : Heap P} {tr : List (Ev (Heap P) (Op P) (List P))} (h : Ring s head xs)
    (hrun : Run (Step head) (Admits head) s tr t) :
    (∀ tr1 e tr2, tr = tr1 ++ e :: tr2 → Refines head (seqAfter xs tr1) e.act e.pre e.out e.post) ∧
    Ring t head (seqAfter xs tr) ∧
    ∀ op, Admits head t op → ∀ fuel, (seqAfter xs tr).length < fuel → ∃ out t', op.call fuel head t = some (out, t') := by
  have hring := run_ring h hrun
  refine ⟨?_, hring, fun op hok fuel hf => ?_⟩
  · rintro tr1 e tr2 rfl
    obtain ⟨h1, hok, hst, -⟩ := hrun.split
    have hpre := run_ring h h1
    exact step_refines hpre (hok _ hpre) hst
  · obtain ⟨out, t', hcall, -⟩ := call_refines hring op (hok _ hring) hf
    exact ⟨out, t', hcall⟩

/-- From the empty list: two nodes put in, one of them taken out, and the list printed. -/
theorem sllist_refines_three : ∃ tr t, Run (Step 0) (Admits 0) id tr t ∧
    tr.map Ev.act = [.addTail 7, .addHead 3, .delNode 7, .printList] ∧ Ring t 0 [3] := by
  have h0 : Ring id 0 [] := ⟨rfl, by decide⟩
  obtain ⟨tr, t, hrun, hacts⟩ := @exists_run _ _ 0 [.addTail 7, .addHead 3, .delNode 7, .printList] [] id h0
    ⟨by simp [Op.Allowed], by simp [Op.Allowed, Op.after], trivial, trivial, trivial⟩
  have hseq : seqAfter [] tr = [3] := by
    have hfold : seqAfter [] tr = (tr.map Ev.act).foldl (fun xs op => op.after xs) [] := by rw [List.foldl_map]; rfl
    rw [hfold, hacts]
    rfl
  exact ⟨tr, t, hrun, hacts, hseq ▸ (sllist_refines h0 hrun).2.1⟩

end OsLabs.Debug.Sllist
