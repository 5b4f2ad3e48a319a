import OsLabs.Monitor

/-!
# OsLabs.Rank — monitor programs whose runs end

A rank on the places of a program that every instruction lowers bounds the length of its runs.  Loops around a wait need care: a
thread that wakes up goes back to a place of higher rank.  Whoever wakes sleepers has to pay for the round that they may make, so a
signal and a broadcast must lower the rank by more than the others.  Only a wakeup without a signal is paid by nobody.

* `Ranked`: what the rank must do at one instruction.
* `potential`: the sum of the ranks, with a bonus for threads that do not sleep; `potential_step`: what a step does to it.
* `length_le`: the length of a run is bounded by the potential at its start and its number of spurious wakeups.
-/

namespace OsLabs.Monitor

open Lts

variable {τ σ κ lo : Type} [Fintype τ] {P : τ → lo → Instr σ κ lo} {s s' : St τ σ κ lo} {i : τ}

/-- What the rank `r` of a thread must do at the instruction at `l`.  The thread gets `D` when it is woken, and `C c` is what
waking somebody who sleeps on `c` costs. -/
def Ranked (τ : Type) [Fintype τ] (r : lo → ℕ) (D : ℕ) (C : κ → ℕ) : Instr σ κ lo → lo → Prop
  | .lock n, l => r n < r l
  | .unlock n, l => r n < r l
  | .wait _ n, l => r n < r l + D
  | .signal c n, l => r n + C c < r l
  | .broadcast c n, l => r n + Fintype.card τ * C c < r l
  | .run f, l => ∀ x, r (f x).2 < r l
  | .halt, _ => True

/-- The bonus of a thread that does not sleep. -/
def Mode.bonus (D : ℕ) : Mode κ → ℕ
  | .awake => D
  | .woken => D + 1
  | .asleep _ => 0

def potential (r : τ → lo → ℕ) (D : τ → ℕ) (s : St τ σ κ lo) : ℕ := ∑ i, (r i (s.loc i) + (s.mode i).bonus (D i))

def Act.isSpurious : Act τ → Bool
  | .spurious _ => true
  | _ => false

section

variable {r : τ → lo → ℕ} {D : τ → ℕ} {C : κ → ℕ}

/-- A thread moves. -/
theorem potential_goto [DecidableEq τ] (s : St τ σ κ lo) (i : τ) (n : lo) :
    potential r D (s.goto i n) + r i (s.loc i) = potential r D s + r i n := by
  have h := Tally.sum_write (f := fun j => r j (s.loc j) + (s.mode j).bonus (D j))
    (g := fun j => r j ((s.goto i n).loc j) + (s.mode j).bonus (D j)) (i := i)
    fun j hj => by rw [St.goto_loc_of_ne s n hj]
  rw [St.goto_loc_self] at h
  have hs : potential r D (s.goto i n) = ∑ j, (r j ((s.goto i n).loc j) + (s.mode j).bonus (D j)) := rfl
  have hs' : potential r D s = ∑ j, (r j (s.loc j) + (s.mode j).bonus (D j)) := rfl
  omega

/-- A thread falls asleep or wakes up. -/
theorem potential_setMode [DecidableEq τ] (s : St τ σ κ lo) (i : τ) (m : Mode κ) :
    potential r D (s.setMode i m) + (s.mode i).bonus (D i) = potential r D s + m.bonus (D i) := by
  have h := Tally.sum_write (f := fun j => r j (s.loc j) + (s.mode j).bonus (D j))
    (g := fun j => r j (s.loc j) + ((s.setMode i m).mode j).bonus (D j)) (i := i)
    fun j hj => by rw [St.setMode_mode_apply, if_neg hj]
  rw [St.setMode_mode_self] at h
  have hs : potential r D (s.setMode i m) = ∑ j, (r j (s.loc j) + ((s.setMode i m).mode j).bonus (D j)) := rfl
  have hs' : potential r D s = ∑ j, (r j (s.loc j) + (s.mode j).bonus (D j)) := rfl
  omega

/-- Any number of threads wake up. -/
theorem potential_wakeAll [DecidableEq κ] {s : St τ σ κ lo} {c : κ} (hC : ∀ j, s.mode j = .asleep c → D j + 1 ≤ C c) :
    potential r D (s.wakeAll c) ≤ potential r D s + Fintype.card τ * C c := by
  have hle : ∀ j ∈ Finset.univ, r j (s.loc j) + ((s.wakeAll c).mode j).bonus (D j) ≤
      (r j (s.loc j) + (s.mode j).bonus (D j)) + C c := by
    intro j _
    rw [St.wakeAll_mode]
    split_ifs with hj
    · have := hC j hj
      simp only [Mode.bonus]
      omega
    · omega
  calc potential r D (s.wakeAll c) = ∑ j, (r j (s.loc j) + ((s.wakeAll c).mode j).bonus (D j)) := rfl
    _ ≤ ∑ j, ((r j (s.loc j) + (s.mode j).bonus (D j)) + C c) := Finset.sum_le_sum hle
    _ = potential r D s + Fintype.card τ * C c := by
        rw [Finset.sum_add_distrib, Finset.sum_const, smul_eq_mul, Finset.card_univ]
        rfl

/-- An instruction lowers the potential. -/
theorem potential_exec [DecidableEq τ] [DecidableEq κ] (hm : s.mode i = .awake)
    (hr : Ranked τ (r i) (D i) C (P i (s.loc i)) (s.loc i)) (hC : ∀ j c, s.mode j = .asleep c → D j + 1 ≤ C c)
    (he : Effect s i (P i (s.loc i)) s') : potential r D s' < potential r D s := by
  have hgo := fun n => potential_goto (r := r) (D := D) s i n
  cases hi : P i (s.loc i) with
  | lock n =>
    rw [hi] at he hr
    have hr : r i n < r i (s.loc i) := hr
    obtain ⟨-, rfl⟩ := he
    show potential r D (s.goto i n) < _
    have := hgo n
    omega
  | unlock n =>
    rw [hi] at he hr
    have hr : r i n < r i (s.loc i) := hr
    obtain ⟨-, rfl⟩ := he
    show potential r D (s.goto i n) < _
    have := hgo n
    omega
  | wait c n =>
    rw [hi] at he hr
    have hr : r i n < r i (s.loc i) + D i := hr
    obtain ⟨-, rfl⟩ := he
    show potential r D ((s.goto i n).setMode i (.asleep c)) < _
    have h1 := hgo n
    have h2 := potential_setMode (r := r) (D := D) (s.goto i n) i (.asleep c)
    rw [St.goto_mode, hm] at h2
    simp only [Mode.bonus] at h2
    omega
  | signal c n =>
    rw [hi] at he hr
    have hr : r i n + C c < r i (s.loc i) := hr
    rcases he with ⟨-, rfl⟩ | ⟨k, hk, rfl⟩
    · have := hgo n
      omega
    · -- the signalling thread pays for the one that wakes up
      have h1 := potential_goto (r := r) (D := D) (s.setMode k .woken) i n
      have h2 := potential_setMode (r := r) (D := D) s k .woken
      rw [St.setMode_loc] at h1
      have h3 := hC k c hk
      rw [hk] at h2
      simp only [Mode.bonus] at h2
      omega
  | broadcast c n =>
    rw [hi] at he hr
    have hr : r i n + Fintype.card τ * C c < r i (s.loc i) := hr
    obtain rfl := he
    have h1 := potential_goto (r := r) (D := D) (s.wakeAll c) i n
    have h2 := potential_wakeAll (r := r) fun j hj => hC j c hj
    rw [St.wakeAll_loc] at h1
    omega
  | run f =>
    rw [hi] at he hr
    have hr : r i (f s.shared).2 < r i (s.loc i) := hr s.shared
    obtain rfl := he
    show potential r D (s.goto i (f s.shared).2) < _
    have := hgo (f s.shared).2
    omega
  | halt =>
    rw [hi] at he
    cases he

/-- **Step lemma.**  Every step but a spurious wakeup lowers the potential, and that one raises it by a constant. -/
theorem potential_step [DecidableEq τ] [DecidableEq κ] {a : Act τ} {M : ℕ}
    (hr : ∀ i, Ranked τ (r i) (D i) C (P i (s.loc i)) (s.loc i)) (hC : ∀ j c, s.mode j = .asleep c → D j + 1 ≤ C c)
    (hM : ∀ j, D j + 1 ≤ M) (hs : StepRes P s a s') :
    potential r D s' + 1 ≤ potential r D s + if a.isSpurious then M + 1 else 0 := by
  cases hs with
  | @exec i a s' ha hm he =>
    have := potential_exec hm (hr i) hC he
    omega
  | @spurious j c hj =>
    have h1 := potential_setMode (r := r) (D := D) s j .woken
    have hsp : (Act.spurious j).isSpurious = true := rfl
    have h2 := hM j
    rw [hj] at h1
    simp only [Mode.bonus] at h1
    rw [if_pos hsp]
    omega
  | @relock j hj hx =>
    have h1 := potential_setMode (r := r) (D := D) s j .awake
    rw [hj] at h1
    simp only [Mode.bonus] at h1
    show potential r D (s.setMode j .awake) + 1 ≤ _
    omega

end

/-- **Run lemma.**  A run has at most as many steps as its start has potential, and `M + 1` more for each spurious wakeup. -/
theorem length_le [DecidableEq τ] [DecidableEq κ] {r : τ → lo → ℕ} {D : τ → ℕ} {C : κ → ℕ} {M : ℕ}
    {ok : St τ σ κ lo → Act τ → Prop} {I : St τ σ κ lo → Prop} {tr : List (Ev (St τ σ κ lo) (Act τ) Unit)}
    {t : St τ σ κ lo} (h : Run (Step P) ok s tr t) (h0 : I s) (hI : ∀ s a s', I s → ok s a → StepRes P s a s' → I s')
    (hr : ∀ s, I s → ∀ i, Ranked τ (r i) (D i) C (P i (s.loc i)) (s.loc i))
    (hC : ∀ s, I s → ∀ j c, s.mode j = .asleep c → D j + 1 ≤ C c) (hM : ∀ j, D j + 1 ≤ M) :
    tr.length + potential r D t ≤ potential r D s + (M + 1) * tr.countP fun e => e.act.isSpurious := by
  induction h with
  | nil => simp
  | @snoc tr t u a o h hok hst ih =>
    have hIt : I t := h.inv h0 fun x a o y hx hok hst => hI x a y hx hok (next_inv hst)
    have hstep := potential_step (hr t hIt) (hC t hIt) hM (next_inv hst)
    rw [List.length_append, List.countP_append, List.countP_singleton, List.length_singleton, Nat.mul_add]
    by_cases ha : a.isSpurious = true
    · rw [if_pos ha] at hstep ⊢
      omega
    · rw [if_neg ha] at hstep ⊢
      omega

end OsLabs.Monitor
