import Mathlib.Data.List.Basic

/-!
# OsLabs.Fallible — computations in `Except`

Inversion of sequencing and of monadic folds, for code that either returns or stops with an error.

* `bind_ok`: a sequence returns iff each of its parts does.
* `foldlM_inv`: what every step of a fold preserves holds at its end.
* `foldlM_total`: a fold whose steps all return does return.
* `foldlM_each`: a fold that visits each entry of a table once does to every entry what one step does.
* `Fails P x`: if `x` stops, it stops with an error in `P`.
* `Gives Q x`: if `x` returns, what it returns satisfies `Q`.
-/

namespace OsLabs.Fallible

variable {ε α β σ : Type}

/-- **Sequencing.**  A computation that may fail returns iff each of its parts does. -/
theorem bind_ok {x : Except ε α} {f : α → Except ε β} {b : β} :
    (x >>= f) = .ok b ↔ ∃ a, x = .ok a ∧ f a = .ok b := by
  cases x with
  | error e => simp [bind, Except.bind]
  | ok a => simp [bind, Except.bind]

theorem ok_bind (a : α) (f : α → Except ε β) : ((.ok a : Except ε α) >>= f) = f a := rfl

/-- A sequence stops with `e` iff one of its parts does. -/
theorem bind_error {x : Except ε α} {f : α → Except ε β} {e : ε} :
    (x >>= f) = .error e ↔ x = .error e ∨ ∃ a, x = .ok a ∧ f a = .error e := by
  cases x with
  | error e' => simp [bind, Except.bind]
  | ok a => simp [bind, Except.bind]

theorem pure_ok {a b : α} : (pure a : Except ε α) = .ok b ↔ a = b := by
  simp [pure, Except.pure]

/-- **Folds.**  An invariant of the steps holds at the end of the fold. -/
theorem foldlM_inv {f : σ → β → Except ε σ} {I : σ → Prop} (hf : ∀ s b s', I s → f s b = .ok s' → I s') :
    ∀ {l : List β} {s s' : σ}, I s → l.foldlM f s = .ok s' → I s'
  | [], s, s', hs, h => by
    rw [List.foldlM_nil, pure_ok] at h
    exact h ▸ hs
  | b :: l, s, s', hs, h => by
    rw [List.foldlM_cons, bind_ok] at h
    obtain ⟨t, h1, h2⟩ := h
    exact foldlM_inv hf (hf s b t hs h1) h2

/-- The steps of a fold over `l` may use that their element is in `l`. -/
theorem foldlM_total {f : σ → β → Except ε σ} {I : σ → Prop} :
    ∀ {l : List β} {s : σ}, I s → (∀ s, ∀ b ∈ l, I s → ∃ s', f s b = .ok s' ∧ I s') →
      ∃ s', l.foldlM f s = .ok s' ∧ I s'
  | [], s, hs, _ => ⟨s, by rw [List.foldlM_nil]; rfl, hs⟩
  | b :: l, s, hs, hf => by
    obtain ⟨t, h1, ht⟩ := hf s b (by simp) hs
    obtain ⟨s', h2, hs'⟩ := foldlM_total ht fun s b hb => hf s b (List.mem_cons_of_mem _ hb)
    exact ⟨s', by rw [List.foldlM_cons, bind_ok]; exact ⟨t, h1, h2⟩, hs'⟩

/-- **Folds over distinct indices.**  A step that changes its own entry only, and returns whenever that entry is good. -/
theorem foldlM_each_total {γ : Type} {f : σ → β → Except ε σ} (view : σ → β → γ) {G : β → γ → Prop}
    (hf : ∀ s b, G b (view s b) → ∃ s', f s b = .ok s' ∧ ∀ c, c ≠ b → view s' c = view s c) :
    ∀ {l : List β} {s : σ}, l.Nodup → (∀ b ∈ l, G b (view s b)) → ∃ t, l.foldlM f s = .ok t
  | [], s, _, _ => ⟨s, by rw [List.foldlM_nil]; rfl⟩
  | b :: l, s, hnd, hG => by
    obtain ⟨hb, hnd⟩ := List.nodup_cons.mp hnd
    obtain ⟨s', h1, hother⟩ := hf s b (hG b (by simp))
    obtain ⟨t, ht⟩ := foldlM_each_total view hf hnd fun c hc => by
      rw [hother c fun h => hb (h ▸ hc)]
      exact hG c (by simp [hc])
    exact ⟨t, by rw [List.foldlM_cons, h1]; exact ht⟩

/-- **A fold over the entries of a table.**  The step at `b` changes the entry `b` only; `R` says how, and later steps keep it. -/
theorem foldlM_each {γ : Type} {f : σ → β → Except ε σ} (view : σ → β → γ) {R : σ → β → γ → γ → Prop}
    (hstep : ∀ s b s', f s b = .ok s' → (∀ c, c ≠ b → view s' c = view s c) ∧ R s' b (view s b) (view s' b))
    (hkeep : ∀ s b s' c x y, f s b = .ok s' → R s c x y → R s' c x y) :
    ∀ {l : List β} {s t : σ}, l.Nodup → l.foldlM f s = .ok t →
      (∀ c, c ∉ l → view t c = view s c) ∧ ∀ c ∈ l, R t c (view s c) (view t c)
  | [], s, t, _, h => by
    rw [List.foldlM_nil, pure_ok] at h
    subst h
    exact ⟨fun _ _ => rfl, fun c hc => absurd hc List.not_mem_nil⟩
  | b :: l, s, t, hl, h => by
    rw [List.foldlM_cons, bind_ok] at h
    obtain ⟨u, h1, h2⟩ := h
    obtain ⟨hb, hl⟩ := List.nodup_cons.mp hl
    obtain ⟨hother, hself⟩ := hstep s b u h1
    obtain ⟨hout, hin⟩ := foldlM_each view hstep hkeep hl h2
    refine ⟨fun c hc => ?_, fun c hc => ?_⟩
    · rw [List.mem_cons, not_or] at hc
      rw [hout c hc.2, hother c hc.1]
    · rcases List.mem_cons.mp hc with rfl | hc
      · rw [hout c hb]
        exact foldlM_inv (I := fun s' => R s' c (view s c) (view u c)) (fun _ _ _ hR hf => hkeep _ _ _ _ _ _ hf hR) hself h2
      · have hne : c ≠ b := fun hcb => hb (hcb ▸ hc)
        rw [← hother c hne]
        exact hin c hc

/-! ## Which errors -/

/-- `x` returns, or stops with an error in `P`. -/
def Fails (P : ε → Prop) (x : Except ε α) : Prop := ∀ e, x = .error e → P e

namespace Fails

variable {P Q : ε → Prop} {x : Except ε α} {f : α → Except ε β}

theorem ok (a : α) : Fails P (.ok a : Except ε α) := fun _ h => by cases h

theorem error {e : ε} (h : P e) : Fails P (.error e : Except ε α) := fun _ h' => Except.error.inj h' ▸ h

/-- **Sequencing.**  The second part may use what the first returned. -/
theorem bind (hx : Fails P x) (hf : ∀ a, x = .ok a → Fails P (f a)) : Fails P (x >>= f) := by
  intro e h
  rw [bind_error] at h
  rcases h with h | ⟨a, ha, h⟩
  · exact hx e h
  · exact hf a ha e h

theorem mono (hx : Fails P x) (h : ∀ e, P e → Q e) : Fails Q x := fun e he => h e (hx e he)

/-- **Folds.**  An invariant of the steps that return makes every step fail in `P` only. -/
theorem foldlM {f : σ → β → Except ε σ} {I : σ → Prop} (hI : ∀ s b s', I s → f s b = .ok s' → I s')
    (hf : ∀ s b, I s → Fails P (f s b)) : ∀ {l : List β} {s : σ}, I s → Fails P (l.foldlM f s)
  | [], s, _ => by
    rw [List.foldlM_nil]
    exact ok s
  | b :: l, s, hs => by
    rw [List.foldlM_cons]
    exact bind (hf s b hs) fun t ht => foldlM hI hf (hI s b t hs ht)

end Fails

/-! ## What is returned -/

/-- `x` stops with an error, or returns something in `Q`. -/
def Gives (Q : α → Prop) (x : Except ε α) : Prop := ∀ a, x = .ok a → Q a

namespace Gives

variable {P : β → Prop} {Q : α → Prop} {x : Except ε α} {f : α → Except ε β}

theorem ok {a : α} (h : Q a) : Gives Q (.ok a : Except ε α) := fun _ h' => Except.ok.inj h' ▸ h

theorem error (e : ε) : Gives Q (.error e : Except ε α) := fun _ h => by cases h

/-- **Sequencing.**  The second part starts from what the first gives. -/
theorem bind (hx : Gives Q x) (hf : ∀ a, Q a → Gives P (f a)) : Gives P (x >>= f) := by
  intro b h
  obtain ⟨a, ha, h⟩ := bind_ok.mp h
  exact hf a (hx a ha) b h

theorem foldlM {f : σ → β → Except ε σ} {I : σ → Prop} (hf : ∀ s b, I s → Gives I (f s b)) {l : List β} {s : σ}
    (hs : I s) : Gives I (l.foldlM f s) :=
  fun _ h => foldlM_inv (fun s b s' hs h => hf s b hs s' h) hs h

end Gives

end OsLabs.Fallible
