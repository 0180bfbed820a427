import Mathlib.Logic.Basic

/-! Postconditions of computations that may fail and keep the state they have reached. -/
namespace Origel.Lib

variable {ε σ α β : Type} {x : EStateM ε σ α} {f : α → EStateM ε σ β} {s s' : σ} {a : α} {e : ε}
  {P Q : Except ε α → σ → Prop} {R : Except ε β → σ → Prop}

theorem bind_of_ok (h : x s = .ok a s') : (x >>= f) s = f a s' := by
  simp [Bind.bind, EStateM.bind, h]

theorem bind_of_error (h : x s = .error e s') : (x >>= f) s = .error e s' := by
  simp [Bind.bind, EStateM.bind, h]

/-- However `x` ends from `s`, `Q` holds of the outcome and the state. -/
def Ends (x : EStateM ε σ α) (s : σ) (Q : Except ε α → σ → Prop) : Prop :=
  (∀ a s', x s = .ok a s' → Q (.ok a) s') ∧ ∀ e s', x s = .error e s' → Q (.error e) s'

theorem ends_of_ok (h : x s = .ok a s') (hQ : Q (.ok a) s') : Ends x s Q := by
  refine ⟨fun b t hb => ?_, fun e t he => ?_⟩
  · rw [h] at hb
    cases hb
    exact hQ
  · rw [h] at he
    cases he

theorem ends_of_error (h : x s = .error e s') (hQ : Q (.error e) s') : Ends x s Q := by
  refine ⟨fun b t hb => ?_, fun e t he => ?_⟩
  · rw [h] at hb
    cases hb
  · rw [h] at he
    cases he
    exact hQ

theorem ends_pure (hQ : Q (.ok a) s) : Ends (pure a) s Q := ends_of_ok rfl hQ

theorem ends_throw (hQ : Q (.error e) s) : Ends (throw e : EStateM ε σ α) s Q :=
  ends_of_error rfl hQ

theorem Ends.mono (h : Ends x s P) (hPQ : ∀ r s', P r s' → Q r s') : Ends x s Q :=
  ⟨fun a s' ha => hPQ _ _ (h.1 a s' ha), fun e s' he => hPQ _ _ (h.2 e s' he)⟩

/-- The rest of a computation runs from where the first part ends, unless that fails. -/
theorem Ends.bind (h : Ends x s P) (hok : ∀ a s', P (.ok a) s' → Ends (f a) s' R)
    (herr : ∀ e s', P (.error e) s' → R (.error e) s') : Ends (x >>= f) s R := by
  cases hx : x s with
  | ok a s' =>
    have hb : (x >>= f) s = f a s' := bind_of_ok hx
    obtain ⟨h1, h2⟩ := hok a s' (h.1 a s' hx)
    exact ⟨fun b t hbt => h1 b t (hb ▸ hbt), fun e t het => h2 e t (hb ▸ het)⟩
  | error e s' => exact ends_of_error (bind_of_error hx) (herr e s' (h.2 e s' hx))

/-- A computation that leaves the state alone. -/
def Reads (x : EStateM ε σ α) : Prop := ∀ s, Ends x s fun _ s' => s' = s

theorem reads_pure (a : α) : Reads (pure a : EStateM ε σ α) := fun _ => ends_pure rfl

theorem reads_throw (e : ε) : Reads (throw e : EStateM ε σ α) := fun _ => ends_throw rfl

theorem reads_get : Reads (get : EStateM ε σ σ) := fun _ => ends_of_ok rfl rfl

theorem Reads.bind (h : Reads x) (hf : ∀ a, Reads (f a)) : Reads (x >>= f) := by
  intro s
  refine (h s).bind (fun a s' hs => ?_) fun e s' hs => hs
  subst hs
  exact hf a s'

theorem Reads.ok (h : Reads x) (hx : x s = .ok a s') : s' = s := (h s).1 a s' hx

theorem Reads.error (h : Reads x) (hx : x s = .error e s') : s' = s := (h s).2 e s' hx

end Origel.Lib
