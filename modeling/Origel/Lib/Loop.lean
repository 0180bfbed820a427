import Mathlib.Logic.Relation

/-! Loops whose rounds end or go on: what a loop gives, and when it goes on for ever. -/
namespace Origel.Lib

open Relation

variable {σ β : Type*} (step : σ → β ⊕ σ)

/-- So many rounds of the loop; none where they do not suffice. -/
def loop : Nat → σ → Option β
  | 0, _ => none
  | fuel + 1, s =>
    match step s with
    | .inl b => some b
    | .inr s' => loop fuel s'

/-- With enough rounds the loop gives a result. -/
def Yields (s : σ) (b : β) : Prop := ∃ fuel, loop step fuel s = some b

/-- A round that goes on with another state. -/
def Again (s s' : σ) : Prop := step s = .inr s'

variable {step} {s s' : σ} {b b' : β} {fuel : Nat}

theorem loop_of_again (h : Again step s s') : loop step (fuel + 1) s = loop step fuel s' := by
  rw [loop, h]

theorem yields_iff_of_end (h : step s = .inl b) : Yields step s b' ↔ b' = b := by
  constructor
  · rintro ⟨fuel, hloop⟩
    cases fuel with
    | zero => cases hloop
    | succ fuel =>
      rw [loop, h] at hloop
      cases hloop
      rfl
  · rintro rfl
    refine ⟨1, ?_⟩
    rw [loop, h]

theorem yields_iff_of_again (h : Again step s s') : Yields step s b ↔ Yields step s' b := by
  constructor
  · rintro ⟨fuel, hloop⟩
    cases fuel with
    | zero => cases hloop
    | succ fuel => exact ⟨fuel, loop_of_again h ▸ hloop⟩
  · rintro ⟨fuel, hloop⟩
    exact ⟨fuel + 1, (loop_of_again h).trans hloop⟩

theorem yields_congr (h : step s = step s') : Yields step s b ↔ Yields step s' b := by
  have hloop : ∀ fuel, loop step fuel s = loop step fuel s' := by
    intro fuel
    cases fuel with
    | zero => rfl
    | succ fuel => rw [loop, loop, h]
  exact exists_congr fun fuel => by rw [hloop fuel]

/-- What a loop gives is what it gives from any state that it comes to. -/
theorem yields_iff (h : ReflTransGen (Again step) s s') : Yields step s b ↔ Yields step s' b := by
  induction h with
  | refl => rfl
  | tail _ hagain ih => exact ih.trans (yields_iff_of_again hagain)

theorem loop_of_trans (h : TransGen (Again step) s s') (hloop : loop step fuel s = some b) :
    ∃ fuel' < fuel, loop step fuel' s' = some b := by
  induction h with
  | single hagain =>
    cases fuel with
    | zero => cases hloop
    | succ fuel => exact ⟨fuel, Nat.lt_succ_self _, loop_of_again hagain ▸ hloop⟩
  | tail _ hagain ih =>
    obtain ⟨fuel', hlt, hloop'⟩ := ih
    cases fuel' with
    | zero => cases hloop'
    | succ fuel' => exact ⟨fuel', by omega, loop_of_again hagain ▸ hloop'⟩

/-- A loop that comes back to a state gives nothing from it. -/
theorem not_yields_of_cycle (h : TransGen (Again step) s s) : ¬Yields step s b := by
  rintro ⟨fuel, hloop⟩
  induction fuel using Nat.strongRecOn with
  | ind fuel ih =>
    obtain ⟨fuel', hlt, hloop'⟩ := loop_of_trans h hloop
    exact ih fuel' hlt hloop'

end Origel.Lib
