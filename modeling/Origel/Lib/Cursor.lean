import Mathlib.Logic.Basic

/-! Iterators: what a loop over one sees, and when the loop comes to an end. -/
namespace Origel.Lib

variable {σ α : Type*} (next : σ → Option (α × σ))

/-- The items that a loop takes until there is none; none where the rounds do not suffice. -/
def drain : Nat → σ → Option (List α)
  | 0, _ => none
  | fuel + 1, s =>
    match next s with
    | none => some []
    | some (a, s') => (drain fuel s').map (a :: ·)

/-- A loop over the iterator ends. -/
def Drains (s : σ) : Prop := ∃ fuel items, drain next fuel s = some items

/-- The states that a loop from `s` leads through. -/
inductive Visits (s : σ) : σ → Prop
  | here : Visits s s
  | next {t t' : σ} {a : α} (h : Visits s t) (ht : next t = some (a, t')) : Visits s t'

variable {next} {s t : σ} {a : α}

theorem Visits.cons {s' : σ} (h : next s = some (a, s')) (ht : Visits next s' t) : Visits next s t := by
  induction ht with
  | here => exact .next .here h
  | next _ hnext ih => exact .next ih hnext

theorem drains_of_none (h : next s = none) : Drains next s := by
  refine ⟨1, [], ?_⟩
  rw [drain, h]

theorem drains_iff_of_some {s' : σ} (h : next s = some (a, s')) : Drains next s ↔ Drains next s' := by
  constructor
  · rintro ⟨fuel, items, hdrain⟩
    cases fuel with
    | zero => cases hdrain
    | succ fuel =>
      rw [drain, h] at hdrain
      obtain ⟨rest, hrest, -⟩ := Option.map_eq_some_iff.mp hdrain
      exact ⟨fuel, rest, hrest⟩
  · rintro ⟨fuel, items, hdrain⟩
    refine ⟨fuel + 1, a :: items, ?_⟩
    rw [drain, h]
    exact congrArg (Option.map (a :: ·)) hdrain

/-- A loop whose rounds all make something smaller ends. -/
theorem drains_of_decreasing (m : σ → Nat)
    (h : ∀ t a t', Visits next s t → next t = some (a, t') → m t' < m t) : Drains next s := by
  induction hm : m s using Nat.strongRecOn generalizing s with
  | ind n ih =>
    cases hnext : next s with
    | none => exact drains_of_none hnext
    | some r =>
      obtain ⟨a, s'⟩ := r
      rw [drains_iff_of_some hnext]
      have hlt := h s a s' .here hnext
      exact ih (m s') (hm ▸ hlt) (fun t a t' ht => h t a t' (.cons hnext ht)) rfl

theorem Visits.drains_iff (h : Visits next s t) : Drains next s ↔ Drains next t := by
  induction h with
  | here => rfl
  | next _ hnext ih => exact ih.trans (drains_iff_of_some hnext)

/-- A loop that comes to a round that changes nothing goes on for ever. -/
theorem not_drains_of_stuck (h : Visits next s t) (hstuck : next t = some (a, t)) :
    ¬Drains next s := by
  rw [h.drains_iff]
  rintro ⟨fuel, items, hdrain⟩
  induction fuel generalizing items with
  | zero => cases hdrain
  | succ fuel ih =>
    rw [drain, hstuck] at hdrain
    obtain ⟨rest, hrest, -⟩ := Option.map_eq_some_iff.mp hdrain
    exact ih rest hrest

end Origel.Lib
