import Mathlib.Data.List.Induction

/-! Trees whose nodes lie in a memory: each path from the root leads to a node of its own, and stays
there while others are written or new ones are grafted. -/
namespace Origel.Lib

variable {F ι : Type*} {next next' : F → ι → Option F} {root f g new : F} {i j : ι} {π ρ σ : List ι}
  {P : List ι → Prop}

/-- The node at the end of a path. -/
def follow (next : F → ι → Option F) : F → List ι → Option F
  | f, [] => some f
  | f, i :: π => (next f i).bind fun g => follow next g π

theorem follow_append (next : F → ι → Option F) (f : F) (ρ π : List ι) :
    follow next f (ρ ++ π) = (follow next f ρ).bind fun g => follow next g π := by
  induction ρ generalizing f with
  | nil => rfl
  | cons i ρ ih => simp only [List.cons_append, follow, ih, Option.bind_assoc]

theorem follow_snoc (next : F → ι → Option F) (f : F) (ρ : List ι) (i : ι) :
    follow next f (ρ ++ [i]) = (follow next f ρ).bind fun g => next g i := by
  simp [follow_append, follow]

/-- Different paths of a kind lead to different nodes. -/
def Separate (next : F → ι → Option F) (root : F) (P : List ι → Prop) : Prop :=
  ∀ π ρ f, P π → P ρ → follow next root π = some f → follow next root ρ = some f → π = ρ

/-- A path stays where the nodes that it passes have the same links. -/
theorem follow_congr
    (h : ∀ ρ i σ g, π = ρ ++ i :: σ → follow next root ρ = some g → next' g i = next g i) :
    follow next' root π = follow next root π := by
  induction π using List.reverseRecOn with
  | nil => rfl
  | append_singleton π i ih =>
    have hpath : follow next' root π = follow next root π := by
      apply ih
      intro ρ j σ g hπ hg
      apply h ρ j (σ ++ [i]) g ?_ hg
      simp [hπ]
    rw [follow_snoc, follow_snoc, hpath]
    cases hf : follow next root π with
    | none => rfl
    | some f => exact h π i [] f rfl hf

/-- A new node hangs where there was none. -/
structure Graft (next next' : F → ι → Option F) (g : F) (i : ι) (new : F) : Prop where
  absent : next g i = none
  link : next' g i = some new
  bare : ∀ j, next' new j = none
  other : ∀ f j, f ≠ new → (f = g → j ≠ i) → next' f j = next f j

theorem Graft.follow (h : Graft next next' g i new) (hsep : Separate next root P)
    (hclosed : ∀ π i, P (π ++ [i]) → P π) (hnew : ∀ π, P π → follow next root π ≠ some new)
    (hρ : P ρ) (hg : follow next root ρ = some g) (hπ : P π) [DecidableEq (List ι)] :
    follow next' root π = if π = ρ ++ [i] then some new else follow next root π := by
  induction π using List.reverseRecOn with
  | nil => simp [Lib.follow]
  | append_singleton π j ih =>
    have hP := hclosed π j hπ
    rw [follow_snoc, follow_snoc, ih hP]
    by_cases hend : π = ρ ++ [i]
    · -- past the new node there is nothing, before and after
      subst hend
      have hne : ρ ++ [i] ++ [j] ≠ ρ ++ [i] := by
        intro heq
        have := congrArg List.length heq
        simp at this
      rw [if_pos rfl, if_neg hne, follow_snoc, hg]
      simp [h.bare, h.absent]
    · rw [if_neg hend]
      cases hf : Lib.follow next root π with
      | none =>
        have hne : π ++ [j] ≠ ρ ++ [i] := by
          intro heq
          rw [(List.append_inj' heq rfl).1, hg] at hf
          cases hf
        rw [if_neg hne]
        rfl
      | some f =>
        have hfnew : f ≠ new := fun heq => hnew π hP (heq ▸ hf)
        by_cases hat : f = g ∧ j = i
        · obtain ⟨rfl, rfl⟩ := hat
          rw [if_pos (by rw [hsep π ρ f hP hρ hf hg])]
          exact h.link
        · have hne : π ++ [j] ≠ ρ ++ [i] := by
            intro heq
            obtain ⟨hπρ, hji⟩ := List.append_inj' heq rfl
            rw [hπρ, hg] at hf
            exact hat ⟨(Option.some.inj hf).symm, List.singleton_inj.mp hji⟩
          rw [if_neg hne]
          exact h.other f j hfnew fun hfg hji => hat ⟨hfg, hji⟩

/-- Paths stay apart when a new node is grafted. -/
theorem Graft.separate (h : Graft next next' g i new) (hsep : Separate next root P)
    (hclosed : ∀ π i, P (π ++ [i]) → P π) (hnew : ∀ π, P π → Lib.follow next root π ≠ some new)
    (hρ : P ρ) (hg : Lib.follow next root ρ = some g) : Separate next' root P := by
  classical
  intro π σ f hπ hσ hf hf'
  rw [h.follow hsep hclosed hnew hρ hg hπ] at hf
  rw [h.follow hsep hclosed hnew hρ hg hσ] at hf'
  by_cases hp : π = ρ ++ [i]
  · by_cases hs : σ = ρ ++ [i]
    · rw [hp, hs]
    · rw [if_pos hp] at hf
      rw [if_neg hs, ← hf] at hf'
      exact (hnew σ hσ hf').elim
  · rw [if_neg hp] at hf
    by_cases hs : σ = ρ ++ [i]
    · rw [if_pos hs] at hf'
      rw [← hf'] at hf
      exact (hnew π hπ hf).elim
    · rw [if_neg hs] at hf'
      exact hsep π σ f hπ hσ hf hf'

end Origel.Lib
