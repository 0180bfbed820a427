import Mathlib.Data.List.Basic

/-! Paths as lists: the segments between separators, and what steps up and down a tree come to. -/
namespace Origel.Lib

variable {α β : Type*} [DecidableEq α] [DecidableEq β] {sep : α} {as bs s : List α} {ss : List (List α)}

/-- The parts between separators, the empty ones too -/
def segments (sep : α) : List α → List (List α)
  | [] => [[]]
  | a :: as =>
    if a = sep then [] :: segments sep as
    else
      match segments sep as with
      | [] => [[a]]
      | s :: ss => (a :: s) :: ss

theorem segments_cons_sep (as : List α) : segments sep (sep :: as) = [] :: segments sep as := if_pos rfl

theorem segments_cons {a : α} (ha : a ≠ sep) (h : segments sep as = s :: ss) :
    segments sep (a :: as) = (a :: s) :: ss := by
  rw [segments, if_neg ha, h]

theorem segments_exists (sep : α) (as : List α) : ∃ s ss, segments sep as = s :: ss := by
  induction as with
  | nil => exact ⟨[], [], rfl⟩
  | cons a as ih =>
    by_cases ha : a = sep
    · rw [ha, segments_cons_sep]
      exact ⟨[], _, rfl⟩
    · obtain ⟨s, ss, h⟩ := ih
      exact ⟨a :: s, ss, segments_cons ha h⟩

theorem segments_append_sep (as bs : List α) :
    segments sep (as ++ sep :: bs) = segments sep as ++ segments sep bs := by
  induction as with
  | nil => exact segments_cons_sep bs
  | cons a as ih =>
    rw [List.cons_append]
    by_cases ha : a = sep
    · rw [ha, segments_cons_sep, segments_cons_sep, ih, List.cons_append]
    · obtain ⟨s, ss, h⟩ := segments_exists sep as
      rw [segments_cons ha h, segments_cons ha (by rw [ih, h, List.cons_append]), List.cons_append]

/-- What has no separator becomes part of the first segment. -/
theorem segments_append (has : sep ∉ as) (h : segments sep bs = s :: ss) :
    segments sep (as ++ bs) = (as ++ s) :: ss := by
  induction as with
  | nil => exact h
  | cons a as ih =>
    rw [List.mem_cons, not_or] at has
    exact segments_cons (Ne.symm has.1) (ih has.2)

/-- Goes down to a child, or up to the parent where there is one. -/
def walk (up : β) (place : List β) (c : β) : List β :=
  if c = up then place.dropLast else place ++ [c]

/-- The same without a place to start from: so many steps up, and then down. -/
def climb (up : β) (way : Nat × List β) (c : β) : Nat × List β :=
  if c = up then if way.2 = [] then (way.1 + 1, []) else (way.1, way.2.dropLast)
  else (way.1, way.2 ++ [c])

/-- Where a way leads from a place -/
def goTo (place : List β) (way : Nat × List β) : List β := place.take (place.length - way.1) ++ way.2

theorem walk_goTo (up : β) (place : List β) (way : Nat × List β) (c : β) :
    walk up (goTo place way) c = goTo place (climb up way c) := by
  obtain ⟨ups, downs⟩ := way
  rw [walk, climb]
  by_cases hc : c = up
  · rw [if_pos hc, if_pos hc]
    by_cases hdowns : downs = []
    · subst hdowns
      rw [if_pos rfl, goTo, goTo, List.append_nil, List.append_nil, List.dropLast_eq_take, List.take_take,
        List.length_take]
      congr 1
      dsimp only
      omega
    · rw [if_neg hdowns, goTo, goTo, List.dropLast_append_of_ne_nil hdowns]
  · rw [if_neg hc, if_neg hc, goTo, goTo, List.append_assoc]

theorem foldl_walk (up : β) (place : List β) (way : Nat × List β) (cs : List β) :
    cs.foldl (walk up) (goTo place way) = goTo place (cs.foldl (climb up) way) := by
  induction cs generalizing way with
  | nil => rfl
  | cons c cs ih => rw [List.foldl_cons, List.foldl_cons, walk_goTo, ih]

omit [DecidableEq β] in
/-- A walk ends below its start exactly if it comes back to it after the steps up. -/
theorem prefix_goTo_iff (place : List β) (way : Nat × List β) :
    place <+: goTo place way ↔ place.drop (place.length - way.1) <+: way.2 := by
  rw [goTo]
  nth_rewrite 1 [← List.take_append_drop (place.length - way.1) place]
  exact List.prefix_append_right_inj _

end Origel.Lib
