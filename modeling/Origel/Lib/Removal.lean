import Mathlib.Algebra.GroupWithZero.Nat
import Mathlib.Algebra.Order.BigOperators.Group.List
import Mathlib.Algebra.Order.Group.Nat
import Mathlib.Data.List.Infix

/-! Removing all occurrences of a pattern from a list, from the left on. -/
namespace Origel.Lib

variable {α : Type*} [DecidableEq α] {pat as bs : List α} {fuel : Nat}

/-- The loop, with as many rounds as there may be -/
def removeFrom (pat : List α) : Nat → List α → List α
  | 0, as => as
  | _ + 1, [] => []
  | fuel + 1, a :: as =>
    if pat.isPrefixOf (a :: as) then removeFrom pat fuel ((a :: as).drop pat.length)
    else a :: removeFrom pat fuel as

def removeAll (pat as : List α) : List α := removeFrom pat as.length as

/-- More rounds than elements change nothing. -/
theorem removeFrom_eq (hp : pat ≠ []) (h : as.length ≤ fuel) : removeFrom pat fuel as = removeAll pat as := by
  have hpos := List.length_pos_of_ne_nil hp
  rw [removeAll]
  induction hn : as.length using Nat.strongRecOn generalizing as fuel with
  | ind n ih =>
    cases as with
    | nil =>
      cases hn
      cases fuel <;> rfl
    | cons a as =>
      obtain ⟨fuel, rfl⟩ : ∃ k, fuel = k + 1 := ⟨fuel - 1, by simp at h; omega⟩
      obtain ⟨n, rfl⟩ : ∃ k, n = k + 1 := ⟨n - 1, by simp at hn; omega⟩
      have hlen : as.length = n := by simpa using hn
      rw [removeFrom, removeFrom]
      by_cases hpre : pat.isPrefixOf (a :: as) = true
      · have hdrop : ((a :: as).drop pat.length).length ≤ n := by
          rw [List.length_drop, List.length_cons]
          omega
        have hdropfuel : ((a :: as).drop pat.length).length ≤ fuel := by
          simp only [List.length_cons] at h
          omega
        rw [if_pos hpre, if_pos hpre, ih _ (Nat.lt_succ_of_le hdrop) hdropfuel rfl,
          ← ih _ (Nat.lt_succ_of_le hdrop) hdrop rfl]
      · have hfuel : as.length ≤ fuel := by
          simp only [List.length_cons] at h
          omega
        rw [if_neg hpre, if_neg hpre, ih n (Nat.lt_succ_self n) hfuel hlen]

theorem removeAll_append (hp : pat ≠ []) (as : List α) : removeAll pat (pat ++ as) = removeAll pat as := by
  obtain ⟨p, ps, rfl⟩ := List.exists_cons_of_ne_nil hp
  have hpre : (p :: ps).isPrefixOf (p :: (ps ++ as)) = true :=
    List.isPrefixOf_iff_prefix.mpr (List.prefix_append _ _)
  have hdrop : (p :: (ps ++ as)).drop (p :: ps).length = as := List.drop_left
  rw [removeAll, List.cons_append, List.length_cons, removeFrom, if_pos hpre, hdrop]
  apply removeFrom_eq hp
  rw [List.length_append]
  omega

theorem removeAll_cons {a : α} (h : ¬ pat <+: a :: as) :
    removeAll pat (a :: as) = a :: removeAll pat as := by
  have hpre : ¬ pat.isPrefixOf (a :: as) = true := fun hpre => h (List.isPrefixOf_iff_prefix.mp hpre)
  rw [removeAll, List.length_cons, removeFrom, if_neg hpre]
  rfl

/-- The two cases of the loop -/
theorem removeAll_cases (hp : pat ≠ []) (as : List α) :
    as = [] ∨ (∃ bs, as = pat ++ bs ∧ removeAll pat as = removeAll pat bs) ∨
      ∃ b bs, as = b :: bs ∧ ¬ pat <+: as ∧ removeAll pat as = b :: removeAll pat bs := by
  cases as with
  | nil => exact .inl rfl
  | cons a as =>
    by_cases hpre : pat <+: a :: as
    · obtain ⟨bs, hbs⟩ := hpre
      refine .inr (.inl ⟨bs, hbs.symm, ?_⟩)
      rw [← hbs, removeAll_append hp]
    · exact .inr (.inr ⟨a, as, rfl, hpre, removeAll_cons hpre⟩)

theorem removeAll_absent (h : ¬ pat <:+: as) : removeAll pat as = as := by
  induction as with
  | nil => rfl
  | cons a as ih =>
    rw [removeAll_cons fun hpre => h hpre.isInfix, ih fun hin => h (hin.trans (List.suffix_cons a as).isInfix)]

theorem removeAll_sublist (hp : pat ≠ []) (as : List α) : (removeAll pat as).Sublist as := by
  induction hn : as.length using Nat.strongRecOn generalizing as with
  | ind n ih =>
    rcases removeAll_cases hp as with rfl | ⟨bs, rfl, heq⟩ | ⟨b, bs, rfl, -, heq⟩
    · exact List.Sublist.refl _
    · have hpos := List.length_pos_of_ne_nil hp
      rw [heq]
      refine (ih bs.length ?_ bs rfl).trans (List.sublist_append_right _ _)
      rw [← hn, List.length_append]
      omega
    · rw [heq]
      refine (ih bs.length ?_ bs rfl).cons_cons b
      rw [← hn, List.length_cons]
      omega

/-- An occurrence makes the list lighter by at least the pattern. -/
theorem weight_removeAll (w : α → Nat) (hp : pat ≠ []) (h : pat <:+: as) :
    ((removeAll pat as).map w).sum + (pat.map w).sum ≤ (as.map w).sum := by
  induction as with
  | nil => exact absurd (List.infix_nil.mp h) hp
  | cons a as ih =>
    by_cases hpre : pat <+: a :: as
    · obtain ⟨bs, hbs⟩ := hpre
      have := ((removeAll_sublist hp bs).map w).sum_le_sum fun _ _ => Nat.zero_le _
      rw [← hbs, removeAll_append hp, List.map_append, List.sum_append]
      omega
    · rcases List.infix_cons_iff.mp h with hin | hin
      · exact absurd hin hpre
      · have := ih hin
        rw [removeAll_cons hpre, List.map_cons, List.map_cons, List.sum_cons, List.sum_cons]
        omega

end Origel.Lib
