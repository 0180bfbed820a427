import Mathlib.Data.List.Nodup
import Mathlib.Data.List.Perm.Subperm

/-! Things owned by at most one owner, once: how they may change hands. -/
namespace Origel.Lib

variable {ι β : Type*} {own own' : ι → List β} {i j : ι} {xs : List β}

/-- No owner lists a thing twice and no two owners share one. -/
structure Exclusive (own : ι → List β) : Prop where
  nodup : ∀ i, (own i).Nodup
  disjoint : ∀ i j b, b ∈ own i → b ∈ own j → i = j

namespace Exclusive

/-- Two owners may exchange things, and drop some. -/
theorem move (h : Exclusive own) (hij : i ≠ j)
    (hs : (own' i ++ own' j).Subperm (own i ++ own j))
    (hf : ∀ k, k ≠ i → k ≠ j → own' k = own k) : Exclusive own' := by
  have hboth : (own i ++ own j).Nodup := by
    refine List.nodup_append.mpr ⟨h.nodup i, h.nodup j, ?_⟩
    rintro a ha b hb rfl
    exact hij (h.disjoint i j a ha hb)
  obtain ⟨zs, hp, hz⟩ := hs
  obtain ⟨hi, hj, hd⟩ := List.nodup_append.mp (hp.nodup_iff.mp (hboth.sublist hz))
  have back : ∀ k b, k = i ∨ k = j → b ∈ own' k → b ∈ own i ∨ b ∈ own j := by
    intro k b hk hb
    apply List.mem_append.mp
    apply hz.subset
    apply hp.mem_iff.mpr
    rcases hk with rfl | rfl
    · exact List.mem_append_left _ hb
    · exact List.mem_append_right _ hb
  have outside : ∀ k l b, k = i ∨ k = j → l ≠ i → l ≠ j → b ∈ own' k → b ∈ own' l → False := by
    intro k l b hk hli hlj hbk hbl
    rw [hf l hli hlj] at hbl
    rcases back k b hk hbk with hb | hb
    · exact hli (h.disjoint l i b hbl hb)
    · exact hlj (h.disjoint l j b hbl hb)
  constructor
  · intro k
    by_cases hki : k = i
    · rwa [hki]
    by_cases hkj : k = j
    · rwa [hkj]
    rw [hf k hki hkj]
    exact h.nodup k
  · intro k l b hk hl
    by_cases hkij : k = i ∨ k = j <;> by_cases hlij : l = i ∨ l = j
    · rcases hkij with rfl | rfl <;> rcases hlij with rfl | rfl
      · rfl
      · exact (hd b hk b hl rfl).elim
      · exact (hd b hl b hk rfl).elim
      · rfl
    · exact (outside k l b hkij (fun he => hlij (Or.inl he)) (fun he => hlij (Or.inr he)) hk hl).elim
    · exact (outside l k b hlij (fun he => hkij (Or.inl he)) (fun he => hkij (Or.inr he)) hl hk).elim
    · rw [hf k (fun he => hkij (Or.inl he)) (fun he => hkij (Or.inr he))] at hk
      rw [hf l (fun he => hlij (Or.inl he)) (fun he => hlij (Or.inr he))] at hl
      exact h.disjoint k l b hk hl

/-- An owner may take things nobody owns. -/
theorem add (h : Exclusive own) (hx : xs.Nodup) (hfresh : ∀ x ∈ xs, ∀ k, x ∉ own k)
    (hs : (own' i).Subperm (xs ++ own i)) (hf : ∀ k, k ≠ i → own' k = own k) :
    Exclusive own' := by
  have hboth : (xs ++ own i).Nodup := by
    refine List.nodup_append.mpr ⟨hx, h.nodup i, ?_⟩
    rintro a ha b hb rfl
    exact hfresh a ha i hb
  have other : ∀ l b, l ≠ i → b ∈ own' i → b ∈ own' l → False := by
    intro l b hl hbi hbl
    rw [hf l hl] at hbl
    rcases List.mem_append.mp (hs.subset hbi) with hb | hb
    · exact hfresh b hb l hbl
    · exact hl (h.disjoint l i b hbl hb)
  constructor
  · intro k
    by_cases hki : k = i
    · obtain ⟨l, hp, hl⟩ := hs
      rw [hki]
      exact hp.nodup_iff.mp (hboth.sublist hl)
    · rw [hf k hki]
      exact h.nodup k
  · intro k l b hk hl
    by_cases hki : k = i <;> by_cases hli : l = i
    · rw [hki, hli]
    · rw [hki] at hk
      exact (other l b hli hk hl).elim
    · rw [hli] at hl
      exact (other k b hki hl hk).elim
    · rw [hf k hki] at hk
      rw [hf l hli] at hl
      exact h.disjoint k l b hk hl

end Exclusive

end Origel.Lib
