import Mathlib.Data.List.Chain
import Mathlib.Data.List.Nodup

/-! Nodes that are linked in a list, or both ways in a circle. -/
namespace Origel.Lib

variable {P : Type*} {after before after' before' : P → Option P} {a b g u v x : P} {xs ys l : List P}

/-- The nodes of a list from its first one on, where the last is followed by none. -/
def Listed (after : P → Option P) : Option P → List P → Prop
  | first, [] => first = none
  | first, x :: xs => first = some x ∧ Listed after (after x) xs

theorem Listed.congr {first : Option P} (h : Listed after first xs) (hx : ∀ x ∈ xs, after' x = after x) :
    Listed after' first xs := by
  induction xs generalizing first with
  | nil => exact h
  | cons x xs ih =>
    obtain ⟨hfirst, hrest⟩ := h
    refine ⟨hfirst, ?_⟩
    rw [hx x List.mem_cons_self]
    exact ih hrest fun y hy => hx y (List.mem_cons_of_mem _ hy)

/-- `b` is linked behind `a`, both ways. -/
def Linked (after before : P → Option P) (a b : P) : Prop := after a = some b ∧ before b = some a

/-- The links of a chain, but for the way on from its end and back from its start. -/
theorem chain_congr (h : l.IsChain (Linked after before)) (ha : ∀ u ∈ l.dropLast, after' u = after u)
    (hb : ∀ v ∈ l.tail, before' v = before v) : l.IsChain (Linked after' before') := by
  induction h with
  | nil => exact .nil
  | singleton a => exact .singleton a
  | @cons_cons a b l hab _ ih =>
    refine .cons_cons ⟨?_, ?_⟩ (ih ?_ ?_)
    · rw [ha a List.mem_cons_self]
      exact hab.1
    · rw [hb b List.mem_cons_self]
      exact hab.2
    · intro u hu
      exact ha u (List.mem_cons_of_mem _ hu)
    · intro v hv
      exact hb v (List.mem_cons_of_mem _ hv)

theorem ne_last (h : l.Nodup) (hu : u ∈ l.dropLast) (ha : l.getLast? = some a) : u ≠ a := by
  rintro rfl
  have hl := List.dropLast_append_getLast? u ha
  rw [← hl] at h
  exact (List.nodup_append.mp h).2.2 u hu u (List.mem_singleton_self u) rfl

theorem ne_head (h : l.Nodup) (hu : u ∈ l.tail) (ha : l.head? = some a) : u ≠ a := by
  cases l with
  | nil => cases ha
  | cons b l =>
    rintro rfl
    cases ha
    exact (List.nodup_cons.mp h).1 hu

/-- From a guard by way of the nodes back to the guard. -/
structure Circle (after before : P → Option P) (g : P) (nodes : List P) : Prop where
  nodup : (g :: nodes).Nodup
  linked : (g :: nodes ++ [g]).IsChain (Linked after before)

namespace Circle

theorem single (ha : after g = some g) (hb : before g = some g) : Circle after before g [] :=
  ⟨List.nodup_singleton g, .cons_cons ⟨ha, hb⟩ (.singleton g)⟩

theorem congr (h : Circle after before g xs) (ha : ∀ u ∈ g :: xs, after' u = after u)
    (hb : ∀ u ∈ g :: xs, before' u = before u) : Circle after' before' g xs := by
  refine ⟨h.nodup, chain_congr h.linked ?_ ?_⟩
  · intro u hu
    rw [List.dropLast_concat] at hu
    exact ha u hu
  · intro v hv
    rcases List.mem_append.mp hv with hv | hv
    · exact hb v (List.mem_cons_of_mem _ hv)
    · rw [List.mem_singleton.mp hv]
      exact hb g List.mem_cons_self

/-- The guard is linked with the two ends. -/
theorem after_guard (h : Circle after before g xs) : after g = (xs ++ [g]).head? := by
  have hl := h.linked
  rw [List.cons_append, List.isChain_cons] at hl
  cases xs with
  | nil => exact (hl.1 g rfl).1
  | cons x xs => exact (hl.1 x rfl).1

theorem before_guard (h : Circle after before g xs) : before g = (g :: xs).getLast? := by
  have hl := (List.isChain_append.mp h.linked).2.2
  have hlast : (g :: xs).getLast? = some ((g :: xs).getLast (List.cons_ne_nil _ _)) :=
    List.getLast?_eq_some_getLast _
  rw [hlast]
  exact (hl _ hlast g rfl).2

/-- The chain before a node, and the one from it on. -/
theorem linked_split (h : Circle after before g (xs ++ x :: ys)) :
    ((g :: xs) ++ x :: (ys ++ [g])).IsChain (Linked after before) := by
  have hl := h.linked
  rwa [List.cons_append, List.append_assoc, ← List.cons_append] at hl

/-- A node is linked with its two neighbours. -/
theorem after_node (h : Circle after before g (xs ++ x :: ys)) : after x = (ys ++ [g]).head? := by
  have hl := h.linked_split
  have hx := List.isChain_cons.mp (List.isChain_append.mp hl).2.1
  cases ys with
  | nil => exact (hx.1 g rfl).1
  | cons y ys => exact (hx.1 y rfl).1

theorem before_node (h : Circle after before g (xs ++ x :: ys)) : before x = (g :: xs).getLast? := by
  have hl := h.linked_split
  have hlast : (g :: xs).getLast? = some ((g :: xs).getLast (List.cons_ne_nil _ _)) :=
    List.getLast?_eq_some_getLast _
  rw [hlast]
  exact ((List.isChain_append.mp hl).2.2 _ hlast x rfl).2

variable [DecidableEq P]

/-- The neighbours of a node are linked with each other, which leaves it out. -/
theorem detach (h : Circle after before g (xs ++ x :: ys)) (ha : before x = some a)
    (hb : after x = some b) :
    Circle (Function.update after a (some b)) (Function.update before b (some a)) g (xs ++ ys) := by
  have hlast : (g :: xs).getLast? = some a := by rw [← h.before_node, ha]
  have hhead : (ys ++ [g]).head? = some b := by rw [← h.after_node, hb]
  have hmemA := List.mem_of_getLast? hlast
  have hmemB := List.mem_of_head? hhead
  have hl := h.linked_split
  obtain ⟨hleft, hright, -⟩ := List.isChain_append.mp hl
  have hright := hright.tail
  have hnodup := h.nodup
  rw [← List.cons_append] at hnodup
  obtain ⟨hnl, hnr, hapart⟩ := List.nodup_append.mp hnodup
  have hnr := (List.nodup_cons.mp hnr).2
  have hg : g ∉ ys := fun hg => hapart g List.mem_cons_self g (List.mem_cons_of_mem _ hg) rfl
  have hnr' : (ys ++ [g]).Nodup := by
    rw [List.nodup_append]
    refine ⟨hnr, List.nodup_singleton g, ?_⟩
    rintro y hy z hz rfl
    rw [List.mem_singleton.mp hz] at hy
    exact hg hy
  refine ⟨?_, ?_⟩
  · refine h.nodup.sublist ?_
    exact ((List.sublist_cons_self x ys).append_left xs).cons_cons g
  · rw [← List.cons_append, List.append_assoc]
    refine List.isChain_append.mpr ⟨chain_congr hleft ?_ ?_, chain_congr hright ?_ ?_, ?_⟩
    · intro u hu
      exact Function.update_of_ne (ne_last hnl hu hlast) _ _
    · intro v hv
      refine Function.update_of_ne ?_ _ _
      rintro rfl
      rcases List.mem_append.mp hmemB with hv' | hv'
      · exact hapart v (List.mem_cons_of_mem _ hv) v (List.mem_cons_of_mem _ hv') rfl
      · rw [List.mem_singleton.mp hv'] at hv
        exact (List.nodup_cons.mp hnl).1 hv
    · intro u hu
      rw [List.dropLast_concat] at hu
      refine Function.update_of_ne ?_ _ _
      rintro rfl
      exact hapart u hmemA u (List.mem_cons_of_mem _ hu) rfl
    · intro v hv
      exact Function.update_of_ne (ne_head hnr' hv hhead) _ _
    · intro a' ha' b' hb'
      cases hlast.symm.trans ha'
      cases hhead.symm.trans hb'
      exact ⟨Function.update_self .., Function.update_self ..⟩

/-- A new node is put behind the last one. -/
theorem attach (h : Circle after before g xs) (hx : x ∉ g :: xs) (ha : before g = some a) :
    Circle (Function.update (Function.update after x (some g)) a (some x))
      (Function.update (Function.update before x (some a)) g (some x)) g (xs ++ [x]) := by
  have hlast : (g :: xs).getLast? = some a := by rw [← h.before_guard, ha]
  have hmemA := List.mem_of_getLast? hlast
  have hxg : x ≠ g := fun he => hx (he ▸ List.mem_cons_self)
  have hxa : x ≠ a := fun he => hx (he ▸ hmemA)
  obtain ⟨hleft, -, -⟩ := List.isChain_append.mp h.linked
  refine ⟨?_, ?_⟩
  · rw [← List.cons_append, List.nodup_append]
    refine ⟨h.nodup, List.nodup_singleton x, ?_⟩
    rintro y hy z hz rfl
    rw [List.mem_singleton.mp hz] at hy
    exact hx hy
  · rw [← List.cons_append, List.append_assoc]
    refine List.isChain_append.mpr ⟨chain_congr hleft ?_ ?_, .cons_cons ⟨?_, ?_⟩ (.singleton g), ?_⟩
    · intro u hu
      have hux : u ≠ x := by
        rintro rfl
        exact hx (List.dropLast_subset _ hu)
      rw [Function.update_of_ne (ne_last h.nodup hu hlast), Function.update_of_ne hux]
    · intro v hv
      have hvg : v ≠ g := by
        rintro rfl
        exact (List.nodup_cons.mp h.nodup).1 hv
      have hvx : v ≠ x := by
        rintro rfl
        exact hx (List.mem_cons_of_mem _ hv)
      rw [Function.update_of_ne hvg, Function.update_of_ne hvx]
    · rw [Function.update_of_ne hxa, Function.update_self]
    · exact Function.update_self ..
    · intro a' ha' b' hb'
      cases hlast.symm.trans ha'
      cases hb'
      refine ⟨Function.update_self .., ?_⟩
      rw [Function.update_of_ne hxg, Function.update_self]

end Circle

end Origel.Lib
