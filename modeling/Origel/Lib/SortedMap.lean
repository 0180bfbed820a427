import Mathlib.Data.List.Basic

/-! Finite maps, as lists in the order of their keys. -/
namespace Origel.Lib

variable {α : Type*}

@[ext] structure SortedMap (α : Type*) where
  entries : List (Nat × α)
  sorted : (entries.map Prod.fst).Pairwise (· < ·)

namespace SortedMap

variable {m : SortedMap α} {k j : Nat} {a b : α} {f : α → α}

def empty : SortedMap α := ⟨[], .nil⟩

def get (m : SortedMap α) (k : Nat) : Option α := m.entries.lookup k

/-- The entry under `k` is new, or takes the place of the old one. -/
def insert (m : SortedMap α) (k : Nat) (a : α) : SortedMap α where
  entries := m.entries.filter (·.1 < k) ++ (k, a) :: m.entries.filter (k < ·.1)
  sorted := by
    rw [List.map_append, List.map_cons, List.pairwise_append, List.pairwise_cons]
    have hsub : ∀ p : Nat × α → Bool, ((m.entries.filter p).map Prod.fst).Pairwise (· < ·) :=
      fun p => m.sorted.sublist (List.filter_sublist.map _)
    have hlow : ∀ i ∈ (m.entries.filter (·.1 < k)).map Prod.fst, i < k := by
      intro i hi
      obtain ⟨e, he, rfl⟩ := List.mem_map.mp hi
      simpa using (List.mem_filter.mp he).2
    have hhigh : ∀ i ∈ (m.entries.filter (k < ·.1)).map Prod.fst, k < i := by
      intro i hi
      obtain ⟨e, he, rfl⟩ := List.mem_map.mp hi
      simpa using (List.mem_filter.mp he).2
    refine ⟨hsub _, ⟨hhigh, hsub _⟩, ?_⟩
    intro i hi j hj
    rcases List.mem_cons.mp hj with rfl | hj
    · exact hlow i hi
    · exact Nat.lt_trans (hlow i hi) (hhigh j hj)

def modify (m : SortedMap α) (k : Nat) (f : α → α) : SortedMap α where
  entries := m.entries.map fun e => (e.1, if e.1 = k then f e.2 else e.2)
  sorted := by
    rw [List.map_map]
    exact m.sorted

def remove (m : SortedMap α) (k : Nat) : SortedMap α where
  entries := m.entries.filter (·.1 ≠ k)
  sorted := m.sorted.sublist (List.filter_sublist.map _)

theorem lookup_eq_some {l : List (Nat × α)} (h : (l.map Prod.fst).Pairwise (· < ·)) :
    l.lookup k = some a ↔ (k, a) ∈ l := by
  induction l with
  | nil => simp
  | cons e l ih =>
    obtain ⟨i, b⟩ := e
    rw [List.map_cons, List.pairwise_cons] at h
    rw [List.lookup_cons, List.mem_cons]
    by_cases hk : k = i
    · subst hk
      have hnot : (k, a) ∉ l := fun hm => Nat.lt_irrefl k (h.1 k (List.mem_map_of_mem hm))
      simp [hnot, eq_comm]
    · have hbeq : (k == i) = false := by simpa using hk
      rw [hbeq]
      simp [ih h.2, hk]

theorem get_eq_some : m.get k = some a ↔ (k, a) ∈ m.entries := lookup_eq_some m.sorted

theorem get_eq_of_mem {m' : SortedMap α}
    (h : ∀ a, (k, a) ∈ m.entries ↔ (k, a) ∈ m'.entries) : m.get k = m'.get k := by
  apply Option.ext
  intro a
  exact get_eq_some.trans ((h a).trans get_eq_some.symm)

@[simp] theorem get_empty : (empty : SortedMap α).get k = none := rfl

@[simp] theorem get_insert_self : (m.insert k a).get k = some a :=
  get_eq_some.mpr (by simp [insert])

theorem get_insert_of_ne (h : j ≠ k) : (m.insert k a).get j = m.get j := by
  apply get_eq_of_mem
  intro b
  have hcases : j < k ∨ k < j := Nat.lt_or_gt_of_ne h
  simp only [insert, List.mem_append, List.mem_cons, List.mem_filter, Prod.mk.injEq, h, false_and,
    false_or, decide_eq_true_eq]
  tauto

@[simp] theorem get_modify_self : (m.modify k f).get k = (m.get k).map f := by
  apply Option.ext
  intro b
  rw [get_eq_some, Option.map_eq_some_iff]
  constructor
  · intro hm
    obtain ⟨e, he, heq⟩ := List.mem_map.mp hm
    obtain ⟨hk, hb⟩ := Prod.mk.inj heq
    rw [if_pos hk] at hb
    exact ⟨e.2, get_eq_some.mpr (by rw [← hk]; exact he), hb⟩
  · rintro ⟨c, hc, rfl⟩
    exact List.mem_map.mpr ⟨(k, c), get_eq_some.mp hc, by simp⟩

theorem get_modify_of_ne (h : j ≠ k) : (m.modify k f).get j = m.get j := by
  apply get_eq_of_mem
  intro b
  constructor
  · intro hm
    obtain ⟨e, he, heq⟩ := List.mem_map.mp hm
    obtain ⟨hj, hb⟩ := Prod.mk.inj heq
    rw [if_neg (hj ▸ h)] at hb
    rw [← hj, ← hb]
    exact he
  · intro hm
    exact List.mem_map.mpr ⟨(j, b), hm, by simp [h]⟩

@[simp] theorem get_remove_self : (m.remove k).get k = none := by
  cases hg : (m.remove k).get k with
  | none => rfl
  | some a => simpa using (List.mem_filter.mp (get_eq_some.mp hg)).2

theorem get_remove_of_ne (h : j ≠ k) : (m.remove k).get j = m.get j := by
  apply get_eq_of_mem
  intro b
  simp [remove, List.mem_filter, h]

end SortedMap

end Origel.Lib
