import Mathlib.Data.List.Basic

/-! A bounded map that forgets its least recently used entry. -/
namespace Origel.Lib

variable {K V : Type*}

/-- The entries in order of use, the least recently used first. -/
structure LruCache (K V : Type*) where
  map : List (K × V)
  maxSize : Nat

namespace LruCache

def new (capacity : Nat) : LruCache K V := ⟨[], capacity⟩

variable [DecidableEq K]

/-- An entry of the same key is replaced and becomes the most recent; the oldest goes when there
are too many. -/
def insert (c : LruCache K V) (k : K) (v : V) : LruCache K V :=
  let map := c.map.filter (fun p => p.1 ≠ k) ++ [(k, v)]
  { c with map := if map.length > c.maxSize then map.tail else map }

/-- The value found, and the cache with its entry made the most recent. -/
def getMut (c : LruCache K V) (k : K) : Option V × LruCache K V :=
  match c.map.find? fun p => p.1 = k with
  | some p => (some p.2, { c with map := c.map.filter (fun p => p.1 ≠ k) ++ [p] })
  | none => (none, c)

/-- After an insertion a key has its new value or an entry it had under another key. -/
theorem mem_insert {c : LruCache K V} {k : K} {v : V} {p : K × V} (h : p ∈ (c.insert k v).map) :
    p = (k, v) ∨ p ∈ c.map ∧ p.1 ≠ k := by
  have hp : p ∈ c.map.filter (fun p => p.1 ≠ k) ++ [(k, v)] := by
    simp only [insert] at h
    split at h
    · exact List.mem_of_mem_tail h
    · exact h
  rcases List.mem_append.mp hp with hp | hp
  · exact Or.inr (by simpa using hp)
  · exact Or.inl (by simpa using hp)

theorem getMut_some {c : LruCache K V} {k : K} {v : V} (h : (c.getMut k).1 = some v) :
    (k, v) ∈ c.map := by
  unfold getMut at h
  split at h
  · rename_i p hp
    have hk : p.1 = k := by simpa using List.find?_some hp
    obtain ⟨a, b⟩ := p
    simp only [Option.some.injEq] at h hk
    subst hk h
    exact List.mem_of_find?_eq_some hp
  · cases h

theorem mem_getMut {c : LruCache K V} {k : K} {p : K × V} (h : p ∈ (c.getMut k).2.map) :
    p ∈ c.map := by
  unfold getMut at h
  split at h
  · rename_i q hq
    rcases List.mem_append.mp h with h | h
    · exact (List.mem_filter.mp h).1
    · rw [List.mem_singleton.mp h]
      exact List.mem_of_find?_eq_some hq
  · exact h

end LruCache

end Origel.Lib
