import Mathlib.Algebra.BigOperators.Group.List.Basic
import Mathlib.Algebra.GroupWithZero.Nat
import Mathlib.Data.List.Range
import Mathlib.Logic.Function.Basic

/-! Tables that give each new entry the next number, and sums over their entries. -/
namespace Origel.Lib

variable {α : Type*}

/-- Entries under numbers below `next`, the number of the entry to come. -/
@[ext] structure Table (α : Type*) where
  next : Nat
  entry : Nat → Option α
  fresh : ∀ id, next ≤ id → entry id = none

namespace Table

variable {t : Table α} {id k : Nat} {a : α} {f : α → α} {w w' : α → Nat}

def empty (first : Nat) : Table α := ⟨first, fun _ => none, fun _ _ => rfl⟩

theorem lt_next (h : t.entry id = some a) : id < t.next := by
  by_contra hle
  rw [t.fresh id (by omega)] at h
  cases h

/-- A new entry under the next number. -/
def insert (t : Table α) (a : α) : Table α where
  next := t.next + 1
  entry := Function.update t.entry t.next (some a)
  fresh id h := by
    rw [Function.update_of_ne (by omega)]
    exact t.fresh id (by omega)

/-- The next number is left out. -/
def skip (t : Table α) : Table α where
  next := t.next + 1
  entry := t.entry
  fresh id h := t.fresh id (by omega)

/-- New entries under the next numbers, in turn. -/
def insertAll (t : Table α) : List α → Table α
  | [] => t
  | a :: as => (t.insert a).insertAll as

/-- Every entry changed or dropped. -/
def filterMap (t : Table α) (g : Nat → α → Option α) : Table α where
  next := t.next
  entry id := (t.entry id).bind (g id)
  fresh id h := by rw [t.fresh id h]; rfl

def map (t : Table α) (g : Nat → α → α) : Table α := t.filterMap fun id a => some (g id a)

def modify (t : Table α) (id : Nat) (f : α → α) : Table α :=
  t.map fun k a => if k = id then f a else a

def remove (t : Table α) (id : Nat) : Table α :=
  t.filterMap fun k a => if k = id then none else some a

/-- The entries in the order of their numbers. -/
def entries (t : Table α) : List (Nat × α) :=
  (List.range t.next).filterMap fun id => (t.entry id).map (Prod.mk id)

/-- The sum over all entries of what each has. -/
def sum (t : Table α) (v : Nat → α → Nat) : Nat := (t.entries.map fun e => v e.1 e.2).sum

def total (t : Table α) (w : α → Nat) : Nat := t.sum fun _ => w

@[simp] theorem entry_empty (first : Nat) : (empty first : Table α).entry id = none := rfl

@[simp] theorem next_insert : (t.insert a).next = t.next + 1 := rfl

@[simp] theorem entry_insert_self : (t.insert a).entry t.next = some a := Function.update_self ..

theorem entry_insert_of_ne (h : id ≠ t.next) : (t.insert a).entry id = t.entry id :=
  Function.update_of_ne h ..

theorem entry_insert (h : t.entry id = some a) {b : α} : (t.insert b).entry id = some a := by
  rw [entry_insert_of_ne (lt_next h).ne, h]

@[simp] theorem next_filterMap {g : Nat → α → Option α} : (t.filterMap g).next = t.next := rfl

@[simp] theorem entry_filterMap {g : Nat → α → Option α} :
    (t.filterMap g).entry id = (t.entry id).bind (g id) := rfl

@[simp] theorem next_map {g : Nat → α → α} : (t.map g).next = t.next := rfl

@[simp] theorem entry_map {g : Nat → α → α} : (t.map g).entry id = (t.entry id).map (g id) := by
  rw [map, entry_filterMap]
  cases t.entry id <;> rfl

@[simp] theorem next_modify : (t.modify id f).next = t.next := rfl

@[simp] theorem entry_modify_self : (t.modify id f).entry id = (t.entry id).map f := by
  simp [modify]

theorem entry_modify_of_ne (h : k ≠ id) : (t.modify id f).entry k = t.entry k := by
  simp [modify, h]

theorem modify_congr {g : α → α} (h : t.entry id = some a) (hf : f a = g a) :
    t.modify id f = t.modify id g := by
  apply Table.ext
  · rfl
  · funext k
    by_cases hk : k = id
    · subst hk
      rw [entry_modify_self, entry_modify_self, h, Option.map_some, Option.map_some, hf]
    · rw [entry_modify_of_ne hk, entry_modify_of_ne hk]

theorem modify_eq_self (h : t.entry id = some a) (hf : f a = a) : t.modify id f = t := by
  apply Table.ext
  · rfl
  · funext k
    by_cases hk : k = id
    · subst hk
      rw [entry_modify_self, h, Option.map_some, hf]
    · rw [entry_modify_of_ne hk]

theorem modify_modify (g : α → α) : (t.modify id f).modify id g = t.modify id fun a => g (f a) := by
  apply Table.ext
  · rfl
  · funext k
    by_cases hk : k = id
    · subst hk
      rw [entry_modify_self, entry_modify_self, entry_modify_self, Option.map_map]
      rfl
    · rw [entry_modify_of_ne hk, entry_modify_of_ne hk, entry_modify_of_ne hk]

@[simp] theorem next_remove : (t.remove id).next = t.next := rfl

@[simp] theorem entry_remove_self : (t.remove id).entry id = none := by
  rw [remove, entry_filterMap]
  cases t.entry id <;> simp

theorem entry_remove_of_ne (h : k ≠ id) : (t.remove id).entry k = t.entry k := by
  rw [remove, entry_filterMap]
  cases t.entry k <;> simp [h]

theorem next_insertAll (as : List α) : (t.insertAll as).next = t.next + as.length := by
  induction as generalizing t with
  | nil => rfl
  | cons a as ih =>
    rw [insertAll, ih, next_insert, List.length_cons]
    omega

theorem entry_insertAll_of_lt (as : List α) (h : id < t.next) :
    (t.insertAll as).entry id = t.entry id := by
  induction as generalizing t with
  | nil => rfl
  | cons a as ih => rw [insertAll, ih (by rw [next_insert]; omega), entry_insert_of_ne h.ne]

theorem entry_insertAll_of_ge (as : List α) (h : t.next ≤ id) :
    (t.insertAll as).entry id = as[id - t.next]? := by
  induction as generalizing t with
  | nil => exact t.fresh id h
  | cons a as ih =>
    rw [insertAll]
    rcases Nat.eq_or_lt_of_le h with rfl | hlt
    · rw [entry_insertAll_of_lt as (by rw [next_insert]; omega), entry_insert_self]
      simp
    · rw [ih (by rw [next_insert]; omega), next_insert]
      obtain ⟨k, hk⟩ : ∃ k, id - t.next = k + 1 := ⟨id - t.next - 1, by omega⟩
      rw [hk, List.getElem?_cons_succ]
      congr 1
      omega

/-- What holds of an entry of a table with new entries: it is an old one, or one of the new. -/
theorem insertAll_cases {as : List α} (h : (t.insertAll as).entry id = some a) :
    t.entry id = some a ∨ t.next ≤ id ∧ as[id - t.next]? = some a := by
  by_cases hlt : id < t.next
  · left
    rwa [entry_insertAll_of_lt as hlt] at h
  · right
    rw [entry_insertAll_of_ge as (by omega)] at h
    exact ⟨by omega, h⟩

theorem mem_entries {e : Nat × α} : e ∈ t.entries ↔ t.entry e.1 = some e.2 := by
  constructor
  · intro h
    obtain ⟨id, _, he⟩ := List.mem_filterMap.mp h
    obtain ⟨a, ha, rfl⟩ := Option.map_eq_some_iff.mp he
    exact ha
  · intro h
    refine List.mem_filterMap.mpr ⟨e.1, List.mem_range.mpr (lt_next h), ?_⟩
    rw [h]
    rfl

theorem sum_congr {v v' : Nat → α → Nat} (h : ∀ id a, t.entry id = some a → v id a = v' id a) :
    t.sum v = t.sum v' := by
  rw [sum, sum]
  congr 1
  apply List.map_congr_left
  intro e he
  exact h e.1 e.2 (mem_entries.mp he)

theorem sum_add (v v' : Nat → α → Nat) :
    t.sum v + t.sum v' = t.sum fun id a => v id a + v' id a := List.sum_map_add.symm

theorem sum_eq_zero {v : Nat → α → Nat} (h : ∀ id a, t.entry id = some a → v id a = 0) :
    t.sum v = 0 := by
  apply List.sum_eq_zero
  intro n hn
  obtain ⟨e, he, rfl⟩ := List.mem_map.mp hn
  exact h e.1 e.2 (mem_entries.mp he)

/-- A sum that only one entry adds to. -/
theorem sum_single {v : Nat → α → Nat} (h : t.entry id = some a)
    (hv : ∀ k b, t.entry k = some b → k ≠ id → v k b = 0) : t.sum v = v id a := by
  have hsum : ∀ n, (((List.range n).filterMap fun k => (t.entry k).map (Prod.mk k)).map
      fun e => v e.1 e.2).sum = if id < n then v id a else 0 := by
    intro n
    induction n with
    | zero => rfl
    | succ n ih =>
      rw [List.range_succ, List.filterMap_append, List.map_append, List.sum_append, ih]
      by_cases hn : n = id
      · subst hn
        simp [h]
      · have h0 : (([n].filterMap fun k => (t.entry k).map (Prod.mk k)).map
            fun e => v e.1 e.2).sum = 0 := by
          cases hb : t.entry n with
          | none => simp [hb]
          | some b => simp [hb, hv n b hb hn]
        rw [h0, Nat.add_zero]
        have hiff : id < n + 1 ↔ id < n := by omega
        simp only [hiff]
  have hs := hsum t.next
  rwa [if_pos (lt_next h)] at hs

@[simp] theorem total_empty (first : Nat) : (empty first : Table α).total w = 0 :=
  sum_eq_zero (by intro id a h; cases h)

theorem entries_insert : (t.insert a).entries = t.entries ++ [(t.next, a)] := by
  have hold : (List.range t.next).filterMap
      (fun id => ((t.insert a).entry id).map (Prod.mk id)) = t.entries := by
    apply List.filterMap_congr
    intro id hid
    rw [entry_insert_of_ne (List.mem_range.mp hid).ne]
  rw [entries, next_insert, List.range_succ, List.filterMap_append, hold]
  simp

@[simp] theorem total_insert : (t.insert a).total w = t.total w + w a := by
  rw [total, sum, entries_insert]
  simp [total, sum]

theorem total_insertAll (as : List α) : (t.insertAll as).total w = t.total w + (as.map w).sum := by
  induction as generalizing t with
  | nil => rfl
  | cons a as ih =>
    rw [insertAll, ih, total_insert, List.map_cons, List.sum_cons]
    omega

theorem total_filterMap (g : Nat → α → Option α) :
    (t.filterMap g).total w = t.sum fun id a => (g id a).elim 0 w := by
  have hsum : ∀ is : List Nat, ((is.filterMap fun id => ((t.filterMap g).entry id).map
      (Prod.mk id)).map fun e => w e.2).sum =
      ((is.filterMap fun id => (t.entry id).map (Prod.mk id)).map
        fun e => ((g e.1 e.2).elim 0 w)).sum := by
    intro is
    induction is with
    | nil => rfl
    | cons id is ih =>
      rw [List.filterMap_cons, List.filterMap_cons, entry_filterMap]
      cases h : t.entry id with
      | none => simpa using ih
      | some a =>
        cases hg : g id a with
        | none => simpa [hg] using ih
        | some b => simpa [hg] using ih
  exact hsum _

/-- Entries change and go: what they lose in weight by that and what they gain, in total. -/
theorem total_filterMap_add {g : Nat → α → Option α} {u v : Nat → α → Nat}
    (h : ∀ id a, t.entry id = some a → (g id a).elim 0 w + u id a = w a + v id a) :
    (t.filterMap g).total w + t.sum u = t.total w + t.sum v := by
  rw [total_filterMap, total, sum_add, sum_add]
  exact sum_congr h

theorem total_modify (h : t.entry id = some a) :
    (t.modify id f).total w + w a = t.total w + w (f a) := by
  have hadd := total_filterMap_add (t := t) (w := w)
    (g := fun k b => some (if k = id then f b else b))
    (u := fun k b => if k = id then w b else 0)
    (v := fun k b => if k = id then w (f b) else 0) (by
      intro k b _
      by_cases hk : k = id <;> simp [hk, Nat.add_comm])
  rw [sum_single h (by intro k b _ hk; simp [hk]),
    sum_single h (by intro k b _ hk; simp [hk])] at hadd
  simpa [modify, map] using hadd

theorem total_remove (h : t.entry id = some a) : (t.remove id).total w + w a = t.total w := by
  have hadd := total_filterMap_add (t := t) (w := w)
    (g := fun k b => if k = id then none else some b)
    (u := fun k b => if k = id then w b else 0) (v := fun _ _ => 0) (by
      intro k b _
      by_cases hk : k = id <;> simp [hk])
  rw [sum_single h (by intro k b _ hk; simp [hk]), sum_eq_zero (by intros; rfl)] at hadd
  simpa [remove] using hadd

theorem le_total (h : t.entry id = some a) : w a ≤ t.total w := by
  have := total_remove (w := w) h
  omega

theorem exists_of_total_pos (h : 0 < t.total w) : ∃ id a, t.entry id = some a ∧ 0 < w a := by
  by_contra hno
  have h0 : t.total w = 0 := by
    apply sum_eq_zero
    intro id a ha
    by_contra hpos
    exact hno ⟨id, a, ha, by omega⟩
  omega

end Table

end Origel.Lib
