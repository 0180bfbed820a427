import Origel.Lib.Cursor

/-! Walks over tables whose entries begin with their lengths. -/
namespace Origel.Lib

/-- A walk over a table ends, its records are in the data, and an entry, which has a header and maybe a
record, is over where the next one starts. -/
structure SafeWalk {α : Type} (next : Nat → Option (α × Nat)) (record : α → Option (Nat × Nat))
    (header total start : Nat) : Prop where
  ends : Drains next start
  inside : ∀ i a j, Visits next start i → next i = some (a, j) →
    ∀ at' size, record a = some (at', size) → at' + size ≤ total
  disjoint : ∀ i a j, Visits next start i → next i = some (a, j) → (next j).isSome →
    i + header ≤ j ∧ ∀ at' size, record a = some (at', size) → at' + size ≤ j

/-- How the entries of a table lie in its data: each has a header with its length. -/
structure Layout where
  header : Nat
  total : Nat
  len : Nat → Nat

namespace Layout

/-- There is room for the header of an entry, and for the entry. -/
def Fits (l : Layout) (i : Nat) : Prop := i + l.header ≤ l.total ∧ i + l.len i ≤ l.total

/-- The offsets where an entry can be: each starts where the one before ends by its length. -/
inductive Follows (l : Layout) (start : Nat) : Nat → Prop
  | first : Follows l start start
  | next {i : Nat} (h : Follows l start i) (hfits : l.Fits i) : Follows l start (i + l.len i)

/-- No entry that has one after it is shorter than its header. -/
def WellFormed (l : Layout) (start : Nat) : Prop :=
  ∀ i, l.Follows start i → l.Fits i → l.Fits (i + l.len i) → l.header ≤ l.len i

end Layout

/-- What a step over an entry does: it goes on by the length of the entry, and the record, if there is
one, is in the entry. -/
structure Walks {α : Type} (next : Nat → Option (α × Nat)) (record : α → Option (Nat × Nat))
    (l : Layout) : Prop where
  some_iff : ∀ i, (next i).isSome ↔ l.Fits i
  step : ∀ i a j, next i = some (a, j) → j = i + l.len i ∧
    ∀ at' size, record a = some (at', size) → at' + size ≤ j

section

variable {α : Type} {next : Nat → Option (α × Nat)} {record : α → Option (Nat × Nat)}
  {l : Layout} {start i j : Nat} {a : α}

theorem Walks.of_eq {item : Nat → α}
    (hnext : ∀ i, next i = if i + l.header ≤ l.total then
      if i + l.len i ≤ l.total then some (item i, i + l.len i) else none else none)
    (hrecord : ∀ i at' size, record (item i) = some (at', size) → at' + size ≤ i + l.len i) :
    Walks next record l where
  some_iff i := by
    rw [hnext]
    split
    · rename_i hheader
      split
      · rename_i hlen
        exact iff_of_true rfl ⟨hheader, hlen⟩
      · rename_i hlen
        exact iff_of_false nofun fun hfits => hlen hfits.2
    · rename_i hheader
      exact iff_of_false nofun fun hfits => hheader hfits.1
  step i a j h := by
    rw [hnext] at h
    obtain ⟨-, h⟩ := Option.ite_none_right_eq_some.mp h
    obtain ⟨-, h⟩ := Option.ite_none_right_eq_some.mp h
    cases h
    exact ⟨rfl, hrecord i⟩

namespace Walks

theorem fits (h : Walks next record l) (hnext : next i = some (a, j)) : l.Fits i := by
  apply (h.some_iff i).mp
  rw [hnext]
  rfl

theorem visits_iff (h : Walks next record l) : Visits next start i ↔ l.Follows start i := by
  constructor
  · intro hv
    induction hv with
    | here => exact .first
    | next _ hnext ih =>
      rw [(h.step _ _ _ hnext).1]
      exact .next ih (h.fits hnext)
  · intro hf
    induction hf with
    | first => exact .here
    | next _ hfits ih =>
      obtain ⟨⟨a, j⟩, hnext⟩ := Option.isSome_iff_exists.mp ((h.some_iff _).mpr hfits)
      obtain ⟨rfl, -⟩ := h.step _ _ _ hnext
      exact .next ih hnext

/-- An entry of no length is an entry after itself. -/
theorem stuck (h : Walks next record l) (hi : l.Follows start i) (hfits : l.Fits i)
    (hzero : l.len i = 0) : ¬Drains next start := by
  obtain ⟨⟨a, j⟩, hnext⟩ := Option.isSome_iff_exists.mp ((h.some_iff i).mpr hfits)
  obtain ⟨rfl, -⟩ := h.step _ _ _ hnext
  rw [hzero, Nat.add_zero] at hnext
  exact not_drains_of_stuck (h.visits_iff.mpr hi) hnext

/-- A walk ends exactly where no entry has the length 0. -/
theorem drains_iff (h : Walks next record l) :
    Drains next start ↔ ∀ i, l.Follows start i → l.Fits i → l.len i ≠ 0 := by
  constructor
  · intro hd i hi hfits hzero
    exact h.stuck hi hfits hzero hd
  · intro hpos
    -- what is left of the data gets less with each entry
    apply drains_of_decreasing fun i => l.total + 1 - i
    intro i a j hv hnext
    have hfits := h.fits hnext
    have hne := hpos i (h.visits_iff.mp hv) hfits
    obtain ⟨rfl, -⟩ := h.step i a _ hnext
    have hroom := hfits.2
    omega

/-- The records are in the data, whatever the bytes are. -/
theorem inside (h : Walks next record l) (hnext : next i = some (a, j)) {at' size : Nat}
    (hr : record a = some (at', size)) : at' + size ≤ l.total := by
  obtain ⟨rfl, hrecord⟩ := h.step i a _ hnext
  exact Nat.le_trans (hrecord at' size hr) (h.fits hnext).2

theorem safe_iff (h : Walks next record l) (hheader : l.header ≠ 0) :
    SafeWalk next record l.header l.total start ↔ l.WellFormed start := by
  constructor
  · intro hsafe i hi hfits hafter
    obtain ⟨⟨a, j⟩, hnext⟩ := Option.isSome_iff_exists.mp ((h.some_iff i).mpr hfits)
    obtain ⟨rfl, -⟩ := h.step i a _ hnext
    have hover := (hsafe.disjoint i a _ (h.visits_iff.mpr hi) hnext ((h.some_iff _).mpr hafter)).1
    omega
  · intro hwell
    refine ⟨?_, fun i a j _ hnext at' size hr => h.inside hnext hr, ?_⟩
    · rw [h.drains_iff]
      intro i hi hfits hzero
      have hagain : l.Fits (i + l.len i) := by
        rw [hzero]
        exact hfits
      have hlen := hwell i hi hfits hagain
      omega
    · intro i a j hv hnext hafter
      obtain ⟨rfl, hrecord⟩ := h.step i a _ hnext
      have hlen := hwell i (h.visits_iff.mp hv) (h.fits hnext) ((h.some_iff _).mp hafter)
      exact ⟨Nat.add_le_add_left hlen i, hrecord⟩

end Walks

end

end Origel.Lib
