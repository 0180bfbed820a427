import Mathlib.Logic.Function.Basic

/-! Memory in cells of one type: only what is allocated can be read, written or freed. -/
namespace Origel.Lib

variable {A : Type*}

/-- The cells that are allocated. All the addresses from `top` on are still free. -/
structure Heap (A : Type*) where
  cell : Nat → Option A
  top : Nat
  unused : ∀ p, top ≤ p → cell p = none

namespace Heap

def empty : Heap A := ⟨fun _ => none, 0, fun _ _ => rfl⟩

def set (h : Heap A) (p : Nat) (a : Option A) : Heap A where
  cell := Function.update h.cell p a
  top := max h.top (p + 1)
  unused q hq := by
    rw [Function.update_of_ne (by omega)]
    exact h.unused q (by omega)

/-- Reading through a pointer, which may be null or dangle. -/
def read (h : Heap A) (p : Option Nat) : Option A := p.bind h.cell

/-- Writing through a pointer. -/
def write (h : Heap A) (p : Option Nat) (f : A → A) : Option (Heap A) :=
  p.bind fun q => (h.cell q).map fun a => h.set q (some (f a))

/-- Giving a cell back, with what was in it. -/
def release (h : Heap A) (p : Nat) : Option (A × Heap A) :=
  (h.cell p).map fun a => (a, h.set p none)

/-- What `Box::new` relies on: it gets an address that is not in use. One that was freed may come again. -/
structure Allocator (A : Type*) where
  place : Heap A → Nat
  vacant : ∀ h : Heap A, h.cell (place h) = none

def alloc (h : Heap A) (m : Allocator A) (a : A) : Nat × Heap A := (m.place h, h.set (m.place h) (some a))

variable {h h' : Heap A} {p q : Nat} {a : A} {f : A → A}

@[simp] theorem cell_set (b : Option A) : (h.set p b).cell = Function.update h.cell p b := rfl

theorem write_some (ha : h.cell p = some a) : h.write (some p) f = some (h.set p (some (f a))) := by
  rw [write, Option.bind_some, ha, Option.map_some]

theorem release_some (ha : h.cell p = some a) : h.release p = some (a, h.set p none) := by
  rw [release, ha, Option.map_some]

theorem lt_top (ha : h.cell p = some a) : p < h.top := by
  by_contra hle
  rw [h.unused p (Nat.le_of_not_lt hle)] at ha
  cases ha

end Heap

end Origel.Lib
