import Mathlib.Algebra.Group.Int.Defs
import Mathlib.Algebra.Group.Nat.Defs
import Mathlib.Data.Int.Order.Basic
import Mathlib.Data.List.Basic
import Mathlib.Tactic.Common

/-! Rectangles of the window server, in arithmetic that wraps at 32 bits. -/
namespace Origel.Orbital

/-- The `i32` that arithmetic leaves. -/
def i32 (z : Int) : Int := z.bmod (2 ^ 32)

theorem i32_of_range {z : Int} (hl : -2 ^ 31 ≤ z) (hr : z < 2 ^ 31) : i32 z = z :=
  Int.bmod_eq_of_le (by omega) (by omega)

/-- No rectangle has a negative size. -/
structure Rect where
  x : Int
  y : Int
  w : Int
  h : Int
  w_nonneg : 0 ≤ w
  h_nonneg : 0 ≤ h
  deriving DecidableEq, Repr

namespace Rect

/-- `Rect::new`, with its assertions -/
def new (x y w h : Int) : Option Rect :=
  if hs : 0 ≤ w ∧ 0 ≤ h then some ⟨x, y, w, h, hs.1, hs.2⟩ else none

def default : Rect := ⟨0, 0, 0, 0, le_rfl, le_rfl⟩

def area (r : Rect) : Int := i32 (r.w * r.h)

def left (r : Rect) : Int := r.x

def right (r : Rect) : Int := i32 (r.x + r.w)

def top (r : Rect) : Int := r.y

def bottom (r : Rect) : Int := i32 (r.y + r.h)

def container (r other : Rect) : Option Rect :=
  let left := min r.left other.left
  let right := max r.right other.right
  let top := min r.top other.top
  let bottom := max r.bottom other.bottom
  if left ≤ right ∧ top ≤ bottom then new left top (i32 (right - left)) (i32 (bottom - top))
  else none

def contains (r : Rect) (x y : Int) : Bool :=
  r.left ≤ x ∧ r.right ≥ x ∧ r.top ≤ y ∧ r.bottom ≥ y

def isEmpty (r : Rect) : Bool := r.w = 0 ∨ r.h = 0

def intersection (r other : Rect) : Rect :=
  let left := max r.left other.left
  let right := min r.right other.right
  let top := max r.top other.top
  let bottom := min r.bottom other.bottom
  ⟨left, top, max 0 (i32 (right - left)), max 0 (i32 (bottom - top)), le_max_left .., le_max_left ..⟩

def offset (r : Rect) (x y : Int) : Rect :=
  ⟨i32 (r.x + x), i32 (r.y + y), r.w, r.h, r.w_nonneg, r.h_nonneg⟩

/-- The pixel lies in the rectangle. -/
def Has (r : Rect) (px py : Int) : Prop :=
  r.x ≤ px ∧ px < r.x + r.w ∧ r.y ≤ py ∧ py < r.y + r.h

instance (r : Rect) (px py : Int) : Decidable (r.Has px py) := instDecidableAnd

end Rect

/-- A part of the plane in which no difference of coordinates overflows. -/
structure Box where
  left : Int
  top : Int
  right : Int
  bottom : Int
  left_ge : -2 ^ 31 ≤ left
  top_ge : -2 ^ 31 ≤ top
  right_lt : right < 2 ^ 31
  bottom_lt : bottom < 2 ^ 31
  width_lt : right - left < 2 ^ 31
  height_lt : bottom - top < 2 ^ 31

namespace Rect

variable {r a b : Rect} {box : Box} {px py : Int}

def In (r : Rect) (box : Box) : Prop :=
  box.left ≤ r.x ∧ r.x + r.w ≤ box.right ∧ box.top ≤ r.y ∧ r.y + r.h ≤ box.bottom

instance : Decidable (r.In box) := instDecidableAnd

theorem new_eq_some {x y w h : Int} : new x y w h = some r ↔ r.x = x ∧ r.y = y ∧ r.w = w ∧ r.h = h := by
  unfold new
  constructor
  · intro hn
    split at hn
    · cases hn
      exact ⟨rfl, rfl, rfl, rfl⟩
    · cases hn
  · rintro ⟨rfl, rfl, rfl, rfl⟩
    rw [dif_pos ⟨r.w_nonneg, r.h_nonneg⟩]

theorem new_of_nonneg {x y w h : Int} (hw : 0 ≤ w) (hh : 0 ≤ h) :
    new x y w h = some ⟨x, y, w, h, hw, hh⟩ := dif_pos ⟨hw, hh⟩

theorem right_of_in (h : r.In box) : r.right = r.x + r.w := by
  obtain ⟨hl, hr, _, _⟩ := h
  have hbl := box.left_ge
  have hbr := box.right_lt
  have hw := r.w_nonneg
  exact i32_of_range (by omega) (by omega)

theorem bottom_of_in (h : r.In box) : r.bottom = r.y + r.h := by
  obtain ⟨_, _, ht, hb⟩ := h
  have hbt := box.top_ge
  have hbb := box.bottom_lt
  have hh := r.h_nonneg
  exact i32_of_range (by omega) (by omega)

/-- In a box the container of two rectangles is in the box, and has what either has. -/
theorem container_of_in (ha : a.In box) (hb : b.In box) : ∃ c, a.container b = some c ∧ c.In box ∧
    ∀ px py, a.Has px py ∨ b.Has px py → c.Has px py := by
  have hboxw := box.width_lt
  have hboxh := box.height_lt
  have hw := a.w_nonneg
  have hh := a.h_nonneg
  unfold container
  rw [right_of_in ha, right_of_in hb, bottom_of_in ha, bottom_of_in hb]
  dsimp only [left, top]
  obtain ⟨ha1, ha2, ha3, ha4⟩ := ha
  obtain ⟨hb1, hb2, hb3, hb4⟩ := hb
  have hx : i32 (max (a.x + a.w) (b.x + b.w) - min a.x b.x) =
      max (a.x + a.w) (b.x + b.w) - min a.x b.x := i32_of_range (by omega) (by omega)
  have hy : i32 (max (a.y + a.h) (b.y + b.h) - min a.y b.y) =
      max (a.y + a.h) (b.y + b.h) - min a.y b.y := i32_of_range (by omega) (by omega)
  rw [hx, hy, if_pos ⟨by omega, by omega⟩, new_of_nonneg (by omega) (by omega)]
  refine ⟨_, rfl, ?_, ?_⟩
  · simp only [In]
    omega
  · intro px py hp
    simp only [Has] at hp ⊢
    omega

theorem not_isEmpty : r.isEmpty = false ↔ 0 < r.w ∧ 0 < r.h := by
  have hw := r.w_nonneg
  have hh := r.h_nonneg
  simp only [isEmpty, decide_eq_false_iff_not]
  omega

/-- In a box the intersection of two rectangles has what both have. -/
theorem intersection_of_in (ha : a.In box) (hb : b.In box) :
    (a.intersection b).x = max a.x b.x ∧ (a.intersection b).y = max a.y b.y ∧
      (a.intersection b).w = max 0 (min (a.x + a.w) (b.x + b.w) - max a.x b.x) ∧
      (a.intersection b).h = max 0 (min (a.y + a.h) (b.y + b.h) - max a.y b.y) := by
  have hboxw := box.width_lt
  have hboxh := box.height_lt
  have hw := a.w_nonneg
  have hw' := b.w_nonneg
  have hh := a.h_nonneg
  have hh' := b.h_nonneg
  have hright := right_of_in ha
  have hright' := right_of_in hb
  have hbottom := bottom_of_in ha
  have hbottom' := bottom_of_in hb
  obtain ⟨ha1, ha2, ha3, ha4⟩ := ha
  obtain ⟨hb1, hb2, hb3, hb4⟩ := hb
  refine ⟨rfl, rfl, ?_, ?_⟩
  · show max 0 (i32 (min a.right b.right - max a.x b.x)) = _
    rw [hright, hright', i32_of_range (by omega) (by omega)]
  · show max 0 (i32 (min a.bottom b.bottom - max a.y b.y)) = _
    rw [hbottom, hbottom', i32_of_range (by omega) (by omega)]

theorem has_intersection (ha : a.In box) (hb : b.In box) (px py : Int) :
    (a.intersection b).Has px py ↔ a.Has px py ∧ b.Has px py := by
  obtain ⟨hx, hy, hw, hh⟩ := intersection_of_in ha hb
  simp only [Has, hx, hy, hw, hh]
  omega

/-- One rectangle lies within another. -/
def Within (a b : Rect) : Prop :=
  b.x ≤ a.x ∧ a.x + a.w ≤ b.x + b.w ∧ b.y ≤ a.y ∧ a.y + a.h ≤ b.y + b.h

theorem Within.in (h : a.Within b) (hb : b.In box) : a.In box := by
  simp only [Within, In] at *
  omega

theorem Within.has (h : a.Within b) (hp : a.Has px py) : b.Has px py := by
  simp only [Within, Has] at *
  omega

/-- An intersection that is not empty lies within both rectangles. -/
theorem intersection_within (ha : a.In box) (hb : b.In box)
    (he : (a.intersection b).isEmpty = false) :
    (a.intersection b).Within a ∧ (a.intersection b).Within b := by
  obtain ⟨hx, hy, hw, hh⟩ := intersection_of_in ha hb
  obtain ⟨hpw, hph⟩ := not_isEmpty.mp he
  simp only [Within, hx, hy, hw, hh] at *
  omega

theorem not_has_of_isEmpty (he : r.isEmpty = true) : ¬ r.Has px py := by
  simp only [isEmpty, decide_eq_true_eq] at he
  simp only [Has]
  omega

end Rect

end Origel.Orbital
