import Mathlib.Tactic.Ring
import Origel.Lib.Casts
import Origel.Orbital.Rect

/-! Images, and what is copied, mixed and set in parts of them, row by row. -/
namespace Origel.Orbital

open Origel.Lib

def alpha (color : UInt32) : UInt32 := (color >>> 24) &&& 0xFF

/-- A pixel of `blend`, and of `set` -/
def mix (new old : UInt32) : UInt32 :=
  if 255 ≤ alpha new then new
  else if 0 < alpha new then
    let a := alpha new
    let nR := (((new >>> 16) &&& 0xFF) * a) >>> 8
    let nG := (((new >>> 8) &&& 0xFF) * a) >>> 8
    let nB := ((new &&& 0xFF) * a) >>> 8
    let nAlpha := 255 - a
    let oR := (((old >>> 16) &&& 0xFF) * nAlpha) >>> 8
    let oG := (((old >>> 8) &&& 0xFF) * nAlpha) >>> 8
    let oB := ((old &&& 0xFF) * nAlpha) >>> 8
    ((oR <<< 16) ||| (oG <<< 8) ||| oB) + ((nR <<< 16) ||| (nG <<< 8) ||| nB)
  else old

/-- An image. Of its pixels those below `len` are there. -/
structure Image where
  w : Int
  h : Int
  len : Nat
  data : Nat → UInt32

namespace Image

/-- `Image::new`, which panics where the memory asked for is more than an `isize` can tell. -/
def new (color : UInt32) (w h : Int) : Option Image :=
  let len := asU64 w * asU64 h % 2 ^ 64
  if len * 4 < 2 ^ 63 then some ⟨w, h, len, fun _ => color⟩ else none

/-- The slice of a row of the part of an image, by its start and its length: `next` of the row
iterators -/
def row (img : Image) (rect : Rect) (i : Nat) : Option (Nat × Nat) :=
  let start := i32 (i32 (i32 (rect.top + i) * img.w) + rect.left)
  let stop := i32 (start + rect.w)
  if asU64 start ≤ asU64 stop ∧ asU64 stop ≤ img.len then
    some (asU64 start, asU64 stop - asU64 start)
  else none

/-- A slice with other pixels. -/
def setSlice (img : Image) (start n : Nat) (f : Nat → UInt32 → UInt32) : Image :=
  { img with
    data := fun k => if start ≤ k ∧ k < start + n then f (k - start) (img.data k) else img.data k }

/-- The body of the loop of `set` -/
def setRow (rect : Rect) (color : UInt32) (img : Image) (i : Nat) : Option Image := do
  let (start, n) ← img.row rect i
  return img.setSlice start n fun _ old => mix color old

/-- `image.roi(rect).set` -/
def set (img : Image) (rect : Rect) (color : UInt32) : Option Image :=
  if 0 < alpha color then (List.range rect.h.toNat).foldlM (setRow rect color) img else some img

/-- The body of the loop of `blit` and `blend` over the rows of two parts -/
def zipRow (f : UInt32 → UInt32 → UInt32) (rect : Rect) (other : Image) (rect' : Rect) (img : Image)
    (i : Nat) : Option Image := do
  let (start, n) ← img.row rect i
  if i < rect'.h.toNat then
    let (start', n') ← other.row rect' i
    return img.setSlice start (min n n') fun k old => f (other.data (start' + k)) old
  else return img

/-- That loop: one more row is taken of the first part than of a second that ends before it. -/
def zipRows (f : UInt32 → UInt32 → UInt32) (img : Image) (rect : Rect) (other : Image)
    (rect' : Rect) : Option Image :=
  (List.range (min rect.h.toNat (rect'.h.toNat + 1))).foldlM (zipRow f rect other rect') img

/-- `image.roi(rect).blit(other.roi(rect'))` -/
def blit : Image → Rect → Image → Rect → Option Image := zipRows fun new _ => new

/-- `image.roi(rect).blend(other.roi(rect'))` -/
def blend : Image → Rect → Image → Rect → Option Image := zipRows mix

def pixel (img : Image) (px py : Int) : UInt32 := img.data (py * img.w + px).toNat

/-- The image has a pixel for each of its points, and few enough to be counted. -/
structure Sized (img : Image) : Prop where
  w_nonneg : 0 ≤ img.w
  h_nonneg : 0 ≤ img.h
  w_lt : img.w < 2 ^ 31
  h_lt : img.h < 2 ^ 31
  len : img.len = (img.w * img.h).toNat
  small : img.w * img.h < 2 ^ 31

def rect (img : Image) (hs : img.Sized) : Rect := ⟨0, 0, img.w, img.h, hs.w_nonneg, hs.h_nonneg⟩

variable {img other : Image} {r r' : Rect} {px py : Int}

/-- The point lies in the image. -/
def Has (img : Image) (px py : Int) : Prop := 0 ≤ px ∧ px < img.w ∧ 0 ≤ py ∧ py < img.h

/-- The rectangle lies in the image. -/
def Holds (img : Image) (r : Rect) : Prop :=
  0 ≤ r.x ∧ r.x + r.w ≤ img.w ∧ 0 ≤ r.y ∧ r.y + r.h ≤ img.h

/-- The places of the points come row by row. -/
theorem place_lt {w y y' x : Int} (hy : y < y') (hx : x < w) (hw : 0 ≤ w) : y * w + x < y' * w := by
  have hle : (y + 1) * w ≤ y' * w := Int.mul_le_mul_of_nonneg_right (by omega) hw
  have hexp : (y + 1) * w = y * w + w := by ring
  omega

/-- A row of a part of the image lies in its pixels. -/
theorem row_of_holds (hs : img.Sized) (hr : img.Holds r) {i : Nat} (hi : i < r.h.toNat) :
    img.row r i = some (((r.y + i) * img.w + r.x).toNat, r.w.toNat) := by
  obtain ⟨hx, hxw, hy, hyh⟩ := hr
  have hsmall := hs.small
  have hw0 := hs.w_nonneg
  have hrw := r.w_nonneg
  have hrow : (r.y + i + 1) * img.w ≤ img.h * img.w :=
    Int.mul_le_mul_of_nonneg_right (by omega) hw0
  have hexp : (r.y + i + 1) * img.w = (r.y + i) * img.w + img.w := by ring
  have hcomm : img.h * img.w = img.w * img.h := by ring
  have hnonneg : 0 ≤ (r.y + i) * img.w := Int.mul_nonneg (by omega) hw0
  have hh := hs.h_lt
  have hw := hs.w_lt
  have hi' : (i : Int) < r.h := by omega
  unfold row
  dsimp only [Rect.top, Rect.left]
  rw [i32_of_range (z := r.y + i) (by omega) (by omega),
    i32_of_range (z := (r.y + i) * img.w) (by omega) (by omega),
    i32_of_range (z := (r.y + i) * img.w + r.x) (by omega) (by omega),
    i32_of_range (z := (r.y + i) * img.w + r.x + r.w) (by omega) (by omega),
    asU64_of_nonneg (by omega) (by omega), asU64_of_nonneg (by omega) (by omega), hs.len,
    if_pos ⟨by omega, by omega⟩]
  congr 2
  omega

/-- Two images of one size. -/
def Same (a b : Image) : Prop := a.w = b.w ∧ a.h = b.h ∧ a.len = b.len

/-- What a slice of a row changes: the points of the row. -/
theorem pixel_setSlice (hr : img.Holds r) (hw : 0 ≤ img.w) {i : Nat} (hi : i < r.h.toNat)
    (f : Nat → UInt32 → UInt32) (hp : img.Has px py) :
    (img.setSlice ((r.y + i) * img.w + r.x).toNat r.w.toNat f).pixel px py =
      if r.Has px py ∧ py = r.y + i then f (px - r.x).toNat (img.pixel px py)
      else img.pixel px py := by
  obtain ⟨hx, hxw, hy, hyh⟩ := hr
  obtain ⟨hpx, hpw, hpy, hph⟩ := hp
  have hrw := r.w_nonneg
  have hstart : 0 ≤ (r.y + i) * img.w := Int.mul_nonneg (by omega) hw
  have hplace : 0 ≤ py * img.w := Int.mul_nonneg hpy hw
  show (if ((r.y + i) * img.w + r.x).toNat ≤ (py * img.w + px).toNat ∧ (py * img.w + px).toNat <
      ((r.y + i) * img.w + r.x).toNat + r.w.toNat then
    f ((py * img.w + px).toNat - ((r.y + i) * img.w + r.x).toNat) (img.pixel px py)
    else img.pixel px py) = _
  by_cases heq : py = r.y + i
  · subst heq
    by_cases hin : r.x ≤ px ∧ px < r.x + r.w
    · rw [if_pos (by omega), if_pos ⟨⟨hin.1, hin.2, by omega, by omega⟩, rfl⟩]
      congr 1
      omega
    · rw [if_neg (by omega), if_neg (fun h => hin ⟨h.1.1, h.1.2.1⟩)]
  · rw [if_neg, if_neg (fun h => heq h.2)]
    rcases Int.lt_or_gt_of_ne heq with hlt | hgt
    · have := place_lt (w := img.w) (x := px) hlt hpw hw
      omega
    · have := place_lt (w := img.w) (x := r.x + r.w - 1) hgt (by omega) hw
      omega

/-- A loop over the rows of a part of the image, and what it does with each point. -/
theorem foldRows_spec {step : Image → Nat → Option Image} {g : Nat → Nat → UInt32 → UInt32}
    (hs : img.Sized) (hr : img.Holds r)
    (hstep : ∀ j i, j.Same img → i < r.h.toNat →
      step j i = some (j.setSlice ((r.y + i) * img.w + r.x).toNat r.w.toNat (g i))) :
    ∀ n ≤ r.h.toNat, ∃ j, (List.range n).foldlM step img = some j ∧ j.Same img ∧
      ∀ px py, img.Has px py → j.pixel px py =
        if r.Has px py ∧ py < r.y + n then g (py - r.y).toNat (px - r.x).toNat (img.pixel px py)
        else img.pixel px py := by
  intro n
  induction n with
  | zero =>
    intro _
    refine ⟨img, rfl, ⟨rfl, rfl, rfl⟩, ?_⟩
    intro px py _
    rw [if_neg]
    rintro ⟨⟨_, _, hy, _⟩, hlt⟩
    omega
  | succ n ih =>
    intro hn
    obtain ⟨j, hj, hsame, hpix⟩ := ih (by omega)
    have hnext := hstep j n hsame (by omega)
    refine ⟨j.setSlice ((r.y + n) * img.w + r.x).toNat r.w.toNat (g n), ?_, hsame, ?_⟩
    · rw [List.range_succ, List.foldlM_append, hj]
      simp [hnext]
    · intro px py hp
      have hpj : j.Has px py := by
        rw [Has, hsame.1, hsame.2.1]
        exact hp
      have hrj : j.Holds r := by
        rw [Holds, hsame.1, hsame.2.1]
        exact hr
      have hset := pixel_setSlice hrj (by rw [hsame.1]; exact hs.w_nonneg) (i := n) (by omega) (g n) hpj
      rw [hsame.1] at hset
      have hold := hpix px py hp
      by_cases hin : r.Has px py
      · rcases Int.lt_trichotomy py (r.y + n) with hlt | heq | hgt
        · rw [if_pos ⟨hin, hlt⟩] at hold
          rw [hset, if_neg (fun h => by omega), hold, if_pos ⟨hin, by omega⟩]
        · have hrow : (py - r.y).toNat = n := by omega
          rw [if_neg (fun h => by omega)] at hold
          rw [hset, if_pos ⟨hin, heq⟩, hold, if_pos ⟨hin, by omega⟩, hrow]
        · rw [if_neg (fun h => by omega)] at hold
          rw [hset, if_neg (fun h => by omega), hold, if_neg (fun h => by omega)]
      · rw [if_neg (fun h => hin h.1)] at hold
        rw [hset, if_neg (fun h => hin h.1), hold, if_neg (fun h => hin h.1)]

/-- A loop over all rows of a part of the image. -/
theorem allRows_spec {step : Image → Nat → Option Image} {g : Nat → Nat → UInt32 → UInt32}
    (hs : img.Sized) (hr : img.Holds r)
    (hstep : ∀ j i, j.Same img → i < r.h.toNat →
      step j i = some (j.setSlice ((r.y + i) * img.w + r.x).toNat r.w.toNat (g i))) :
    ∃ j, (List.range r.h.toNat).foldlM step img = some j ∧ j.Same img ∧
      ∀ px py, img.Has px py → j.pixel px py =
        if r.Has px py then g (py - r.y).toNat (px - r.x).toNat (img.pixel px py)
        else img.pixel px py := by
  obtain ⟨j, hj, hsame, hpix⟩ := foldRows_spec hs hr hstep r.h.toNat le_rfl
  refine ⟨j, hj, hsame, ?_⟩
  intro px py hp
  rw [hpix px py hp]
  by_cases hin : r.Has px py
  · have hlt : py < r.y + r.h.toNat := by
      have := hin.2.2.2
      omega
    rw [if_pos ⟨hin, hlt⟩, if_pos hin]
  · rw [if_neg (fun h => hin h.1), if_neg hin]

theorem Same.sized {j : Image} (h : j.Same img) (hs : img.Sized) : j.Sized := by
  obtain ⟨hw, hh, hl⟩ := h
  constructor
  · exact hw ▸ hs.w_nonneg
  · exact hh ▸ hs.h_nonneg
  · exact hw ▸ hs.w_lt
  · exact hh ▸ hs.h_lt
  · rw [hl, hw, hh]
    exact hs.len
  · rw [hw, hh]
    exact hs.small

theorem Same.holds {j : Image} (h : j.Same img) (hr : img.Holds r) : j.Holds r := by
  rw [Holds, h.1, h.2.1]
  exact hr

theorem mix_transparent {color old : UInt32} (h : ¬ 0 < alpha color) : mix color old = old := by
  have h255 : ¬ 255 ≤ alpha color := by
    intro hle
    exact h (UInt32.lt_of_lt_of_le (by decide) hle)
  rw [mix, if_neg h255, if_neg h]

theorem set_spec (hs : img.Sized) (hr : img.Holds r) (color : UInt32) :
    ∃ j, img.set r color = some j ∧ j.Same img ∧ ∀ px py, img.Has px py → j.pixel px py =
      if r.Has px py then mix color (img.pixel px py) else img.pixel px py := by
  unfold set
  split
  · apply allRows_spec (g := fun _ _ old => mix color old) hs hr
    intro j i hsame hi
    have hrow := row_of_holds (hsame.sized hs) (hsame.holds hr) hi
    rw [hsame.1] at hrow
    rw [setRow, hrow]
    rfl
  next h =>
    refine ⟨img, rfl, ⟨rfl, rfl, rfl⟩, ?_⟩
    intro px py _
    rw [mix_transparent h, ite_self]

/-- Two parts of one size are copied or mixed point by point. -/
theorem zipRows_spec (f : UInt32 → UInt32 → UInt32) (hs : img.Sized) (hr : img.Holds r)
    (ho : other.Sized) (hr' : other.Holds r') (hw : r'.w = r.w) (hh : r'.h = r.h) :
    ∃ j, zipRows f img r other r' = some j ∧ j.Same img ∧ ∀ px py, img.Has px py →
      j.pixel px py = if r.Has px py then
        f (other.pixel (px - r.x + r'.x) (py - r.y + r'.y)) (img.pixel px py)
      else img.pixel px py := by
  unfold zipRows
  rw [hh, Nat.min_eq_left (Nat.le_succ _)]
  have hstep : ∀ j i, j.Same img → i < r.h.toNat → zipRow f r other r' j i =
      some (j.setSlice ((r.y + i) * img.w + r.x).toNat r.w.toNat fun k old =>
        f (other.data (((r'.y + i) * other.w + r'.x).toNat + k)) old) := by
    intro j i hsame hi
    have hi' : i < r'.h.toNat := by rwa [hh]
    have hrow := row_of_holds (hsame.sized hs) (hsame.holds hr) hi
    have hrow' := row_of_holds ho hr' hi'
    rw [hsame.1] at hrow
    rw [hw] at hrow'
    rw [zipRow, hrow]
    simp only [Option.pure_def, Option.bind_eq_bind, Option.bind_some, if_pos hi', hrow',
      Nat.min_self]
  obtain ⟨j, hj, hsame, hpix⟩ := allRows_spec hs hr hstep
  refine ⟨j, hj, hsame, ?_⟩
  intro px py hp
  rw [hpix px py hp]
  split
  next hin =>
    obtain ⟨hx, hxw, hy, hyh⟩ := hin
    obtain ⟨hx', _, hy', _⟩ := hr'
    have hnonneg : 0 ≤ (py - r.y + r'.y) * other.w := Int.mul_nonneg (by omega) ho.w_nonneg
    have hplace : ((r'.y + (py - r.y).toNat) * other.w + r'.x).toNat + (px - r.x).toNat =
        ((py - r.y + r'.y) * other.w + (px - r.x + r'.x)).toNat := by
      have hrow : r'.y + ((py - r.y).toNat : Int) = py - r.y + r'.y := by omega
      rw [hrow]
      omega
    rw [hplace]
    rfl
  · rfl

end Image

end Origel.Orbital
