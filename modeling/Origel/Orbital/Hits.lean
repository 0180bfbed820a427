import Mathlib.Data.List.TakeWhile
import Origel.Orbital.Layers
import Origel.Orbital.Reads

/-! Mouse events: which window gets one, and which window is seen at its place. -/
namespace Origel.Orbital

/-- The last coordinate that an `i32` has. -/
def last : Int := 2 ^ 31 - 1

/-- A coordinate of an `i32` -/
def Coordinate (p : Int) : Prop := -2 ^ 31 ≤ p ∧ p ≤ last
  deriving Decidable

/-- The coordinate is one of those from `lo` to before `hi`. Where `hi` is the last of all, it counts
as well: what is right of it wraps. -/
def Inner (lo hi p : Int) : Prop := lo ≤ p ∧ (p < hi ∨ p = hi ∧ p = last)

/-- The coordinate is the first one after those of the side. -/
def Edge (lo hi p : Int) : Prop := lo ≤ p ∧ p = hi ∧ p < last

/-- The difference to the coordinate overflows. -/
def Far (lo hi p : Int) : Prop := p + 1 + 2 ^ 31 < lo ∨ hi + 2 ^ 31 < p ∨ hi < p ∧ p = last

theorem Edge.not_inner {lo hi p : Int} (h : Edge lo hi p) : ¬ Inner lo hi p := by
  unfold Edge Inner at *
  omega

theorem Far.not_inner {lo hi p : Int} (h : Far lo hi p) : ¬ Inner lo hi p := by
  unfold Far Inner at *
  omega

theorem Far.not_edge {lo hi p : Int} (h : Far lo hi p) : ¬ Edge lo hi p := by
  unfold Far Edge at *
  omega

theorem i32_of_low {z : Int} (hl : -2 ^ 32 ≤ z) (hr : z < -2 ^ 31) : i32 z = z + 2 ^ 32 := by
  have hwrap : i32 z = i32 (z + 2 ^ 32) := (Int.add_bmod_right z (2 ^ 32)).symm
  rw [hwrap, i32_of_range (by omega) (by omega)]

/-- One side of the intersection with a single pixel. -/
theorem side_pos_iff {lo hi p : Int} (hlo : Coordinate lo) (hhi : Coordinate hi) (hle : lo ≤ hi)
    (hp : Coordinate p) :
    0 < i32 (min hi (i32 (p + 1)) - max lo p) ↔ Inner lo hi p ∨ Far lo hi p := by
  unfold Coordinate Inner Far last at *
  by_cases hlast : p = 2 ^ 31 - 1
  · have hnext : i32 (p + 1) = -2 ^ 31 := by
      rw [hlast]
      decide
    rw [hnext, i32_of_low (by omega) (by omega)]
    omega
  · rw [i32_of_range (z := p + 1) (by omega) (by omega)]
    by_cases hlow : min hi (p + 1) - max lo p < -2 ^ 31
    · rw [i32_of_low (by omega) hlow]
      omega
    · rw [i32_of_range (by omega) (by omega)]
      omega

namespace Rect

variable {r : Rect} {px py : Int}

/-- `Rect::new(x, y, 1, 1)` -/
def pixel (x y : Int) : Rect := ⟨x, y, 1, 1, by decide, by decide⟩

/-- The corners are inside the range of an `i32`. -/
structure Ranged (r : Rect) : Prop where
  x : Coordinate r.x
  y : Coordinate r.y
  right : Coordinate (r.x + r.w)
  bottom : Coordinate (r.y + r.h)

/-- The point is on the right or the bottom edge. -/
def Edged (r : Rect) (px py : Int) : Prop :=
  (Inner r.x (r.x + r.w) px ∨ Edge r.x (r.x + r.w) px) ∧
    (Inner r.y (r.y + r.h) py ∨ Edge r.y (r.y + r.h) py) ∧
    (Edge r.x (r.x + r.w) px ∨ Edge r.y (r.y + r.h) py)

/-- The point is so far away that the intersection with it wraps. -/
def Wrapped (r : Rect) (px py : Int) : Prop :=
  (Inner r.x (r.x + r.w) px ∨ Far r.x (r.x + r.w) px) ∧
    (Inner r.y (r.y + r.h) py ∨ Far r.y (r.y + r.h) py) ∧
    (Far r.x (r.x + r.w) px ∨ Far r.y (r.y + r.h) py)

theorem Ranged.right_eq (h : r.Ranged) : r.right = r.x + r.w := by
  obtain ⟨_, _, hright, _⟩ := h
  unfold Coordinate last at hright
  exact i32_of_range hright.1 (by omega)

theorem Ranged.bottom_eq (h : r.Ranged) : r.bottom = r.y + r.h := by
  obtain ⟨_, _, _, hbottom⟩ := h
  unfold Coordinate last at hbottom
  exact i32_of_range hbottom.1 (by omega)

theorem contains_iff (h : r.Ranged) (hx : Coordinate px) (hy : Coordinate py) :
    r.contains px py = true ↔
      (Inner r.x (r.x + r.w) px ∨ Edge r.x (r.x + r.w) px) ∧
        (Inner r.y (r.y + r.h) py ∨ Edge r.y (r.y + r.h) py) := by
  simp only [contains, decide_eq_true_eq, h.right_eq, h.bottom_eq, left, top]
  unfold Coordinate Inner Edge last at *
  omega

theorem meets_iff (h : r.Ranged) (hx : Coordinate px) (hy : Coordinate py) :
    (r.intersection (pixel px py)).isEmpty = false ↔
      (Inner r.x (r.x + r.w) px ∨ Far r.x (r.x + r.w) px) ∧
        (Inner r.y (r.y + r.h) py ∨ Far r.y (r.y + r.h) py) := by
  have hw := r.w_nonneg
  have hh := r.h_nonneg
  rw [not_isEmpty, ← side_pos_iff h.x h.right (by omega) hx, ← side_pos_iff h.y h.bottom (by omega) hy]
  show 0 < max 0 (i32 (min r.right (i32 (px + 1)) - max r.x px)) ∧
    0 < max 0 (i32 (min r.bottom (i32 (py + 1)) - max r.y py)) ↔ _
  rw [h.right_eq, h.bottom_eq]
  omega

/-- A rectangle contains a point just where it meets its pixel, but on its right and bottom edges
and beyond the range of differences. -/
theorem contains_iff_meets (h : r.Ranged) (hx : Coordinate px) (hy : Coordinate py) :
    (r.contains px py = true ↔ (r.intersection (pixel px py)).isEmpty = false) ↔
      ¬ r.Edged px py ∧ ¬ r.Wrapped px py := by
  rw [contains_iff h hx hy, meets_iff h hx hy, Edged, Wrapped]
  constructor
  · intro hiff
    constructor
    · rintro ⟨hix, hiy, hedge | hedge⟩
      · rcases (hiff.mp ⟨hix, hiy⟩).1 with hin | hfar
        · exact hedge.not_inner hin
        · exact hfar.not_edge hedge
      · rcases (hiff.mp ⟨hix, hiy⟩).2 with hin | hfar
        · exact hedge.not_inner hin
        · exact hfar.not_edge hedge
    · rintro ⟨hix, hiy, hfar | hfar⟩
      · rcases (hiff.mpr ⟨hix, hiy⟩).1 with hin | hedge
        · exact hfar.not_inner hin
        · exact hfar.not_edge hedge
      · rcases (hiff.mpr ⟨hix, hiy⟩).2 with hin | hedge
        · exact hfar.not_inner hin
        · exact hfar.not_edge hedge
  · rintro ⟨hedged, hwrapped⟩
    constructor
    · rintro ⟨hix, hiy⟩
      constructor
      · exact .inl (hix.resolve_right fun hedge => hedged ⟨hix, hiy, .inl hedge⟩)
      · exact .inl (hiy.resolve_right fun hedge => hedged ⟨hix, hiy, .inr hedge⟩)
    · rintro ⟨hix, hiy⟩
      constructor
      · exact .inl (hix.resolve_right fun hfar => hwrapped ⟨hix, hiy, .inl hfar⟩)
      · exact .inl (hiy.resolve_right fun hfar => hwrapped ⟨hix, hiy, .inr hfar⟩)

/-- On a display a rectangle contains the points that it has, and those on two of its edges. -/
theorem contains_iff_has_or_edged (h : r.Ranged) (hx : Coordinate px) (hy : Coordinate py)
    (hxlast : px < last) (hylast : py < last) :
    r.contains px py = true ↔ r.Has px py ∨ r.Edged px py := by
  rw [contains_iff h hx hy]
  unfold Edged Has Inner Edge
  omega

end Rect

namespace Window

variable {w : Window} {px py : Int}

/-- A mouse event at the point does not go past the window. -/
def hit (w : Window) (px py : Int) : Bool :=
  w.rect.any (·.contains px py) || w.titleRect.any (·.contains px py)

/-- The picture or the title bar of the window has the point. -/
def covers (w : Window) (px py : Int) : Bool :=
  w.rect.any (fun r => r.Has px py) || w.titleRect.any (fun r => r.Has px py)

/-- The point is on an edge of the picture or the title bar. -/
def Edged (w : Window) (px py : Int) : Prop :=
  (∃ r, w.rect = some r ∧ r.Edged px py) ∨ ∃ r, w.titleRect = some r ∧ r.Edged px py

/-- The corners of the picture and of the title bar are inside the range of an `i32`. -/
structure Ranged (w : Window) : Prop where
  rect : ∀ r, w.rect = some r → r.Ranged
  title : ∀ r, w.titleRect = some r → r.Ranged

theorem covers_iff : w.covers px py = true ↔ w.Touches px py := by
  simp only [covers, Touches, Bool.or_eq_true, Option.any_eq_true, decide_eq_true_eq]
  exact or_comm

theorem hit_iff (h : w.Ranged) (hx : Coordinate px) (hy : Coordinate py) (hxlast : px < last)
    (hylast : py < last) : w.hit px py = true ↔ w.covers px py = true ∨ w.Edged px py := by
  have hcontains : ∀ r : Rect, r.Ranged →
      (r.contains px py = true ↔ r.Has px py ∨ r.Edged px py) :=
    fun r hr => Rect.contains_iff_has_or_edged hr hx hy hxlast hylast
  simp only [hit, covers, Edged, Bool.or_eq_true, Option.any_eq_true, decide_eq_true_eq]
  constructor
  · rintro (⟨r, hr, hc⟩ | ⟨r, hr, hc⟩)
    · rcases (hcontains r (h.rect r hr)).mp hc with hhas | hedge
      · exact .inl (.inl ⟨r, hr, hhas⟩)
      · exact .inr (.inl ⟨r, hr, hedge⟩)
    · rcases (hcontains r (h.title r hr)).mp hc with hhas | hedge
      · exact .inl (.inr ⟨r, hr, hhas⟩)
      · exact .inr (.inr ⟨r, hr, hedge⟩)
  · rintro ((⟨r, hr, hp⟩ | ⟨r, hr, hp⟩) | ⟨r, hr, hp⟩ | ⟨r, hr, hp⟩)
    · exact .inl ⟨r, hr, (hcontains r (h.rect r hr)).mpr (.inl hp)⟩
    · exact .inr ⟨r, hr, (hcontains r (h.title r hr)).mpr (.inl hp)⟩
    · exact .inl ⟨r, hr, (hcontains r (h.rect r hr)).mpr (.inr hp)⟩
    · exact .inr ⟨r, hr, (hcontains r (h.title r hr)).mpr (.inr hp)⟩

end Window

/-- Two searches, of which one finds all that the other does, find the same just if nothing that it
alone finds comes first. -/
theorem find?_eq_iff {α : Type} {p q : α → Bool} (h : ∀ a, q a = true → p a = true) (as : List α) :
    as.find? p = as.find? q ↔ ∀ a ∈ as.takeWhile (fun a => !q a), p a = false := by
  induction as with
  | nil => simp
  | cons a as ih =>
    cases hq : q a with
    | true => simp [hq, h a hq]
    | false =>
      cases hp : p a with
      | true =>
        simp only [List.find?_cons, hp, hq, List.takeWhile_cons, Bool.not_false, if_true]
        constructor
        · intro heq
          have hfound := List.find?_some heq.symm
          rw [hq] at hfound
          cases hfound
        · intro hnone
          have hfalse := hnone a List.mem_cons_self
          rw [hp] at hfalse
          cases hfalse
      | false =>
        simp only [List.find?_cons, hp, hq, List.takeWhile_cons, Bool.not_false, if_true,
          List.forall_mem_cons, true_and]
        exact ih

namespace OrbitalScheme

open Origel.Lib

variable {o : Outside} {s s' : OrbitalScheme} {px py : Int} {old : UInt32}

def hitAt (s : OrbitalScheme) (px py : Int) (id : Nat) : Bool := (s.windows.get id).any (·.hit px py)

def coversAt (s : OrbitalScheme) (px py : Int) (id : Nat) : Bool :=
  (s.windows.get id).any (·.covers px py)

/-- The window that a mouse event at the point goes to -/
def receiver (s : OrbitalScheme) (px py : Int) : Option Nat := s.order.find? (s.hitAt px py)

/-- The window that is seen at the point -/
def topmost (s : OrbitalScheme) (px py : Int) : Option Nat := s.order.find? (s.coversAt px py)

/-- The windows before the one that is seen at the point -/
def above (s : OrbitalScheme) (px py : Int) : List Nat :=
  s.order.takeWhile fun id => !s.coversAt px py id

/-- The point is on an edge of the window with an id. -/
def EdgedAt (s : OrbitalScheme) (px py : Int) (id : Nat) : Prop :=
  ∃ w, s.windows.get id = some w ∧ w.Edged px py

/-- What a mouse event does at the window that it goes to. -/
def Received (o : Outside) (s : OrbitalScheme) (e : Event) (s' : OrbitalScheme) :
    Option Nat → Prop
  | none => s' = s
  | some id => ∃ w r, s.windows.get id = some w ∧ w.rect = some r ∧
    if r.contains (i32 e.a) (i32 e.b) then
      s' = s.modify id (·.event { e with a := asI64 (e.a - w.x), b := asI64 (e.b - w.y) })
    else
      s' = s ∨ s' = s.modify id (·.event o.quitEvent) ∨
        s' = { s with dragging := true, dragX := s.cursorX, dragY := s.cursorY }

theorem press_received (hs : s.Sized) (e : Event) (ids : List Nat) (i : Nat) :
    ∃ s' focus, s.press o e ids i = some (s', focus) ∧
      s.Received o e s' (ids.find? (s.hitAt (i32 e.a) (i32 e.b))) := by
  induction ids generalizing i with
  | nil => exact ⟨s, 0, rfl, rfl⟩
  | cons id ids ih =>
    unfold press
    cases hw : s.windows.get id with
    | none =>
      have hhit : s.hitAt (i32 e.a) (i32 e.b) id = false := by
        rw [hitAt, hw]
        rfl
      rw [List.find?_cons, hhit]
      exact ih (i + 1)
    | some w =>
      obtain ⟨bar, hbar⟩ := Window.titleRect_of_sized (hs.windows id w hw)
      obtain ⟨r, hrect, _⟩ := Window.rect_of_sized (hs.windows id w hw)
      have hhit : s.hitAt (i32 e.a) (i32 e.b) id =
          (r.contains (i32 e.a) (i32 e.b) || bar.contains (i32 e.a) (i32 e.b)) := by
        rw [hitAt, hw, Option.any_some, Window.hit, hrect, hbar, Option.any_some, Option.any_some]
      dsimp only
      rw [hrect, hbar, List.find?_cons, hhit]
      simp only [Option.bind_eq_bind, Option.bind_some, Option.pure_def]
      cases hr : r.contains (i32 e.a) (i32 e.b) with
      | true =>
        simp only [if_true, Bool.true_or]
        exact ⟨_, _, rfl, w, r, hw, hrect, by rw [if_pos hr]⟩
      | false =>
        simp only [Bool.false_eq_true, if_false, Bool.false_or]
        cases hb : bar.contains (i32 e.a) (i32 e.b) with
        | true =>
          simp only [if_true]
          split
          · split
            · exact ⟨_, _, rfl, w, r, hw, hrect, by rw [hr]; exact .inr (.inl rfl)⟩
            · exact ⟨_, _, rfl, w, r, hw, hrect, by rw [hr]; exact .inr (.inr rfl)⟩
          · exact ⟨s, 0, rfl, w, r, hw, hrect, by rw [hr]; exact .inl rfl⟩
        | false => exact ih (i + 1)

theorem touched_iff {id : Nat} : s.Touched id px py ↔ s.coversAt px py id = true := by
  unfold Touched coversAt look
  cases s.windows.get id with
  | none => simp
  | some w => simp [Window.touches_plain, Window.covers_iff]

/-- What is seen at a point: the window with an id, or what is under all of them. -/
def Seen (o : Outside) (s : OrbitalScheme) (px py : Int) (old color : UInt32) :
    Option Nat → Prop
  | none => color = old
  | some id => ∃ focused below, color = s.layer o focused id px py below

theorem seen_under (ids : List Nat) :
    s.Seen o px py old (s.under o ids px py old) (ids.find? (s.coversAt px py)) := by
  induction ids with
  | nil => rfl
  | cons id ids ih =>
    rw [List.find?_cons]
    cases hid : s.coversAt px py id with
    | true => exact ⟨false, _, rfl⟩
    | false =>
      have hnot : ¬ s.Touched id px py := by
        rw [touched_iff, hid]
        exact Bool.false_ne_true
      rw [under_cons_of_not_touched hnot]
      exact ih

/-- The first window in the order that has the point is drawn last there. -/
theorem seen_topmost : s.Seen o px py old (s.windowsAct o px py old) (s.topmost px py) := by
  unfold topmost
  cases horder : s.order with
  | nil => exact windowsAct_nil horder
  | cons id rest =>
    rw [windowsAct_cons horder, List.find?_cons]
    cases hid : s.coversAt px py id with
    | true => exact ⟨true, _, rfl⟩
    | false =>
      have hnot : ¬ s.Touched id px py := by
        rw [touched_iff, hid]
        exact Bool.false_ne_true
      rw [layer_of_not_touched hnot]
      exact seen_under rest

/-- A scheduled pixel shows the cursor over the window that is seen there. -/
theorem redraw_seen (hs : s.Sized) {box : Box} (hb : s.InBox box) (hp : s.image.Has px py)
    (hscheduled : ∃ r ∈ s.redraws, r.Has px py) :
    ∃ image old color, s.redraw o = some { s with image := image, redraws := [] } ∧
      image.pixel px py = s.cursorAct px py color ∧ s.Seen o px py old color (s.topmost px py) := by
  obtain ⟨image, hredraw, _, hpix⟩ := redraw_spec o hs hb
  obtain ⟨old, hold⟩ := (hpix px py hp).1 hscheduled
  exact ⟨image, _, _, hredraw, hold, seen_topmost⟩

theorem coordinates_of_has (hs : s.Sized) (hp : s.image.Has px py) :
    Coordinate px ∧ Coordinate py ∧ px < last ∧ py < last := by
  obtain ⟨hx, hxw, hy, hyh⟩ := hp
  have hdisplay := hs.display
  have hw : s.image.w ≤ s.image.w * s.image.h := le_mul_of_one_le_right (by omega) (by omega)
  have hh : s.image.h ≤ s.image.w * s.image.h := le_mul_of_one_le_left (by omega) (by omega)
  unfold Coordinate last
  omega

/-- The window that an event goes to is the one that is seen just if no window before that one has
the point on an edge. -/
theorem receiver_eq_topmost_iff (hs : s.Sized)
    (hranged : ∀ id w, s.windows.get id = some w → w.Ranged) (hp : s.image.Has px py) :
    s.receiver px py = s.topmost px py ↔ ∀ id ∈ s.above px py, ¬ s.EdgedAt px py id := by
  obtain ⟨hx, hy, hxlast, hylast⟩ := coordinates_of_has hs hp
  have hhit : ∀ id, s.hitAt px py id = true ↔
      s.coversAt px py id = true ∨ s.EdgedAt px py id := by
    intro id
    unfold hitAt coversAt EdgedAt
    cases hw : s.windows.get id with
    | none => simp
    | some w => simp [Window.hit_iff (hranged id w hw) hx hy hxlast hylast]
  rw [receiver, topmost, find?_eq_iff fun id h => (hhit id).mpr (.inl h)]
  have hbefore : ∀ id ∈ s.above px py, (s.hitAt px py id = false ↔ ¬ s.EdgedAt px py id) := by
    intro id hid
    have hnot : s.coversAt px py id = false := by
      have h := List.mem_takeWhile_imp hid
      rwa [Bool.not_eq_true'] at h
    rw [← Bool.not_eq_true, hhit, hnot]
    simp
  exact forall₂_congr hbefore

/-- Hit testing and drawing agree but on the right and the bottom edges. -/
theorem hit_testing_iff (o : Outside) (s : OrbitalScheme) (e : Event) :
    (∀ (r : Rect) (px py : Int), r.Ranged → Coordinate px → Coordinate py →
      ((r.contains px py = true ↔ (r.intersection (Rect.pixel px py)).isEmpty = false) ↔
        ¬ r.Edged px py ∧ ¬ r.Wrapped px py)) ∧
    (s.Sized →
      (∀ id w, s.windows.get id = some w → w.Ranged) → s.image.Has (i32 e.a) (i32 e.b) →
      (∃ s' focus, s.press o e s.order 0 = some (s', focus) ∧
        s.Received o e s' (s.receiver (i32 e.a) (i32 e.b))) ∧
      (∀ box, s.InBox box → (∃ r ∈ s.redraws, r.Has (i32 e.a) (i32 e.b)) →
        ∃ image old color, s.redraw o = some { s with image := image, redraws := [] } ∧
          image.pixel (i32 e.a) (i32 e.b) = s.cursorAct (i32 e.a) (i32 e.b) color ∧
          s.Seen o (i32 e.a) (i32 e.b) old color (s.topmost (i32 e.a) (i32 e.b))) ∧
      (s.receiver (i32 e.a) (i32 e.b) = s.topmost (i32 e.a) (i32 e.b) ↔
        ∀ id ∈ s.above (i32 e.a) (i32 e.b), ¬ s.EdgedAt (i32 e.a) (i32 e.b) id)) := by
  constructor
  · intro r px py hr hx hy
    exact Rect.contains_iff_meets hr hx hy
  · intro hs hranged hp
    refine ⟨press_received hs e s.order 0, ?_, receiver_eq_topmost_iff hs hranged hp⟩
    intro box hb hscheduled
    exact redraw_seen hs hb hp hscheduled

/-- Two windows of ten by ten pixels side by side, the left one in front -/
def pair : OrbitalScheme :=
  let picture : Image := ⟨10, 10, 100, fun _ => 0⟩
  let left : Window := ⟨0, 0, false, picture, [], [], ⟨[], []⟩⟩
  let right : Window := ⟨10, 0, false, picture, [], [], ⟨[], []⟩⟩
  { image := ⟨20, 10, 200, fun _ => 0⟩
    background := Server.nothing
    cursor := Server.nothing
    cursorX := 0
    cursorY := 0
    dragging := false
    dragX := 0
    dragY := 0
    winKey := false
    nextId := 3
    nextX := 20
    nextY := 20
    order := [1, 2]
    windows := (SortedMap.empty.insert 1 left).insert 2 right
    redraws := [⟨0, 0, 20, 10, by decide, by decide⟩]
    todo := [] }

theorem pair_windows {P : Window → Prop} (h : ∀ e ∈ pair.windows.entries, P e.2) :
    ∀ id w, pair.windows.get id = some w → P w :=
  fun id w hw => h (id, w) (SortedMap.get_eq_some.mp hw)

theorem pair_sized : pair.Sized := by
  have hpicture : ∀ w ∈ pair.windows.entries, w.2.image.Sized := by
    intro w hw
    rcases List.mem_cons.mp hw with rfl | hw
    · constructor <;> decide
    · rw [List.mem_singleton.mp hw]
      constructor <;> decide
  have hempty : Server.nothing.Sized := by constructor <;> decide
  exact ⟨by constructor <;> decide, by decide, hempty, hempty, pair_windows hpicture⟩

theorem pair_ranged : ∀ id w, pair.windows.get id = some w → w.Ranged := by
  apply pair_windows
  intro w hw
  rcases List.mem_cons.mp hw with rfl | hw
  · constructor <;> rintro r ⟨⟩ <;> constructor <;> decide
  · rw [List.mem_singleton.mp hw]
    constructor <;> rintro r ⟨⟩ <;> constructor <;> decide

/-- A click within the right window -/
theorem hit_testing_iff_pair :
    ((Rect.contains ⟨0, 0, 10, 10, by decide, by decide⟩ 5 5 = true ↔
        (Rect.intersection ⟨0, 0, 10, 10, by decide, by decide⟩ (Rect.pixel 5 5)).isEmpty = false) ↔
      ¬ Rect.Edged ⟨0, 0, 10, 10, by decide, by decide⟩ 5 5 ∧
        ¬ Rect.Wrapped ⟨0, 0, 10, 10, by decide, by decide⟩ 5 5) ∧
    (∃ s' focus, pair.press Server.plain ⟨2, 15, 5, 1⟩ [1, 2] 0 = some (s', focus) ∧
      pair.Received Server.plain ⟨2, 15, 5, 1⟩ s' (pair.receiver 15 5)) ∧
    (∃ image old color, pair.redraw Server.plain = some { pair with image := image, redraws := [] } ∧
      image.pixel 15 5 = pair.cursorAct 15 5 color ∧
      pair.Seen Server.plain 15 5 old color (pair.topmost 15 5)) ∧
    (pair.receiver 15 5 = pair.topmost 15 5 ↔
      ∀ id ∈ pair.above 15 5, ¬ pair.EdgedAt 15 5 id) := by
  let box : Box := ⟨-100, -100, 100, 100, by decide, by decide, by decide, by decide, by decide,
    by decide⟩
  obtain ⟨hcontains, hhits⟩ := hit_testing_iff Server.plain pair ⟨2, 15, 5, 1⟩
  obtain ⟨hpress, hredraw, hiff⟩ := hhits pair_sized pair_ranged ⟨by decide, by decide, by decide, by decide⟩
  refine ⟨hcontains _ 5 5 (by constructor <;> decide) (by decide) (by decide), hpress, ?_, hiff⟩
  exact hredraw box (by decide) ⟨_, List.mem_singleton_self _, by decide⟩

/-- On the edge between two windows the left one contains the point, and the right one is seen. -/
theorem edge_hits_the_other :
    (Rect.contains ⟨0, 0, 10, 10, by decide, by decide⟩ 10 5 = true ∧
      (Rect.intersection ⟨0, 0, 10, 10, by decide, by decide⟩ (Rect.pixel 10 5)).isEmpty = true) ∧
    pair.receiver 10 5 = some 1 ∧ pair.topmost 10 5 = some 2 := by
  decide

end OrbitalScheme

end Origel.Orbital
