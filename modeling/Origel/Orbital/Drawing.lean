import Origel.Orbital.Scheme

/-! What drawing does to each point of a part of the screen. -/
namespace Origel.Orbital

open Origel.Lib

/-- What becomes of a point of an image. -/
abbrev Act := Int → Int → UInt32 → UInt32

/-- What is done to the points of a rectangle. -/
def Rect.paint (r : Rect) (act : Act) : Act :=
  fun px py old => if r.Has px py then act px py old else old

/-- One picture is copied into or mixed with what is under it. -/
def Image.pasted (f : UInt32 → UInt32 → UInt32) (picture : Image) (place : Rect) : Act :=
  place.paint fun px py old => f (picture.pixel (px - place.x) (py - place.y)) old

/-- Drawing in the part `clip` of an image of the size of `size` ends, does `act` to each of its
points, and nothing to the others. -/
def Draws (size : Image) (clip : Rect) (f : Image → Option Image) (act : Act) : Prop :=
  ∀ img : Image, img.Same size → ∃ j, f img = some j ∧ j.Same size ∧ ∀ px py, size.Has px py →
    j.pixel px py = if clip.Has px py then act px py (img.pixel px py) else img.pixel px py

variable {size picture : Image} {clip place r : Rect} {f g : Image → Option Image} {a b : Act}
  {box : Box}

theorem Draws.nothing : Draws size clip some fun _ _ old => old := by
  intro img hs
  exact ⟨img, rfl, hs, fun px py _ => (ite_self _).symm⟩

theorem Draws.comp (hf : Draws size clip f a) (hg : Draws size clip g b) :
    Draws size clip (fun img => f img >>= g) fun px py old => b px py (a px py old) := by
  intro img hs
  obtain ⟨j, hj, hsj, hpj⟩ := hf img hs
  obtain ⟨k, hk, hsk, hpk⟩ := hg j hsj
  refine ⟨k, Option.bind_eq_some_iff.mpr ⟨j, hj, hk⟩, hsk, ?_⟩
  intro px py hp
  rw [hpk px py hp, hpj px py hp]
  split <;> rfl

theorem Draws.congr (hf : Draws size clip f a)
    (h : ∀ px py old, clip.Has px py → a px py old = b px py old) : Draws size clip f b := by
  intro img hs
  obtain ⟨j, hj, hsj, hpj⟩ := hf img hs
  refine ⟨j, hj, hsj, ?_⟩
  intro px py hp
  rw [hpj px py hp]
  split
  next hc => exact h px py _ hc
  · rfl

theorem Draws.ite {c : Prop} [Decidable c] (hf : c → Draws size clip f a)
    (hg : ¬ c → Draws size clip g b) :
    Draws size clip (fun img => if c then f img else g img)
      fun px py old => if c then a px py old else b px py old := by
  by_cases hc : c
  · simp only [if_pos hc]
    exact hf hc
  · simp only [if_neg hc]
    exact hg hc

/-- A loop that draws does so step by step. -/
theorem Draws.foldlM {ι : Type} (draw : Image → ι → Option Image) {act : ι → Act} (is : List ι)
    (h : ∀ i ∈ is, Draws size clip (draw · i) (act i)) :
    Draws size clip (is.foldlM draw) fun px py old => is.foldl (fun old i => act i px py old) old := by
  induction is with
  | nil => exact .nothing
  | cons i is ih =>
    have hrest := ih fun j hj => h j (List.mem_cons_of_mem i hj)
    exact (h i (List.mem_cons_self ..)).comp hrest

theorem Image.Holds.within (hc : size.Holds clip) (h : r.Within clip) : size.Holds r := by
  simp only [Image.Holds, Rect.Within] at *
  omega

theorem Image.Same.trans {i j : Image} (h : i.Same j) (h' : j.Same size) : i.Same size :=
  ⟨h.1.trans h'.1, h.2.1.trans h'.2.1, h.2.2.trans h'.2.2⟩

theorem Image.Same.has {j : Image} {px py : Int} (h : j.Same size) (hp : size.Has px py) :
    j.Has px py := by
  rw [Image.Has, h.1, h.2.1]
  exact hp

theorem Rect.paint_of_has {px py : Int} {old : UInt32} (h : r.Has px py) :
    r.paint a px py old = a px py old := if_pos h

theorem Rect.paint_of_not_has {px py : Int} {old : UInt32} (h : ¬ r.Has px py) :
    r.paint a px py old = old := if_neg h

theorem set_draws (hs : size.Sized) (hc : size.Holds clip) (hr : r.Within clip) (color : UInt32) :
    Draws size clip (·.set r color) (r.paint fun _ _ => mix color) := by
  intro img himg
  have hholds := himg.holds (hc.within hr)
  obtain ⟨j, hj, hsj, hpj⟩ := Image.set_spec (himg.sized hs) hholds color
  refine ⟨j, hj, hsj.trans himg, ?_⟩
  intro px py hp
  rw [hpj px py (himg.has hp)]
  by_cases hin : r.Has px py
  · rw [if_pos hin, if_pos (hr.has hin), Rect.paint_of_has hin]
  · rw [if_neg hin, Rect.paint_of_not_has hin, ite_self]

theorem i32_add_i32 (x y : Int) : i32 (x + i32 y) = i32 (x + y) := Int.add_bmod_bmod

theorem Rect.intersection_comm (r r' : Rect) : r.intersection r' = r'.intersection r := by
  unfold Rect.intersection
  simp only [max_comm, min_comm]

/-- The picture fills the place. -/
structure Image.Fills (picture : Image) (place : Rect) : Prop where
  sized : picture.Sized
  w : place.w = picture.w
  h : place.h = picture.h

/-- What is seen of a picture at a place lies where it does in the picture. -/
theorem offset_within (hf : picture.Fills place) (hr : r.Within place) :
    let r' := r.offset (i32 (-place.left)) (i32 (-place.top))
    r'.x = r.x - place.x ∧ r'.y = r.y - place.y ∧ picture.Holds r' := by
  intro r'
  have hw := hf.sized.w_lt
  have hh := hf.sized.h_lt
  have hpw := hf.w
  have hph := hf.h
  have hrw := r.w_nonneg
  have hrh := r.h_nonneg
  obtain ⟨h1, h2, h3, h4⟩ := hr
  have hx : r'.x = r.x - place.x := by
    show i32 (r.x + i32 (-place.x)) = _
    rw [i32_add_i32, i32_of_range (by omega) (by omega)]
    omega
  have hy : r'.y = r.y - place.y := by
    show i32 (r.y + i32 (-place.y)) = _
    rw [i32_add_i32, i32_of_range (by omega) (by omega)]
    omega
  refine ⟨hx, hy, ?_⟩
  rw [Image.Holds, hx, hy]
  show 0 ≤ _ ∧ _ + r.w ≤ _ ∧ 0 ≤ _ ∧ _ + r.h ≤ _
  omega

/-- A picture is drawn where the part of the screen meets its place. -/
theorem part_draws (f : UInt32 → UInt32 → UInt32) (hs : size.Sized) (hc : size.Holds clip)
    (hf : picture.Fills place) (hcb : clip.In box) (hpb : place.In box) :
    Draws size clip
      (drawPart (Image.zipRows f) · (clip.intersection place) picture place)
      (picture.pasted f place) := by
  intro img himg
  unfold drawPart
  split
  next he =>
    refine ⟨img, rfl, himg, ?_⟩
    intro px py _
    split
    next hin =>
      refine (Rect.paint_of_not_has ?_).symm
      intro hplace
      exact Rect.not_has_of_isEmpty he ((Rect.has_intersection hcb hpb px py).mpr ⟨hin, hplace⟩)
    · rfl
  next he =>
    obtain ⟨hclip, hplace⟩ := Rect.intersection_within hcb hpb (Bool.not_eq_true _ ▸ he)
    obtain ⟨hx, hy, hholds⟩ := offset_within hf hplace
    obtain ⟨j, hj, hsj, hpj⟩ := Image.zipRows_spec f (himg.sized hs)
      (himg.holds (hc.within hclip)) hf.sized hholds rfl rfl
    refine ⟨j, hj, hsj.trans himg, ?_⟩
    intro px py hp
    rw [hpj px py (himg.has hp), hx, hy]
    have hboth := Rect.has_intersection hcb hpb px py
    by_cases hin : clip.Has px py
    · rw [if_pos hin]
      by_cases hat : place.Has px py
      · rw [if_pos (hboth.mpr ⟨hin, hat⟩), Image.pasted, Rect.paint_of_has hat]
        congr 2 <;> omega
      · rw [if_neg (fun h => hat (hboth.mp h).2), Image.pasted, Rect.paint_of_not_has hat]
    · rw [if_neg (fun h => hin (hboth.mp h).1), if_neg hin]

namespace Window

variable {w : Window} {o : Outside} {focused : Bool} {bar : Rect} {x : Int}

/-- What a character of the title bar does to what is under it. -/
def charAct (o : Outside) (titleRect : Rect) (focused : Bool) (c : Char) (x : Int) : Act :=
  (o.render c (if focused then o.TEXT_HIGHLIGHT_COLOR else o.TEXT_COLOR)).pasted mix
    ⟨x, i32 (titleRect.top + 1), 8, 16, by decide, by decide⟩

def charsAct (o : Outside) (w : Window) (titleRect : Rect) (focused : Bool) :
    List Char → Int → Act
  | [], _, _, _, old => old
  | c :: cs, x, px, py, old =>
    if x < max (i32 (w.x + 2)) w.exitLeft then
      charsAct o w titleRect focused cs (i32 (x + 8)) px py
        (charAct o titleRect focused c x px py old)
    else old

/-- What a title bar does to what is under it. -/
def titleAct (o : Outside) (w : Window) (titleRect : Rect) (focused : Bool) : Act :=
  titleRect.paint fun px py old =>
    let old := mix (if focused then o.BAR_HIGHLIGHT_COLOR else o.BAR_COLOR) old
    let old := charsAct o w titleRect focused w.title (i32 (w.x + 2)) px py old
    let x := max (i32 (w.x + 2)) w.exitLeft
    if i32 (x + 10) ≤ i32 (w.x + w.width) then charAct o titleRect focused 'X' x px py old
    else old

/-- What a window does to what is under it. -/
def act (o : Outside) (w : Window) (focused : Bool) : Act := fun px py old =>
  match w.titleRect, w.rect with
  | some titleRect, some rect =>
    w.image.pasted (fun new _ => new) rect px py (w.titleAct o titleRect focused px py old)
  | _, _ => old

theorem render_fills (c : Char) (color : UInt32) (x y : Int) (hw : 0 ≤ (8 : Int))
    (hh : 0 ≤ (16 : Int)) : (o.render c color).Fills ⟨x, y, 8, 16, hw, hh⟩ := by
  refine ⟨?_, rfl, rfl⟩
  constructor <;> simp [Outside.render]

/-- A title bar of which some is seen, on a display that an `i32` measures -/
structure Shown (w : Window) (bar : Rect) (box : Box) : Prop where
  left : bar.x = w.x
  width : bar.w = w.width
  height : bar.h = 18
  inBox : bar.In box
  left_lt : w.x + 12 < 2 ^ 31
  right_gt : 0 < w.x + w.width

theorem Shown.start (h : w.Shown bar box) : i32 (w.x + 2) = w.x + 2 := by
  have hbox := box.left_ge
  have hleft := h.left_lt
  have hx := h.left
  have hin := h.inBox.1
  exact i32_of_range (by omega) (by omega)

theorem Shown.stop (h : w.Shown bar box) : i32 (w.x + w.width) = w.x + w.width := by
  have hright := Rect.right_of_in h.inBox
  rwa [Rect.right, h.left, h.width] at hright

theorem Shown.exitLeft (h : w.Shown bar box) : w.exitLeft = w.x + w.width - 10 := by
  have hbox := box.right_lt
  have hin := h.inBox.2.1
  have hx := h.left
  have hw := h.width
  have hright := h.right_gt
  rw [Window.exitLeft, h.stop]
  exact i32_of_range (by omega) (by omega)

theorem Shown.next (h : w.Shown bar box) (hl : w.x + 2 ≤ x)
    (hr : x < max (w.x + 2) (w.x + w.width - 10)) : i32 (x + 8) = x + 8 := by
  have hbl := box.left_ge
  have hbr := box.right_lt
  have hx := h.left
  have hw := h.width
  obtain ⟨hleft, hright, _, _⟩ := h.inBox
  exact i32_of_range (by omega) (by omega)

/-- A character that starts right of the left edge and ends left of the right one lies in the
title bar. -/
theorem Shown.char_within (h : w.Shown bar box) (hl : w.x ≤ x) (hr : x + 8 ≤ w.x + w.width)
    (hw : 0 ≤ (8 : Int)) (hh : 0 ≤ (16 : Int)) :
    Rect.Within ⟨x, i32 (bar.top + 1), 8, 16, hw, hh⟩ bar := by
  have hx := h.left
  have hwidth := h.width
  have hheight := h.height
  obtain ⟨_, _, htop, hbottom⟩ := h.inBox
  have hbt := box.top_ge
  have hbb := box.bottom_lt
  have hy : i32 (bar.top + 1) = bar.y + 1 :=
    i32_of_range (show -2 ^ 31 ≤ bar.y + 1 by omega) (show bar.y + 1 < 2 ^ 31 by omega)
  rw [hy]
  simp only [Rect.Within]
  omega

theorem drawChar_draws (o : Outside) (focused : Bool) (hs : size.Sized) (hc : size.Holds clip) (hcb : clip.In box)
    (h : w.Shown bar box) (hl : w.x ≤ x) (hr : x + 8 ≤ w.x + w.width) (c : Char) :
    Draws size clip (drawChar o · clip bar focused c x)
      (charAct o bar focused c x) := by
  have hbox := (h.char_within hl hr (by decide) (by decide)).in h.inBox
  exact part_draws mix hs hc (render_fills c _ x _ _ _) hcb hbox

/-- The characters of a title are drawn one after the other, up to the exit. -/
theorem drawChars_draws (o : Outside) (focused : Bool) (hs : size.Sized) (hc : size.Holds clip) (hcb : clip.In box)
    (h : w.Shown bar box) (cs : List Char) (hl : w.x + 2 ≤ x) :
    Draws size clip (drawChars o w clip bar focused · cs x)
      (charsAct o w bar focused cs x) := by
  induction cs generalizing x with
  | nil => exact .nothing
  | cons c cs ih =>
    have hact : charsAct o w bar focused (c :: cs) x = fun px py old =>
        if x < max (w.x + 2) (w.x + w.width - 10) then
          charsAct o w bar focused cs (i32 (x + 8)) px py
            (charAct o bar focused c x px py old)
        else old := by
      rw [← h.start, ← h.exitLeft]
      rfl
    unfold drawChars
    rw [hact, h.start, h.exitLeft]
    apply Draws.ite
    · intro hx
      have hright : x + 8 ≤ w.x + w.width := by omega
      rw [h.next hl hx]
      exact (drawChar_draws o focused hs hc hcb h (by omega) hright c).comp (ih (by omega))
    · intro _
      exact .nothing

/-- Characters do nothing beside the title bar. -/
theorem charAct_of_not_has {px py : Int} {old : UInt32} (h : w.Shown bar box)
    (hl : w.x ≤ x) (hr : x + 8 ≤ w.x + w.width) (c : Char) (hp : ¬ bar.Has px py) :
    charAct o bar focused c x px py old = old := by
  apply Rect.paint_of_not_has
  intro hin
  exact hp ((h.char_within hl hr _ _).has hin)

theorem charsAct_of_not_has {px py : Int} {old : UInt32} (h : w.Shown bar box)
    (cs : List Char) (hl : w.x + 2 ≤ x) (hp : ¬ bar.Has px py) :
    charsAct o w bar focused cs x px py old = old := by
  induction cs generalizing x old with
  | nil => rfl
  | cons c cs ih =>
    unfold charsAct
    rw [h.start, h.exitLeft]
    split
    next hx =>
      have hright : x + 8 ≤ w.x + w.width := by omega
      rw [h.next hl hx, charAct_of_not_has h (by omega) hright c hp]
      exact ih (by omega)
    · rfl

theorem titleRect_eq_some (h : w.titleRect = some bar) :
    bar = .default ∨ bar.x = w.x ∧ bar.y = i32 (w.y - 18) ∧
      bar.w = w.width ∧ bar.h = 18 := by
  unfold titleRect at h
  split at h
  · exact .inl (Option.some.inj h).symm
  · exact .inr (Rect.new_eq_some.mp h)

/-- The title bar of which some is seen on a display. -/
theorem shown_of_seen (hd : size.w * size.h * 4 < 2 ^ 31) (hs : size.Sized) (hc : size.Holds clip)
    (hcb : clip.In box) (ht : w.titleRect = some bar) (hbb : bar.In box)
    (he : (clip.intersection bar).isEmpty = false) : w.Shown bar box := by
  obtain ⟨hpw, hph⟩ := Rect.not_isEmpty.mp he
  obtain ⟨hclip, hbar⟩ := Rect.intersection_within hcb hbb he
  simp only [Image.Holds, Rect.Within] at hc hclip hbar
  rcases titleRect_eq_some ht with rfl | ⟨hx, hy, hw, hh⟩
  · have hzero : Rect.default.w = 0 := rfl
    omega
  · have hrow : size.w * 1 ≤ size.w * size.h :=
      Int.mul_le_mul_of_nonneg_left (by omega) hs.w_nonneg
    exact ⟨hx, hw, hh, hbb, by omega, by omega⟩

/-- The exit, where there is room for it -/
theorem Shown.exit_right (h : w.Shown bar box)
    (hx : i32 (max (i32 (w.x + 2)) w.exitLeft + 10) ≤ i32 (w.x + w.width)) :
    w.x ≤ max (i32 (w.x + 2)) w.exitLeft ∧
      max (i32 (w.x + 2)) w.exitLeft + 8 ≤ w.x + w.width := by
  have hbl := box.left_ge
  have hbr := box.right_lt
  have hleft := h.left
  have hwidth := h.width
  have hlt := h.left_lt
  obtain ⟨hin, hin', _, _⟩ := h.inBox
  rw [h.start, h.exitLeft, h.stop] at hx
  rw [h.start, h.exitLeft]
  rw [i32_of_range (by omega) (by omega)] at hx
  omega

/-- A title bar is drawn on the part of the screen that it meets. -/
theorem drawTitle_draws (o : Outside) (focused : Bool) (hd : size.w * size.h * 4 < 2 ^ 31) (hs : size.Sized)
    (hc : size.Holds clip) (hcb : clip.In box) (ht : w.titleRect = some bar) (hbb : bar.In box) :
    Draws size clip (w.drawTitle o · clip focused) (w.titleAct o bar focused) := by
  unfold drawTitle
  rw [ht]
  simp only [Option.bind_eq_bind, Option.bind_some, Option.pure_def]
  have hmeets := Rect.has_intersection hcb hbb
  cases he : (clip.intersection bar).isEmpty with
  | true =>
    apply Draws.nothing.congr
    intro px py old hp
    refine (Rect.paint_of_not_has ?_).symm
    intro hin
    exact Rect.not_has_of_isEmpty he ((hmeets px py).mpr ⟨hp, hin⟩)
  | false =>
    have hshown := shown_of_seen hd hs hc hcb ht hbb he
    have hwithin := (Rect.intersection_within hcb hbb he).1
    have hset := set_draws hs hc hwithin
      (if focused then o.BAR_HIGHLIGHT_COLOR else o.BAR_COLOR)
    have hchars := drawChars_draws o focused hs hc hcb hshown w.title
      (le_refl (w.x + 2))
    have hexit := Draws.ite (c := i32 (max (i32 (w.x + 2)) w.exitLeft + 10) ≤ i32 (w.x + w.width))
      (fun hx => drawChar_draws o focused hs hc hcb hshown
        (hshown.exit_right hx).1 (hshown.exit_right hx).2 'X') (fun _ => Draws.nothing)
    rw [← hshown.start] at hchars
    have hall := hset.comp (hchars.comp hexit)
    simp only [Bool.false_eq_true, if_false]
    apply hall.congr
    intro px py old hp
    by_cases hin : bar.Has px py
    · rw [titleAct, Rect.paint_of_has hin, Rect.paint_of_has ((hmeets px py).mpr ⟨hp, hin⟩)]
    · rw [titleAct, Rect.paint_of_not_has hin,
        Rect.paint_of_not_has fun h => hin ((hmeets px py).mp h).2]
      rw [hshown.start, charsAct_of_not_has hshown w.title le_rfl hin]
      split
      next hx =>
        rw [← hshown.start] at hx ⊢
        obtain ⟨hl, hr⟩ := hshown.exit_right hx
        exact charAct_of_not_has hshown hl hr 'X' hin
      · rfl

/-- The places of a window lie in the box. -/
structure InBox (w : Window) (box : Box) : Prop where
  title : ∀ r, w.titleRect = some r → r.In box
  rect : ∀ r, w.rect = some r → r.In box

instance : Decidable (w.InBox box) :=
  decidable_of_iff ((∀ r ∈ w.titleRect, r.In box) ∧ ∀ r ∈ w.rect, r.In box)
    ⟨fun h => ⟨h.1, h.2⟩, fun h => ⟨h.title, h.rect⟩⟩

theorem rect_of_sized (hs : w.image.Sized) :
    ∃ r, w.rect = some r ∧ r.x = w.x ∧ r.y = w.y ∧ r.w = w.width ∧ r.h = w.height :=
  ⟨_, Rect.new_of_nonneg hs.w_nonneg hs.h_nonneg, rfl, rfl, rfl, rfl⟩

theorem titleRect_of_sized (hs : w.image.Sized) : ∃ r, w.titleRect = some r := by
  unfold titleRect
  split
  · exact ⟨_, rfl⟩
  · exact ⟨_, Rect.new_of_nonneg hs.w_nonneg (by decide)⟩

/-- A window is drawn as its title bar and then its picture. -/
theorem window_draws (o : Outside) (focused : Bool) (hd : size.w * size.h * 4 < 2 ^ 31) (hs : size.Sized)
    (hc : size.Holds clip) (hcb : clip.In box) (hw : w.image.Sized) (hb : w.InBox box) :
    Draws size clip (fun img => w.drawTitle o img clip focused >>= (w.draw · clip))
      (w.act o focused) := by
  obtain ⟨bar, ht⟩ := titleRect_of_sized hw
  obtain ⟨r, hr, _, _, hrw, hrh⟩ := rect_of_sized hw
  have hdraw : Draws size clip (w.draw · clip) (w.image.pasted (fun new _ => new) r) := by
    unfold draw
    rw [hr]
    simp only [Option.bind_eq_bind, Option.bind_some]
    rw [Rect.intersection_comm]
    exact part_draws _ hs hc ⟨hw, hrw, hrh⟩ hcb (hb.rect r hr)
  have hboth := (drawTitle_draws o focused hd hs hc hcb ht
    (hb.title bar ht)).comp hdraw
  apply hboth.congr
  intro px py old _
  rw [act, ht, hr]

end Window

namespace OrbitalScheme

variable {o : Outside} {s : OrbitalScheme}

/-- The colour of the screen where nothing covers it -/
def baseColor (o : Outside) : UInt32 := o.rgb 75 163 253

/-- What the window at a place in the order does to what is under it. -/
def windowAct (o : Outside) (s : OrbitalScheme) (e : Nat × Nat) : Act := fun px py old =>
  match s.windows.get e.1 with
  | some w => w.act o (e.2 = 0) px py old
  | none => old

/-- The windows from the last in the order to the first -/
def windowsAct (o : Outside) (s : OrbitalScheme) : Act := fun px py old =>
  s.order.zipIdx.reverse.foldl (fun old e => s.windowAct o e px py old) old

def backgroundAct (s : OrbitalScheme) : Act := fun px py old =>
  match s.backgroundRect with
  | some r => s.background.pasted (fun new _ => new) r px py old
  | none => old

def cursorAct (s : OrbitalScheme) : Act := fun px py old =>
  match s.cursorRect with
  | some r => s.cursor.pasted mix r px py old
  | none => old

/-- The composed screen: the background, the windows and the cursor, one over the other. -/
def composed (o : Outside) (s : OrbitalScheme) (px py : Int) : UInt32 :=
  s.cursorAct px py (s.windowsAct o px py (s.backgroundAct px py (baseColor o)))

/-- The pictures have all their pixels, and the bytes of the display are counted by an `i32`. -/
structure Sized (s : OrbitalScheme) : Prop where
  image : s.image.Sized
  display : s.image.w * s.image.h * 4 < 2 ^ 31
  background : s.background.Sized
  cursor : s.cursor.Sized
  windows : ∀ id w, s.windows.get id = some w → w.image.Sized

/-- What is scheduled and what is drawn lies in the box. -/
structure InBox (s : OrbitalScheme) (box : Box) : Prop where
  redraws : ∀ r ∈ s.redraws, r.In box
  screen : ∀ r, s.screenRect = some r → r.In box
  background : ∀ r, s.backgroundRect = some r → r.In box
  cursor : ∀ r, s.cursorRect = some r → r.In box
  windows : ∀ id w, s.windows.get id = some w → w.InBox box

instance : Decidable (s.InBox box) :=
  decidable_of_iff ((∀ r ∈ s.redraws, r.In box) ∧ (∀ r ∈ s.screenRect, r.In box) ∧
      (∀ r ∈ s.backgroundRect, r.In box) ∧ (∀ r ∈ s.cursorRect, r.In box) ∧
      ∀ e ∈ s.windows.entries, e.2.InBox box) <| by
    constructor
    · rintro ⟨hr, hs, hb, hc, hw⟩
      exact ⟨hr, hs, hb, hc, fun id w hg => hw (id, w) (SortedMap.get_eq_some.mp hg)⟩
    · intro h
      exact ⟨h.redraws, h.screen, h.background, h.cursor,
        fun e he => h.windows e.1 e.2 (SortedMap.get_eq_some.mpr he)⟩

theorem drawWindow_draws (o : Outside) (hs : s.Sized) (hb : s.InBox box) (hc : s.image.Holds clip)
    (hcb : clip.In box) (id i : Nat) :
    Draws s.image clip (s.drawWindow o clip · id i) (s.windowAct o (id, i)) := by
  unfold drawWindow windowAct
  cases hw : s.windows.get id with
  | none => exact .nothing
  | some w =>
    exact Window.window_draws o _ hs.display hs.image hc hcb (hs.windows id w hw) (hb.windows id w hw)

/-- A part of the screen is drawn anew. -/
theorem drawRect_draws (hs : s.Sized) (hb : s.InBox box) (hc : s.image.Holds clip)
    (hcb : clip.In box) {backgroundRect cursorRect : Rect}
    (hbackground : s.backgroundRect = some backgroundRect) (hcursor : s.cursorRect = some cursorRect) :
    Draws s.image clip (s.drawRect o backgroundRect cursorRect · clip) fun px py old =>
      s.cursorAct px py (s.windowsAct o px py (s.backgroundAct px py (mix (baseColor o) old))) := by
  have hself : clip.Within clip := ⟨le_rfl, le_rfl, le_rfl, le_rfl⟩
  obtain ⟨_, _, hbw, hbh⟩ := Rect.new_eq_some.mp hbackground
  obtain ⟨_, _, hcw, hch⟩ := Rect.new_eq_some.mp hcursor
  have hset := set_draws hs.image hc hself (baseColor o)
  have hunder := part_draws (fun new _ => new) hs.image hc ⟨hs.background, hbw, hbh⟩ hcb
    (hb.background _ hbackground)
  have hwindows := Draws.foldlM (fun img (e : Nat × Nat) => s.drawWindow o clip img e.1 e.2)
    s.order.zipIdx.reverse fun e _ => drawWindow_draws o hs hb hc hcb e.1 e.2
  have hover := part_draws mix hs.image hc ⟨hs.cursor, hcw, hch⟩ hcb (hb.cursor _ hcursor)
  have hall := hset.comp (hunder.comp (hwindows.comp hover))
  apply hall.congr
  intro px py old hp
  rw [Rect.paint_of_has hp]
  unfold backgroundAct cursorAct
  rw [hbackground, hcursor]
  rfl

/-- What a point becomes when it is drawn anew. -/
def drawnAct (o : Outside) (s : OrbitalScheme) : Act := fun px py old =>
  s.cursorAct px py (s.windowsAct o px py (s.backgroundAct px py (mix (baseColor o) old)))

theorem screenRect_of_sized (hs : s.image.Sized) : s.screenRect = some (s.image.rect hs) :=
  Rect.new_of_nonneg hs.w_nonneg hs.h_nonneg

theorem screen_has (hs : s.image.Sized) {px py : Int} :
    (s.image.rect hs).Has px py ↔ s.image.Has px py := by
  simp only [Image.rect, Rect.Has, Image.Has]
  omega

/-- The body of the loop of `redraw`, for one rectangle -/
def redrawRect (o : Outside) (s : OrbitalScheme) (screenRect backgroundRect cursorRect : Rect)
    (img : Image) (rect : Rect) : Option Image :=
  let rect := rect.intersection screenRect
  if rect.isEmpty then some img else s.drawRect o backgroundRect cursorRect img rect

/-- The points of a rectangle that are on the screen are drawn anew. -/
theorem redrawRect_spec (hs : s.Sized) (hb : s.InBox box) {backgroundRect cursorRect rect : Rect}
    (hbackground : s.backgroundRect = some backgroundRect) (hcursor : s.cursorRect = some cursorRect)
    (hr : rect.In box) (img : Image) (himg : img.Same s.image) :
    ∃ j, s.redrawRect o (s.image.rect hs.image) backgroundRect cursorRect img rect = some j ∧
      j.Same s.image ∧ ∀ px py, s.image.Has px py → j.pixel px py =
        if rect.Has px py then s.drawnAct o px py (img.pixel px py) else img.pixel px py := by
  have hscreen := hb.screen _ (screenRect_of_sized hs.image)
  have hmeets : ∀ px py, s.image.Has px py →
      ((rect.intersection (s.image.rect hs.image)).Has px py ↔ rect.Has px py) := by
    intro px py hp
    rw [Rect.has_intersection hr hscreen, screen_has]
    exact ⟨fun h => h.1, fun h => ⟨h, hp⟩⟩
  unfold redrawRect
  dsimp only
  split
  next he =>
    refine ⟨img, rfl, himg, ?_⟩
    intro px py hp
    rw [if_neg]
    intro hin
    exact Rect.not_has_of_isEmpty he ((hmeets px py hp).mpr hin)
  next he =>
    obtain ⟨hwr, hws⟩ := Rect.intersection_within hr hscreen (Bool.not_eq_true _ ▸ he)
    have hholds : s.image.Holds (rect.intersection (s.image.rect hs.image)) := by
      simp only [Rect.Within, Image.rect, Image.Holds] at hws ⊢
      omega
    obtain ⟨j, hj, hsame, hpix⟩ :=
      drawRect_draws (o := o) hs hb hholds (hwr.in hr) hbackground hcursor img himg
    refine ⟨j, hj, hsame, ?_⟩
    intro px py hp
    rw [hpix px py hp, if_congr (hmeets px py hp) rfl rfl]
    rfl

/-- What is scheduled is drawn anew, and nothing else. -/
theorem redrawRects_spec (hs : s.Sized) (hb : s.InBox box) {backgroundRect cursorRect : Rect}
    (hbackground : s.backgroundRect = some backgroundRect) (hcursor : s.cursorRect = some cursorRect)
    (redraws : List Rect) (hr : ∀ r ∈ redraws, r.In box) (img : Image) (himg : img.Same s.image) :
    ∃ j, redraws.foldlM (s.redrawRect o (s.image.rect hs.image) backgroundRect cursorRect) img =
        some j ∧ j.Same s.image ∧ ∀ px py, s.image.Has px py →
      ((∃ r ∈ redraws, r.Has px py) → ∃ old, j.pixel px py = s.drawnAct o px py old) ∧
      ((∀ r ∈ redraws, ¬ r.Has px py) → j.pixel px py = img.pixel px py) := by
  induction redraws generalizing img with
  | nil =>
    refine ⟨img, rfl, himg, ?_⟩
    intro px py _
    exact ⟨fun ⟨r, hr, _⟩ => (nomatch hr), fun _ => rfl⟩
  | cons r redraws ih =>
    obtain ⟨k, hk, hsame, hpix⟩ := redrawRect_spec (o := o) hs hb hbackground hcursor
      (hr r (List.mem_cons_self ..)) img himg
    obtain ⟨j, hj, hsame', hpix'⟩ := ih (fun r' hr' => hr r' (List.mem_cons_of_mem r hr')) k hsame
    refine ⟨j, ?_, hsame', ?_⟩
    · rw [List.foldlM_cons, hk]
      exact hj
    · intro px py hp
      obtain ⟨hin, hout⟩ := hpix' px py hp
      have hkp := hpix px py hp
      by_cases hlater : ∃ r' ∈ redraws, r'.Has px py
      · refine ⟨fun _ => hin hlater, ?_⟩
        intro hnone
        obtain ⟨r', hr', hhas⟩ := hlater
        exact (hnone r' (List.mem_cons_of_mem r hr') hhas).elim
      · have hnot : ∀ r' ∈ redraws, ¬ r'.Has px py := fun r' hr' h => hlater ⟨r', hr', h⟩
        rw [hout hnot, hkp]
        constructor
        · rintro ⟨r', hr', hhas⟩
          rcases List.mem_cons.mp hr' with rfl | hr'
          · exact ⟨img.pixel px py, if_pos hhas⟩
          · exact (hnot r' hr' hhas).elim
        · intro hnone
          exact if_neg (hnone r (List.mem_cons_self ..))

theorem redraw_spec (o : Outside) (hs : s.Sized) (hb : s.InBox box) :
    ∃ image, s.redraw o = some { s with image := image, redraws := [] } ∧
      image.Same s.image ∧ ∀ px py, s.image.Has px py →
      ((∃ r ∈ s.redraws, r.Has px py) → ∃ old, image.pixel px py = s.drawnAct o px py old) ∧
      ((∀ r ∈ s.redraws, ¬ r.Has px py) → image.pixel px py = s.image.pixel px py) := by
  have hcursor : s.cursorRect = some _ :=
    Rect.new_of_nonneg hs.cursor.w_nonneg hs.cursor.h_nonneg
  have hbackground : s.backgroundRect = some _ :=
    Rect.new_of_nonneg hs.background.w_nonneg hs.background.h_nonneg
  obtain ⟨image, hfold, hsame, hpix⟩ := redrawRects_spec (o := o) hs hb hbackground hcursor
    s.redraws hb.redraws s.image ⟨rfl, rfl, rfl⟩
  refine ⟨image, ?_, hsame, hpix⟩
  unfold redraw
  rw [screenRect_of_sized hs.image, hbackground, hcursor]
  simp only [Option.bind_eq_bind, Option.bind_some]
  rw [Option.bind_eq_some_iff]
  exact ⟨image, hfold, rfl⟩

end OrbitalScheme

end Origel.Orbital
