import Mathlib.Algebra.Order.Group.Nat
import Origel.Vesad.Keys

/-! The buffers of the screens of the display driver, and what is copied from them. -/
namespace Origel.Vesad

abbrev Pixel := UInt32

/-- The memory behind a pointer to pixels. -/
abbrev Buffer := Nat → Pixel

namespace Buffer

/-- `f` done to the `len` pixels from `offset` on. -/
def span (b : Buffer) (offset len : Nat) (f : Nat → Pixel → Pixel) : Buffer :=
  fun p => if offset ≤ p ∧ p < offset + len then f p (b p) else b p

/-- The loop `while rows > 0`, whose pointer goes on by `stride`. -/
def rows (f : Nat → Pixel → Pixel) (stride len : Nat) : Nat → Nat → Buffer → Buffer
  | _, 0, b => b
  | offset, n + 1, b => rows f stride len (offset + stride) n (b.span offset len f)

/-- `fast_set64` of `size / 2` words. -/
def clear (b : Buffer) (size : Nat) : Buffer := b.span 0 (2 * (size / 2)) fun _ _ => 0

end Buffer

structure Display where
  width : Nat
  height : Nat
  offscreen : Buffer

namespace Display

/-- The offscreen memory that is allocated is not empty. -/
def new (width height : Nat) (memory : Buffer) : Display :=
  ⟨width, height, memory.clear (width * height)⟩

def size (d : Display) : Nat := d.width * d.height

/-- What `rect`, `invert` and `sync` have in common: the rows they go through. -/
def region (d : Display) (x y w h : Nat) (f : Nat → Pixel → Pixel) (b : Buffer) : Buffer :=
  let start_y := min (d.height - 1) y
  let end_y := min d.height (y + h)
  let start_x := min (d.width - 1) x
  let len := min d.width (x + w) - start_x
  Buffer.rows f d.width len (y * d.width + start_x) (end_y - start_y) b

def rect (d : Display) (x y w h : Nat) (color : Pixel) : Display :=
  { d with offscreen := d.region x y w h (fun _ _ => color) d.offscreen }

def invert (d : Display) (x y w h : Nat) : Display :=
  { d with offscreen := d.region x y w h (fun _ color => ~~~color) d.offscreen }

/-- The glyphs are bitmaps in `FONT`, of eight columns and sixteen rows. -/
def char (FONT : List UInt8) (d : Display) (x y : Nat) (character : Char) (color : Pixel) : Display :=
  let font_i := 16 * character.toNat
  if x + 8 ≤ d.width ∧ y + 16 ≤ d.height then
    if font_i + 16 ≤ FONT.length then
      { d with
        offscreen := (List.range 16).foldl
          (fun b row =>
            let dst := y * d.width + x + row * d.width
            let row_data := FONT.getD (font_i + row) 0
            b.span dst 8 fun p old => if row_data.toNat.testBit (7 - (p - dst)) then color else old)
          d.offscreen }
    else d
  else d

/-- The pixels are moved in pairs. -/
def scroll (d : Display) (rows : Nat) (color : Pixel) : Display :=
  let width := d.width / 2
  if 0 < rows ∧ rows < d.height then
    let off1 := rows * width
    let off2 := d.height * width - off1
    { d with
      offscreen := fun p =>
        if p < 2 * off2 then d.offscreen (p + 2 * off1)
        else if p < 2 * (off2 + off1) then color
        else d.offscreen p }
  else d

/-- Copy from offscreen to onscreen. -/
def sync (d : Display) (x y w h : Nat) (onscreen : Buffer) : Buffer :=
  d.region x y w h (fun p _ => d.offscreen p) onscreen

/-- The loop over the rows of text that have changed. -/
def syncRows (d : Display) (changed : List Nat) (onscreen : Buffer) : Buffer :=
  changed.foldl (fun onscreen change => d.sync 0 (change * 16) d.width 16 onscreen) onscreen

/-- The row of text that a pixel is in. -/
def textRow (d : Display) (p : Nat) : Nat := p / d.width / 16

end Display

/-- What the console of the `ransid` crate reports. -/
inductive RansidEvent where
  | char (x y : Nat) (c : Char) (color : Pixel)
  | rect (x y w h : Nat) (color : Pixel)
  | scroll (rows : Nat) (color : Pixel)
  deriving DecidableEq, Repr

/-- The console of the `ransid` crate. -/
structure Ransid (κ : Type*) where
  new : Nat → Nat → κ
  write : κ → List UInt8 → κ × List RansidEvent
  rawMode : κ → Bool
  cursor : κ → Bool
  x : κ → Nat
  y : κ → Nat
  w : κ → Nat
  h : κ → Nat

structure TextScreen (κ : Type*) where
  console : κ
  display : Display
  /-- A set, in any order. -/
  changed : List Nat
  keys : Keys

structure GraphicScreen where
  display : Display
  seek : Nat
  mouseX : Int
  mouseY : Int
  input : List Event

/-- The pixel `i` of the bytes that a client writes. -/
def pixelAt (buf : List UInt8) (i : Nat) : Pixel :=
  (buf.getD (4 * i) 0).toUInt32 ||| (buf.getD (4 * i + 1) 0).toUInt32 <<< 8 |||
    (buf.getD (4 * i + 2) 0).toUInt32 <<< 16 ||| (buf.getD (4 * i + 3) 0).toUInt32 <<< 24

section Text

variable {κ : Type*} (R : Ransid κ) (FONT : List UInt8)

namespace TextScreen

def new (display : Display) : TextScreen κ :=
  ⟨R.new (display.width / 8) (display.height / 16), display, [], .new⟩

/-- The cursor is drawn, or taken away again. -/
def blink (t : TextScreen κ) : TextScreen κ :=
  if R.cursor t.console ∧ R.x t.console < R.w t.console ∧ R.y t.console < R.h t.console then
    { t with
      display := t.display.invert (R.x t.console * 8) (R.y t.console * 16) 8 16
      changed := t.changed.insert (R.y t.console) }
  else t

/-- The closure that draws what the console reports. -/
def draw (t : TextScreen κ) : RansidEvent → TextScreen κ
  | .char x y c color =>
    { t with
      display := t.display.char FONT (x * 8) (y * 16) c color
      changed := t.changed.insert y }
  | .rect x y w h color =>
    { t with
      display := t.display.rect (x * 8) (y * 16) (w * 8) (h * 16) color
      changed := (List.range' y h).foldl (fun changed y2 => changed.insert y2) t.changed }
  | .scroll rows color =>
    { t with
      display := t.display.scroll (rows * 16) color
      changed := (List.range (t.display.height / 16)).foldl (fun changed y => changed.insert y)
        t.changed }

def sync (t : TextScreen κ) (onscreen : Buffer) : TextScreen κ × Buffer :=
  ({ t with changed := [] }, t.display.syncRows t.changed onscreen)

def redraw (t : TextScreen κ) (onscreen : Buffer) : TextScreen κ × Buffer :=
  ({ t with changed := [] }, t.display.sync 0 0 t.display.width t.display.height onscreen)

/-- What a `write` does to the buffer of the screen. -/
def render (t : TextScreen κ) (buf : List UInt8) : TextScreen κ :=
  let t := blink R t
  let (console, events) := R.write t.console buf
  blink R { events.foldl (draw FONT) t with console }

def write (t : TextScreen κ) (onscreen : Buffer) (buf : List UInt8) (sync : Bool) :
    TextScreen κ × Buffer :=
  let t := render R FONT t buf
  if R.rawMode t.console = false ∧ sync then t.sync onscreen else (t, onscreen)

end TextScreen

end Text

namespace GraphicScreen

def new (display : Display) : GraphicScreen := ⟨display, 0, 0, 0, []⟩

/-- A sum of two `i32`, kept inside of the screen. -/
def moved (limit : Nat) (old delta : Int) : Int :=
  max 0 (min limit ((old + delta).bmod (2 ^ 32)))

def takeEvent (g : GraphicScreen) : Event → GraphicScreen
  | .mouse dx dy =>
    let x := moved g.display.width g.mouseX dx
    let y := moved g.display.height g.mouseY dy
    { g with mouseX := x, mouseY := y, input := g.input ++ [.mouse x y] }
  | event => { g with input := g.input ++ [event] }

/-- Room for `count` events. -/
def read (g : GraphicScreen) (count : Nat) : GraphicScreen × List Event :=
  ({ g with input := g.input.drop count }, g.input.take count)

/-- The pixels that a `write` has room for. -/
def writeSize (g : GraphicScreen) (buf : List UInt8) : Nat :=
  min (g.display.size - g.seek) (buf.length / 4)

/-- `fast_copy` of what there is room for. -/
def fill (g : GraphicScreen) (buf : List UInt8) (b : Buffer) : Buffer :=
  b.span g.seek (g.writeSize buf) fun p _ => pixelAt buf (p - g.seek)

def write (g : GraphicScreen) (onscreen : Buffer) (buf : List UInt8) (sync : Bool) :
    GraphicScreen × Buffer :=
  if g.writeSize buf > 0 then
    ({ g with display := { g.display with offscreen := g.fill buf g.display.offscreen } },
      if sync then g.fill buf onscreen else onscreen)
  else (g, onscreen)

/-- `whence` is one of `SEEK_SET`, `SEEK_CUR` and `SEEK_END`. -/
def seekTo (g : GraphicScreen) (pos : Nat) : Nat → Option Nat
  | 0 => some (min g.display.size (pos / 4))
  | 1 => some (min g.display.size (g.seek + pos / 4))
  | 2 => some (min g.display.size (g.display.size + pos / 4))
  | _ => none

def redraw (g : GraphicScreen) (onscreen : Buffer) : GraphicScreen × Buffer :=
  (g, g.display.sync 0 0 g.display.width g.display.height onscreen)

def sync (g : GraphicScreen) (onscreen : Buffer) : GraphicScreen × Buffer := g.redraw onscreen

end GraphicScreen

namespace Buffer

variable {b : Buffer} {f : Nat → Pixel → Pixel} {offset len stride n p : Nat}

theorem span_inside (h : offset ≤ p) (h' : p < offset + len) : b.span offset len f p = f p (b p) :=
  if_pos ⟨h, h'⟩

theorem span_outside (h : p < offset ∨ offset + len ≤ p) : b.span offset len f p = b p := by
  apply if_neg
  omega

/-- The rows above and below are left alone. -/
theorem rows_outside {x : Nat} (hlen : x + len ≤ stride) (h : p < offset ∨ offset + n * stride ≤ p) :
    rows f stride len (offset + x) n b p = b p := by
  induction n generalizing b offset with
  | zero => rfl
  | succ n ih =>
    rw [Nat.succ_mul] at h
    rw [rows, Nat.add_right_comm, ih (by omega)]
    exact span_outside (by omega)

/-- Whole rows that are copied. -/
theorem rows_copy {src : Buffer} (h : offset ≤ p) (h' : p < offset + n * stride) :
    rows (fun p _ => src p) stride stride offset n b p = src p := by
  induction n generalizing b offset with
  | zero => omega
  | succ n ih =>
    rw [Nat.succ_mul] at h'
    rw [rows]
    by_cases hnext : offset + stride ≤ p
    · exact ih hnext (by omega)
    · let first := b.span offset stride fun p _ => src p
      have hrest : rows (fun p _ => src p) stride stride (offset + stride + 0) n first p = first p :=
        rows_outside (Nat.le_of_eq (Nat.zero_add stride)) (Or.inl (by omega))
      rw [Nat.add_zero] at hrest
      rw [hrest]
      exact span_inside h (by omega)

theorem foldl_span_outside {l : List Nat} {dst : Nat → Nat} {f : Nat → Nat → Pixel → Pixel}
    (h : ∀ row ∈ l, p < dst row ∨ dst row + len ≤ p) :
    l.foldl (fun b row => b.span (dst row) len (f row)) b p = b p := by
  induction l generalizing b with
  | nil => rfl
  | cons row l ih =>
    rw [List.foldl_cons, ih fun r hr => h r (List.mem_cons_of_mem row hr)]
    exact span_outside (h row List.mem_cons_self)

/-- A pixel that is copied is the one of the source. -/
theorem rows_either {src : Buffer} {offset : Nat} :
    rows (fun p _ => src p) stride len offset n b p = b p ∨
      rows (fun p _ => src p) stride len offset n b p = src p := by
  induction n generalizing b offset with
  | zero => exact Or.inl rfl
  | succ n ih =>
    rw [rows]
    obtain hrest | hrest := ih
    · rw [hrest]
      by_cases hin : offset ≤ p ∧ p < offset + len
      · exact Or.inr (span_inside hin.1 hin.2)
      · exact Or.inl (if_neg hin)
    · exact Or.inr hrest

end Buffer

namespace Display

variable {d : Display} {b onscreen : Buffer} {f : Nat → Pixel → Pixel} {p y h : Nat}

theorem width_pos (hp : p < d.size) : 0 < d.width := by
  by_contra hzero
  rw [size, Nat.eq_zero_of_not_pos hzero, Nat.zero_mul] at hp
  exact Nat.not_lt_zero p hp

theorem textRow_lt (hp : p < d.size) : d.textRow p < y ↔ p < y * 16 * d.width := by
  rw [textRow, Nat.div_div_eq_div_mul,
    Nat.div_lt_iff_lt_mul (Nat.mul_pos (width_pos hp) (by decide)), Nat.mul_assoc,
    Nat.mul_comm 16]

theorem le_textRow (hp : p < d.size) : y ≤ d.textRow p ↔ y * 16 * d.width ≤ p := by
  rw [← not_lt, textRow_lt hp, not_lt]

/-- The pixels of other rows of text are left alone. -/
theorem region_outside {x w : Nat} (hp : p < d.size)
    (hrow : d.textRow p < y ∨ y + h ≤ d.textRow p) :
    d.region x (y * 16) w (h * 16) f b p = b p := by
  apply Buffer.rows_outside
  · omega
  · by_cases hy : y * 16 ≤ d.height - 1
    · obtain habove | hbelow := hrow
      · exact Or.inl ((textRow_lt hp).mp habove)
      · right
        have hrows : y * 16 + (min d.height (y * 16 + h * 16) - min (d.height - 1) (y * 16)) ≤
            (y + h) * 16 := by omega
        rw [← Nat.add_mul]
        exact (Nat.mul_le_mul_right _ hrows).trans ((le_textRow hp).mp hbelow)
    · left
      calc p < d.height * d.width := by rw [Nat.mul_comm]; exact hp
        _ ≤ y * 16 * d.width := Nat.mul_le_mul_right _ (by omega)

/-- The whole rows that are copied show the buffer. -/
theorem sync_inside (hp : p < d.size) (htop : y * d.width ≤ p) (hbottom : p < (y + h) * d.width) :
    d.sync 0 y d.width h onscreen p = d.offscreen p := by
  have hpos := width_pos hp
  have hheight : y < d.height := by
    rw [size, Nat.mul_comm] at hp
    exact Nat.lt_of_mul_lt_mul_right (htop.trans_lt hp)
  have hx : min (d.width - 1) 0 = 0 := Nat.min_zero _
  have hlen : min d.width (0 + d.width) - 0 = d.width := by omega
  unfold sync region
  rw [hx, hlen]
  apply Buffer.rows_copy htop
  rw [← Nat.add_mul]
  by_cases hend : d.height ≤ y + h
  · calc p < d.height * d.width := by rw [Nat.mul_comm]; exact hp
      _ ≤ _ := Nat.mul_le_mul_right _ (by omega)
  · exact hbottom.trans_le (Nat.mul_le_mul_right _ (by omega))

theorem sync_either {x w : Nat} :
    d.sync x y w h onscreen p = onscreen p ∨ d.sync x y w h onscreen p = d.offscreen p :=
  Buffer.rows_either

theorem sync_all (hp : p < d.size) : d.sync 0 0 d.width d.height onscreen p = d.offscreen p := by
  apply sync_inside hp (by rw [Nat.zero_mul]; exact Nat.zero_le p)
  rw [Nat.zero_add, Nat.mul_comm]
  exact hp

theorem sync_row (hp : p < d.size) (hrow : d.textRow p = y) :
    d.sync 0 (y * 16) d.width 16 onscreen p = d.offscreen p := by
  apply sync_inside hp ((le_textRow hp).mp hrow.ge)
  rw [← Nat.succ_mul]
  exact (textRow_lt hp).mp (by omega)

theorem syncRows_either (changed : List Nat) (onscreen : Buffer) :
    d.syncRows changed onscreen p = onscreen p ∨ d.syncRows changed onscreen p = d.offscreen p := by
  induction changed generalizing onscreen with
  | nil => exact Or.inl rfl
  | cons change changed ih =>
    rw [syncRows, List.foldl_cons, ← syncRows]
    obtain hrest | hrest := ih (d.sync 0 (change * 16) d.width 16 onscreen)
    · rw [hrest]
      exact sync_either
    · exact Or.inr hrest

/-- The rows that are copied show the buffer. -/
theorem syncRows_listed {changed : List Nat} (hp : p < d.size) (hrow : d.textRow p ∈ changed) :
    d.syncRows changed onscreen p = d.offscreen p := by
  induction changed generalizing onscreen with
  | nil => exact absurd hrow List.not_mem_nil
  | cons change changed ih =>
    rw [syncRows, List.foldl_cons, ← syncRows]
    obtain heq | hmem := List.mem_cons.mp hrow
    · obtain hrest | hrest :=
        syncRows_either (p := p) changed (d.sync 0 (change * 16) d.width 16 onscreen)
      · rw [hrest]
        exact sync_row hp heq
      · exact hrest
    · exact ih hmem

/-- The glyph is inside of its row of text. -/
theorem char_outside {FONT : List UInt8} {x : Nat} {c : Char} {color : Pixel} (hp : p < d.size)
    (hrow : d.textRow p ≠ y) : (d.char FONT x (y * 16) c color).offscreen p = d.offscreen p := by
  unfold char
  dsimp only
  split
  · rename_i hfit
    split
    · apply Buffer.foldl_span_outside
      intro row hrow'
      have hlt := List.mem_range.mp hrow'
      rw [Nat.add_right_comm, ← Nat.add_mul]
      obtain habove | hbelow := Nat.lt_or_gt_of_ne hrow
      · left
        have htop := (textRow_lt hp).mp habove
        have hle : y * 16 * d.width ≤ (y * 16 + row) * d.width :=
          Nat.mul_le_mul_right _ (Nat.le_add_right _ row)
        omega
      · right
        have hbottom : (y + 1) * 16 * d.width ≤ p := (le_textRow hp).mp hbelow
        have hle : (y * 16 + row + 1) * d.width ≤ (y + 1) * 16 * d.width :=
          Nat.mul_le_mul_right _ (by omega)
        rw [Nat.succ_mul] at hle
        omega
    · rfl
  · rfl

end Display

/-- A report that moves pixels. -/
def RansidEvent.Scrolls (height : Nat) : RansidEvent → Prop
  | .scroll rows _ => 0 < rows * 16 ∧ rows * 16 < height
  | _ => False

instance (height : Nat) : DecidablePred (RansidEvent.Scrolls height)
  | .char .. => .isFalse id
  | .rect .. => .isFalse id
  | .scroll .. => instDecidableAnd

theorem mem_insertAll {rows changed : List Nat} {y : Nat} :
    y ∈ rows.foldl (fun changed y => changed.insert y) changed ↔ y ∈ rows ∨ y ∈ changed := by
  induction rows generalizing changed with
  | nil => exact ⟨Or.inr, fun h => h.resolve_left List.not_mem_nil⟩
  | cons row rows ih => rw [List.foldl_cons, ih, List.mem_insert_iff, List.mem_cons, or_left_comm, or_assoc]

namespace GraphicScreen

variable {g : GraphicScreen} {buf : List UInt8} {b b' : Buffer} {p : Nat}

theorem fill_congr (h : b p = b' p) : g.fill buf b p = g.fill buf b' p := by
  unfold fill Buffer.span
  rw [h]

/-- A pixel that is filled is the same in both buffers. -/
theorem fill_eq (b' : Buffer) (h : g.fill buf b p ≠ b p) : g.fill buf b p = g.fill buf b' p := by
  have hin : g.seek ≤ p ∧ p < g.seek + g.writeSize buf := by
    by_contra hout
    exact h (if_neg hout)
  unfold fill
  rw [Buffer.span_inside hin.1 hin.2, Buffer.span_inside hin.1 hin.2]

end GraphicScreen

section Text

variable {κ : Type*} {R : Ransid κ} {FONT : List UInt8} {t t' t'' : TextScreen κ}
  {onscreen : Buffer} {p : Nat}

/-- What is drawn from `t` to `t'` is in the rows that `t'` lists. -/
structure Marks (t t' : TextScreen κ) : Prop where
  width : t'.display.width = t.display.width
  height : t'.display.height = t.display.height
  listed : ∀ y ∈ t.changed, y ∈ t'.changed
  drawn : ∀ p < t.display.size, t'.display.offscreen p ≠ t.display.offscreen p →
    t.display.textRow p ∈ t'.changed

theorem Marks.size (h : Marks t t') : t'.display.size = t.display.size := by
  rw [Display.size, Display.size, h.width, h.height]

theorem Marks.textRow (h : Marks t t') : t'.display.textRow p = t.display.textRow p := by
  rw [Display.textRow, Display.textRow, h.width]

theorem Marks.trans (h : Marks t t') (h' : Marks t' t'') : Marks t t'' := by
  refine ⟨h'.width.trans h.width, h'.height.trans h.height, ?_, ?_⟩
  · exact fun y hy => h'.listed y (h.listed y hy)
  · intro p hp hne
    by_cases hfirst : t'.display.offscreen p = t.display.offscreen p
    · rw [← hfirst] at hne
      rw [← h.textRow]
      exact h'.drawn p (h.size ▸ hp) hne
    · exact h'.listed _ (h.drawn p hp hfirst)

theorem marks_rfl : Marks t t := ⟨rfl, rfl, fun _ hy => hy, fun _ _ hne => absurd rfl hne⟩

theorem blink_marks : Marks t (t.blink R) := by
  unfold TextScreen.blink
  split
  · refine ⟨rfl, rfl, fun y hy => List.mem_insert_of_mem hy, ?_⟩
    intro p hp hne
    by_contra hrow
    have hother : t.display.textRow p ≠ R.y t.console := fun heq =>
      hrow (heq ▸ List.mem_insert_self)
    exact hne (Display.region_outside (h := 1) hp (by omega))
  · exact marks_rfl

theorem draw_marks (event : RansidEvent)
    (heven : t.display.height % 16 = 0 ∨ ¬ event.Scrolls t.display.height) :
    Marks t (t.draw FONT event) := by
  cases event with
  | char x y c color =>
    have hsame : ∀ d : Display, (d.char FONT (x * 8) (y * 16) c color).width = d.width ∧
        (d.char FONT (x * 8) (y * 16) c color).height = d.height := by
      intro d
      unfold Display.char
      dsimp only
      split
      · split
        · exact ⟨rfl, rfl⟩
        · exact ⟨rfl, rfl⟩
      · exact ⟨rfl, rfl⟩
    refine ⟨(hsame _).1, (hsame _).2, fun y hy => List.mem_insert_of_mem hy, ?_⟩
    intro p hp hne
    by_contra hrow
    exact hne (Display.char_outside hp fun heq => hrow (heq ▸ List.mem_insert_self))
  | rect x y w h color =>
    refine ⟨rfl, rfl, fun y hy => mem_insertAll.mpr (Or.inr hy), ?_⟩
    intro p hp hne
    apply mem_insertAll.mpr
    left
    apply List.mem_range'_1.mpr
    by_contra hrow
    exact hne (Display.region_outside hp (by omega))
  | scroll rows color =>
    refine ⟨?_, ?_, fun y hy => mem_insertAll.mpr (Or.inr hy), ?_⟩
    · show (t.display.scroll _ _).width = _
      unfold Display.scroll
      split <;> rfl
    · show (t.display.scroll _ _).height = _
      unfold Display.scroll
      split <;> rfl
    · intro p hp hne
      obtain heven | hstill := heven
      · apply mem_insertAll.mpr
        left
        rw [List.mem_range, Display.textRow_lt hp, Nat.div_mul_cancel (Nat.dvd_of_mod_eq_zero heven),
          Nat.mul_comm]
        exact hp
      · have hsame : (t.display.scroll (rows * 16) color).offscreen = t.display.offscreen := by
          unfold Display.scroll
          exact congrArg Display.offscreen (if_neg hstill)
        exact absurd (congrFun hsame p) hne

/-- Where the console would move pixels, the height is in whole rows of text. -/
def Settled (R : Ransid κ) (t : TextScreen κ) (buf : List UInt8) : Prop :=
  t.display.height % 16 = 0 ∨
    ∀ event ∈ (R.write t.console buf).2, ¬ event.Scrolls t.display.height

instance {buf : List UInt8} : Decidable (Settled R t buf) := instDecidableOr

theorem draws_marks {events : List RansidEvent} (heven : t.display.height % 16 = 0 ∨
    ∀ event ∈ events, ¬ event.Scrolls t.display.height) :
    Marks t (events.foldl (TextScreen.draw FONT) t) := by
  induction events generalizing t with
  | nil => exact marks_rfl
  | cons event events ih =>
    have hfirst : Marks t (t.draw FONT event) :=
      draw_marks event (heven.imp_right fun h => h event List.mem_cons_self)
    apply hfirst.trans
    apply ih
    rw [hfirst.height]
    exact heven.imp_right fun h e he => h e (List.mem_cons_of_mem event he)

theorem blink_console : (t.blink R).console = t.console := by
  unfold TextScreen.blink
  split <;> rfl

theorem render_marks {buf : List UInt8} (h : Settled R t buf) : Marks t (t.render R FONT buf) := by
  have hblink : Marks t (t.blink R) := blink_marks
  have hdraws : Marks (t.blink R)
      ((R.write (t.blink R).console buf).2.foldl (TextScreen.draw FONT) (t.blink R)) := by
    apply draws_marks
    rw [hblink.height, blink_console]
    exact h
  have hall := hblink.trans hdraws
  have hconsole : Marks t
      { (R.write (t.blink R).console buf).2.foldl (TextScreen.draw FONT) (t.blink R) with
        console := (R.write (t.blink R).console buf).1 } :=
    ⟨hall.width, hall.height, hall.listed, hall.drawn⟩
  exact hconsole.trans blink_marks

end Text

end Origel.Vesad
