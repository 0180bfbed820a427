import Origel.Daemon.Scheme
import Origel.Orbital.Image
import Origel.RedoxFs.Node

/-! A window: its picture, its title bar, and the events that wait for its reader. -/
namespace Origel.Orbital

open Origel.Daemon
open Origel.RedoxFs (utf8)

/-- An event of `orbclient` -/
structure Event where
  code : Int
  a : Int
  b : Int
  c : Int
  deriving DecidableEq, Repr

/-- What comes from outside the repository: what is used of `orbclient`, the bytes of the font, and
where the pixels of a window lie in memory. -/
structure Outside where
  EVENT_KEY : Int
  EVENT_MOUSE : Int
  K_ESC : Int
  K_TAB : Int
  rgb : UInt8 → UInt8 → UInt8 → UInt32
  focusEvent : Bool → Event
  quitEvent : Event
  /-- `size_of::<Event>()` -/
  sizeOfEvent : Nat
  eventBytes : Event → List UInt8
  font : List UInt8
  pixels : Nat → Nat

namespace Outside

variable (o : Outside)

def BAR_COLOR : UInt32 := o.rgb 40 45 57

def BAR_HIGHLIGHT_COLOR : UInt32 := o.rgb 80 86 102

def TEXT_COLOR : UInt32 := o.rgb 204 210 224

def TEXT_HIGHLIGHT_COLOR : UInt32 := o.rgb 235 241 255

/-- `Font::render` -/
def render (character : Char) (color : UInt32) : Image where
  w := 8
  h := 16
  len := 8 * 16
  data k :=
    let fontI := 16 * character.toNat
    if fontI + 16 ≤ o.font.length ∧ k < 8 * 16 ∧
        ((o.font.getD (fontI + k / 8) 0).toNat >>> (7 - k % 8)) &&& 1 = 1 then color
    else 0

end Outside

/-- `image.roi(&intersect)` takes what it covers of a picture that lies at `at`. -/
def drawPart (copy : Image → Rect → Image → Rect → Option Image) (image : Image) (intersect : Rect)
    (picture : Image) (place : Rect) : Option Image :=
  if intersect.isEmpty then some image
  else copy image intersect picture (intersect.offset (i32 (-place.left)) (i32 (-place.top)))

/-- What has happened at a window. The source keeps none of this. -/
structure History where
  /-- The events queued. -/
  queued : List Event
  /-- The events that reads have returned. -/
  delivered : List Event
  deriving DecidableEq, Repr

structure Window where
  x : Int
  y : Int
  async : Bool
  image : Image
  title : List Char
  events : List Event
  history : History

namespace Window

def new (o : Outside) (x y w h : Int) (title : List Char) (async : Bool) : Option Window := do
  let image ← Image.new (o.rgb 0 0 0) w h
  return ⟨x, y, async, image, title, [], ⟨[], []⟩⟩

def width (w : Window) : Int := w.image.w

def height (w : Window) : Int := w.image.h

def rect (w : Window) : Option Rect := Rect.new w.x w.y w.width w.height

def titleRect (w : Window) : Option Rect :=
  if w.title = [] then some Rect.default else Rect.new w.x (i32 (w.y - 18)) w.width 18

/-- `self.x + self.width() - 10` -/
def exitLeft (w : Window) : Int := i32 (i32 (w.x + w.width) - 10)

def exitContains (w : Window) (x y : Int) : Bool :=
  w.title ≠ [] ∧ x ≥ max w.x w.exitLeft ∧ y ≥ i32 (w.y - 18) ∧ x < i32 (w.x + w.width) ∧ y < w.y

/-- A character of the title bar -/
def drawChar (o : Outside) (image : Image) (rect titleRect : Rect) (focused : Bool) (c : Char)
    (x : Int) : Option Image := do
  let fontImage := o.render c (if focused then o.TEXT_HIGHLIGHT_COLOR else o.TEXT_COLOR)
  let imageRect ← Rect.new x (i32 (titleRect.top + 1)) fontImage.w fontImage.h
  drawPart Image.blend image (rect.intersection imageRect) fontImage imageRect

/-- The loop over the characters of the title -/
def drawChars (o : Outside) (w : Window) (rect titleRect : Rect) (focused : Bool) :
    Image → List Char → Int → Option Image
  | image, [], _ => some image
  | image, c :: cs, x =>
    if x < max (i32 (w.x + 2)) w.exitLeft then do
      let image ← drawChar o image rect titleRect focused c x
      drawChars o w rect titleRect focused image cs (i32 (x + 8))
    else some image

def drawTitle (o : Outside) (w : Window) (image : Image) (rect : Rect) (focused : Bool) :
    Option Image := do
  let titleRect ← w.titleRect
  let titleIntersect := rect.intersection titleRect
  if titleIntersect.isEmpty then return image
  let image ← image.set titleIntersect (if focused then o.BAR_HIGHLIGHT_COLOR else o.BAR_COLOR)
  let image ← drawChars o w rect titleRect focused image w.title (i32 (w.x + 2))
  let x := max (i32 (w.x + 2)) w.exitLeft
  if i32 (x + 10) ≤ i32 (w.x + w.width) then drawChar o image rect titleRect focused 'X' x
  else return image

def draw (w : Window) (image : Image) (rect : Rect) : Option Image := do
  let selfRect ← w.rect
  drawPart Image.blit image (selfRect.intersection rect) w.image selfRect

def event (w : Window) (e : Event) : Window :=
  { w with
    events := w.events ++ [e]
    history := { w.history with queued := w.history.queued ++ [e] } }

def map (o : Outside) (id : Nat) (w : Window) (offset size : Nat) : Except Nat Nat :=
  if (offset + size) % 2 ^ 64 ≤ w.image.len * 4 then .ok ((o.pixels id + offset) % 2 ^ 64)
  else .error EINVAL

/-- The loop of `read`: the events it takes, and those it leaves. -/
def readLoop (size len : Nat) : Nat → List Event → List Event × List Event
  | _, [] => ([], [])
  | i, e :: events =>
    if i ≤ len - size then
      let (taken, events) := readLoop size len (i + size) events
      (e :: taken, events)
    else ([], e :: events)

def read (o : Outside) (w : Window) (len : Nat) : Window × Except Nat Nat × List UInt8 :=
  if o.sizeOfEvent ≤ len then
    let (taken, events) := readLoop o.sizeOfEvent len 0 w.events
    ({ w with
        events := events
        history := { w.history with delivered := w.history.delivered ++ taken } },
      .ok (taken.length * o.sizeOfEvent), taken.flatMap o.eventBytes)
  else (w, .error EINVAL, [])

/-- A pixel from its bytes -/
def pixelOf (buf : List UInt8) (k : Nat) : UInt32 :=
  let byte := fun i => (buf.getD (4 * k + i) 0).toUInt32
  byte 0 ||| (byte 1 <<< 8) ||| (byte 2 <<< 16) ||| (byte 3 <<< 24)

def write (w : Window) (buf : List UInt8) : Window × Nat :=
  let len := min w.image.len (buf.length / 4)
  ({ w with
      image := { w.image with data := fun k => if k < len then pixelOf buf k else w.image.data k } },
    len)

def path (w : Window) (len : Nat) : List UInt8 :=
  copied len (utf8 ("orbital:" ++ (if w.async then "a" else "") ++ "/" ++ toString w.x ++ "/" ++
    toString w.y ++ "/" ++ toString w.width ++ "/" ++ toString w.height ++ "/" ++
    String.ofList w.title))

end Window

end Origel.Orbital
