import Origel.Lib.SortedMap
import Origel.Net.Socket
import Origel.Orbital.Window

/-! The window server: its windows, what it schedules to be drawn again, and what it does with input
events and requests. A panic leaves no state. -/
namespace Origel.Orbital

open Origel.Lib Origel.Daemon
open Origel.Kernel.UserScheme (Packet)
open Origel.Net (parseUnsigned)
open Origel.RedoxFs (fromUtf8)

/-- `str::parse::<i32>` -/
def parseI32 (s : List Char) : Option Int :=
  match s with
  | '-' :: '+' :: _ => none
  | '-' :: rest => (parseUnsigned (2 ^ 31 + 1) rest).map fun n : Nat => -(n : Int)
  | _ => (parseUnsigned (2 ^ 31) s).map fun n : Nat => (n : Int)

def schedule : List Rect → Rect → Option (List Rect)
  | [], request => some [request]
  | rect :: redraws, request => do
    let container ← rect.container request
    if container.area ≤ i32 (rect.area + request.area) then return container :: redraws
    else return rect :: (← schedule redraws request)

structure OrbitalScheme where
  image : Image
  background : Image
  cursor : Image
  cursorX : Int
  cursorY : Int
  dragging : Bool
  dragX : Int
  dragY : Int
  winKey : Bool
  nextId : Int
  nextX : Int
  nextY : Int
  order : List Nat
  windows : SortedMap Window
  redraws : List Rect
  todo : List Packet

namespace OrbitalScheme

variable (o : Outside)

/-- `OrbitalScheme::new`, for the display and the images of the configuration -/
def new (image background cursor : Image) : Option OrbitalScheme := do
  let rect ← Rect.new 0 0 image.w image.h
  return ⟨image, background, cursor, 0, 0, false, 0, 0, false, 1, 20, 20, [], .empty, [rect], []⟩

def backgroundRect (s : OrbitalScheme) : Option Rect :=
  let w := s.background.w
  let h := s.background.h
  let x := i32 (s.image.w.tdiv 2 - w.tdiv 2)
  let y := i32 (s.image.h.tdiv 2 - h.tdiv 2)
  Rect.new x y w h

def cursorRect (s : OrbitalScheme) : Option Rect :=
  Rect.new s.cursorX s.cursorY s.cursor.w s.cursor.h

def screenRect (s : OrbitalScheme) : Option Rect := Rect.new 0 0 s.image.w s.image.h

/-- A window at a place in the order, drawn where it is there. -/
def drawWindow (s : OrbitalScheme) (rect : Rect) (image : Image) (id i : Nat) : Option Image :=
  match s.windows.get id with
  | some w => do
    let image ← w.drawTitle o image rect (i = 0)
    w.draw image rect
  | none => some image

/-- The body of the loop of `redraw`, for a part of the screen -/
def drawRect (s : OrbitalScheme) (backgroundRect cursorRect : Rect) (image : Image) (rect : Rect) :
    Option Image := do
  let image ← image.set rect (o.rgb 75 163 253)
  let image ← drawPart Image.blit image (rect.intersection backgroundRect) s.background backgroundRect
  let image ← s.order.zipIdx.reverse.foldlM (fun image e => s.drawWindow o rect image e.1 e.2) image
  drawPart Image.blend image (rect.intersection cursorRect) s.cursor cursorRect

def redraw (s : OrbitalScheme) : Option OrbitalScheme := do
  let screenRect ← s.screenRect
  let backgroundRect ← s.backgroundRect
  let cursorRect ← s.cursorRect
  let image ← s.redraws.foldlM (fun image rect =>
    let rect := rect.intersection screenRect
    if rect.isEmpty then some image
    else s.drawRect o backgroundRect cursorRect image rect) s.image
  return { s with image := image, redraws := [] }

/-- The title bar and the content of a window are scheduled. -/
def damage (s : OrbitalScheme) (w : Window) : Option OrbitalScheme := do
  let redraws ← schedule s.redraws (← w.titleRect)
  let redraws ← schedule redraws (← w.rect)
  return { s with redraws := redraws }

/-- `get` of a window that is then scheduled -/
def damageAt (s : OrbitalScheme) (id : Nat) : Option OrbitalScheme :=
  match s.windows.get id with
  | some w => s.damage w
  | none => some s

/-- The window in front is scheduled. -/
def damageFront (s : OrbitalScheme) : Option OrbitalScheme :=
  match s.order with
  | front :: _ => s.damageAt front
  | [] => some s

def modify (s : OrbitalScheme) (id : Nat) (f : Window → Window) : OrbitalScheme :=
  { s with windows := s.windows.modify id f }

/-- A window is scheduled, and told that it has the focus or has it no more. -/
def refocus (s : OrbitalScheme) (id : Nat) (focused : Bool) : Option OrbitalScheme := do
  let s ← s.damageAt id
  return s.modify id (·.event (o.focusEvent focused))

/-- `refocus` of the window in front -/
def refocusFront (s : OrbitalScheme) (focused : Bool) : Option OrbitalScheme :=
  match s.order with
  | id :: _ => s.refocus o id focused
  | [] => some s

def winTab (s : OrbitalScheme) : Option OrbitalScheme :=
  match s.order with
  | id :: next :: rest => do
    let s ← s.refocus o id false
    { s with order := next :: rest ++ [id] }.refocusFront o true
  | _ => some s

def keyEvent (s : OrbitalScheme) (e : Event) : Option OrbitalScheme :=
  if e.b = 0x5B then some { s with winKey := e.c > 0 }
  else if s.winKey then
    if e.b % 2 ^ 8 = o.K_ESC then
      if e.c > 0 then
        match s.order with
        | id :: _ => some (s.modify id (·.event o.quitEvent))
        | [] => some s
      else some s
    else if e.b % 2 ^ 8 = o.K_TAB then
      if e.c > 0 then s.winTab o else some s
    else some s
  else
    match s.order with
    | id :: _ => some (s.modify id (·.event e))
    | [] => some s

/-- The cursor goes where the event says. -/
def moveCursor (s : OrbitalScheme) (e : Event) : Option OrbitalScheme :=
  if i32 e.a ≠ s.cursorX ∨ i32 e.b ≠ s.cursorY then do
    let redraws ← schedule s.redraws (← s.cursorRect)
    let s := { s with cursorX := i32 e.a, cursorY := i32 e.b }
    let redraws ← schedule redraws (← s.cursorRect)
    return { s with redraws := redraws }
  else some s

/-- The window in front follows the cursor. -/
def drag (s : OrbitalScheme) (e : Event) : Option OrbitalScheme :=
  if e.c > 0 then
    match s.order with
    | id :: _ =>
      match s.windows.get id with
      | some w =>
        if s.dragX ≠ s.cursorX ∨ s.dragY ≠ s.cursorY then do
          let s ← s.damage w
          let moved := { w with
            x := i32 (w.x + i32 (s.cursorX - s.dragX))
            y := i32 (w.y + i32 (s.cursorY - s.dragY)) }
          { s.modify id fun _ => moved with dragX := s.cursorX, dragY := s.cursorY }.damage moved
        else some s
      | none => some { s with dragging := false }
    | [] => some { s with dragging := false }
  else some { s with dragging := false }

/-- The loop over `order` for a mouse event, with the place of the window to focus -/
def press (s : OrbitalScheme) (e : Event) : List Nat → Nat → Option (OrbitalScheme × Nat)
  | [], _ => some (s, 0)
  | id :: ids, i =>
    match s.windows.get id with
    | none => press s e ids (i + 1)
    | some w => do
      if (← w.rect).contains (i32 e.a) (i32 e.b) then
        let e' := { e with a := asI64 (e.a - w.x), b := asI64 (e.b - w.y) }
        return (s.modify id (·.event e'), if e.c > 0 then i else 0)
      else if (← w.titleRect).contains (i32 e.a) (i32 e.b) then
        if e.c > 0 then
          if w.exitContains (i32 e.a) (i32 e.b) then return (s.modify id (·.event o.quitEvent), i)
          else return ({ s with dragging := true, dragX := s.cursorX, dragY := s.cursorY }, i)
        else return (s, 0)
      else press s e ids (i + 1)

/-- The window at a place in the order comes to the front. -/
def raise (s : OrbitalScheme) (focus : Nat) : Option OrbitalScheme := do
  let s ← s.refocusFront o false
  match s.order[focus]? with
  | some id =>
    let s := { s with order := s.order.eraseIdx focus }
    let s ← s.refocus o id true
    return { s with order := id :: s.order }
  | none => return s

def mouseEvent (s : OrbitalScheme) (e : Event) : Option OrbitalScheme := do
  let s ← s.moveCursor e
  if s.dragging then s.drag e
  else
    let (s, focus) ← s.press o e s.order 0
    if 0 < focus then s.raise o focus else return s

def event (s : OrbitalScheme) (e : Event) : Option OrbitalScheme :=
  if e.code = o.EVENT_KEY then s.keyEvent o e
  else if e.code = o.EVENT_MOUSE then s.mouseEvent o e
  else some s

/-- The place that `open` takes for a window without one, and the place after it -/
def cascade (s : OrbitalScheme) : OrbitalScheme :=
  let nextX := i32 (s.nextX + 20)
  let nextY := i32 (s.nextY + 20)
  { s with
    nextX := if i32 (nextX + 20) ≥ s.image.w then 20 else nextX
    nextY := if i32 (nextY + 20) ≥ s.image.h then 20 else nextY }

/-- A url of `open`: flags, place, size and title -/
structure Url where
  async : Bool
  x : Int
  y : Int
  w : Int
  h : Int
  title : List Char
  deriving DecidableEq, Repr

def parseUrl (path : List Char) : Url :=
  let parts := path.splitOn '/'
  let number := fun i => (parseI32 (parts.getD i [])).getD 0
  ⟨(parts.getD 0 []).contains 'a', number 1, number 2, number 3, number 4,
    ['/'].intercalate (parts.drop 5)⟩

/-- The id to come is counted, and the place of a new window is found. -/
def place (s : OrbitalScheme) (url : Url) : OrbitalScheme × Int × Int :=
  let nextId := asI64 (s.nextId + 1)
  let counted := { s with nextId := if nextId < 0 then 1 else nextId }
  if url.x < 0 ∧ url.y < 0 then (counted.cascade, s.nextX, s.nextY) else (counted, url.x, url.y)

def openUrl (s : OrbitalScheme) (url : List UInt8) (_flags _uid _gid : Nat) :
    Option (Done OrbitalScheme) :=
  match fromUtf8 url with
  | none => some (fail s EINVAL)
  | some path => do
    let url := parseUrl path.toList
    let id := asU64 s.nextId
    let (s, x, y) := s.place url
    let s ← s.damageFront
    let window ← Window.new o x y url.w url.h url.title url.async
    let s ← s.damage window
    return succeed { s with order := id :: s.order, windows := s.windows.insert id window } id

def read (s : OrbitalScheme) (id len : Nat) : Done OrbitalScheme :=
  match s.windows.get id with
  | some w => ⟨s.modify id fun w => (w.read o len).1, (w.read o len).2.1, (w.read o len).2.2⟩
  | none => fail s EBADF

def write (s : OrbitalScheme) (id : Nat) (buf : List UInt8) : Option (Done OrbitalScheme) :=
  match s.windows.get id with
  | some w => do
    let redraws ← schedule s.redraws (← w.rect)
    return succeed ({ s with redraws := redraws }.modify id fun w => (w.write buf).1) (w.write buf).2
  | none => some (fail s EBADF)

def fevent (s : OrbitalScheme) (id _flags : Nat) : Done OrbitalScheme :=
  match s.windows.get id with
  | some _ => succeed s id
  | none => fail s EBADF

def fmap (s : OrbitalScheme) (id offset size : Nat) : Done OrbitalScheme :=
  match s.windows.get id with
  | some w => ⟨s, w.map o id offset size, []⟩
  | none => fail s EBADF

def fpath (s : OrbitalScheme) (id len : Nat) : Done OrbitalScheme :=
  match s.windows.get id with
  | some w => ⟨s, .ok (w.path len).length, w.path len⟩
  | none => fail s EBADF

def fsync (s : OrbitalScheme) (id : Nat) : Option (Done OrbitalScheme) :=
  match s.windows.get id with
  | some w => do
    let redraws ← schedule s.redraws (← w.rect)
    return succeed { s with redraws := redraws } 0
  | none => some (fail s EBADF)

def close (s : OrbitalScheme) (id : Nat) : Option (Done OrbitalScheme) := do
  let s ← { s with order := s.order.filter (· ≠ id) }.damageFront
  match s.windows.get id with
  | some w =>
    let s ← { s with windows := s.windows.remove id }.damage w
    return succeed s 0
  | none => return fail s EBADF

/-- A method that may panic, on a server that may have done so. -/
def guarded (f : OrbitalScheme → Option (Done OrbitalScheme)) (s : Option OrbitalScheme) :
    Done (Option OrbitalScheme) :=
  match s.bind f with
  | some done => ⟨some done.state, done.result, done.bytes⟩
  | none => fail none 0

/-- `impl SchemeMut for OrbitalScheme` -/
def scheme : SchemeMut (Option OrbitalScheme) where
  openUrl s url flags uid gid := guarded (openUrl o · url flags uid gid) s
  read s id len := guarded (some <| read o · id len) s
  write s id buf := guarded (write · id buf) s
  fevent s id flags := guarded (some <| fevent · id flags) s
  fmap s id offset size := guarded (some <| fmap o · id offset size) s
  fpath s id len := guarded (some <| fpath · id len) s
  fsync s id := guarded (fsync · id) s
  close s id := guarded (close · id) s

end OrbitalScheme

end Origel.Orbital
