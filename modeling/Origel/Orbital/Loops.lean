import Origel.Orbital.Scheme

/-! The two loops of the window server, which take turns under one lock: one for the input of the
display, one for the requests of the clients. -/
namespace Origel.Orbital

open Origel.Lib Origel.Daemon
open Origel.Kernel.UserScheme (Packet mux)

/-- A read of a window that was open and without the flag `a`, as it was answered. The source keeps
none of this. -/
structure Answer where
  request : Packet
  reply : Reply
  deriving DecidableEq, Repr

/-- The server, with what it has written to its socket. The source keeps neither the requests that
have come nor the answers to reads. -/
structure Server where
  scheme : OrbitalScheme
  socket : List Reply
  received : List Packet
  answers : List Answer

namespace Server

variable (o : Outside)

def new (image background cursor : Image) : Option Server := do
  let scheme ← OrbitalScheme.new image background cursor
  return ⟨scheme, [], [], []⟩

/-- The packet is a read of a window that is open and has not asked for reads that do not wait. -/
def waits (d : Server) (p : Packet) : Bool :=
  p.a = SYS_READ && match d.scheme.windows.get p.b with
    | some w => !w.async
    | none => false

/-- `delay` in both loops -/
def delay (d : Server) (p : Packet) : Bool :=
  p.a = SYS_READ && match d.scheme.windows.get p.b with
    | some w => !w.async
    | none => true

def handle (memory : Nat → UInt8) (d : Server) (p : Packet) : Done (Option OrbitalScheme) :=
  (OrbitalScheme.scheme o).handle memory (some d.scheme) p

/-- The request as it came, for a packet with its id. -/
def request (d : Server) (p : Packet) : Packet :=
  (d.received.find? fun q => q.id = p.id).getD p

/-- The reply to a request is sent. -/
def send (d : Server) (request : Packet) (s : OrbitalScheme) (reply : Reply) : Server where
  scheme := s
  socket := d.socket ++ [reply]
  received := d.received
  answers := if d.waits request then d.answers ++ [⟨request, reply⟩] else d.answers

/-- The body of the loop of `server_loop` over the packets it has received -/
def serve (memory : Nat → UInt8) (d : Server) (p : Packet) : Option Server := do
  let d := { d with received := d.received ++ [p] }
  let done := d.handle o memory p
  let s ← done.state
  let packet := { p with a := mux done.result }
  if d.delay p ∧ packet.a = 0 then
    return { d with scheme := { s with todo := s.todo ++ [packet] } }
  else return d.send p s ⟨packet, done.bytes⟩

/-- The body of the loop of `event_loop` over `todo`: what is not sent stays there. -/
def retry (memory : Nat → UInt8) (d : Server) (p : Packet) : Option Server := do
  let done := d.handle o memory p
  let s ← done.state
  let packet := { p with a := mux done.result }
  if d.delay p ∧ packet.a = 0 then return { d with scheme := { s with todo := s.todo ++ [p] } }
  else return d.send (d.request p) s ⟨packet, done.bytes⟩

/-- What both loops tell of windows with events. -/
def notify (d : Server) : Server :=
  { d with
    socket := d.socket ++ d.scheme.windows.entries.flatMap fun e =>
      if e.2.events ≠ [] then [notice e.1 (e.2.events.length * o.sizeOfEvent)] else [] }

/-- What one of the loops does under the lock. -/
inductive Turn where
  | redraw
  | input (memory : Nat → UInt8) (events : List Event)
  | requests (memory : Nat → UInt8) (packets : List Packet)

def turn (d : Server) : Turn → Option Server
  | .redraw => do
    let s ← d.scheme.redraw o
    return { d with scheme := s }
  | .input memory events => do
    let s ← events.foldlM (fun s e => s.event o e) d.scheme
    let d ← s.todo.foldlM (retry o memory) { d with scheme := { s with todo := [] } }
    return d.notify o
  | .requests memory packets => do
    let d ← packets.foldlM (serve o memory) d
    return d.notify o

/-- A turn of a server that may have panicked -/
def step (d : Option Server) (t : Turn) : Option Server := d.bind fun d => d.turn o t

end Server

end Origel.Orbital
