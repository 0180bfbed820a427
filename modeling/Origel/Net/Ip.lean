import Origel.Daemon.Scheme
import Origel.Net.Socket

/-! The daemon of the scheme `ip:`, between its scheme file and the packets its interfaces bring. -/
namespace Origel.Net.Ip

open Origel.Lib Origel.Daemon
open Origel.Kernel.UserScheme (Packet mux)
open Origel.RedoxFs (fromUtf8 utf8)

structure Handle where
  proto : UInt8
  flags : Nat
  events : Nat
  data : List (List UInt8)
  todo : List Packet
  deriving DecidableEq, Repr

/-- What the world answers a call with: the memory of the caller, and what the loop over the
interfaces makes of the bytes to send for a protocol. -/
structure Env where
  memory : Nat → UInt8
  send : List UInt8 → UInt8 → Except Nat Unit

structure Ipd where
  schemeFile : List Reply
  handles : Table Handle

namespace Ipd

def new : Ipd := ⟨[], Table.empty 1⟩

def modify (s : Ipd) (file : Nat) (f : Handle → Handle) : Ipd :=
  { s with handles := s.handles.modify file f }

/-- The handle gets the next id. -/
def insert (s : Ipd) (h : Handle) : Done Ipd :=
  succeed { s with handles := s.handles.insert h } s.handles.next

def openUrl (s : Ipd) (url : List UInt8) (flags uid _gid : Nat) : Done Ipd :=
  if uid = 0 then
    match fromUtf8 url with
    | none => fail s EINVAL
    | some path =>
      match fromStrRadix (2 ^ 8) 16 path.toList with
      | none => fail s ENOENT
      | some proto => s.insert ⟨UInt8.ofNat proto, flags, 0, [], []⟩
  else fail s EACCES

def dup (s : Ipd) (file : Nat) (_buf : List UInt8) : Done Ipd :=
  match s.handles.entry file with
  | none => fail s EBADF
  | some h => s.insert { h with events := 0, todo := [] }

def read (s : Ipd) (file len : Nat) : Done Ipd :=
  match s.handles.entry file with
  | none => fail s EBADF
  | some h =>
    match h.data with
    | front :: data =>
      let bytes := copied len front
      ⟨s.modify file fun h => { h with data := data }, .ok bytes.length, bytes⟩
    | [] =>
      if h.flags &&& O_NONBLOCK = O_NONBLOCK then succeed s 0
      else fail s EWOULDBLOCK

def write (e : Env) (s : Ipd) (file : Nat) (buf : List UInt8) : Done Ipd :=
  match s.handles.entry file with
  | none => fail s EBADF
  | some h =>
    match e.send buf h.proto with
    | .error errno => fail s errno
    | .ok () => succeed s buf.length

def fevent (s : Ipd) (file flags : Nat) : Done Ipd :=
  match s.handles.entry file with
  | none => fail s EBADF
  | some _ => succeed (s.modify file fun h => { h with events := flags }) file

def fpath (s : Ipd) (id len : Nat) : Done Ipd :=
  match s.handles.entry id with
  | none => fail s EBADF
  | some h =>
    let bytes := copied len (utf8 ("ip:" ++ String.ofList
      ((Nat.toDigits 16 h.proto.toNat).map Char.toUpper)))
    ⟨s, .ok bytes.length, bytes⟩

def fsync (s : Ipd) (file : Nat) : Done Ipd :=
  match s.handles.entry file with
  | none => fail s EBADF
  | some _ => succeed s 0

def close (s : Ipd) (file : Nat) : Done Ipd :=
  match s.handles.entry file with
  | none => fail s EBADF
  | some _ => succeed { s with handles := s.handles.remove file } 0

/-- `impl SchemeMut for Ipd` -/
def scheme (e : Env) : SchemeMut Ipd where
  openUrl := openUrl
  dup := dup
  read := read
  write := write e
  fevent := fevent
  fpath := fpath
  fsync := fsync
  close := close

/-- The body of the loop of `scheme_event` -/
def schemeEvent (s : Ipd) (e : Env) (p : Packet) : Ipd :=
  let done := (scheme e).handle e.memory s p
  let a := mux done.result
  if a = mux (.error EWOULDBLOCK) then
    done.state.modify p.b fun h => { h with todo := h.todo ++ [p] }
  else
    { done.state with schemeFile := done.state.schemeFile ++ [⟨{ p with a := a }, done.bytes⟩] }

/-- What one handle does on a packet of its protocol. -/
def serve (id : Nat) (h : Handle) (ip : Ipv4) : Handle × List Reply :=
  let (todo, data, replies) := answer h.todo (h.data ++ [ip.toBytes])
  ({ h with todo := todo, data := data }, replies ++ notices h.events id data)

/-- The body of the loop of `ip_event`, for one packet -/
def ipEvent (s : Ipd) (ip : Ipv4) : Ipd :=
  let takers := s.handles.entries.filter fun e => ip.header.proto == e.2.proto
  { schemeFile := s.schemeFile ++ takers.flatMap fun e => (serve e.1 e.2 ip).2
    handles := s.handles.map fun id h =>
      if ip.header.proto == h.proto then (serve id h ip).1 else h }

/-- What the daemon wakes up for. -/
inductive Event where
  | request (e : Env) (p : Packet)
  | packet (ip : Ipv4)

def step (s : Ipd) : Event → Ipd
  | .request e p => s.schemeEvent e p
  | .packet ip => s.ipEvent ip

end Ipd

end Origel.Net.Ip
