import Origel.Daemon.Replies
import Origel.Net.Socket

/-! The daemon of the scheme `ethernet:`, between its scheme file and the frames of the network. -/
namespace Origel.Net.Ethernet

open Origel.Lib Origel.Daemon
open Origel.Kernel.UserScheme (Packet mux)
open Origel.RedoxFs (fromUtf8 utf8)

/-- The six bytes of an address. -/
structure MacAddr where
  bytes : List UInt8
  length_bytes : bytes.length = 6
  deriving DecidableEq, Repr

def MacAddr.fromStr (string : List Char) : MacAddr :=
  let octets := (string.splitOn '.').map fun part =>
    UInt8.ofNat ((fromStrRadix (2 ^ 8) 16 part).getD 0)
  ⟨(octets ++ List.replicate 6 0).take 6, by
    rw [List.length_take, List.length_append, List.length_replicate]
    omega⟩

/-- The header is packed, with the type in network order. -/
structure EthernetIIHeader where
  dst : MacAddr
  src : MacAddr
  ethertype : UInt16
  deriving DecidableEq, Repr

/-- `size_of::<EthernetIIHeader>()` -/
def sizeOfHeader : Nat := 14

structure EthernetII where
  header : EthernetIIHeader
  data : List UInt8
  deriving DecidableEq, Repr

def EthernetII.fromBytes (bytes : List UInt8) : Option EthernetII :=
  if h : sizeOfHeader ≤ bytes.length then
    some {
      header := {
        dst := ⟨bytes.take 6, by
          rw [List.length_take]
          exact Nat.min_eq_left (Nat.le_trans (by decide) h)⟩
        src := ⟨(bytes.drop 6).take 6, by
          rw [List.length_take, List.length_drop]
          exact Nat.min_eq_left (Nat.le_sub_of_add_le (Nat.le_trans (by decide) h))⟩
        ethertype :=
          UInt16.ofNat (256 * (bytes.getD 12 0).toNat + (bytes.getD 13 0).toNat) }
      data := bytes.drop sizeOfHeader }
  else none

def EthernetII.toBytes (frame : EthernetII) : List UInt8 :=
  frame.header.dst.bytes ++ frame.header.src.bytes ++ be16 frame.header.ethertype ++ frame.data

structure Handle where
  flags : Nat
  hostAddr : MacAddr
  ethertype : UInt16
  frames : List EthernetII
  deriving DecidableEq, Repr

/-- The frame is of the type of the handle. -/
def Handle.accepts (h : Handle) (frame : EthernetII) : Bool := frame.header.ethertype == h.ethertype

/-- What the world answers a call with: the memory of the caller, the setting `mac`, and the network
file when it is written to or synced. -/
structure Env where
  memory : Nat → UInt8
  getcfg : Except Nat (List Char)
  write : List UInt8 → Except Nat Nat
  fsync : Except Nat Nat

/-- `handles` and `next_id`. -/
structure EthernetScheme where
  handles : Table Handle

namespace EthernetScheme

def new : EthernetScheme := ⟨Table.empty 1⟩

/-- What one frame does to the handles. -/
def deliver (s : EthernetScheme) (frame : EthernetII) : EthernetScheme :=
  ⟨s.handles.map fun _ h =>
    if h.accepts frame then { h with frames := h.frames ++ [frame] } else h⟩

/-- `chunks` is what the network file has when it is read, up to 65536 bytes at a time. The loop
ends with the first read that gives nothing. -/
def input (s : EthernetScheme) : List (List UInt8) → EthernetScheme × Nat
  | [] => (s, 0)
  | [] :: _ => (s, 0)
  | chunk :: chunks =>
    let bytes := chunk.take 65536
    match EthernetII.fromBytes bytes with
    | some frame =>
      let (s, total) := (s.deliver frame).input chunks
      (s, bytes.length + total)
    | none => s.input chunks

def openUrl (e : Env) (s : EthernetScheme) (url : List UInt8) (flags uid _gid : Nat) :
    Done EthernetScheme :=
  if uid = 0 then
    match e.getcfg with
    | .error errno => fail s errno
    | .ok mac =>
      match fromUtf8 url with
      | none => fail s EINVAL
      | some path =>
        let ethertype := UInt16.ofNat ((fromStrRadix (2 ^ 16) 16 path.toList).getD 0)
        succeed ⟨s.handles.insert ⟨flags, MacAddr.fromStr mac, ethertype, []⟩⟩ s.handles.next
  else fail s EACCES

/-- An id is used up even where there is nothing to copy. -/
def dup (s : EthernetScheme) (id : Nat) (_buf : List UInt8) : Done EthernetScheme :=
  match s.handles.entry id with
  | none => fail ⟨s.handles.skip⟩ EBADF
  | some h => succeed ⟨s.handles.insert h⟩ s.handles.next

def read (s : EthernetScheme) (id len : Nat) : Done EthernetScheme :=
  match s.handles.entry id with
  | none => fail s EBADF
  | some h =>
    match h.frames with
    | frame :: frames =>
      let bytes := copied len frame.toBytes
      ⟨⟨s.handles.modify id fun h => { h with frames := frames }⟩, .ok bytes.length, bytes⟩
    | [] =>
      if h.flags &&& O_NONBLOCK = O_NONBLOCK then succeed s 0
      else fail s EWOULDBLOCK

def write (e : Env) (s : EthernetScheme) (id : Nat) (buf : List UInt8) : Done EthernetScheme :=
  match s.handles.entry id with
  | none => fail s EBADF
  | some h =>
    match EthernetII.fromBytes buf with
    | some frame =>
      ⟨s, e.write { frame with header := { frame.header with
        src := h.hostAddr, ethertype := h.ethertype } }.toBytes, []⟩
    | none => fail s EINVAL

def fevent (s : EthernetScheme) (id _flags : Nat) : Done EthernetScheme :=
  match s.handles.entry id with
  | none => fail s EBADF
  | some _ => succeed s id

def fpath (s : EthernetScheme) (id len : Nat) : Done EthernetScheme :=
  match s.handles.entry id with
  | none => fail s EBADF
  | some h =>
    let bytes := copied len (utf8 ("ethernet:" ++ String.ofList
      ((Nat.toDigits 16 h.ethertype.toNat).map Char.toUpper)))
    ⟨s, .ok bytes.length, bytes⟩

def fsync (e : Env) (s : EthernetScheme) (id : Nat) : Done EthernetScheme :=
  match s.handles.entry id with
  | none => fail s EBADF
  | some _ => ⟨s, e.fsync, []⟩

def close (s : EthernetScheme) (id : Nat) : Done EthernetScheme :=
  match s.handles.entry id with
  | none => fail s EBADF
  | some _ => succeed ⟨s.handles.remove id⟩ 0

/-- `impl SchemeMut for EthernetScheme` -/
def scheme (e : Env) : SchemeMut EthernetScheme where
  openUrl := openUrl e
  dup := dup
  read := read
  write := write e
  fevent := fevent
  fpath := fpath
  fsync := fsync e
  close := close

def handle (e : Env) (s : EthernetScheme) (p : Packet) : Done EthernetScheme :=
  (scheme e).handle e.memory s p

/-- The frames that a handle has queued. -/
def queue (s : EthernetScheme) (id : Nat) : List EthernetII :=
  ((s.handles.entry id).map Handle.frames).getD []

end EthernetScheme

structure Ethernetd where
  scheme : EthernetScheme
  todo : List Packet
  schemeFile : List Reply

namespace Ethernetd

def new : Ethernetd := ⟨.new, [], []⟩

/-- One packet is handled, and parked behind `kept` if that blocks. -/
def serve (e : Env) (s : Ethernetd) (p : Packet) : Ethernetd :=
  let done := s.scheme.handle e p
  let a := mux done.result
  if a = mux (.error EWOULDBLOCK) then
    { s with scheme := done.state, todo := s.todo ++ [p] }
  else
    { s with
      scheme := done.state
      schemeFile := s.schemeFile ++ [⟨{ p with a := a }, done.bytes⟩] }

/-- The loop over the parked packets: those that block again stay in their order. -/
def retry (s : Ethernetd) (envs : Nat → Env) : List Packet → Ethernetd
  | [] => s
  | p :: rest => (s.serve (envs rest.length) p).retry envs rest

/-- A handle with a frame tells of it. -/
def told (e : Nat × Handle) : List Reply :=
  match e.2.frames with
  | frame :: _ => [notice e.1 frame.data.length]
  | [] => []

def notify (s : Ethernetd) : Ethernetd :=
  { s with schemeFile := s.schemeFile ++ s.scheme.handles.entries.flatMap told }

/-- What the daemon wakes up for: packets on the scheme file and frames on the network file. -/
inductive Event where
  | request (e : Env) (p : Packet)
  | network (chunks : List (List UInt8)) (envs : Nat → Env)

def step (s : Ethernetd) : Event → Ethernetd
  | .request e p => s.serve e p
  | .network chunks envs =>
    let (scheme, total) := s.scheme.input chunks
    if total > 0 then (retry { s with scheme := scheme, todo := [] } envs s.todo).notify
    else { s with scheme := scheme }

end Ethernetd

/-- What a run has to account for: the requests, the answers that were given, each with its request,
and for each handle the reads it was asked for and the frames that are due to it. -/
structure History where
  requests : List Packet
  answers : List (Packet × Reply)
  reads : Nat → List Packet
  due : Nat → List EthernetII

namespace History

def new : History := ⟨[], [], fun _ => [], fun _ => []⟩

/-- The frames that a wake-up for the network brings. -/
def arrived : List (List UInt8) → List EthernetII
  | [] => []
  | [] :: _ => []
  | chunk :: chunks => (EthernetII.fromBytes (chunk.take 65536)).toList ++ arrived chunks

/-- A handle is due what its type brings, where it is there. -/
def brought (h : History) (s : EthernetScheme) (frames : List EthernetII) : History :=
  { h with due := fun id => h.due id ++ match s.handles.entry id with
      | some handle => frames.filter handle.accepts
      | none => [] }

def asked (h : History) (p : Packet) : History :=
  { h with
    requests := h.requests ++ [p]
    reads := if p.a = SYS_READ then Function.update h.reads p.b (h.reads p.b ++ [p]) else h.reads }

/-- A packet that does not block is answered. -/
def answered (h : History) (p : Packet) (done : Done EthernetScheme) : History :=
  if mux done.result = mux (.error EWOULDBLOCK) then h
  else { h with answers := h.answers ++ [(p, ⟨{ p with a := mux done.result }, done.bytes⟩)] }

/-- A new handle begins with nothing due, or with what the one it is copied from has queued. -/
def opened (h : History) (s : EthernetScheme) (p : Packet) (done : Done EthernetScheme) : History :=
  match method p.a, done.result with
  | some .openUrl, .ok id => { h with due := Function.update h.due id [] }
  | some .dup, .ok id => { h with due := Function.update h.due id (s.queue p.b) }
  | _, _ => h

def served (h : History) (e : Env) (s : EthernetScheme) (p : Packet) : History :=
  (h.opened s p (s.handle e p)).answered p (s.handle e p)

def retried (h : History) (s : Ethernetd) (envs : Nat → Env) : List Packet → History
  | [] => h
  | p :: rest =>
    (h.served (envs rest.length) s.scheme p).retried (s.serve (envs rest.length) p) envs rest

def next (h : History) (s : Ethernetd) : Ethernetd.Event → History
  | .request e p => (h.asked p).served e s.scheme p
  | .network chunks envs =>
    let (scheme, total) := s.scheme.input chunks
    let h := h.brought s.scheme (arrived chunks)
    if total > 0 then h.retried { s with scheme := scheme, todo := [] } envs s.todo else h

end History

/-- The daemon and its history take a step together. -/
def follow (w : Ethernetd × History) (event : Ethernetd.Event) : Ethernetd × History :=
  (w.1.step event, w.2.next w.1 event)

end Origel.Net.Ethernet
