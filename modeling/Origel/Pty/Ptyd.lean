import Origel.Daemon.Scheme
import Origel.Net.Socket

/-! The daemon of the scheme `pty:`: masters and slaves, and the loop that tries blocked requests
again. -/
namespace Origel.Pty

open Origel.Lib Origel.Daemon
open Origel.Kernel.UserScheme (Packet mux)
open Origel.Net (parseUnsigned)
open Origel.RedoxFs (fromUtf8 utf8)

/-- What has gone through a pseudo-terminal. The source keeps none of this. -/
structure History where
  /-- The payloads of what its slaves have written. -/
  written : List UInt8
  /-- What reads of the master have returned of that, without the tags. -/
  returned : List UInt8
  /-- The bytes that the master has written. -/
  sent : List UInt8
  /-- The bytes that reads of the slaves have returned, with the slave. -/
  received : List (Nat × UInt8)
  deriving DecidableEq, Repr

def History.none : History := ⟨[], [], [], []⟩

structure PtyMaster where
  id : Nat
  flags : Nat
  read : List (List UInt8)
  write : List UInt8
  deriving DecidableEq, Repr

/-- Its weak references to the queues of the master are told by the id of that. -/
structure PtySlave where
  masterId : Nat
  flags : Nat
  deriving DecidableEq, Repr

/-- An entry of one of the two maps of `ptys`, which share their ids. -/
inductive Entry where
  | master (m : PtyMaster)
  | slave (v : PtySlave)
  deriving DecidableEq, Repr

structure PtyScheme where
  ptys : Table Entry
  history : Nat → History

def trimMatches (c : Char) (s : List Char) : List Char :=
  ((s.dropWhile (· = c)).reverse.dropWhile (· = c)).reverse

namespace PtyScheme

def new : PtyScheme := ⟨Table.empty 0, fun _ => History.none⟩

/-- `ptys.0.get`, and `upgrade` of a reference of a slave: the queues live in the entry of the
master. -/
def master (s : PtyScheme) (id : Nat) : Option PtyMaster :=
  match s.ptys.entry id with
  | some (.master m) => some m
  | _ => none

/-- `Rc::weak_count` of a queue of the master: each slave has one reference to it. -/
def weakCount (s : PtyScheme) (id : Nat) : Nat :=
  s.ptys.entries.countP fun e =>
    match e.2 with
    | .slave v => v.masterId = id
    | .master _ => false

/-- The queues of the master and what has gone through them change. -/
def update (s : PtyScheme) (id : Nat) (m : PtyMaster) (h : History) : PtyScheme where
  ptys := s.ptys.modify id fun _ => .master m
  history := Function.update s.history id h

/-- The entry gets the next id. -/
def insert (s : PtyScheme) (e : Entry) : Done PtyScheme :=
  succeed { s with ptys := s.ptys.insert e } s.ptys.next

def openUrl (s : PtyScheme) (url : List UInt8) (flags _uid _gid : Nat) : Done PtyScheme :=
  match fromUtf8 url with
  | none => fail s EINVAL
  | some path =>
    match trimMatches '/' path.toList with
    | [] => s.insert (.master ⟨s.ptys.next, flags, [], []⟩)
    | path =>
      match parseUnsigned (2 ^ 64) path with
      | none => fail s EINVAL
      | some masterId =>
        match s.master masterId with
        | none => fail s ENOENT
        | some _ => s.insert (.slave ⟨masterId, flags⟩)

def dup (s : PtyScheme) (id : Nat) (_buf : List UInt8) : Done PtyScheme :=
  match s.ptys.entry id with
  | some (.slave v) => s.insert (.slave v)
  | _ => fail s EBADF

/-- `PtyMaster::read` -/
def readMaster (s : PtyScheme) (id : Nat) (m : PtyMaster) (len : Nat) : Done PtyScheme :=
  match m.read with
  | packet :: read =>
    let bytes := copied len packet
    let h := s.history id
    ⟨s.update id { m with read := read } { h with returned := h.returned ++ bytes.drop 1 },
      .ok bytes.length, bytes⟩
  | [] =>
    if m.flags &&& O_NONBLOCK = O_NONBLOCK ∨ s.weakCount id = 0 then succeed s 0
    else fail s EWOULDBLOCK

/-- `PtySlave::read` -/
def readSlave (s : PtyScheme) (id : Nat) (v : PtySlave) (len : Nat) : Done PtyScheme :=
  match s.master v.masterId with
  | none => succeed s 0
  | some m =>
    let bytes := copied len m.write
    let h := s.history v.masterId
    let s := s.update v.masterId { m with write := m.write.drop len }
      { h with received := h.received ++ bytes.map (Prod.mk id) }
    if bytes ≠ [] ∨ v.flags &&& O_NONBLOCK = O_NONBLOCK then ⟨s, .ok bytes.length, bytes⟩
    else fail s EWOULDBLOCK

def read (s : PtyScheme) (id len : Nat) : Done PtyScheme :=
  match s.ptys.entry id with
  | some (.master m) => s.readMaster id m len
  | some (.slave v) => s.readSlave id v len
  | none => fail s EBADF

/-- `PtyMaster::write` -/
def writeMaster (s : PtyScheme) (id : Nat) (m : PtyMaster) (buf : List UInt8) : Done PtyScheme :=
  let h := s.history id
  succeed (s.update id { m with write := m.write ++ buf } { h with sent := h.sent ++ buf }) buf.length

/-- A packet of a slave joins the queue of the master: its tag, and what it carries. -/
def push (s : PtyScheme) (v : PtySlave) (tag : UInt8) (buf : List UInt8) : Done PtyScheme :=
  match s.master v.masterId with
  | none => fail s EPIPE
  | some m =>
    let h := s.history v.masterId
    succeed (s.update v.masterId { m with read := m.read ++ [tag :: buf] }
      { h with written := h.written ++ buf }) buf.length

def write (s : PtyScheme) (id : Nat) (buf : List UInt8) : Done PtyScheme :=
  match s.ptys.entry id with
  | some (.master m) => s.writeMaster id m buf
  | some (.slave v) => s.push v 0 buf
  | none => fail s EBADF

def fevent (s : PtyScheme) (id _flags : Nat) : Done PtyScheme :=
  match s.ptys.entry id with
  | some _ => succeed s id
  | none => fail s EBADF

def fpath (s : PtyScheme) (id len : Nat) : Done PtyScheme :=
  match s.ptys.entry id with
  | some entry =>
    let bytes := copied len (utf8 ("pty:" ++ match entry with
      | .master m => m.id.repr
      | .slave v => v.masterId.repr))
    ⟨s, .ok bytes.length, bytes⟩
  | none => fail s EBADF

def fsync (s : PtyScheme) (id : Nat) : Done PtyScheme :=
  match s.ptys.entry id with
  | some (.slave v) => s.push v 1 []
  | _ => succeed s 0

def close (s : PtyScheme) (id : Nat) : Done PtyScheme :=
  succeed { s with ptys := s.ptys.remove id } 0

/-- `impl SchemeMut for PtyScheme` -/
def scheme : SchemeMut PtyScheme where
  openUrl := openUrl
  dup := dup
  read := read
  write := write
  fevent := fevent
  fpath := fpath
  fsync := fsync
  close := close

/-- What the daemon tells of masters and slaves with something to read, and of those whose other
side has gone. -/
def notices (s : PtyScheme) : List Reply :=
  (s.ptys.entries.flatMap fun e =>
    match e.2 with
    | .master m =>
      match m.read with
      | data :: _ => [notice e.1 data.length]
      | [] => if s.weakCount e.1 = 0 then [notice e.1 0] else []
    | .slave _ => []) ++
  s.ptys.entries.flatMap fun e =>
    match e.2 with
    | .slave v =>
      match s.master v.masterId with
      | some m => if m.write ≠ [] then [notice e.1 m.write.length] else []
      | none => [notice e.1 0]
    | .master _ => []

end PtyScheme

/-- The daemon, with what it has written to its socket. -/
structure Ptyd where
  socket : List Reply
  scheme : PtyScheme
  todo : List Packet

/-- A packet read from the socket, and the memory of the callers while it is handled. -/
structure Event where
  memory : Nat → UInt8
  packet : Packet

namespace Ptyd

def new : Ptyd := ⟨[], PtyScheme.new, []⟩

/-- A request is handled, and answered unless it would block. -/
def attempt (memory : Nat → UInt8) (s : Ptyd) (p : Packet) : Ptyd :=
  let done := PtyScheme.scheme.handle memory s.scheme p
  let a := mux done.result
  if a = mux (.error EWOULDBLOCK) then { s with scheme := done.state, todo := s.todo ++ [p] }
  else
    { s with
      scheme := done.state
      socket := s.socket ++ [⟨{ p with a := a }, done.bytes⟩] }

/-- The loop over `todo`: what still blocks stays in it, in order. -/
def retry (memory : Nat → UInt8) (s : Ptyd) : Ptyd :=
  s.todo.foldl (attempt memory) { s with todo := [] }

/-- The body of the loop of `main` -/
def step (s : Ptyd) (e : Event) : Ptyd :=
  let s := (s.attempt e.memory e.packet).retry e.memory
  { s with socket := s.socket ++ s.scheme.notices }

end Ptyd

end Origel.Pty
