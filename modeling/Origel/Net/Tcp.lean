import Origel.Daemon.Scheme
import Origel.Net.Socket

/-! The daemon of the scheme `tcp:`: its handles, the methods of the scheme, and what it does with
a packet of the scheme file and with a segment from the network. -/
namespace Origel.Net.Tcp

open Origel.Lib Origel.Daemon
open Origel.Kernel.UserScheme (Packet mux)
open Origel.RedoxFs (fromUtf8 utf8)

inductive State where
  | Listen | SynSent | SynReceived | Established | FinWait1 | FinWait2 | CloseWait | Closing
  | LastAck | TimeWait | Closed
  deriving DecidableEq, Repr

/-- What has happened to a handle. The source keeps none of this. -/
structure History where
  /-- The sequence number of the SYN that its connection was opened with. -/
  syn : UInt32
  /-- The payloads put into `data`. -/
  queued : List UInt8
  /-- The bytes that reads have returned. -/
  returned : List UInt8
  deriving DecidableEq, Repr

structure Handle where
  localSocket : Socket
  remoteSocket : Socket
  flags : Nat
  events : Nat
  state : State
  seq : UInt32
  ack : UInt32
  data : List (Ipv4 × Net.Tcp)
  todoDup : List Packet
  todoRead : List Packet
  todoWrite : List Packet
  history : History
  deriving DecidableEq, Repr

def payloads (data : List (Ipv4 × Net.Tcp)) : List UInt8 := data.flatMap fun e => e.2.data

namespace Handle

def isConnected (h : Handle) : Bool :=
  h.remoteSocket.addr != Ipv4Addr.NULL && h.remoteSocket.port != 0

def readClosed (h : Handle) : Bool :=
  h.state == .CloseWait || h.state == .LastAck || h.state == .TimeWait || h.state == .Closed

/-- `Handle::matches` -/
def matchesSegment (h : Handle) (ip : Ipv4) (tcp : Net.Tcp) : Bool :=
  (h.localSocket.addr == Ipv4Addr.NULL || ip.header.dst == h.localSocket.addr ||
      ip.header.dst == Ipv4Addr.BROADCAST) &&
    tcp.header.dst == h.localSocket.port &&
    (h.remoteSocket.addr == Ipv4Addr.NULL || h.remoteSocket.addr == Ipv4Addr.BROADCAST ||
      ip.header.src == h.remoteSocket.addr) &&
    (h.remoteSocket.port == 0 || tcp.header.src == h.remoteSocket.port)

def createTcp (h : Handle) (flags : UInt16) (data : List UInt8) : Net.Tcp where
  header :=
    { src := h.localSocket.port
      dst := h.remoteSocket.port
      sequence := h.seq
      ackNum := h.ack
      flags := UInt16.ofNat ((sizeOfTcpHeader <<< 10) &&& 0xF000) ||| (flags &&& 0xFFF)
      windowSize := 8192
      checksum := 0
      urgentPointer := 0 }
  options := []
  data := data

def createIp (h : Handle) (id : UInt16) (data : List UInt8) : Ipv4 where
  header :=
    { verHlen := 0x45
      services := 0
      len := UInt16.ofNat (data.length + sizeOfIpv4Header)
      id := id
      flagsFragment := 0
      ttl := 127
      proto := 0x06
      checksum := 0
      src := h.localSocket.addr
      dst := h.remoteSocket.addr }
  options := []
  data := data

/-- The packet that carries a segment of the handle. -/
def segment (h : Handle) (id : UInt16) (flags : UInt16) (data : List UInt8) : Ipv4 :=
  h.createIp id (h.createTcp flags data).toBytes

/-- A handle as `open` builds it. -/
def new (localSocket remoteSocket : Socket) (flags : Nat) : Handle :=
  ⟨localSocket, remoteSocket, flags, 0, .Listen, 0, 0, [], [], [], [], ⟨0, [], []⟩⟩

/-- A handle as `dup` starts it from another one. -/
def renew (h : Handle) : Handle :=
  ⟨h.localSocket, h.remoteSocket, h.flags, 0, h.state, h.seq, h.ack, [], [], [], [],
    ⟨h.history.syn, [], []⟩⟩

def push (h : Handle) (e : Ipv4 × Net.Tcp) : Handle :=
  { h with
    data := h.data ++ [e]
    history := { h.history with queued := h.history.queued ++ e.2.data } }

/-- A handle that starts a connection: the number of its SYN is drawn. -/
def opening (h : Handle) (state : State) (seq ack : UInt32) : Handle :=
  { h with state := state, seq := seq, ack := ack, history := { h.history with syn := seq } }

/-- `handle.seq += len` -/
def advance (h : Handle) (len : Nat) : Handle := { h with seq := h.seq + UInt32.ofNat len }

/-- `Tcpd::read` on a live handle, with the handle and the bytes it leaves -/
def read (h : Handle) (len : Nat) : Handle × Except Nat Nat × List UInt8 :=
  if !h.isConnected then (h, .error ENOTCONN, [])
  else match h.data with
    | (_, tcp) :: data =>
      let bytes := copied len tcp.data
      ({ h with
          data := data
          history := { h.history with returned := h.history.returned ++ bytes } },
        .ok bytes.length, bytes)
    | [] =>
      if h.flags &&& O_NONBLOCK = O_NONBLOCK || h.readClosed then (h, .ok 0, [])
      else (h, .error EWOULDBLOCK, [])

/-- What `retain` leaves in a queue once `taker` has what matches it. -/
def retain (taker : Handle) (data : List (Ipv4 × Net.Tcp)) : List (Ipv4 × Net.Tcp) :=
  data.filter fun e => !taker.matchesSegment e.1 e.2

/-- What `retain` takes out. -/
def taken (taker : Handle) (data : List (Ipv4 × Net.Tcp)) : List (Ipv4 × Net.Tcp) :=
  data.filter fun e => taker.matchesSegment e.1 e.2

/-- The handle that `dup` makes of this one for an empty path -/
def copy (h : Handle) : Handle :=
  { h.renew with
    data := h.data
    history := { h.renew.history with queued := payloads h.data } }

/-- The handle that `dup` makes of this one for a remote socket: it takes what it matches from the
queue. -/
def dial (h : Handle) (remoteSocket : Socket) (seq : UInt32) : Handle :=
  let newHandle := { h.renew with remoteSocket := remoteSocket }.opening .SynSent seq 0
  let data := newHandle.taken h.data
  { newHandle with
    data := data
    history := { newHandle.history with queued := payloads data } }

/-- A handle for the peer of a queued segment, as `SynReceived`, before its SYN is counted. -/
def accepting (h : Handle) (e : Ipv4 × Net.Tcp) (seq : UInt32) : Handle :=
  { h.renew with remoteSocket := ⟨e.1.header.src, e.2.header.src⟩ }.opening .SynReceived seq
    (e.2.header.sequence + 1)

/-- The state after a close of the handle, if it outlives that. -/
def closing (h : Handle) : Option State :=
  match h.state with
  | .SynReceived | .Established => some .FinWait1
  | .CloseWait => some .LastAck
  | _ => none

/-- A segment of the state machine, and whether it is acknowledged and ends the connection. -/
structure Received where
  handle : Handle
  acks : Bool
  closes : Bool

def received (h : Handle) : Received := ⟨h, false, false⟩

/-- The `match` on the state in `tcp_event` -/
def receive (h : Handle) (ip : Ipv4) (tcp : Net.Tcp) : Received :=
  let acked := tcp.header.ackNum == h.seq
  match h.state with
  | .SynReceived =>
    if tcp.flagged (TCP_SYN ||| TCP_ACK) TCP_ACK && acked then
      received { h with state := .Established }
    else received h
  | .SynSent =>
    if tcp.flagged (TCP_SYN ||| TCP_ACK) (TCP_SYN ||| TCP_ACK) && acked then
      ⟨{ h with state := .Established, ack := tcp.header.sequence + 1 }, true, false⟩
    else received h
  | .Established =>
    if tcp.flagged (TCP_SYN ||| TCP_ACK) TCP_ACK && acked then
      if tcp.data ≠ [] then
        ⟨{ h with ack := tcp.header.sequence + UInt32.ofNat tcp.data.length }.push (ip, tcp),
          true, false⟩
      else if tcp.flagged TCP_FIN TCP_FIN then
        ⟨{ h with state := .CloseWait, ack := tcp.header.sequence + 1 }, true, false⟩
      else received { h with ack := tcp.header.sequence }
    else received h
  | .FinWait1 =>
    if tcp.flagged (TCP_SYN ||| TCP_ACK) TCP_ACK && acked then
      if tcp.flagged TCP_FIN TCP_FIN then
        ⟨{ h with state := .TimeWait, ack := tcp.header.sequence + 1 }, true, true⟩
      else received { h with state := .FinWait2, ack := tcp.header.sequence + 1 }
    else received h
  | .FinWait2 =>
    if tcp.flagged (TCP_SYN ||| TCP_ACK ||| TCP_FIN) (TCP_ACK ||| TCP_FIN) && acked then
      ⟨{ h with state := .TimeWait, ack := tcp.header.sequence + 1 }, true, true⟩
    else received h
  | .LastAck =>
    if tcp.flagged (TCP_SYN ||| TCP_ACK) TCP_ACK && acked then
      ⟨{ h with state := .Closed }, false, true⟩
    else received h
  | _ => received h

/-- The loop over `todo_read` in `tcp_event`, with the packets it answers -/
def answerReads (closed : Bool) : List Packet → List (Ipv4 × Net.Tcp) →
    List Packet × List (Ipv4 × Net.Tcp) × List Reply
  | [], data => ([], data, [])
  | p :: todo, (_, tcp) :: data =>
    let bytes := copied p.d tcp.data
    let (todo, data, replies) := answerReads closed todo data
    (todo, data, ⟨{ p with a := bytes.length }, bytes⟩ :: replies)
  | p :: todo, [] =>
    if closed then
      let (todo, data, replies) := answerReads closed todo []
      (todo, data, ⟨{ p with a := 0 }, []⟩ :: replies)
    else (p :: todo, [], [])

end Handle

/-- What the world answers a call with: the memory of the caller, the random numbers drawn, and the
error number of the write to the network, if it fails. -/
structure Env where
  memory : Nat → UInt8
  seq : UInt32
  ipId : UInt16
  port : Fin 32767
  wire : Option Nat

/-- What is drawn for one handle while a segment is handled: numbers of packets, how the write of a
parked write ends, and the numbers of the connections accepted. A write that fails elsewhere in
`tcp_event` ends the daemon. -/
structure Draws where
  memory : Nat → UInt8
  ackId : UInt16
  writeId : UInt16
  wire : Option Nat
  seq : Nat → UInt32
  synId : Nat → UInt16

/-- What one handle does on a segment. -/
structure Served where
  handle : Handle
  closes : Bool
  replies : List Reply
  sent : List Ipv4

namespace Handle

/-- The write at the head of `todo_write`, once the connection is established -/
def answerWrite (h : Handle) (draw : Draws) : Handle × List Reply × List Ipv4 :=
  match h.todoWrite with
  | p :: todo =>
    if h.state = .Established then
      let h := { h with todoWrite := todo }
      let buf := load draw.memory p.c p.d
      match draw.wire with
      | none => (h.advance buf.length, [⟨{ p with a := mux (.ok buf.length) }, []⟩],
          [h.segment draw.writeId (TCP_ACK ||| TCP_PSH) buf])
      | some errno => (h, [⟨{ p with a := mux (.error errno) }, []⟩], [])
    else (h, [], [])
  | [] => (h, [], [])

/-- The reads parked at a handle, answered. -/
def serveReads (h : Handle) : Handle × List Reply :=
  let (todo, data, replies) := answerReads h.readClosed h.todoRead h.data
  ({ h with
      todoRead := todo
      data := data
      history := { h.history with
        returned := h.history.returned ++ replies.flatMap fun r => r.bytes } }, replies)

/-- The body of the first loop of `tcp_event`, for a handle that the segment matches -/
def serve (h : Handle) (id : Nat) (ip : Ipv4) (tcp : Net.Tcp) (draw : Draws) : Served :=
  let r := h.receive ip tcp
  let acks := if r.acks then [r.handle.segment draw.ackId TCP_ACK []] else []
  let (h, reads) := r.handle.serveReads
  let (h, writes, sent) := h.answerWrite draw
  ⟨h, r.closes, reads ++ writes ++ notices h.events id (h.data.map fun e => e.2.data), acks ++ sent⟩

/-- A connection that a listening handle accepts, with its packet. -/
structure Accepted where
  packet : Packet
  handle : Handle
  sent : Ipv4

/-- The loop over `todo_dup` in `tcp_event` -/
def accept (h : Handle) (draw : Draws) : Nat → List Packet → List (Ipv4 × Net.Tcp) →
    List Packet × List (Ipv4 × Net.Tcp) × List Accepted
  | _, [], data => ([], data, [])
  | _, todo, [] => (todo, [], [])
  | k, p :: todo, e :: data =>
    let handle := h.accepting e (draw.seq k)
    let sent := handle.segment (draw.synId k) (TCP_SYN ||| TCP_ACK) []
    let handle := handle.advance 1
    let (todo, data, accepted) := accept h draw (k + 1) todo (handle.retain data)
    (todo, data, ⟨p, handle, sent⟩ :: accepted)

end Handle

/-- What a listening handle has and what it has accepted once a SYN has come. -/
def Handle.listen (h : Handle) (ip : Ipv4) (tcp : Net.Tcp) (draw : Draws) :
    Handle × List Handle.Accepted :=
  let h := h.push (ip, tcp)
  let (todo, data, accepted) := h.accept draw 0 h.todoDup h.data
  ({ h with todoDup := todo, data := data }, accepted)

/-- The daemon, with what it has written to its two files. -/
structure Tcpd where
  schemeFile : List Reply
  tcpFile : List Ipv4
  ports : UInt16 → Option Nat
  handles : Table Handle

namespace Tcpd

def new : Tcpd := ⟨[], [], fun _ => none, Table.empty 1⟩

/-- `tcp_file.write` -/
def send (s : Tcpd) (e : Env) (ip : Ipv4) : Except Nat Tcpd :=
  match e.wire with
  | some errno => .error errno
  | none => .ok { s with tcpFile := s.tcpFile ++ [ip] }

def modify (s : Tcpd) (file : Nat) (f : Handle → Handle) : Tcpd :=
  { s with handles := s.handles.modify file f }

/-- The handle gets the next id. -/
def insert (s : Tcpd) (h : Handle) : Done Tcpd :=
  succeed { s with handles := s.handles.insert h } s.handles.next

def openUrl (e : Env) (s : Tcpd) (url : List UInt8) (flags uid _gid : Nat) : Done Tcpd :=
  match fromUtf8 url with
  | none => fail s EINVAL
  | some path =>
    let (remoteSocket, localSocket) := parsePath e.port path.toList
    if localSocket.port ≤ 1024 ∧ uid ≠ 0 then fail s EACCES
    else if (s.ports localSocket.port).isSome then fail s EADDRINUSE
    else
      let claim (s : Tcpd) (h : Handle) :=
        { s with ports := Function.update s.ports localSocket.port (some 1) }.insert h
      let handle := Handle.new localSocket remoteSocket flags
      if handle.isConnected then
        let handle := handle.opening .SynSent e.seq 0
        match s.send e (handle.segment e.ipId TCP_SYN []) with
        | .error errno => fail s errno
        | .ok s => claim s (handle.advance 1)
      else claim s handle

/-- The tail of `dup`: the handle made joins the others on its port. -/
def join (s : Tcpd) (h : Handle) : Done Tcpd :=
  { s with ports := bump s.ports h.localSocket.port }.insert h

def dup (e : Env) (s : Tcpd) (file : Nat) (buf : List UInt8) : Done Tcpd :=
  match fromUtf8 buf with
  | none => fail s EINVAL
  | some path =>
    match s.handles.entry file with
    | none => fail s EBADF
    | some handle =>
      if path = "listen" then
        if handle.isConnected then fail s EISCONN
        else match handle.data with
          | front :: data =>
            let s := s.modify file fun h => { h with data := data }
            let newHandle := handle.accepting front e.seq
            match s.send e (newHandle.segment e.ipId (TCP_SYN ||| TCP_ACK) []) with
            | .error errno => fail s errno
            | .ok s =>
              let newHandle := newHandle.advance 1
              (s.modify file fun h => { h with data := newHandle.retain h.data }).join newHandle
          | [] => fail s EWOULDBLOCK
      else if path = "" then s.join handle.copy
      else if handle.isConnected then fail s EISCONN
      else
        let newHandle := handle.dial (parseSocket path.toList) e.seq
        if newHandle.isConnected then
          let s := s.modify file fun h => { h with data := newHandle.retain h.data }
          match s.send e (newHandle.segment e.ipId TCP_SYN []) with
          | .error errno => fail s errno
          | .ok s => s.join newHandle
        else fail s EINVAL

def read (s : Tcpd) (file len : Nat) : Done Tcpd :=
  match s.handles.entry file with
  | none => fail s EBADF
  | some handle => ⟨s.modify file fun h => (h.read len).1, (handle.read len).2.1,
      (handle.read len).2.2⟩

def write (e : Env) (s : Tcpd) (file : Nat) (buf : List UInt8) : Done Tcpd :=
  match s.handles.entry file with
  | none => fail s EBADF
  | some handle =>
    if !handle.isConnected then fail s ENOTCONN
    else if 65507 ≤ buf.length then fail s EMSGSIZE
    else if handle.state = .Established then
      match s.send e (handle.segment e.ipId (TCP_ACK ||| TCP_PSH) buf) with
      | .error errno => fail s errno
      | .ok s => succeed (s.modify file (·.advance buf.length)) buf.length
    else fail s EWOULDBLOCK

def fcntl (s : Tcpd) (file cmd arg : Nat) : Done Tcpd :=
  match s.handles.entry file with
  | none => fail s EBADF
  | some handle =>
    if cmd = F_GETFL then succeed s handle.flags
    else if cmd = F_SETFL then
      succeed (s.modify file fun h => { h with flags := arg &&& (2 ^ 64 - 1 - O_ACCMODE) }) 0
    else fail s EINVAL

def fevent (s : Tcpd) (file flags : Nat) : Done Tcpd :=
  match s.handles.entry file with
  | none => fail s EBADF
  | some _ => succeed (s.modify file fun h => { h with events := flags }) file

def fpath (s : Tcpd) (id len : Nat) : Done Tcpd :=
  match s.handles.entry id with
  | none => fail s EBADF
  | some handle =>
    let path := utf8 ("tcp:" ++ handle.remoteSocket.addr.toString ++ ":" ++
      handle.remoteSocket.port.toNat.repr ++ "/" ++ handle.localSocket.addr.toString ++ ":" ++
      handle.localSocket.port.toNat.repr)
    let bytes := copied len path
    ⟨s, .ok bytes.length, bytes⟩

def fsync (s : Tcpd) (file : Nat) : Done Tcpd :=
  match s.handles.entry file with
  | none => fail s EBADF
  | some _ => succeed s 0

def close (e : Env) (s : Tcpd) (file : Nat) : Done Tcpd :=
  match s.handles.entry file with
  | none => fail s EBADF
  | some handle =>
    match handle.closing with
    | some state =>
      let handle := { handle with data := [], state := state }
      let s := s.modify file fun _ => handle
      match s.send e (handle.segment e.ipId (TCP_FIN ||| TCP_ACK) []) with
      | .error errno => fail s errno
      | .ok s => succeed (s.modify file (·.advance 1)) 0
    | none =>
      succeed { s with
        handles := s.handles.remove file
        ports := release s.ports handle.localSocket.port } 0

/-- `impl SchemeMut for Tcpd` -/
def scheme (e : Env) : SchemeMut Tcpd where
  openUrl := openUrl e
  dup := dup e
  read := read
  write := write e
  fcntl := fcntl
  fevent := fevent
  fpath := fpath
  fsync := fsync
  close := close e

def reply (s : Tcpd) (r : Reply) : Tcpd := { s with schemeFile := s.schemeFile ++ [r] }

/-- The queue that a blocked request waits in. -/
def park (p : Packet) (h : Handle) : Option Handle :=
  match method p.a with
  | some .dup => some { h with todoDup := h.todoDup ++ [p] }
  | some .read => some { h with todoRead := h.todoRead ++ [p] }
  | some .write => some { h with todoWrite := h.todoWrite ++ [p] }
  | _ => none

/-- The body of the loop of `scheme_event` -/
def schemeEvent (s : Tcpd) (e : Env) (p : Packet) : Tcpd :=
  let done := (scheme e).handle e.memory s p
  let a := mux done.result
  if a = mux (.error EWOULDBLOCK) then
    match done.state.handles.entry p.b with
    | some h =>
      match park p h with
      | some h => done.state.modify p.b fun _ => h
      | none => done.state.reply ⟨{ p with a := a }, done.bytes⟩
    | none => done.state
  else done.state.reply ⟨{ p with a := a }, done.bytes⟩

/-- The handles that a segment matches, but for listening ones. -/
def connections (s : Tcpd) (ip : Ipv4) (tcp : Net.Tcp) : List (Nat × Handle) :=
  s.handles.entries.filter fun e => e.2.state != .Listen && e.2.matchesSegment ip tcp

/-- The first loop of `tcp_event`, and the removal of what it closes -/
def deliver (s : Tcpd) (ip : Ipv4) (tcp : Net.Tcp) (draw : Nat → Draws) : Tcpd :=
  let served := (s.connections ip tcp).map fun e => e.2.serve e.1 ip tcp (draw e.1)
  { schemeFile := s.schemeFile ++ served.flatMap Served.replies
    tcpFile := s.tcpFile ++ served.flatMap Served.sent
    ports := (served.filter Served.closes).foldl
      (fun ports v => release ports v.handle.localSocket.port) s.ports
    handles := s.handles.filterMap fun id h =>
      if h.state != .Listen && h.matchesSegment ip tcp then
        let v := h.serve id ip tcp (draw id)
        if v.closes then none else some v.handle
      else some h }

/-- The second loop of `tcp_event`: a SYN for no connection goes to those who listen -/
def accept (s : Tcpd) (ip : Ipv4) (tcp : Net.Tcp) (draw : Nat → Draws) : Tcpd :=
  let listeners := s.handles.entries.filter fun e =>
    e.2.state == .Listen && e.2.matchesSegment ip tcp
  let accepted := listeners.flatMap fun e => (e.2.listen ip tcp (draw e.1)).2
  { schemeFile := s.schemeFile ++ accepted.mapIdx fun i a =>
      ⟨{ a.packet with a := s.handles.next + i }, []⟩
    tcpFile := s.tcpFile ++ accepted.map Handle.Accepted.sent
    ports := accepted.foldl (fun ports a => bump ports a.handle.localSocket.port) s.ports
    handles := (s.handles.map fun id h =>
      if h.state == .Listen && h.matchesSegment ip tcp then (h.listen ip tcp (draw id)).1
      else h).insertAll (accepted.map Handle.Accepted.handle) }

/-- The body of the loop of `tcp_event`, for a packet that is a segment -/
def tcpEvent (s : Tcpd) (ip : Ipv4) (tcp : Net.Tcp) (draw : Nat → Draws) : Tcpd :=
  let t := s.deliver ip tcp draw
  if s.connections ip tcp = [] ∧ tcp.flagged (TCP_SYN ||| TCP_ACK) TCP_SYN then
    t.accept ip tcp draw
  else t

/-- What the daemon wakes up for. -/
inductive Event where
  | request (e : Env) (p : Packet)
  | segment (ip : Ipv4) (tcp : Net.Tcp) (draw : Nat → Draws)

def step (s : Tcpd) : Event → Tcpd
  | .request e p => s.schemeEvent e p
  | .segment ip tcp draw => s.tcpEvent ip tcp draw

end Tcpd

end Origel.Net.Tcp
