import Origel.Daemon.Scheme
import Origel.Net.Socket

/-! The daemon of the scheme `udp:`. -/
namespace Origel.Net.Udp

open Origel.Lib Origel.Daemon
open Origel.Kernel.UserScheme (Packet mux)
open Origel.RedoxFs (fromUtf8 utf8)

structure Handle where
  localSocket : Socket
  remoteSocket : Socket
  flags : Nat
  events : Nat
  data : List (List UInt8)
  todo : List Packet
  deriving DecidableEq, Repr

namespace Handle

def isConnected (h : Handle) : Bool :=
  h.remoteSocket.addr != Ipv4Addr.NULL && h.remoteSocket.port != 0

/-- The condition of `udp_event` on a datagram -/
def matchesDatagram (h : Handle) (ip : Ipv4) (udp : Net.Udp) : Bool :=
  (h.localSocket.addr == Ipv4Addr.NULL || ip.header.dst == h.localSocket.addr ||
      ip.header.dst == Ipv4Addr.BROADCAST) &&
    udp.header.dst == h.localSocket.port &&
    (h.remoteSocket.addr == Ipv4Addr.NULL || h.remoteSocket.addr == Ipv4Addr.BROADCAST ||
      ip.header.src == h.remoteSocket.addr) &&
    (h.remoteSocket.port == 0 || udp.header.src == h.remoteSocket.port)

/-- The packet that carries a datagram of the handle. -/
def datagram (h : Handle) (id : UInt16) (data : List UInt8) : Ipv4 :=
  let udp : Net.Udp :=
    { header :=
        { src := h.localSocket.port
          dst := h.remoteSocket.port
          len := UInt16.ofNat (data.length + sizeOfUdpHeader)
          checksum := 0 }
      data := data }
  { header :=
      { verHlen := 0x45
        services := 0
        len := UInt16.ofNat (udp.toBytes.length + sizeOfIpv4Header)
        id := id
        flagsFragment := 0
        ttl := 127
        proto := 0x11
        checksum := 0
        src := h.localSocket.addr
        dst := h.remoteSocket.addr }
    options := []
    data := udp.toBytes }

end Handle

structure Env where
  memory : Nat → UInt8
  ipId : UInt16
  port : Fin 32767
  wire : Option Nat

/-- The daemon, with what it has written to its two files. -/
structure Udpd where
  schemeFile : List Reply
  udpFile : List Ipv4
  ports : UInt16 → Option Nat
  handles : Table Handle

namespace Udpd

def new : Udpd := ⟨[], [], fun _ => none, Table.empty 1⟩

def modify (s : Udpd) (file : Nat) (f : Handle → Handle) : Udpd :=
  { s with handles := s.handles.modify file f }

/-- The handle gets the next id. -/
def insert (s : Udpd) (h : Handle) : Done Udpd :=
  succeed { s with handles := s.handles.insert h } s.handles.next

def openUrl (e : Env) (s : Udpd) (url : List UInt8) (flags uid _gid : Nat) : Done Udpd :=
  match fromUtf8 url with
  | none => fail s EINVAL
  | some path =>
    let (remoteSocket, localSocket) := parsePath e.port path.toList
    if localSocket.port ≤ 1024 ∧ uid ≠ 0 then fail s EACCES
    else if (s.ports localSocket.port).isSome then fail s EADDRINUSE
    else
      { s with ports := Function.update s.ports localSocket.port (some 1) }.insert
        ⟨localSocket, remoteSocket, flags, 0, [], []⟩

def dup (s : Udpd) (file : Nat) (buf : List UInt8) : Done Udpd :=
  match s.handles.entry file with
  | none => fail s EBADF
  | some h =>
    match fromUtf8 buf with
    | none => fail s EINVAL
    | some path =>
      { s with ports := bump s.ports h.localSocket.port }.insert
        { h with
          remoteSocket := if h.isConnected then h.remoteSocket else parseSocket path.toList
          events := 0
          todo := [] }

def read (s : Udpd) (file len : Nat) : Done Udpd :=
  match s.handles.entry file with
  | none => fail s EBADF
  | some h =>
    if !h.isConnected then fail s ENOTCONN
    else match h.data with
      | front :: data =>
        let bytes := copied len front
        ⟨s.modify file fun h => { h with data := data }, .ok bytes.length, bytes⟩
      | [] =>
        if h.flags &&& O_NONBLOCK = O_NONBLOCK then succeed s 0
        else fail s EWOULDBLOCK

def write (e : Env) (s : Udpd) (file : Nat) (buf : List UInt8) : Done Udpd :=
  match s.handles.entry file with
  | none => fail s EBADF
  | some h =>
    if !h.isConnected then fail s ENOTCONN
    else if 65507 ≤ buf.length then fail s EMSGSIZE
    else match e.wire with
      | some errno => fail s errno
      | none => succeed { s with udpFile := s.udpFile ++ [h.datagram e.ipId buf] } buf.length

def fcntl (s : Udpd) (file cmd arg : Nat) : Done Udpd :=
  match s.handles.entry file with
  | none => fail s EBADF
  | some h =>
    if cmd = F_GETFL then succeed s h.flags
    else if cmd = F_SETFL then
      succeed (s.modify file fun h => { h with flags := arg &&& (2 ^ 64 - 1 - O_ACCMODE) }) 0
    else fail s EINVAL

def fevent (s : Udpd) (file flags : Nat) : Done Udpd :=
  match s.handles.entry file with
  | none => fail s EBADF
  | some _ => succeed (s.modify file fun h => { h with events := flags }) file

def fpath (s : Udpd) (id len : Nat) : Done Udpd :=
  match s.handles.entry id with
  | none => fail s EBADF
  | some h =>
    let path := utf8 ("udp:" ++ h.remoteSocket.addr.toString ++ ":" ++
      h.remoteSocket.port.toNat.repr ++ "/" ++ h.localSocket.addr.toString ++ ":" ++
      h.localSocket.port.toNat.repr)
    let bytes := copied len path
    ⟨s, .ok bytes.length, bytes⟩

def fsync (s : Udpd) (file : Nat) : Done Udpd :=
  match s.handles.entry file with
  | none => fail s EBADF
  | some _ => succeed s 0

def close (s : Udpd) (file : Nat) : Done Udpd :=
  match s.handles.entry file with
  | none => fail s EBADF
  | some h =>
    succeed { s with
      handles := s.handles.remove file
      ports := release s.ports h.localSocket.port } 0

/-- `impl SchemeMut for Udpd` -/
def scheme (e : Env) : SchemeMut Udpd where
  openUrl := openUrl e
  dup := dup
  read := read
  write := write e
  fcntl := fcntl
  fevent := fevent
  fpath := fpath
  fsync := fsync
  close := close

/-- The body of the loop of `scheme_event` -/
def schemeEvent (s : Udpd) (e : Env) (p : Packet) : Udpd :=
  let done := (scheme e).handle e.memory s p
  let a := mux done.result
  if a = mux (.error EWOULDBLOCK) then
    done.state.modify p.b fun h => { h with todo := h.todo ++ [p] }
  else
    { done.state with schemeFile := done.state.schemeFile ++ [⟨{ p with a := a }, done.bytes⟩] }

/-- What one handle does on a datagram that it matches. -/
def serve (id : Nat) (h : Handle) (udp : Net.Udp) : Handle × List Reply :=
  let (todo, data, replies) := answer h.todo (h.data ++ [udp.data])
  ({ h with todo := todo, data := data }, replies ++ notices h.events id data)

/-- The body of the loop of `udp_event`, for a packet that is a datagram -/
def udpEvent (s : Udpd) (ip : Ipv4) (udp : Net.Udp) : Udpd :=
  let takers := s.handles.entries.filter fun e => e.2.matchesDatagram ip udp
  { s with
    schemeFile := s.schemeFile ++ takers.flatMap fun e => (serve e.1 e.2 udp).2
    handles := s.handles.map fun id h =>
      if h.matchesDatagram ip udp then (serve id h udp).1 else h }

/-- What the daemon wakes up for. -/
inductive Event where
  | request (e : Env) (p : Packet)
  | datagram (ip : Ipv4) (udp : Net.Udp)

def step (s : Udpd) : Event → Udpd
  | .request e p => s.schemeEvent e p
  | .datagram ip udp => s.udpEvent ip udp

variable {s : Udpd} {e : Env} {p : Packet}

/-- The ways in which `handle` ends on a packet. -/
inductive Handled (s : Udpd) (p : Packet) : Done Udpd → Prop
  | kept {sent : List Ipv4} {r : Except Nat Nat} {bytes : List UInt8}
      (hr : s.handles.entry p.b = none → ∃ errno, r = .error errno ∧ errno ≠ EWOULDBLOCK) :
      Handled s p ⟨{ s with udpFile := sent }, r, bytes⟩
  | changed {h h' : Handle} {r : Except Nat Nat} {bytes : List UInt8}
      (hh : s.handles.entry p.b = some h) (hl : h'.localSocket = h.localSocket)
      (ht : h'.todo = h.todo) : Handled s p ⟨s.modify p.b fun _ => h', r, bytes⟩
  | opened {h : Handle} (hm : method p.a = some .openUrl) (ht : h.todo = [])
      (hp : s.ports h.localSocket.port = none) :
      Handled s p (insert { s with
        ports := Function.update s.ports h.localSocket.port (some 1) } h)
  | joined {h new : Handle} (hm : method p.a = some .dup) (hh : s.handles.entry p.b = some h)
      (hl : new.localSocket = h.localSocket) (ht : new.todo = []) :
      Handled s p (insert { s with ports := bump s.ports h.localSocket.port } new)
  | removed {h : Handle} (hm : method p.a = some .close) (hh : s.handles.entry p.b = some h) :
      Handled s p (succeed { s with
        handles := s.handles.remove p.b
        ports := release s.ports h.localSocket.port } 0)

theorem Handled.failed {errno : Nat} (he : errno ≠ EWOULDBLOCK) : Handled s p (fail s errno) :=
  @Handled.kept s p s.udpFile _ _ fun _ => ⟨errno, rfl, he⟩

theorem Handled.present {h : Handle} (hh : s.handles.entry p.b = some h) (sent : List Ipv4)
    (r : Except Nat Nat) (bytes : List UInt8) :
    Handled s p ⟨{ s with udpFile := sent }, r, bytes⟩ :=
  .kept fun hn => by rw [hh] at hn; cases hn

theorem Handled.modify {h : Handle} {f : Handle → Handle} (hh : s.handles.entry p.b = some h)
    (hl : (f h).localSocket = h.localSocket) (ht : (f h).todo = h.todo) (r : Except Nat Nat)
    (bytes : List UInt8) : Handled s p ⟨s.modify p.b f, r, bytes⟩ := by
  have hm : s.handles.modify p.b f = s.handles.modify p.b fun _ => f h :=
    Table.modify_congr hh rfl
  rw [Udpd.modify, hm]
  exact .changed hh hl ht

theorem handled_openUrl (hm : method p.a = some .openUrl) (url : List UInt8)
    (flags uid gid : Nat) : Handled s p (openUrl e s url flags uid gid) := by
  unfold openUrl
  cases fromUtf8 url with
  | none => exact .failed (by decide)
  | some path =>
    dsimp only
    split
    · exact .failed (by decide)
    · split
      · exact .failed (by decide)
      next hp =>
        have hp : s.ports (parsePath e.port path.toList).2.port = none := by
          cases hv : s.ports (parsePath e.port path.toList).2.port with
          | none => rfl
          | some n => rw [hv] at hp; exact (hp rfl).elim
        exact Handled.opened (h := ⟨_, _, flags, 0, [], []⟩) hm rfl hp

/-- What a method does with the handle it is called for. -/
theorem handled_entry {f : Handle → Done Udpd}
    (hf : ∀ h, s.handles.entry p.b = some h → Handled s p (f h)) :
    Handled s p (match s.handles.entry p.b with
      | none => fail s EBADF
      | some h => f h) := by
  cases hh : s.handles.entry p.b with
  | none => exact .failed (by decide)
  | some h => exact hf h hh

theorem handled : Handled s p ((scheme e).handle e.memory s p) := by
  refine SchemeMut.handle_of (fun _ he => .failed he) (fun hm => handled_openUrl hm _ _ _ p.gid)
    (fun hm => ?dup) (fun _ => ?read) (fun _ => ?write) ?fcntl ?fevent ?fpath ?fsync fun hm => ?close
  case dup =>
    refine handled_entry fun h hh => ?_
    cases fromUtf8 (load e.memory p.c p.d) with
    | none => exact .failed (by decide)
    | some path => exact .joined hm hh rfl rfl
  case read =>
    refine handled_entry fun h hh => ?_
    split
    · exact .present hh s.udpFile _ _
    · split
      next front data _ =>
        exact Handled.modify (f := fun h => { h with data := data }) hh rfl rfl _ _
      · split
        · exact .present hh s.udpFile _ _
        · exact .present hh s.udpFile _ _
  case write =>
    refine handled_entry fun h hh => ?_
    split
    · exact .present hh s.udpFile _ _
    · split
      · exact .present hh s.udpFile _ _
      · split
        · exact .present hh s.udpFile _ _
        · exact .present hh _ _ _
  case fcntl =>
    refine handled_entry fun h hh => ?_
    split
    · exact .present hh s.udpFile _ _
    · split
      · exact Handled.modify
          (f := fun h => { h with flags := p.d &&& (2 ^ 64 - 1 - O_ACCMODE) }) hh rfl rfl _ _
      · exact .present hh s.udpFile _ _
  case fevent =>
    exact handled_entry fun h hh => Handled.modify (f := fun h => { h with events := p.c }) hh rfl rfl _ _
  case fpath => exact handled_entry fun h hh => .present hh s.udpFile _ _
  case fsync => exact handled_entry fun h hh => .present hh s.udpFile _ _
  case close => exact handled_entry fun h hh => .removed hm hh

end Udpd

end Origel.Net.Udp
