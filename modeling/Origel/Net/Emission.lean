import Origel.Net.Codec
import Origel.Net.Tcp
import Origel.Net.Udp

/-! What the daemons of `tcp:` and `udp:` write to the scheme `ip:`, as its decoders read it. -/
namespace Origel.Net

open Origel.Daemon

/-- The bytes decode to a segment between the sockets of the handle, with just this payload. -/
def Tcp.Handle.Carried (h : Tcp.Handle) (buf bytes : List UInt8) : Prop :=
  ∃ ip tcp, Ipv4.fromBytes bytes = some (some ip) ∧ Tcp.fromBytes ip.data = some (some tcp) ∧
    ip.header.src = h.localSocket.addr ∧ ip.header.dst = h.remoteSocket.addr ∧
    tcp.header.src = h.localSocket.port ∧ tcp.header.dst = h.remoteSocket.port ∧ tcp.data = buf

/-- The bytes decode to a datagram between the sockets of the handle, with just this payload. -/
def Udp.Handle.Carried (h : Udp.Handle) (buf bytes : List UInt8) : Prop :=
  ∃ ip udp, Ipv4.fromBytes bytes = some (some ip) ∧ Udp.fromBytes ip.data = some (some udp) ∧
    ip.header.src = h.localSocket.addr ∧ ip.header.dst = h.remoteSocket.addr ∧
    udp.header.src = h.localSocket.port ∧ udp.header.dst = h.remoteSocket.port ∧ udp.data = buf

theorem Ipv4.fromBytes_toBytes_self {ip : Ipv4} (h : ip.Agrees) :
    fromBytes ip.toBytes = some (some ip) := by
  have hbytes := fromBytes_toBytes h []
  rwa [List.append_nil] at hbytes

theorem Ipv4.header_of_fromBytes {bytes : List UInt8} {ip : Ipv4}
    (h : fromBytes bytes = some (some ip)) : Ipv4Header.read bytes = some ip.header := by
  unfold fromBytes at h
  split at h
  next hsize =>
    obtain ⟨header, hread, _⟩ := Ipv4Header.exists_read hsize
    simp only [hread, Option.bind_eq_bind, Option.bind_some] at h
    split at h
    next hcond =>
      obtain ⟨hmin, hhead, hlen, hle⟩ := hcond
      rw [slice_eq hmin hhead, Option.bind_some, slice_eq hle hlen, Option.bind_some] at h
      cases h
      exact hread
    · cases h
  · cases h

/-- A packet whose length is that of its header, or less, up to the options, is not read back. -/
theorem Ipv4.le_len_of_fromBytes {ip ip' : Ipv4} (h : fromBytes ip.toBytes = some (some ip')) :
    sizeOfIpv4Header ≤ ip.header.len.toNat := by
  obtain ⟨r, hr, hspec⟩ := fromBytes_spec ip.toBytes
  rw [h] at hr
  cases hr
  have hread := header_of_fromBytes h
  rw [toBytes, List.append_assoc, ip.header.read_toBytes] at hread
  have hlen := (hspec ip' rfl).1.len
  rw [← Option.some.inj hread] at hlen
  omega

/-- A header without options -/
theorem Ipv4Header.headerLen_plain {h : Ipv4Header} (hverHlen : h.verHlen = 0x45) :
    h.headerLen = sizeOfIpv4Header := by
  rw [headerLen, hverHlen]
  rfl

namespace Tcp.Handle

variable (h : Tcp.Handle) (id : UInt16) (buf : List UInt8)

/-- The segment that `write` puts into a packet -/
def pushed : Net.Tcp := h.createTcp (TCP_ACK ||| TCP_PSH) buf

theorem length_pushed : (h.pushed buf).toBytes.length = sizeOfTcpHeader + buf.length := by
  rw [Net.Tcp.length_toBytes]
  rfl

theorem pushed_agrees : (h.pushed buf).Agrees := by
  show TcpHeader.headerLen _ = sizeOfTcpHeader + 0
  rw [TcpHeader.headerLen]
  exact (by decide : (((UInt16.ofNat ((sizeOfTcpHeader <<< 10) &&& 0xF000) |||
    ((TCP_ACK ||| TCP_PSH) &&& 0xFFF)) &&& 0xF000) >>> 10).toNat = sizeOfTcpHeader)

/-- The length of a packet has sixteen bits. -/
theorem segment_agrees (hlen : buf.length ≤ 65495) :
    (h.segment id (TCP_ACK ||| TCP_PSH) buf).Agrees := by
  have hpushed := h.length_pushed buf
  refine ⟨Ipv4Header.headerLen_plain rfl, ?_⟩
  show (UInt16.ofNat ((h.pushed buf).toBytes.length + sizeOfIpv4Header)).toNat =
    sizeOfIpv4Header + 0 + (h.pushed buf).toBytes.length
  rw [hpushed, UInt16.toNat_ofNat', sizeOfTcpHeader, sizeOfIpv4Header]
  omega

/-- The limit of `write` is that of datagrams, whose headers are shorter by twelve bytes. -/
theorem carried_iff (hlen : buf.length < 65507) :
    h.Carried buf (h.segment id (TCP_ACK ||| TCP_PSH) buf).toBytes ↔ buf.length ≤ 65495 := by
  constructor
  · rintro ⟨ip, tcp, hip, _⟩
    have hle := Ipv4.le_len_of_fromBytes hip
    change sizeOfIpv4Header ≤
      (UInt16.ofNat ((h.pushed buf).toBytes.length + sizeOfIpv4Header)).toNat at hle
    rw [length_pushed, UInt16.toNat_ofNat', sizeOfTcpHeader, sizeOfIpv4Header] at hle
    omega
  · intro hsmall
    refine ⟨_, h.pushed buf, Ipv4.fromBytes_toBytes_self (h.segment_agrees id buf hsmall), ?_,
      rfl, rfl, rfl, rfl, rfl⟩
    exact Tcp.fromBytes_toBytes (h.pushed_agrees buf)

end Tcp.Handle

namespace Udp.Handle

variable (h : Udp.Handle) (id : UInt16) (buf : List UInt8)

/-- What `write` puts into a packet -/
def pushed : Net.Udp :=
  ⟨⟨h.localSocket.port, h.remoteSocket.port, UInt16.ofNat (buf.length + sizeOfUdpHeader), 0⟩, buf⟩

theorem length_pushed : (h.pushed buf).toBytes.length = sizeOfUdpHeader + buf.length := by
  rw [Net.Udp.toBytes, List.length_append]
  rfl

theorem pushed_agrees (hlen : buf.length < 65507) : (h.pushed buf).Agrees := by
  show (UInt16.ofNat (buf.length + sizeOfUdpHeader)).toNat = sizeOfUdpHeader + buf.length
  rw [UInt16.toNat_ofNat', sizeOfUdpHeader]
  omega

theorem datagram_agrees (hlen : buf.length < 65507) : (h.datagram id buf).Agrees := by
  have hpushed := h.length_pushed buf
  refine ⟨Ipv4Header.headerLen_plain rfl, ?_⟩
  show (UInt16.ofNat ((h.pushed buf).toBytes.length + sizeOfIpv4Header)).toNat =
    sizeOfIpv4Header + 0 + (h.pushed buf).toBytes.length
  rw [hpushed, UInt16.toNat_ofNat', sizeOfUdpHeader, sizeOfIpv4Header]
  omega

theorem carried (hlen : buf.length < 65507) : h.Carried buf (h.datagram id buf).toBytes := by
  have hudp := Udp.fromBytes_toBytes (h.pushed_agrees buf hlen) []
  rw [List.append_nil] at hudp
  exact ⟨_, h.pushed buf, Ipv4.fromBytes_toBytes_self (h.datagram_agrees id buf hlen), hudp,
    rfl, rfl, rfl, rfl, rfl⟩

end Udp.Handle

/-- What a `write` that a daemon of `tcp:` takes puts on the wire. -/
theorem Tcp.Tcpd.write_ok {e : Tcp.Env} {s : Tcp.Tcpd} {file n : Nat} {buf : List UInt8}
    {h : Tcp.Handle} (hh : s.handles.entry file = some h)
    (hok : (Tcp.Tcpd.write e s file buf).result = .ok n) :
    buf.length < 65507 ∧ (Tcp.Tcpd.write e s file buf).state.tcpFile =
      s.tcpFile ++ [h.segment e.ipId (TCP_ACK ||| TCP_PSH) buf] := by
  unfold Tcp.Tcpd.write Tcp.Tcpd.send at hok ⊢
  rw [hh] at hok ⊢
  simp only at hok ⊢
  split at hok
  · cases hok
  next hconnected =>
    split at hok
    · cases hok
    next hlen =>
      rw [if_neg hconnected, if_neg hlen]
      split at hok
      next hstate =>
        rw [if_pos hstate]
        cases hwire : e.wire with
        | none => exact ⟨by omega, rfl⟩
        | some errno =>
          rw [hwire] at hok
          cases hok
      · cases hok

theorem Udp.Udpd.write_ok {e : Udp.Env} {s : Udp.Udpd} {file n : Nat} {buf : List UInt8}
    {h : Udp.Handle} (hh : s.handles.entry file = some h)
    (hok : (Udp.Udpd.write e s file buf).result = .ok n) :
    buf.length < 65507 ∧ (Udp.Udpd.write e s file buf).state.udpFile =
      s.udpFile ++ [h.datagram e.ipId buf] := by
  unfold Udp.Udpd.write at hok ⊢
  rw [hh] at hok ⊢
  simp only at hok ⊢
  split at hok
  · cases hok
  next hconnected =>
    split at hok
    · cases hok
    next hlen =>
      rw [if_neg hconnected, if_neg hlen]
      cases hwire : e.wire with
      | none => exact ⟨by omega, rfl⟩
      | some errno =>
        rw [hwire] at hok
        cases hok

/-- What the daemons write for the buffers they take is read back, but for the longest buffers of
`tcp:`. -/
theorem writes_carried (buf : List UInt8) :
    (∀ (e : Tcp.Env) (s : Tcp.Tcpd) (file n : Nat) (h : Tcp.Handle),
      s.handles.entry file = some h → (Tcp.Tcpd.write e s file buf).result = .ok n →
      ∃ ip, (Tcp.Tcpd.write e s file buf).state.tcpFile = s.tcpFile ++ [ip] ∧
        (h.Carried buf ip.toBytes ↔ buf.length ≤ 65495)) ∧
    ∀ (e : Udp.Env) (s : Udp.Udpd) (file n : Nat) (h : Udp.Handle),
      s.handles.entry file = some h → (Udp.Udpd.write e s file buf).result = .ok n →
      ∃ ip, (Udp.Udpd.write e s file buf).state.udpFile = s.udpFile ++ [ip] ∧
        h.Carried buf ip.toBytes := by
  constructor
  · intro e s file n h hh hok
    obtain ⟨hlen, hfile⟩ := Tcp.Tcpd.write_ok hh hok
    exact ⟨_, hfile, h.carried_iff e.ipId buf hlen⟩
  · intro e s file n h hh hok
    obtain ⟨hlen, hfile⟩ := Udp.Udpd.write_ok hh hok
    exact ⟨_, hfile, h.carried e.ipId buf hlen⟩

/-- A connection between two sockets of the machine -/
def linked : Tcp.Handle :=
  { Tcp.Handle.new ⟨⟨127, 0, 0, 1⟩, 1025⟩ ⟨⟨127, 0, 0, 1⟩, 80⟩ 0 with state := .Established }

def linkedTcpd : Tcp.Tcpd := ⟨[], [], fun _ => none, (Lib.Table.empty 1).insert linked⟩

def linkedUdp : Udp.Handle := ⟨⟨⟨127, 0, 0, 1⟩, 1025⟩, ⟨⟨127, 0, 0, 1⟩, 53⟩, 0, 0, [], []⟩

def linkedUdpd : Udp.Udpd := ⟨[], [], fun _ => none, (Lib.Table.empty 1).insert linkedUdp⟩

theorem write_linkedTcpd {buf : List UInt8} (hlen : buf.length < 65507) :
    (Tcp.Tcpd.write ⟨fun _ => 0, 0, 0, 0, none⟩ linkedTcpd 1 buf).result = .ok buf.length := by
  have hlimit : ¬65507 ≤ buf.length := by omega
  show (if 65507 ≤ buf.length then fail linkedTcpd EMSGSIZE else succeed _ buf.length).result =
    .ok buf.length
  rw [if_neg hlimit]
  rfl

theorem writes_carried_linked :
    (∃ ip, (Tcp.Tcpd.write ⟨fun _ => 0, 0, 0, 0, none⟩ linkedTcpd 1 [1, 2]).state.tcpFile = [ip] ∧
      (linked.Carried [1, 2] ip.toBytes ↔ [1, 2].length ≤ 65495)) ∧
    ∃ ip, (Udp.Udpd.write ⟨fun _ => 0, 0, 0, none⟩ linkedUdpd 1 [1, 2]).state.udpFile = [ip] ∧
      linkedUdp.Carried [1, 2] ip.toBytes :=
  ⟨(writes_carried [1, 2]).1 ⟨fun _ => 0, 0, 0, 0, none⟩ linkedTcpd 1 2 linked rfl rfl,
    (writes_carried [1, 2]).2 ⟨fun _ => 0, 0, 0, none⟩ linkedUdpd 1 2 linkedUdp rfl rfl⟩

theorem write_not_carried_of {buf : List UInt8} (hlength : buf.length = 65496) :
    let done := Tcp.Tcpd.write ⟨fun _ => 0, 0, 0, 0, none⟩ linkedTcpd 1 buf
    done.result = .ok buf.length ∧
      ∃ ip, done.state.tcpFile = [ip] ∧ ¬linked.Carried buf ip.toBytes := by
  have hok := write_linkedTcpd (show buf.length < 65507 by omega)
  obtain ⟨hlen, hfile⟩ := Tcp.Tcpd.write_ok (h := linked) rfl hok
  refine ⟨hok, _, hfile, ?_⟩
  rw [linked.carried_iff _ buf hlen]
  omega

/-- The length of a packet that carries 65496 bytes wraps to zero. -/
theorem write_not_carried :
    linked.isConnected ∧
      let buf := List.replicate 65496 (0 : UInt8)
      let done := Tcp.Tcpd.write ⟨fun _ => 0, 0, 0, 0, none⟩ linkedTcpd 1 buf
      done.result = .ok buf.length ∧
        ∃ ip, done.state.tcpFile = [ip] ∧ ¬linked.Carried buf ip.toBytes :=
  ⟨by decide, write_not_carried_of List.length_replicate⟩

end Origel.Net
