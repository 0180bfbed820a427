import Origel.Net.Checksum
import Origel.Net.Delivery

/-! An interface of `ipd` on an Ethernet: which neighbours it knows, whom it answers, and where it sends. -/
namespace Origel.Net

open Origel.Net.Ethernet (MacAddr EthernetII EthernetIIHeader)

/-- `MacAddr::BROADCAST` -/
def broadcastMac : MacAddr := ⟨[0xFF, 0xFF, 0xFF, 0xFF, 0xFF, 0xFF], rfl⟩

/-- The header is packed, with its `n16` in network order. -/
structure ArpHeader where
  htype : UInt16
  ptype : UInt16
  hlen : UInt8
  plen : UInt8
  oper : UInt16
  srcMac : MacAddr
  srcIp : Ipv4Addr
  dstMac : MacAddr
  dstIp : Ipv4Addr
  deriving DecidableEq, Repr

/-- `size_of::<ArpHeader>()` -/
def sizeOfArpHeader : Nat := 28

structure Arp where
  header : ArpHeader
  data : List UInt8
  deriving DecidableEq, Repr

/-- An address as it lies in `bytes` from `i` on -/
def ipAt (bytes : List UInt8) (i : Nat) : Ipv4Addr :=
  ⟨bytes.getD i 0, bytes.getD (i + 1) 0, bytes.getD (i + 2) 0, bytes.getD (i + 3) 0⟩

def n16At (bytes : List UInt8) (i : Nat) : UInt16 := n16 (bytes.getD i 0) (bytes.getD (i + 1) 0)

theorem length_slice {bytes : List UInt8} {i : Nat} (h : i + 6 ≤ bytes.length) :
    ((bytes.drop i).take 6).length = 6 := by
  rw [List.length_take, List.length_drop]
  omega

def Arp.fromBytes (bytes : List UInt8) : Option Arp :=
  if h : sizeOfArpHeader ≤ bytes.length then
    some {
      header := {
        htype := n16At bytes 0
        ptype := n16At bytes 2
        hlen := bytes.getD 4 0
        plen := bytes.getD 5 0
        oper := n16At bytes 6
        srcMac := ⟨(bytes.drop 8).take 6, length_slice (Nat.le_trans (by decide) h)⟩
        srcIp := ipAt bytes 14
        dstMac := ⟨(bytes.drop 18).take 6, length_slice (Nat.le_trans (by decide) h)⟩
        dstIp := ipAt bytes 24 }
      data := bytes.drop sizeOfArpHeader }
  else none

def Arp.toBytes (packet : Arp) : List UInt8 :=
  be16 packet.header.htype ++ be16 packet.header.ptype ++ [packet.header.hlen, packet.header.plen] ++
    be16 packet.header.oper ++ packet.header.srcMac.bytes ++ packet.header.srcIp.bytes ++
    packet.header.dstMac.bytes ++ packet.header.dstIp.bytes ++ packet.data

theorem exists_octets (mac : MacAddr) : ∃ a b c d e f, mac.bytes = [a, b, c, d, e, f] := by
  obtain ⟨bytes, h⟩ := mac
  match bytes, h with
  | [a, b, c, d, e, f], _ => exact ⟨a, b, c, d, e, f, rfl⟩

/-- A packet is read back as it was written. -/
theorem Arp.fromBytes_toBytes (packet : Arp) : fromBytes packet.toBytes = some packet := by
  obtain ⟨⟨htype, ptype, hlen, plen, oper, srcMac, srcIp, dstMac, dstIp⟩, data⟩ := packet
  obtain ⟨a, b, c, d, e, f, hsrc⟩ := exists_octets srcMac
  obtain ⟨a', b', c', d', e', f', hdst⟩ := exists_octets dstMac
  have hbytes : toBytes ⟨⟨htype, ptype, hlen, plen, oper, srcMac, srcIp, dstMac, dstIp⟩, data⟩ =
      be16 htype ++ be16 ptype ++ [hlen, plen] ++ be16 oper ++ [a, b, c, d, e, f] ++ srcIp.bytes ++
        [a', b', c', d', e', f'] ++ dstIp.bytes ++ data := by
    rw [toBytes, hsrc, hdst]
  rw [hbytes, fromBytes]
  split
  next =>
    congr
    · exact n16_be16 htype
    · exact n16_be16 ptype
    · exact n16_be16 oper
    · exact hsrc.symm
    · exact hdst.symm
  next hshort => exact absurd (Nat.le_add_left 28 data.length) hshort

/-- A frame is read back as it was written. -/
theorem frame_fromBytes_toBytes (frame : EthernetII) :
    EthernetII.fromBytes frame.toBytes = some frame := by
  obtain ⟨⟨dst, src, ethertype⟩, data⟩ := frame
  obtain ⟨a, b, c, d, e, f, hdst⟩ := exists_octets dst
  obtain ⟨a', b', c', d', e', f', hsrc⟩ := exists_octets src
  have hbytes : EthernetII.toBytes ⟨⟨dst, src, ethertype⟩, data⟩ =
      [a, b, c, d, e, f] ++ [a', b', c', d', e', f'] ++ be16 ethertype ++ data := by
    rw [EthernetII.toBytes, hdst, hsrc]
  rw [hbytes, EthernetII.fromBytes]
  split
  next =>
    congr
    · exact hdst.symm
    · exact hsrc.symm
    · exact n16_be16 ethertype
  next hshort => exact absurd (Nat.le_add_left 14 data.length) hshort

/-- `arp` and `rarp` are the two maps of addresses. -/
structure EthernetInterface where
  mac : MacAddr
  ip : Ipv4Addr
  router : Ipv4Addr
  subnet : Ipv4Addr
  arp : Ipv4Addr → Option MacAddr
  rarp : MacAddr → Option Ipv4Addr

namespace EthernetInterface

def new (mac : MacAddr) (ip router subnet : Ipv4Addr) : EthernetInterface :=
  ⟨mac, ip, router, subnet, fun _ => none, fun _ => none⟩

/-- The two `insert`s, where neither address is that of everybody. -/
def hear (s : EthernetInterface) (ip : Ipv4Addr) (mac : MacAddr) : EthernetInterface :=
  if ip ≠ Ipv4Addr.BROADCAST ∧ mac ≠ broadcastMac then
    { s with
      arp := Function.update s.arp ip (some mac)
      rarp := Function.update s.rarp mac (some ip) }
  else s

/-- The answer to a request: it goes back to the station that the frame is from. -/
def response (s : EthernetInterface) (frame : EthernetII) (packet : Arp) : EthernetII where
  header := { frame.header with dst := frame.header.src, src := s.mac }
  data := Arp.toBytes {
    header := { packet.header with
      oper := 2
      dstMac := packet.header.srcMac
      dstIp := packet.header.srcIp
      srcMac := s.mac
      srcIp := s.ip }
    data := packet.data }

/-- What the loop of `arp_event` does with one frame, and the frame that it writes. -/
def arpFrame (s : EthernetInterface) (frame : EthernetII) : EthernetInterface × List EthernetII :=
  match Arp.fromBytes frame.data with
  | some packet =>
    if packet.header.oper = 1 then
      if packet.header.dstIp = s.ip then
        (s.hear packet.header.srcIp frame.header.src, [s.response frame packet])
      else (s, [])
    else (s, [])
  | none => (s, [])

/-- `arp_event`, with what it writes to its file. `chunks` is what the file has when it is read, up to 65536
bytes at a time; the loop ends with the first read that gives nothing. A write that fails ends the
daemon. -/
def arpEvent (s : EthernetInterface) : List (List UInt8) → EthernetInterface × List (List UInt8)
  | [] => (s, [])
  | [] :: _ => (s, [])
  | chunk :: chunks =>
    match EthernetII.fromBytes (chunk.take 65536) with
    | some frame =>
      let (s, frames) := s.arpFrame frame
      let (s, written) := s.arpEvent chunks
      (s, frames.map EthernetII.toBytes ++ written)
    | none => s.arpEvent chunks

/-- What the loop of `recv` does with one frame, and the packet that it hands on. -/
def recvFrame (s : EthernetInterface) (frame : EthernetII) : EthernetInterface × List Ipv4 :=
  match Ipv4.decode frame.data with
  | some ip =>
    if ip.header.dst = s.ip ∨ ip.header.dst = Ipv4Addr.BROADCAST then
      (s.hear ip.header.src frame.header.src, [ip])
    else (s, [])
  | none => (s, [])

/-- `recv`, on what its file has when it is read. -/
def recv (s : EthernetInterface) : List (List UInt8) → EthernetInterface × List Ipv4
  | [] => (s, [])
  | [] :: _ => (s, [])
  | chunk :: chunks =>
    match EthernetII.fromBytes (chunk.take 65536) with
    | some frame =>
      let (s, ips) := s.recvFrame frame
      let (s, rest) := s.recv chunks
      (s, ips ++ rest)
    | none => s.recv chunks

/-- The loop over the octets -/
def needsRouting (s : EthernetInterface) (dst : Ipv4Addr) : Bool :=
  (s.ip.bytes.zip (s.subnet.bytes.zip dst.bytes)).any fun (me, mask, them) =>
    me &&& mask != them &&& mask

/-- `route_addr` -/
def routeAddr (s : EthernetInterface) (dst : Ipv4Addr) : Ipv4Addr :=
  if s.needsRouting dst then s.router else dst

/-- The station that a packet is sent to. For an address that is not known the daemon prints that it would
have to be asked for, and everybody gets the packet. -/
def station (s : EthernetInterface) (dst : Ipv4Addr) : MacAddr :=
  if dst ≠ Ipv4Addr.BROADCAST then (s.arp (s.routeAddr dst)).getD broadcastMac else broadcastMac

/-- The frame that `send` writes to its file -/
def send (s : EthernetInterface) (ip : Ipv4) : EthernetII where
  header :=
    { dst := s.station ip.header.dst
      src := s.mac
      ethertype := 0x800 }
  data := ip.toBytes

variable {s : EthernetInterface} {ip dst : Ipv4Addr} {mac : MacAddr} {frame : EthernetII} {packet : Arp}

/-- The addresses that an interface was made with stay. -/
def SameAs (s s' : EthernetInterface) : Prop :=
  s'.mac = s.mac ∧ s'.ip = s.ip ∧ s'.router = s.router ∧ s'.subnet = s.subnet

theorem hear_same : s.SameAs (s.hear ip mac) := by
  rw [hear]
  split <;> exact ⟨rfl, rfl, rfl, rfl⟩

/-- What an interface knows after it has heard of an address: that, or what it knew. -/
theorem arp_hear {other : Ipv4Addr} {mac' : MacAddr} (h : (s.hear ip mac).arp other = some mac') :
    (other = ip ∧ mac' = mac ∧ ip ≠ Ipv4Addr.BROADCAST ∧ mac ≠ broadcastMac) ∨
      s.arp other = some mac' := by
  rw [hear] at h
  split at h
  next hno =>
    dsimp only at h
    by_cases heq : other = ip
    · subst heq
      rw [Function.update_self] at h
      exact .inl ⟨rfl, (Option.some.inj h).symm, hno⟩
    · exact .inr (by rwa [Function.update_of_ne heq] at h)
  · exact .inr h

/-- Who is known stays known. -/
theorem isSome_arp_hear {other : Ipv4Addr} (h : (s.arp other).isSome) :
    ((s.hear ip mac).arp other).isSome := by
  rw [hear]
  split
  · dsimp only
    by_cases heq : other = ip
    · subst heq
      rw [Function.update_self]
      rfl
    · rwa [Function.update_of_ne heq]
  · exact h

/-- A frame of requests is let be, or it is a request for the address of the interface, which answers. -/
theorem arpFrame_cases (s : EthernetInterface) (frame : EthernetII) : s.arpFrame frame = (s, []) ∨
    ∃ packet, Arp.fromBytes frame.data = some packet ∧ packet.header.oper = 1 ∧
      packet.header.dstIp = s.ip ∧ s.arpFrame frame =
        (s.hear packet.header.srcIp frame.header.src, [s.response frame packet]) := by
  rw [arpFrame]
  split
  next packet hpacket =>
    split
    next hoper =>
      split
      next hdst => exact .inr ⟨packet, hpacket, hoper, hdst, rfl⟩
      · exact .inl rfl
    · exact .inl rfl
  · exact .inl rfl

/-- A packet is let be, or it is for the interface or for everybody, and handed on. -/
theorem recvFrame_cases (s : EthernetInterface) (frame : EthernetII) : s.recvFrame frame = (s, []) ∨
    ∃ ip, Ipv4.decode frame.data = some ip ∧
      (ip.header.dst = s.ip ∨ ip.header.dst = Ipv4Addr.BROADCAST) ∧
      s.recvFrame frame = (s.hear ip.header.src frame.header.src, [ip]) := by
  rw [recvFrame]
  split
  next ip hip =>
    split
    next hdst => exact .inr ⟨ip, hip, hdst, rfl⟩
    · exact .inl rfl
  · exact .inl rfl

end EthernetInterface

end Origel.Net
