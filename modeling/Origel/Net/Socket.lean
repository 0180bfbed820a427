import Origel.RedoxFs.Node

/-! Addresses, sockets and the packets of `netutils`. -/
namespace Origel.Net

structure Ipv4Addr where
  a : UInt8
  b : UInt8
  c : UInt8
  d : UInt8
  deriving DecidableEq, Repr

/-- `char::to_digit` -/
def toDigit (radix : Nat) (c : Char) : Option Nat :=
  let n :=
    if '0' ≤ c ∧ c ≤ '9' then c.toNat - 48
    else if 'a' ≤ c ∧ c ≤ 'z' then c.toNat - 87
    else if 'A' ≤ c ∧ c ≤ 'Z' then c.toNat - 55
    else radix
  if n < radix then some n else none

/-- `from_str_radix` for an unsigned type with `bound` values -/
def fromStrRadix (bound radix : Nat) (s : List Char) : Option Nat := do
  let digits ← match s with
    | '+' :: rest => some rest
    | _ => some s
  if digits.isEmpty then none
  let n ← digits.foldlM (fun n c => (toDigit radix c).map (radix * n + ·)) 0
  if n < bound then some n else none

/-- `str::parse` for an unsigned type with `bound` values -/
def parseUnsigned (bound : Nat) (s : List Char) : Option Nat := fromStrRadix bound 10 s

theorem parseUnsigned_lt {bound n : Nat} {s : List Char} (h : parseUnsigned bound s = some n) :
    n < bound := by
  have hbound : ∀ digits : Option Nat,
      (digits.bind fun n => if n < bound then some n else none) = some n → n < bound := by
    intro digits h
    obtain ⟨m, _, h⟩ := Option.bind_eq_some_iff.mp h
    split at h
    next hlt =>
      cases h
      exact hlt
    · cases h
  unfold parseUnsigned fromStrRadix at h
  simp only [Option.bind_eq_bind] at h
  split at h
  all_goals
    rw [Option.bind_some] at h
    split at h
    · cases h
    · exact hbound _ h

namespace Ipv4Addr

def BROADCAST : Ipv4Addr := ⟨255, 255, 255, 255⟩
def NULL : Ipv4Addr := ⟨0, 0, 0, 0⟩

def fromStr (string : List Char) : Ipv4Addr :=
  let octets := (string.splitOn '.').map fun part =>
    UInt8.ofNat ((parseUnsigned (2 ^ 8) part).getD 0)
  ⟨octets.getD 0 0, octets.getD 1 0, octets.getD 2 0, octets.getD 3 0⟩

def toString (addr : Ipv4Addr) : String :=
  ".".intercalate ([addr.a, addr.b, addr.c, addr.d].map fun octet => octet.toNat.repr)

end Ipv4Addr

structure Socket where
  addr : Ipv4Addr
  port : UInt16
  deriving DecidableEq, Repr

def parseSocket (socket : List Char) : Socket :=
  let parts := socket.splitOn ':'
  ⟨Ipv4Addr.fromStr (parts.getD 0 []),
    UInt16.ofNat ((parseUnsigned (2 ^ 16) (parts.getD 1 [])).getD 0)⟩

/-- The sockets that the path of an `open` names, the remote one first. Where it names no local
port, `rng.gen_range(32768, 65535)` has drawn `port` after 32768. -/
def parsePath (port : Fin 32767) (path : List Char) : Socket × Socket :=
  let parts := path.splitOn '/'
  let localSocket := parseSocket (parts.getD 1 [])
  (parseSocket (parts.getD 0 []),
    if localSocket.port = 0 then { localSocket with port := UInt16.ofNat (32768 + port.val) }
    else localSocket)

def be16 (n : UInt16) : List UInt8 := [(n >>> 8).toUInt8, n.toUInt8]

def be32 (n : UInt32) : List UInt8 :=
  [(n >>> 24).toUInt8, (n >>> 16).toUInt8, (n >>> 8).toUInt8, n.toUInt8]

/-- A `u16` that is no `n16`, as it lies in memory. -/
def le16 (n : UInt16) : List UInt8 := [n.toUInt8, (n >>> 8).toUInt8]

theorem be16_bytes (a b : UInt8) :
    be16 (UInt16.ofNat (256 * a.toNat + b.toNat)) = [a, b] := by
  have ha := a.toNat_lt
  have hb := b.toNat_lt
  have hn : (UInt16.ofNat (256 * a.toNat + b.toNat)).toNat = 256 * a.toNat + b.toNat := by
    rw [UInt16.toNat_ofNat']
    omega
  have hhigh : (UInt16.ofNat (256 * a.toNat + b.toNat) >>> 8).toUInt8 = a := by
    apply UInt8.toNat_inj.mp
    rw [UInt16.toNat_toUInt8, UInt16.toNat_shiftRight, hn, Nat.shiftRight_eq_div_pow]
    have height : UInt16.toNat 8 % 16 = 8 := rfl
    rw [height]
    omega
  have hlow : (UInt16.ofNat (256 * a.toNat + b.toNat)).toUInt8 = b := by
    apply UInt8.toNat_inj.mp
    rw [UInt16.toNat_toUInt8, hn]
    omega
  rw [be16, hhigh, hlow]

structure Ipv4Header where
  verHlen : UInt8
  services : UInt8
  len : UInt16
  id : UInt16
  flagsFragment : UInt16
  ttl : UInt8
  proto : UInt8
  checksum : UInt16
  src : Ipv4Addr
  dst : Ipv4Addr
  deriving DecidableEq, Repr

/-- `size_of::<Ipv4Header>()` -/
def sizeOfIpv4Header : Nat := 20

structure Ipv4 where
  header : Ipv4Header
  options : List UInt8
  data : List UInt8
  deriving DecidableEq, Repr

def Ipv4Header.toBytes (h : Ipv4Header) : List UInt8 :=
  [h.verHlen, h.services] ++ be16 h.len ++ be16 h.id ++ be16 h.flagsFragment ++
    [h.ttl, h.proto] ++ le16 h.checksum ++ [h.src.a, h.src.b, h.src.c, h.src.d] ++
    [h.dst.a, h.dst.b, h.dst.c, h.dst.d]

def Ipv4.toBytes (ip : Ipv4) : List UInt8 := ip.header.toBytes ++ ip.options ++ ip.data

def TCP_FIN : UInt16 := 1
def TCP_SYN : UInt16 := (1 : UInt16) <<< 1
def TCP_PSH : UInt16 := (1 : UInt16) <<< 3
def TCP_ACK : UInt16 := (1 : UInt16) <<< 4

/-- The headers are packed, with their fields in network order but for the checksum. -/
structure TcpHeader where
  src : UInt16
  dst : UInt16
  sequence : UInt32
  ackNum : UInt32
  flags : UInt16
  windowSize : UInt16
  checksum : UInt16
  urgentPointer : UInt16
  deriving DecidableEq, Repr

/-- `size_of::<TcpHeader>()` -/
def sizeOfTcpHeader : Nat := 20

structure Tcp where
  header : TcpHeader
  options : List UInt8
  data : List UInt8
  deriving DecidableEq, Repr

def TcpHeader.toBytes (h : TcpHeader) : List UInt8 :=
  be16 h.src ++ be16 h.dst ++ be32 h.sequence ++ be32 h.ackNum ++ be16 h.flags ++
    be16 h.windowSize ++ le16 h.checksum ++ be16 h.urgentPointer

def Tcp.toBytes (t : Tcp) : List UInt8 := t.header.toBytes ++ t.options ++ t.data

structure UdpHeader where
  src : UInt16
  dst : UInt16
  len : UInt16
  checksum : UInt16
  deriving DecidableEq, Repr

/-- `size_of::<UdpHeader>()` -/
def sizeOfUdpHeader : Nat := 8

structure Udp where
  header : UdpHeader
  data : List UInt8
  deriving DecidableEq, Repr

def Udp.toBytes (u : Udp) : List UInt8 :=
  be16 u.header.src ++ be16 u.header.dst ++ be16 u.header.len ++ le16 u.header.checksum ++ u.data

/-- Of the flags in `mask`, just those of `value` are set. -/
def Tcp.flagged (t : Tcp) (mask value : UInt16) : Bool := t.header.flags &&& mask == value

/-- `if let Some(port) = ports.get_mut(..) { *port = *port + 1; }` -/
def bump (ports : UInt16 → Option Nat) (port : UInt16) : UInt16 → Option Nat :=
  Function.update ports port ((ports port).map (· + 1))

/-- The port of a handle that is gone: its count goes up here too, and would have to reach 0 for
the port to be removed. -/
def release (ports : UInt16 → Option Nat) (port : UInt16) : UInt16 → Option Nat :=
  match ports port with
  | some n => Function.update ports port (if n + 1 = 0 then none else some (n + 1))
  | none => ports

example : parseSocket "10.0.2.15:8080".toList = ⟨⟨10, 0, 2, 15⟩, 8080⟩ := by decide
example : parseSocket "clone".toList = ⟨.NULL, 0⟩ := by decide

end Origel.Net
