import Origel.Net.Checksum
import Origel.Net.Ip

/-! `write` of the scheme `ip:`: what an interface gets to send. -/
namespace Origel.Net.Ip

open Origel.Lib Origel.Daemon

/-- What `write` uses of an `Interface`; a failed `send` has an error number. -/
structure Interface where
  ip : Ipv4Addr
  routable : Ipv4Addr → Bool
  send : Ipv4 → Except Nat Nat

/-- The condition of the loop over the interfaces -/
def Interface.takes (interface : Interface) (ip : Ipv4) : Bool :=
  ip.header.src == interface.ip ||
    ip.header.src == Ipv4Addr.NULL && interface.routable ip.header.dst

/-- What `write` makes of a packet for an interface that takes it. -/
def readied (interface : Interface) (proto : UInt8) (ip : Ipv4) : Ipv4 :=
  let ip := { ip with header := { ip.header with src := interface.ip, proto := proto } }
  let ip := match Tcp.decode ip.data with
    | some tcp => { ip with data := (tcp.checksum ip.header.src ip.header.dst).toBytes }
    | none => ip
  ip.checksum

/-- The interface that gets a packet to send, and the packet. -/
def handed (interfaces : List Interface) (buf : List UInt8) (proto : UInt8) :
    Except Nat (Interface × Ipv4) :=
  match Ipv4.decode buf with
  | some ip =>
    match interfaces.find? fun interface => interface.takes ip with
    | some interface => .ok (interface, readied interface proto ip)
    | none => .error EADDRNOTAVAIL
  | none => .error EINVAL

/-- The loop over the interfaces -/
def sendOver (interfaces : List Interface) (buf : List UInt8) (proto : UInt8) : Except Nat Unit :=
  match handed interfaces buf proto with
  | .ok (interface, ip) => (interface.send ip).map fun _ => ()
  | .error errno => .error errno

/-- The payload of a packet is sent as it came, but for a checksum that the receiver accepts where
the protocol is that of segments, and the receiver accepts the header. -/
def Honest (proto : UInt8) (ip sent : Ipv4) : Prop :=
  (match if proto = 6 then Tcp.decode ip.data else none with
    | some tcp =>
      (∃ data, sent.data = { tcp with header := { tcp.header with checksum := data } }.toBytes) ∧
        Verified (pseudoHeader sent.header.src sent.header.dst sent.data.length ++ sent.data)
    | none => sent.data = ip.data) ∧
    Verified (sent.header.toBytes ++ sent.options)

/-- A payload that is no segment, or one whose checksum the interface would not change. -/
def Untouched (interface : Interface) (ip : Ipv4) : Prop :=
  ∀ tcp, Tcp.decode ip.data = some tcp → tcp.header.checksum ≠ 0xFFFF ∧
    Verified (pseudoHeader interface.ip ip.header.dst ip.data.length ++ ip.data)

theorem even_options {tcp : Tcp} (h : tcp.Agrees) : tcp.options.length % 2 = 0 := by
  have hhead : tcp.header.headerLen = sizeOfTcpHeader + tcp.options.length := h
  rw [tcp.header.headerLen_eq, sizeOfTcpHeader] at hhead
  omega

theorem checksum_agrees {tcp : Tcp} (h : tcp.Agrees) (src dst : Ipv4Addr) :
    (tcp.checksum src dst).Agrees := h

/-- Segments are told apart by their bytes. -/
theorem toBytes_inj {tcp tcp' : Tcp} (h : tcp.Agrees) (h' : tcp'.Agrees) :
    tcp.toBytes = tcp'.toBytes ↔ tcp = tcp' := by
  constructor
  · intro heq
    have hbytes := Tcp.fromBytes_toBytes h
    rw [heq, Tcp.fromBytes_toBytes h'] at hbytes
    exact (Option.some.inj (Option.some.inj hbytes)).symm
  · rintro rfl
    rfl

section

variable (interface : Interface) (proto : UInt8) (ip : Ipv4)

/-- What the interface gets to send has the options that the caller sent. -/
theorem readied_eq : readied interface proto ip =
    Ipv4.checksum ⟨{ ip.header with src := interface.ip, proto := proto }, ip.options,
      match Tcp.decode ip.data with
      | some tcp => (tcp.checksum interface.ip ip.header.dst).toBytes
      | none => ip.data⟩ := by
  unfold readied
  cases htcp : Tcp.decode ip.data with
  | none => simp only [htcp]
  | some tcp => simp only [htcp]

theorem readied_header : Verified ((readied interface proto ip).header.toBytes ++
    (readied interface proto ip).options) ↔ 0xFFFF ∣ Checksum.sum ip.options := by
  rw [readied_eq]
  exact Ipv4.header_verified _

/-- Any payload that can be read as a segment gets a checksum. -/
theorem honest_readied : Honest proto ip (readied interface proto ip) ↔
    (proto = 6 ∨ Untouched interface ip) ∧ 0xFFFF ∣ Checksum.sum ip.options := by
  unfold Honest Untouched
  rw [readied_header, readied_eq]
  apply and_congr_left
  intro _
  cases htcp : Tcp.decode ip.data with
  | none => simp [Ipv4.checksum]
  | some tcp =>
    obtain ⟨hagrees, hbytes⟩ := Tcp.decode_spec htcp
    have heven := even_options hagrees
    by_cases hproto : proto = 6
    · simp only [hproto, if_true, true_or, iff_true]
      exact ⟨⟨_, rfl⟩, tcp.verified_checksum interface.ip ip.header.dst heven⟩
    · have hself := tcp.checksum_eq_self interface.ip ip.header.dst heven
      have hinj := toBytes_inj (checksum_agrees hagrees interface.ip ip.header.dst) hagrees
      rw [hbytes] at hself hinj
      simp only [hproto, if_false, false_or, Option.some.injEq, forall_eq']
      exact hinj.trans hself

end

/-- A buffer that `write` accepts was handed to an interface, which gets what the caller sent just
if the payload is for the protocol of segments or is not touched, and the options sum to nothing. -/
theorem write_honest_iff (memory : Nat → UInt8) (interfaces : List Interface) (s : Ipd)
    (file n : Nat) (buf : List UInt8) (h : Handle) (hh : s.handles.entry file = some h)
    (hok : (Ipd.write ⟨memory, sendOver interfaces⟩ s file buf).result = .ok n) :
    ∃ ip interface sent, Ipv4.decode buf = some ip ∧
      interfaces.find? (fun interface => interface.takes ip) = some interface ∧
      handed interfaces buf h.proto = .ok (interface, sent) ∧
      (Honest h.proto ip sent ↔
        (h.proto = 6 ∨ Untouched interface ip) ∧ 0xFFFF ∣ Checksum.sum ip.options) := by
  unfold Ipd.write sendOver at hok
  rw [hh] at hok
  cases hip : Ipv4.decode buf with
  | none => simp [handed, hip, fail] at hok
  | some ip =>
    cases hfind : interfaces.find? fun interface => interface.takes ip with
    | none => simp [handed, hip, hfind, fail] at hok
    | some interface =>
      have hhanded : handed interfaces buf h.proto =
          .ok (interface, readied interface h.proto ip) := by
        simp only [handed, hip, hfind]
      exact ⟨ip, interface, _, rfl, hfind, hhanded, honest_readied interface h.proto ip⟩

def loopback : Interface where
  ip := ⟨127, 0, 0, 1⟩
  routable dst := dst == ⟨127, 0, 0, 1⟩
  send _ := .ok 0

/-- A packet of another protocol, whose payload can be read as a segment without a checksum. -/
def probe : List UInt8 :=
  [0x45, 0, 0, 40, 0, 0, 0, 0, 64, 17, 0, 0, 127, 0, 0, 1, 127, 0, 0, 1,
    0, 0, 0, 0, 0, 0, 0, 0, 0, 0, 0, 0, 0x50, 0, 0, 0, 0, 0, 0, 0]

def opened (proto : UInt8) : Ipd :=
  { Ipd.new with handles := Ipd.new.handles.insert ⟨proto, 0, 0, [], []⟩ }

def probed : Ipv4 :=
  ⟨⟨0x45, 0, 40, 0, 0, 64, 17, 0, ⟨127, 0, 0, 1⟩, ⟨127, 0, 0, 1⟩⟩, [], probe.drop 20⟩

theorem decode_probe : Ipv4.decode probe = some probed := by decide

theorem write_honest_iff_probe :
    ∃ ip interface sent, Ipv4.decode probe = some ip ∧
      [loopback].find? (fun interface => interface.takes ip) = some interface ∧
      handed [loopback] probe 6 = .ok (interface, sent) ∧
      (Honest 6 ip sent ↔
        ((6 : UInt8) = 6 ∨ Untouched interface ip) ∧ 0xFFFF ∣ Checksum.sum ip.options) :=
  write_honest_iff (fun _ => 0) [loopback] (opened 6) 1 40 probe ⟨6, 0, 0, [], []⟩ rfl (by decide)

/-- The payload is changed, for all that its protocol is not that of segments. -/
theorem write_not_honest :
    (Ipd.write ⟨fun _ => 0, sendOver [loopback]⟩ (opened 17) 1 probe).result = .ok 40 ∧
      ∃ sent, handed [loopback] probe 17 = .ok (loopback, sent) ∧ ¬Honest 17 probed sent := by
  refine ⟨by decide, readied loopback 17 probed, ?_, ?_⟩
  · simp only [handed, decode_probe]
    rfl
  · rw [honest_readied]
    rintro ⟨hproto | huntouched, _⟩
    · exact absurd hproto (by decide)
    · have hdecode : Tcp.decode probed.data =
          some ⟨⟨0, 0, 0, 0, 0x5000, 0, 0, 0⟩, [], []⟩ := by decide
      have hsum := (verified_iff _).mp (huntouched _ hdecode).2
      exact absurd hsum.2 (by decide)

end Origel.Net.Ip
