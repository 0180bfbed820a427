import Origel.Lib.Run
import Origel.Net.Emission
import Origel.Net.Neighbours

/-! Stations on one Ethernet: those that run `ipd`, and others that do not lie about their addresses. -/
namespace Origel.Net

open Origel.Lib
open Origel.Net.Ethernet (MacAddr EthernetII EthernetIIHeader)

theorem frame_bytes_cons (frame : EthernetII) : ∃ b bytes, frame.toBytes = b :: bytes := by
  obtain ⟨a, b, c, d, e, f, hdst⟩ := exists_octets frame.header.dst
  refine ⟨a, [b, c, d, e, f] ++ frame.header.src.bytes ++ be16 frame.header.ethertype ++ frame.data, ?_⟩
  rw [EthernetII.toBytes, hdst]
  rfl

/-- A read of the daemons takes the whole frame. -/
def Small (frame : EthernetII) : Prop := frame.toBytes.length ≤ 65536

instance (frame : EthernetII) : Decidable (Small frame) :=
  inferInstanceAs (Decidable (frame.toBytes.length ≤ 65536))

namespace EthernetInterface

variable {s s' : EthernetInterface} {frame : EthernetII} {frames : List EthernetII}

theorem SameAs.refl (s : EthernetInterface) : s.SameAs s := ⟨rfl, rfl, rfl, rfl⟩

theorem SameAs.trans {s'' : EthernetInterface} (h : s.SameAs s') (h' : s'.SameAs s'') : s.SameAs s'' :=
  ⟨h'.1.trans h.1, h'.2.1.trans h.2.1, h'.2.2.1.trans h.2.2.1, h'.2.2.2.trans h.2.2.2⟩

theorem SameAs.routeAddr (h : s.SameAs s') (dst : Ipv4Addr) : s'.routeAddr dst = s.routeAddr dst := by
  rw [EthernetInterface.routeAddr, EthernetInterface.routeAddr, needsRouting, needsRouting, h.2.1, h.2.2.1, h.2.2.2]

theorem SameAs.response (h : s.SameAs s') (frame : EthernetII) (packet : Arp) :
    s'.response frame packet = s.response frame packet := by
  rw [EthernetInterface.response, EthernetInterface.response, h.1, h.2.1]

theorem arpFrame_same : s.SameAs (s.arpFrame frame).1 := by
  rcases s.arpFrame_cases frame with h | ⟨packet, -, -, -, h⟩
  · rw [h]
    exact .refl s
  · rw [h]
    exact hear_same

theorem recvFrame_same : s.SameAs (s.recvFrame frame).1 := by
  rcases s.recvFrame_cases frame with h | ⟨ip, -, -, h⟩
  · rw [h]
    exact .refl s
  · rw [h]
    exact hear_same

/-- What is answered does not depend on who is known. -/
theorem SameAs.arpFrame (h : s.SameAs s') (frame : EthernetII) :
    (s'.arpFrame frame).2 = (s.arpFrame frame).2 := by
  rw [EthernetInterface.arpFrame, EthernetInterface.arpFrame]
  cases Arp.fromBytes frame.data with
  | none => rfl
  | some packet =>
    dsimp only
    rw [h.2.1, h.response]
    split
    · split <;> rfl
    · rfl

theorem SameAs.recvFrame (h : s.SameAs s') (frame : EthernetII) :
    (s'.recvFrame frame).2 = (s.recvFrame frame).2 := by
  rw [EthernetInterface.recvFrame, EthernetInterface.recvFrame]
  cases Ipv4.decode frame.data with
  | none => rfl
  | some ip =>
    dsimp only
    rw [h.2.1]
    split <;> rfl

/-- The loop of `arp_event`, frame by frame -/
theorem arpEvent_frames (hsmall : ∀ frame ∈ frames, Small frame) :
    s.arpEvent (frames.map EthernetII.toBytes) = (frames.foldl (fun s frame => (s.arpFrame frame).1) s,
      frames.flatMap fun frame => (s.arpFrame frame).2.map EthernetII.toBytes) := by
  induction frames generalizing s with
  | nil => rfl
  | cons frame frames ih =>
    obtain ⟨b, bytes, hbytes⟩ := frame_bytes_cons frame
    have hread : EthernetII.fromBytes ((b :: bytes).take 65536) = some frame := by
      rw [← hbytes, List.take_of_length_le (hsmall frame List.mem_cons_self), frame_fromBytes_toBytes]
    have hrest := ih (s := (s.arpFrame frame).1) fun f hf => hsmall f (List.mem_cons_of_mem frame hf)
    have hsame : ∀ f ∈ frames, ((s.arpFrame frame).1.arpFrame f).2.map EthernetII.toBytes =
        (s.arpFrame f).2.map EthernetII.toBytes := by
      intro f _
      rw [arpFrame_same.arpFrame]
    rw [List.map_cons, hbytes, arpEvent, hread]
    dsimp only
    rw [hrest, List.flatMap_cons, List.foldl_cons]
    dsimp only
    rw [List.flatMap_congr hsame]
    exact List.cons_ne_nil b bytes

/-- The loop of `recv`, frame by frame -/
theorem recv_frames (hsmall : ∀ frame ∈ frames, Small frame) :
    s.recv (frames.map EthernetII.toBytes) = (frames.foldl (fun s frame => (s.recvFrame frame).1) s,
      frames.flatMap fun frame => (s.recvFrame frame).2) := by
  induction frames generalizing s with
  | nil => rfl
  | cons frame frames ih =>
    obtain ⟨b, bytes, hbytes⟩ := frame_bytes_cons frame
    have hread : EthernetII.fromBytes ((b :: bytes).take 65536) = some frame := by
      rw [← hbytes, List.take_of_length_le (hsmall frame List.mem_cons_self), frame_fromBytes_toBytes]
    have hrest := ih (s := (s.recvFrame frame).1) fun f hf => hsmall f (List.mem_cons_of_mem frame hf)
    have hsame : ∀ f ∈ frames, ((s.recvFrame frame).1.recvFrame f).2 = (s.recvFrame f).2 := by
      intro f _
      rw [recvFrame_same.recvFrame]
    rw [List.map_cons, hbytes, recv, hread]
    dsimp only
    rw [hrest, List.flatMap_cons, List.foldl_cons]
    dsimp only
    rw [List.flatMap_congr hsame]
    exact List.cons_ne_nil b bytes

end EthernetInterface

/-- The stations by their names, the frames sent so far with the station of `ipd` each is from, and the packets
that `recv` has handed on at each. -/
structure Lan (ι : Type) where
  hosts : ι → EthernetInterface
  air : List (Option ι × EthernetII)
  got : ι → List Ipv4

/-- A wake-up finds frames that have been sent, each as often as may be, in any order, or never. -/
inductive Lan.Event (ι : Type) where
  | send (i : ι) (packet : Ipv4)
  | arp (i : ι) (found : List Nat)
  | recv (i : ι) (found : List Nat)
  | other (frame : EthernetII)

namespace Lan

variable {ι : Type}

/-- `write` of `ethernetd`, whose handle has the type -/
def stamped (mac : MacAddr) (ethertype : UInt16) (bytes : List UInt8) : Option EthernetII :=
  (EthernetII.fromBytes bytes).map fun frame =>
    { frame with header := { frame.header with src := mac, ethertype := ethertype } }

/-- Frames that no read could take are lost. -/
def put (l : Lan ι) (source : Option ι) (frames : List EthernetII) : Lan ι :=
  { l with air := l.air ++ (frames.filter fun frame => decide (Small frame)).map fun frame => (source, frame) }

/-- The frames found that `ethernetd` has for a handle of the type -/
def found (l : Lan ι) (ethertype : UInt16) (ns : List Nat) : List EthernetII :=
  ((ns.filterMap fun n => l.air[n]?).map Prod.snd).filter fun frame => frame.header.ethertype == ethertype

def step [DecidableEq ι] (l : Lan ι) : Event ι → Lan ι
  | .send i packet =>
    l.put (some i) (stamped (l.hosts i).mac 0x800 ((l.hosts i).send packet).toBytes).toList
  | .arp i ns =>
    let (s, written) := (l.hosts i).arpEvent ((l.found 0x806 ns).map EthernetII.toBytes)
    put { l with hosts := Function.update l.hosts i s } (some i) (written.filterMap (stamped s.mac 0x806))
  | .recv i ns =>
    let (s, ips) := (l.hosts i).recv ((l.found 0x800 ns).map EthernetII.toBytes)
    { l with
      hosts := Function.update l.hosts i s
      got := Function.update l.got i (l.got i ++ ips) }
  | .other frame => l.put none [frame]

/-- `home` says which station packets for an address are for on this network, where that is settled. -/
def Owns (home : Ipv4Addr → Option MacAddr) (ip : Ipv4Addr) (mac : MacAddr) : Prop :=
  ∀ m, home ip = some m → mac = m

/-- A frame says of no address that it is where it is not. -/
def Honest (home : Ipv4Addr → Option MacAddr) (frame : EthernetII) : Prop :=
  (frame.header.ethertype = 0x806 → ∀ packet, Arp.fromBytes frame.data = some packet →
    packet.header.oper = 1 → Owns home packet.header.srcIp frame.header.src) ∧
  (frame.header.ethertype = 0x800 → ∀ ip, Ipv4.decode frame.data = some ip →
    Owns home ip.header.src frame.header.src)

/-- `write` of `ipd` puts the address of the interface into the packet. The other stations are honest. -/
def Allowed (home : Ipv4Addr → Option MacAddr) (l : Lan ι) : Event ι → Prop
  | .send i packet => packet.header.src = (l.hosts i).ip
  | .other frame => Honest home frame
  | _ => True

/-- The station has sent a packet of its own to where the next station on the way is, or to everybody. -/
def Routed (home : Ipv4Addr → Option MacAddr) (s : EthernetInterface) (frame : EthernetII) : Prop :=
  frame.header.ethertype = 0x800 ∧ ∃ packet : Ipv4, frame.data = packet.toBytes ∧
    packet.header.src = s.ip ∧ (frame.header.dst = broadcastMac ∨
      packet.header.dst ≠ Ipv4Addr.BROADCAST ∧ Owns home (s.routeAddr packet.header.dst) frame.header.dst)

/-- The station has answered somebody who has asked for its address, and told its own. -/
def Answered (air : List (Option ι × EthernetII)) (s : EthernetInterface) (frame : EthernetII) : Prop :=
  frame.header.ethertype = 0x806 ∧ ∃ asked ∈ air, ∃ packet answer : Arp,
    asked.2.header.ethertype = 0x806 ∧ Arp.fromBytes asked.2.data = some packet ∧ packet.header.oper = 1 ∧
    packet.header.dstIp = s.ip ∧ frame.header.dst = asked.2.header.src ∧
    Arp.fromBytes frame.data = some answer ∧ answer.header.oper = 2 ∧ answer.header.srcIp = s.ip ∧
    answer.header.srcMac = s.mac ∧ answer.header.dstIp = packet.header.srcIp ∧
    answer.header.dstMac = packet.header.srcMac

/-- What the frames that a station has sent are. -/
def Proper (home : Ipv4Addr → Option MacAddr) (air : List (Option ι × EthernetII)) (s : EthernetInterface)
    (frame : EthernetII) : Prop :=
  frame.header.src = s.mac ∧ (Routed home s frame ∨ Answered air s frame)

/-- A packet was handed on for good reason: somebody has sent it, to this station or to all, and who has a
home that is known from now on. -/
def Received (home : Ipv4Addr → Option MacAddr) (air : List (Option ι × EthernetII)) (s : EthernetInterface)
    (ip : Ipv4) : Prop :=
  (ip.header.dst = s.ip ∨ ip.header.dst = Ipv4Addr.BROADCAST) ∧
    (∃ sent ∈ air, sent.2.header.ethertype = 0x800 ∧ Ipv4.decode sent.2.data = some ip) ∧
    ∀ mac, home ip.header.src = some mac → ip.header.src ≠ Ipv4Addr.BROADCAST → mac ≠ broadcastMac →
      s.arp ip.header.src = some mac

/-- What one station knows is so. -/
def Knows (home : Ipv4Addr → Option MacAddr) (s : EthernetInterface) : Prop :=
  ∀ ip mac, s.arp ip = some mac → Owns home ip mac

structure Truthful (home : Ipv4Addr → Option MacAddr) (l : Lan ι) : Prop where
  own : ∀ i, Owns home (l.hosts i).ip (l.hosts i).mac
  small : ∀ sent ∈ l.air, Small sent.2
  honest : ∀ sent ∈ l.air, Honest home sent.2
  knows : ∀ i, Knows home (l.hosts i)
  proper : ∀ i frame, (some i, frame) ∈ l.air → Proper home l.air (l.hosts i) frame
  received : ∀ i, ∀ ip ∈ l.got i, Received home l.air (l.hosts i) ip

variable {home : Ipv4Addr → Option MacAddr} {s s' : EthernetInterface} {frame : EthernetII}
  {frames : List EthernetII} {air air' : List (Option ι × EthernetII)} {l : Lan ι} {i : ι} {ip : Ipv4}

/-- What may become of a station that hears no lies: it knows more. -/
structure Learns (home : Ipv4Addr → Option MacAddr) (s s' : EthernetInterface) : Prop where
  same : s.SameAs s'
  keeps : ∀ ip, (s.arp ip).isSome → (s'.arp ip).isSome
  knows : Knows home s → Knows home s'

theorem Learns.refl (s : EthernetInterface) : Learns home s s := ⟨.refl s, fun _ h => h, fun h => h⟩

theorem Learns.trans {s'' : EthernetInterface} (h : Learns home s s') (h' : Learns home s' s'') :
    Learns home s s'' :=
  ⟨h.same.trans h'.same, fun ip hip => h'.keeps ip (h.keeps ip hip), fun hs => h'.knows (h.knows hs)⟩

theorem learns_hear {addr : Ipv4Addr} {mac : MacAddr} (h : Owns home addr mac) :
    Learns home s (s.hear addr mac) := by
  refine ⟨EthernetInterface.hear_same, fun _ => EthernetInterface.isSome_arp_hear, ?_⟩
  intro hs other mac' hknown
  rcases EthernetInterface.arp_hear hknown with ⟨rfl, rfl, -, -⟩ | hknown
  · exact h
  · exact hs other mac' hknown

theorem learns_arpFrame (htype : frame.header.ethertype = 0x806) (h : Honest home frame) :
    Learns home s (s.arpFrame frame).1 := by
  rcases s.arpFrame_cases frame with heq | ⟨packet, hpacket, hoper, -, heq⟩
  · rw [heq]
    exact .refl s
  · rw [heq]
    exact learns_hear (h.1 htype packet hpacket hoper)

theorem learns_recvFrame (htype : frame.header.ethertype = 0x800) (h : Honest home frame) :
    Learns home s (s.recvFrame frame).1 := by
  rcases s.recvFrame_cases frame with heq | ⟨ip, hip, -, heq⟩
  · rw [heq]
    exact .refl s
  · rw [heq]
    exact learns_hear (h.2 htype ip hip)

/-- A loop over frames learns what its body learns from each. -/
theorem learns_foldl {f : EthernetInterface → EthernetII → EthernetInterface}
    (h : ∀ s, ∀ frame ∈ frames, Learns home s (f s frame)) : Learns home s (frames.foldl f s) := by
  induction frames generalizing s with
  | nil => exact .refl s
  | cons frame frames ih =>
    refine (h s frame List.mem_cons_self).trans ?_
    exact ih fun s f hf => h s f (List.mem_cons_of_mem frame hf)

/-- What `recv` hands on, and that it has heard of who has sent it. -/
theorem recvFrames_spec (hframes : ∀ frame ∈ frames, frame.header.ethertype = 0x800 ∧ Honest home frame)
    (hip : ip ∈ frames.flatMap fun frame => (s.recvFrame frame).2) :
    (ip.header.dst = s.ip ∨ ip.header.dst = Ipv4Addr.BROADCAST) ∧
    (∃ frame ∈ frames, Ipv4.decode frame.data = some ip) ∧
    ∀ mac, home ip.header.src = some mac → ip.header.src ≠ Ipv4Addr.BROADCAST → mac ≠ broadcastMac →
      ((frames.foldl (fun s frame => (s.recvFrame frame).1) s).arp ip.header.src).isSome := by
  induction frames generalizing s with
  | nil => cases hip
  | cons frame frames ih =>
    have hrest : ∀ f ∈ frames, f.header.ethertype = 0x800 ∧ Honest home f :=
      fun f hf => hframes f (List.mem_cons_of_mem frame hf)
    obtain ⟨htype, hhonest⟩ := hframes frame List.mem_cons_self
    rw [List.flatMap_cons] at hip
    rcases List.mem_append.mp hip with hip | hip
    · rcases s.recvFrame_cases frame with heq | ⟨ip', hdecode, hdst, heq⟩
      · rw [heq] at hip
        cases hip
      · rw [heq] at hip
        cases List.mem_singleton.mp hip
        refine ⟨hdst, ⟨frame, List.mem_cons_self, hdecode⟩, ?_⟩
        intro mac hhome hsrc hmac
        have hfrom : frame.header.src = mac := hhonest.2 htype ip hdecode mac hhome
        have hlearn : Learns home (s.recvFrame frame).1
            (frames.foldl (fun s frame => (s.recvFrame frame).1) (s.recvFrame frame).1) :=
          learns_foldl fun _ f hf => learns_recvFrame (hrest f hf).1 (hrest f hf).2
        rw [List.foldl_cons]
        refine hlearn.keeps _ ?_
        rw [heq, EthernetInterface.hear, if_pos ⟨hsrc, by rwa [hfrom]⟩]
        dsimp only
        rw [Function.update_self]
        rfl
    · have hsame : s.SameAs (s.recvFrame frame).1 := EthernetInterface.recvFrame_same
      have hip' : ip ∈ frames.flatMap fun f => ((s.recvFrame frame).1.recvFrame f).2 := by
        obtain ⟨f, hf, hip⟩ := List.mem_flatMap.mp hip
        exact List.mem_flatMap.mpr ⟨f, hf, by rwa [hsame.recvFrame]⟩
      obtain ⟨hdst, ⟨f, hf, hdecode⟩, hknown⟩ := ih hrest hip'
      rw [hsame.2.1] at hdst
      exact ⟨hdst, ⟨f, List.mem_cons_of_mem frame hf, hdecode⟩, hknown⟩

theorem Proper.mono (h : Proper home air s frame) (hair : ∀ sent ∈ air, sent ∈ air')
    (hs : s.SameAs s') : Proper home air' s' frame := by
  obtain ⟨hsrc, h⟩ := h
  refine ⟨hsrc.trans hs.1.symm, ?_⟩
  rcases h with ⟨htype, packet, hdata, hfrom, hdst⟩ | ⟨htype, asked, hasked, packet, answer, h⟩
  · refine .inl ⟨htype, packet, hdata, hfrom.trans hs.2.1.symm, ?_⟩
    rwa [hs.routeAddr]
  · refine .inr ⟨htype, asked, hair asked hasked, packet, answer, ?_⟩
    rwa [hs.1, hs.2.1]

theorem Received.mono (h : Received home air s ip) (hair : ∀ sent ∈ air, sent ∈ air')
    (hs : Learns home s s') (hknows : Knows home s') : Received home air' s' ip := by
  obtain ⟨hdst, ⟨sent, hsent, hdecode⟩, hknown⟩ := h
  refine ⟨?_, ⟨sent, hair sent hsent, hdecode⟩, ?_⟩
  · rwa [hs.same.2.1]
  · intro mac hhome hsrc hmac
    have hsome := hs.keeps ip.header.src (by rw [hknown mac hhome hsrc hmac]; rfl)
    obtain ⟨mac', hmac'⟩ := Option.isSome_iff_exists.mp hsome
    rw [hmac', hknows _ mac' hmac' mac hhome]

theorem mem_found {ethertype : UInt16} {ns : List Nat} (h : frame ∈ l.found ethertype ns) :
    frame.header.ethertype = ethertype ∧ ∃ source, (source, frame) ∈ l.air := by
  obtain ⟨hmem, htype⟩ := List.mem_filter.mp h
  obtain ⟨⟨source, f⟩, hsent, rfl⟩ := List.mem_map.mp hmem
  obtain ⟨n, -, hn⟩ := List.mem_filterMap.mp hsent
  exact ⟨by simpa using htype, source, List.mem_of_getElem? hn⟩

theorem stamped_toBytes (mac : MacAddr) (ethertype : UInt16) (frame : EthernetII) :
    stamped mac ethertype frame.toBytes =
      some { frame with header := { frame.header with src := mac, ethertype := ethertype } } := by
  rw [stamped, frame_fromBytes_toBytes]
  rfl

namespace Truthful

/-- Frames that are honest and proper may be sent. -/
theorem put (h : Truthful home l) {source : Option ι}
    (hhonest : ∀ frame ∈ frames, Honest home frame)
    (hproper : ∀ i, source = some i → ∀ frame ∈ frames, Proper home l.air (l.hosts i) frame) :
    Truthful home (l.put source frames) := by
  have hair : ∀ sent ∈ l.air, sent ∈ (l.put source frames).air := fun _ => List.mem_append_left _
  have hnew : ∀ sent ∈ (l.put source frames).air, sent ∈ l.air ∨
      sent.1 = source ∧ sent.2 ∈ frames ∧ Small sent.2 := by
    intro sent hsent
    rcases List.mem_append.mp hsent with hsent | hsent
    · exact .inl hsent
    · obtain ⟨f, hf, rfl⟩ := List.mem_map.mp hsent
      obtain ⟨hmem, hsmall⟩ := List.mem_filter.mp hf
      exact .inr ⟨rfl, hmem, of_decide_eq_true hsmall⟩
  refine ⟨h.own, ?_, ?_, h.knows, ?_, ?_⟩
  · intro sent hsent
    rcases hnew sent hsent with hold | ⟨-, -, hsmall⟩
    · exact h.small sent hold
    · exact hsmall
  · intro sent hsent
    rcases hnew sent hsent with hold | ⟨-, hmem, -⟩
    · exact h.honest sent hold
    · exact hhonest _ hmem
  · intro i frame hsent
    have hp : Proper home l.air (l.hosts i) frame := by
      rcases hnew (some i, frame) hsent with hold | ⟨hsource, hmem, -⟩
      · exact h.proper i frame hold
      · exact hproper i hsource.symm frame hmem
    exact hp.mono hair (.refl _)
  · intro i ip hip
    exact (h.received i ip hip).mono hair (.refl _) (h.knows i)

variable [DecidableEq ι]

/-- A station may learn. -/
theorem learn (h : Truthful home l) (hs : Learns home (l.hosts i) s) :
    Truthful home { l with hosts := Function.update l.hosts i s } := by
  have hlearn : ∀ j, Learns home (l.hosts j) (Function.update l.hosts i s j) := by
    intro j
    by_cases hj : j = i
    · subst hj
      rwa [Function.update_self]
    · rw [Function.update_of_ne hj]
      exact .refl _
  refine ⟨?_, h.small, h.honest, fun j => (hlearn j).knows (h.knows j), ?_, ?_⟩
  · intro j
    have hsame := (hlearn j).same
    show Owns home (Function.update l.hosts i s j).ip (Function.update l.hosts i s j).mac
    rw [hsame.1, hsame.2.1]
    exact h.own j
  · intro j frame hsent
    exact (h.proper j frame hsent).mono (fun _ hm => hm) (hlearn j).same
  · intro j ip hip
    exact (h.received j ip hip).mono (fun _ hm => hm) (hlearn j) ((hlearn j).knows (h.knows j))

theorem send (h : Truthful home l) {packet : Ipv4} (hsrc : packet.header.src = (l.hosts i).ip) :
    Truthful home (l.step (.send i packet)) := by
  have hframe : (stamped (l.hosts i).mac 0x800 ((l.hosts i).send packet).toBytes).toList =
      [(l.hosts i).send packet] := by
    rw [stamped_toBytes]
    rfl
  rw [step, hframe]
  refine h.put ?_ ?_
  · intro frame hframe
    cases List.mem_singleton.mp hframe
    refine ⟨fun htype => absurd htype (show ¬(0x800 : UInt16) = 0x806 by decide), ?_⟩
    intro _ ip hip
    have hbytes : Ipv4.fromBytes packet.toBytes = some (some ip) := by
      rw [Ipv4.fromBytes_eq]
      exact congrArg some hip
    have hread := Ipv4.header_of_fromBytes hbytes
    rw [Ipv4.toBytes, List.append_assoc, packet.header.read_toBytes] at hread
    rw [← Option.some.inj hread, hsrc]
    exact h.own i
  · rintro j hj frame hframe
    cases hj
    cases List.mem_singleton.mp hframe
    refine ⟨rfl, .inl ⟨rfl, packet, rfl, hsrc, ?_⟩⟩
    show (l.hosts i).station packet.header.dst = broadcastMac ∨ packet.header.dst ≠ Ipv4Addr.BROADCAST ∧
      Owns home ((l.hosts i).routeAddr packet.header.dst) ((l.hosts i).station packet.header.dst)
    rw [EthernetInterface.station]
    by_cases hall : packet.header.dst ≠ Ipv4Addr.BROADCAST
    · rw [if_pos hall]
      cases hknown : (l.hosts i).arp ((l.hosts i).routeAddr packet.header.dst) with
      | none => exact .inl rfl
      | some mac => exact .inr ⟨hall, h.knows i _ mac hknown⟩
    · rw [if_neg hall]
      exact .inl rfl

theorem arp (h : Truthful home l) (ns : List Nat) : Truthful home (l.step (.arp i ns)) := by
  have hfound : ∀ frame ∈ l.found 0x806 ns, frame.header.ethertype = 0x806 ∧ Honest home frame ∧
      ∃ source, (source, frame) ∈ l.air := by
    intro frame hframe
    obtain ⟨htype, source, hsent⟩ := mem_found hframe
    exact ⟨htype, h.honest _ hsent, source, hsent⟩
  have hsmall : ∀ frame ∈ l.found 0x806 ns, Small frame := by
    intro frame hframe
    obtain ⟨-, source, hsent⟩ := mem_found hframe
    exact h.small _ hsent
  have hlearn : Learns home (l.hosts i)
      ((l.found 0x806 ns).foldl (fun s frame => (s.arpFrame frame).1) (l.hosts i)) :=
    learns_foldl fun _ frame hframe => learns_arpFrame (hfound frame hframe).1 (hfound frame hframe).2.1
  rw [step, EthernetInterface.arpEvent_frames hsmall]
  dsimp only
  rw [hlearn.same.1]
  have hanswers : ∀ frame ∈ ((l.found 0x806 ns).flatMap fun frame =>
      ((l.hosts i).arpFrame frame).2.map EthernetII.toBytes).filterMap (stamped (l.hosts i).mac 0x806),
      Honest home frame ∧ (l.hosts i).mac = frame.header.src ∧ Answered l.air (l.hosts i) frame := by
    intro frame hframe
    obtain ⟨bytes, hbytes, hstamped⟩ := List.mem_filterMap.mp hframe
    obtain ⟨request, hrequest, hbytes⟩ := List.mem_flatMap.mp hbytes
    obtain ⟨written, hwritten, rfl⟩ := List.mem_map.mp hbytes
    obtain ⟨htype, -, source, hsent⟩ := hfound request hrequest
    rcases (l.hosts i).arpFrame_cases request with heq | ⟨packet, hpacket, hoper, hdst, heq⟩
    · rw [heq] at hwritten
      cases hwritten
    · rw [heq] at hwritten
      cases List.mem_singleton.mp hwritten
      rw [stamped_toBytes] at hstamped
      cases hstamped
      have hanswer := Arp.fromBytes_toBytes
        { header := { packet.header with
            oper := 2
            dstMac := packet.header.srcMac
            dstIp := packet.header.srcIp
            srcMac := (l.hosts i).mac
            srcIp := (l.hosts i).ip }
          data := packet.data }
      refine ⟨⟨?_, fun htype => absurd htype (show ¬(0x806 : UInt16) = 0x800 by decide)⟩, rfl, rfl, (source, request), hsent, packet, _, htype,
        hpacket, hoper, hdst, rfl, hanswer, rfl, rfl, rfl, rfl, rfl⟩
      intro _ answer hdecode hone
      cases hanswer.symm.trans hdecode
      exact absurd hone (show ¬(2 : UInt16) = 1 by decide)
  refine (h.learn hlearn).put (fun frame hframe => (hanswers frame hframe).1) ?_
  rintro j hj frame hframe
  cases hj
  obtain ⟨-, hsrc, hanswered⟩ := hanswers frame hframe
  have hp : Proper home l.air (l.hosts i) frame := ⟨hsrc.symm, .inr hanswered⟩
  dsimp only
  rw [Function.update_self]
  exact hp.mono (fun _ hm => hm) hlearn.same

theorem recv (h : Truthful home l) (ns : List Nat) : Truthful home (l.step (.recv i ns)) := by
  have hfound : ∀ frame ∈ l.found 0x800 ns, frame.header.ethertype = 0x800 ∧ Honest home frame := by
    intro frame hframe
    obtain ⟨htype, source, hsent⟩ := mem_found hframe
    exact ⟨htype, h.honest _ hsent⟩
  have hsmall : ∀ frame ∈ l.found 0x800 ns, Small frame := by
    intro frame hframe
    obtain ⟨-, source, hsent⟩ := mem_found hframe
    exact h.small _ hsent
  have hlearn : Learns home (l.hosts i)
      ((l.found 0x800 ns).foldl (fun s frame => (s.recvFrame frame).1) (l.hosts i)) :=
    learns_foldl fun _ frame hframe => learns_recvFrame (hfound frame hframe).1 (hfound frame hframe).2
  rw [step, EthernetInterface.recv_frames hsmall]
  dsimp only
  have hl := h.learn hlearn
  refine ⟨hl.own, hl.small, hl.honest, hl.knows, hl.proper, ?_⟩
  intro j ip hip
  by_cases hj : j = i
  · subst hj
    dsimp only at hip ⊢
    rw [Function.update_self] at hip
    rcases List.mem_append.mp hip with hip | hip
    · exact hl.received j ip hip
    · obtain ⟨hdst, ⟨frame, hframe, hdecode⟩, hknown⟩ := recvFrames_spec hfound hip
      obtain ⟨htype, source, hsent⟩ := mem_found hframe
      rw [Function.update_self]
      refine ⟨?_, ⟨(source, frame), hsent, htype, hdecode⟩, ?_⟩
      · rwa [hlearn.same.2.1]
      · intro mac hhome hsrc hmac
        obtain ⟨mac', hmac'⟩ := Option.isSome_iff_exists.mp (hknown mac hhome hsrc hmac)
        rw [hmac', hlearn.knows (h.knows j) _ mac' hmac' mac hhome]
  · dsimp only at hip
    rw [Function.update_of_ne hj] at hip
    exact hl.received j ip hip

theorem step (h : Truthful home l) {event : Event ι} (hallowed : Allowed home l event) :
    Truthful home (l.step event) := by
  cases event with
  | send i packet => exact h.send hallowed
  | arp i ns => exact h.arp ns
  | recv i ns => exact h.recv ns
  | other frame =>
    refine h.put ?_ fun i hi => absurd hi.symm (Option.some_ne_none i)
    intro f hf
    cases List.mem_singleton.mp hf
    exact hallowed

end Truthful

/-- The stations before anybody has sent anything -/
def quiet (hosts : ι → EthernetInterface) : Lan ι := ⟨hosts, [], fun _ => []⟩

variable [DecidableEq ι]

/-- Whatever is lost, repeated or comes late: no station that runs `ipd` believes an address to be where it is
not, each of its frames goes to everybody, to the station that the packet is for next, or to who has asked
for its address and is told that, and who has reached it is answered directly. -/
theorem stations_reach_each_other (home : Ipv4Addr → Option MacAddr) (hosts : ι → EthernetInterface)
    (events : List (Event ι)) (hown : ∀ i, Owns home (hosts i).ip (hosts i).mac)
    (hnew : ∀ i ip, (hosts i).arp ip = none) (hallowed : Each step (Allowed home) (quiet hosts) events) :
    let l := events.foldl step (quiet hosts)
    (∀ i, Knows home (l.hosts i)) ∧
    (∀ i frame, (some i, frame) ∈ l.air → Proper home l.air (l.hosts i) frame) ∧
    ∀ i, ∀ ip ∈ l.got i, Received home l.air (l.hosts i) ip ∧
      ∀ mac, home ip.header.src = some mac → ip.header.src ≠ Ipv4Addr.BROADCAST → mac ≠ broadcastMac →
        (l.hosts i).needsRouting ip.header.src = false → (l.hosts i).station ip.header.src = mac := by
  intro l
  have hquiet : Truthful home (quiet hosts) := by
    refine ⟨hown, fun _ hm => ?_, fun _ hm => ?_, ?_, fun _ _ hm => ?_, fun _ _ hm => ?_⟩
    · cases hm
    · cases hm
    · intro i ip mac hknown
      cases (hnew i ip).symm.trans hknown
    · cases hm
    · cases hm
  have hrun : Truthful home l :=
    (throughout_of_each (fun _ _ h hc => h.step hc) (fun _ h => h) hquiet hallowed).last
  refine ⟨hrun.knows, hrun.proper, ?_⟩
  intro i ip hip
  have hreceived := hrun.received i ip hip
  refine ⟨hreceived, ?_⟩
  intro mac hhome hsrc hmac hdirect
  have hroute : (l.hosts i).routeAddr ip.header.src = ip.header.src := by
    rw [EthernetInterface.routeAddr, hdirect]
    rfl
  rw [EthernetInterface.station, if_pos hsrc, hroute, hreceived.2.2 mac hhome hsrc hmac]
  rfl

def neighbour (n : UInt8) : EthernetInterface :=
  .new ⟨[2, 0, 0, 0, 0, n], rfl⟩ ⟨10, 0, 0, n⟩ ⟨10, 0, 0, 1⟩ ⟨255, 255, 255, 0⟩

def neighbours (i : Bool) : EthernetInterface := if i then neighbour 2 else neighbour 3

def homes (ip : Ipv4Addr) : Option MacAddr :=
  if ip = (neighbours true).ip then some (neighbours true).mac
  else if ip = (neighbours false).ip then some (neighbours false).mac
  else none

/-- A packet without data from the one to the other -/
def greeting : Ipv4 := ⟨⟨0x45, 0, 20, 0, 0, 127, 17, 0, ⟨10, 0, 0, 3⟩, ⟨10, 0, 0, 2⟩⟩, [], []⟩

/-- One station sends, and the other one hears it twice. -/
def greeted : Lan Bool := [Event.send false greeting, .recv true [0, 0]].foldl step (quiet neighbours)

theorem greeting_reaches : (∀ i, Knows homes (greeted.hosts i)) ∧
    (∀ i frame, (some i, frame) ∈ greeted.air → Proper homes greeted.air (greeted.hosts i) frame) ∧
    ∀ i, ∀ ip ∈ greeted.got i, Received homes greeted.air (greeted.hosts i) ip ∧
      ∀ mac, homes ip.header.src = some mac → ip.header.src ≠ Ipv4Addr.BROADCAST → mac ≠ broadcastMac →
        (greeted.hosts i).needsRouting ip.header.src = false →
        (greeted.hosts i).station ip.header.src = mac :=
  stations_reach_each_other homes neighbours [.send false greeting, .recv true [0, 0]]
    (by
      intro i mac hmac
      cases i
      · exact Option.some.inj hmac
      · exact Option.some.inj hmac)
    (by intro i ip; cases i <;> rfl) ⟨rfl, trivial, trivial⟩

end Lan

end Origel.Net
