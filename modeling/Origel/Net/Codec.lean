import Origel.Net.Socket

/-! The decoders of `netutils`, and that they and `toBytes` undo each other. -/
namespace Origel.Net

/-- `n16::get` on the two bytes of a field -/
def n16 (a b : UInt8) : UInt16 := UInt16.ofNat (256 * a.toNat + b.toNat)

/-- `n32::get` on the four bytes of a field -/
def n32 (a b c d : UInt8) : UInt32 :=
  UInt32.ofNat (2 ^ 24 * a.toNat + 2 ^ 16 * b.toNat + 2 ^ 8 * c.toNat + d.toNat)

/-- `bytes[start..stop].to_vec()`, which panics where the range is not one of `bytes`. -/
def slice (bytes : List UInt8) (start stop : Nat) : Option (List UInt8) :=
  if start ≤ stop ∧ stop ≤ bytes.length then some ((bytes.take stop).drop start) else none

/-- `*(bytes.as_ptr() as *const Ipv4Header)`, where that many bytes are there. -/
def Ipv4Header.read : List UInt8 → Option Ipv4Header
  | verHlen :: services :: len :: len' :: id :: id' :: flags :: flags' :: ttl :: proto ::
      sum :: sum' :: s :: s' :: s'' :: s''' :: d :: d' :: d'' :: d''' :: _ =>
    some {
      verHlen := verHlen
      services := services
      len := n16 len len'
      id := n16 id id'
      flagsFragment := n16 flags flags'
      ttl := ttl
      proto := proto
      checksum := n16 sum' sum
      src := ⟨s, s', s'', s'''⟩
      dst := ⟨d, d', d'', d'''⟩ }
  | _ => none

/-- `((ver_hlen & 0xF) << 2) as usize` -/
def Ipv4Header.headerLen (h : Ipv4Header) : Nat := ((h.verHlen &&& 0xF) <<< 2).toNat

/-- The outer option is `none` where the decoder panics, or reads past the bytes. -/
def Ipv4.fromBytes (bytes : List UInt8) : Option (Option Ipv4) :=
  if sizeOfIpv4Header ≤ bytes.length then do
    let header ← Ipv4Header.read bytes
    if sizeOfIpv4Header ≤ header.headerLen ∧ header.headerLen ≤ bytes.length ∧
        header.len.toNat ≤ bytes.length ∧ header.headerLen ≤ header.len.toNat then do
      let options ← slice bytes sizeOfIpv4Header header.headerLen
      let data ← slice bytes header.headerLen header.len.toNat
      some (some ⟨header, options, data⟩)
    else some none
  else some none

def TcpHeader.read : List UInt8 → Option TcpHeader
  | s :: s' :: d :: d' :: seq :: seq' :: seq'' :: seq''' :: ack :: ack' :: ack'' :: ack''' ::
      flags :: flags' :: size :: size' :: sum :: sum' :: urgent :: urgent' :: _ =>
    some {
      src := n16 s s'
      dst := n16 d d'
      sequence := n32 seq seq' seq'' seq'''
      ackNum := n32 ack ack' ack'' ack'''
      flags := n16 flags flags'
      windowSize := n16 size size'
      checksum := n16 sum' sum
      urgentPointer := n16 urgent urgent' }
  | _ => none

/-- `((flags.get() & 0xF000) >> 10) as usize` -/
def TcpHeader.headerLen (h : TcpHeader) : Nat := ((h.flags &&& 0xF000) >>> 10).toNat

def Tcp.fromBytes (bytes : List UInt8) : Option (Option Tcp) :=
  if sizeOfTcpHeader ≤ bytes.length then do
    let header ← TcpHeader.read bytes
    if sizeOfTcpHeader ≤ header.headerLen ∧ header.headerLen ≤ bytes.length then do
      let options ← slice bytes sizeOfTcpHeader header.headerLen
      let data ← slice bytes header.headerLen bytes.length
      some (some ⟨header, options, data⟩)
    else some none
  else some none

def UdpHeader.read : List UInt8 → Option UdpHeader
  | s :: s' :: d :: d' :: len :: len' :: sum :: sum' :: _ =>
    some { src := n16 s s', dst := n16 d d', len := n16 len len', checksum := n16 sum' sum }
  | _ => none

def Udp.fromBytes (bytes : List UInt8) : Option (Option Udp) :=
  if sizeOfUdpHeader ≤ bytes.length then do
    let header ← UdpHeader.read bytes
    if header.len.toNat ≤ bytes.length ∧ sizeOfUdpHeader ≤ header.len.toNat then do
      let data ← slice bytes sizeOfUdpHeader header.len.toNat
      some (some ⟨header, data⟩)
    else some none
  else some none

/-- The length fields are those of the options and the data. -/
structure Ipv4.Agrees (ip : Ipv4) : Prop where
  headerLen : ip.header.headerLen = sizeOfIpv4Header + ip.options.length
  len : ip.header.len.toNat = sizeOfIpv4Header + ip.options.length + ip.data.length

def Tcp.Agrees (tcp : Tcp) : Prop :=
  tcp.header.headerLen = sizeOfTcpHeader + tcp.options.length
  deriving Decidable

def Udp.Agrees (udp : Udp) : Prop := udp.header.len.toNat = sizeOfUdpHeader + udp.data.length

theorem be16_n16 (a b : UInt8) : be16 (n16 a b) = [a, b] := be16_bytes a b

theorem le16_n16 (a b : UInt8) : le16 (n16 b a) = [a, b] := by
  have h := be16_n16 b a
  simp only [be16, List.cons.injEq, and_true] at h
  simp only [le16, h.1, h.2]

theorem be32_n32 (a b c d : UInt8) : be32 (n32 a b c d) = [a, b, c, d] := by
  have ha := a.toNat_lt
  have hb := b.toNat_lt
  have hc := c.toNat_lt
  have hd := d.toNat_lt
  have hn : (n32 a b c d).toNat =
      2 ^ 24 * a.toNat + 2 ^ 16 * b.toNat + 2 ^ 8 * c.toNat + d.toNat := by
    rw [n32, UInt32.toNat_ofNat']
    omega
  have hbyte : ∀ (k : UInt32) (x : UInt8),
      (n32 a b c d).toNat / 2 ^ (k.toNat % 32) % 256 = x.toNat →
      (n32 a b c d >>> k).toUInt8 = x := by
    intro k x h
    apply UInt8.toNat_inj.mp
    rw [UInt32.toNat_toUInt8, UInt32.toNat_shiftRight, Nat.shiftRight_eq_div_pow]
    exact h
  have hlast : (n32 a b c d).toUInt8 = d := by
    apply UInt8.toNat_inj.mp
    rw [UInt32.toNat_toUInt8, hn]
    omega
  have h24 : UInt32.toNat 24 % 32 = 24 := rfl
  have h16 : UInt32.toNat 16 % 32 = 16 := rfl
  have h8 : UInt32.toNat 8 % 32 = 8 := rfl
  rw [be32, hlast, hbyte 24 a (by rw [h24, hn]; omega), hbyte 16 b (by rw [h16, hn]; omega),
    hbyte 8 c (by rw [h8, hn]; omega)]

theorem n16_be16 (n : UInt16) : n16 (n >>> 8).toUInt8 n.toUInt8 = n := by
  have hn := n.toNat_lt
  have height : UInt16.toNat 8 % 16 = 8 := rfl
  apply UInt16.toNat_inj.mp
  rw [n16, UInt16.toNat_ofNat', UInt16.toNat_toUInt8, UInt16.toNat_toUInt8,
    UInt16.toNat_shiftRight, Nat.shiftRight_eq_div_pow, height]
  omega

theorem n32_be32 (n : UInt32) :
    n32 (n >>> 24).toUInt8 (n >>> 16).toUInt8 (n >>> 8).toUInt8 n.toUInt8 = n := by
  have hn := n.toNat_lt
  have h24 : UInt32.toNat 24 % 32 = 24 := rfl
  have h16 : UInt32.toNat 16 % 32 = 16 := rfl
  have h8 : UInt32.toNat 8 % 32 = 8 := rfl
  apply UInt32.toNat_inj.mp
  rw [n32, UInt32.toNat_ofNat']
  simp only [UInt32.toNat_toUInt8, UInt32.toNat_shiftRight, Nat.shiftRight_eq_div_pow, h24, h16, h8]
  omega

theorem TcpHeader.headerLen_eq (h : TcpHeader) : h.headerLen = 4 * (h.flags.toNat / 2 ^ 12) := by
  have hn := h.flags.toNat_lt
  have hten : UInt16.toNat 10 % 16 = 10 := rfl
  have hmask : UInt16.toNat 0xF000 >>> 10 = 60 := rfl
  have hlow : ∀ y : Fin 64, y.val &&& 60 = 4 * (y.val / 4) := by decide
  have hand : h.flags.toNat / 2 ^ 10 &&& 60 = 4 * (h.flags.toNat / 2 ^ 10 / 4) :=
    hlow ⟨h.flags.toNat / 2 ^ 10, by omega⟩
  rw [headerLen, UInt16.toNat_shiftRight, UInt16.toNat_and, hten, Nat.shiftRight_and_distrib, hmask,
    Nat.shiftRight_eq_div_pow, hand]
  omega

theorem slice_eq {bytes : List UInt8} {start stop : Nat} (hle : start ≤ stop)
    (hstop : stop ≤ bytes.length) : slice bytes start stop = some ((bytes.take stop).drop start) :=
  if_pos ⟨hle, hstop⟩

theorem take_append_slice (bytes : List UInt8) {start stop : Nat} (hle : start ≤ stop) :
    bytes.take start ++ (bytes.take stop).drop start = bytes.take stop := by
  have h := List.take_append_drop start (bytes.take stop)
  rwa [List.take_take, Nat.min_eq_left hle] at h

theorem slice_middle (front middle back : List UInt8) {start stop : Nat}
    (hstart : start = front.length) (hstop : stop = front.length + middle.length) :
    slice (front ++ middle ++ back) start stop = some middle := by
  subst hstart hstop
  have hfront : ((front ++ middle ++ back).take (front.length + middle.length)) =
      front ++ middle := by
    rw [← List.length_append, List.take_left]
  rw [slice_eq (by omega) (by simp only [List.length_append]; omega), hfront, List.drop_left]

theorem Ipv4Header.length_toBytes (h : Ipv4Header) : h.toBytes.length = sizeOfIpv4Header := rfl

theorem TcpHeader.length_toBytes (h : TcpHeader) : h.toBytes.length = sizeOfTcpHeader := rfl

theorem Tcp.length_toBytes (tcp : Tcp) :
    tcp.toBytes.length = sizeOfTcpHeader + tcp.options.length + tcp.data.length := by
  rw [toBytes, List.length_append, List.length_append, tcp.header.length_toBytes]

theorem Ipv4Header.read_toBytes (h : Ipv4Header) (rest : List UInt8) :
    read (h.toBytes ++ rest) = some h := by
  show some _ = some h
  simp only [n16_be16]

theorem TcpHeader.read_toBytes (h : TcpHeader) (rest : List UInt8) :
    read (h.toBytes ++ rest) = some h := by
  show some _ = some h
  simp only [n16_be16, n32_be32]

theorem Ipv4Header.exists_read {bytes : List UInt8} (h : sizeOfIpv4Header ≤ bytes.length) :
    ∃ header, read bytes = some header ∧ header.toBytes = bytes.take sizeOfIpv4Header := by
  unfold sizeOfIpv4Header at h
  iterate 20
    rcases bytes with _ | ⟨_, bytes⟩
    · simp at h
  refine ⟨_, rfl, ?_⟩
  simp only [toBytes, be16_n16, le16_n16]
  rfl

theorem TcpHeader.exists_read {bytes : List UInt8} (h : sizeOfTcpHeader ≤ bytes.length) :
    ∃ header, read bytes = some header ∧ header.toBytes = bytes.take sizeOfTcpHeader := by
  unfold sizeOfTcpHeader at h
  iterate 20
    rcases bytes with _ | ⟨_, bytes⟩
    · simp at h
  refine ⟨_, rfl, ?_⟩
  simp only [toBytes, be16_n16, le16_n16, be32_n32]
  rfl

theorem UdpHeader.exists_read {bytes : List UInt8} (h : sizeOfUdpHeader ≤ bytes.length) :
    ∃ header, read bytes = some header ∧
      ∀ data, (Udp.mk header data).toBytes = bytes.take sizeOfUdpHeader ++ data := by
  unfold sizeOfUdpHeader at h
  iterate 8
    rcases bytes with _ | ⟨_, bytes⟩
    · simp at h
  refine ⟨_, rfl, ?_⟩
  intro data
  simp only [Udp.toBytes, be16_n16, le16_n16]
  rfl

/-- Any bytes are taken or refused, and what is taken agrees with its length fields and is written
out as it came. -/
theorem Ipv4.fromBytes_spec (bytes : List UInt8) :
    ∃ r, fromBytes bytes = some r ∧ ∀ ip, r = some ip → ip.Agrees ∧
      ip.toBytes = bytes.take ip.header.len.toNat := by
  unfold fromBytes
  split
  next hsize =>
    obtain ⟨header, hread, hbytes⟩ := Ipv4Header.exists_read hsize
    simp only [hread, Option.bind_eq_bind, Option.bind_some]
    split
    next h =>
      obtain ⟨hmin, hhead, hlen, hle⟩ := h
      rw [slice_eq hmin hhead, Option.bind_some, slice_eq hle hlen, Option.bind_some]
      refine ⟨_, rfl, ?_⟩
      rintro ip ⟨⟩
      refine ⟨⟨?_, ?_⟩, ?_⟩
      · simp only [List.length_drop, List.length_take]
        omega
      · simp only [List.length_drop, List.length_take]
        omega
      · rw [toBytes, hbytes, take_append_slice bytes hmin, take_append_slice bytes hle]
    · exact ⟨none, rfl, fun _ h => nomatch h⟩
  · exact ⟨none, rfl, fun _ h => nomatch h⟩

theorem Tcp.fromBytes_spec (bytes : List UInt8) :
    ∃ r, fromBytes bytes = some r ∧ ∀ tcp, r = some tcp → tcp.Agrees ∧ tcp.toBytes = bytes := by
  unfold fromBytes
  split
  next hsize =>
    obtain ⟨header, hread, hbytes⟩ := TcpHeader.exists_read hsize
    simp only [hread, Option.bind_eq_bind, Option.bind_some]
    split
    next h =>
      obtain ⟨hmin, hhead⟩ := h
      rw [slice_eq hmin hhead, Option.bind_some, slice_eq hhead (Nat.le_refl _), Option.bind_some]
      refine ⟨_, rfl, ?_⟩
      rintro tcp ⟨⟩
      constructor
      · simp only [Agrees, List.length_drop, List.length_take]
        omega
      · rw [toBytes, hbytes, take_append_slice bytes hmin, take_append_slice bytes hhead,
          List.take_length]
    · exact ⟨none, rfl, fun _ h => nomatch h⟩
  · exact ⟨none, rfl, fun _ h => nomatch h⟩

theorem Udp.fromBytes_spec (bytes : List UInt8) :
    ∃ r, fromBytes bytes = some r ∧ ∀ udp, r = some udp → udp.Agrees ∧
      udp.toBytes = bytes.take udp.header.len.toNat := by
  unfold fromBytes
  split
  next hsize =>
    obtain ⟨header, hread, hbytes⟩ := UdpHeader.exists_read hsize
    simp only [hread, Option.bind_eq_bind, Option.bind_some]
    split
    next h =>
      obtain ⟨hlen, hmin⟩ := h
      rw [slice_eq hmin hlen, Option.bind_some]
      refine ⟨_, rfl, ?_⟩
      rintro udp ⟨⟩
      constructor
      · simp only [Agrees, List.length_drop, List.length_take]
        omega
      · rw [hbytes, take_append_slice bytes hmin]
    · exact ⟨none, rfl, fun _ h => nomatch h⟩
  · exact ⟨none, rfl, fun _ h => nomatch h⟩

/-- A packet whose length fields are right is read back, whatever is behind it. -/
theorem Ipv4.fromBytes_toBytes {ip : Ipv4} (h : ip.Agrees) (rest : List UInt8) :
    fromBytes (ip.toBytes ++ rest) = some (some ip) := by
  obtain ⟨hhead, hlen⟩ := h
  have hsize := ip.header.length_toBytes
  have hlength : (ip.toBytes ++ rest).length =
      sizeOfIpv4Header + ip.options.length + ip.data.length + rest.length := by
    simp only [toBytes, List.length_append, hsize]
  have hread : Ipv4Header.read (ip.toBytes ++ rest) = some ip.header := by
    rw [toBytes, List.append_assoc, List.append_assoc]
    exact ip.header.read_toBytes _
  have hoptions : slice (ip.toBytes ++ rest) sizeOfIpv4Header ip.header.headerLen =
      some ip.options := by
    rw [toBytes, List.append_assoc]
    exact slice_middle _ _ _ hsize.symm (by rw [hhead, hsize])
  have hdata : slice (ip.toBytes ++ rest) ip.header.headerLen ip.header.len.toNat =
      some ip.data := by
    rw [toBytes]
    apply slice_middle
    · rw [hhead, List.length_append, hsize]
    · rw [hlen, List.length_append, hsize]
  unfold fromBytes
  rw [if_pos (by omega), hread]
  simp only [Option.bind_eq_bind, Option.bind_some]
  rw [if_pos (by omega), hoptions, Option.bind_some, hdata, Option.bind_some]

theorem Tcp.fromBytes_toBytes {tcp : Tcp} (h : tcp.Agrees) :
    fromBytes tcp.toBytes = some (some tcp) := by
  have hhead : tcp.header.headerLen = sizeOfTcpHeader + tcp.options.length := h
  have hsize := tcp.header.length_toBytes
  have hlength := tcp.length_toBytes
  have hread : TcpHeader.read tcp.toBytes = some tcp.header := by
    rw [toBytes, List.append_assoc]
    exact tcp.header.read_toBytes _
  have hoptions : slice tcp.toBytes sizeOfTcpHeader tcp.header.headerLen = some tcp.options :=
    slice_middle _ _ _ hsize.symm (by rw [hhead, hsize])
  have hdata : slice tcp.toBytes tcp.header.headerLen tcp.toBytes.length = some tcp.data := by
    rw [slice_eq (by omega) (Nat.le_refl _), List.take_length, toBytes]
    have hfront : tcp.header.headerLen = (tcp.header.toBytes ++ tcp.options).length := by
      rw [hhead, List.length_append, hsize]
    rw [hfront, List.drop_left]
  unfold fromBytes
  rw [if_pos (by omega), hread]
  simp only [Option.bind_eq_bind, Option.bind_some]
  rw [if_pos (by omega), hoptions, Option.bind_some, hdata, Option.bind_some]

theorem Udp.fromBytes_toBytes {udp : Udp} (h : udp.Agrees) (rest : List UInt8) :
    fromBytes (udp.toBytes ++ rest) = some (some udp) := by
  have hlen : udp.header.len.toNat = sizeOfUdpHeader + udp.data.length := h
  have hlength : (udp.toBytes ++ rest).length =
      sizeOfUdpHeader + udp.data.length + rest.length := by
    simp only [toBytes, List.length_append]
    rfl
  have hread : UdpHeader.read (udp.toBytes ++ rest) = some udp.header := by
    show some _ = some udp.header
    simp only [n16_be16]
  have hdata : slice (udp.toBytes ++ rest) sizeOfUdpHeader udp.header.len.toNat =
      some udp.data :=
    slice_middle _ _ _ rfl (by rw [hlen]; rfl)
  unfold fromBytes
  rw [if_pos (by omega), hread]
  simp only [Option.bind_eq_bind, Option.bind_some]
  rw [if_pos (by omega), hdata, Option.bind_some]

/-- What a decoder returns, as it never panics -/
def Ipv4.decode (bytes : List UInt8) : Option Ipv4 := (fromBytes bytes).getD none

def Tcp.decode (bytes : List UInt8) : Option Tcp := (fromBytes bytes).getD none

theorem Ipv4.fromBytes_eq (bytes : List UInt8) : fromBytes bytes = some (decode bytes) := by
  obtain ⟨r, hr, _⟩ := fromBytes_spec bytes
  rw [decode, hr]
  rfl

theorem Tcp.fromBytes_eq (bytes : List UInt8) : fromBytes bytes = some (decode bytes) := by
  obtain ⟨r, hr, _⟩ := fromBytes_spec bytes
  rw [decode, hr]
  rfl

theorem Tcp.decode_spec {bytes : List UInt8} {tcp : Tcp} (h : decode bytes = some tcp) :
    tcp.Agrees ∧ tcp.toBytes = bytes := by
  obtain ⟨r, hr, hspec⟩ := fromBytes_spec bytes
  rw [fromBytes_eq, h] at hr
  exact hspec tcp (Option.some.inj hr).symm

/-- No bytes make a decoder panic. What it takes is written out as it came, up to the length the
packet names, and a packet that names its own lengths is read back. -/
theorem codecs_inverse :
    (∀ bytes, ∃ r, Ipv4.fromBytes bytes = some r ∧
      ∀ ip, r = some ip → ip.toBytes = bytes.take ip.header.len.toNat) ∧
    (∀ bytes, ∃ r, Tcp.fromBytes bytes = some r ∧ ∀ tcp, r = some tcp → tcp.toBytes = bytes) ∧
    (∀ bytes, ∃ r, Udp.fromBytes bytes = some r ∧
      ∀ udp, r = some udp → udp.toBytes = bytes.take udp.header.len.toNat) ∧
    (∀ ip : Ipv4, ip.Agrees → Ipv4.fromBytes ip.toBytes = some (some ip)) ∧
    (∀ tcp : Tcp, tcp.Agrees → Tcp.fromBytes tcp.toBytes = some (some tcp)) ∧
    ∀ udp : Udp, udp.Agrees → Udp.fromBytes udp.toBytes = some (some udp) := by
  refine ⟨?_, ?_, ?_, ?_, fun _ => Tcp.fromBytes_toBytes, ?_⟩
  · intro bytes
    obtain ⟨r, hr, h⟩ := Ipv4.fromBytes_spec bytes
    exact ⟨r, hr, fun ip hip => (h ip hip).2⟩
  · intro bytes
    obtain ⟨r, hr, h⟩ := Tcp.fromBytes_spec bytes
    exact ⟨r, hr, fun tcp htcp => (h tcp htcp).2⟩
  · intro bytes
    obtain ⟨r, hr, h⟩ := Udp.fromBytes_spec bytes
    exact ⟨r, hr, fun udp hudp => (h udp hudp).2⟩
  · intro ip hip
    have h := Ipv4.fromBytes_toBytes hip []
    rwa [List.append_nil] at h
  · intro udp hudp
    have h := Udp.fromBytes_toBytes hudp []
    rwa [List.append_nil] at h

/-- A segment with four bytes of options and one of data -/
def padded : Tcp :=
  { header := ⟨80, 1025, 1, 2, 0x6018, 8192, 0x1234, 0⟩, options := [1, 1, 1, 0], data := [7] }

theorem codecs_inverse_padded :
    let ip : Ipv4 :=
      ⟨⟨0x46, 0, 49, 7, 0, 64, 6, 0x1234, ⟨127, 0, 0, 1⟩, ⟨127, 0, 0, 1⟩⟩, [1, 1, 1, 0],
        padded.toBytes⟩
    let udp : Udp := ⟨⟨53, 1025, 9, 0x1234⟩, [7]⟩
    Ipv4.fromBytes ip.toBytes = some (some ip) ∧ Tcp.fromBytes padded.toBytes = some (some padded) ∧
      Udp.fromBytes udp.toBytes = some (some udp) :=
  ⟨codecs_inverse.2.2.2.1 _ ⟨by decide, by decide⟩, codecs_inverse.2.2.2.2.1 padded (by decide),
    codecs_inverse.2.2.2.2.2 _ rfl⟩

end Origel.Net
