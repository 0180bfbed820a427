import Origel.Lib.Loop
import Origel.Lib.OnesComplement
import Origel.Net.Codec

/-! Checksums: what the sender writes into a header, and what the receiver of it finds. -/
namespace Origel.Net

open Origel.Lib

def Ipv4Addr.bytes (addr : Ipv4Addr) : List UInt8 := [addr.a, addr.b, addr.c, addr.d]

@[simp] theorem length_be16 (n : UInt16) : (be16 n).length = 2 := rfl

@[simp] theorem length_be32 (n : UInt32) : (be32 n).length = 4 := rfl

@[simp] theorem length_le16 (n : UInt16) : (le16 n).length = 2 := rfl

@[simp] theorem Ipv4Addr.length_bytes (addr : Ipv4Addr) : addr.bytes.length = 4 := rfl

/-- The words of some bytes, the last one padded with a zero byte. -/
def words (word : UInt8 → UInt8 → Nat) : List UInt8 → List Nat
  | a :: b :: rest => word a b :: words word rest
  | [a] => [word a 0]
  | [] => []

/-- A `u16` of the machine -/
def native (a b : UInt8) : Nat := a.toNat + 2 ^ 8 * b.toNat

/-- A word of the network -/
def network (a b : UInt8) : Nat := 2 ^ 8 * a.toNat + b.toNat

namespace Checksum

/-- `Checksum::sum` over the bytes at a pointer -/
def sum : List UInt8 → Nat
  | a :: b :: rest => native a b + sum rest
  | [a] => a.toNat
  | [] => 0

theorem shiftRight_16 (sum : Nat) : sum >>> 16 = sum / 2 ^ 16 := Nat.shiftRight_eq_div_pow sum 16

theorem carry_eq (sum : Nat) : (sum &&& 0xFFFF) + (sum >>> 16) = carry (2 ^ 16) sum := by
  have hmask : sum &&& 0xFFFF = sum % 2 ^ 16 := Nat.and_two_pow_sub_one_eq_mod sum 16
  rw [hmask, shiftRight_16, carry]

theorem carried_lt {sum : Nat} (h : 0 < sum >>> 16) : (sum &&& 0xFFFF) + (sum >>> 16) < sum := by
  rw [carry_eq]
  apply carry_lt (by decide)
  rw [shiftRight_16] at h
  omega

/-- `Checksum::compile` -/
def compile (sum : Nat) : UInt16 :=
  if h : 0 < sum >>> 16 then compile ((sum &&& 0xFFFF) + (sum >>> 16))
  else 0xFFFF - UInt16.ofNat sum
  termination_by sum
  decreasing_by exact carried_lt h

end Checksum

def Ipv4.checksum (ip : Ipv4) : Ipv4 :=
  let header := { ip.header with checksum := 0 }
  { ip with header := { header with checksum := Checksum.compile (Checksum.sum header.toBytes) } }

/-- The sum that `Tcp::checksum` compiles -/
def Tcp.sum (tcp : Tcp) (src dst : Ipv4Addr) : Nat :=
  let proto : UInt16 := 0x06
  let segmentLen := UInt16.ofNat (sizeOfTcpHeader + tcp.options.length + tcp.data.length)
  Checksum.sum src.bytes + Checksum.sum dst.bytes + Checksum.sum (be16 segmentLen) +
    Checksum.sum (be16 proto) + Checksum.sum { tcp.header with checksum := 0 }.toBytes +
    Checksum.sum tcp.options + Checksum.sum tcp.data

def Tcp.checksum (tcp : Tcp) (src dst : Ipv4Addr) : Tcp :=
  { tcp with header := { tcp.header with checksum := Checksum.compile (tcp.sum src dst) } }

/-- What a segment of so many bytes is summed with. -/
def pseudoHeader (src dst : Ipv4Addr) (len : Nat) : List UInt8 :=
  src.bytes ++ dst.bytes ++ [0, 6] ++ be16 (UInt16.ofNat len)

/-- Bytes that a receiver accepts, whichever of their two bytes it takes for the upper one. -/
def Verified (bytes : List UInt8) : Prop :=
  onesSum (2 ^ 16) (words network bytes) = 0xFFFF ∧ onesSum (2 ^ 16) (words native bytes) = 0xFFFF

theorem native_lt (a b : UInt8) : native a b < 2 ^ 16 := by
  have ha := a.toNat_lt
  have hb := b.toNat_lt
  unfold native
  omega

theorem network_lt (a b : UInt8) : network a b < 2 ^ 16 := by
  have ha := a.toNat_lt
  have hb := b.toNat_lt
  unfold network
  omega

theorem words_lt {word : UInt8 → UInt8 → Nat} (h : ∀ a b, word a b < 2 ^ 16)
    (bytes : List UInt8) : ∀ w ∈ words word bytes, w < 2 ^ 16 := by
  fun_induction words word bytes with
  | case1 a b rest ih => exact List.forall_mem_cons.mpr ⟨h a b, ih⟩
  | case2 a => exact List.forall_mem_singleton.mpr (h a 0)
  | case3 => exact List.forall_mem_nil _

namespace Checksum

theorem sum_eq (bytes : List UInt8) : sum bytes = (words native bytes).sum := by
  fun_induction sum bytes with
  | case1 a b rest ih => rw [words, List.sum_cons, ih]
  | case2 a => simp [words, native]
  | case3 => rfl

/-- The words of bytes that come after an even number of others. -/
theorem sum_append {xs : List UInt8} (h : xs.length % 2 = 0) (ys : List UInt8) :
    sum (xs ++ ys) = sum xs + sum ys := by
  fun_induction sum xs with
  | case1 a b rest ih =>
    rw [List.cons_append, List.cons_append, sum, ih (by simp only [List.length_cons] at h; omega)]
    omega
  | case2 a => simp at h
  | case3 => simp

theorem sum_le (bytes : List UInt8) : sum bytes ≤ 2 ^ 16 * bytes.length := by
  fun_induction sum bytes with
  | case1 a b rest ih =>
    have hword := native_lt a b
    simp only [List.length_cons]
    omega
  | case2 a =>
    have ha := a.toNat_lt
    simp only [List.length_singleton]
    omega
  | case3 => exact Nat.zero_le _

/-- A word read the other way round is 2⁸ times itself, up to all-ones words. -/
theorem network_sum (bytes : List UInt8) :
    (∃ k, (words network bytes).sum + 0xFFFF * k = 2 ^ 8 * sum bytes) ∧
      sum bytes ≤ 2 ^ 8 * (words network bytes).sum := by
  fun_induction sum bytes with
  | case1 a b rest ih =>
    obtain ⟨⟨k, ih⟩, hle⟩ := ih
    have hnetwork : network a b = 2 ^ 8 * a.toNat + b.toNat := rfl
    have hnative : native a b = a.toNat + 2 ^ 8 * b.toNat := rfl
    rw [words, List.sum_cons, hnetwork, hnative]
    refine ⟨⟨k + b.toNat, ?_⟩, ?_⟩
    · omega
    · omega
  | case2 a =>
    simp only [words, network, UInt8.toNat_zero, List.sum_singleton]
    exact ⟨⟨0, by omega⟩, by omega⟩
  | case3 => exact ⟨⟨0, rfl⟩, Nat.zero_le _⟩

/-- A round of the loop of `compile`, or what the loop ends with -/
def compileRound (sum : Nat) : UInt16 ⊕ Nat :=
  if 0 < sum >>> 16 then .inr ((sum &&& 0xFFFF) + (sum >>> 16))
  else .inl (0xFFFF - UInt16.ofNat sum)

/-- The loop of `compile` ends on every sum, since each round leaves a smaller one. -/
theorem compile_yields (sum : Nat) : Yields compileRound sum (compile sum) := by
  fun_induction compile sum with
  | case1 sum h ih =>
    have hagain : Again compileRound sum ((sum &&& 0xFFFF) + (sum >>> 16)) := if_pos h
    exact (yields_iff_of_again hagain).mpr ih
  | case2 sum h =>
    have hend : compileRound sum = .inl (0xFFFF - UInt16.ofNat sum) := if_neg h
    exact (yields_iff_of_end hend).mpr rfl

theorem compile_eq (sum : Nat) : compile sum = 0xFFFF - UInt16.ofNat (folded (2 ^ 16) sum) := by
  fun_induction compile sum with
  | case1 sum h ih => rw [ih, carry_eq, folded_carry (by decide)]
  | case2 sum h =>
    rw [shiftRight_16] at h
    rw [folded_of_lt (by decide) (by omega)]

/-- A word that was zero in the sum becomes what the sum lacks. -/
theorem compile_toNat (sum : Nat) : (compile sum).toNat = 0xFFFF - folded (2 ^ 16) sum := by
  have hlt := folded_lt (show 2 ≤ 2 ^ 16 by decide) sum
  have hn : (UInt16.ofNat (folded (2 ^ 16) sum)).toNat = folded (2 ^ 16) sum := by
    rw [UInt16.toNat_ofNat', Nat.mod_eq_of_lt hlt]
  have htop : UInt16.toNat 0xFFFF = 0xFFFF := rfl
  rw [compile_eq, UInt16.toNat_sub_of_le, htop, hn]
  rw [UInt16.le_iff_toNat_le, hn, htop]
  omega

end Checksum

/-- It does not matter which byte of a word is the upper one. -/
theorem verified_iff (bytes : List UInt8) :
    Verified bytes ↔ 0 < Checksum.sum bytes ∧ 0xFFFF ∣ Checksum.sum bytes := by
  obtain ⟨⟨k, hk⟩, hle⟩ := Checksum.network_sum bytes
  have htop : ∀ ws : List Nat, (∀ w ∈ ws, w < 2 ^ 16) →
      (onesSum (2 ^ 16) ws = 0xFFFF ↔ 0 < ws.sum ∧ 0xFFFF ∣ ws.sum) := by
    intro ws hws
    rw [onesSum_eq (by decide) hws]
    exact folded_eq_top (by decide)
  unfold Verified
  rw [htop _ (words_lt network_lt bytes), htop _ (words_lt native_lt bytes), ← Checksum.sum_eq]
  constructor
  · exact fun h => h.2
  · rintro ⟨hpos, hdvd⟩
    refine ⟨⟨by omega, ?_⟩, hpos, hdvd⟩
    have hmul : 0xFFFF ∣ (words network bytes).sum + 0xFFFF * k := by
      rw [hk]
      exact Dvd.dvd.mul_left hdvd _
    exact (Nat.dvd_add_left (Nat.dvd_mul_right _ _)).mp hmul

theorem sum_le16 (n : UInt16) : Checksum.sum (le16 n) = n.toNat := by
  have hn := n.toNat_lt
  have height : UInt16.toNat 8 % 16 = 8 := rfl
  simp only [le16, Checksum.sum, native, UInt16.toNat_toUInt8, UInt16.toNat_shiftRight, height,
    Nat.shiftRight_eq_div_pow]
  omega

/-- The checksum is one of the words of a header. -/
theorem TcpHeader.sum_toBytes (h : TcpHeader) :
    Checksum.sum h.toBytes =
      Checksum.sum { h with checksum := 0 }.toBytes + h.checksum.toNat := by
  have hsplit : ∀ h : TcpHeader, Checksum.sum h.toBytes =
      Checksum.sum (be16 h.src ++ be16 h.dst ++ be32 h.sequence ++ be32 h.ackNum ++
        be16 h.flags ++ be16 h.windowSize) + h.checksum.toNat +
        Checksum.sum (be16 h.urgentPointer) := by
    intro h
    rw [toBytes, Checksum.sum_append, Checksum.sum_append, sum_le16]
    all_goals simp
  have hzero := hsplit { h with checksum := 0 }
  simp only [UInt16.toNat_zero] at hzero
  rw [hsplit h, hzero]
  omega

theorem Ipv4Header.sum_toBytes (h : Ipv4Header) :
    Checksum.sum h.toBytes =
      Checksum.sum { h with checksum := 0 }.toBytes + h.checksum.toNat := by
  have hsplit : ∀ h : Ipv4Header, Checksum.sum h.toBytes =
      Checksum.sum ([h.verHlen, h.services] ++ be16 h.len ++ be16 h.id ++ be16 h.flagsFragment ++
        [h.ttl, h.proto]) + h.checksum.toNat +
        Checksum.sum [h.src.a, h.src.b, h.src.c, h.src.d] +
        Checksum.sum [h.dst.a, h.dst.b, h.dst.c, h.dst.d] := by
    intro h
    rw [toBytes, Checksum.sum_append, Checksum.sum_append, Checksum.sum_append, sum_le16]
    all_goals simp
  have hzero := hsplit { h with checksum := 0 }
  simp only [UInt16.toNat_zero] at hzero
  rw [hsplit h, hzero]
  omega

/-- What a receiver of a segment sums. -/
theorem Tcp.sum_received (tcp : Tcp) (src dst : Ipv4Addr) (h : tcp.options.length % 2 = 0) :
    Checksum.sum (pseudoHeader src dst tcp.toBytes.length ++ tcp.toBytes) =
      tcp.sum src dst + tcp.header.checksum.toNat := by
  have hsize := tcp.header.length_toBytes
  have hlength := tcp.length_toBytes
  have hoptions : (tcp.header.toBytes ++ tcp.options).length % 2 = 0 := by
    rw [List.length_append, hsize, sizeOfTcpHeader]
    omega
  have hpseudo : Checksum.sum (pseudoHeader src dst tcp.toBytes.length) =
      Checksum.sum src.bytes + Checksum.sum dst.bytes + Checksum.sum (be16 0x06) +
        Checksum.sum (be16 (UInt16.ofNat tcp.toBytes.length)) := by
    have hproto : Checksum.sum [0, 6] = Checksum.sum (be16 0x06) := by decide
    rw [pseudoHeader, Checksum.sum_append, Checksum.sum_append, Checksum.sum_append, hproto]
    all_goals simp
  have hbytes : Checksum.sum tcp.toBytes = Checksum.sum { tcp.header with checksum := 0 }.toBytes +
      tcp.header.checksum.toNat + Checksum.sum tcp.options + Checksum.sum tcp.data := by
    rw [toBytes, Checksum.sum_append hoptions, Checksum.sum_append (by rw [hsize]; rfl),
      tcp.header.sum_toBytes]
  rw [Checksum.sum_append (by simp [pseudoHeader]), hpseudo, hbytes, hlength]
  simp only [sum]
  omega

theorem Tcp.sum_pos (tcp : Tcp) (src dst : Ipv4Addr) : 0 < tcp.sum src dst := by
  have hproto : Checksum.sum (be16 0x06) = 1536 := by decide
  simp only [sum, hproto]
  omega

/-- `checksum` leaves a segment as it is where a receiver accepts it already, but for the other
word that stands for zero. -/
theorem Tcp.checksum_eq_self (tcp : Tcp) (src dst : Ipv4Addr) (h : tcp.options.length % 2 = 0) :
    tcp.checksum src dst = tcp ↔ tcp.header.checksum ≠ 0xFFFF ∧
      Verified (pseudoHeader src dst tcp.toBytes.length ++ tcp.toBytes) := by
  have hsum := tcp.sum_pos src dst
  have hfield : tcp.checksum src dst = tcp ↔
      tcp.header.checksum = Checksum.compile (tcp.sum src dst) := by
    constructor
    · intro heq
      exact (congrArg (fun tcp : Tcp => tcp.header.checksum) heq).symm
    · intro heq
      unfold checksum
      rw [← heq]
  have htop : tcp.header.checksum ≠ 0xFFFF ↔ tcp.header.checksum.toNat ≠ 2 ^ 16 - 1 := by
    rw [ne_eq, ← UInt16.toNat_inj]
    rfl
  rw [hfield, ← UInt16.toNat_inj, Checksum.compile_toNat, htop, verified_iff,
    tcp.sum_received src dst h]
  have hiff := eq_complement_iff (show 2 ≤ 2 ^ 16 by decide) hsum tcp.header.checksum.toNat_lt
  constructor
  · intro heq
    obtain ⟨hne, hdvd⟩ := hiff.mp heq
    exact ⟨hne, by omega, hdvd⟩
  · rintro ⟨hne, _, hdvd⟩
    exact hiff.mpr ⟨hne, hdvd⟩

/-- The header of a packet is accepted as it is sent just if its options sum to nothing. -/
theorem Ipv4.header_verified (ip : Ipv4) :
    Verified (ip.checksum.header.toBytes ++ ip.checksum.options) ↔
      0xFFFF ∣ Checksum.sum ip.options := by
  have hsize := ip.checksum.header.length_toBytes
  have hfield : ip.checksum.header.checksum =
      Checksum.compile (Checksum.sum { ip.header with checksum := 0 }.toBytes) := rfl
  have hzero : { ip.checksum.header with checksum := 0 } = { ip.header with checksum := 0 } := rfl
  have hoptions : ip.checksum.options = ip.options := rfl
  have hpos := add_complement_pos (show 2 ≤ 2 ^ 16 by decide)
    (Checksum.sum { ip.header with checksum := 0 }.toBytes)
  have hdvd := dvd_add_complement (show 2 ≤ 2 ^ 16 by decide)
    (Checksum.sum { ip.header with checksum := 0 }.toBytes)
  rw [verified_iff, Checksum.sum_append (by rw [hsize]; rfl), ip.checksum.header.sum_toBytes, hzero,
    hfield, Checksum.compile_toNat, hoptions]
  constructor
  · rintro ⟨_, h⟩
    exact (Nat.dvd_add_right hdvd).mp h
  · intro h
    exact ⟨Nat.add_pos_left hpos _, (Nat.dvd_add_right hdvd).mpr h⟩

theorem Tcp.verified_checksum (tcp : Tcp) (src dst : Ipv4Addr) (h : tcp.options.length % 2 = 0) :
    Verified (pseudoHeader src dst (tcp.checksum src dst).toBytes.length ++
      (tcp.checksum src dst).toBytes) := by
  have hsum : (tcp.checksum src dst).sum src dst = tcp.sum src dst := rfl
  have hfield : (tcp.checksum src dst).header.checksum = Checksum.compile (tcp.sum src dst) := rfl
  rw [verified_iff, (tcp.checksum src dst).sum_received src dst h, hsum, hfield,
    Checksum.compile_toNat]
  exact ⟨add_complement_pos (by decide : 2 ≤ 2 ^ 16) _,
    dvd_add_complement (by decide : 2 ≤ 2 ^ 16) _⟩

/-- A receiver accepts the segments that are sent. No sum of words overflows before, and the loop
that folds the carries ends on any sum. -/
theorem Tcp.checksum_verified (tcp : Tcp) (src dst : Ipv4Addr)
    (heven : tcp.options.length % 2 = 0)
    (hlen : sizeOfTcpHeader + tcp.options.length + tcp.data.length < 65536) :
    let sent := tcp.checksum src dst
    Verified (pseudoHeader src dst sent.toBytes.length ++ sent.toBytes) ∧
      tcp.sum src dst < 2 ^ 64 ∧
      ∀ sum, Yields Checksum.compileRound sum (Checksum.compile sum) := by
  intro sent
  refine ⟨tcp.verified_checksum src dst heven, ?_, Checksum.compile_yields⟩
  · have hlength := tcp.length_toBytes
    have hle := Checksum.sum_le (pseudoHeader src dst tcp.toBytes.length ++ tcp.toBytes)
    rw [tcp.sum_received src dst heven, List.length_append] at hle
    have hpseudo : (pseudoHeader src dst tcp.toBytes.length).length = 12 := rfl
    omega

/-- A segment of 25 bytes from the machine to itself is accepted. -/
theorem Tcp.checksum_verified_padded :
    let sent := padded.checksum ⟨127, 0, 0, 1⟩ ⟨127, 0, 0, 1⟩
    Verified (pseudoHeader ⟨127, 0, 0, 1⟩ ⟨127, 0, 0, 1⟩ sent.toBytes.length ++ sent.toBytes) ∧
      padded.sum ⟨127, 0, 0, 1⟩ ⟨127, 0, 0, 1⟩ < 2 ^ 64 ∧
      ∀ sum, Yields Checksum.compileRound sum (Checksum.compile sum) :=
  Tcp.checksum_verified padded ⟨127, 0, 0, 1⟩ ⟨127, 0, 0, 1⟩ (by decide) (by decide)

end Origel.Net
