import Origel.Lib.Ring
import Origel.Drivers.Link

/-! The rtl8168 driver and its device: two rings whose descriptors say themselves who owns them. -/
namespace Origel.Drivers.Rtl8168d

open Origel.Lib

def OWN : BitVec 32 := 0x80000000#32
def EOR : BitVec 32 := 0x40000000#32
def FS : BitVec 32 := 0x20000000#32
def LS : BitVec 32 := 0x10000000#32

/-- `Io::readf`. -/
def readf (ctrl flags : BitVec 32) : Bool := ctrl &&& flags == flags

/-- The length in a control word. -/
def ctrlLength (ctrl : BitVec 32) : Nat := (ctrl &&& 0x3FFF#32).toNat

/-- A descriptor of either ring, with the bytes of the buffer at its address. -/
structure Desc where
  ctrl : BitVec 32
  buffer : List UInt8

/-- Where the running call of the driver is. The device may take steps at each of these points. -/
inductive Pc where
  | idle
  | readScan (id len i : Nat)
  | readData (len i : Nat)
  | readRelease (len i : Nat) (data : List UInt8)
  | nextScan (i : Nat)
  | nextLength (i : Nat)
  | writeScan (buf : List UInt8) (i : Nat)
  | writeData (buf : List UInt8) (i : Nat)
  | writeRelease (count i : Nat)
  | writePoll (count : Nat)
  | writeWait (count : Nat)
  deriving DecidableEq

/-- The rings, the bit of the poll register that a write sets, the places in the rings that the
device goes on from, and the running call. -/
structure Rtl8168 where
  receiveRing : List Desc
  transmitRing : List Desc
  tppoll : Bool
  receiveIndex : Nat
  transmitIndex : Nat
  pc : Pc

def init : Rtl8168 where
  receiveRing :=
    (List.replicate 16 ⟨OWN ||| BitVec.ofNat 32 0x1FF8, List.replicate 0x1FF8 0⟩).set (16 - 1)
      ⟨OWN ||| BitVec.ofNat 32 0x1FF8 ||| EOR, List.replicate 0x1FF8 0⟩
  transmitRing := (List.replicate 16 ⟨0, List.replicate 7552 0⟩).set (16 - 1)
    ⟨0 ||| EOR, List.replicate 7552 0⟩
  tppoll := false
  receiveIndex := 0
  transmitIndex := 0
  pc := .idle

/-- The place that the device goes on from after the descriptor at `index`. -/
def following (ctrl : BitVec 32) (index : Nat) : Nat := if readf ctrl EOR then 0 else index + 1

namespace Rtl8168

/-- The next step of the running call. There is none past the end of a buffer. -/
def advance (d : Rtl8168) : Option (Event × Rtl8168) :=
  match d.pc with
  | .idle => none
  | .readScan id len i =>
    match d.receiveRing[i]? with
    | some rd =>
      if !readf rd.ctrl OWN then some (.internal, { d with pc := .readData len i })
      else some (.internal, { d with pc := .readScan id len (i + 1) })
    | none => some (.read len none (emptyRead id), { d with pc := .idle })
  | .readData len i => do
    let rd ← d.receiveRing[i]?
    let count := min len (ctrlLength rd.ctrl)
    if count ≤ rd.buffer.length then
      some (.internal, { d with pc := .readRelease len i (rd.buffer.take count) })
    else none
  | .readRelease len i data => do
    let rd ← d.receiveRing[i]?
    let eor := rd.ctrl &&& EOR
    some (.read len (some data) (.ok data.length), { d with
      receiveRing := d.receiveRing.set i
        { rd with ctrl := OWN ||| eor ||| BitVec.ofNat 32 rd.buffer.length }
      pc := .idle })
  | .nextScan i =>
    match d.receiveRing[i]? with
    | some rd =>
      if !readf rd.ctrl OWN then some (.internal, { d with pc := .nextLength i })
      else some (.internal, { d with pc := .nextScan (i + 1) })
    | none => some (.nextRead 0, { d with pc := .idle })
  | .nextLength i => do
    let rd ← d.receiveRing[i]?
    some (.nextRead (ctrlLength rd.ctrl), { d with pc := .idle })
  | .writeScan buf i =>
    match d.transmitRing[i]? with
    | some td =>
      if !readf td.ctrl OWN then some (.internal, { d with pc := .writeData buf i })
      else some (.internal, { d with pc := .writeScan buf (i + 1) })
    | none => some (.internal, { d with pc := .writeScan buf 0 })
  | .writeData buf i => do
    let td ← d.transmitRing[i]?
    let count := min buf.length td.buffer.length
    some (.internal, { d with
      transmitRing := d.transmitRing.set i
        { td with buffer := buf.take count ++ td.buffer.drop count }
      pc := .writeRelease count i })
  | .writeRelease count i => do
    let td ← d.transmitRing[i]?
    let eor := td.ctrl &&& EOR
    some (.internal, { d with
      transmitRing := d.transmitRing.set i
        { td with ctrl := OWN ||| eor ||| FS ||| LS ||| BitVec.ofNat 32 count }
      pc := .writePoll count })
  | .writePoll count => some (.internal, { d with tppoll := true, pc := .writeWait count })
  | .writeWait count =>
    if d.tppoll then some (.internal, d) else some (.write count, { d with pc := .idle })

/-- The device stores a frame in the next descriptor of the ring, if it owns that. It may set the
other bits of the control word as it likes. -/
def receive (d : Rtl8168) (frame : Frame) (ctrl : BitVec 32) : Option (Event × Rtl8168) := do
  let rd ← d.receiveRing[d.receiveIndex]?
  if readf rd.ctrl OWN ∧ frame.length ≤ rd.buffer.length ∧ ¬ readf ctrl OWN ∧
      ctrl &&& EOR = rd.ctrl &&& EOR ∧ ctrlLength ctrl = frame.length then
    some (.stored frame, { d with
      receiveRing := d.receiveRing.set d.receiveIndex
        { ctrl, buffer := frame ++ rd.buffer.drop frame.length }
      receiveIndex := following rd.ctrl d.receiveIndex })
  else none

/-- The device puts the frame of the next descriptor of the ring on the wire, if it owns that. -/
def transmit (d : Rtl8168) : Option (Event × Rtl8168) := do
  let td ← d.transmitRing[d.transmitIndex]?
  if readf td.ctrl OWN then
    some (.sent (td.buffer.take (ctrlLength td.ctrl)), { d with
      transmitRing := d.transmitRing.set d.transmitIndex { td with ctrl := td.ctrl &&& ~~~OWN }
      transmitIndex := following td.ctrl d.transmitIndex })
  else none

def begin (d : Rtl8168) (call : Call) : Option (Event × Rtl8168) :=
  match d.pc with
  | .idle => some (.called call, { d with pc := match call with
    | .read id len => .readScan id len 0
    | .nextRead => .nextScan 0
    | .write buf => .writeScan buf 0 })
  | _ => none

end Rtl8168

/-- Who takes the next step, and with what. The device clears the poll bit when it likes. -/
inductive Choice where
  | call (call : Call)
  | driver
  | receive (frame : Frame) (ctrl : BitVec 32)
  | transmit
  | polled

namespace Rtl8168

def act (d : Rtl8168) : Choice → Option (Event × Rtl8168)
  | .call call => d.begin call
  | .driver => d.advance
  | .receive frame ctrl => d.receive frame ctrl
  | .transmit => d.transmit
  | .polled => some (.internal, { d with tppoll := false })

end Rtl8168

def Owned (desc : Desc) : Prop := readf desc.ctrl OWN

instance : DecidablePred Owned := fun desc => inferInstanceAs (Decidable (readf desc.ctrl OWN = true))

theorem and_own (x : BitVec 32) : (OWN ||| x) &&& OWN = OWN := by
  rw [BitVec.and_comm, BitVec.and_or_distrib_left, BitVec.and_self]
  ext i
  simp only [BitVec.getElem_or, BitVec.getElem_and]
  cases OWN[i] <;> rfl

/-- A length fits in the lowest bits. -/
theorem and_length {n : Nat} (hn : n < 0x4000) :
    BitVec.ofNat 32 n &&& 0x3FFF#32 = BitVec.ofNat 32 n := by
  apply BitVec.eq_of_toNat_eq
  have hmask : (0x3FFF#32).toNat = 2 ^ 14 - 1 := by decide
  rw [BitVec.toNat_and, hmask, Nat.and_two_pow_sub_one_eq_mod, BitVec.toNat_ofNat,
    Nat.mod_eq_of_lt (show n < 2 ^ 32 by omega), Nat.mod_eq_of_lt (show n < 2 ^ 14 by omega)]

/-- The bits outside of the length are those of the flags. -/
theorem ofNat_and {n : Nat} (hn : n < 0x4000) {mask : BitVec 32} (hm : 0x3FFF#32 &&& mask = 0#32) :
    BitVec.ofNat 32 n &&& mask = 0#32 := by
  rw [← and_length hn, BitVec.and_assoc, hm, BitVec.and_zero]

/-- A descriptor that is handed to the device keeps its mark, and tells its length. -/
theorem handed (ctrl flags : BitVec 32) {n : Nat} (hn : n < 0x4000) (hf : flags &&& EOR = 0#32)
    (hl : flags &&& 0x3FFF#32 = 0#32) :
    readf (OWN ||| ctrl &&& EOR ||| flags ||| BitVec.ofNat 32 n) OWN = true ∧
      (OWN ||| ctrl &&& EOR ||| flags ||| BitVec.ofNat 32 n) &&& EOR = ctrl &&& EOR ∧
      ctrlLength (OWN ||| ctrl &&& EOR ||| flags ||| BitVec.ofNat 32 n) = n := by
  have hown : OWN &&& EOR = 0#32 := by decide
  have hlow : OWN &&& 0x3FFF#32 = 0#32 := by decide
  have heor : EOR &&& 0x3FFF#32 = 0#32 := by decide
  refine ⟨?_, ?_, ?_⟩
  · rw [readf, beq_iff_eq, BitVec.or_assoc, BitVec.or_assoc, and_own]
  · rw [BitVec.and_or_distrib_right, BitVec.and_or_distrib_right, BitVec.and_or_distrib_right, hown,
      BitVec.and_assoc, BitVec.and_self, hf, ofNat_and hn (by decide), BitVec.zero_or,
      BitVec.or_zero, BitVec.or_zero]
  · rw [ctrlLength, BitVec.and_or_distrib_right, BitVec.and_or_distrib_right,
      BitVec.and_or_distrib_right, hlow, BitVec.and_assoc, heor, BitVec.and_zero, hl,
      and_length hn, BitVec.zero_or, BitVec.zero_or, BitVec.zero_or, BitVec.toNat_ofNat,
      Nat.mod_eq_of_lt (by omega)]

/-- A descriptor that the device gives back keeps its mark. -/
theorem given_back (ctrl : BitVec 32) :
    readf (ctrl &&& ~~~OWN) OWN = false ∧ (ctrl &&& ~~~OWN) &&& EOR = ctrl &&& EOR := by
  have hown : ~~~OWN &&& OWN = 0#32 := by decide
  have heor : ~~~OWN &&& EOR = EOR := by decide
  refine ⟨?_, ?_⟩
  · rw [readf, BitVec.and_assoc, hown, BitVec.and_zero]
    decide
  · rw [BitVec.and_assoc, heor]

def OwnedAt (ring : List Desc) (i : Nat) : Prop := ∃ desc, ring[i]? = some desc ∧ Owned desc

instance (ring : List Desc) (i : Nat) : Decidable (OwnedAt ring i) :=
  inferInstanceAs (Decidable (∃ desc ∈ ring[i]?, Owned desc))

/-- The device's place in the ring is its first descriptor, or the device owns the last one. -/
def Unbroken (ring : List Desc) (index : Nat) : Prop :=
  index = 0 ∨ OwnedAt ring (ring.length - 1)

/-- The device may give its next descriptor back while a scan that has come to `i` goes on: the scan
is past that descriptor, or the device owns the last of the ring, and, where the scan is right at
that descriptor, the one before it too. -/
def GivesBack (ring : List Desc) (index i : Nat) : Prop :=
  (i ≤ index → OwnedAt ring (ring.length - 1)) ∧ (i = index → 0 < i → OwnedAt ring (i - 1))

instance (ring : List Desc) (index : Nat) : Decidable (Unbroken ring index) :=
  inferInstanceAs (Decidable (_ ∨ _))

instance (ring : List Desc) (index i : Nat) : Decidable (GivesBack ring index i) :=
  inferInstanceAs (Decidable (_ ∧ _))

namespace Pc

/-- How far a scan of the receive ring has come. -/
def receiveScan : Pc → Option Nat
  | .readScan _ _ i => some i
  | .nextScan i => some i
  | _ => none

/-- How far a scan of the transmit ring has come. -/
def transmitScan : Pc → Option Nat
  | .writeScan _ i => some i
  | _ => none

end Pc

/-- No scan begins while the descriptors left to the driver lie on both sides of the end of a ring,
and the device brings none about that a scan would run into the wrong way. -/
def Rtl8168.InTurn (d : Rtl8168) : Choice → Prop
  | .call (.write _) => Unbroken d.transmitRing d.transmitIndex
  | .call _ => Unbroken d.receiveRing d.receiveIndex
  | .driver => ∀ i ∈ d.pc.transmitScan, d.transmitRing.length ≤ i →
      Unbroken d.transmitRing d.transmitIndex
  | .receive _ _ => ∀ i ∈ d.pc.receiveScan, GivesBack d.receiveRing d.receiveIndex i
  | .transmit => ∀ i ∈ d.pc.transmitScan, GivesBack d.transmitRing d.transmitIndex i
  | .polled => True

instance (d : Rtl8168) : DecidablePred d.InTurn
  | .call (.write _) => inferInstanceAs (Decidable (Unbroken _ _))
  | .call (.read _ _) => inferInstanceAs (Decidable (Unbroken _ _))
  | .call .nextRead => inferInstanceAs (Decidable (Unbroken _ _))
  | .driver => inferInstanceAs (Decidable (∀ i ∈ d.pc.transmitScan, d.transmitRing.length ≤ i →
      Unbroken d.transmitRing d.transmitIndex))
  | .receive _ _ => inferInstanceAs (Decidable (∀ i ∈ d.pc.receiveScan, GivesBack _ _ i))
  | .transmit => inferInstanceAs (Decidable (∀ i ∈ d.pc.transmitScan, GivesBack _ _ i))
  | .polled => isTrue trivial

/-- The first descriptor at or after `index`, in ring order, that the device does not own. -/
def FirstFree (ring : List Desc) (index i : Nat) : Prop :=
  ∃ k < ring.length, i = (index + k) % ring.length ∧
    (∃ desc, ring[i]? = some desc ∧ ¬ Owned desc) ∧
    ∀ j < k, ∃ desc, ring[(index + j) % ring.length]? = some desc ∧ Owned desc

/-- The descriptor that the running write fills. -/
def Rtl8168.fills (d : Rtl8168) : Option Nat :=
  match d.pc with
  | .writeData _ i => some i
  | .writeRelease _ i => some i
  | _ => none

variable {l : Link} {d d' : Rtl8168} {t u i size : Nat} {e : Event} {pending : List Frame}
  {ring : List Desc} {desc old : Desc}

/-- A descriptor that the device has filled. -/
structure Filled (rd : Desc) (frame : Frame) : Prop where
  length : ctrlLength rd.ctrl = frame.length
  data : ∃ rest, rd.buffer = frame ++ rest

/-- A descriptor that a write has filled. -/
def Holding (td : Desc) (frame : Frame) : Prop := td.buffer.take (ctrlLength td.ctrl) = frame

/-- A ring of 16 descriptors whose last one is marked. -/
structure Shaped (ring : List Desc) (size : Nat) : Prop where
  length : ring.length = 16
  eor : ∀ (j : Nat) (desc : Desc), ring[j]? = some desc → (readf desc.ctrl EOR = true ↔ j = 15)
  bytes : ∀ (j : Nat) (desc : Desc), ring[j]? = some desc → desc.buffer.length = size

theorem Shaped.set (h : Shaped ring size) (hi : ring[i]? = some old)
    (heor : desc.ctrl &&& EOR = old.ctrl &&& EOR) (hsize : desc.buffer.length = old.buffer.length) :
    Shaped (ring.set i desc) size := by
  have hlt : i < ring.length := (List.getElem?_eq_some_iff.mp hi).1
  refine ⟨(List.length_set ..).trans h.length, ?_, ?_⟩
  · intro j found hj
    by_cases hij : i = j
    · subst hij
      rw [List.getElem?_set_self hlt] at hj
      cases hj
      rw [readf, heor]
      exact h.eor i old hi
    · rw [List.getElem?_set_ne hij] at hj
      exact h.eor j found hj
  · intro j found hj
    by_cases hij : i = j
    · subst hij
      rw [List.getElem?_set_self hlt] at hj
      cases hj
      exact hsize.trans (h.bytes i old hi)
    · rw [List.getElem?_set_ne hij] at hj
      exact h.bytes j found hj

/-- The device goes round the ring. -/
theorem Shaped.following_eq (h : Shaped ring size) (hi : ring[u % 16]? = some desc) :
    following desc.ctrl (u % 16) = (u + 1) % 16 := by
  have heor := h.eor _ desc hi
  unfold following
  by_cases hlast : u % 16 = 15
  · rw [if_pos (heor.mpr hlast)]
    omega
  · rw [if_neg (mt heor.mp hlast)]
    omega

/-- The receive ring has the unread frames, from the `t`th frame of all on. -/
structure Receiving (l : Link) (d : Rtl8168) (t : Nat) : Prop where
  shaped : Shaped d.receiveRing 0x1FF8
  index : d.receiveIndex = (t + l.unread.length) % 16
  marked : Ring.Marked (fun rd => ¬ Owned rd) d.receiveRing t l.unread.length
  frames : Ring.Holds Filled d.receiveRing t l.unread

/-- What a running read knows. Its scan comes to the first of the unread frames before any other, and
once it is past that, there was none when it came by. -/
def ReadAt (l : Link) (t : Nat) : Pc → Prop
  | .readScan id len i => l.call = some (.read id len) ∧ (t % 16 < i → none ∈ l.answers) ∧
      Ring.Leads 16 ((t + l.unread.length) % 16) (16 - l.unread.length) i
  | .readData len i => (∃ id, l.call = some (.read id len)) ∧ i = t % 16 ∧ l.unread ≠ []
  | .readRelease len i data => (∃ id, l.call = some (.read id len)) ∧ i = t % 16 ∧
      ∃ frame, l.unread.head? = some frame ∧ data = frame.take len
  | .nextScan i => l.call = some .nextRead ∧ (t % 16 < i → none ∈ l.answers) ∧
      Ring.Leads 16 ((t + l.unread.length) % 16) (16 - l.unread.length) i
  | .nextLength i => l.call = some .nextRead ∧ i = t % 16 ∧ l.unread ≠ []
  | _ => True

/-- What a running write knows, where the device has the `u`th frame of all and those after it still
to send. -/
def WriteAt (l : Link) (d : Rtl8168) (u : Nat) (pending : List Frame) : Pc → Prop
  | .writeScan buf i => l.call = some (.write buf) ∧ l.unsent = pending ++ [buf.take 7552] ∧
      Ring.Leads 16 (u % 16) pending.length i
  | .writeData buf i => l.call = some (.write buf) ∧ l.unsent = pending ++ [buf.take 7552] ∧
      i = (u + pending.length) % 16 ∧ pending.length < 16
  | .writeRelease count i => (∃ buf, l.call = some (.write buf) ∧ count = min 7552 buf.length) ∧
      i = (u + pending.length) % 16 ∧ pending.length < 16 ∧
      ∃ frame td, l.unsent = pending ++ [frame] ∧ d.transmitRing[i]? = some td ∧
        td.buffer.take count = frame
  | .writePoll count => (∃ buf, l.call = some (.write buf) ∧ count = min 7552 buf.length) ∧
      l.unsent = pending
  | .writeWait count => (∃ buf, l.call = some (.write buf) ∧ count = min 7552 buf.length) ∧
      l.unsent = pending
  | .idle => l.call = none ∧ l.unsent = pending
  | _ => l.unsent = pending

structure Transmitting (l : Link) (d : Rtl8168) (u : Nat) (pending : List Frame) : Prop where
  shaped : Shaped d.transmitRing 7552
  index : d.transmitIndex = u % 16
  marked : Ring.Marked Owned d.transmitRing u pending.length
  frames : Ring.Holds Holding d.transmitRing u pending
  run : WriteAt l d u pending d.pc

/-- The rings, the places of the device and the running call agree with the link. -/
structure Agrees (l : Link) (d : Rtl8168) (t u : Nat) (pending : List Frame) : Prop where
  receiving : Receiving l d t
  reading : ReadAt l t d.pc
  current : l.Current
  transmitting : Transmitting l d u pending

def Good (l : Link) (d : Rtl8168) : Prop := ∃ t u pending, Agrees l d t u pending

theorem Receiving.ownedAt (hr : Receiving l d t) (hi : i < 16) :
    OwnedAt d.receiveRing i ↔ Ring.distance 16 d.receiveIndex i < 16 - l.unread.length := by
  have hlen := hr.shaped.length
  have hat := hr.marked.compl.at (j := i) (by omega)
  rw [hlen, ← hr.index] at hat
  rw [← hat]
  constructor
  · rintro ⟨rd, hrd, hown⟩
    exact ⟨rd, hrd, not_not.mpr hown⟩
  · rintro ⟨rd, hrd, hown⟩
    exact ⟨rd, hrd, not_not.mp hown⟩

theorem Transmitting.ownedAt (ht : Transmitting l d u pending) (hi : i < 16) :
    OwnedAt d.transmitRing i ↔ Ring.distance 16 d.transmitIndex i < pending.length := by
  have hlen := ht.shaped.length
  have hat := ht.marked.at (j := i) (by omega)
  rw [hlen, ← ht.index] at hat
  exact hat

/-- A scan that may begin comes to the first of the unread frames before any other. -/
theorem Receiving.leads (hr : Receiving l d t) (h : Unbroken d.receiveRing d.receiveIndex) :
    Ring.Leads 16 ((t + l.unread.length) % 16) (16 - l.unread.length) 0 := by
  rw [Unbroken, hr.shaped.length, hr.ownedAt (by decide)] at h
  rw [← hr.index]
  exact Ring.leads_start (by rw [hr.index]; omega) (Nat.sub_le _ _) h

theorem Transmitting.leads (ht : Transmitting l d u pending)
    (h : Unbroken d.transmitRing d.transmitIndex) : Ring.Leads 16 (u % 16) pending.length 0 := by
  have hle := ht.marked.le
  rw [ht.shaped.length] at hle
  rw [Unbroken, ht.shaped.length, ht.ownedAt (by decide)] at h
  rw [← ht.index]
  exact Ring.leads_start (by rw [ht.index]; omega) hle h

theorem following_mod (n : Nat) : (if n % 16 + 1 = 16 then 0 else n % 16 + 1) = (n + 1) % 16 := by
  split <;> omega

/-- The scan comes to that frame still when the device has stored another one. -/
theorem Receiving.leads_stored (hr : Receiving l d t) (hroom : l.unread.length < 16)
    (hg : GivesBack d.receiveRing d.receiveIndex i)
    (h : Ring.Leads 16 ((t + l.unread.length) % 16) (16 - l.unread.length) i) :
    Ring.Leads 16 ((t + (l.unread.length + 1)) % 16) (16 - (l.unread.length + 1)) i := by
  obtain ⟨hlast, hprevious⟩ := hg
  have hindex : d.receiveIndex < 16 := by
    rw [hr.index]
    omega
  rw [hr.shaped.length, hr.ownedAt (by decide)] at hlast
  have hcount : 16 - l.unread.length = 16 - (l.unread.length + 1) + 1 := by omega
  rw [hcount] at h hlast
  rw [← hr.index] at h
  have hpop := h.pop hindex (by omega) hlast (by
    intro heq hpos
    have hown := (hr.ownedAt (by omega)).mp (hprevious heq hpos)
    rwa [hcount] at hown)
  rw [hr.index, following_mod] at hpop
  exact hpop

/-- The scan comes to the descriptor behind the frames to be sent, still when the device has sent one
of them. -/
theorem Transmitting.leads_sent {frame : Frame} {rest : List Frame}
    (ht : Transmitting l d u (frame :: rest)) (hg : GivesBack d.transmitRing d.transmitIndex i)
    (h : Ring.Leads 16 (u % 16) (frame :: rest).length i) :
    Ring.Leads 16 ((u + 1) % 16) rest.length i := by
  obtain ⟨hlast, hprevious⟩ := hg
  have hle := ht.marked.le
  have hindex : d.transmitIndex < 16 := by
    rw [ht.index]
    omega
  rw [ht.shaped.length, ht.ownedAt (by decide)] at hlast
  rw [ht.shaped.length] at hle
  rw [← ht.index] at h
  have hpop := h.pop hindex hle hlast (by
    intro heq hpos
    exact (ht.ownedAt (by omega)).mp (hprevious heq hpos))
  rw [ht.index, following_mod] at hpop
  exact hpop

theorem ReadAt.stored {pc : Pc} {frame : Frame} (h : ReadAt l t pc)
    (hscan : ∀ i ∈ pc.receiveScan,
      Ring.Leads 16 ((t + l.unread.length) % 16) (16 - l.unread.length) i →
      Ring.Leads 16 ((t + (l.unread.length + 1)) % 16) (16 - (l.unread.length + 1)) i) :
    ReadAt (l.next 7552 (.stored frame)) t pc := by
  have hmore : l.unread ++ [frame] ≠ [] := List.append_ne_nil_of_right_ne_nil _ (List.cons_ne_nil _ _)
  have hlength : (l.next 7552 (.stored frame)).unread.length = l.unread.length + 1 :=
    List.length_append
  cases pc with
  | readScan id len i =>
    refine ⟨h.1, fun hlt => List.mem_append_left _ (h.2.1 hlt), ?_⟩
    rw [hlength]
    exact hscan i rfl h.2.2
  | nextScan i =>
    refine ⟨h.1, fun hlt => List.mem_append_left _ (h.2.1 hlt), ?_⟩
    rw [hlength]
    exact hscan i rfl h.2.2
  | readData len i => exact ⟨h.1, h.2.1, hmore⟩
  | nextLength i => exact ⟨h.1, h.2.1, hmore⟩
  | readRelease len i data =>
    obtain ⟨hcall, hi, first, hfirst, hdata⟩ := h
    exact ⟨hcall, hi, first, by rw [Link.next, List.head?_append, hfirst]; rfl, hdata⟩
  | _ => exact h

/-- The device stores the frame behind the unread ones. -/
theorem Agrees.receive {frame : Frame} {ctrl : BitVec 32} (h : Agrees l d t u pending)
    (hturn : d.InTurn (.receive frame ctrl)) (ha : d.receive frame ctrl = some (e, d')) :
    l.Allows 7552 e ∧ Agrees (l.next 7552 e) d' t u pending := by
  obtain ⟨rd, hrd, ha⟩ := Option.bind_eq_some_iff.mp ha
  split at ha
  · rename_i hguard
    obtain ⟨hown, hfits, hnot, heor, hlength⟩ := hguard
    cases ha
    have hr := h.receiving
    have hlen := hr.shaped.length
    have hnew : ¬ Owned ⟨ctrl, frame ++ rd.buffer.drop frame.length⟩ := hnot
    have hfilled : Filled ⟨ctrl, frame ++ rd.buffer.drop frame.length⟩ frame := ⟨hlength, _, rfl⟩
    have hroom : l.unread.length < d.receiveRing.length := by
      by_contra hfull
      have hle := hr.marked.le
      obtain ⟨rd', hrd', hnot'⟩ := (hr.marked.iff 0 (by omega)).mpr (by omega)
      have heq : l.unread.length = 16 := by omega
      rw [hr.index, heq, Nat.add_mod_right] at hrd
      rw [hlen, Nat.add_zero, hrd] at hrd'
      cases hrd'
      exact hnot' hown
    have hslot : (t + l.unread.length) % d.receiveRing.length = d.receiveIndex := by
      rw [hlen, hr.index]
    have hread : ReadAt (l.next 7552 (.stored frame)) t d.pc := h.reading.stored fun i hi =>
      hr.leads_stored (by omega) (hturn i hi)
    refine ⟨trivial, ⟨?_, ?_, ?_, ?_⟩, hread, .stored, h.transmitting.shaped,
      h.transmitting.index, h.transmitting.marked, h.transmitting.frames, ?_⟩
    · apply hr.shaped.set hrd heor
      show (frame ++ rd.buffer.drop frame.length).length = rd.buffer.length
      rw [List.length_append, List.length_drop]
      omega
    · show following rd.ctrl d.receiveIndex = (t + (l.unread ++ [frame]).length) % 16
      rw [hr.index] at hrd ⊢
      rw [hr.shaped.following_eq hrd, List.length_append]
      rfl
    · show Ring.Marked _ _ t (l.unread ++ [frame]).length
      rw [List.length_append, ← hslot]
      exact hr.marked.push hroom hnew
    · show Ring.Holds _ _ t (l.unread ++ [frame])
      rw [← hslot]
      exact hr.frames.push hroom hfilled
    · have hrun := h.transmitting.run
      show WriteAt _ _ u pending d.pc
      cases hpc : d.pc <;> rw [hpc] at hrun <;> exact hrun
  · cases ha

/-- What a running write knows after the device has sent the first of the frames it has. -/
theorem WriteAt.sent {pc : Pc} {frame : Frame} {rest : List Frame}
    (h : WriteAt l d u (frame :: rest) pc)
    (hscan : ∀ i ∈ pc.transmitScan, Ring.Leads 16 (u % 16) (frame :: rest).length i →
      Ring.Leads 16 ((u + 1) % 16) rest.length i)
    (hd : d'.transmitRing = d.transmitRing.set (u % 16) desc) :
    WriteAt { l with unsent := l.unsent.tail } d' (u + 1) rest pc := by
  have htail : ∀ more, l.unsent = frame :: rest ++ more → l.unsent.tail = rest ++ more := by
    intro more hmore
    rw [hmore]
    rfl
  have htail' : l.unsent = frame :: rest → l.unsent.tail = rest := by
    intro hmore
    rw [hmore]
    rfl
  cases pc with
  | writeScan buf i => exact ⟨h.1, htail _ h.2.1, hscan i rfl h.2.2⟩
  | writeData buf i =>
    obtain ⟨hcall, hunsent, hi, hlt⟩ := h
    rw [List.length_cons] at hi hlt
    exact ⟨hcall, htail _ hunsent, by omega, by omega⟩
  | writeRelease count i =>
    obtain ⟨hcall, hi, hlt, frame', td, hunsent, htd, hdata⟩ := h
    rw [List.length_cons] at hi hlt
    refine ⟨hcall, by omega, by omega, frame', td, htail _ hunsent, ?_, hdata⟩
    rw [hd, List.getElem?_set_ne (by omega)]
    exact htd
  | writePoll count => exact ⟨h.1, htail' h.2⟩
  | writeWait count => exact ⟨h.1, htail' h.2⟩
  | idle => exact ⟨h.1, htail' h.2⟩
  | _ => exact htail' h

/-- The device sends the first of the frames that it has. -/
theorem Agrees.transmit (h : Agrees l d t u pending) (hturn : d.InTurn .transmit)
    (ha : d.transmit = some (e, d')) :
    l.Allows 7552 e ∧ ∃ rest, Agrees (l.next 7552 e) d' t (u + 1) rest := by
  obtain ⟨td, htd, ha⟩ := Option.bind_eq_some_iff.mp ha
  split at ha
  · rename_i hown
    cases ha
    have ht := h.transmitting
    have hlen := ht.shaped.length
    rw [ht.index] at htd
    have hpos : 0 < pending.length := by
      apply (ht.marked.iff 0 (by omega)).mp
      rw [hlen, Nat.add_zero]
      exact ⟨td, htd, hown⟩
    obtain ⟨frame, rest, rfl⟩ := List.exists_cons_of_ne_nil (List.ne_nil_of_length_pos hpos)
    obtain ⟨hback, heor⟩ := given_back td.ctrl
    have hnot : ¬ Owned { td with ctrl := td.ctrl &&& ~~~OWN } := by
      intro h
      exact Bool.false_ne_true (hback.symm.trans h)
    have hslot : u % d.transmitRing.length = d.transmitIndex := by
      rw [hlen, ht.index]
    obtain ⟨td', htd', hdata⟩ := ht.frames.head
    rw [hlen, htd] at htd'
    cases htd'
    have hhead : l.unsent.head? = some frame := by
      have hrun := ht.run
      cases hpc : d.pc <;> rw [hpc] at hrun
      case writeScan => rw [hrun.2.1]; rfl
      case writeData => rw [hrun.2.1]; rfl
      case writeRelease =>
        obtain ⟨-, -, -, frame', td', hunsent, -⟩ := hrun
        rw [hunsent]
        rfl
      case writePoll => rw [hrun.2]; rfl
      case writeWait => rw [hrun.2]; rfl
      case idle => rw [hrun.2]; rfl
      all_goals rw [show l.unsent = _ from hrun]; rfl
    have hr := h.receiving
    refine ⟨?_, rest, ⟨hr.shaped, hr.index, hr.marked, hr.frames⟩, h.reading, h.current,
      ?_, ?_, ?_, ?_, ?_⟩
    · show l.unsent.head? = some (td.buffer.take (ctrlLength td.ctrl))
      rw [hhead, hdata]
    · rw [← ht.index] at htd
      exact ht.shaped.set htd heor rfl
    · show following td.ctrl d.transmitIndex = (u + 1) % 16
      rw [ht.index, ht.shaped.following_eq htd]
    · rw [← hslot]
      exact ht.marked.pop hnot
    · rw [← hslot]
      exact ht.frames.pop
    · apply ht.run.sent fun i hi => ht.leads_sent (hturn i hi)
      rw [ht.index]
  · cases ha

theorem Agrees.begin {call : Call} (h : Agrees l d t u pending) (hturn : d.InTurn (.call call))
    (ha : d.begin call = some (e, d')) :
    l.Allows 7552 e ∧ Agrees (l.next 7552 e) d' t u pending := by
  unfold Rtl8168.begin at ha
  split at ha
  · rename_i hpc
    cases ha
    have hr := h.receiving
    have ht := h.transmitting
    have hrun := ht.run
    rw [hpc] at hrun
    obtain ⟨hcall, hunsent⟩ := hrun
    have hmem : l.unread.head? ∈ [l.unread.head?] := List.mem_singleton_self _
    refine ⟨hcall, ?_⟩
    cases call with
    | read id len =>
      exact ⟨⟨hr.shaped, hr.index, hr.marked, hr.frames⟩,
        ⟨rfl, fun h => (Nat.not_lt_zero _ h).elim, hr.leads hturn⟩,
        fun _ => hmem, ht.shaped, ht.index, ht.marked, ht.frames, hunsent⟩
    | nextRead =>
      exact ⟨⟨hr.shaped, hr.index, hr.marked, hr.frames⟩,
        ⟨rfl, fun h => (Nat.not_lt_zero _ h).elim, hr.leads hturn⟩,
        fun _ => hmem, ht.shaped, ht.index, ht.marked, ht.frames, hunsent⟩
    | write buf =>
      refine ⟨⟨hr.shaped, hr.index, hr.marked, hr.frames⟩, trivial, ?_,
        ht.shaped, ht.index, ht.marked, ht.frames, rfl, ?_, ht.leads hturn⟩
      · rintro (⟨id, len, h⟩ | h) <;> cases h
      · show l.unsent ++ [buf.take 7552] = pending ++ [buf.take 7552]
        rw [hunsent]
  · cases ha

theorem Agrees.polled (h : Agrees l d t u pending) :
    Agrees l { d with tppoll := false } t u pending := by
  have hr := h.receiving
  have ht := h.transmitting
  refine ⟨⟨hr.shaped, hr.index, hr.marked, hr.frames⟩, h.reading, h.current,
    ht.shaped, ht.index, ht.marked, ht.frames, ?_⟩
  have hrun := ht.run
  show WriteAt _ _ u pending d.pc
  cases hpc : d.pc <;> rw [hpc] at hrun <;> exact hrun

/-- A step that only moves the running call on. -/
theorem Agrees.goto {pc : Pc} (h : Agrees l d t u pending) (hread : ReadAt l t pc)
    (hwrite : WriteAt l d u pending pc) : Agrees l { d with pc := pc } t u pending := by
  have hr := h.receiving
  have ht := h.transmitting
  exact ⟨⟨hr.shaped, hr.index, hr.marked, hr.frames⟩, hread, h.current,
    ht.shaped, ht.index, ht.marked, ht.frames, by cases pc <;> exact hwrite⟩

/-- The end of a call that has left the rings as they were. -/
theorem Agrees.over (h : Agrees l d t u pending) (hunsent : l.unsent = pending) :
    Agrees { l with call := none } { d with pc := .idle } t u pending := by
  have hr := h.receiving
  have ht := h.transmitting
  refine ⟨⟨hr.shaped, hr.index, hr.marked, hr.frames⟩, trivial, ?_,
    ht.shaped, ht.index, ht.marked, ht.frames, rfl, hunsent⟩
  rintro (⟨id, len, h⟩ | h) <;> cases h

/-- The running call has a next step, which the link has a reason for. -/
def Advances (l : Link) (d : Rtl8168) : Prop :=
  ∃ e d', d.advance = some (e, d') ∧ l.Allows 7552 e ∧ Good (l.next 7552 e) d'

/-- A scan stops at the first of the unread frames. -/
theorem Receiving.found (hr : Receiving l d t) (hi : d.receiveRing[i]? = some desc)
    (hnot : ¬ Owned desc)
    (hscan : Ring.Leads 16 ((t + l.unread.length) % 16) (16 - l.unread.length) i) :
    i = t % 16 ∧ l.unread ≠ [] := by
  have hlen := hr.shaped.length
  have hlt : i < 16 := by
    rw [← hlen]
    exact (List.getElem?_eq_some_iff.mp hi).1
  have hfar : 16 - l.unread.length ≤ Ring.distance 16 ((t + l.unread.length) % 16) i := by
    by_contra hnear
    rw [← hr.index] at hnear
    obtain ⟨rd, hrd, hown⟩ := (hr.ownedAt hlt).mpr (by omega)
    rw [hi] at hrd
    cases hrd
    exact hnot hown
  have hle := hr.marked.le
  obtain ⟨heq, hsome⟩ := hscan.found (Nat.mod_lt _ (by decide)) hlt hfar
  rw [Ring.behind_eq (Nat.mod_lt _ (by decide)) (Nat.sub_le _ _)] at heq
  exact ⟨by omega, List.ne_nil_of_length_pos (by omega)⟩

/-- The scan goes on past a descriptor of the device. -/
theorem Receiving.leads_succ (hr : Receiving l d t) (hi : d.receiveRing[i]? = some desc)
    (hown : Owned desc)
    (hscan : Ring.Leads 16 ((t + l.unread.length) % 16) (16 - l.unread.length) i) :
    Ring.Leads 16 ((t + l.unread.length) % 16) (16 - l.unread.length) (i + 1) := by
  have hlt : i < 16 := by
    rw [← hr.shaped.length]
    exact (List.getElem?_eq_some_iff.mp hi).1
  have hnear := (hr.ownedAt hlt).mp ⟨desc, hi, hown⟩
  rw [hr.index] at hnear
  exact hscan.succ (Nat.mod_lt _ (by decide)) hnear

/-- The descriptor of the first unread frame is the driver's. -/
theorem Receiving.unread_nil (hr : Receiving l d t) (hi : d.receiveRing[t % 16]? = some desc)
    (hown : Owned desc) : l.unread = [] := by
  have hlen := hr.shaped.length
  by_contra hne
  obtain ⟨a, ha, hnot⟩ := (hr.marked.iff 0 (by omega)).mpr (List.length_pos_iff.mpr hne)
  rw [hlen, Nat.add_zero, hi] at ha
  cases ha
  exact hnot hown

/-- The descriptor of the first unread frame has it. -/
theorem Receiving.first (hr : Receiving l d t) (hne : l.unread ≠ []) :
    ∃ frame rest rd, l.unread = frame :: rest ∧ d.receiveRing[t % 16]? = some rd ∧
      Filled rd frame := by
  obtain ⟨frame, rest, hrest⟩ := List.exists_cons_of_ne_nil hne
  have hframes := hr.frames
  rw [hrest] at hframes
  obtain ⟨rd, hrd, hfilled⟩ := hframes.head
  rw [hr.shaped.length] at hrd
  exact ⟨frame, rest, rd, hrest, hrd, hfilled⟩

/-- The scan of a read goes on past a descriptor of the device. -/
theorem Agrees.passed (h : Agrees l d t u pending) (hi : d.receiveRing[i]? = some desc)
    (hown : Owned desc) (hcall : (∃ id len, l.call = some (.read id len)) ∨ l.call = some .nextRead)
    (hpast : t % 16 < i → none ∈ l.answers) : t % 16 < i + 1 → none ∈ l.answers := by
  intro hlt
  rcases Nat.lt_or_ge (t % 16) i with hlt' | hge
  · exact hpast hlt'
  · have heq : i = t % 16 := by omega
    subst heq
    have hmem := h.current hcall
    rw [h.receiving.unread_nil hi hown] at hmem
    exact hmem

theorem advance_readScan {id len : Nat} (h : Agrees l d t u pending)
    (hpc : d.pc = .readScan id len i) : Advances l d := by
  have hr := h.receiving
  have hrun := h.transmitting.run
  have hread := h.reading
  rw [hpc] at hrun hread
  obtain ⟨hcall, hpast, hscan⟩ := hread
  cases hi : d.receiveRing[i]? with
  | none =>
    have hge : d.receiveRing.length ≤ i := List.getElem?_eq_none_iff.mp hi
    rw [hr.shaped.length] at hge
    refine ⟨.read len none (emptyRead id), { d with pc := .idle }, ?_,
      ⟨id, hcall, hpast (by omega), rfl⟩, t, u, pending, h.over hrun⟩
    simp only [Rtl8168.advance, hpc, hi]
  | some rd =>
    by_cases hown : Owned rd
    · have hstep : readf rd.ctrl OWN = true := hown
      refine ⟨.internal, { d with pc := .readScan id len (i + 1) }, ?_, trivial, t, u, pending,
        h.goto ⟨hcall, h.passed hi hown (.inl ⟨id, len, hcall⟩) hpast,
          hr.leads_succ hi hown hscan⟩ hrun⟩
      simp only [Rtl8168.advance, hpc, hi, hstep, Bool.not_true, Bool.false_eq_true, if_false]
    · have hstep : readf rd.ctrl OWN = false := Bool.eq_false_iff.mpr hown
      obtain ⟨heq, hne⟩ := hr.found hi hown hscan
      refine ⟨.internal, { d with pc := .readData len i }, ?_, trivial, t, u, pending,
        h.goto ⟨⟨id, hcall⟩, heq, hne⟩ hrun⟩
      simp only [Rtl8168.advance, hpc, hi, hstep, Bool.not_false, if_true]

theorem advance_readData {len : Nat} (h : Agrees l d t u pending) (hpc : d.pc = .readData len i) :
    Advances l d := by
  have hrun := h.transmitting.run
  have hread := h.reading
  rw [hpc] at hrun hread
  obtain ⟨hcall, rfl, hne⟩ := hread
  obtain ⟨frame, rest, rd, hrest, hrd, hlength, more, hbuffer⟩ := h.receiving.first hne
  have hdata : rd.buffer.take (min len (ctrlLength rd.ctrl)) = frame.take len := by
    rw [hlength, hbuffer, ← List.take_take, List.take_left]
  refine ⟨.internal, { d with
      pc := .readRelease len (t % 16) (rd.buffer.take (min len (ctrlLength rd.ctrl))) }, ?_,
    trivial, t, u, pending, h.goto ⟨hcall, rfl, frame, ?_, hdata⟩ hrun⟩
  · simp only [Rtl8168.advance, hpc, hrd, Option.bind_eq_bind, Option.bind_some]
    rw [if_pos]
    rw [hlength, hbuffer, List.length_append]
    omega
  · show l.unread.head? = some frame
    rw [hrest]
    rfl

/-- The descriptor goes back to the device, behind all that it owns. -/
theorem advance_readRelease {len : Nat} {data : List UInt8} (h : Agrees l d t u pending)
    (hpc : d.pc = .readRelease len i data) : Advances l d := by
  have hr := h.receiving
  have ht := h.transmitting
  have hrun := ht.run
  have hread := h.reading
  rw [hpc] at hrun hread
  obtain ⟨⟨id, hcall⟩, rfl, frame, hhead, hdata⟩ := hread
  obtain ⟨rest, hrest⟩ := List.head?_eq_some_iff.mp hhead
  have hframes := hr.frames
  have hmarked := hr.marked
  have hindex := hr.index
  rw [hrest] at hframes hmarked hindex
  rw [List.length_cons] at hmarked hindex
  obtain ⟨rd, hrd, -⟩ := hframes.head
  have hlen := hr.shaped.length
  rw [hlen] at hrd
  have hsize := hr.shaped.bytes _ rd hrd
  obtain ⟨hown, heor, -⟩ := handed rd.ctrl 0 (n := rd.buffer.length)
    (by rw [hsize]; decide) (by decide) (by decide)
  rw [show OWN ||| rd.ctrl &&& EOR ||| 0 ||| BitVec.ofNat 32 rd.buffer.length =
    OWN ||| rd.ctrl &&& EOR ||| BitVec.ofNat 32 rd.buffer.length from
      congrArg (· ||| _) (BitVec.or_zero)] at hown heor
  let released : Desc :=
    { rd with ctrl := OWN ||| rd.ctrl &&& EOR ||| BitVec.ofNat 32 rd.buffer.length }
  have hslot : t % d.receiveRing.length = t % 16 := by rw [hlen]
  refine ⟨.read len (some data) (.ok data.length), { d with
      receiveRing := d.receiveRing.set (t % 16) released, pc := .idle }, ?_,
    ⟨id, frame, hcall, hhead, hdata, rfl⟩, t + 1, u, pending,
    ⟨hr.shaped.set hrd heor rfl, ?_, ?_, ?_⟩, trivial, ?_,
    ht.shaped, ht.index, ht.marked, ht.frames, rfl, hrun⟩
  · simp only [Rtl8168.advance, hpc, hrd, Option.bind_eq_bind, Option.bind_some]
    rfl
  · show d.receiveIndex = (t + 1 + l.unread.tail.length) % 16
    rw [hrest, List.tail_cons, hindex]
    congr 1
    omega
  · show Ring.Marked _ (d.receiveRing.set (t % 16) released) (t + 1) l.unread.tail.length
    rw [hrest, ← hslot]
    exact hmarked.pop (not_not.mpr hown)
  · show Ring.Holds _ (d.receiveRing.set (t % 16) released) (t + 1) l.unread.tail
    rw [hrest, ← hslot]
    exact hframes.pop
  · rintro (⟨id, len, h⟩ | h) <;> cases h

theorem advance_nextScan (h : Agrees l d t u pending) (hpc : d.pc = .nextScan i) :
    Advances l d := by
  have hr := h.receiving
  have hrun := h.transmitting.run
  have hread := h.reading
  rw [hpc] at hrun hread
  obtain ⟨hcall, hpast, hscan⟩ := hread
  cases hi : d.receiveRing[i]? with
  | none =>
    have hge : d.receiveRing.length ≤ i := List.getElem?_eq_none_iff.mp hi
    rw [hr.shaped.length] at hge
    refine ⟨.nextRead 0, { d with pc := .idle }, ?_, ⟨hcall, none, hpast (by omega), rfl⟩,
      t, u, pending, h.over hrun⟩
    simp only [Rtl8168.advance, hpc, hi]
  | some rd =>
    by_cases hown : Owned rd
    · have hstep : readf rd.ctrl OWN = true := hown
      refine ⟨.internal, { d with pc := .nextScan (i + 1) }, ?_, trivial, t, u, pending,
        h.goto ⟨hcall, h.passed hi hown (.inr hcall) hpast, hr.leads_succ hi hown hscan⟩ hrun⟩
      simp only [Rtl8168.advance, hpc, hi, hstep, Bool.not_true, Bool.false_eq_true, if_false]
    · have hstep : readf rd.ctrl OWN = false := Bool.eq_false_iff.mpr hown
      refine ⟨.internal, { d with pc := .nextLength i }, ?_, trivial, t, u, pending,
        h.goto ⟨hcall, hr.found hi hown hscan⟩ hrun⟩
      simp only [Rtl8168.advance, hpc, hi, hstep, Bool.not_false, if_true]

theorem advance_nextLength (h : Agrees l d t u pending) (hpc : d.pc = .nextLength i) :
    Advances l d := by
  have hrun := h.transmitting.run
  have hread := h.reading
  rw [hpc] at hrun hread
  obtain ⟨hcall, rfl, hne⟩ := hread
  obtain ⟨frame, rest, rd, hrest, hrd, hfilled⟩ := h.receiving.first hne
  have hmem := h.current (.inr hcall)
  rw [hrest] at hmem
  refine ⟨.nextRead (ctrlLength rd.ctrl), { d with pc := .idle }, ?_,
    ⟨hcall, some frame, hmem, hfilled.length⟩, t, u, pending, h.over hrun⟩
  simp only [Rtl8168.advance, hpc, hrd, Option.bind_eq_bind, Option.bind_some]

/-- A scan stops behind all that the device has to send. -/
theorem Transmitting.found (ht : Transmitting l d u pending) (hi : d.transmitRing[i]? = some desc)
    (hnot : ¬ Owned desc) (hscan : Ring.Leads 16 (u % 16) pending.length i) :
    i = (u + pending.length) % 16 ∧ pending.length < 16 := by
  have hlen := ht.shaped.length
  have hle := ht.marked.le
  have hlt : i < 16 := by
    rw [← hlen]
    exact (List.getElem?_eq_some_iff.mp hi).1
  have hfar : pending.length ≤ Ring.distance 16 (u % 16) i := by
    by_contra hnear
    rw [← ht.index] at hnear
    obtain ⟨td, htd, hown⟩ := (ht.ownedAt hlt).mpr (by omega)
    rw [hi] at htd
    cases htd
    exact hnot hown
  obtain ⟨heq, hsome⟩ := hscan.found (Nat.mod_lt _ (by decide)) hlt hfar
  rw [Ring.behind_eq (Nat.mod_lt _ (by decide)) (by omega)] at heq
  exact ⟨by omega, hsome⟩

theorem Transmitting.leads_succ (ht : Transmitting l d u pending)
    (hi : d.transmitRing[i]? = some desc) (hown : Owned desc)
    (hscan : Ring.Leads 16 (u % 16) pending.length i) :
    Ring.Leads 16 (u % 16) pending.length (i + 1) := by
  have hlt : i < 16 := by
    rw [← ht.shaped.length]
    exact (List.getElem?_eq_some_iff.mp hi).1
  have hnear := (ht.ownedAt hlt).mp ⟨desc, hi, hown⟩
  rw [ht.index] at hnear
  exact hscan.succ (Nat.mod_lt _ (by decide)) hnear

theorem advance_writeScan {buf : List UInt8} (h : Agrees l d t u pending)
    (hturn : d.InTurn .driver) (hpc : d.pc = .writeScan buf i) : Advances l d := by
  have ht := h.transmitting
  have hrun := ht.run
  rw [hpc] at hrun
  obtain ⟨hcall, hunsent, hscan⟩ := hrun
  cases hi : d.transmitRing[i]? with
  | none =>
    have hagain : Unbroken d.transmitRing d.transmitIndex :=
      hturn i (by rw [hpc]; rfl) (List.getElem?_eq_none_iff.mp hi)
    refine ⟨.internal, { d with pc := .writeScan buf 0 }, ?_, trivial, t, u, pending,
      h.goto trivial ⟨hcall, hunsent, ht.leads hagain⟩⟩
    simp only [Rtl8168.advance, hpc, hi]
  | some td =>
    by_cases hown : Owned td
    · have hstep : readf td.ctrl OWN = true := hown
      refine ⟨.internal, { d with pc := .writeScan buf (i + 1) }, ?_, trivial, t, u, pending,
        h.goto trivial ⟨hcall, hunsent, ht.leads_succ hi hown hscan⟩⟩
      simp only [Rtl8168.advance, hpc, hi, hstep, Bool.not_true, Bool.false_eq_true, if_false]
    · have hstep : readf td.ctrl OWN = false := Bool.eq_false_iff.mpr hown
      obtain ⟨heq, hlt⟩ := ht.found hi hown hscan
      refine ⟨.internal, { d with pc := .writeData buf i }, ?_, trivial, t, u, pending,
        h.goto trivial ⟨hcall, hunsent, heq, hlt⟩⟩
      simp only [Rtl8168.advance, hpc, hi, hstep, Bool.not_false, if_true]

/-- The descriptor behind those that the device has to send is the driver's. -/
theorem Transmitting.free (ht : Transmitting l d u pending) (hlt : pending.length < 16) :
    ∃ td, d.transmitRing[(u + pending.length) % 16]? = some td ∧ ¬ Owned td := by
  have hlen := ht.shaped.length
  have hin : (u + pending.length) % 16 < d.transmitRing.length := by
    rw [hlen]
    exact Nat.mod_lt _ (by decide)
  refine ⟨_, List.getElem?_eq_getElem hin, ?_⟩
  intro hown
  have hmarked := ht.marked.iff pending.length (by omega)
  rw [hlen] at hmarked
  exact Nat.lt_irrefl _ (hmarked.mp ⟨_, List.getElem?_eq_getElem hin, hown⟩)

theorem advance_writeData {buf : List UInt8} (h : Agrees l d t u pending)
    (hpc : d.pc = .writeData buf i) : Advances l d := by
  have hr := h.receiving
  have ht := h.transmitting
  have hrun := ht.run
  have hlen := ht.shaped.length
  rw [hpc] at hrun
  obtain ⟨hcall, hunsent, rfl, hlt⟩ := hrun
  obtain ⟨td, htd, hnot⟩ := ht.free hlt
  have hin : (u + pending.length) % 16 < d.transmitRing.length :=
    (List.getElem?_eq_some_iff.mp htd).1
  have hsize := ht.shaped.bytes _ td htd
  let count := min buf.length td.buffer.length
  have hcount : count = min 7552 buf.length := by
    show min buf.length td.buffer.length = _
    rw [hsize, Nat.min_comm]
  have htake : (buf.take count).length = count := by
    rw [List.length_take]
    exact Nat.min_eq_left (Nat.min_le_left _ _)
  let filled : Desc := { td with buffer := buf.take count ++ td.buffer.drop count }
  have hfull : filled.buffer.length = td.buffer.length := by
    show (buf.take count ++ td.buffer.drop count).length = _
    rw [List.length_append, htake, List.length_drop]
    have hle : count ≤ td.buffer.length := Nat.min_le_right _ _
    omega
  have hslot : (u + pending.length) % d.transmitRing.length = (u + pending.length) % 16 := by
    rw [hlen]
  refine ⟨.internal, { d with
      transmitRing := d.transmitRing.set ((u + pending.length) % 16) filled
      pc := .writeRelease count ((u + pending.length) % 16) }, ?_, trivial, t, u, pending,
    ⟨hr.shaped, hr.index, hr.marked, hr.frames⟩, trivial, h.current,
    ht.shaped.set htd rfl hfull, ht.index, ht.marked.keep htd Iff.rfl, ?_,
    ⟨buf, hcall, hcount⟩, rfl, hlt, buf.take 7552, filled, hunsent, List.getElem?_set_self hin, ?_⟩
  · simp only [Rtl8168.advance, hpc, htd, Option.bind_eq_bind, Option.bind_some]
    rfl
  · rw [← hslot]
    exact ht.frames.set (Nat.le_refl _) (by omega)
  · -- A buffer that is longer is cut.
    show (buf.take count ++ td.buffer.drop count).take count = buf.take 7552
    rw [List.take_append_of_le_length (Nat.le_of_eq htake.symm), List.take_take, Nat.min_self,
      hcount, ← List.take_take, List.take_length]

theorem advance_writeRelease {count : Nat} (h : Agrees l d t u pending)
    (hpc : d.pc = .writeRelease count i) : Advances l d := by
  have hr := h.receiving
  have ht := h.transmitting
  have hrun := ht.run
  have hlen := ht.shaped.length
  rw [hpc] at hrun
  obtain ⟨⟨buf, hcall, hcount⟩, rfl, hlt, frame, td, hunsent, htd, hdata⟩ := hrun
  obtain ⟨hown, heor, hlength⟩ := handed td.ctrl (FS ||| LS) (n := count)
    (by omega) (by decide) (by decide)
  rw [← BitVec.or_assoc] at hown heor hlength
  let released : Desc :=
    { td with ctrl := OWN ||| td.ctrl &&& EOR ||| FS ||| LS ||| BitVec.ofNat 32 count }
  have hholding : Holding released frame := by
    show td.buffer.take _ = frame
    rw [hlength, hdata]
  have hslot : (u + pending.length) % d.transmitRing.length = (u + pending.length) % 16 := by
    rw [hlen]
  refine ⟨.internal, { d with
      transmitRing := d.transmitRing.set ((u + pending.length) % 16) released
      pc := .writePoll count }, ?_, trivial, t, u, pending ++ [frame],
    ⟨hr.shaped, hr.index, hr.marked, hr.frames⟩, trivial, h.current,
    ht.shaped.set htd heor rfl, ht.index, ?_, ?_, ⟨buf, hcall, hcount⟩, hunsent⟩
  · simp only [Rtl8168.advance, hpc, htd, Option.bind_eq_bind, Option.bind_some]
    rfl
  · rw [List.length_append, ← hslot]
    exact ht.marked.push (by omega) hown
  · rw [← hslot]
    exact ht.frames.push (by omega) hholding

theorem advance_writePoll {count : Nat} (h : Agrees l d t u pending)
    (hpc : d.pc = .writePoll count) : Advances l d := by
  have hr := h.receiving
  have ht := h.transmitting
  have hrun := ht.run
  rw [hpc] at hrun
  refine ⟨.internal, { d with tppoll := true, pc := .writeWait count }, ?_, trivial, t, u, pending,
    ⟨hr.shaped, hr.index, hr.marked, hr.frames⟩, trivial, h.current,
    ht.shaped, ht.index, ht.marked, ht.frames, hrun⟩
  simp only [Rtl8168.advance, hpc]

theorem advance_writeWait {count : Nat} (h : Agrees l d t u pending)
    (hpc : d.pc = .writeWait count) : Advances l d := by
  have hrun := h.transmitting.run
  rw [hpc] at hrun
  obtain ⟨⟨buf, hcall, hcount⟩, hunsent⟩ := hrun
  cases hpoll : d.tppoll with
  | true =>
    refine ⟨.internal, d, ?_, trivial, t, u, pending, h⟩
    simp only [Rtl8168.advance, hpc, hpoll, if_true]
  | false =>
    refine ⟨.write count, { d with pc := .idle }, ?_, ⟨buf, hcall, hcount⟩, t, u, pending,
      h.over hunsent⟩
    simp only [Rtl8168.advance, hpc, hpoll, Bool.false_eq_true, if_false]

theorem advances (h : Agrees l d t u pending) (hturn : d.InTurn .driver) (hpc : d.pc ≠ .idle) :
    Advances l d := by
  cases hpc' : d.pc with
  | idle => exact (hpc hpc').elim
  | readScan id len i => exact advance_readScan h hpc'
  | readData len i => exact advance_readData h hpc'
  | readRelease len i data => exact advance_readRelease h hpc'
  | nextScan i => exact advance_nextScan h hpc'
  | nextLength i => exact advance_nextLength h hpc'
  | writeScan buf i => exact advance_writeScan h hturn hpc'
  | writeData buf i => exact advance_writeData h hpc'
  | writeRelease count i => exact advance_writeRelease h hpc'
  | writePoll count => exact advance_writePoll h hpc'
  | writeWait count => exact advance_writeWait h hpc'

def InTurnStep (d : Rtl8168) (e : Event) (d' : Rtl8168) : Prop :=
  ∃ choice, d.InTurn choice ∧ d.act choice = some (e, d')

theorem good_step (h : Good l d) (hstep : InTurnStep d e d') :
    l.Allows 7552 e ∧ Good (l.next 7552 e) d' := by
  obtain ⟨t, u, pending, h⟩ := h
  obtain ⟨choice, hturn, ha⟩ := hstep
  cases choice with
  | call call =>
    obtain ⟨hallows, h⟩ := h.begin hturn ha
    exact ⟨hallows, t, u, pending, h⟩
  | driver =>
    have hpc : d.pc ≠ .idle := by
      intro hpc
      simp only [Rtl8168.act, Rtl8168.advance, hpc] at ha
      cases ha
    obtain ⟨e', d'', hadvance, hallows, h⟩ := advances h hturn hpc
    cases hadvance.symm.trans ha
    exact ⟨hallows, h⟩
  | receive frame ctrl =>
    obtain ⟨hallows, h⟩ := h.receive hturn ha
    exact ⟨hallows, t, u, pending, h⟩
  | transmit =>
    obtain ⟨hallows, rest, h⟩ := h.transmit hturn ha
    exact ⟨hallows, t, u + 1, rest, h⟩
  | polled =>
    cases ha
    exact ⟨trivial, t, u, pending, h.polled⟩

/-- The rings as `init` sets them up: all descriptors alike but for the mark of the last. -/
theorem marked_last {a b : Desc} {j : Nat}
    (h : ((List.replicate 16 a).set (16 - 1) b)[j]? = some desc) :
    (j < 15 ∧ desc = a) ∨ (j = 15 ∧ desc = b) := by
  by_cases hj : 15 = j
  · subst hj
    rw [List.getElem?_set_self (by rw [List.length_replicate]; decide)] at h
    cases h
    exact .inr ⟨rfl, rfl⟩
  · rw [List.getElem?_set_ne hj, List.getElem?_replicate] at h
    split at h
    · cases h
      exact .inl ⟨by omega, rfl⟩
    · cases h

theorem shaped_init {a b : Desc} (ha : readf a.ctrl EOR = false) (hb : readf b.ctrl EOR = true)
    (hsize : a.buffer.length = size) (hsize' : b.buffer.length = size) :
    Shaped ((List.replicate 16 a).set (16 - 1) b) size := by
  refine ⟨by rw [List.length_set, List.length_replicate], ?_, ?_⟩
  · intro j desc h
    obtain ⟨hj, rfl⟩ | ⟨hj, rfl⟩ := marked_last h
    · rw [ha]
      exact ⟨fun h => (Bool.false_ne_true h).elim, fun h => by omega⟩
    · exact ⟨fun _ => hj, fun _ => hb⟩
  · intro j desc h
    obtain ⟨-, rfl⟩ | ⟨-, rfl⟩ := marked_last h
    · exact hsize
    · exact hsize'

theorem marked_init {P : Desc → Prop} {a b : Desc} (ha : ¬ P a) (hb : ¬ P b) :
    Ring.Marked P ((List.replicate 16 a).set (16 - 1) b) 0 0 := by
  refine ⟨Nat.zero_le _, ?_⟩
  intro k hk
  refine ⟨?_, fun h => (Nat.not_lt_zero k h).elim⟩
  rintro ⟨desc, hdesc, hP⟩
  obtain ⟨-, rfl⟩ | ⟨-, rfl⟩ := marked_last hdesc
  · exact (ha hP).elim
  · exact (hb hP).elim

theorem good_init : Good .idle init := by
  refine ⟨0, 0, [], ⟨?_, rfl, ?_, Ring.holds_nil⟩, trivial, ?_, ?_, rfl, ?_, Ring.holds_nil,
    rfl, rfl⟩
  · exact shaped_init (by decide) (by decide) List.length_replicate List.length_replicate
  · apply marked_init
    · exact fun h => h (by decide)
    · exact fun h => h (by decide)
  · rintro (⟨id, len, h⟩ | h) <;> cases h
  · exact shaped_init (by decide) (by decide) List.length_replicate List.length_replicate
  · exact marked_init (by decide) (by decide)

theorem good_run {es : List Event} (h : Run InTurnStep init es d) :
    Each (Link.next 7552) (Link.Allows 7552) .idle es ∧ Good (es.foldl (Link.next 7552) .idle) d :=
  monitored (R := Good) (fun _ _ _ _ => good_step) h good_init

/-- Where the device has frames to send, the next free descriptor is behind them. -/
theorem Transmitting.firstFree (ht : Transmitting l d u pending) (hlt : pending.length < 16) :
    FirstFree d.transmitRing d.transmitIndex ((u + pending.length) % 16) := by
  have hlen := ht.shaped.length
  refine ⟨pending.length, by omega, ?_, ht.free hlt, ?_⟩
  · rw [hlen, ht.index, Nat.mod_add_mod]
  · intro j hj
    obtain ⟨td, htd, hown⟩ := (ht.marked.iff j (by omega)).mpr hj
    rw [hlen] at htd ⊢
    rw [ht.index, Nat.mod_add_mod]
    exact ⟨td, htd, hown⟩

/-- A write that begins where the condition fails finds the first descriptor of the ring free, and
that is not the one the device comes to next. -/
theorem Transmitting.out_of_turn (ht : Transmitting l d u pending)
    (h : ¬ Unbroken d.transmitRing d.transmitIndex) :
    ¬ OwnedAt d.transmitRing 0 ∧ ¬ FirstFree d.transmitRing d.transmitIndex 0 := by
  have hlen := ht.shaped.length
  have hindex := ht.index
  obtain ⟨hstart, hlast⟩ := not_or.mp h
  rw [hlen, ht.ownedAt (by decide)] at hlast
  have hend := Ring.distance_cases 16 d.transmitIndex (16 - 1)
  have hzero := Ring.distance_cases 16 d.transmitIndex 0
  refine ⟨?_, ?_⟩
  · rw [ht.ownedAt (by decide)]
    omega
  · rintro ⟨k, hk, hslot, -, hbefore⟩
    rw [hlen] at hk hslot
    have hbefore := hbefore (15 - d.transmitIndex) (by omega)
    rw [hlen, show (d.transmitIndex + (15 - d.transmitIndex)) % 16 = 15 by omega] at hbefore
    exact hlast ((ht.ownedAt (by decide)).mp hbefore)

/-- The rings carry every frame once and in order, the answers of the calls are those of the two
queues, and a write fills the descriptor that the device comes to next. -/
structure CarriesInOrder (es : List Event) (d : Rtl8168) : Prop where
  received : ∃ frames unread, stored es = frames ++ unread ∧
    List.Forall₂ (fun frame r => r.2 = frame.take r.1) frames (reads es)
  sent : ∃ unsent, (written es).map (·.take 7552) = sent es ++ unsent
  allowed : Each (Link.next 7552) (Link.Allows 7552) .idle es
  fills : ∀ i, d.fills = some i → FirstFree d.transmitRing d.transmitIndex i

/-- Whatever the driver and the device do in turn, where every step meets the condition. -/
theorem carriesInOrder_of_inTurn {es : List Event} (h : Run InTurnStep init es d) :
    CarriesInOrder es d := by
  obtain ⟨hall, t, u, pending, hagrees⟩ := good_run h
  refine ⟨?_, ⟨_, Link.transmitted hall⟩, hall, ?_⟩
  · obtain ⟨frames, heq, hreads⟩ := Link.received hall
    exact ⟨frames, _, heq, hreads⟩
  · intro i hi
    have ht := hagrees.transmitting
    have hrun := ht.run
    unfold Rtl8168.fills at hi
    split at hi
    · rename_i buf slot hpc
      rw [hpc] at hrun
      cases hi
      obtain ⟨-, -, rfl, hlt⟩ := hrun
      exact ht.firstFree hlt
    · rename_i count slot hpc
      rw [hpc] at hrun
      cases hi
      obtain ⟨-, rfl, hlt, -⟩ := hrun
      exact ht.firstFree hlt
    · cases hi

def actInTurn (d : Rtl8168) (choice : Choice) : Option (Event × Rtl8168) :=
  if d.InTurn choice then d.act choice else none

theorem inTurnStep_of_chosen (h : Chosen actInTurn d e d') : InTurnStep d e d' := by
  obtain ⟨choice, h⟩ := h
  unfold actInTurn at h
  split at h
  · exact ⟨choice, by assumption, h⟩
  · cases h

/-- Two frames are stored and one is read, and a buffer is written and sent. -/
theorem carriesInOrder_one_each : ∃ es d, Run InTurnStep init es d ∧
    stored es = [[1, 2, 3], [4]] ∧ reads es = [(2, [1, 2])] ∧ sent es = [[5]] ∧
    CarriesInOrder es d := by
  let es : List Event := [.stored [1, 2, 3], .stored [4], .called (.read 0 2), .internal, .internal,
    .read 2 (some [1, 2]) (.ok 2), .called (.write [5]), .internal, .internal, .internal, .internal,
    .sent [5], .internal, .write 1]
  have hplay : (play actInTurn init [.receive [1, 2, 3] 3, .receive [4] 1, .call (.read 0 2),
      .driver, .driver, .driver, .call (.write [5]), .driver, .driver, .driver, .driver, .transmit,
      .polled, .driver]).map Prod.fst = some es := by decide +kernel
  obtain ⟨d, hrun⟩ := run_of_play hplay
  have hrun' := hrun.mono (fun _ _ _ => inTurnStep_of_chosen)
  exact ⟨es, d, hrun', rfl, rfl, rfl, carriesInOrder_of_inTurn hrun'⟩

/-- After the first of three buffers has been sent, the second is put into the descriptor that the
device has left behind, and the third before it. -/
theorem third_buffer_before_second : ∃ es d, Run (Chosen Rtl8168.act) init es d ∧
    written es = [[1], [2], [3]] ∧ sent es = [[1], [3]] ∧ ¬ CarriesInOrder es d := by
  let es : List Event := [.called (.write [1]), .internal, .internal, .internal, .internal,
    .internal, .write 1, .sent [1], .called (.write [2]), .internal, .internal, .internal, .internal,
    .internal, .write 1, .called (.write [3]), .internal, .internal, .internal, .internal, .internal,
    .internal, .write 1, .sent [3]]
  have hplay : (play Rtl8168.act init [.call (.write [1]), .driver, .driver, .driver, .driver,
      .polled, .driver, .transmit, .call (.write [2]), .driver, .driver, .driver, .driver, .polled,
      .driver, .call (.write [3]), .driver, .driver, .driver, .driver, .driver, .polled, .driver,
      .transmit]).map Prod.fst = some es := by decide +kernel
  obtain ⟨d, hrun⟩ := run_of_play hplay
  refine ⟨es, d, hrun, rfl, rfl, ?_⟩
  rintro ⟨-, ⟨unsent, hunsent⟩, -, -⟩
  cases hunsent

end Origel.Drivers.Rtl8168d
