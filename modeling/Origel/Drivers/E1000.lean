import Origel.Lib.Ring
import Origel.Drivers.Link

/-! The e1000 driver and its device: the two rings of descriptors that they share. -/
namespace Origel.Drivers.E1000d

open Origel.Lib

def RD_DD : UInt8 := 1

def TD_CMD_EOP : UInt8 := 1
def TD_CMD_IFCS : UInt8 := (1 : UInt8) <<< (1 : UInt8)
def TD_CMD_RS : UInt8 := (1 : UInt8) <<< (3 : UInt8)
def TD_DD : UInt8 := 1

/-- A receive descriptor, with the bytes of the buffer at its address. -/
structure Rd where
  buffer : List UInt8
  length : Nat
  status : UInt8

/-- A transmit descriptor, with the bytes of the buffer at its address. -/
structure Td where
  buffer : List UInt8
  length : Nat
  cso : UInt8
  command : UInt8
  status : UInt8
  css : UInt8
  special : Nat

/-- Where the running call of the driver is. The device may take steps at each of these points. -/
inductive Pc where
  | idle
  | readHead (id len : Nat)
  | readTail (id len head : Nat)
  | readStatus (id len tail : Nat)
  | readData (len tail : Nat)
  | readDone (len tail : Nat) (data : List UInt8)
  | nextHead
  | nextTail (head : Nat)
  | nextStatus (tail : Nat)
  | writeHead (buf : List UInt8)
  | writeTail (buf : List UInt8) (head : Nat)
  | writeFill (buf : List UInt8) (oldTail tail : Nat)
  | writeNotify (count oldTail tail : Nat)
  | writeWait (count oldTail : Nat)

/-- The rings, the registers of the device that point into them, and the running call. -/
structure Intel8254x where
  rdh : Nat
  rdt : Nat
  tdh : Nat
  tdt : Nat
  receiveRing : List Rd
  transmitRing : List Td
  pc : Pc

def init : Intel8254x where
  rdh := 0
  rdt := 16 - 1
  tdh := 0
  tdt := 0
  receiveRing := List.replicate 16 ⟨List.replicate 16384 0, 0, 0⟩
  transmitRing := List.replicate 16 ⟨List.replicate 16384 0, 0, 0, 0, 0, 0, 0⟩
  pc := .idle

/-- The index after `tail` in a ring of `n` descriptors. -/
def wrap (n tail : Nat) : Nat := if tail + 1 ≥ n then 0 else tail + 1

namespace Intel8254x

/-- The next step of the running call. There is none past the end of a ring or of a buffer. -/
def advance (d : Intel8254x) : Option (Event × Intel8254x) :=
  match d.pc with
  | .idle => none
  | .readHead id len => some (.internal, { d with pc := .readTail id len d.rdh })
  | .readTail id len head =>
    let tail := wrap d.receiveRing.length d.rdt
    if tail ≠ head then some (.internal, { d with pc := .readStatus id len tail })
    else some (.read len none (emptyRead id), { d with pc := .idle })
  | .readStatus id len tail => do
    let rd ← d.receiveRing[tail]?
    if rd.status &&& RD_DD = RD_DD then
      some (.internal, { d with
        receiveRing := d.receiveRing.set tail { rd with status := 0 }, pc := .readData len tail })
    else some (.read len none (emptyRead id), { d with pc := .idle })
  | .readData len tail => do
    let rd ← d.receiveRing[tail]?
    if rd.length ≤ rd.buffer.length then
      some (.internal, { d with pc := .readDone len tail ((rd.buffer.take rd.length).take len) })
    else none
  | .readDone len tail data =>
    some (.read len (some data) (.ok data.length), { d with rdt := tail, pc := .idle })
  | .nextHead => some (.internal, { d with pc := .nextTail d.rdh })
  | .nextTail head =>
    let tail := wrap d.receiveRing.length d.rdt
    if tail ≠ head then some (.internal, { d with pc := .nextStatus tail })
    else some (.nextRead 0, { d with pc := .idle })
  | .nextStatus tail => do
    let rd ← d.receiveRing[tail]?
    if rd.status &&& RD_DD = RD_DD then some (.nextRead rd.length, { d with pc := .idle })
    else some (.nextRead 0, { d with pc := .idle })
  | .writeHead buf => some (.internal, { d with pc := .writeTail buf d.tdh })
  | .writeTail buf head =>
    let tail := wrap d.transmitRing.length d.tdt
    if tail ≠ head then some (.internal, { d with pc := .writeFill buf d.tdt tail })
    else some (.internal, { d with pc := .writeHead buf })
  | .writeFill buf oldTail tail => do
    let td ← d.transmitRing[oldTail]?
    let length := min buf.length 0x3FFF
    some (.internal, { d with
      transmitRing := d.transmitRing.set oldTail
        { td with
          buffer := buf.take length ++ td.buffer.drop length
          length
          cso := 0
          command := TD_CMD_EOP ||| TD_CMD_IFCS ||| TD_CMD_RS
          status := 0
          css := 0
          special := 0 }
      pc := .writeNotify length oldTail tail })
  | .writeNotify count oldTail tail =>
    some (.internal, { d with tdt := tail, pc := .writeWait count oldTail })
  | .writeWait count oldTail => do
    let td ← d.transmitRing[oldTail]?
    if td.status = 0 then some (.internal, d) else some (.write count, { d with pc := .idle })

/-- The device stores a frame where RDH points, unless the ring has no descriptor for it. -/
def receive (d : Intel8254x) (frame : Frame) (status : UInt8) : Option (Event × Intel8254x) := do
  let rd ← d.receiveRing[d.rdh]?
  if d.rdh ≠ d.rdt ∧ frame.length ≤ rd.buffer.length ∧ status &&& RD_DD = RD_DD then
    some (.stored frame, { d with
      receiveRing := d.receiveRing.set d.rdh
        { buffer := frame ++ rd.buffer.drop frame.length, length := frame.length, status }
      rdh := wrap d.receiveRing.length d.rdh })
  else none

/-- The device puts the frame where TDH points on the wire, and reports it where that is asked. -/
def transmit (d : Intel8254x) : Option (Event × Intel8254x) := do
  let td ← d.transmitRing[d.tdh]?
  if d.tdh ≠ d.tdt then
    some (.sent (td.buffer.take td.length), { d with
      transmitRing := d.transmitRing.set d.tdh
        { td with status :=
            if td.command &&& TD_CMD_RS = TD_CMD_RS then td.status ||| TD_DD else td.status }
      tdh := wrap d.transmitRing.length d.tdh })
  else none

def begin (d : Intel8254x) : Call → Option (Event × Intel8254x)
  | call => match d.pc with
    | .idle => some (.called call, { d with pc := match call with
        | .read id len => .readHead id len
        | .nextRead => .nextHead
        | .write buf => .writeHead buf })
    | _ => none

end Intel8254x

/-- Who takes the next step, and with what. -/
inductive Choice where
  | call (call : Call)
  | driver
  | receive (frame : Frame) (status : UInt8)
  | transmit

namespace Intel8254x

def act (d : Intel8254x) : Choice → Option (Event × Intel8254x)
  | .call call => d.begin call
  | .driver => d.advance
  | .receive frame status => d.receive frame status
  | .transmit => d.transmit

/-- The device owns the receive descriptors from RDH up to RDT. -/
def OwnsReceive (d : Intel8254x) (i : Nat) : Prop :=
  ∃ k < (d.rdt + d.receiveRing.length - d.rdh) % d.receiveRing.length,
    i = (d.rdh + k) % d.receiveRing.length

/-- The device owns the transmit descriptors from TDH up to TDT. -/
def OwnsTransmit (d : Intel8254x) (i : Nat) : Prop :=
  ∃ k < (d.tdt + d.transmitRing.length - d.tdh) % d.transmitRing.length,
    i = (d.tdh + k) % d.transmitRing.length

/-- The receive descriptor that the running call reads or overwrites next. -/
def receiveUse (d : Intel8254x) : Option Nat :=
  match d.pc with
  | .readStatus _ _ tail => some tail
  | .readData _ tail => some tail
  | .nextStatus tail => some tail
  | _ => none

/-- The transmit descriptor that the running call reads or overwrites next. -/
def transmitUse (d : Intel8254x) : Option Nat :=
  match d.pc with
  | .writeFill _ oldTail _ => some oldTail
  | .writeWait _ oldTail => some oldTail
  | _ => none

/-- A write looks whether the status of the descriptor has changed, and overwrites nothing. -/
def WaitsOn (d : Intel8254x) (i : Nat) : Prop :=
  (∃ count, d.pc = .writeWait count i) ∧
    ∀ e d', d.advance = some (e, d') → d'.transmitRing = d.transmitRing

end Intel8254x

variable {l : Link} {d d' : Intel8254x} {t : Nat} {e : Event}

/-- A descriptor that holds a frame. -/
def Filled (rd : Rd) (frame : Frame) : Prop :=
  rd.length = frame.length ∧ ∃ rest, rd.buffer = frame ++ rest

def Ready (rd : Rd) (_ : Frame) : Prop := rd.status &&& RD_DD = RD_DD

/-- A descriptor that is to be sent, and to be reported. -/
structure Pending (td : Td) (frame : Frame) : Prop where
  data : td.buffer.take td.length = frame
  status : td.status = 0
  report : td.command &&& TD_CMD_RS = TD_CMD_RS

/-- How many frames have lost their done bit already, while RDT still stands before them. -/
def Pc.cleared : Pc → Nat
  | .readData _ _ => 1
  | .readDone _ _ _ => 1
  | _ => 0

/-- The receive ring has the unread frames, from the `t`th frame of all on. -/
structure Receiving (l : Link) (d : Intel8254x) (t : Nat) : Prop where
  length : d.receiveRing.length = 16
  rdt : d.rdt = (t + 15) % 16
  rdh : d.rdh = (t + l.unread.length) % 16
  room : l.unread.length ≤ 15
  frames : Ring.Holds Filled d.receiveRing t l.unread
  done : Ring.Holds Ready d.receiveRing (t + d.pc.cleared) (l.unread.drop d.pc.cleared)

/-- What a running read knows. -/
def ReadAt (l : Link) (t : Nat) : Pc → Prop
  | .readHead id len => l.call = some (.read id len)
  | .readTail id len head => l.call = some (.read id len) ∧
      ∃ k ≤ l.unread.length, head = (t + k) % 16 ∧ (l.unread.take k).head? ∈ l.answers
  | .readStatus id len tail =>
      l.call = some (.read id len) ∧ tail = t % 16 ∧ l.unread ≠ []
  | .readData len tail =>
      (∃ id, l.call = some (.read id len)) ∧ tail = t % 16 ∧ l.unread ≠ []
  | .readDone len tail data => (∃ id, l.call = some (.read id len)) ∧ tail = t % 16 ∧
      ∃ frame, l.unread.head? = some frame ∧ data = frame.take len
  | .nextHead => l.call = some .nextRead
  | .nextTail head => l.call = some .nextRead ∧
      ∃ k ≤ l.unread.length, head = (t + k) % 16 ∧ (l.unread.take k).head? ∈ l.answers
  | .nextStatus tail => l.call = some .nextRead ∧ tail = t % 16 ∧ l.unread ≠ []
  | _ => True

/-- What a running write knows. Outside of one the device has sent everything. -/
def WriteAt (l : Link) (d : Intel8254x) : Pc → Prop
  | .writeHead buf => l.call = some (.write buf) ∧ d.tdh = d.tdt ∧ l.unsent = [buf.take 0x3FFF]
  | .writeTail buf head => l.call = some (.write buf) ∧ head = d.tdt ∧ d.tdh = d.tdt ∧
      l.unsent = [buf.take 0x3FFF]
  | .writeFill buf oldTail tail => l.call = some (.write buf) ∧ oldTail = d.tdt ∧
      tail = wrap 16 d.tdt ∧ d.tdh = d.tdt ∧ l.unsent = [buf.take 0x3FFF]
  | .writeNotify count oldTail tail => (∃ buf, l.call = some (.write buf) ∧
      count = min 0x3FFF buf.length) ∧ oldTail = d.tdt ∧ tail = wrap 16 d.tdt ∧ d.tdh = d.tdt ∧
      ∃ frame td, l.unsent = [frame] ∧ d.transmitRing[oldTail]? = some td ∧ Pending td frame
  | .writeWait count oldTail => (∃ buf, l.call = some (.write buf) ∧
      count = min 0x3FFF buf.length) ∧ oldTail < 16 ∧ d.tdt = wrap 16 oldTail ∧
      ((d.tdh = oldTail ∧ ∃ frame td, l.unsent = [frame] ∧ d.transmitRing[oldTail]? = some td ∧
          Pending td frame) ∨
        (d.tdh = d.tdt ∧ l.unsent = [] ∧
          ∃ td, d.transmitRing[oldTail]? = some td ∧ td.status ≠ 0))
  | .idle => l.call = none ∧ d.tdh = d.tdt ∧ l.unsent = []
  | _ => d.tdh = d.tdt ∧ l.unsent = []

structure Transmitting (l : Link) (d : Intel8254x) : Prop where
  length : d.transmitRing.length = 16
  tdt : d.tdt < 16
  run : WriteAt l d d.pc

/-- The rings, the registers and the running call agree with the link. -/
structure Agrees (l : Link) (d : Intel8254x) (t : Nat) : Prop where
  receiving : Receiving l d t
  reading : ReadAt l t d.pc
  current : l.Current
  transmitting : Transmitting l d

theorem wrap_mod (n : Nat) : wrap 16 (n % 16) = (n + 1) % 16 := by
  unfold wrap
  split <;> omega

theorem agrees_init : Agrees .idle init 0 := by
  refine ⟨⟨rfl, rfl, rfl, Nat.zero_le _, Ring.holds_nil, Ring.holds_nil⟩, trivial, ?_, ?_⟩
  · rintro (⟨id, len, h⟩ | h) <;> cases h
  · exact ⟨rfl, by decide, rfl, rfl, rfl⟩

theorem cleared_le (h : ReadAt l t d.pc) : d.pc.cleared ≤ l.unread.length := by
  cases hpc : d.pc with
  | readData len tail =>
    rw [hpc] at h
    exact List.length_pos_iff.mpr h.2.2
  | readDone len tail data =>
    rw [hpc] at h
    obtain ⟨-, -, frame, hhead, -⟩ := h
    obtain ⟨rest, hrest⟩ := List.head?_eq_some_iff.mp hhead
    rw [hrest]
    exact Nat.succ_pos _
  | _ => exact Nat.zero_le _

theorem ReadAt.stored {pc : Pc} {frame : Frame} (h : ReadAt l t pc) :
    ReadAt (l.next 0x3FFF (.stored frame)) t pc := by
  have hseen : ∀ head, (∃ k ≤ l.unread.length, head = (t + k) % 16 ∧
      (l.unread.take k).head? ∈ l.answers) → ∃ k ≤ (l.unread ++ [frame]).length,
      head = (t + k) % 16 ∧ ((l.unread ++ [frame]).take k).head? ∈
        l.answers ++ [(l.unread ++ [frame]).head?] := by
    rintro head ⟨k, hk, hhead, hmem⟩
    refine ⟨k, by rw [List.length_append]; omega, hhead, ?_⟩
    rw [List.take_append_of_le_length hk]
    exact List.mem_append_left _ hmem
  have hmore : l.unread ++ [frame] ≠ [] := List.append_ne_nil_of_right_ne_nil _ (List.cons_ne_nil _ _)
  cases pc with
  | readTail id len head => exact ⟨h.1, hseen head h.2⟩
  | nextTail head => exact ⟨h.1, hseen head h.2⟩
  | readStatus id len tail => exact ⟨h.1, h.2.1, hmore⟩
  | readData len tail => exact ⟨h.1, h.2.1, hmore⟩
  | nextStatus tail => exact ⟨h.1, h.2.1, hmore⟩
  | readDone len tail data =>
    obtain ⟨hcall, htail, first, hfirst, hdata⟩ := h
    exact ⟨hcall, htail, first, by rw [Link.next, List.head?_append, hfirst]; rfl, hdata⟩
  | _ => exact h

/-- The device finds room in the ring, and stores the frame behind the unread ones. -/
theorem Agrees.receive {frame : Frame} {status : UInt8} (h : Agrees l d t)
    (ha : d.receive frame status = some (e, d')) :
    l.Allows 0x3FFF e ∧ Agrees (l.next 0x3FFF e) d' t := by
  obtain ⟨rd, hrd, ha⟩ := Option.bind_eq_some_iff.mp ha
  split at ha
  · rename_i hguard
    obtain ⟨hne, hfits, hstatus⟩ := hguard
    cases ha
    have hr := h.receiving
    have hlen := hr.length
    have hfree : l.unread.length < 15 := by
      by_contra hfull
      have heq : l.unread.length = 15 := Nat.le_antisymm hr.room (by omega)
      rw [hr.rdh, hr.rdt, heq] at hne
      exact hne rfl
    have hcleared := cleared_le h.reading
    have hfilled : Filled ⟨frame ++ rd.buffer.drop frame.length, frame.length, status⟩ frame :=
      ⟨rfl, _, rfl⟩
    have hready : Ready ⟨frame ++ rd.buffer.drop frame.length, frame.length, status⟩ frame := hstatus
    refine ⟨trivial, ⟨?_, hr.rdt, ?_, ?_, ?_, ?_⟩, h.reading.stored, .stored,
      h.transmitting.length, h.transmitting.tdt, ?_⟩
    · exact (List.length_set ..).trans hlen
    · show wrap d.receiveRing.length d.rdh = (t + (l.unread ++ [frame]).length) % 16
      rw [hlen, hr.rdh, wrap_mod, List.length_append]
      rfl
    · show (l.unread ++ [frame]).length ≤ 15
      rw [List.length_append]
      exact hfree
    · have hpush := hr.frames.push (by omega) hfilled
      rw [hlen, ← hr.rdh] at hpush
      exact hpush
    · have hpush := hr.done.push (by rw [List.length_drop]; omega) hready
      rw [hlen, List.length_drop, show t + d.pc.cleared + (l.unread.length - d.pc.cleared) =
        t + l.unread.length by omega, ← hr.rdh] at hpush
      show Ring.Holds Ready _ _ ((l.unread ++ [frame]).drop d.pc.cleared)
      rw [List.drop_append_of_le_length hcleared]
      exact hpush
    · have hrun := h.transmitting.run
      show WriteAt _ _ d.pc
      cases hpc : d.pc <;> rw [hpc] at hrun <;> exact hrun
  · cases ha

/-- The device has a frame to send while a write waits for it, and at no other time. -/
theorem WriteAt.waits {pc : Pc} (h : WriteAt l d pc) (hne : d.tdh ≠ d.tdt) :
    ∃ count oldTail frame td, pc = .writeWait count oldTail ∧ d.tdh = oldTail ∧
      l.unsent = [frame] ∧ d.transmitRing[oldTail]? = some td ∧ Pending td frame := by
  cases pc with
  | writeWait count oldTail =>
    obtain ⟨-, -, -, ⟨hhead, frame, td, hunsent, htd, hpending⟩ | hsent⟩ := h
    · exact ⟨count, oldTail, frame, td, rfl, hhead, hunsent, htd, hpending⟩
    · exact (hne hsent.1).elim
  | writeNotify count oldTail tail => exact (hne h.2.2.2.1).elim
  | writeFill buf oldTail tail => exact (hne h.2.2.2.1).elim
  | writeTail buf head => exact (hne h.2.2.1).elim
  | writeHead buf => exact (hne h.2.1).elim
  | idle => exact (hne h.2.1).elim
  | _ => exact (hne h.1).elim

theorem Agrees.transmit (h : Agrees l d t) (ha : d.transmit = some (e, d')) :
    l.Allows 0x3FFF e ∧ Agrees (l.next 0x3FFF e) d' t := by
  obtain ⟨td, htd, ha⟩ := Option.bind_eq_some_iff.mp ha
  split at ha
  · rename_i hne
    cases ha
    have hr := h.receiving
    have ht := h.transmitting
    obtain ⟨count, oldTail, frame, td', hpc, hhead, hunsent, htd', hpending⟩ := ht.run.waits hne
    rw [hhead, htd'] at htd
    cases htd
    refine ⟨?_, ⟨hr.length, hr.rdt, hr.rdh, hr.room, hr.frames, hr.done⟩, h.reading, h.current,
      (List.length_set ..).trans ht.length, ht.tdt, ?_⟩
    · show l.unsent.head? = some (td.buffer.take td.length)
      rw [hunsent, hpending.data]
      rfl
    · have hrun := ht.run
      show WriteAt _ _ d.pc
      rw [hpc] at hrun ⊢
      obtain ⟨hcall, hold, htdt, -⟩ := hrun
      have hlt : oldTail < d.transmitRing.length := (List.getElem?_eq_some_iff.mp htd').1
      refine ⟨hcall, hold, htdt, .inr ⟨?_, ?_, ?_⟩⟩
      · show wrap d.transmitRing.length d.tdh = d.tdt
        rw [ht.length, hhead, htdt]
      · show l.unsent.tail = []
        rw [hunsent]
        rfl
      · rw [hhead]
        refine ⟨_, List.getElem?_set_self hlt, ?_⟩
        show (if td.command &&& TD_CMD_RS = TD_CMD_RS then td.status ||| TD_DD else td.status) ≠ 0
        rw [if_pos hpending.report, hpending.status]
        decide
  · cases ha

theorem Agrees.begin {call : Call} (h : Agrees l d t) (ha : d.begin call = some (e, d')) :
    l.Allows 0x3FFF e ∧ Agrees (l.next 0x3FFF e) d' t := by
  unfold Intel8254x.begin at ha
  split at ha
  · rename_i hpc
    cases ha
    have hr := h.receiving
    have ht := h.transmitting
    have hdone := hr.done
    have hrun := ht.run
    rw [hpc] at hdone hrun
    obtain ⟨hcall, hhead, hunsent⟩ := hrun
    have hmem : l.unread.head? ∈ [l.unread.head?] := List.mem_singleton_self _
    refine ⟨hcall, ?_⟩
    cases call with
    | read id len =>
      exact ⟨⟨hr.length, hr.rdt, hr.rdh, hr.room, hr.frames, hdone⟩, rfl, fun _ => hmem,
        ht.length, ht.tdt, hhead, hunsent⟩
    | nextRead =>
      exact ⟨⟨hr.length, hr.rdt, hr.rdh, hr.room, hr.frames, hdone⟩, rfl, fun _ => hmem,
        ht.length, ht.tdt, hhead, hunsent⟩
    | write buf =>
      refine ⟨⟨hr.length, hr.rdt, hr.rdh, hr.room, hr.frames, hdone⟩, trivial, ?_,
        ht.length, ht.tdt, rfl, hhead, ?_⟩
      · rintro (⟨id, len, h⟩ | h) <;> cases h
      · show l.unsent ++ [buf.take 0x3FFF] = [buf.take 0x3FFF]
        rw [hunsent, List.nil_append]
  · cases ha

/-- The running call has a next step, which the link has a reason for. -/
def Advances (l : Link) (d : Intel8254x) : Prop :=
  ∃ e d', d.advance = some (e, d') ∧ l.Allows 0x3FFF e ∧ ∃ t, Agrees (l.next 0x3FFF e) d' t

theorem Receiving.tail_eq (hr : Receiving l d t) : wrap d.receiveRing.length d.rdt = t % 16 := by
  rw [hr.length, hr.rdt, wrap_mod]
  omega

/-- The descriptor after RDT is the one of the first unread frame, if there is one. -/
theorem Receiving.first (hr : Receiving l d t) (hu : l.unread ≠ []) (hc : d.pc.cleared = 0) :
    ∃ frame rd, l.unread.head? = some frame ∧ d.receiveRing[t % 16]? = some rd ∧ Filled rd frame ∧
      rd.status &&& RD_DD = RD_DD := by
  obtain ⟨frame, rest, hrest⟩ := List.exists_cons_of_ne_nil hu
  have hframes := hr.frames
  have hdone := hr.done
  rw [hc, hrest] at hdone
  rw [hrest] at hframes
  obtain ⟨rd, hrd, hfilled⟩ := hframes.head
  obtain ⟨rd', hrd', hready⟩ := Ring.Holds.head hdone
  rw [hr.length] at hrd hrd'
  rw [Nat.add_zero, hrd] at hrd'
  cases hrd'
  exact ⟨frame, rd, by rw [hrest]; rfl, hrd, hfilled, hready⟩

/-- A head that was read after RDT tells whether a frame was unread then. -/
theorem ne_head_iff {k : Nat} (hk : k ≤ 15) : t % 16 ≠ (t + k) % 16 ↔ k ≠ 0 := by
  omega

/-- A step that only moves the running call on. -/
theorem Agrees.goto {pc : Pc} (h : Agrees l d t) (hc : pc.cleared = d.pc.cleared)
    (hread : ReadAt l t pc) (hwrite : WriteAt l d pc) : Agrees l { d with pc := pc } t := by
  have hr := h.receiving
  have hdone := hr.done
  rw [← hc] at hdone
  exact ⟨⟨hr.length, hr.rdt, hr.rdh, hr.room, hr.frames, hdone⟩, hread, h.current,
    ⟨h.transmitting.length, h.transmitting.tdt, by cases pc <;> exact hwrite⟩⟩

/-- The end of a call that has left the rings as they were. -/
theorem Agrees.over (h : Agrees l d t) (hc : d.pc.cleared = 0) (hhead : d.tdh = d.tdt)
    (hunsent : l.unsent = []) : Agrees { l with call := none } { d with pc := .idle } t := by
  have hr := h.receiving
  have hdone := hr.done
  rw [hc] at hdone
  refine ⟨⟨hr.length, hr.rdt, hr.rdh, hr.room, hr.frames, hdone⟩, trivial, ?_,
    h.transmitting.length, h.transmitting.tdt, rfl, hhead, hunsent⟩
  rintro (⟨id, len, h⟩ | h) <;> cases h

theorem advance_readHead {id len : Nat} (h : Agrees l d t) (hpc : d.pc = .readHead id len) :
    Advances l d := by
  have hr := h.receiving
  have hrun := h.transmitting.run
  have hcall := h.reading
  rw [hpc] at hrun hcall
  refine ⟨.internal, { d with pc := .readTail id len d.rdh }, ?_, trivial, t,
    h.goto (by rw [hpc]; rfl) ⟨hcall, l.unread.length, Nat.le_refl _, hr.rdh, ?_⟩ hrun⟩
  · simp only [Intel8254x.advance, hpc]
  · rw [List.take_length]
    exact h.current (.inl ⟨id, len, hcall⟩)

theorem advance_readTail {id len head : Nat} (h : Agrees l d t)
    (hpc : d.pc = .readTail id len head) : Advances l d := by
  have hr := h.receiving
  have hrun := h.transmitting.run
  have hread := h.reading
  rw [hpc] at hrun hread
  obtain ⟨hcall, k, hk, rfl, hmem⟩ := hread
  have hne := ne_head_iff (t := t) (Nat.le_trans hk hr.room)
  by_cases hzero : k = 0
  · refine ⟨.read len none (emptyRead id), { d with pc := .idle }, ?_, ⟨id, hcall, ?_, rfl⟩, t,
      h.over (by rw [hpc]; rfl) hrun.1 hrun.2⟩
    · simp only [Intel8254x.advance, hpc, hr.tail_eq]
      rw [if_neg (fun h => hne.mp h hzero)]
    · rw [hzero] at hmem
      exact hmem
  · refine ⟨.internal, { d with pc := .readStatus id len (t % 16) }, ?_, trivial, t,
      h.goto (by rw [hpc]; rfl) ⟨hcall, rfl, ?_⟩ hrun⟩
    · simp only [Intel8254x.advance, hpc, hr.tail_eq]
      rw [if_pos (hne.mpr hzero)]
    · rintro hnil
      rw [hnil] at hk
      exact hzero (Nat.le_zero.mp hk)

theorem advance_readStatus {id len tail : Nat} (h : Agrees l d t)
    (hpc : d.pc = .readStatus id len tail) : Advances l d := by
  have hr := h.receiving
  have ht := h.transmitting
  have hrun := ht.run
  have hread := h.reading
  have hdone := hr.done
  rw [hpc] at hrun hread hdone
  obtain ⟨hcall, rfl, hu⟩ := hread
  obtain ⟨frame, rd, hhead, hrd, hfilled, hready⟩ := hr.first hu (by rw [hpc]; rfl)
  obtain ⟨rest, hrest⟩ := List.head?_eq_some_iff.mp hhead
  refine ⟨.internal, { d with
      receiveRing := d.receiveRing.set (t % 16) { rd with status := 0 }
      pc := .readData len (t % 16) }, ?_, trivial, t, ⟨?_, hr.rdt, hr.rdh, hr.room, ?_, ?_⟩,
    ⟨⟨id, hcall⟩, rfl, hu⟩, h.current, ht.length, ht.tdt, hrun⟩
  · simp only [Intel8254x.advance, hpc, hrd, Option.bind_eq_bind, Option.bind_some]
    rw [if_pos hready]
  · exact (List.length_set ..).trans hr.length
  · have hframes := hr.frames
    rw [hrest] at hframes
    have hset := hframes.set_head (a := { rd with status := 0 }) hfilled
    rw [hr.length] at hset
    show Ring.Holds Filled _ t l.unread
    rw [hrest]
    exact hset
  · show Ring.Holds Ready _ (t + 1) (l.unread.drop 1)
    rw [hrest] at hdone ⊢
    have hpop := hdone.pop (a := { rd with status := 0 })
    rw [hr.length] at hpop
    exact hpop

theorem advance_readData {len tail : Nat} (h : Agrees l d t) (hpc : d.pc = .readData len tail) :
    Advances l d := by
  have hr := h.receiving
  have hrun := h.transmitting.run
  have hread := h.reading
  rw [hpc] at hrun hread
  obtain ⟨hcall, rfl, hu⟩ := hread
  obtain ⟨frame, rest, hrest⟩ := List.exists_cons_of_ne_nil hu
  have hframes := hr.frames
  rw [hrest] at hframes
  obtain ⟨rd, hrd, hlength, tail, hbuffer⟩ := hframes.head
  rw [hr.length] at hrd
  have hdata : rd.buffer.take rd.length = frame := by
    rw [hlength, hbuffer, List.take_left]
  refine ⟨.internal, { d with
      pc := .readDone len (t % 16) ((rd.buffer.take rd.length).take len) }, ?_, trivial, t,
    h.goto (by rw [hpc]; rfl) ⟨hcall, rfl, frame, ?_, by rw [hdata]⟩ hrun⟩
  · simp only [Intel8254x.advance, hpc, hrd, Option.bind_eq_bind, Option.bind_some]
    rw [if_pos]
    rw [hlength, hbuffer, List.length_append]
    exact Nat.le_add_right _ _
  · show l.unread.head? = some frame
    rw [hrest]
    rfl

/-- RDT moves over the frame that was copied. -/
theorem advance_readDone {len tail : Nat} {data : List UInt8} (h : Agrees l d t)
    (hpc : d.pc = .readDone len tail data) : Advances l d := by
  have hr := h.receiving
  have ht := h.transmitting
  have hrun := ht.run
  have hread := h.reading
  have hdone := hr.done
  have hframes := hr.frames
  have hroom := hr.room
  have hrdh := hr.rdh
  rw [hpc] at hrun hread hdone
  obtain ⟨⟨id, hcall⟩, rfl, frame, hhead, hdata⟩ := hread
  obtain ⟨rest, hrest⟩ := List.head?_eq_some_iff.mp hhead
  rw [hrest] at hframes hdone hroom hrdh
  rw [List.length_cons] at hroom hrdh
  refine ⟨.read len (some data) (.ok data.length), { d with rdt := t % 16, pc := .idle }, ?_,
    ⟨id, frame, hcall, hhead, hdata, rfl⟩, t + 1, ⟨hr.length, ?_, ?_, ?_, ?_, ?_⟩, trivial, ?_,
    ht.length, ht.tdt, rfl, hrun⟩
  · simp only [Intel8254x.advance, hpc]
  · show t % 16 = (t + 1 + 15) % 16
    omega
  · show d.rdh = (t + 1 + l.unread.tail.length) % 16
    rw [hrest, hrdh, List.tail_cons]
    congr 1
    omega
  · show l.unread.tail.length ≤ 15
    rw [hrest]
    exact Nat.le_of_succ_le hroom
  · show Ring.Holds Filled d.receiveRing (t + 1) l.unread.tail
    rw [hrest]
    exact hframes.tail
  · show Ring.Holds Ready d.receiveRing (t + 1) l.unread.tail
    rw [hrest]
    exact hdone
  · rintro (⟨id, len, h⟩ | h) <;> cases h

theorem advance_nextHead (h : Agrees l d t) (hpc : d.pc = .nextHead) : Advances l d := by
  have hr := h.receiving
  have hrun := h.transmitting.run
  have hcall := h.reading
  rw [hpc] at hrun hcall
  refine ⟨.internal, { d with pc := .nextTail d.rdh }, ?_, trivial, t,
    h.goto (by rw [hpc]; rfl) ⟨hcall, l.unread.length, Nat.le_refl _, hr.rdh, ?_⟩ hrun⟩
  · simp only [Intel8254x.advance, hpc]
  · rw [List.take_length]
    exact h.current (.inr hcall)

theorem advance_nextTail {head : Nat} (h : Agrees l d t) (hpc : d.pc = .nextTail head) :
    Advances l d := by
  have hr := h.receiving
  have hrun := h.transmitting.run
  have hread := h.reading
  rw [hpc] at hrun hread
  obtain ⟨hcall, k, hk, rfl, hmem⟩ := hread
  have hne := ne_head_iff (t := t) (Nat.le_trans hk hr.room)
  by_cases hzero : k = 0
  · refine ⟨.nextRead 0, { d with pc := .idle }, ?_, ⟨hcall, none, ?_, rfl⟩, t,
      h.over (by rw [hpc]; rfl) hrun.1 hrun.2⟩
    · simp only [Intel8254x.advance, hpc, hr.tail_eq]
      rw [if_neg (fun h => hne.mp h hzero)]
    · rw [hzero] at hmem
      exact hmem
  · refine ⟨.internal, { d with pc := .nextStatus (t % 16) }, ?_, trivial, t,
      h.goto (by rw [hpc]; rfl) ⟨hcall, rfl, ?_⟩ hrun⟩
    · simp only [Intel8254x.advance, hpc, hr.tail_eq]
      rw [if_pos (hne.mpr hzero)]
    · rintro hnil
      rw [hnil] at hk
      exact hzero (Nat.le_zero.mp hk)

theorem advance_nextStatus {tail : Nat} (h : Agrees l d t) (hpc : d.pc = .nextStatus tail) :
    Advances l d := by
  have hrun := h.transmitting.run
  have hread := h.reading
  rw [hpc] at hrun hread
  obtain ⟨hcall, rfl, hu⟩ := hread
  obtain ⟨frame, rd, hhead, hrd, hfilled, hready⟩ := h.receiving.first hu (by rw [hpc]; rfl)
  refine ⟨.nextRead rd.length, { d with pc := .idle }, ?_, ⟨hcall, some frame, ?_, hfilled.1⟩, t,
    h.over (by rw [hpc]; rfl) hrun.1 hrun.2⟩
  · simp only [Intel8254x.advance, hpc, hrd, Option.bind_eq_bind, Option.bind_some]
    rw [if_pos hready]
  · rw [← hhead]
    exact h.current (.inr hcall)

theorem wrap_ne {n : Nat} (hn : n < 16) : wrap 16 n ≠ n := by
  unfold wrap
  split <;> omega

theorem wrap_lt (n : Nat) : wrap 16 n < 16 := by
  unfold wrap
  split <;> omega

theorem advance_writeHead {buf : List UInt8} (h : Agrees l d t) (hpc : d.pc = .writeHead buf) :
    Advances l d := by
  have hrun := h.transmitting.run
  rw [hpc] at hrun
  obtain ⟨hcall, hhead, hunsent⟩ := hrun
  refine ⟨.internal, { d with pc := .writeTail buf d.tdh }, ?_, trivial, t,
    h.goto (by rw [hpc]; rfl) trivial ⟨hcall, hhead, hhead, hunsent⟩⟩
  simp only [Intel8254x.advance, hpc]

theorem advance_writeTail {buf : List UInt8} {head : Nat} (h : Agrees l d t)
    (hpc : d.pc = .writeTail buf head) : Advances l d := by
  have ht := h.transmitting
  have hrun := ht.run
  rw [hpc] at hrun
  obtain ⟨hcall, rfl, hhead, hunsent⟩ := hrun
  refine ⟨.internal, { d with pc := .writeFill buf d.tdt (wrap 16 d.tdt) }, ?_, trivial, t,
    h.goto (by rw [hpc]; rfl) trivial ⟨hcall, rfl, rfl, hhead, hunsent⟩⟩
  simp only [Intel8254x.advance, hpc, ht.length]
  rw [if_pos (wrap_ne ht.tdt)]

theorem advance_writeFill {buf : List UInt8} {oldTail tail : Nat} (h : Agrees l d t)
    (hpc : d.pc = .writeFill buf oldTail tail) : Advances l d := by
  have hr := h.receiving
  have ht := h.transmitting
  have hrun := ht.run
  have hdone := hr.done
  rw [hpc] at hrun hdone
  obtain ⟨hcall, rfl, htail, hhead, hunsent⟩ := hrun
  have hlt : d.tdt < d.transmitRing.length := by
    rw [ht.length]
    exact ht.tdt
  let length := min buf.length 0x3FFF
  let td := d.transmitRing[d.tdt]
  let filled : Td :=
    { td with
      buffer := buf.take length ++ td.buffer.drop length
      length
      cso := 0
      command := TD_CMD_EOP ||| TD_CMD_IFCS ||| TD_CMD_RS
      status := 0
      css := 0
      special := 0 }
  refine ⟨.internal, { d with
      transmitRing := d.transmitRing.set d.tdt filled
      pc := .writeNotify length d.tdt tail }, ?_, trivial, t,
    ⟨hr.length, hr.rdt, hr.rdh, hr.room, hr.frames, hdone⟩, trivial, h.current,
    (List.length_set ..).trans ht.length, ht.tdt, ⟨buf, hcall, Nat.min_comm _ _⟩, rfl, htail, hhead,
    buf.take 0x3FFF, filled, hunsent, List.getElem?_set_self hlt, ?_, rfl, ?_⟩
  · simp only [Intel8254x.advance, hpc, List.getElem?_eq_getElem hlt, Option.bind_eq_bind,
      Option.bind_some]
    rfl
  · -- A buffer that is longer is cut.
    show (buf.take length ++ td.buffer.drop length).take length = buf.take 0x3FFF
    have hlen : (buf.take length).length = length := by
      rw [List.length_take]
      exact Nat.min_eq_left (Nat.min_le_left _ _)
    rw [List.take_append_of_le_length (Nat.le_of_eq hlen.symm), List.take_take, Nat.min_self]
    rcases Nat.le_total buf.length 0x3FFF with hle | hle
    · rw [List.take_of_length_le hle]
      exact List.take_of_length_le (Nat.le_min.mpr ⟨Nat.le_refl _, hle⟩)
    · exact congrArg buf.take (Nat.min_eq_right hle)
  · show (TD_CMD_EOP ||| TD_CMD_IFCS ||| TD_CMD_RS) &&& TD_CMD_RS = TD_CMD_RS
    decide

theorem advance_writeNotify {count oldTail tail : Nat} (h : Agrees l d t)
    (hpc : d.pc = .writeNotify count oldTail tail) : Advances l d := by
  have hr := h.receiving
  have ht := h.transmitting
  have hrun := ht.run
  have hdone := hr.done
  rw [hpc] at hrun hdone
  obtain ⟨hcall, rfl, rfl, hhead, frame, td, hunsent, htd, hpending⟩ := hrun
  refine ⟨.internal, { d with tdt := wrap 16 d.tdt, pc := .writeWait count d.tdt }, ?_, trivial, t,
    ⟨hr.length, hr.rdt, hr.rdh, hr.room, hr.frames, hdone⟩, trivial, h.current,
    ht.length, wrap_lt _, hcall, ht.tdt, rfl, .inl ⟨hhead, frame, td, hunsent, htd, hpending⟩⟩
  simp only [Intel8254x.advance, hpc]

/-- The status of the descriptor changes no earlier than its frame is on the wire. -/
theorem advance_writeWait {count oldTail : Nat} (h : Agrees l d t)
    (hpc : d.pc = .writeWait count oldTail) : Advances l d := by
  have ht := h.transmitting
  have hrun := ht.run
  rw [hpc] at hrun
  obtain ⟨⟨buf, hcall, hcount⟩, hold, htdt, hsent⟩ := hrun
  have hlt : oldTail < d.transmitRing.length := by
    rw [ht.length]
    exact hold
  by_cases hstatus : d.transmitRing[oldTail].status = 0
  · refine ⟨.internal, d, ?_, trivial, t, h⟩
    simp only [Intel8254x.advance, hpc, List.getElem?_eq_getElem hlt, Option.bind_eq_bind,
      Option.bind_some, if_pos hstatus]
  · obtain ⟨-, frame, td, -, htd, hpending⟩ | ⟨hhead, hunsent, -⟩ := hsent
    · rw [List.getElem?_eq_getElem hlt] at htd
      cases htd
      exact (hstatus hpending.status).elim
    · refine ⟨.write count, { d with pc := .idle }, ?_, ⟨buf, hcall, hcount⟩, t,
        h.over (by rw [hpc]; rfl) hhead hunsent⟩
      simp only [Intel8254x.advance, hpc, List.getElem?_eq_getElem hlt, Option.bind_eq_bind,
        Option.bind_some, if_neg hstatus]

theorem advances (h : Agrees l d t) (hpc : d.pc ≠ .idle) : Advances l d := by
  cases hpc' : d.pc with
  | idle => exact (hpc hpc').elim
  | readHead id len => exact advance_readHead h hpc'
  | readTail id len head => exact advance_readTail h hpc'
  | readStatus id len tail => exact advance_readStatus h hpc'
  | readData len tail => exact advance_readData h hpc'
  | readDone len tail data => exact advance_readDone h hpc'
  | nextHead => exact advance_nextHead h hpc'
  | nextTail head => exact advance_nextTail h hpc'
  | nextStatus tail => exact advance_nextStatus h hpc'
  | writeHead buf => exact advance_writeHead h hpc'
  | writeTail buf head => exact advance_writeTail h hpc'
  | writeFill buf oldTail tail => exact advance_writeFill h hpc'
  | writeNotify count oldTail tail => exact advance_writeNotify h hpc'
  | writeWait count oldTail => exact advance_writeWait h hpc'

theorem agrees_act (h : ∃ t, Agrees l d t) (ha : Chosen Intel8254x.act d e d') :
    l.Allows 0x3FFF e ∧ ∃ t, Agrees (l.next 0x3FFF e) d' t := by
  obtain ⟨t, h⟩ := h
  obtain ⟨choice, ha⟩ := ha
  cases choice with
  | call call =>
    obtain ⟨hallows, h⟩ := h.begin ha
    exact ⟨hallows, t, h⟩
  | driver =>
    have hpc : d.pc ≠ .idle := by
      intro hpc
      simp only [Intel8254x.act, Intel8254x.advance, hpc] at ha
      cases ha
    obtain ⟨e', d'', hadvance, hallows, h⟩ := advances h hpc
    cases hadvance.symm.trans ha
    exact ⟨hallows, h⟩
  | receive frame status =>
    obtain ⟨hallows, h⟩ := h.receive ha
    exact ⟨hallows, t, h⟩
  | transmit =>
    obtain ⟨hallows, h⟩ := h.transmit ha
    exact ⟨hallows, t, h⟩

theorem agrees_run {es : List Event} (h : Run (Chosen Intel8254x.act) init es d) :
    Each (Link.next 0x3FFF) (Link.Allows 0x3FFF) .idle es ∧
      ∃ t, Agrees (es.foldl (Link.next 0x3FFF) .idle) d t :=
  monitored (R := fun l d => ∃ t, Agrees l d t) (fun _ _ _ _ => agrees_act) h ⟨0, agrees_init⟩

theorem Agrees.not_ownsReceive {i : Nat} (h : Agrees l d t) (hi : d.receiveUse = some i) :
    ¬ d.OwnsReceive i := by
  have hr := h.receiving
  have hread := h.reading
  have hroom := hr.room
  have hslot : i = t % 16 ∧ 0 < l.unread.length := by
    unfold Intel8254x.receiveUse at hi
    split at hi
    · rename_i id len tail hpc
      rw [hpc] at hread
      cases hi
      exact ⟨hread.2.1, List.length_pos_iff.mpr hread.2.2⟩
    · rename_i len tail hpc
      rw [hpc] at hread
      cases hi
      exact ⟨hread.2.1, List.length_pos_iff.mpr hread.2.2⟩
    · rename_i tail hpc
      rw [hpc] at hread
      cases hi
      exact ⟨hread.2.1, List.length_pos_iff.mpr hread.2.2⟩
    · cases hi
  rintro ⟨k, hk, hik⟩
  rw [hr.length, hr.rdt, hr.rdh] at hk
  rw [hr.length, hr.rdh] at hik
  omega

theorem waitsOn {count oldTail : Nat} (hpc : d.pc = .writeWait count oldTail) :
    d.WaitsOn oldTail := by
  refine ⟨⟨count, hpc⟩, ?_⟩
  intro e d' ha
  simp only [Intel8254x.advance, hpc] at ha
  obtain ⟨td, -, ha⟩ := Option.bind_eq_some_iff.mp ha
  split at ha <;> cases ha <;> rfl

/-- A call that is at a transmit descriptor of the device waits for the device. -/
theorem Agrees.waits_of_ownsTransmit {i : Nat} (h : Agrees l d t) (hi : d.transmitUse = some i)
    (howns : d.OwnsTransmit i) : d.WaitsOn i := by
  have hrun := h.transmitting.run
  unfold Intel8254x.transmitUse at hi
  split at hi
  · rename_i buf oldTail tail hpc
    rw [hpc] at hrun
    obtain ⟨k, hk, -⟩ := howns
    rw [hrun.2.2.2.1, Nat.add_sub_cancel_left, Nat.mod_self] at hk
    exact (Nat.not_lt_zero _ hk).elim
  · rename_i count oldTail hpc
    cases hi
    exact waitsOn hpc
  · cases hi

/-- A write that waits returns as soon as the device has nothing more to send. -/
theorem write_ends {es : List Event} {count oldTail : Nat}
    (h : Run (Chosen Intel8254x.act) init es d) (hpc : d.pc = .writeWait count oldTail)
    (hhead : d.tdh = d.tdt) : ∃ d', d.advance = some (.write count, d') := by
  obtain ⟨-, t, hagrees⟩ := agrees_run h
  have hrun := hagrees.transmitting.run
  rw [hpc] at hrun
  obtain ⟨-, hold, htdt, ⟨hsame, -⟩ | ⟨-, -, td, htd, hstatus⟩⟩ := hrun
  · exact (wrap_ne hold (htdt.symm.trans (hhead.symm.trans hsame))).elim
  · refine ⟨{ d with pc := .idle }, ?_⟩
    simp only [Intel8254x.advance, hpc, htd, Option.bind_eq_bind, Option.bind_some,
      if_neg hstatus]

/-- Whatever the driver and the device do in turn, the rings carry every frame once and in order,
the answers of the calls are those of the two queues, the driver keeps off the descriptors of the
device but for the status that a write waits for, and it never leaves a ring or a buffer. -/
theorem rings_carry_every_frame {es : List Event} (h : Run (Chosen Intel8254x.act) init es d) :
    (∃ frames unread, stored es = frames ++ unread ∧
      List.Forall₂ (fun frame r => r.2 = frame.take r.1) frames (reads es)) ∧
    (∃ unsent, (written es).map (·.take 0x3FFF) = sent es ++ unsent ∧
      (d.pc = .idle → unsent = [])) ∧
    Each (Link.next 0x3FFF) (Link.Allows 0x3FFF) .idle es ∧
    (∀ i, d.receiveUse = some i → ¬ d.OwnsReceive i) ∧
    (∀ i, d.transmitUse = some i → d.OwnsTransmit i → d.WaitsOn i) ∧
    (d.pc ≠ .idle → d.advance.isSome) := by
  obtain ⟨hall, t, hagrees⟩ := agrees_run h
  refine ⟨?_, ?_, hall, fun i => hagrees.not_ownsReceive, fun i => hagrees.waits_of_ownsTransmit, ?_⟩
  · obtain ⟨frames, heq, hreads⟩ := Link.received hall
    exact ⟨frames, _, heq, hreads⟩
  · refine ⟨_, Link.transmitted hall, ?_⟩
    intro hpc
    have hrun := hagrees.transmitting.run
    rw [hpc] at hrun
    exact hrun.2.2
  · intro hpc
    obtain ⟨e, d', hadvance, -⟩ := advances hagrees hpc
    rw [hadvance]
    rfl

/-- A frame of three bytes is read into a buffer of two, and one of two bytes is written. -/
theorem rings_carry_two_frames : ∃ es d, Run (Chosen Intel8254x.act) init es d ∧
    stored es = [[1, 2, 3]] ∧ reads es = [(2, [1, 2])] ∧ sent es = [[4, 5]] ∧
    ∃ frames unread, stored es = frames ++ unread ∧
      List.Forall₂ (fun frame r => r.2 = frame.take r.1) frames (reads es) := by
  let es : List Event := [.stored [1, 2, 3], .called (.read 0 2), .internal, .internal, .internal,
    .internal, .read 2 (some [1, 2]) (.ok 2), .called (.write [4, 5]), .internal, .internal,
    .internal, .internal, .internal, .sent [4, 5], .write 2]
  have hplay : (play Intel8254x.act init [.receive [1, 2, 3] 1, .call (.read 0 2), .driver, .driver,
      .driver, .driver, .driver, .call (.write [4, 5]), .driver, .driver, .driver, .driver, .driver,
      .transmit, .driver]).map Prod.fst = some es := by decide +kernel
  obtain ⟨d, hrun⟩ := run_of_play hplay
  exact ⟨es, d, hrun, rfl, rfl, rfl, (rings_carry_every_frame hrun).1⟩

/-- A write has moved TDT over its descriptor, and reads the status in it before the device has sent
the frame. -/
theorem status_of_owned_read : ∃ es d, Run (Chosen Intel8254x.act) init es d ∧
    d.transmitUse = some 0 ∧ d.OwnsTransmit 0 ∧ d.advance = some (.internal, d) := by
  have hplay : (play Intel8254x.act init [.call (.write [4, 5]), .driver, .driver, .driver,
      .driver]).isSome := by decide +kernel
  obtain ⟨⟨es, d⟩, h⟩ := Option.isSome_iff_exists.mp hplay
  refine ⟨es, d, run_of_play_eq h, ?_⟩
  cases h
  exact ⟨rfl, ⟨0, by decide +kernel, rfl⟩, rfl⟩

end Origel.Drivers.E1000d
