import Origel.Lib.Run
import Origel.Numbers

/-! What a network card and its driver are for: two queues of frames, one in each direction, that
the calls of the driver and the device work on at the same time. -/
namespace Origel.Drivers

open Origel.Lib

abbrev Frame := List UInt8

/-- The calls of a driver. A buffer to fill is given by its length. -/
inductive Call where
  | read (id len : Nat)
  | nextRead
  | write (buf : List UInt8)
  deriving DecidableEq, Repr

/-- What a read without a frame returns. -/
def emptyRead (id : Nat) : Except Nat Nat :=
  if id &&& O_NONBLOCK = O_NONBLOCK then .ok 0 else .error EWOULDBLOCK

/-- What is seen of a driver and its device from outside. A read that takes a frame puts `data` into
the buffer of its caller, which has `len` bytes. -/
inductive Event where
  | internal
  | stored (frame : Frame)
  | sent (frame : Frame)
  | called (call : Call)
  | read (len : Nat) (data : Option (List UInt8)) (result : Except Nat Nat)
  | nextRead (length : Nat)
  | write (count : Nat)
  deriving DecidableEq

/-- The two queues, the call that is running, and what the first unread frame has been since that
call began. -/
structure Link where
  unread : List Frame
  unsent : List Frame
  call : Option Call
  answers : List (Option Frame)

namespace Link

def idle : Link := ⟨[], [], none, []⟩

/-- What an event does to the link. A frame that is written is cut to `limit` bytes. -/
def next (limit : Nat) (l : Link) : Event → Link
  | .internal => l
  | .stored frame =>
    { l with unread := l.unread ++ [frame], answers := l.answers ++ [(l.unread ++ [frame]).head?] }
  | .sent _ => { l with unsent := l.unsent.tail }
  | .called (.write buf) =>
    { l with call := some (.write buf), unsent := l.unsent ++ [buf.take limit] }
  | .called call => { l with call := some call, answers := [l.unread.head?] }
  | .read _ (some _) _ => { l with call := none, unread := l.unread.tail }
  | .read _ none _ => { l with call := none }
  | .nextRead _ => { l with call := none }
  | .write _ => { l with call := none }

/-- The events that the link has a reason for. The answer of a call is that of an instant between
its begin and its end. -/
def Allows (limit : Nat) (l : Link) : Event → Prop
  | .internal => True
  | .stored _ => True
  | .sent frame => l.unsent.head? = some frame
  | .called _ => l.call = none
  | .read len (some data) result => ∃ id frame, l.call = some (.read id len) ∧
      l.unread.head? = some frame ∧ data = frame.take len ∧ result = .ok data.length
  | .read len none result => ∃ id, l.call = some (.read id len) ∧ none ∈ l.answers ∧
      result = emptyRead id
  | .nextRead length => l.call = some .nextRead ∧
      ∃ answer ∈ l.answers, length = (answer.map List.length).getD 0
  | .write count => ∃ buf, l.call = some (.write buf) ∧ count = min limit buf.length

/-- The first unread frame is one of the answers of a running read. -/
def Current (l : Link) : Prop :=
  (∃ id len, l.call = some (.read id len)) ∨ l.call = some .nextRead →
    l.unread.head? ∈ l.answers

theorem Current.stored {limit : Nat} {l : Link} {frame : Frame} :
    Current (l.next limit (.stored frame)) :=
  fun _ => List.mem_append_right _ (List.mem_singleton_self _)

end Link

/-- The frames that the device has stored. -/
def stored : List Event → List Frame
  | [] => []
  | .stored frame :: es => frame :: stored es
  | _ :: es => stored es

/-- The frames that the device has put on the wire. -/
def sent : List Event → List Frame
  | [] => []
  | .sent frame :: es => frame :: sent es
  | _ :: es => sent es

/-- The buffers that writes were called with. -/
def written : List Event → List (List UInt8)
  | [] => []
  | .called (.write buf) :: es => buf :: written es
  | _ :: es => written es

/-- What the reads that took a frame returned, each with the length of its buffer. -/
def reads : List Event → List (Nat × List UInt8)
  | [] => []
  | .read len (some data) _ :: es => (len, data) :: reads es
  | _ :: es => reads es

namespace Link

variable {limit : Nat} {l : Link} {es : List Event}

/-- Every frame stored is returned once, in order, or still unread. -/
theorem received (h : Each (next limit) (Allows limit) l es) :
    ∃ frames, l.unread ++ stored es = frames ++ (es.foldl (next limit) l).unread ∧
      List.Forall₂ (fun frame r => r.2 = frame.take r.1) frames (reads es) := by
  induction es generalizing l with
  | nil => exact ⟨[], List.append_nil _, .nil⟩
  | cons e es ih =>
    obtain ⟨frames, heq, hall⟩ := ih h.2
    cases e with
    | stored frame => exact ⟨frames, (List.append_assoc _ [frame] _).symm.trans heq, hall⟩
    | called call => cases call <;> exact ⟨frames, heq, hall⟩
    | read len data result =>
      cases data with
      | none => exact ⟨frames, heq, hall⟩
      | some data =>
        obtain ⟨id, frame, -, hhead, hdata, -⟩ := h.1
        obtain ⟨rest, hrest⟩ := List.head?_eq_some_iff.mp hhead
        refine ⟨frame :: frames, ?_, .cons hdata hall⟩
        have htail : (next limit l (.read len (some data) result)).unread = rest := by
          rw [next, hrest]
          rfl
        rw [htail] at heq
        rw [hrest]
        exact congrArg (frame :: ·) heq
    | _ => exact ⟨frames, heq, hall⟩

/-- Every buffer written is sent once, in order, or still to be sent. -/
theorem transmitted (h : Each (next limit) (Allows limit) l es) :
    l.unsent ++ (written es).map (·.take limit) =
      sent es ++ (es.foldl (next limit) l).unsent := by
  induction es generalizing l with
  | nil => exact List.append_nil _
  | cons e es ih =>
    have heq := ih h.2
    cases e with
    | sent frame =>
      obtain ⟨rest, hrest⟩ := List.head?_eq_some_iff.mp h.1
      have htail : (next limit l (.sent frame)).unsent = rest := by
        rw [next, hrest]
        rfl
      rw [htail] at heq
      rw [hrest]
      exact congrArg (frame :: ·) heq
    | called call =>
      cases call with
      | write buf => exact (List.append_assoc _ [buf.take limit] _).symm.trans heq
      | _ => exact heq
    | read len data result => cases data <;> exact heq
    | _ => exact heq

end Link

end Origel.Drivers
