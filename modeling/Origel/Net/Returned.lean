import Origel.Net.Streams

/-! What the reads of a connection have returned is what the replies to them carry. -/
namespace Origel.Net.Tcp

open Origel.Lib Origel.Daemon
open Origel.Kernel.UserScheme (Packet mux)

variable {dials : Handle → Prop} {p : Packet} {parent : Option Handle} {h h' : Handle} {ip : Ipv4}
  {tcp : Net.Tcp} {draw : Draws} {id : Nat}

namespace Handle

/-- A read gives its caller what joins the history. -/
theorem read_returned (h : Handle) (len : Nat) :
    (h.read len).1.history.returned = h.history.returned ++ (h.read len).2.2 := by
  unfold Handle.read
  split
  · simp
  · split
    · rfl
    · split <;> simp

/-- A read that blocks returns no bytes. -/
theorem read_blocked {len : Nat} (hlen : len < 2 ^ 63)
    (hb : mux (h.read len).2.1 = mux (.error EWOULDBLOCK)) : (h.read len).2.2 = [] := by
  unfold Handle.read at hb ⊢
  split
  · rfl
  next hconn =>
    rw [if_neg hconn] at hb
    split
    next ip tcp data hdata =>
      have hle : (copied len tcp.data).length ≤ len := List.length_take_le _ _
      simp only [hdata] at hb
      have hb : (copied len tcp.data).length = 2 ^ 64 - 41 := hb
      omega
    · split <;> rfl

theorem serve_returned : (h.serve id ip tcp draw).handle.history.returned =
    h.history.returned ++ (h.serve id ip tcp draw).replies.flatMap Reply.bytes := by
  have hreplies : (h.serve id ip tcp draw).replies = (h.receive ip tcp).handle.serveReads.2 ++
      ((h.receive ip tcp).handle.serveReads.1.answerWrite draw).2.1 ++
      notices (h.serve id ip tcp draw).handle.events id
        ((h.serve id ip tcp draw).handle.data.map fun e => e.2.data) := rfl
  have hnotices : ∀ events data, (notices events id data).flatMap Reply.bytes = [] := by
    intro events data
    unfold notices
    split
    · split <;> rfl
    · rfl
  have hread : (h.receive ip tcp).handle.serveReads.1.history.returned =
      h.history.returned ++ (h.receive ip tcp).handle.serveReads.2.flatMap Reply.bytes := by
    rw [← (receive_kept h ip tcp).2.2.2.2.2.2.2]
    rfl
  rw [hreplies, List.flatMap_append, List.flatMap_append, hnotices, List.append_nil, serve_handle]
  rcases answerWrite_cases (h.receive ip tcp).handle.serveReads.1 draw with
    ⟨he, -⟩ | ⟨q, todo, n, a, sent, -, -, he⟩
  · rw [he, hread]
    simp
  · rw [he]
    simpa [advance] using hread

end Handle

theorem Request.returned (hr : Request p h h') (hm : method p.a ≠ some .read) :
    h'.history.returned = h.history.returned := by
  cases hr with
  | read hread => exact absurd hread hm
  | _ => rfl

theorem Made.returned (hm : Made dials parent h) : h.history.returned = [] := by
  cases hm <;> rfl

namespace Tcpd

variable {s : Tcpd} {e : Env} {event : Event} {events : List Event}

theorem park_history (hp : park p h = some h') : h'.history = h.history := by
  unfold park at hp
  split at hp <;> cases hp <;> rfl

/-- The replies that an event gives to the reads of a handle. -/
def readReplies (s : Tcpd) (id : Nat) : Event → List Reply
  | .request e p =>
    if method p.a = some .read ∧ p.b = id then
      (s.schemeEvent e p).schemeFile.drop s.schemeFile.length
    else []
  | .segment ip tcp draw =>
    match s.handles.entry id with
    | some h =>
      if h.state ≠ .Listen ∧ h.matchesSegment ip tcp then (h.serve id ip tcp (draw id)).replies else []
    | none => []

/-- Those that a run gives. -/
def readRepliesOver (s : Tcpd) (id : Nat) : List Event → List Reply
  | [] => []
  | event :: events => s.readReplies id event ++ (s.step event).readRepliesOver id events

/-- A buffer that a read is given is in memory. -/
def Buffered : Event → Prop
  | .request _ p => method p.a = some .read → p.d < 2 ^ 63
  | .segment _ _ _ => True

theorem handle_read (hm : method p.a = some .read) : (scheme e).handle e.memory s p = read s p.b p.d := by
  simp only [SchemeMut.handle, hm]
  rfl

/-- A read that is answered gives its caller what joins the history, and one that is parked nothing. -/
theorem returned_read (hm : method p.a = some .read) (hd : p.d < 2 ^ 63)
    (hh : s.handles.entry p.b = some h) (hh' : (s.schemeEvent e p).handles.entry p.b = some h') :
    h'.history.returned =
      h.history.returned ++ (s.readReplies p.b (.request e p)).flatMap Reply.bytes := by
  have hread : read s p.b p.d =
      ⟨s.modify p.b fun h => (h.read p.d).1, (h.read p.d).2.1, (h.read p.d).2.2⟩ := by rw [read, hh]
  have hentry : (s.handles.modify p.b fun h => (h.read p.d).1).entry p.b = some (h.read p.d).1 := by
    rw [Table.entry_modify_self, hh]
    rfl
  rw [readReplies, if_pos ⟨hm, rfl⟩]
  unfold schemeEvent at hh' ⊢
  rw [handle_read hm, hread] at hh' ⊢
  dsimp only [modify] at hh' ⊢
  by_cases hb : mux (h.read p.d).2.1 = mux (.error EWOULDBLOCK)
  · have hbytes := Handle.read_blocked hd hb
    have hpark : park p (h.read p.d).1 =
        some { (h.read p.d).1 with todoRead := (h.read p.d).1.todoRead ++ [p] } := by rw [park, hm]
    rw [if_pos hb] at hh' ⊢
    simp only [hentry, hpark] at hh' ⊢
    rw [Table.entry_modify_self, hentry] at hh'
    cases hh'
    simp [Handle.read_returned, hbytes]
  · rw [if_neg hb] at hh' ⊢
    dsimp only [reply] at hh' ⊢
    rw [hentry] at hh'
    cases hh'
    simp [Handle.read_returned]

/-- What has been returned grows by what the replies to the reads of a handle carry. -/
theorem returned_step (hb : Buffered event) (hh : s.handles.entry id = some h)
    (hh' : (s.step event).handles.entry id = some h') :
    h'.history.returned = h.history.returned ++ (s.readReplies id event).flatMap Reply.bytes := by
  cases event with
  | request e p =>
    by_cases hread : method p.a = some .read ∧ p.b = id
    · obtain ⟨hm, rfl⟩ := hread
      exact returned_read hm (hb hm) hh hh'
    · rw [readReplies, if_neg hread, List.flatMap_nil, List.append_nil]
      rcases entry_schemeEvent hh' with ⟨g, hg, ⟨rfl, h₁, hr, he⟩ | rfl⟩ | ⟨hle, -⟩
      · rw [hh] at hg
        cases hg
        have hreturned := hr.returned fun hm => hread ⟨hm, rfl⟩
        rcases he with rfl | he
        · exact hreturned
        · rw [park_history he]
          exact hreturned
      · rw [hh] at hg
        cases hg
        rfl
      · exact absurd (Table.lt_next hh) (Nat.not_lt.mpr hle)
  | segment ip tcp draw =>
    simp only [readReplies, hh]
    rcases entry_tcpEvent hh' with ⟨g, hg, hcases⟩ | ⟨hle, -⟩
    · obtain rfl : h = g := Option.some.inj (hh.symm.trans hg)
      rcases hcases with ⟨hl, hm, -, rfl⟩ | ⟨hout, rfl⟩ | ⟨hl, -, rfl⟩
      · rw [if_pos ⟨hl, hm⟩]
        exact Handle.serve_returned
      · rw [if_neg, List.flatMap_nil, List.append_nil]
        rintro ⟨hl, hm⟩
        rcases hout with hl' | hm'
        · exact hl hl'
        · rw [hm] at hm'
          cases hm'
      · rw [if_neg fun hboth => hboth.1 hl, List.flatMap_nil, List.append_nil]
        rfl
    · exact absurd (Table.lt_next hh) (Nat.not_lt.mpr hle)

/-- A handle that is not there is given no bytes, and one that comes has returned none. -/
theorem returned_absent (event : Event) (hn : s.handles.entry id = none) :
    (s.readReplies id event).flatMap Reply.bytes = [] ∧ ∀ h', (s.step event).handles.entry id = some h' →
      s.handles.next ≤ id ∧ h'.history.returned = [] := by
  cases event with
  | request e p =>
    constructor
    · rw [readReplies]
      split
      next hread =>
        obtain ⟨hm, rfl⟩ := hread
        have hfail : read s p.b p.d = fail s EBADF := by rw [read, hn]
        unfold schemeEvent
        rw [handle_read hm, hfail]
        dsimp only [fail]
        rw [if_neg (by decide)]
        simp [reply]
      next => rfl
    · intro h' hh'
      rcases entry_schemeEvent hh' with ⟨g, hg, -⟩ | ⟨hle, parent, h₁, -, hmade, he⟩
      · rw [hn] at hg
        cases hg
      · refine ⟨hle, ?_⟩
        rcases he with rfl | he
        · exact hmade.returned
        · rw [park_history he]
          exact hmade.returned
  | segment ip tcp draw =>
    refine ⟨by simp [readReplies, hn], fun h' hh' => ?_⟩
    rcases entry_tcpEvent hh' with ⟨g, hg, -⟩ | ⟨hle, parent, x, seq, rfl⟩
    · rw [hn] at hg
      cases hg
    · exact ⟨hle, rfl⟩

theorem returned_over {acc : List UInt8} (hb : ∀ event ∈ events, Buffered event)
    (hacc : ∀ h, s.handles.entry id = some h → h.history.returned = acc)
    (hnew : s.handles.next ≤ id → acc = [])
    (hh : (events.foldl step s).handles.entry id = some h) :
    h.history.returned = acc ++ (s.readRepliesOver id events).flatMap Reply.bytes := by
  induction events generalizing s acc with
  | nil => simpa [readRepliesOver] using hacc h hh
  | cons event events ih =>
    rw [readRepliesOver, List.flatMap_append, ← List.append_assoc]
    refine ih (fun event' hin => hb event' (List.mem_cons_of_mem _ hin)) (fun h' hh' => ?_)
      (fun hle => ?_) hh
    · cases hs : s.handles.entry id with
      | some g => rw [returned_step (hb event List.mem_cons_self) hs hh', hacc g hs]
      | none =>
        obtain ⟨hnone, hcomes⟩ := returned_absent event hs
        obtain ⟨hle, hreturned⟩ := hcomes h' hh'
        rw [hnone, hreturned, hnew hle, List.append_nil]
    · have hle := (next_le_step event).trans hle
      have hs : s.handles.entry id = none := by
        by_contra hne
        obtain ⟨g, hg⟩ := Option.ne_none_iff_exists'.mp hne
        exact absurd (Table.lt_next hg) (Nat.not_lt.mpr hle)
      rw [hnew hle, (returned_absent event hs).1, List.append_nil]

/-- In every run the bytes that reads of a handle have returned are those that the replies to them
carry. -/
theorem returned_run (hb : ∀ event ∈ events, Buffered event)
    (hh : (events.foldl step new).handles.entry id = some h) :
    h.history.returned = (new.readRepliesOver id events).flatMap Reply.bytes :=
  returned_over hb (fun g hg => by cases hg) (fun _ => rfl) hh

end Tcpd

end Origel.Net.Tcp
