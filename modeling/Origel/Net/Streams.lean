import Origel.Net.Handling

/-! The bytes of a connection: what segments bring into its queue, and what reads take out of it. -/
namespace Origel.Net.Tcp

open Origel.Lib Origel.Daemon
open Origel.Kernel.UserScheme (Packet mux)

variable {dials : Handle → Prop} {p : Packet} {parent : Option Handle} {h h' : Handle} {ip : Ipv4}
  {tcp : Net.Tcp} {draw : Draws} {id : Nat}

@[simp] theorem payloads_nil : payloads [] = [] := rfl

@[simp] theorem payloads_cons (e : Ipv4 × Net.Tcp) (data : List (Ipv4 × Net.Tcp)) :
    payloads (e :: data) = e.2.data ++ payloads data := rfl

@[simp] theorem payloads_append (xs ys : List (Ipv4 × Net.Tcp)) :
    payloads (xs ++ ys) = payloads xs ++ payloads ys := List.flatMap_append

namespace Handle

/-- A segment on an open connection, case by case. -/
theorem receive_established (ip : Ipv4) (tcp : Net.Tcp) (hs : h.state = .Established) :
    (¬ h.Takes tcp ∧ (h.receive ip tcp).handle = h) ∨
    (h.Takes tcp ∧ tcp.data ≠ [] ∧ (h.receive ip tcp).handle =
      { h with ack := tcp.header.sequence + UInt32.ofNat tcp.data.length }.push (ip, tcp)) ∨
    (h.Takes tcp ∧ tcp.data = [] ∧ (h.receive ip tcp).handle =
      { h with state := .CloseWait, ack := tcp.header.sequence + 1 }) ∨
    h.Takes tcp ∧ tcp.data = [] ∧
      (h.receive ip tcp).handle = { h with ack := tcp.header.sequence } := by
  unfold receive Takes
  rw [hs]
  dsimp only [received]
  split
  next hc =>
    obtain ⟨hf, ha⟩ := Bool.and_eq_true_iff.mp hc
    have ha : tcp.header.ackNum = h.seq := by simpa using ha
    split
    next hd => exact .inr (.inl ⟨⟨rfl, hf, ha⟩, hd, rfl⟩)
    next hd =>
      have hd : tcp.data = [] := not_not.mp hd
      split
      · exact .inr (.inr (.inl ⟨⟨rfl, hf, ha⟩, hd, rfl⟩))
      · exact .inr (.inr (.inr ⟨⟨rfl, hf, ha⟩, hd, rfl⟩))
  next hc =>
    refine .inl ⟨?_, rfl⟩
    rintro ⟨_, hf, ha⟩
    exact hc (by simp [hf, ha])

/-- Answering parked requests changes none of this. -/
theorem serve_fields : (h.serve id ip tcp draw).handle.state = (h.receive ip tcp).handle.state ∧
    (h.serve id ip tcp draw).handle.ack = (h.receive ip tcp).handle.ack ∧
    (h.serve id ip tcp draw).handle.history.queued =
      (h.receive ip tcp).handle.history.queued := by
  rw [serve_handle]
  rcases answerWrite_cases (h.receive ip tcp).handle.serveReads.1 draw with
    ⟨he, _⟩ | ⟨_, _, _, _, _, _, _, he⟩
  · rw [he]
    exact ⟨rfl, rfl, rfl⟩
  · rw [he]
    exact ⟨rfl, rfl, rfl⟩

theorem serve_remoteSocket : (h.serve id ip tcp draw).handle.remoteSocket = h.remoteSocket := by
  have hkept := (receive_kept h ip tcp).2.1
  rw [serve_handle]
  rcases answerWrite_cases (h.receive ip tcp).handle.serveReads.1 draw with
    ⟨he, _⟩ | ⟨_, _, _, _, _, _, _, he⟩
  · rw [he]
    exact hkept
  · rw [he]
    exact hkept

/-- This side has closed the connection. -/
def Left (h : Handle) : Prop :=
  h.state = .FinWait1 ∨ h.state = .FinWait2 ∨ h.state = .LastAck ∨ h.state = .Closing ∨
    h.state = .TimeWait ∨ h.state = .Closed

theorem receive_left (hl : h.Left) (ip : Ipv4) (tcp : Net.Tcp) :
    (h.receive ip tcp).handle.Left := by
  unfold receive
  rcases hl with hs | hs | hs | hs | hs | hs
  · rw [hs]
    dsimp only [received]
    split
    · split
      · exact .inr (.inr (.inr (.inr (.inl rfl))))
      · exact .inr (.inl rfl)
    · exact .inl hs
  · rw [hs]
    dsimp only [received]
    split
    · exact .inr (.inr (.inr (.inr (.inl rfl))))
    · exact .inr (.inl hs)
  · rw [hs]
    dsimp only [received]
    split
    · exact .inr (.inr (.inr (.inr (.inr rfl))))
    · exact .inr (.inr (.inl hs))
  · rw [hs]
    exact .inr (.inr (.inr (.inl hs)))
  · rw [hs]
    exact .inr (.inr (.inr (.inr (.inl hs))))
  · rw [hs]
    exact .inr (.inr (.inr (.inr (.inr hs))))

theorem not_left_of_takes (ht : h.Takes tcp) : ¬ h.Left := by
  intro hl
  have hs := ht.1
  rcases hl with hl | hl | hl | hl | hl | hl <;> cases hl.symm.trans hs

theorem left_closing {state : State} (hc : h.closing = some state) :
    ({ h with data := [], state := state } : Handle).Left := by
  unfold closing at hc
  split at hc
  · cases hc
    exact .inl rfl
  · cases hc
    exact .inl rfl
  · cases hc
    exact .inr (.inr (.inl rfl))
  · cases hc

/-- The buffer of each parked read has room for the payload that it will get from the queue. -/
def Fits (todo : List Packet) (data : List (Ipv4 × Net.Tcp)) : Prop :=
  ∀ pair ∈ todo.zip data, pair.2.2.data.length ≤ pair.1.d

/-- Reads with room return whole payloads. -/
theorem answerReads_bytes (closed : Bool) {todo : List Packet} {data : List (Ipv4 × Net.Tcp)}
    (hf : Fits todo data) :
    ((answerReads closed todo data).2.2.flatMap fun r => r.bytes) ++
      payloads (answerReads closed todo data).2.1 = payloads data := by
  fun_induction answerReads closed todo data with
  | case1 => rfl
  | case2 p todo ip tcp data bytes todo' data' replies hrec ih =>
    have hfront : tcp.data.length ≤ p.d := hf (p, (ip, tcp)) (List.mem_cons_self ..)
    have hbytes : bytes = tcp.data := List.take_of_length_le hfront
    have ih := ih fun pair hpair => hf pair (List.mem_cons_of_mem _ hpair)
    rw [hrec] at ih
    rw [List.flatMap_cons, List.append_assoc, ih, payloads_cons, hbytes]
  | case3 p todo hc todo' data' replies hrec ih =>
    have ih := ih (by intro pair hpair; rw [List.zip_nil_right] at hpair; cases hpair)
    rw [hrec] at ih
    exact ih
  | case4 => rfl

/-- What was queued has been returned or is still queued, but for what a close has thrown away. -/
def Whole (h : Handle) : Prop :=
  ∃ rest, h.history.returned ++ payloads h.data ++ rest = h.history.queued ∧
    (rest = [] ∨ h.Left)

/-- The invariant of a handle: none that listens is connected, and a connected one is whole and has
no segment without a payload in its queue. -/
structure Sound (h : Handle) : Prop where
  unconnected : h.state = .Listen → h.isConnected = false
  whole : h.isConnected = true → h.Whole
  filled : h.isConnected = true → ∀ e ∈ h.data, e.2.data ≠ []

theorem Sound.of_same (hs : h.Sound) (hstate : h'.state = h.state)
    (hremote : h'.remoteSocket = h.remoteSocket) (hdata : h'.data = h.data)
    (hhistory : h'.history = h.history) : h'.Sound := by
  have hconn : h'.isConnected = h.isConnected := by rw [isConnected, hremote, isConnected]
  constructor
  · intro hl
    rw [hconn]
    exact hs.unconnected (hstate.symm.trans hl)
  · intro hc
    obtain ⟨rest, hq, hr⟩ := hs.whole (hconn.symm.trans hc)
    refine ⟨rest, ?_, ?_⟩
    · rw [hdata, hhistory, hq]
    · rwa [Left, hstate]
  · intro hc
    rw [hdata]
    exact hs.filled (hconn.symm.trans hc)

theorem Whole.of_queue (hq : h.history.returned ++ payloads h.data = h.history.queued) :
    h.Whole := ⟨[], by rw [List.append_nil, hq], .inl rfl⟩

/-- A segment brings data to the queue, and to the history with it. -/
theorem Whole.receive (hw : h.Whole) (ip : Ipv4) (tcp : Net.Tcp) :
    (h.receive ip tcp).handle.Whole := by
  obtain ⟨rest, hq, hr⟩ := hw
  rcases receive_cases h ip tcp with ⟨state, ack, he, _⟩ | ⟨ht, _, he⟩
  · refine ⟨rest, ?_, hr.imp_right fun hl => receive_left hl ip tcp⟩
    rw [he]
    exact hq
  · have hrest : rest = [] := hr.resolve_right (not_left_of_takes ht)
    rw [hrest, List.append_nil] at hq
    rw [he]
    apply Whole.of_queue
    show h.history.returned ++ payloads (h.data ++ [(ip, tcp)]) = h.history.queued ++ tcp.data
    rw [payloads_append, ← List.append_assoc, hq]
    simp

theorem Whole.serveReads (hw : h.Whole) (hf : Fits h.todoRead h.data) : h.serveReads.1.Whole := by
  obtain ⟨rest, hq, hr⟩ := hw
  refine ⟨rest, ?_, hr⟩
  have hbytes := answerReads_bytes h.readClosed hf
  show h.history.returned ++
    ((answerReads h.readClosed h.todoRead h.data).2.2.flatMap fun r => r.bytes) ++
      payloads (answerReads h.readClosed h.todoRead h.data).2.1 ++ rest = h.history.queued
  rw [List.append_assoc h.history.returned, hbytes, hq]

/-- The parked reads have room for what is queued, and for the segment too if it is taken. -/
def Roomy (h : Handle) (ip : Ipv4) (tcp : Net.Tcp) : Prop :=
  Fits h.todoRead h.data ∧ (h.Takes tcp → Fits h.todoRead (h.data ++ [(ip, tcp)]))

theorem Roomy.fits (hr : h.Roomy ip tcp) :
    Fits (h.receive ip tcp).handle.todoRead (h.receive ip tcp).handle.data := by
  rw [(receive_kept h ip tcp).2.2.2.2.1]
  rcases receive_cases h ip tcp with ⟨state, ack, he, _⟩ | ⟨ht, _, he⟩
  · rw [he]
    exact hr.1
  · rw [he]
    exact hr.2 ht

/-- What is left of a queue by the parked reads was in it. -/
theorem answerReads_data (closed : Bool) (todo : List Packet) (data : List (Ipv4 × Net.Tcp)) :
    (answerReads closed todo data).2.1.Sublist data := by
  fun_induction answerReads closed todo data with
  | case1 => exact .refl _
  | case2 p todo ip tcp data bytes todo' data' replies hrec ih =>
    rw [hrec] at ih
    exact ih.cons _
  | case3 p todo hc todo' data' replies hrec ih => rwa [hrec] at ih
  | case4 => exact .refl _

theorem receive_filled (hf : ∀ e ∈ h.data, e.2.data ≠ []) (ip : Ipv4) (tcp : Net.Tcp) :
    ∀ e ∈ (h.receive ip tcp).handle.data, e.2.data ≠ [] := by
  intro e he
  rcases receive_cases h ip tcp with ⟨state, ack, hr, _⟩ | ⟨_, hne, hr⟩
  · rw [hr] at he
    exact hf e he
  · rw [hr] at he
    rcases List.mem_append.mp he with he | he
    · exact hf e he
    · rw [List.mem_singleton.mp he]
      exact hne

theorem receive_listens (hl : (h.receive ip tcp).handle.state = .Listen) : h.state = .Listen := by
  rcases receive_cases h ip tcp with ⟨state, ack, he, hs⟩ | ⟨_, _, he⟩
  · rw [he] at hl
    rcases hs with hs | ⟨_, _, hs⟩
    · exact hs.symm.trans hl
    · exact (hs hl).elim
  · rw [he] at hl
    exact hl

theorem Sound.serve (hs : h.Sound) (hr : h.Roomy ip tcp) :
    (h.serve id ip tcp draw).handle.Sound := by
  have hconn : (h.serve id ip tcp draw).handle.isConnected = h.isConnected := by
    rw [isConnected, serve_remoteSocket, isConnected]
  constructor
  · intro hlisten
    rw [hconn]
    apply hs.unconnected
    exact receive_listens (serve_fields.1.symm.trans hlisten)
  · intro hc
    have hw := (hs.whole (hconn.symm.trans hc)).receive ip tcp
    obtain ⟨rest, hq, hleft⟩ := hw.serveReads hr.fits
    rw [serve_handle]
    rcases answerWrite_cases (h.receive ip tcp).handle.serveReads.1 draw with
      ⟨he, _⟩ | ⟨_, _, _, _, _, _, _, he⟩
    · rw [he]
      exact ⟨rest, hq, hleft⟩
    · rw [he]
      exact ⟨rest, hq, hleft⟩
  · intro hc e he
    have hdata : (h.serve id ip tcp draw).handle.data =
        (h.receive ip tcp).handle.serveReads.1.data := by
      rw [serve_handle]
      rcases answerWrite_cases (h.receive ip tcp).handle.serveReads.1 draw with
        ⟨he, _⟩ | ⟨_, _, _, _, _, _, _, he⟩
      · rw [he]
      · rw [he]
        rfl
    rw [hdata] at he
    exact receive_filled (hs.filled (hconn.symm.trans hc)) ip tcp e
      ((answerReads_data ..).subset he)

/-- A read that takes a payload has room for all of it. -/
def Front (h : Handle) (len : Nat) : Prop := ∀ e ∈ h.data.head?, e.2.data.length ≤ len

theorem Sound.read {len : Nat} (hs : h.Sound) (hf : h.isConnected = true → h.Front len) :
    (h.read len).1.Sound := by
  unfold Handle.read
  split
  · exact hs
  next hc =>
    have hc : h.isConnected = true := by simpa using hc
    split
    next ip tcp data hdata =>
      have hlen : tcp.data.length ≤ len := hf hc (ip, tcp) (by rw [hdata]; rfl)
      have hbytes : copied len tcp.data = tcp.data := List.take_of_length_le hlen
      constructor
      · exact hs.unconnected
      · intro _
        obtain ⟨rest, hq, hr⟩ := hs.whole hc
        refine ⟨rest, ?_, hr⟩
        rw [hdata, payloads_cons] at hq
        dsimp only
        rw [hbytes, List.append_assoc h.history.returned, hq]
      · intro _ e he
        exact hs.filled hc e (by rw [hdata]; exact List.mem_cons_of_mem _ he)
    · split <;> exact hs

end Handle

open Handle

theorem Request.sound (hr : Request p h h') (hs : h.Sound)
    (hf : method p.a = some .read → h.isConnected = true → h.Front p.d) : h'.Sound := by
  have hclosing : ∀ {state}, h.closing = some state →
      ({ h with data := [], state := state } : Handle).Sound := by
    intro state hc
    have hleft := left_closing hc
    constructor
    · intro hl
      rcases hleft with hs | hs | hs | hs | hs | hs <;> cases hs.symm.trans hl
    · intro hconn
      obtain ⟨rest, hq, _⟩ := hs.whole hconn
      refine ⟨payloads h.data ++ rest, ?_, .inr hleft⟩
      rw [← hq]
      simp
    · intro _ e he
      cases he
  cases hr with
  | kept => exact hs
  | taken _ hc _ =>
    constructor
    · exact fun _ => hc
    · intro hconn
      cases hc.symm.trans hconn
    · intro hconn
      cases hc.symm.trans hconn
  | read hm => exact hs.read (hf hm)
  | written => exact hs.of_same rfl rfl rfl rfl
  | flagged => exact hs.of_same rfl rfl rfl rfl
  | watched => exact hs.of_same rfl rfl rfl rfl
  | closing _ hc => exact hclosing hc
  | closed _ hc => exact (hclosing hc).of_same rfl rfl rfl rfl

theorem Made.sound (hm : Made dials parent h) (hp : ∀ g, parent = some g → g.Sound)
    (hd : dials h → ∀ e ∈ h.data, e.2.data ≠ []) : h.Sound := by
  cases hm with
  | listening hc =>
    constructor
    · exact fun _ => hc
    · intro hconn
      cases hc.symm.trans hconn
    · intro hconn
      cases hc.symm.trans hconn
  | calling => exact ⟨(fun hl => nomatch hl), fun _ => .of_queue rfl, fun _ e he => nomatch he⟩
  | accepted => exact ⟨(fun hl => nomatch hl), fun _ => .of_queue rfl, fun _ e he => nomatch he⟩
  | @copied g =>
    have hg := hp g rfl
    exact ⟨hg.unconnected, fun _ => .of_queue rfl, hg.filled⟩
  | dialled h1 => exact ⟨(fun hl => nomatch hl), fun _ => .of_queue rfl, fun _ => hd h1⟩

theorem sound_park (hp : Tcpd.park p h = some h') (hs : h.Sound) : h'.Sound := by
  unfold Tcpd.park at hp
  split at hp
  · cases hp; exact hs.of_same rfl rfl rfl rfl
  · cases hp; exact hs.of_same rfl rfl rfl rfl
  · cases hp; exact hs.of_same rfl rfl rfl rfl
  · cases hp

namespace Tcpd

variable {s : Tcpd} {e : Env}

/-- No read cuts a payload short, at once or later, and no connection is made with a segment in its
queue that has no payload. -/
def Uncut (s : Tcpd) : Event → Prop
  | .request e p =>
    (method p.a = some .read → ∀ h, s.handles.entry p.b = some h → h.isConnected = true →
      h.Front p.d) ∧
    ∀ h, s.Dialled e p h → ∀ x ∈ h.data, x.2.data ≠ []
  | .segment ip tcp _ => ∀ id h, s.handles.entry id = some h → h.state ≠ .Listen →
      h.matchesSegment ip tcp = true → h.Roomy ip tcp

/-- The bytes that reads have returned are the first of those queued, and all of them if a read
would now report the end of the file. -/
def Delivers (h : Handle) : Prop :=
  h.history.returned <+: h.history.queued ∧
    (¬ h.Left → ∀ len, 0 < len → (h.read len).2.1 = .ok 0 → h.history.returned = h.history.queued)

def ReadsDelivered (s : Tcpd) : Prop :=
  ∀ id h, s.handles.entry id = some h → h.isConnected = true → Delivers h

theorem delivers_of_sound (hs : h.Sound) (hc : h.isConnected = true) : Delivers h := by
  obtain ⟨rest, hq, hr⟩ := hs.whole hc
  constructor
  · rw [← hq, List.append_assoc]
    exact List.prefix_append ..
  · intro hl len hlen hend
    have hrest : rest = [] := hr.resolve_right hl
    have hdata : h.data = [] := by
      cases hdata : h.data with
      | nil => rfl
      | cons x data =>
        have hne : x.2.data ≠ [] := hs.filled hc x (by rw [hdata]; exact List.mem_cons_self ..)
        have hpos : 0 < x.2.data.length := List.length_pos_iff.mpr hne
        simp only [Handle.read, hc, hdata, copied, List.length_take] at hend
        injection hend with hend
        omega
    rw [← hq, hrest, hdata]
    simp

theorem sound_step (event : Event) (hu : s.Uncut event)
    (hs : ∀ id h, s.handles.entry id = some h → h.Sound) :
    ∀ id h, (s.step event).handles.entry id = some h → h.Sound := by
  intro id h' hh
  cases event with
  | request e p =>
    rcases entry_schemeEvent hh with ⟨h, hk, ⟨hid, h1, hr, he⟩ | he⟩ | ⟨_, parent, h1, hpar, hm, he⟩
    · subst hid
      have h1s := hr.sound (hs p.b h hk) fun hm hc => hu.1 hm h hk hc
      rcases he with he | he
      · rwa [he]
      · exact sound_park he h1s
    · rw [he]
      exact hs id h hk
    · have h1s : h1.Sound := by
        apply hm.sound
        · intro g hg
          obtain ⟨k, hk⟩ := hpar g hg
          exact hs k g hk
        · exact hu.2 h1
      rcases he with he | he
      · rwa [he]
      · exact sound_park he h1s
  | segment ip tcp draw =>
    rcases entry_tcpEvent hh with
      ⟨h, hk, ⟨hl, hm, _, he⟩ | ⟨_, he⟩ | ⟨hl, _, he⟩⟩ | ⟨_, _, _, _, he⟩
    · rw [he]
      exact (hs id h hk).serve (hu id h hk hl hm)
    · rw [he]
      exact hs id h hk
    · have hc := (hs id h hk).unconnected hl
      rw [he]
      constructor
      · exact fun _ => hc
      · intro hconn
        cases hc.symm.trans hconn
      · intro hconn
        cases hc.symm.trans hconn
    · rw [he]
      exact ⟨(fun hl => nomatch hl), fun _ => .of_queue rfl, fun _ e he => nomatch he⟩

/-- In every run whose reads have room, they lose nothing. -/
theorem reads_delivered (events : List Event) (hu : Each step Uncut new events) :
    Throughout step ReadsDelivered new events := by
  apply throughout_of_each (I := fun s => ∀ id h, s.handles.entry id = some h → h.Sound) ?_ ?_ ?_ hu
  · intro s event hs hu
    exact sound_step event hu hs
  · intro s hs id h hh hc
    exact delivers_of_sound (hs id h hh) hc
  · intro id h hh
    cases hh

/-- A connection is opened and answered, and a segment of two bytes is read by a read of two. -/
theorem short_payload_is_read_whole :
    let memory : Nat → UInt8 := fun a => [49, 46, 49, 46, 49, 46, 49, 58, 49].getD a 0
    let e : Env := ⟨memory, 0, 0, 0, none⟩
    let peer : Ipv4Addr := ⟨1, 1, 1, 1⟩
    let ip : Ipv4 := ⟨⟨0x45, 0, 40, 0, 0, 64, 6, 0, peer, .NULL⟩, [], []⟩
    let answer : Net.Tcp := ⟨⟨1, 32768, 100, 1, 0x5000 ||| TCP_SYN ||| TCP_ACK, 0, 0, 0⟩, [], []⟩
    let data : Net.Tcp := ⟨⟨1, 32768, 101, 1, 0x5000 ||| TCP_ACK, 0, 0, 0⟩, [], [7, 8]⟩
    let quiet : Draws := ⟨memory, 0, 0, none, fun _ => 0, fun _ => 0⟩
    let events := [Event.request e ⟨1, 1, 0, 0, SYS_OPEN, 0, 9, 0⟩,
      .segment ip answer fun _ => quiet, .segment ip data fun _ => quiet,
      .request e ⟨2, 1, 0, 0, SYS_READ, 1, 0, 2⟩]
    ((events.foldl step new).handles.entry 1).map (fun h => h.history.returned) = some [7, 8] ∧
      Throughout step ReadsDelivered new events := by
  intro memory e peer ip answer data quiet events
  have hidle : ∀ s : Tcpd, (∀ x ∈ s.handles.entries, x.2.todoRead = []) →
      ∀ ip tcp, s.Uncut (.segment ip tcp fun _ => quiet) := by
    intro s hs ip tcp id h hh _ _
    have htodo : h.todoRead = [] := hs (id, h) (Table.mem_entries.mpr hh)
    rw [Handle.Roomy, htodo]
    exact ⟨(fun pair hp => nomatch hp), fun _ pair hp => nomatch hp⟩
  have hroom : ∀ s : Tcpd, (∀ y ∈ s.handles.entries, ∀ x ∈ y.2.data, x.2.data.length ≤ 2) →
      s.Uncut (.request e ⟨2, 1, 0, 0, SYS_READ, 1, 0, 2⟩) := by
    intro s hs
    refine ⟨?_, fun h hd => absurd hd.1.1 (by decide)⟩
    intro _ h hh _ x hx
    exact hs (1, h) (Table.mem_entries.mpr hh) x (List.mem_of_mem_head? hx)
  refine ⟨by decide, reads_delivered events ⟨?_, ?_, ?_, ?_, trivial⟩⟩
  · exact ⟨fun h => absurd h (by decide), fun h hd => absurd hd.1.1 (by decide)⟩
  · exact hidle _ (by decide) ip answer
  · exact hidle _ (by decide) ip data
  · exact hroom _ (by decide)

/-- A segment of two bytes is read with a buffer of one: the second byte is never read. -/
theorem cut_payload_is_lost :
    let memory : Nat → UInt8 := fun a => [49, 46, 49, 46, 49, 46, 49, 58, 49].getD a 0
    let e : Env := ⟨memory, 0, 0, 0, none⟩
    let peer : Ipv4Addr := ⟨1, 1, 1, 1⟩
    let ip : Ipv4 := ⟨⟨0x45, 0, 40, 0, 0, 64, 6, 0, peer, .NULL⟩, [], []⟩
    let answer : Net.Tcp := ⟨⟨1, 32768, 100, 1, 0x5000 ||| TCP_SYN ||| TCP_ACK, 0, 0, 0⟩, [], []⟩
    let data : Net.Tcp := ⟨⟨1, 32768, 101, 1, 0x5000 ||| TCP_ACK, 0, 0, 0⟩, [], [7, 8]⟩
    let fin : Net.Tcp := ⟨⟨1, 32768, 103, 1, 0x5000 ||| TCP_ACK ||| TCP_FIN, 0, 0, 0⟩, [], []⟩
    let quiet : Draws := ⟨memory, 0, 0, none, fun _ => 0, fun _ => 0⟩
    let s := [Event.request e ⟨1, 1, 0, 0, SYS_OPEN, 0, 9, 0⟩,
      .segment ip answer fun _ => quiet, .segment ip data fun _ => quiet,
      .request e ⟨2, 1, 0, 0, SYS_READ, 1, 0, 1⟩, .segment ip fin fun _ => quiet].foldl step new
    ((s.handles.entry 1).map fun h => (h.state, h.history.queued, h.history.returned,
      (h.read 1).2.1.toOption)) = some (.CloseWait, [7, 8], [7], some 0) ∧
      ¬ s.ReadsDelivered := by
  intro memory e peer ip answer data fin quiet s
  have hentry : ((s.handles.entry 1).map fun h => (h.state, h.history.queued, h.history.returned,
      (h.read 1).2.1.toOption)) = some (.CloseWait, [7, 8], [7], some 0) := by decide
  have hconn : ((s.handles.entry 1).map fun h => h.isConnected) = some true := by decide
  refine ⟨hentry, ?_⟩
  intro hr
  obtain ⟨h, hh, hfields⟩ := Option.map_eq_some_iff.mp hentry
  rw [hh] at hconn
  simp only [Prod.mk.injEq] at hfields
  obtain ⟨hstate, hqueued, hreturned, hread⟩ := hfields
  have hl : ¬ h.Left := by
    rintro (hl | hl | hl | hl | hl | hl) <;> cases hl.symm.trans hstate
  have hend : (h.read 1).2.1 = .ok 0 := by
    cases hv : (h.read 1).2.1 with
    | ok n =>
      rw [hv] at hread
      cases hread
      rfl
    | error errno =>
      rw [hv] at hread
      cases hread
  have heq := (hr 1 h hh (Option.some.inj hconn)).2 hl 1 Nat.one_pos hend
  rw [hqueued, hreturned] at heq
  cases heq

/-- A step never gives an id again. -/
theorem next_le_step (event : Event) : s.handles.next ≤ (s.step event).handles.next := by
  cases event with
  | request e p =>
    obtain ⟨d, hd, hcases⟩ := schemeEvent_cases s e p
    have hle : s.handles.next ≤ d.state.handles.next := by
      cases hd with
      | kept => exact le_rfl
      | changed => exact le_rfl
      | opened => exact Nat.le_succ _
      | joined => exact Nat.le_succ _
      | removed => exact le_rfl
    show _ ≤ (s.schemeEvent e p).handles.next
    rcases hcases with ⟨_, he⟩ | ⟨_, _, _, _, he⟩ | ⟨_, _, he⟩
    · rw [he]
      exact hle
    · rw [he]
      exact hle
    · rw [he]
      exact hle
  | segment ip tcp draw =>
    show _ ≤ (s.tcpEvent ip tcp draw).handles.next
    unfold tcpEvent
    dsimp only
    split
    · show _ ≤ (Table.insertAll _ _).next
      rw [Table.next_insertAll]
      exact Nat.le_add_right ..
    · exact le_rfl

end Tcpd

theorem Request.kept_stream (hr : Request p h h') : h'.history.queued = h.history.queued ∧
    h'.ack = h.ack ∧ (h'.state = h.state ∨ h.closing = some h'.state) := by
  cases hr with
  | kept => exact ⟨rfl, rfl, .inl rfl⟩
  | taken => exact ⟨rfl, rfl, .inl rfl⟩
  | read =>
    unfold Handle.read
    split
    · exact ⟨rfl, rfl, .inl rfl⟩
    · split
      · exact ⟨rfl, rfl, .inl rfl⟩
      · split <;> exact ⟨rfl, rfl, .inl rfl⟩
  | written => exact ⟨rfl, rfl, .inl rfl⟩
  | flagged => exact ⟨rfl, rfl, .inl rfl⟩
  | watched => exact ⟨rfl, rfl, .inl rfl⟩
  | closing _ hc => exact ⟨rfl, rfl, .inr hc⟩
  | closed _ hc => exact ⟨rfl, rfl, .inr hc⟩

/-- The segment carries the bytes of the stream from position `n`; `first` is the number of the
first byte. -/
def Carries (stream : List UInt8) (first : UInt32) (n : Nat) (tcp : Net.Tcp) : Prop :=
  tcp.header.sequence = first + UInt32.ofNat n ∧ tcp.data <+: stream.drop n ∧
    tcp.data.length < 2 ^ 16

namespace Handle

/-- The connection has been open, and has queued the first bytes of the stream since it was `g`. -/
structure Following (h : Handle) (stream : List UInt8) (g : Handle) : Prop where
  opened : h.state ≠ .Listen ∧ h.state ≠ .SynSent ∧ h.state ≠ .SynReceived
  queued : ∃ part, part <+: stream ∧ h.history.queued = g.history.queued ++ part ∧
    (h.state = .Established → h.ack = g.ack + UInt32.ofNat part.length)

variable {g : Handle} {stream : List UInt8}

theorem Following.of_same (hf : h.Following stream g) (hstate : h'.state = h.state)
    (hack : h'.ack = h.ack) (hqueued : h'.history.queued = h.history.queued) :
    h'.Following stream g := by
  constructor
  · rw [hstate]
    exact hf.opened
  · rw [hqueued, hstate, hack]
    exact hf.queued

/-- A connection that is no longer open follows the stream no further. -/
theorem Following.of_left (hf : h.Following stream g)
    (hstate : h'.state ≠ .Listen ∧ h'.state ≠ .SynSent ∧ h'.state ≠ .SynReceived ∧
      h'.state ≠ .Established)
    (hqueued : h'.history.queued = h.history.queued) : h'.Following stream g := by
  obtain ⟨part, hpart, hq, _⟩ := hf.queued
  refine ⟨⟨hstate.1, hstate.2.1, hstate.2.2.1⟩, part, hpart, hqueued.trans hq, ?_⟩
  intro he
  exact (hstate.2.2.2 he).elim

/-- The segment is one that the connection may take: it carries the stream on. -/
def Turn (h : Handle) (stream : List UInt8) (g : Handle) (tcp : Net.Tcp) : Prop :=
  h.Takes tcp → ∃ n, h.history.queued.length = g.history.queued.length + n ∧
    Carries stream g.ack n tcp

/-- A segment taken in its turn begins with the number that the connection has acknowledged. -/
theorem Following.turn {part rest : List UInt8} (he : h.state = .Established)
    (hrest : part ++ rest = stream) (hq : h.history.queued = g.history.queued ++ part)
    (hack : h.state = .Established → h.ack = g.ack + UInt32.ofNat part.length)
    (hc : h.Turn stream g tcp) (ht : h.Takes tcp) :
    tcp.header.sequence = h.ack ∧ tcp.data <+: rest ∧ tcp.data.length < 2 ^ 16 := by
  obtain ⟨n, hn, hseq, hdata, hlen⟩ := hc ht
  rw [hq, List.length_append] at hn
  have hn : n = part.length := by omega
  rw [hn, ← hrest, List.drop_left] at hdata
  rw [hseq, hn, hack he]
  exact ⟨rfl, hdata, hlen⟩

/-- A segment that an open connection takes in its turn continues the stream. -/
theorem Following.receive_open (hf : h.Following stream g) (he : h.state = .Established)
    (hc : h.Turn stream g tcp) : (h.receive ip tcp).handle.Following stream g := by
  obtain ⟨part, ⟨rest, hrest⟩, hq, hack⟩ := hf.queued
  have hturn := fun ht => Following.turn he hrest hq hack hc ht
  rcases receive_established ip tcp he with ⟨_, hr⟩ | ⟨ht, _, hr⟩ | ⟨ht, _, hr⟩ | ⟨ht, _, hr⟩
  · rw [hr]
    exact hf
  · obtain ⟨hseq, ⟨data, hdata⟩, _⟩ := hturn ht
    rw [hr]
    refine ⟨hf.opened, part ++ tcp.data, ⟨data, ?_⟩, ?_, ?_⟩
    · rw [List.append_assoc, hdata, hrest]
    · show h.history.queued ++ tcp.data = _
      rw [hq, List.append_assoc]
    · intro _
      show tcp.header.sequence + _ = _
      rw [hseq, hack he, List.length_append, UInt32.ofNat_add, UInt32.add_assoc]
  · rw [hr]
    exact hf.of_left ⟨nofun, nofun, nofun, nofun⟩ rfl
  · rw [hr]
    exact hf.of_same rfl (hturn ht).1 rfl

theorem Following.ack_receive (hf : h.Following stream g) (he : h.state = .Established)
    (hc : h.Turn stream g tcp) : ((h.receive ip tcp).handle.ack - h.ack).toNat < 2 ^ 31 := by
  obtain ⟨part, ⟨rest, hrest⟩, hq, hack⟩ := hf.queued
  have hturn := fun ht => Following.turn he hrest hq hack hc ht
  have hforward : ∀ n : Nat, n < 2 ^ 16 →
      (h.ack + UInt32.ofNat n - h.ack).toNat < 2 ^ 31 := by
    intro n hn
    have hn : n < UInt32.size := by
      rw [UInt32.size]
      omega
    rw [UInt32.add_comm, UInt32.add_sub_cancel, UInt32.toNat_ofNat_of_lt' hn]
    omega
  rcases receive_established ip tcp he with ⟨_, hr⟩ | ⟨ht, _, hr⟩ | ⟨ht, _, hr⟩ | ⟨ht, _, hr⟩
  · rw [hr, UInt32.sub_self]
    decide
  · rw [hr]
    show (tcp.header.sequence + UInt32.ofNat tcp.data.length - h.ack).toNat < 2 ^ 31
    rw [(hturn ht).1]
    exact hforward _ (hturn ht).2.2
  · rw [hr]
    show (tcp.header.sequence + 1 - h.ack).toNat < 2 ^ 31
    rw [(hturn ht).1]
    exact hforward 1 (by decide)
  · rw [hr]
    show (tcp.header.sequence - h.ack).toNat < 2 ^ 31
    rw [(hturn ht).1, UInt32.sub_self]
    decide

/-- No other connection takes anything. -/
theorem Following.receive_closed (hf : h.Following stream g) (he : h.state ≠ .Established) :
    (h.receive ip tcp).handle.Following stream g := by
  have hqueued : (h.receive ip tcp).handle.history.queued = h.history.queued := by
    rcases receive_cases h ip tcp with ⟨state, ack, hr, _⟩ | ⟨ht, _, _⟩
    · rw [hr]
    · exact (he ht.1).elim
  by_cases hw : h.state = .CloseWait
  · have hr : (h.receive ip tcp).handle = h := by
      unfold receive
      rw [hw]
      rfl
    rw [hr]
    exact hf
  · have hl : h.Left := by
      have ho := hf.opened
      unfold Left
      cases hs : h.state <;> simp_all
    apply hf.of_left _ hqueued
    have hl := receive_left hl ip tcp
    refine ⟨?_, ?_, ?_, ?_⟩ <;> rintro hs <;>
      rcases hl with hl | hl | hl | hl | hl | hl <;> cases hl.symm.trans hs

theorem Following.serve (hf : h.Following stream g) (hc : h.Turn stream g tcp) :
    (h.serve id ip tcp draw).handle.Following stream g := by
  have hr : (h.receive ip tcp).handle.Following stream g := by
    by_cases he : h.state = .Established
    · exact hf.receive_open he hc
    · exact hf.receive_closed he
  obtain ⟨hstate, hack, hqueued⟩ := @serve_fields h ip tcp draw id
  exact hr.of_same hstate hack hqueued

theorem Following.request (hf : h.Following stream g) (hr : Request p h h') :
    h'.Following stream g := by
  obtain ⟨hqueued, hack, hstate | hc⟩ := hr.kept_stream
  · exact hf.of_same hstate hack hqueued
  · apply hf.of_left _ hqueued
    have hl := left_closing hc
    refine ⟨?_, ?_, ?_, ?_⟩ <;> rintro hs <;>
      rcases hl with hl | hl | hl | hl | hl | hl <;> cases hl.symm.trans hs

end Handle

theorem park_kept (hp : Tcpd.park p h = some h') : h'.state = h.state ∧ h'.ack = h.ack ∧
    h'.history = h.history := by
  unfold Tcpd.park at hp
  split at hp
  · cases hp; exact ⟨rfl, rfl, rfl⟩
  · cases hp; exact ⟨rfl, rfl, rfl⟩
  · cases hp; exact ⟨rfl, rfl, rfl⟩
  · cases hp

namespace Tcpd

variable {s : Tcpd} {stream : List UInt8} {g : Handle}

/-- What a step makes of the handle under an id that has been given. -/
theorem entry_step (event : Event) (hid : id < s.handles.next)
    (hh : (s.step event).handles.entry id = some h') :
    ∃ h, s.handles.entry id = some h ∧
      (h' = h ∨
        (∃ e p h1, event = .request e p ∧ Request p h h1 ∧ (h' = h1 ∨ park p h1 = some h')) ∨
        ∃ ip tcp draw, event = .segment ip tcp draw ∧ h.matchesSegment ip tcp = true ∧
          (h.state ≠ .Listen ∧ h' = (h.serve id ip tcp (draw id)).handle ∨
            h.state = .Listen ∧ h' = (h.listen ip tcp (draw id)).1)) := by
  cases event with
  | request e p =>
    rcases entry_schemeEvent hh with ⟨h, hk, ⟨_, h1, hr, he⟩ | he⟩ | ⟨hle, _⟩
    · exact ⟨h, hk, .inr (.inl ⟨e, p, h1, rfl, hr, he⟩)⟩
    · exact ⟨h, hk, .inl he⟩
    · omega
  | segment ip tcp draw =>
    rcases entry_tcpEvent hh with ⟨h, hk, ⟨hl, hm, _, he⟩ | ⟨_, he⟩ | ⟨hl, hm, he⟩⟩ | ⟨hle, _⟩
    · exact ⟨h, hk, .inr (.inr ⟨ip, tcp, draw, rfl, hm, .inl ⟨hl, he⟩⟩)⟩
    · exact ⟨h, hk, .inl he⟩
    · exact ⟨h, hk, .inr (.inr ⟨ip, tcp, draw, rfl, hm, .inr ⟨hl, he⟩⟩)⟩
    · omega

/-- The segments that the connection takes carry the stream on from where its queue ends. -/
def InOrder (stream : List UInt8) (id : Nat) (g : Handle) (s : Tcpd) : Event → Prop
  | .request _ _ => True
  | .segment ip tcp _ => ∀ h, s.handles.entry id = some h → h.matchesSegment ip tcp = true →
      h.Turn stream g tcp

/-- What the connection has queued since it was `g` is the beginning of the stream, and as long as
it is open it acknowledges just that. -/
def QueuesStream (stream : List UInt8) (id : Nat) (g : Handle) (s : Tcpd) : Prop :=
  ∀ h, s.handles.entry id = some h → ∃ part, part <+: stream ∧
    h.history.queued = g.history.queued ++ part ∧
    (h.state = .Established → h.ack = g.ack + UInt32.ofNat part.length)

/-- The number that the open connection acknowledges does not move back. -/
def AckForward (id : Nat) (s : Tcpd) (event : Event) : Prop :=
  ∀ h h', s.handles.entry id = some h → h.state = .Established →
    (s.step event).handles.entry id = some h' → (h'.ack - h.ack).toNat < 2 ^ 31

theorem following_step (event : Event) (hid : id < s.handles.next)
    (hc : s.InOrder stream id g event)
    (hf : ∀ h, s.handles.entry id = some h → h.Following stream g) :
    ∀ h', (s.step event).handles.entry id = some h' → h'.Following stream g := by
  intro h' hh
  obtain ⟨h, hk, he | ⟨e, p, h1, _, hr, he⟩ | ⟨ip, tcp, draw, rfl, hm, he⟩⟩ :=
    entry_step event hid hh
  · rw [he]
    exact hf h hk
  · have h1f := (hf h hk).request hr
    rcases he with he | he
    · rwa [he]
    · obtain ⟨hstate, hack, hhistory⟩ := park_kept he
      exact h1f.of_same hstate hack (by rw [hhistory])
  · rcases he with ⟨_, he⟩ | ⟨hl, _⟩
    · rw [he]
      exact (hf h hk).serve (hc h hk hm)
    · exact ((hf h hk).opened.1 hl).elim

theorem ack_step (event : Event) (hid : id < s.handles.next) (hc : s.InOrder stream id g event)
    (hf : ∀ h, s.handles.entry id = some h → h.Following stream g) : s.AckForward id event := by
  intro h h' hk hs hh
  obtain ⟨h0, hk0, hcases⟩ := entry_step event hid hh
  cases hk.symm.trans hk0
  have hsame : h'.ack = h.ack → (h'.ack - h.ack).toNat < 2 ^ 31 := by
    intro hack
    rw [hack, UInt32.sub_self]
    decide
  rcases hcases with he | ⟨e, p, h1, _, hr, he⟩ | ⟨ip, tcp, draw, rfl, hm, he⟩
  · exact hsame (by rw [he])
  · have hack := hr.kept_stream.2.1
    rcases he with he | he
    · exact hsame (by rw [he, hack])
    · exact hsame ((park_kept he).2.1.trans hack)
  · rcases he with ⟨_, he⟩ | ⟨hl, _⟩
    · rw [he, Handle.serve_fields.2.1]
      exact (hf h hk).ack_receive hs (hc h hk hm)
    · exact ((hf h hk).opened.1 hl).elim

/-- From any open connection on, in every run whose segments it takes in order: it queues the stream
of the peer from the beginning and without gaps, and does not move back what it acknowledges. -/
theorem stream_queued (stream : List UInt8) (s : Tcpd) (id : Nat) (g : Handle)
    (hg : s.handles.entry id = some g) (he : g.state = .Established) (events : List Event)
    (hc : Each step (InOrder stream id g) s events) :
    Throughout step (QueuesStream stream id g) s events ∧
      Each step (AckForward id) s events := by
  let I : Tcpd → Prop := fun s => id < s.handles.next ∧
    ∀ h, s.handles.entry id = some h → h.Following stream g
  have hI : ∀ s event, I s → s.InOrder stream id g event → I (s.step event) := by
    rintro s event ⟨hid, hf⟩ hc
    exact ⟨hid.trans_le (next_le_step event), following_step event hid hc hf⟩
  have hs : I s := by
    refine ⟨Table.lt_next hg, ?_⟩
    intro h hh
    cases hg.symm.trans hh
    refine ⟨?_, [], List.nil_prefix, (List.append_nil _).symm, fun _ => ?_⟩
    · rw [he]
      exact ⟨nofun, nofun, nofun⟩
    · exact (UInt32.add_zero _).symm
  constructor
  · apply throughout_of_each hI ?_ hs hc
    intro s hs h hh
    exact (hs.2 h hh).queued
  · apply each_of_each hI ?_ hs hc
    intro s event hs hc
    exact ack_step event hs.1 hc hs.2

/-- Two segments of one byte, in order. -/
theorem two_segments_queued :
    let memory : Nat → UInt8 := fun a => [49, 46, 49, 46, 49, 46, 49, 58, 49].getD a 0
    let e : Env := ⟨memory, 0, 0, 0, none⟩
    let peer : Ipv4Addr := ⟨1, 1, 1, 1⟩
    let ip : Ipv4 := ⟨⟨0x45, 0, 40, 0, 0, 64, 6, 0, peer, .NULL⟩, [], []⟩
    let answer : Net.Tcp := ⟨⟨1, 32768, 100, 1, 0x5000 ||| TCP_SYN ||| TCP_ACK, 0, 0, 0⟩, [], []⟩
    let first : Net.Tcp := ⟨⟨1, 32768, 101, 1, 0x5000 ||| TCP_ACK, 0, 0, 0⟩, [], [7]⟩
    let second : Net.Tcp := ⟨⟨1, 32768, 102, 1, 0x5000 ||| TCP_ACK, 0, 0, 0⟩, [], [8]⟩
    let quiet : Draws := ⟨memory, 0, 0, none, fun _ => 0, fun _ => 0⟩
    let s := [Event.request e ⟨1, 1, 0, 0, SYS_OPEN, 0, 9, 0⟩,
      .segment ip answer fun _ => quiet].foldl step new
    let events := [Event.segment ip first fun _ => quiet, .segment ip second fun _ => quiet]
    ∃ g, s.handles.entry 1 = some g ∧ g.state = .Established ∧
      Throughout step (QueuesStream [7, 8] 1 g) s events ∧ Each step (AckForward 1) s events := by
  intro memory e peer ip answer first second quiet s events
  have hs : ((s.handles.entry 1).map fun g => (g.state, g.ack, g.history.queued)) =
      some (.Established, 101, []) := by decide
  have hnext : (((s.step (.segment ip first fun _ => quiet)).handles.entry 1).map fun h =>
      h.history.queued) = some [7] := by decide
  obtain ⟨g, hg, hfields⟩ := Option.map_eq_some_iff.mp hs
  simp only [Prod.mk.injEq] at hfields
  obtain ⟨hstate, hack, hqueued⟩ := hfields
  refine ⟨g, hg, hstate, stream_queued [7, 8] s 1 g hg hstate events ⟨?_, ?_, trivial⟩⟩
  · intro h hh _ _
    cases hg.symm.trans hh
    refine ⟨0, rfl, ?_⟩
    rw [hack]
    exact ⟨by decide, by decide, by decide⟩
  · intro h hh _ _
    rw [hh] at hnext
    have hq : h.history.queued = [7] := Option.some.inj hnext
    refine ⟨1, by rw [hq, hqueued]; rfl, ?_⟩
    rw [hack]
    exact ⟨by decide, by decide, by decide⟩

/-- The first of two segments comes again after the second: its byte is queued a second time, and
what is acknowledged moves back. -/
theorem duplicate_segment_is_queued :
    let memory : Nat → UInt8 := fun a => [49, 46, 49, 46, 49, 46, 49, 58, 49].getD a 0
    let e : Env := ⟨memory, 0, 0, 0, none⟩
    let peer : Ipv4Addr := ⟨1, 1, 1, 1⟩
    let ip : Ipv4 := ⟨⟨0x45, 0, 40, 0, 0, 64, 6, 0, peer, .NULL⟩, [], []⟩
    let answer : Net.Tcp := ⟨⟨1, 32768, 100, 1, 0x5000 ||| TCP_SYN ||| TCP_ACK, 0, 0, 0⟩, [], []⟩
    let first : Net.Tcp := ⟨⟨1, 32768, 101, 1, 0x5000 ||| TCP_ACK, 0, 0, 0⟩, [], [7]⟩
    let second : Net.Tcp := ⟨⟨1, 32768, 102, 1, 0x5000 ||| TCP_ACK, 0, 0, 0⟩, [], [8]⟩
    let quiet : Draws := ⟨memory, 0, 0, none, fun _ => 0, fun _ => 0⟩
    let s := [Event.request e ⟨1, 1, 0, 0, SYS_OPEN, 0, 9, 0⟩,
      .segment ip answer fun _ => quiet].foldl step new
    let before := [Event.segment ip first fun _ => quiet,
      .segment ip second fun _ => quiet].foldl step s
    let again := Event.segment ip first fun _ => quiet
    Carries [7, 8] 101 0 first ∧ Carries [7, 8] 101 1 second ∧
      ((s.handles.entry 1).map fun g => (g.state, g.ack)) = some (.Established, 101) ∧
      ((before.handles.entry 1).map fun h => (h.state, h.ack)) = some (.Established, 103) ∧
      (((before.step again).handles.entry 1).map fun h => (h.ack, h.history.queued)) =
        some (102, [7, 8, 7]) ∧
      (∀ g, s.handles.entry 1 = some g → ¬ (before.step again).QueuesStream [7, 8] 1 g) ∧
      ¬ before.AckForward 1 again := by
  intro memory e peer ip answer first second quiet s before again
  have hs : ((s.handles.entry 1).map fun g => (g.state, g.ack)) = some (.Established, 101) := by
    decide
  have hqueued : ((s.handles.entry 1).map fun g => g.history.queued) = some [] := by decide
  have hb : ((before.handles.entry 1).map fun h => (h.state, h.ack)) =
      some (.Established, 103) := by decide
  have ha : (((before.step again).handles.entry 1).map fun h => (h.ack, h.history.queued)) =
      some (102, [7, 8, 7]) := by decide
  obtain ⟨h, hh, hfields⟩ := Option.map_eq_some_iff.mp ha
  simp only [Prod.mk.injEq] at hfields
  refine ⟨⟨by decide, by decide, by decide⟩, ⟨by decide, by decide, by decide⟩, hs, hb, ha, ?_, ?_⟩
  · intro g hg hq
    rw [hg] at hqueued
    have hg0 : g.history.queued = [] := Option.some.inj hqueued
    obtain ⟨part, hpart, heq, _⟩ := hq h hh
    rw [hg0, hfields.2, List.nil_append] at heq
    rw [← heq] at hpart
    exact absurd hpart (by decide)
  · intro hf
    obtain ⟨h0, hh0, h0fields⟩ := Option.map_eq_some_iff.mp hb
    simp only [Prod.mk.injEq] at h0fields
    have hlt := hf h0 h hh0 h0fields.1 hh
    rw [hfields.1, h0fields.2] at hlt
    exact absurd hlt (by decide)

end Tcpd

end Origel.Net.Tcp
