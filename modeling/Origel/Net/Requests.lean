import Origel.Daemon.Replies
import Origel.Net.Handling
import Origel.Net.Ip
import Origel.Net.Udp

/-! The requests that the network daemons have read: each is answered once or parked with a handle. -/
namespace Origel.Net

open Origel.Lib Origel.Daemon
open Origel.Kernel.UserScheme (Packet mux)

section Queues

variable {H : Type} {todo : H → List Packet} {t t' : Table H} {p : Packet} {r : Except Nat Nat}
  {id : Nat}

/-- The ways in which `handle` ends for the table of a daemon that parks at one queue. -/
inductive Tabled (todo : H → List Packet) (t : Table H) (p : Packet) :
    Table H → Except Nat Nat → Prop
  | kept {r : Except Nat Nat}
      (hr : t.entry p.b = none → ∃ errno, r = .error errno ∧ errno ≠ EWOULDBLOCK) :
      Tabled todo t p t r
  | changed {h h' : H} {r : Except Nat Nat} (hh : t.entry p.b = some h)
      (ht : todo h' = todo h) : Tabled todo t p (t.modify p.b fun _ => h') r
  | inserted {h : H} (hm : method p.a = some .openUrl ∨ (t.entry p.b).isSome)
      (ht : todo h = []) : Tabled todo t p (t.insert h) (.ok t.next)
  | removed {h : H} (hm : method p.a = some .close) (hh : t.entry p.b = some h) :
      Tabled todo t p (t.remove p.b) (.ok 0)

/-- The id that looks like an error: no `open` has got that far. -/
def blockedId : Nat := 2 ^ 64 - EWOULDBLOCK

/-- The packets with the given id that are parked at the handles of a table. -/
def parked (todo : H → List Packet) (t : Table H) (id : Nat) : Nat :=
  t.total fun h => withId id (todo h)

theorem parked_new (todo : H → List Packet) (first id : Nat) :
    repliesTo id [] + parked todo (Table.empty first) id = 0 := by
  rw [parked, Table.total_empty, repliesTo_nil]

theorem Tabled.parked_eq (ht : Tabled todo t p t' r)
    (hclose : method p.a = some .close → ∀ h, t.entry p.b = some h → todo h = []) :
    parked todo t' id = parked todo t id := by
  cases ht with
  | kept => rfl
  | @changed h h' _ hh ht =>
    have := Table.total_modify (f := fun _ => h') (w := fun h => withId id (todo h)) hh
    rw [ht] at this
    exact Nat.add_right_cancel this
  | inserted hm ht =>
    rw [parked, Table.total_insert, ht]
    rfl
  | removed hm hh =>
    have := Table.total_remove (w := fun h => withId id (todo h)) hh
    rw [hclose hm _ hh] at this
    exact this

/-- A blocked request is for a handle that is there. -/
theorem Tabled.blocked (ht : Tabled todo t p t' r) (hb : mux r = mux (.error EWOULDBLOCK))
    (hopen : method p.a = some .openUrl → t.entry p.b = none → t.next ≠ blockedId) :
    ∃ h, t'.entry p.b = some h := by
  cases ht with
  | kept hr =>
    cases hh : t.entry p.b with
    | some h => exact ⟨h, rfl⟩
    | none =>
      obtain ⟨errno, he, hne⟩ := hr hh
      rw [he] at hb
      have hb : 2 ^ 64 - errno = 2 ^ 64 - 41 := hb
      have hne : errno ≠ 41 := hne
      omega
  | @changed h h' _ hh _ => exact ⟨h', by rw [Table.entry_modify_self, hh]; rfl⟩
  | inserted hm _ =>
    cases hh : t.entry p.b with
    | some h => exact ⟨h, Table.entry_insert hh⟩
    | none =>
      rcases hm with hm | hm
      · exact (hopen hm hh hb).elim
      · rw [hh] at hm
        cases hm
  | removed => exact absurd hb (by decide)

/-- A request for one queue is parked where it is blocked, and can be answered. -/
theorem Tabled.accounts (ht : Tabled todo t p t' r) (id : Nat)
    (hclose : method p.a = some .close → ∀ h, t.entry p.b = some h → todo h = [])
    (hopen : method p.a = some .openUrl → t.entry p.b = none → t.next ≠ blockedId)
    (push : H → H) (hpush : ∀ h, todo (push h) = todo h ++ [p]) (files : List Reply) (bytes : List UInt8) :
    (mux r = mux (.error EWOULDBLOCK) → repliesTo id files + parked todo (t'.modify p.b push) id =
      repliesTo id files + parked todo t id + withId id [p]) ∧
    repliesTo id (files ++ [⟨{ p with a := mux r }, bytes⟩]) + parked todo t' id =
      repliesTo id files + parked todo t id + withId id [p] := by
  refine ⟨fun hb => ?_, ?_⟩
  · obtain ⟨h, hh⟩ := ht.blocked hb hopen
    have hm := Table.total_modify (f := push) (w := fun h => withId id (todo h)) hh
    rw [hpush, withId_append, ← Nat.add_assoc, Nat.add_right_comm] at hm
    rw [← ht.parked_eq hclose, Nat.add_assoc]
    exact congrArg (repliesTo id files + ·) (Nat.add_right_cancel hm)
  · rw [ht.parked_eq hclose, repliesTo_append, repliesTo_cons, repliesTo_nil, withId_cons, withId_nil]
    dsimp only
    omega

/-- The handles that take what the network brings answer what they have parked. -/
theorem accounts_served (t : Table H) (todo : H → List Packet) (id : Nat) (pick : H → Bool)
    (serve : Nat → H → H × List Reply) (files : List Reply)
    (hserve : ∀ k h, repliesTo id (serve k h).2 + withId id (todo (serve k h).1) =
      withId id (todo h)) :
    repliesTo id (files ++ (t.entries.filter fun e => pick e.2).flatMap fun e => (serve e.1 e.2).2) +
      parked todo (t.map fun k h => if pick h then (serve k h).1 else h) id =
        repliesTo id files + parked todo t id := by
  have hadd := Table.total_filterMap_add (t := t) (w := fun h => withId id (todo h))
    (g := fun k h => some (if pick h then (serve k h).1 else h))
    (u := fun k h => if pick h = true then repliesTo id (serve k h).2 else 0)
    (v := fun _ _ => 0) (by
      intro k h _
      have := hserve k h
      cases hp : pick h
      · simp
      · simp only [if_true, Option.elim_some, Nat.add_zero]
        omega)
  have h0 : t.sum (fun _ _ => 0) = 0 := Table.sum_eq_zero (by intros; rfl)
  rw [h0, Nat.add_zero, Nat.add_comm] at hadd
  rw [repliesTo_append, Nat.add_assoc, repliesTo, repliesTo, countP_flatMap_filter]
  exact congrArg (repliesTo id files + ·) hadd

/-- What each step accounts for, a run accounts for. -/
theorem accounted_run {σ ε : Type} {step : σ → ε → σ} {considerate : σ → ε → Prop} {w : σ → Nat}
    {requested : ε → List Packet} {s : σ} {events : List ε} (hnew : w s = 0)
    (hstep : ∀ s event, considerate s event → w (step s event) = w s + withId id (requested event))
    (hc : Each step considerate s events) :
    w (events.foldl step s) = withId id (events.flatMap requested) := by
  have hrun := foldl_add (w := w) hstep hc
  rw [hrun, withId_flatMap, hnew, Nat.zero_add]

end Queues

namespace Udp.Udpd

variable {s : Udpd} {e : Env} {p : Packet} {id : Nat}

/-- The requests with the given id that are answered or parked. -/
def accounted (s : Udpd) (id : Nat) : Nat :=
  repliesTo id s.schemeFile + parked Handle.todo s.handles id

def requested : Event → List Packet
  | .request _ p => [p]
  | .datagram _ _ => []

/-- No handle is closed with a request parked at it, and no `open` gets the id that looks like an
error. -/
def Considerate (s : Udpd) : Event → Prop
  | .request _ p =>
    (method p.a = some .close → ∀ h, s.handles.entry p.b = some h → h.todo = []) ∧
    (method p.a = some .openUrl → s.handles.entry p.b = none → s.handles.next ≠ blockedId)
  | .datagram _ _ => True

theorem Handled.tabled {d : Done Udpd} (hd : Handled s p d) :
    d.state.schemeFile = s.schemeFile ∧
      Tabled Handle.todo s.handles p d.state.handles d.result := by
  cases hd with
  | kept hr => exact ⟨rfl, .kept hr⟩
  | changed hh _ ht => exact ⟨rfl, .changed hh ht⟩
  | opened hm ht _ => exact ⟨rfl, .inserted (.inl hm) ht⟩
  | joined _ hh _ ht => exact ⟨rfl, .inserted (.inr (by rw [hh]; rfl)) ht⟩
  | removed hm hh => exact ⟨rfl, .removed hm hh⟩

theorem accounted_step (hid : id ≠ 0) (event : Event) (hc : s.Considerate event) :
    (s.step event).accounted id = s.accounted id + withId id (requested event) := by
  cases event with
  | request e p =>
    obtain ⟨hfile, ht⟩ := (handled (s := s) (e := e) (p := p)).tabled
    have haccounts := ht.accounts id hc.1 hc.2 (fun h => { h with todo := h.todo ++ [p] }) (fun _ => rfl)
      s.schemeFile
    show accounted (s.schemeEvent e p) id = _
    unfold schemeEvent accounted
    dsimp only [requested]
    split
    next hb =>
      dsimp only [modify]
      rw [hfile]
      exact (haccounts []).1 hb
    next =>
      dsimp only
      rw [hfile]
      exact (haccounts _).2
  | datagram ip udp =>
    refine accounts_served s.handles Handle.todo id (fun h => h.matchesDatagram ip udp) (fun k h => serve k h udp) s.schemeFile
      fun k h => ?_
    have := repliesTo_answer id h.todo (h.data ++ [udp.data])
    simp only [serve, repliesTo_append, repliesTo_notices hid]
    exact this

end Udp.Udpd

namespace Ip.Ipd

variable {s : Ipd} {e : Env} {p : Packet} {id : Nat}

/-- The requests with the given id that are answered or parked. -/
def accounted (s : Ipd) (id : Nat) : Nat :=
  repliesTo id s.schemeFile + parked Handle.todo s.handles id

def requested : Event → List Packet
  | .request _ p => [p]
  | .packet _ => []

/-- No handle is closed with a request parked at it, and no `open` gets the id that looks like an
error. -/
def Considerate (s : Ipd) : Event → Prop
  | .request _ p =>
    (method p.a = some .close → ∀ h, s.handles.entry p.b = some h → h.todo = []) ∧
    (method p.a = some .openUrl → s.handles.entry p.b = none → s.handles.next ≠ blockedId)
  | .packet _ => True

/-- What `handle` does to the two things a request is kept in. -/
def Handled (s : Ipd) (p : Packet) (d : Done Ipd) : Prop :=
  d.state.schemeFile = s.schemeFile ∧ Tabled Handle.todo s.handles p d.state.handles d.result

theorem Handled.failed {errno : Nat} (he : errno ≠ EWOULDBLOCK) : Handled s p (fail s errno) :=
  ⟨rfl, .kept fun _ => ⟨errno, rfl, he⟩⟩

theorem Handled.present {h : Handle} (hh : s.handles.entry p.b = some h) (r : Except Nat Nat)
    (bytes : List UInt8) : Handled s p ⟨s, r, bytes⟩ :=
  ⟨rfl, .kept fun hn => by rw [hh] at hn; cases hn⟩

theorem Handled.modify {h : Handle} {f : Handle → Handle} (hh : s.handles.entry p.b = some h)
    (ht : (f h).todo = h.todo) (r : Except Nat Nat) (bytes : List UInt8) :
    Handled s p ⟨s.modify p.b f, r, bytes⟩ := by
  have hm : s.handles.modify p.b f = s.handles.modify p.b fun _ => f h :=
    Table.modify_congr hh rfl
  refine ⟨rfl, ?_⟩
  dsimp only [Ipd.modify]
  rw [hm]
  exact .changed hh ht

/-- What a method does with the handle it is called for. -/
theorem handled_entry {f : Handle → Done Ipd}
    (hf : ∀ h, s.handles.entry p.b = some h → Handled s p (f h)) :
    Handled s p (match s.handles.entry p.b with
      | none => fail s EBADF
      | some h => f h) := by
  cases hh : s.handles.entry p.b with
  | none => exact .failed (by decide)
  | some h => exact hf h hh

theorem handled : Handled s p ((scheme e).handle e.memory s p) := by
  refine SchemeMut.handle_of (fun _ he => .failed he) (fun hm => ?openUrl) (fun _ => ?dup) (fun _ => ?read)
    (fun _ => ?write) (.failed (by decide)) ?fevent ?fpath ?fsync fun hm => ?close
  case openUrl =>
    unfold openUrl
    split
    · cases Origel.RedoxFs.fromUtf8 (load e.memory p.b p.c) with
      | none => exact .failed (by decide)
      | some path =>
        dsimp only
        cases fromStrRadix (2 ^ 8) 16 path.toList with
        | none => exact .failed (by decide)
        | some proto => exact ⟨rfl, .inserted (.inl hm) rfl⟩
    · exact .failed (by decide)
  case dup => exact handled_entry fun h hh => ⟨rfl, .inserted (.inr (by rw [hh]; rfl)) rfl⟩
  case read =>
    refine handled_entry fun h hh => ?_
    split
    next front data _ =>
      exact Handled.modify (f := fun h => { h with data := data }) hh rfl _ _
    · split
      · exact .present hh _ _
      · exact .present hh _ _
  case write =>
    refine handled_entry fun h hh => ?_
    split
    · exact .present hh _ _
    · exact .present hh _ _
  case fevent =>
    exact handled_entry fun h hh => Handled.modify (f := fun h => { h with events := p.c }) hh rfl _ _
  case fpath => exact handled_entry fun h hh => .present hh _ _
  case fsync => exact handled_entry fun h hh => .present hh _ _
  case close => exact handled_entry fun h hh => ⟨rfl, .removed hm hh⟩

theorem accounted_step (hid : id ≠ 0) (event : Event) (hc : s.Considerate event) :
    (s.step event).accounted id = s.accounted id + withId id (requested event) := by
  cases event with
  | request e p =>
    obtain ⟨hfile, ht⟩ := handled (s := s) (e := e) (p := p)
    have haccounts := ht.accounts id hc.1 hc.2 (fun h => { h with todo := h.todo ++ [p] }) (fun _ => rfl)
      s.schemeFile
    show accounted (s.schemeEvent e p) id = _
    unfold schemeEvent accounted
    dsimp only [requested]
    split
    next hb =>
      dsimp only [modify]
      rw [hfile]
      exact (haccounts []).1 hb
    next =>
      dsimp only
      rw [hfile]
      exact (haccounts _).2
  | packet ip =>
    refine accounts_served s.handles Handle.todo id (fun h => ip.header.proto == h.proto) (fun k h => serve k h ip) s.schemeFile
      fun k h => ?_
    have := repliesTo_answer id h.todo (h.data ++ [ip.toBytes])
    simp only [serve, repliesTo_append, repliesTo_notices hid]
    exact this

end Ip.Ipd

namespace Tcp

namespace Handle

/-- All that is parked at a handle. -/
def parkedHere (h : Handle) : List Packet := h.todoDup ++ h.todoRead ++ h.todoWrite

variable {h h' : Handle} {id k : Nat} {ip : Ipv4} {tcp : Net.Tcp} {draw : Draws}

theorem withId_parkedHere : withId id h.parkedHere =
    withId id h.todoDup + withId id h.todoRead + withId id h.todoWrite := by
  rw [parkedHere, withId_append, withId_append]

theorem repliesTo_answerReads (id : Nat) (closed : Bool) (todo : List Packet)
    (data : List (Ipv4 × Net.Tcp)) :
    repliesTo id (answerReads closed todo data).2.2 + withId id (answerReads closed todo data).1 =
      withId id todo := by
  fun_induction answerReads closed todo data with
  | case1 => rfl
  | case2 p todo ip tcp data bytes todo' data' replies hrec ih =>
    rw [hrec] at ih
    rw [repliesTo_cons, withId_cons, ← ih]
    dsimp only
    omega
  | case3 p todo hc todo' data' replies hrec ih =>
    rw [hrec] at ih
    rw [repliesTo_cons, withId_cons, ← ih]
    dsimp only
    omega
  | case4 => simp

/-- Nothing to read will come: every read is answered. -/
theorem answerReads_closed (todo : List Packet) (data : List (Ipv4 × Net.Tcp)) :
    (answerReads true todo data).1 = [] := by
  fun_induction answerReads true todo data with
  | case1 => rfl
  | case2 p todo ip tcp data bytes todo' data' replies hrec ih => rwa [hrec] at ih
  | case3 p todo hc todo' data' replies hrec ih => rwa [hrec] at ih
  | case4 p todo hc => exact (hc rfl).elim

theorem repliesTo_answerWrite (id : Nat) (h : Handle) (draw : Draws) :
    repliesTo id (h.answerWrite draw).2.1 +
    withId id (h.answerWrite draw).1.parkedHere = withId id h.parkedHere := by
  rcases answerWrite_cases h draw with ⟨he, _⟩ | ⟨p, todo, n, a, sent, ht, _, he⟩
  · rw [he]
    simp
  · rw [he, withId_parkedHere, withId_parkedHere, ht, withId_cons, repliesTo_cons, repliesTo_nil]
    dsimp only [advance]
    omega

theorem repliesTo_serveReads (id : Nat) (h : Handle) : repliesTo id h.serveReads.2 +
    withId id h.serveReads.1.parkedHere = withId id h.parkedHere := by
  have hread := repliesTo_answerReads id h.readClosed h.todoRead h.data
  rw [withId_parkedHere, withId_parkedHere, ← hread]
  show repliesTo id (answerReads h.readClosed h.todoRead h.data).2.2 +
    (withId id h.todoDup + withId id (answerReads h.readClosed h.todoRead h.data).1 +
      withId id h.todoWrite) = _
  omega

theorem receive_parkedHere : (h.receive ip tcp).handle.parkedHere = h.parkedHere := by
  obtain ⟨_, _, _, hd, hr, hw, _⟩ := receive_kept h ip tcp
  rw [parkedHere, hd, hr, hw]
  rfl

/-- The step rule of a handle: what a segment takes from its queues, it answers. -/
theorem repliesTo_serve (hid : id ≠ 0) (h : Handle) (k : Nat) (ip : Ipv4) (tcp : Net.Tcp)
    (draw : Draws) : repliesTo id (h.serve k ip tcp draw).replies +
    withId id (h.serve k ip tcp draw).handle.parkedHere = withId id h.parkedHere := by
  have hread := repliesTo_serveReads id (h.receive ip tcp).handle
  have hwrite := repliesTo_answerWrite id (h.receive ip tcp).handle.serveReads.1 draw
  have hreplies : (h.serve k ip tcp draw).replies = (h.receive ip tcp).handle.serveReads.2 ++
      ((h.receive ip tcp).handle.serveReads.1.answerWrite draw).2.1 ++
      notices (h.serve k ip tcp draw).handle.events k
        ((h.serve k ip tcp draw).handle.data.map fun e => e.2.data) := rfl
  rw [hreplies, repliesTo_append, repliesTo_append, repliesTo_notices hid, serve_handle]
  rw [receive_parkedHere] at hread
  omega

/-- A handle that a segment ends has answered its reads, and had nothing else to answer. -/
theorem parkedHere_finished (hf : h.Finishes tcp) (hd : h.todoDup = []) (hw : h.todoWrite = []) :
    (h.serve k ip tcp draw).handle.parkedHere = [] := by
  have hkept := receive_kept h ip tcp
  have hclosed : (h.receive ip tcp).handle.readClosed = true := by
    obtain ⟨ha, ⟨hs, h1, h2⟩ | ⟨hs, h1⟩ | ⟨hs, h1⟩⟩ := hf
    · simp [receive, hs, ha, h1, h2, readClosed]
    · simp [receive, hs, ha, h1, readClosed]
    · simp [receive, hs, ha, h1, readClosed]
  have hreads : (h.receive ip tcp).handle.serveReads.1.todoRead = [] := by
    simp only [serveReads, hclosed]
    exact answerReads_closed _ _
  have hdups : (h.receive ip tcp).handle.serveReads.1.todoDup = [] := hkept.2.2.2.1.trans hd
  have hwrites : (h.receive ip tcp).handle.serveReads.1.todoWrite = [] :=
    hkept.2.2.2.2.2.1.trans hw
  rw [serve_handle]
  rcases answerWrite_cases (h.receive ip tcp).handle.serveReads.1 draw with
    ⟨he, _⟩ | ⟨p, todo, _, _, _, ht, _, _⟩
  · rw [he, parkedHere, hreads, hdups, hwrites]
    rfl
  · rw [hwrites] at ht
    cases ht

/-- The packets of the connections accepted are those that leave the queue. -/
theorem withId_accept (id : Nat) (h : Handle) (draw : Draws) (j : Nat) (todo : List Packet)
    (data : List (Ipv4 × Net.Tcp)) :
    withId id ((h.accept draw j todo data).2.2.map Accepted.packet) +
      withId id (h.accept draw j todo data).1 = withId id todo := by
  fun_induction accept h draw j todo data with
  | case1 => rfl
  | case2 => simp
  | case3 k p todo e data handle sent handle' todo' data' accepted hrec ih =>
    rw [hrec] at ih
    rw [List.map_cons, withId_cons, withId_cons, ← ih]
    dsimp only
    omega

theorem withId_listen (id : Nat) (h : Handle) (ip : Ipv4) (tcp : Net.Tcp) (draw : Draws) :
    withId id ((h.listen ip tcp draw).2.map Accepted.packet) +
    withId id (h.listen ip tcp draw).1.parkedHere = withId id h.parkedHere := by
  have := withId_accept id (h.push (ip, tcp)) draw 0 h.todoDup (h.data ++ [(ip, tcp)])
  rw [withId_parkedHere, withId_parkedHere, ← this]
  show withId id
    (((h.push (ip, tcp)).accept draw 0 h.todoDup (h.data ++ [(ip, tcp)])).2.2.map
      Accepted.packet) + (withId id
        ((h.push (ip, tcp)).accept draw 0 h.todoDup (h.data ++ [(ip, tcp)])).1 +
          withId id h.todoRead + withId id h.todoWrite) = _
  omega

end Handle

theorem Request.parkedHere {p : Packet} {h h' : Handle} (hr : Request p h h') :
    h'.parkedHere = h.parkedHere := by
  cases hr with
  | read hm =>
    unfold Handle.read
    split
    · rfl
    · split
      · rfl
      · split <;> rfl
  | kept => rfl
  | taken => rfl
  | written => rfl
  | flagged => rfl
  | watched => rfl
  | closing => rfl
  | closed => rfl

theorem Made.parkedHere {dials : Handle → Prop} {parent : Option Handle} {h : Handle}
    (hm : Made dials parent h) : h.parkedHere = [] := by
  cases hm <;> rfl

namespace Tcpd

variable {s : Tcpd} {e : Env} {p : Packet} {id : Nat}

/-- The requests with the given id that are answered or parked. -/
def accounted (s : Tcpd) (id : Nat) : Nat :=
  repliesTo id s.schemeFile + parked Handle.parkedHere s.handles id

def requested : Event → List Packet
  | .request _ p => [p]
  | .segment _ _ _ => []

/-- No handle goes with a request parked at it: none that is closed has any, and none that a
segment ends has a `dup` or a write. An `open` is not told by the network that it would block, and
gets no id that looks like that. -/
def Considerate (s : Tcpd) : Event → Prop
  | .request e p =>
    (method p.a = some .close → ∀ h, s.handles.entry p.b = some h → h.closing = none →
      h.parkedHere = []) ∧
    (method p.a = some .openUrl → s.handles.entry p.b = none →
      e.wire ≠ some EWOULDBLOCK ∧ s.handles.next ≠ blockedId)
  | .segment ip tcp _ => ∀ id h, s.handles.entry id = some h → h.matchesSegment ip tcp = true →
      h.Finishes tcp → h.todoDup = [] ∧ h.todoWrite = []

theorem Handled.schemeFile {d : Done Tcpd} (hd : Handled s e p d) :
    d.state.schemeFile = s.schemeFile := by
  cases hd <;> rfl

theorem Handled.parked_eq {d : Done Tcpd} (hd : Handled s e p d)
    (hc : s.Considerate (.request e p)) :
    parked Handle.parkedHere d.state.handles id = parked Handle.parkedHere s.handles id := by
  have hmodify : ∀ {h h'}, s.handles.entry p.b = some h → Request p h h' →
      parked Handle.parkedHere (s.handles.modify p.b fun _ => h') id =
        parked Handle.parkedHere s.handles id := by
    intro h h' hh hr
    have := Table.total_modify (f := fun _ => h') (w := fun h => withId id h.parkedHere) hh
    rw [hr.parkedHere] at this
    exact Nat.add_right_cancel this
  cases hd with
  | kept => rfl
  | changed hh hr => exact hmodify hh hr
  | opened _ hn _ =>
    show parked _ (s.handles.insert _) id = _
    rw [parked, Table.total_insert, hn.parkedHere]
    rfl
  | @joined h h' new _ _ hh hr hn =>
    show parked _ ((s.handles.modify p.b fun _ => h').insert new) id = _
    rw [parked, Table.total_insert, hn.parkedHere]
    exact hmodify hh hr
  | removed hm hh hcl =>
    have := Table.total_remove (w := fun h => withId id h.parkedHere) hh
    rw [hc.1 hm _ hh hcl] at this
    exact this

/-- A blocked request is for a handle that is there. -/
theorem Handled.blocked {d : Done Tcpd} (hd : Handled s e p d)
    (hc : s.Considerate (.request e p)) (hb : mux d.result = mux (.error EWOULDBLOCK)) :
    d.state.handles.entry p.b ≠ none := by
  intro hn
  cases hd with
  | kept hr =>
    obtain ⟨errno, he, hw⟩ := hr hn
    have hb : mux (.error errno) = mux (.error EWOULDBLOCK) := he ▸ hb
    have hb : 2 ^ 64 - errno = 2 ^ 64 - 41 := hb
    have he : errno = EWOULDBLOCK := by
      show errno = 41
      omega
    obtain ⟨hm, hw⟩ := hw he
    exact (hc.2 hm hn).1 hw
  | changed hh _ =>
    rw [Table.entry_modify_self, hh] at hn
    cases hn
  | opened hm _ _ =>
    have hs : s.handles.entry p.b = none := by
      cases hs : s.handles.entry p.b with
      | none => rfl
      | some h => exact (hn.symm.trans (Table.entry_insert hs)).symm
    exact (hc.2 hm hs).2 hb
  | @joined h h' new _ _ hh _ _ =>
    have hs : (s.handles.modify p.b fun _ => h').entry p.b = some h' := by
      rw [Table.entry_modify_self, hh]
      rfl
    cases hn.symm.trans (Table.entry_insert hs)
  | removed =>
    have hb : mux (.ok 0) = mux (.error EWOULDBLOCK) := hb
    exact absurd hb (by decide)

theorem withId_park {h h' : Handle} (hp : park p h = some h') :
    withId id h'.parkedHere = withId id h.parkedHere + withId id [p] := by
  rw [Handle.withId_parkedHere, Handle.withId_parkedHere]
  unfold park at hp
  split at hp
  · cases hp
    dsimp only
    rw [withId_append]
    omega
  · cases hp
    dsimp only
    rw [withId_append]
    omega
  · cases hp
    dsimp only
    rw [withId_append]
    omega
  · cases hp

theorem accounted_schemeEvent (hc : s.Considerate (.request e p)) :
    (s.schemeEvent e p).accounted id = s.accounted id + withId id [p] := by
  obtain ⟨d, hd, ⟨bytes, he⟩ | ⟨h, h', hh, hp, he⟩ | ⟨hb, hn, _⟩⟩ := schemeEvent_cases s e p
  · rw [he]
    show repliesTo id (d.state.schemeFile ++ [_]) + parked _ d.state.handles id = _
    rw [hd.schemeFile, hd.parked_eq hc, repliesTo_append, repliesTo_cons, repliesTo_nil,
      withId_cons, withId_nil, accounted]
    dsimp only
    omega
  · rw [he]
    have hm := Table.total_modify (f := fun _ => h') (w := fun h => withId id h.parkedHere) hh
    have hd' : parked Handle.parkedHere d.state.handles id =
      parked Handle.parkedHere s.handles id := hd.parked_eq hc
    rw [withId_park hp] at hm
    show repliesTo id d.state.schemeFile + parked _ (d.state.handles.modify p.b fun _ => h') id = _
    rw [hd.schemeFile, accounted, ← hd']
    unfold parked
    omega
  · exact (hd.blocked hc hb hn).elim

variable {ip : Ipv4} {tcp : Net.Tcp} {draw : Nat → Draws}

theorem accounted_deliver (hid : id ≠ 0) (hc : s.Considerate (.segment ip tcp draw)) :
    (s.deliver ip tcp draw).accounted id = s.accounted id := by
  have hcount := countP_flatMap_filter (fun r : Reply => r.packet.id = id) s.handles.entries
    (fun x => x.2.state != .Listen && x.2.matchesSegment ip tcp)
    (fun x => (x.2.serve x.1 ip tcp (draw x.1)).replies)
  have hadd := Table.total_filterMap_add (t := s.handles) (w := fun h => withId id h.parkedHere)
    (g := fun k h =>
      if h.state != .Listen && h.matchesSegment ip tcp then
        let v := h.serve k ip tcp (draw k)
        if v.closes then none else some v.handle
      else some h)
    (u := fun k h => if (h.state != .Listen && h.matchesSegment ip tcp) = true then
      repliesTo id (h.serve k ip tcp (draw k)).replies else 0)
    (v := fun _ _ => 0) (by
      intro k h hh
      have hserve := Handle.repliesTo_serve hid h k ip tcp (draw k)
      cases hm : h.state != .Listen && h.matchesSegment ip tcp
      · simp
      · cases hcl : (h.serve k ip tcp (draw k)).closes
        · simp only [if_true, Bool.false_eq_true, if_false, Option.elim_some, hcl]
          omega
        · have hf := Handle.serve_closes.mp hcl
          have hq := hc k h hh (Bool.and_eq_true_iff.mp hm).2 hf
          rw [Handle.parkedHere_finished hf hq.1 hq.2, withId_nil] at hserve
          simp only [if_true, Option.elim_none, hcl]
          omega)
  have h0 : s.handles.sum (fun _ _ => 0) = 0 := Table.sum_eq_zero (by intros; rfl)
  rw [h0, Nat.add_zero] at hadd
  show repliesTo id (s.schemeFile ++ ((s.connections ip tcp).map _).flatMap Served.replies) +
    parked _ (s.deliver ip tcp draw).handles id = _
  rw [repliesTo_append, List.flatMap_map, accounted]
  have hsum : repliesTo id ((s.connections ip tcp).flatMap fun x =>
      (x.2.serve x.1 ip tcp (draw x.1)).replies) + parked Handle.parkedHere
        (s.deliver ip tcp draw).handles id = parked Handle.parkedHere s.handles id := by
    rw [connections, repliesTo, hcount, Nat.add_comm]
    exact hadd
  rw [Nat.add_assoc, hsum]

theorem repliesTo_mapIdx (accepted : List Handle.Accepted) (f : Nat → Nat) :
    repliesTo id (accepted.mapIdx fun i a => ⟨{ a.packet with a := f i }, []⟩) =
      withId id (accepted.map Handle.Accepted.packet) := by
  induction accepted generalizing f with
  | nil => rfl
  | cons a accepted ih =>
    rw [List.mapIdx_cons, repliesTo_cons, List.map_cons, withId_cons, ← ih fun i => f (i + 1)]

theorem accounted_accept : (s.accept ip tcp draw).accounted id = s.accounted id := by
  let pick := fun x : Nat × Handle => x.2.state == .Listen && x.2.matchesSegment ip tcp
  let accepted := (s.handles.entries.filter pick).flatMap fun x => (x.2.listen ip tcp (draw x.1)).2
  have hnew : ((accepted.map Handle.Accepted.handle).map fun h => withId id h.parkedHere).sum = 0 := by
    apply List.sum_eq_zero
    intro n hn
    obtain ⟨h, hh, rfl⟩ := List.mem_map.mp hn
    obtain ⟨a, ha, rfl⟩ := List.mem_map.mp hh
    obtain ⟨x, _, ha⟩ := List.mem_flatMap.mp ha
    obtain ⟨y, seq, he⟩ := Handle.accept_made ha
    rw [he]
    rfl
  have hpackets := countP_flatMap_filter (fun p : Packet => p.id = id) s.handles.entries pick
    fun x => (x.2.listen ip tcp (draw x.1)).2.map Handle.Accepted.packet
  have hadd := Table.total_filterMap_add (t := s.handles) (w := fun h => withId id h.parkedHere)
    (g := fun k h => some (if h.state == .Listen && h.matchesSegment ip tcp then
      (h.listen ip tcp (draw k)).1 else h))
    (u := fun k h => if (h.state == .Listen && h.matchesSegment ip tcp) = true then
      withId id ((h.listen ip tcp (draw k)).2.map Handle.Accepted.packet) else 0)
    (v := fun _ _ => 0) (by
      intro k h _
      have hlisten := Handle.withId_listen id h ip tcp (draw k)
      cases hm : h.state == .Listen && h.matchesSegment ip tcp
      · simp
      · simp only [if_true, Option.elim_some]
        omega)
  have h0 : s.handles.sum (fun _ _ => 0) = 0 := Table.sum_eq_zero (by intros; rfl)
  rw [h0, Nat.add_zero] at hadd
  have hmap : accepted.map Handle.Accepted.packet = (s.handles.entries.filter pick).flatMap
      fun x => (x.2.listen ip tcp (draw x.1)).2.map Handle.Accepted.packet := List.map_flatMap ..
  show repliesTo id (s.schemeFile ++ accepted.mapIdx _) + parked _ (Table.insertAll _ _) id = _
  rw [repliesTo_append, repliesTo_mapIdx (f := fun i => s.handles.next + i), parked,
    Table.total_insertAll, hnew, Nat.add_zero, Nat.add_assoc, hmap, withId, hpackets,
    Nat.add_comm (List.sum _)]
  exact congrArg (repliesTo id s.schemeFile + ·) hadd

theorem accounted_step (hid : id ≠ 0) (event : Event) (hc : s.Considerate event) :
    (s.step event).accounted id = s.accounted id + withId id (requested event) := by
  cases event with
  | request e p => exact accounted_schemeEvent hc
  | segment ip tcp draw =>
    show (s.tcpEvent ip tcp draw).accounted id = s.accounted id
    unfold tcpEvent
    dsimp only
    split
    · exact accounted_accept.trans (accounted_deliver hid hc)
    · exact accounted_deliver hid hc

end Tcpd

end Tcp

/-- In every run of a network daemon that closes no handle with a request parked at it, the requests
that were read are those answered and those parked, id by id; notices have the id 0, which the
kernel gives to no request. -/
theorem requests_answered_or_parked (id : Nat) (hid : id ≠ 0) :
    (∀ events, Each Tcp.Tcpd.step Tcp.Tcpd.Considerate Tcp.Tcpd.new events →
      (events.foldl Tcp.Tcpd.step Tcp.Tcpd.new).accounted id =
        withId id (events.flatMap Tcp.Tcpd.requested)) ∧
    (∀ events, Each Udp.Udpd.step Udp.Udpd.Considerate Udp.Udpd.new events →
      (events.foldl Udp.Udpd.step Udp.Udpd.new).accounted id =
        withId id (events.flatMap Udp.Udpd.requested)) ∧
    ∀ events, Each Ip.Ipd.step Ip.Ipd.Considerate Ip.Ipd.new events →
      (events.foldl Ip.Ipd.step Ip.Ipd.new).accounted id =
        withId id (events.flatMap Ip.Ipd.requested) := by
  refine ⟨fun events => ?_, fun events => ?_, fun events => ?_⟩
  · exact accounted_run (w := fun s : Tcp.Tcpd => s.accounted id) (parked_new ..) fun _ =>
      Tcp.Tcpd.accounted_step hid
  · exact accounted_run (w := fun s : Udp.Udpd => s.accounted id) (parked_new ..) fun _ =>
      Udp.Udpd.accounted_step hid
  · exact accounted_run (w := fun s : Ip.Ipd => s.accounted id) (parked_new ..) fun _ =>
      Ip.Ipd.accounted_step hid

/-- A `dup` on a listening handle waits for a connection. -/
theorem waiting_dup_is_parked :
    let memory : Nat → UInt8 := fun a => [108, 105, 115, 116, 101, 110].getD a 0
    let e : Tcp.Env := ⟨memory, 0, 0, 0, none⟩
    let events : List Tcp.Tcpd.Event :=
      [.request e ⟨1, 1, 0, 0, SYS_OPEN, 0, 0, 0⟩, .request e ⟨2, 1, 0, 0, SYS_DUP, 1, 0, 6⟩]
    let s := events.foldl Tcp.Tcpd.step Tcp.Tcpd.new
    repliesTo 2 s.schemeFile = 0 ∧ parked Tcp.Handle.parkedHere s.handles 2 = 1 ∧
      s.accounted 2 = 1 := by
  intro memory e events s
  refine ⟨by decide, by decide, ?_⟩
  apply (requests_answered_or_parked 2 (by decide)).1 events
  refine ⟨⟨fun h => absurd h (by decide), fun _ _ => ⟨by decide, by decide⟩⟩, ⟨?_, ?_⟩, trivial⟩
  · exact fun h => absurd h (by decide)
  · exact fun h => absurd h (by decide)

/-- A handle of each daemon is closed while a request waits at it: the request has gone without an
answer. -/
theorem closing_forgets_requests :
    let memory : Nat → UInt8 := fun a =>
      [108, 105, 115, 116, 101, 110, 49, 46, 49, 46, 49, 46, 49, 58, 49, 54].getD a 0
    let tcpEnv : Tcp.Env := ⟨memory, 0, 0, 0, none⟩
    let udpEnv : Udp.Env := ⟨memory, 0, 0, none⟩
    let ipEnv : Ip.Env := ⟨memory, fun _ _ => .ok ()⟩
    let close : Packet := ⟨3, 1, 0, 0, SYS_CLOSE, 1, 0, 0⟩
    let read : Packet := ⟨2, 1, 0, 0, SYS_READ, 1, 0, 4⟩
    let tcpd := [Tcp.Tcpd.Event.request tcpEnv ⟨1, 1, 0, 0, SYS_OPEN, 0, 0, 0⟩,
      .request tcpEnv ⟨2, 1, 0, 0, SYS_DUP, 1, 0, 6⟩, .request tcpEnv close]
    let udpd := [Udp.Udpd.Event.request udpEnv ⟨1, 1, 0, 0, SYS_OPEN, 6, 9, 0⟩,
      .request udpEnv read, .request udpEnv close]
    let ipd := [Ip.Ipd.Event.request ipEnv ⟨1, 1, 0, 0, SYS_OPEN, 15, 1, 0⟩,
      .request ipEnv read, .request ipEnv close]
    ((tcpd.foldl Tcp.Tcpd.step Tcp.Tcpd.new).accounted 2 = 0 ∧
        withId 2 (tcpd.flatMap Tcp.Tcpd.requested) = 1) ∧
      ((udpd.foldl Udp.Udpd.step Udp.Udpd.new).accounted 2 = 0 ∧
        withId 2 (udpd.flatMap Udp.Udpd.requested) = 1) ∧
      (ipd.foldl Ip.Ipd.step Ip.Ipd.new).accounted 2 = 0 ∧
        withId 2 (ipd.flatMap Ip.Ipd.requested) = 1 := by
  decide

end Origel.Net
