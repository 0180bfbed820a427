import Origel.Net.Tcp

/-! What one packet and one segment do to the handles of the daemon, case by case. -/
namespace Origel.Net.Tcp

open Origel.Lib Origel.Daemon
open Origel.Kernel.UserScheme (Packet mux)

/-- What a request makes of the handle it is for. -/
inductive Request (p : Packet) : Handle → Handle → Prop
  | kept {h : Handle} : Request p h h
  | taken {h : Handle} {data : List (Ipv4 × Net.Tcp)} (hm : method p.a = some .dup)
      (hc : h.isConnected = false) (hs : data.Sublist h.data) : Request p h { h with data := data }
  | read {h : Handle} (hm : method p.a = some .read) : Request p h (h.read p.d).1
  | written {h : Handle} {n : Nat} (hs : h.state = .Established) : Request p h (h.advance n)
  | flagged {h : Handle} {flags : Nat} : Request p h { h with flags := flags }
  | watched {h : Handle} {events : Nat} : Request p h { h with events := events }
  | closing {h : Handle} {state : State} (hm : method p.a = some .close)
      (hc : h.closing = some state) : Request p h { h with data := [], state := state }
  | closed {h : Handle} {state : State} (hm : method p.a = some .close)
      (hc : h.closing = some state) :
      Request p h ({ h with data := [], state := state }.advance 1)

/-- A handle that joins the table, and the one it was made from. It takes `dials` to make one by
the address of a peer. -/
inductive Made (dials : Handle → Prop) : Option Handle → Handle → Prop
  | listening {l r : Socket} {flags : Nat} (hc : (Handle.new l r flags).isConnected = false) :
      Made dials none (Handle.new l r flags)
  | calling {l r : Socket} {flags : Nat} {seq : UInt32} :
      Made dials none (((Handle.new l r flags).opening .SynSent seq 0).advance 1)
  | accepted {h : Handle} {e : Ipv4 × Net.Tcp} {seq : UInt32} :
      Made dials (some h) ((h.accepting e seq).advance 1)
  | copied {h : Handle} : Made dials (some h) h.copy
  | dialled {h : Handle} {r : Socket} {seq : UInt32} (hd : dials (h.dial r seq))
      (hc : (h.dial r seq).isConnected = true) : Made dials (some h) (h.dial r seq)

theorem Made.localSocket {dials : Handle → Prop} {h h' : Handle} (hm : Made dials (some h) h') :
    h'.localSocket = h.localSocket := by
  cases hm <;> rfl

namespace Tcpd

/-- The packet asks for a connection by its address, and may have it. -/
def Dials (s : Tcpd) (e : Env) (p : Packet) : Prop :=
  method p.a = some .dup ∧ ∃ h path, s.handles.entry p.b = some h ∧
    Origel.RedoxFs.fromUtf8 (load e.memory p.c p.d) = some path ∧ path ≠ "" ∧ path ≠ "listen" ∧
    h.isConnected = false ∧ (h.dial (parseSocket path.toList) e.seq).isConnected = true ∧
    e.wire = none

/-- The handle is the one that the packet asks for by its address. -/
def Dialled (s : Tcpd) (e : Env) (p : Packet) (new : Handle) : Prop :=
  s.Dials e p ∧ ∃ h path, s.handles.entry p.b = some h ∧
    Origel.RedoxFs.fromUtf8 (load e.memory p.c p.d) = some path ∧
    new = h.dial (parseSocket path.toList) e.seq

/-- The ways in which `handle` ends on a packet. -/
inductive Handled (s : Tcpd) (e : Env) (p : Packet) : Done Tcpd → Prop
  | kept {r : Except Nat Nat} {bytes : List UInt8}
      (hr : s.handles.entry p.b = none → ∃ errno, r = .error errno ∧
        (errno = EWOULDBLOCK → method p.a = some .openUrl ∧ e.wire = some EWOULDBLOCK)) :
      Handled s e p ⟨s, r, bytes⟩
  | changed {h h' : Handle} {r : Except Nat Nat} {bytes : List UInt8} {sent : List Ipv4}
      (hh : s.handles.entry p.b = some h) (hr : Request p h h') :
      Handled s e p
        ⟨{ s with tcpFile := sent, handles := s.handles.modify p.b fun _ => h' }, r, bytes⟩
  | opened {h : Handle} {sent : List Ipv4} (hm : method p.a = some .openUrl)
      (hh : Made (fun _ => False) none h)
      (hp : s.ports h.localSocket.port = none) :
      Handled s e p (insert { s with
        tcpFile := sent
        ports := Function.update s.ports h.localSocket.port (some 1) } h)
  | joined {h h' new : Handle} {sent : List Ipv4} (hm : method p.a = some .dup)
      (hh : s.handles.entry p.b = some h) (hr : Request p h h')
      (hn : Made (s.Dialled e p) (some h) new) :
      Handled s e p (join { s with
        tcpFile := sent
        handles := s.handles.modify p.b fun _ => h' } new)
  | removed {h : Handle} (hm : method p.a = some .close) (hh : s.handles.entry p.b = some h)
      (hc : h.closing = none) :
      Handled s e p (succeed { s with
        handles := s.handles.remove p.b
        ports := release s.ports h.localSocket.port } 0)

theorem send_none {s : Tcpd} {e : Env} {ip : Ipv4} (h : e.wire = none) :
    s.send e ip = .ok { s with tcpFile := s.tcpFile ++ [ip] } := by rw [send, h]

theorem send_some {s : Tcpd} {e : Env} {ip : Ipv4} {errno : Nat} (h : e.wire = some errno) :
    s.send e ip = .error errno := by rw [send, h]

variable {s : Tcpd} {e : Env} {p : Packet}

/-- A request that fails at once. -/
theorem Handled.failed {errno : Nat} (he : errno ≠ EWOULDBLOCK) : Handled s e p (fail s errno) :=
  .kept fun _ => ⟨errno, rfl, fun h => (he h).elim⟩

/-- A request that leaves everything as it was, for a handle that is there. -/
theorem Handled.present {h : Handle} (hh : s.handles.entry p.b = some h) (r : Except Nat Nat)
    (bytes : List UInt8) : Handled s e p ⟨s, r, bytes⟩ :=
  .kept fun hn => by rw [hh] at hn; cases hn

theorem handled_openUrl (hm : method p.a = some .openUrl) (url : List UInt8)
    (flags uid gid : Nat) : Handled s e p (openUrl e s url flags uid gid) := by
  have hfail : ∀ errno, (errno = EWOULDBLOCK → e.wire = some EWOULDBLOCK) →
      Handled s e p (fail s errno) := by
    intro errno he
    exact .kept fun _ => ⟨errno, rfl, fun h => ⟨hm, he h⟩⟩
  unfold openUrl
  cases Origel.RedoxFs.fromUtf8 url with
  | none => exact hfail _ fun h => absurd h (by decide)
  | some path =>
    dsimp only
    generalize parsePath e.port path.toList = sockets
    obtain ⟨remote, bound⟩ := sockets
    dsimp only
    split
    · exact hfail _ fun h => absurd h (by decide)
    split
    · exact hfail _ fun h => absurd h (by decide)
    next hp =>
      have hp : s.ports bound.port = none := by
        cases hv : s.ports bound.port with
        | none => rfl
        | some n => rw [hv] at hp; exact (hp rfl).elim
      split
      next hc =>
        cases hw : e.wire with
        | some errno =>
          rw [send_some hw]
          exact hfail errno fun h => by rw [← h]; exact hw
        | none =>
          rw [send_none hw]
          exact Handled.opened (s := s) hm .calling hp
      next hc => exact Handled.opened (s := s) hm (.listening (by simpa using hc)) hp

/-- A request that changes the handle it is for, with what the network has been sent. -/
theorem Handled.modify {h : Handle} {f : Handle → Handle} (hh : s.handles.entry p.b = some h)
    (hr : Request p h (f h)) (sent : List Ipv4) (r : Except Nat Nat) (bytes : List UInt8) :
    Handled s e p ⟨{ s with tcpFile := sent, handles := s.handles.modify p.b f }, r, bytes⟩ := by
  have hm : s.handles.modify p.b f = s.handles.modify p.b fun _ => f h :=
    Table.modify_congr hh rfl
  rw [hm]
  exact .changed hh hr

/-- A `dup` that changes the handle it is for and makes another. -/
theorem Handled.join {h new : Handle} {f : Handle → Handle} (hm : method p.a = some .dup)
    (hh : s.handles.entry p.b = some h) (hr : Request p h (f h))
    (hn : Made (s.Dialled e p) (some h) new) (sent : List Ipv4) :
    Handled s e p ({ s with tcpFile := sent, handles := s.handles.modify p.b f }.join new) := by
  have hm' : s.handles.modify p.b f = s.handles.modify p.b fun _ => f h :=
    Table.modify_congr hh rfl
  rw [hm']
  exact .joined hm hh hr hn

theorem handled_dup (hm : method p.a = some .dup) :
    Handled s e p (dup e s p.b (load e.memory p.c p.d)) := by
  unfold dup
  cases hpath : Origel.RedoxFs.fromUtf8 (load e.memory p.c p.d) with
  | none => exact .failed (by decide)
  | some path =>
    cases hh : s.handles.entry p.b with
    | none => exact .failed (by decide)
    | some h =>
      dsimp only
      split
      · split
        · exact .failed (by decide)
        next hc =>
          have hc : h.isConnected = false := by simpa using hc
          split
          next front data hdata =>
            have hsub : data.Sublist h.data := by rw [hdata]; exact List.sublist_cons_self ..
            cases hw : e.wire with
            | some errno =>
              rw [send_some hw]
              exact Handled.modify (f := fun h => { h with data := data }) hh (.taken hm hc hsub)
                s.tcpFile _ _
            | none =>
              rw [send_none hw]
              have hret : ((h.accepting front e.seq).advance 1 |>.retain data).Sublist h.data :=
                List.filter_sublist.trans hsub
              dsimp only [modify]
              rw [Table.modify_modify]
              exact Handled.join (f := fun a => { a with data := _ }) hm hh
                (.taken hm hc hret) .accepted _
          · exact .present hh _ _
      next hlisten =>
        split
        · have hj := Handled.join (f := id) hm hh .kept (.copied : Made (s.Dialled e p) (some h) _) s.tcpFile
          rwa [Table.modify_eq_self hh rfl] at hj
        next hempty =>
          split
          · exact .failed (by decide)
          next hc =>
            have hc : h.isConnected = false := by simpa using hc
            split
            next hdial =>
              have hret : ((h.dial (parseSocket path.toList) e.seq).retain h.data).Sublist h.data :=
                List.filter_sublist
              cases hw : e.wire with
              | some errno =>
                rw [send_some hw]
                exact Handled.modify
                  (f := fun a => { a with data := (h.dial _ e.seq).retain a.data }) hh
                  (.taken hm hc hret) s.tcpFile _ _
              | none =>
                rw [send_none hw]
                exact Handled.join
                  (f := fun a => { a with data := (h.dial _ e.seq).retain a.data }) hm hh
                  (.taken hm hc hret)
                  (.dialled ⟨⟨hm, h, path, hh, hpath, hempty, hlisten, hc, hdial, hw⟩,
                    h, path, hh, hpath, rfl⟩ hdial) _
            · exact .failed (by decide)

theorem handled_read (hm : method p.a = some .read) : Handled s e p (read s p.b p.d) := by
  unfold read
  cases hh : s.handles.entry p.b with
  | none => exact .failed (by decide)
  | some h => exact Handled.modify (f := fun h => (h.read p.d).1) hh (.read hm) s.tcpFile _ _

theorem handled_write (buf : List UInt8) : Handled s e p (write e s p.b buf) := by
  unfold write
  cases hh : s.handles.entry p.b with
  | none => exact .failed (by decide)
  | some h =>
    dsimp only
    split
    · exact .present hh _ _
    · split
      · exact .present hh _ _
      · split
        next hs =>
          cases hw : e.wire with
          | some errno =>
            rw [send_some hw]
            exact .present hh _ _
          | none =>
            rw [send_none hw]
            exact Handled.modify (f := fun h => h.advance buf.length) hh (.written hs) _ _ _
        · exact .present hh _ _

theorem handled_close (hm : method p.a = some .close) : Handled s e p (close e s p.b) := by
  unfold close
  cases hh : s.handles.entry p.b with
  | none => exact .failed (by decide)
  | some h =>
    dsimp only
    cases hc : h.closing with
    | none => exact .removed hm hh hc
    | some state =>
      dsimp only
      cases hw : e.wire with
      | some errno =>
        rw [send_some hw]
        exact .changed hh (.closing hm hc)
      | none =>
        rw [send_none hw]
        have hmm := @Table.modify_modify _ s.handles p.b
          (fun _ => { h with data := [], state := state }) (·.advance 1)
        dsimp only [modify, succeed]
        rw [hmm]
        exact .changed hh (.closed hm hc)

theorem handled : Handled s e p ((scheme e).handle e.memory s p) := by
  refine SchemeMut.handle_of (fun _ he => .failed he) (fun hm => handled_openUrl hm _ _ _ p.gid) handled_dup
    handled_read (fun _ => handled_write _) ?fcntl ?fevent ?fpath ?fsync handled_close
  case fcntl =>
    unfold fcntl
    cases hh : s.handles.entry p.b with
    | none => exact .failed (by decide)
    | some h =>
      dsimp only
      split
      · exact .present hh _ _
      · split
        · exact Handled.modify (f := fun h => { h with flags := _ }) hh .flagged s.tcpFile _ _
        · exact .present hh _ _
  case fevent =>
    unfold fevent
    cases hh : s.handles.entry p.b with
    | none => exact .failed (by decide)
    | some h => exact Handled.modify (f := fun h => { h with events := _ }) hh .watched s.tcpFile _ _
  case fpath =>
    unfold fpath
    cases hh : s.handles.entry p.b with
    | none => exact .failed (by decide)
    | some h => exact .present hh _ _
  case fsync =>
    unfold fsync
    cases hh : s.handles.entry p.b with
    | none => exact .failed (by decide)
    | some h => exact .present hh _ _

/-- What becomes of a packet: it is answered, or parked, or lost where nobody is left to park it
at. -/
theorem schemeEvent_cases (s : Tcpd) (e : Env) (p : Packet) : ∃ d, Handled s e p d ∧
    ((∃ bytes, s.schemeEvent e p = d.state.reply ⟨{ p with a := mux d.result }, bytes⟩) ∨
      (∃ h h', d.state.handles.entry p.b = some h ∧ park p h = some h' ∧
        s.schemeEvent e p = d.state.modify p.b fun _ => h') ∨
      mux d.result = mux (.error EWOULDBLOCK) ∧ d.state.handles.entry p.b = none ∧
        s.schemeEvent e p = d.state) := by
  refine ⟨_, handled, ?_⟩
  unfold schemeEvent
  dsimp only
  split
  next hb =>
    cases hh : ((scheme e).handle e.memory s p).state.handles.entry p.b with
    | none => exact .inr (.inr ⟨hb, rfl, rfl⟩)
    | some h =>
      dsimp only
      cases hp : park p h with
      | none => exact .inl ⟨_, rfl⟩
      | some h' => exact .inr (.inl ⟨h, h', rfl, hp, rfl⟩)
  next hb => exact .inl ⟨_, rfl⟩

end Tcpd

namespace Handle

variable {h : Handle} {ip : Ipv4} {tcp : Net.Tcp} {draw : Draws} {id : Nat}

/-- The segment is an answer to all that the handle has sent, on an open connection. -/
def Takes (h : Handle) (tcp : Net.Tcp) : Prop :=
  h.state = .Established ∧ tcp.flagged (TCP_SYN ||| TCP_ACK) TCP_ACK = true ∧
    tcp.header.ackNum = h.seq

/-- The segment ends the connection that this side has closed. -/
def Finishes (h : Handle) (tcp : Net.Tcp) : Prop :=
  tcp.header.ackNum = h.seq ∧
    ((h.state = .FinWait1 ∧ tcp.flagged (TCP_SYN ||| TCP_ACK) TCP_ACK = true ∧
        tcp.flagged TCP_FIN TCP_FIN = true) ∨
      (h.state = .FinWait2 ∧
        tcp.flagged (TCP_SYN ||| TCP_ACK ||| TCP_FIN) (TCP_ACK ||| TCP_FIN) = true) ∨
      (h.state = .LastAck ∧ tcp.flagged (TCP_SYN ||| TCP_ACK) TCP_ACK = true))

theorem receive_closes : (h.receive ip tcp).closes = true ↔ h.Finishes tcp := by
  unfold receive Finishes
  cases h.state <;> dsimp only [received]
  case FinWait1 => grind
  case FinWait2 => grind
  case LastAck => grind
  case SynReceived => grind
  case SynSent => grind
  case Established => grind
  all_goals simp

/-- What a segment does to the handle itself: it moves the state and the number acknowledged, and
brings data to an open connection. -/
theorem receive_cases (h : Handle) (ip : Ipv4) (tcp : Net.Tcp) :
    (∃ state ack, (h.receive ip tcp).handle = { h with state := state, ack := ack } ∧
      (state = h.state ∨ state ≠ .SynSent ∧ state ≠ .SynReceived ∧ state ≠ .Listen)) ∨
    h.Takes tcp ∧ tcp.data ≠ [] ∧ (h.receive ip tcp).handle =
      { h with ack := tcp.header.sequence + UInt32.ofNat tcp.data.length }.push (ip, tcp) := by
  have hsame : ∃ state ack, h = { h with state := state, ack := ack } ∧
      (state = h.state ∨ state ≠ .SynSent ∧ state ≠ .SynReceived ∧ state ≠ .Listen) :=
    ⟨h.state, h.ack, rfl, .inl rfl⟩
  unfold receive
  cases hs : h.state
  case Established =>
    dsimp only [received]
    split
    next hc =>
      obtain ⟨hf, ha⟩ := Bool.and_eq_true_iff.mp hc
      split
      next hd => exact .inr ⟨⟨hs, hf, by simpa using ha⟩, hd, rfl⟩
      next hd =>
        left
        split
        · exact ⟨_, _, rfl, .inr (by decide)⟩
        · exact ⟨.Established, _, rfl, .inl rfl⟩
    next hc => exact .inl (hs ▸ hsame)
  all_goals
    left
    dsimp only [received]
  case SynReceived =>
    split
    · exact ⟨_, h.ack, rfl, .inr (by decide)⟩
    · exact hs ▸ hsame
  case SynSent =>
    split
    · exact ⟨_, _, rfl, .inr (by decide)⟩
    · exact hs ▸ hsame
  case FinWait1 =>
    split
    · split
      · exact ⟨_, _, rfl, .inr (by decide)⟩
      · exact ⟨_, _, rfl, .inr (by decide)⟩
    · exact hs ▸ hsame
  case FinWait2 =>
    split
    · exact ⟨_, _, rfl, .inr (by decide)⟩
    · exact hs ▸ hsame
  case LastAck =>
    split
    · exact ⟨_, h.ack, rfl, .inr (by decide)⟩
    · exact hs ▸ hsame
  all_goals exact hs ▸ hsame

/-- What a segment leaves alone in a handle before the parked requests are answered. -/
theorem receive_kept (h : Handle) (ip : Ipv4) (tcp : Net.Tcp) :
    (h.receive ip tcp).handle.localSocket = h.localSocket ∧
    (h.receive ip tcp).handle.remoteSocket = h.remoteSocket ∧
    (h.receive ip tcp).handle.seq = h.seq ∧
    (h.receive ip tcp).handle.todoDup = h.todoDup ∧
    (h.receive ip tcp).handle.todoRead = h.todoRead ∧
    (h.receive ip tcp).handle.todoWrite = h.todoWrite ∧
    (h.receive ip tcp).handle.history.syn = h.history.syn ∧
    (h.receive ip tcp).handle.history.returned = h.history.returned := by
  rcases receive_cases h ip tcp with ⟨state, ack, he, _⟩ | ⟨_, _, he⟩
  · simp [he]
  · simp [he, push]

/-- The parked write of an open connection is answered and no other; its bytes are counted. -/
theorem answerWrite_cases (h : Handle) (draw : Draws) :
    (h.answerWrite draw = (h, [], []) ∧ (h.todoWrite = [] ∨ h.state ≠ .Established)) ∨
    ∃ p todo n a sent, h.todoWrite = p :: todo ∧ h.state = .Established ∧
      h.answerWrite draw =
        ({ h with todoWrite := todo }.advance n, [⟨{ p with a := a }, []⟩], sent) := by
  unfold answerWrite
  cases ht : h.todoWrite with
  | nil => exact .inl ⟨rfl, .inl rfl⟩
  | cons p todo =>
    dsimp only
    split
    next hs =>
      right
      cases draw.wire with
      | none => exact ⟨p, todo, _, _, _, rfl, hs, rfl⟩
      | some errno =>
        refine ⟨p, todo, 0, mux (.error errno), [], rfl, hs, ?_⟩
        simp [advance]
    next hs => exact .inl ⟨rfl, .inr hs⟩

theorem serve_closes : (h.serve id ip tcp draw).closes = true ↔ h.Finishes tcp := receive_closes

/-- A handle that is served is the one the segment has left, with reads and perhaps a write
answered. -/
theorem serve_handle : (h.serve id ip tcp draw).handle =
    ((h.receive ip tcp).handle.serveReads.1.answerWrite draw).1 := rfl

theorem serve_localSocket : (h.serve id ip tcp draw).handle.localSocket = h.localSocket := by
  rw [serve_handle]
  have hr := (receive_kept h ip tcp).1
  rcases answerWrite_cases (h.receive ip tcp).handle.serveReads.1 draw with
    ⟨he, _⟩ | ⟨p, todo, n, a, sent, _, _, he⟩
  · rw [he]
    exact hr
  · rw [he]
    exact hr

/-- The connections that a listening handle accepts are made from it. -/
theorem accept_made {k : Nat} {todo : List Packet} {data : List (Ipv4 × Net.Tcp)}
    {a : Accepted} (ha : a ∈ (h.accept draw k todo data).2.2) :
    ∃ x seq, a.handle = (h.accepting x seq).advance 1 := by
  fun_induction accept h draw k todo data with
  | case1 => cases ha
  | case2 => cases ha
  | case3 k p todo e data handle sent handle' todo' data' accepted hrec ih =>
    rcases List.mem_cons.mp ha with rfl | ha
    · exact ⟨e, _, rfl⟩
    · exact ih (by rw [hrec]; exact ha)

end Handle

namespace Tcpd

variable {s : Tcpd} {e : Env} {p : Packet} {d : Done Tcpd} {ip : Ipv4} {tcp : Net.Tcp}
  {draw : Nat → Draws} {id : Nat} {h h' : Handle}

/-- A handle after a request was handled: one from before, or a new one. -/
theorem Handled.entry (hd : Handled s e p d) (hh : d.state.handles.entry id = some h') :
    (∃ h, s.handles.entry id = some h ∧ (id = p.b ∧ Request p h h' ∨ h' = h)) ∨
    s.handles.next ≤ id ∧ ∃ parent, (∀ h, parent = some h → ∃ k, s.handles.entry k = some h) ∧
      Made (s.Dialled e p) parent h' := by
  cases hd with
  | kept => exact .inl ⟨h', hh, .inr rfl⟩
  | @changed h _ _ _ _ hb hr =>
    left
    by_cases hid : id = p.b
    · subst hid
      rw [Table.entry_modify_self, hb] at hh
      cases hh
      exact ⟨h, hb, .inl ⟨rfl, hr⟩⟩
    · rw [Table.entry_modify_of_ne hid] at hh
      exact ⟨h', hh, .inr rfl⟩
  | opened _ hn _ =>
    by_cases hid : id = s.handles.next
    · subst hid
      cases (Table.entry_insert_self (t := s.handles)).symm.trans hh
      refine .inr ⟨le_rfl, none, (fun _ he => nomatch he), ?_⟩
      cases hn with
      | listening hc => exact .listening hc
      | calling => exact .calling
    · exact .inl ⟨h', (Table.entry_insert_of_ne hid).symm.trans hh, .inr rfl⟩
  | @joined h h1 new _ _ hb hr hn =>
    by_cases hid : id = s.handles.next
    · subst hid
      cases (Table.entry_insert_self (t := s.handles.modify p.b fun _ => h1)).symm.trans hh
      refine .inr ⟨le_rfl, some h, ?_, hn⟩
      intro h1 he
      cases he
      exact ⟨p.b, hb⟩
    · have hh := (Table.entry_insert_of_ne (t := s.handles.modify p.b fun _ => h1) hid).symm.trans hh
      left
      by_cases hid : id = p.b
      · subst hid
        rw [Table.entry_modify_self, hb] at hh
        cases hh
        exact ⟨h, hb, .inl ⟨rfl, hr⟩⟩
      · rw [Table.entry_modify_of_ne hid] at hh
        exact ⟨h', hh, .inr rfl⟩
  | removed _ hb _ =>
    left
    by_cases hid : id = p.b
    · subst hid
      cases (Table.entry_remove_self (t := s.handles)).symm.trans hh
    · exact ⟨h', (Table.entry_remove_of_ne hid).symm.trans hh, .inr rfl⟩

/-- A handle after a packet of the scheme file. -/
theorem entry_schemeEvent (hh : (s.schemeEvent e p).handles.entry id = some h') :
    (∃ h, s.handles.entry id = some h ∧
      (id = p.b ∧ (∃ h1, Request p h h1 ∧ (h' = h1 ∨ park p h1 = some h')) ∨ h' = h)) ∨
    s.handles.next ≤ id ∧ ∃ parent h1, (∀ h, parent = some h → ∃ k, s.handles.entry k = some h) ∧
      Made (s.Dialled e p) parent h1 ∧ (h' = h1 ∨ park p h1 = some h') := by
  have hsame : ∀ {d}, Handled s e p d → d.state.handles.entry id = some h' →
      (∃ h, s.handles.entry id = some h ∧
        (id = p.b ∧ (∃ h1, Request p h h1 ∧ (h' = h1 ∨ park p h1 = some h')) ∨ h' = h)) ∨
      s.handles.next ≤ id ∧ ∃ parent h1,
        (∀ h, parent = some h → ∃ k, s.handles.entry k = some h) ∧
        Made (s.Dialled e p) parent h1 ∧ (h' = h1 ∨ park p h1 = some h') := by
    intro d hd hh
    rcases hd.entry hh with ⟨h, hs, ⟨hid, hr⟩ | he⟩ | ⟨hle, parent, hpar, hm⟩
    · exact .inl ⟨h, hs, .inl ⟨hid, h', hr, .inl rfl⟩⟩
    · exact .inl ⟨h, hs, .inr he⟩
    · exact .inr ⟨hle, parent, h', hpar, hm, .inl rfl⟩
  obtain ⟨d, hd, ⟨bytes, he⟩ | ⟨h1, h2, hb, hp, he⟩ | ⟨_, _, he⟩⟩ := schemeEvent_cases s e p
  · rw [he] at hh
    exact hsame hd hh
  · rw [he] at hh
    by_cases hid : id = p.b
    · subst hid
      have hh := (Table.entry_modify_self (t := d.state.handles)).symm.trans hh
      rw [hb] at hh
      cases hh
      rcases hd.entry hb with ⟨h, hs, ⟨_, hr⟩ | he⟩ | ⟨hle, parent, hpar, hm⟩
      · exact .inl ⟨h, hs, .inl ⟨rfl, h1, hr, .inr hp⟩⟩
      · subst he
        exact .inl ⟨h1, hs, .inl ⟨rfl, h1, .kept, .inr hp⟩⟩
      · exact .inr ⟨hle, parent, h1, hpar, hm, .inr hp⟩
    · exact hsame hd ((Table.entry_modify_of_ne (t := d.state.handles) hid).symm.trans hh)
  · rw [he] at hh
    exact hsame hd hh

/-- The segment is for a connection of the daemon. -/
theorem connections_eq_nil : s.connections ip tcp = [] ↔
    ∀ id h, s.handles.entry id = some h → h.matchesSegment ip tcp = true → h.state = .Listen := by
  rw [connections, List.filter_eq_nil_iff]
  constructor
  · intro hnil id h hh hm
    have := hnil (id, h) (Table.mem_entries.mpr hh)
    by_contra hs
    apply this
    simp [hm, hs]
  · intro hall x hx
    have := hall x.1 x.2 (Table.mem_entries.mp hx)
    intro hp
    obtain ⟨hs, hm⟩ := Bool.and_eq_true_iff.mp hp
    rw [this hm] at hs
    cases hs

/-- A connection after a segment: it is served if the segment is for it, unless that ends it. -/
theorem entry_deliver (hh : (s.deliver ip tcp draw).handles.entry id = some h') :
    ∃ h, s.handles.entry id = some h ∧
      (h.state ≠ .Listen ∧ h.matchesSegment ip tcp = true ∧ ¬ h.Finishes tcp ∧
          h' = (h.serve id ip tcp (draw id)).handle ∨
        (h.state = .Listen ∨ h.matchesSegment ip tcp = false) ∧ h' = h) := by
  obtain ⟨h, hs, hg⟩ := Option.bind_eq_some_iff.mp hh
  refine ⟨h, hs, ?_⟩
  dsimp only at hg
  split at hg
  next hm =>
    obtain ⟨hl, hm⟩ := Bool.and_eq_true_iff.mp hm
    split at hg
    · cases hg
    next hc =>
      refine .inl ⟨by simpa using hl, hm, ?_, (Option.some.inj hg).symm⟩
      exact fun hf => hc (Handle.serve_closes.mpr hf)
  next hm =>
    refine .inr ⟨?_, (Option.some.inj hg).symm⟩
    by_contra hno
    apply hm
    rcases not_or.mp hno with ⟨hl, hm⟩
    simp [hl, hm]

/-- A handle after a segment. -/
theorem entry_tcpEvent (hh : (s.tcpEvent ip tcp draw).handles.entry id = some h') :
    (∃ h, s.handles.entry id = some h ∧
      (h.state ≠ .Listen ∧ h.matchesSegment ip tcp = true ∧ ¬ h.Finishes tcp ∧
          h' = (h.serve id ip tcp (draw id)).handle ∨
        (h.state = .Listen ∨ h.matchesSegment ip tcp = false) ∧ h' = h ∨
        h.state = .Listen ∧ h.matchesSegment ip tcp = true ∧
          h' = (h.listen ip tcp (draw id)).1)) ∨
    s.handles.next ≤ id ∧ ∃ parent x seq, h' = (Handle.accepting parent x seq).advance 1 := by
  unfold tcpEvent at hh
  dsimp only at hh
  split at hh
  next hacc =>
    rcases Table.insertAll_cases hh with hh | ⟨hle, hh⟩
    · left
      rw [Table.entry_map] at hh
      obtain ⟨h1, hd, he⟩ := Option.map_eq_some_iff.mp hh
      obtain ⟨h, hs, ⟨hl, hm, hf, h1e⟩ | ⟨hl, h1e⟩⟩ := entry_deliver hd
      · exact (hl (connections_eq_nil.mp hacc.1 id h hs hm)).elim
      · subst h1e
        refine ⟨h1, hs, .inr ?_⟩
        split at he
        next hm =>
          obtain ⟨hl, hm⟩ := Bool.and_eq_true_iff.mp hm
          exact .inr ⟨by simpa using hl, hm, he.symm⟩
        · exact .inl ⟨hl, he.symm⟩
    · right
      refine ⟨hle, ?_⟩
      obtain ⟨a, ha, rfl⟩ := List.mem_map.mp (List.mem_of_getElem? hh)
      obtain ⟨x, _, ha⟩ := List.mem_flatMap.mp ha
      exact ⟨_, Handle.accept_made ha⟩
  · obtain ⟨h, hs, hc⟩ := entry_deliver hh
    left
    rcases hc with hc | hc
    · exact ⟨h, hs, .inl hc⟩
    · exact ⟨h, hs, .inr (.inl hc)⟩

end Tcpd

end Origel.Net.Tcp
