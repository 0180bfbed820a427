import Origel.Net.Handling
import Origel.Net.Udp

/-! The counts that `tcpd` and `udpd` keep for their ports, against the handles that use them. -/
namespace Origel.Net

open Origel.Lib Origel.Daemon
open Origel.Kernel.UserScheme (Packet mux)

/-- The handles of a table with the given port. -/
def users {α : Type} (port : α → UInt16) (t : Table α) (q : UInt16) : Nat :=
  t.total fun h => if port h = q then 1 else 0

/-- The counts are exact: a port is there with the number of its users, or is not there and has
none. -/
def Exact (ports : UInt16 → Option Nat) (used : UInt16 → Nat) : Prop :=
  ∀ q, ports q = if used q = 0 then none else some (used q)

/-- The counts once `gone` handles have left each port: leaving counts up, so each of them is
counted twice over. -/
def Counted (ports : UInt16 → Option Nat) (used gone : UInt16 → Nat) : Prop :=
  ∀ q, ports q = if used q + gone q = 0 then none else some (used q + 2 * gone q)

theorem Exact.counted {ports : UInt16 → Option Nat} {used : UInt16 → Nat} (h : Exact ports used) :
    Counted ports used fun _ => 0 := by
  intro q
  rw [h q]
  rfl

theorem Exact.used_pos {ports : UInt16 → Option Nat} {used : UInt16 → Nat} {q : UInt16}
    (h : Exact ports used) (hq : ports q ≠ none) : 0 < used q := by
  by_contra h0
  rw [h q, if_pos (by omega)] at hq
  exact hq rfl

namespace Counted

variable {ports : UInt16 → Option Nat} {used used' gone gone' : UInt16 → Nat} {port : UInt16}

theorem exact_iff (h : Counted ports used gone) : Exact ports used ↔ ∀ q, gone q = 0 := by
  constructor
  · intro he q
    have hq := (h q).symm.trans (he q)
    by_contra hg
    rw [if_neg (by omega)] at hq
    split at hq
    · cases hq
    · have := Option.some.inj hq
      omega
  · intro hg q
    rw [h q, hg q]
    simp

theorem claim (h : Counted ports used gone) (hp : ports port = none)
    (hu : ∀ q, used' q = used q + if port = q then 1 else 0) :
    Counted (Function.update ports port (some 1)) used' gone := by
  intro q
  by_cases hq : q = port
  · subst hq
    have h0 : used q + gone q = 0 := by
      by_contra hne
      rw [h q, if_neg hne] at hp
      cases hp
    rw [Function.update_self, hu q, if_pos rfl, if_neg (by omega)]
    congr 1
    omega
  · rw [Function.update_of_ne hq, h q, hu q, if_neg (Ne.symm hq)]
    rfl

theorem bump (h : Counted ports used gone) (hpos : 0 < used port)
    (hu : ∀ q, used' q = used q + if port = q then 1 else 0) :
    Counted (bump ports port) used' gone := by
  intro q
  unfold Net.bump
  by_cases hq : q = port
  · subst hq
    rw [Function.update_self, h q, hu q, if_pos rfl, if_neg (by omega), if_neg (by omega)]
    rw [Option.map_some]
    congr 1
    omega
  · rw [Function.update_of_ne hq, h q, hu q, if_neg (Ne.symm hq)]
    rfl

theorem release (h : Counted ports used gone)
    (hu : ∀ q, used' q + (if port = q then 1 else 0) = used q)
    (hg : ∀ q, gone' q = gone q + if port = q then 1 else 0) :
    Counted (release ports port) used' gone' := by
  have hport : used' port + 1 = used port := by simpa using hu port
  have hsome : ports port = some (used port + 2 * gone port) := by
    rw [h port, if_neg (by omega)]
  intro q
  unfold Net.release
  rw [hsome]
  dsimp only
  rw [if_neg (by omega)]
  by_cases hq : q = port
  · subst hq
    have hgq := hg q
    rw [if_pos rfl] at hgq
    rw [Function.update_self, if_neg (by omega)]
    congr 1
    omega
  · have huq := hu q
    have hgq := hg q
    rw [if_neg (Ne.symm hq), Nat.add_zero] at huq hgq
    rw [Function.update_of_ne hq, h q, hgq, huq]

/-- Several handles join their ports, each of which is in use. -/
theorem bumpAll (qs : List UInt16) (h : Counted ports used gone) (hpos : ∀ q ∈ qs, 0 < used q)
    (hu : ∀ q, used' q = used q + qs.count q) :
    Counted (qs.foldl Net.bump ports) used' gone := by
  induction qs generalizing ports used with
  | nil =>
    have he : used' = used := by
      funext q
      simpa using hu q
    rw [he]
    exact h
  | cons p qs ih =>
    apply ih (h.bump (hpos p (List.mem_cons_self ..)) fun q => rfl)
    · intro q hq
      have := hpos q (List.mem_cons_of_mem p hq)
      omega
    · intro q
      rw [hu q, List.count_cons]
      by_cases hq : p = q
      · simp [hq]
        omega
      · simp [hq]

/-- Several handles leave their ports. -/
theorem releaseAll (qs : List UInt16) (h : Counted ports used gone)
    (hu : ∀ q, used' q + qs.count q = used q) (hg : ∀ q, gone' q = gone q + qs.count q) :
    Counted (qs.foldl Net.release ports) used' gone' := by
  induction qs generalizing ports used gone with
  | nil =>
    have he : used' = used := by
      funext q
      simpa using hu q
    have he' : gone' = gone := by
      funext q
      simpa using hg q
    rw [he, he']
    exact h
  | cons p qs ih =>
    have hcount : ∀ q, (p :: qs).count q = qs.count q + if p = q then 1 else 0 := by
      intro q
      rw [List.count_cons]
      simp
    have hrel : Counted (Net.release ports p) (fun q => used' q + qs.count q)
        fun q => gone q + if p = q then 1 else 0 := by
      apply h.release
      · intro q
        have := hu q
        rw [hcount] at this
        omega
      · intro q
        rfl
    apply ih hrel
    · intro q
      rfl
    · intro q
      have := hg q
      rw [hcount] at this
      omega

end Counted

/-- How often `q` is the port of those picked out of a list, twice over. -/
theorem count_picked {α β : Type} (xs : List α) (pick : α → Bool) (f : α → β) (pick' : β → Bool)
    (port : β → UInt16) (q : UInt16) :
    ((((xs.filter pick).map f).filter pick').map port).count q =
      (xs.map fun x => if (pick x && pick' (f x)) = true ∧ port (f x) = q then 1 else 0).sum := by
  induction xs with
  | nil => rfl
  | cons x xs ih =>
    rw [List.map_cons, List.sum_cons, ← ih, List.filter_cons]
    cases hp : pick x
    · simp
    · cases hp' : pick' (f x)
      · simp [hp']
      · by_cases hq : port (f x) = q
        · simp [hp', hq, Nat.add_comm]
        · simp [hp', hq]

section Users

variable {α : Type} {port : α → UInt16} {t : Table α} {a b : α} {id : Nat}

theorem users_empty (first : Nat) (q : UInt16) : users port (Table.empty first) q = 0 :=
  Table.total_empty first

theorem counted_empty (first : Nat) :
    Counted (fun _ => none) (users port (Table.empty first)) fun _ => 0 := by
  intro q
  rw [users_empty]
  rfl

theorem users_insert (q : UInt16) :
    users port (t.insert a) q = users port t q + if port a = q then 1 else 0 := Table.total_insert

theorem users_remove (h : t.entry id = some a) (q : UInt16) :
    users port (t.remove id) q + (if port a = q then 1 else 0) = users port t q :=
  Table.total_remove h

theorem users_modify (h : t.entry id = some a) (hp : port b = port a) :
    users port (t.modify id fun _ => b) = users port t := by
  funext q
  have := Table.total_modify (f := fun _ => b) (w := fun h => if port h = q then 1 else 0) h
  rw [hp] at this
  unfold users
  omega

theorem users_map {g : Nat → α → α} (h : ∀ id a, t.entry id = some a → port (g id a) = port a) :
    users port (t.map g) = users port t := by
  funext q
  have hadd := Table.total_filterMap_add (t := t) (w := fun h => if port h = q then 1 else 0)
    (g := fun id a => some (g id a)) (u := fun _ _ => 0) (v := fun _ _ => 0) (by
      intro id a ha
      simp [h id a ha])
  exact Nat.add_right_cancel hadd

theorem users_insertAll (as : List α) (q : UInt16) :
    users port (t.insertAll as) q = users port t q + (as.map port).count q := by
  rw [users, Table.total_insertAll]
  congr 1
  induction as with
  | nil => rfl
  | cons a as ih =>
    rw [List.map_cons, List.sum_cons, ih, List.map_cons, List.count_cons]
    by_cases hq : port a = q
    · simp [hq, Nat.add_comm]
    · simp [hq]

theorem users_pos (h : t.entry id = some a) : 0 < users port t (port a) := by
  have := Table.le_total (w := fun h => if port h = port a then 1 else 0) h
  rw [if_pos rfl] at this
  exact this

theorem exists_of_users_pos {q : UInt16} (h : 0 < users port t q) :
    ∃ id a, t.entry id = some a ∧ port a = q := by
  obtain ⟨id, a, ha, hpos⟩ := Table.exists_of_total_pos h
  refine ⟨id, a, ha, ?_⟩
  by_contra hne
  rw [if_neg hne] at hpos
  omega

end Users

namespace Tcp

theorem Request.localSocket {p : Packet} {h h' : Handle} (hr : Request p h h') :
    h'.localSocket = h.localSocket := by
  cases hr with
  | read hm =>
    unfold Handle.read
    split
    · rfl
    · split
      · rfl
      · split <;> rfl
  | kept => rfl
  | taken => rfl
  | written => rfl
  | flagged => rfl
  | watched => rfl
  | closing => rfl
  | closed => rfl

namespace Tcpd

variable {s : Tcpd} {gone : UInt16 → Nat} {e : Env} {p : Packet} {ip : Ipv4} {tcp : Net.Tcp}
  {draw : Nat → Draws}

def users (s : Tcpd) : UInt16 → Nat := Net.users (fun h => h.localSocket.port) s.handles

/-- The event takes a handle out of the table: a `close` that nothing is left to say after, or a
segment that ends a connection. -/
def Removes (s : Tcpd) : Event → Prop
  | .request _ p => method p.a = some .close ∧
      ∃ h, s.handles.entry p.b = some h ∧ h.closing = none
  | .segment ip tcp _ => ∃ id h, s.handles.entry id = some h ∧
      h.matchesSegment ip tcp = true ∧ h.Finishes tcp

theorem park_localSocket {h h' : Handle} (hp : park p h = some h') :
    h'.localSocket = h.localSocket := by
  unfold park at hp
  split at hp
  · cases hp; rfl
  · cases hp; rfl
  · cases hp; rfl
  · cases hp

/-- Parking and answering leave the counts as they are. -/
theorem counted_schemeEvent {d : Done Tcpd} (hd : d = (scheme e).handle e.memory s p)
    (hc : Counted d.state.ports d.state.users gone) :
    Counted (s.schemeEvent e p).ports (s.schemeEvent e p).users gone := by
  subst hd
  unfold schemeEvent
  dsimp only
  split
  · split
    next h hh =>
      split
      next h' hp =>
        rw [users, modify, users_modify hh (congrArg Socket.port (park_localSocket hp))]
        exact hc
      · exact hc
    · exact hc
  · exact hc

theorem Handled.counted {d : Done Tcpd} (hd : Handled s e p d)
    (hr : ¬ s.Removes (.request e p)) (hc : Counted s.ports s.users gone) :
    Counted d.state.ports d.state.users gone := by
  cases hd with
  | kept => exact hc
  | changed hh hreq =>
    rw [users, users_modify hh (congrArg Socket.port hreq.localSocket)]
    exact hc
  | opened hm hh hp => exact hc.claim hp fun q => users_insert q
  | @joined h h' new _ hm hh hreq hn =>
    have hport : new.localSocket.port = h.localSocket.port := congrArg Socket.port hn.localSocket
    have hpos : 0 < s.users new.localSocket.port := by
      rw [hport]
      exact users_pos hh
    apply hc.bump hpos
    intro q
    show Net.users _ ((s.handles.modify p.b fun _ => h').insert new) q = _
    rw [users_insert, users_modify hh (congrArg Socket.port hreq.localSocket)]
    rfl
  | removed hm hh hc' => exact (hr ⟨hm, _, hh, hc'⟩).elim

theorem removes_counted (hr : s.Removes (.request e p)) (hc : Counted s.ports s.users gone) :
    ∃ gone', Counted (s.step (.request e p)).ports (s.step (.request e p)).users gone' ∧
      (∀ q, gone q ≤ gone' q) ∧ ∃ q, gone q < gone' q := by
  obtain ⟨hm, h, hh, hcl⟩ := hr
  have hd : (scheme e).handle e.memory s p = succeed { s with
      handles := s.handles.remove p.b
      ports := release s.ports h.localSocket.port } 0 := by
    simp only [SchemeMut.handle, hm]
    show close e s p.b = _
    simp [close, hh, hcl]
  refine ⟨fun q => gone q + if h.localSocket.port = q then 1 else 0, ?_, ?_, ?_⟩
  · apply counted_schemeEvent hd.symm
    exact hc.release (fun q => users_remove hh q) fun q => rfl
  · intro q
    dsimp only
    omega
  · exact ⟨h.localSocket.port, by simp⟩

/-- The ports of the handles that a segment takes out of the table. -/
def closedPorts (s : Tcpd) (ip : Ipv4) (tcp : Net.Tcp) (draw : Nat → Draws) : List UInt16 :=
  (((s.connections ip tcp).map fun e => e.2.serve e.1 ip tcp (draw e.1)).filter
    Served.closes).map fun v => v.handle.localSocket.port

theorem deliver_ports : (s.deliver ip tcp draw).ports =
    (s.closedPorts ip tcp draw).foldl release s.ports := by
  rw [closedPorts, List.foldl_map]
  rfl

theorem deliver_users (q : UInt16) :
    (s.deliver ip tcp draw).users q + (s.closedPorts ip tcp draw).count q = s.users q := by
  have hcount := count_picked s.handles.entries
    (fun e => e.2.state != .Listen && e.2.matchesSegment ip tcp)
    (fun e => e.2.serve e.1 ip tcp (draw e.1)) Served.closes (fun v => v.handle.localSocket.port) q
  have hadd := Table.total_filterMap_add (t := s.handles)
    (w := fun h => if h.localSocket.port = q then 1 else 0)
    (g := fun id h =>
      if h.state != .Listen && h.matchesSegment ip tcp then
        let v := h.serve id ip tcp (draw id)
        if v.closes then none else some v.handle
      else some h)
    (u := fun id h =>
      if ((h.state != .Listen && h.matchesSegment ip tcp) &&
        (h.serve id ip tcp (draw id)).closes) = true ∧
        (h.serve id ip tcp (draw id)).handle.localSocket.port = q then 1 else 0)
    (v := fun _ _ => 0) (by
      intro id h _
      have hport : (h.serve id ip tcp (draw id)).handle.localSocket.port = h.localSocket.port :=
        congrArg Socket.port Handle.serve_localSocket
      cases hm : h.state != .Listen && h.matchesSegment ip tcp
      · simp
      · cases hc : (h.serve id ip tcp (draw id)).closes
        · simp [hport, hc]
        · simp [hport, hc])
  have h0 : s.handles.sum (fun _ _ => 0) = 0 := Table.sum_eq_zero (by intros; rfl)
  rw [h0, Nat.add_zero] at hadd
  rw [closedPorts, connections, hcount]
  exact hadd

theorem counted_deliver (hc : Counted s.ports s.users gone) :
    Counted (s.deliver ip tcp draw).ports (s.deliver ip tcp draw).users
      fun q => gone q + (s.closedPorts ip tcp draw).count q := by
  rw [deliver_ports]
  exact hc.releaseAll _ deliver_users fun q => rfl

/-- The ports of the connections that a SYN makes. -/
def acceptedPorts (s : Tcpd) (ip : Ipv4) (tcp : Net.Tcp) (draw : Nat → Draws) : List UInt16 :=
  ((s.handles.entries.filter fun e => e.2.state == .Listen && e.2.matchesSegment ip tcp).flatMap
    fun e => (e.2.listen ip tcp (draw e.1)).2).map fun a => a.handle.localSocket.port

theorem counted_accept (hc : Counted s.ports s.users gone) :
    Counted (s.accept ip tcp draw).ports (s.accept ip tcp draw).users gone := by
  have hports : (s.accept ip tcp draw).ports =
      (s.acceptedPorts ip tcp draw).foldl bump s.ports := by
    rw [acceptedPorts, List.foldl_map]
    rfl
  rw [hports]
  apply hc.bumpAll
  · intro q hq
    obtain ⟨a, ha, rfl⟩ := List.mem_map.mp hq
    obtain ⟨e, he, ha⟩ := List.mem_flatMap.mp ha
    have hentry := Table.mem_entries.mp (List.mem_filter.mp he).1
    obtain ⟨x, seq, he⟩ := Handle.accept_made ha
    rw [he]
    show 0 < s.users e.2.localSocket.port
    exact users_pos hentry
  · intro q
    show Net.users _ (Table.insertAll _ _) q = _
    rw [users_insertAll, users_map, List.map_map]
    · rfl
    · intro id h _
      split <;> rfl

theorem counted_tcpEvent (hc : Counted s.ports s.users gone) :
    Counted (s.tcpEvent ip tcp draw).ports (s.tcpEvent ip tcp draw).users
      fun q => gone q + (s.closedPorts ip tcp draw).count q := by
  unfold tcpEvent
  dsimp only
  split
  · exact counted_accept (counted_deliver hc)
  · exact counted_deliver hc

theorem closedPorts_eq_nil (hr : ¬ s.Removes (.segment ip tcp draw)) :
    s.closedPorts ip tcp draw = [] := by
  rw [closedPorts, List.map_eq_nil_iff, List.filter_eq_nil_iff]
  intro v hv hcl
  obtain ⟨e, he, rfl⟩ := List.mem_map.mp hv
  obtain ⟨he, hm⟩ := List.mem_filter.mp he
  exact hr ⟨e.1, e.2, Table.mem_entries.mp he, (Bool.and_eq_true_iff.mp hm).2,
    Handle.serve_closes.mp hcl⟩

theorem mem_closedPorts {id : Nat} {h : Handle} (hh : s.handles.entry id = some h)
    (hm : h.matchesSegment ip tcp = true) (hf : h.Finishes tcp) :
    h.localSocket.port ∈ s.closedPorts ip tcp draw := by
  have hl : (h.state != .Listen) = true := by
    rcases hf.2 with ⟨hs, _⟩ | ⟨hs, _⟩ | ⟨hs, _⟩ <;> rw [hs] <;> rfl
  refine List.mem_map.mpr ⟨h.serve id ip tcp (draw id), ?_, ?_⟩
  · refine List.mem_filter.mpr ⟨List.mem_map.mpr ⟨(id, h), ?_, rfl⟩, Handle.serve_closes.mpr hf⟩
    exact List.mem_filter.mpr ⟨Table.mem_entries.mpr hh, by rw [hl, hm]; rfl⟩
  · rw [Handle.serve_localSocket]

/-- The step rule: what a daemon counts stays true of the handles it has and those it has lost. -/
theorem counted_step (event : Event) (hc : Counted s.ports s.users gone) :
    ∃ gone', Counted (s.step event).ports (s.step event).users gone' ∧ (∀ q, gone q ≤ gone' q) ∧
      (s.Removes event → ∃ q, gone q < gone' q) ∧ (¬ s.Removes event → gone' = gone) := by
  cases event with
  | request e p =>
    by_cases hr : s.Removes (.request e p)
    · obtain ⟨gone', hc', hle, hlt⟩ := removes_counted hr hc
      exact ⟨gone', hc', hle, fun _ => hlt, fun hn => (hn hr).elim⟩
    · refine ⟨gone, ?_, fun q => le_rfl, fun h => (hr h).elim, fun _ => rfl⟩
      exact counted_schemeEvent rfl (handled.counted hr hc)
  | segment ip tcp draw =>
    refine ⟨_, counted_tcpEvent hc, fun q => Nat.le_add_right .., ?_, ?_⟩
    · rintro ⟨id, h, hh, hm, hf⟩
      refine ⟨h.localSocket.port, ?_⟩
      have hmem : h.localSocket.port ∈ s.closedPorts ip tcp draw := mem_closedPorts hh hm hf
      have := List.count_pos_iff.mpr hmem
      omega
    · intro hn
      rw [closedPorts_eq_nil hn]
      rfl

theorem openUrl_in_use {url : List UInt8} {flags uid gid : Nat}
    (h : (openUrl e s url flags uid gid).result = .error EADDRINUSE)
    (hw : e.wire ≠ some EADDRINUSE) :
    ∃ path, Origel.RedoxFs.fromUtf8 url = some path ∧
      s.ports (parsePath e.port path.toList).2.port ≠ none := by
  unfold openUrl at h
  cases hpath : Origel.RedoxFs.fromUtf8 url with
  | none =>
    rw [hpath] at h
    cases h
  | some path =>
    refine ⟨path, rfl, fun hn => ?_⟩
    rw [hpath] at h
    dsimp only at h
    rw [hn] at h
    split at h
    · cases h
    · rw [if_neg (by simp)] at h
      split at h
      · cases hwire : e.wire with
        | none =>
          rw [send_none hwire] at h
          cases h
        | some errno =>
          rw [send_some hwire] at h
          rw [hwire] at hw
          cases h
          exact hw rfl
      · cases h

/-- The counts are exact, and `open` refuses a port only while some handle uses it. -/
def PortsKept (s : Tcpd) : Prop :=
  Exact s.ports s.users ∧
    ∀ e url flags uid gid, (openUrl e s url flags uid gid).result = .error EADDRINUSE →
      e.wire ≠ some EADDRINUSE →
      ∃ path id h, Origel.RedoxFs.fromUtf8 url = some path ∧ s.handles.entry id = some h ∧
        h.localSocket.port = (parsePath e.port path.toList).2.port

theorem portsKept_iff : s.PortsKept ↔ Counted s.ports s.users fun _ => 0 := by
  constructor
  · rintro ⟨he, _⟩
    exact he.counted
  · intro hc
    have he : Exact s.ports s.users := hc.exact_iff.mpr fun _ => rfl
    refine ⟨he, ?_⟩
    intro e url flags uid gid h hw
    obtain ⟨path, hpath, hp⟩ := openUrl_in_use h hw
    obtain ⟨id, h, hh, hq⟩ := exists_of_users_pos (he.used_pos hp)
    exact ⟨path, id, h, hpath, hh, hq⟩

theorem ports_kept_iff_none_removed (events : List Event) :
    Throughout step PortsKept new events ↔ Each step (fun s event => ¬ s.Removes event) new events := by
  apply throughout_iff_each
  · intro s event hs hr
    obtain ⟨gone', hc, _, _, hsame⟩ := counted_step event (portsKept_iff.mp hs)
    rw [hsame hr] at hc
    exact portsKept_iff.mpr hc
  · intro s event hs hr hn
    obtain ⟨gone', hc, _, hlt, _⟩ := counted_step event (portsKept_iff.mp hs)
    obtain ⟨q, hq⟩ := hlt (not_not.mp hr)
    have h0 := hc.exact_iff.mp hn.1 q
    omega
  · exact portsKept_iff.mpr (counted_empty 1)

end Tcpd

end Tcp

namespace Udp.Udpd

variable {s : Udpd} {gone : UInt16 → Nat} {e : Env} {p : Packet}

def users (s : Udpd) : UInt16 → Nat := Net.users (fun h => h.localSocket.port) s.handles

/-- The event takes a handle out of the table: any `close` of one that is there. -/
def Removes (s : Udpd) : Event → Prop
  | .request _ p => method p.a = some .close ∧ (s.handles.entry p.b).isSome
  | .datagram _ _ => False

theorem counted_modify {t : Udpd} {f : Handle → Handle} {id : Nat}
    (hl : ∀ h, (f h).localSocket = h.localSocket) (hc : Counted t.ports t.users gone) :
    Counted (t.modify id f).ports (t.modify id f).users gone := by
  have hu : (t.modify id f).users = t.users := by
    apply users_map
    intro k h _
    split
    · rw [hl]
    · rfl
  rw [hu]
  exact hc

/-- Parking and answering leave the counts as they are. -/
theorem counted_schemeEvent
    (hc : Counted ((scheme e).handle e.memory s p).state.ports
      ((scheme e).handle e.memory s p).state.users gone) :
    Counted (s.schemeEvent e p).ports (s.schemeEvent e p).users gone := by
  unfold schemeEvent
  dsimp only
  split
  · exact counted_modify (fun h => rfl) hc
  · exact hc

theorem Handled.counted {d : Done Udpd} (hd : Handled s p d)
    (hr : ¬ s.Removes (.request e p)) (hc : Counted s.ports s.users gone) :
    Counted d.state.ports d.state.users gone := by
  cases hd with
  | kept => exact hc
  | @changed h h' _ _ hh hl =>
    show Counted s.ports (Net.users _ (s.handles.modify p.b fun _ => h')) gone
    rw [users_modify hh (congrArg Socket.port hl)]
    exact hc
  | opened hm ht hp => exact hc.claim hp fun q => users_insert q
  | @joined h new hm hh hl =>
    have hpos : 0 < s.users h.localSocket.port := users_pos hh
    apply hc.bump hpos
    intro q
    show Net.users _ (s.handles.insert new) q = _
    rw [users_insert, hl]
    rfl
  | removed hm hh => exact (hr ⟨hm, by rw [hh]; rfl⟩).elim

theorem removes_counted (hr : s.Removes (.request e p)) (hc : Counted s.ports s.users gone) :
    ∃ gone', Counted (s.step (.request e p)).ports (s.step (.request e p)).users gone' ∧
      ∃ q, gone q < gone' q := by
  obtain ⟨hm, hsome⟩ := hr
  obtain ⟨h, hh⟩ := Option.isSome_iff_exists.mp hsome
  have hd : (scheme e).handle e.memory s p = succeed { s with
      handles := s.handles.remove p.b
      ports := release s.ports h.localSocket.port } 0 := by
    simp only [SchemeMut.handle, hm]
    show close s p.b = _
    simp [close, hh]
  refine ⟨fun q => gone q + if h.localSocket.port = q then 1 else 0, ?_, h.localSocket.port, ?_⟩
  · apply counted_schemeEvent
    rw [hd]
    exact hc.release (fun q => users_remove hh q) fun q => rfl
  · simp

theorem counted_step (event : Event) (hr : ¬ s.Removes event)
    (hc : Counted s.ports s.users gone) :
    Counted (s.step event).ports (s.step event).users gone := by
  cases event with
  | request e p => exact counted_schemeEvent (handled.counted hr hc)
  | datagram ip udp =>
    have hu : (s.udpEvent ip udp).users = s.users := by
      apply users_map
      intro id h _
      split <;> rfl
    show Counted s.ports (s.udpEvent ip udp).users gone
    rw [hu]
    exact hc

theorem openUrl_in_use {url : List UInt8} {flags uid gid : Nat}
    (h : (openUrl e s url flags uid gid).result = .error EADDRINUSE) :
    ∃ path, Origel.RedoxFs.fromUtf8 url = some path ∧
      s.ports (parsePath e.port path.toList).2.port ≠ none := by
  unfold openUrl at h
  cases hpath : Origel.RedoxFs.fromUtf8 url with
  | none =>
    rw [hpath] at h
    cases h
  | some path =>
    refine ⟨path, rfl, fun hn => ?_⟩
    rw [hpath] at h
    dsimp only at h
    rw [hn] at h
    split at h
    · cases h
    · cases h

/-- The counts are exact, and `open` refuses a port only while some handle uses it. -/
def PortsKept (s : Udpd) : Prop :=
  Exact s.ports s.users ∧
    ∀ e url flags uid gid, (openUrl e s url flags uid gid).result = .error EADDRINUSE →
      ∃ path id h, Origel.RedoxFs.fromUtf8 url = some path ∧ s.handles.entry id = some h ∧
        h.localSocket.port = (parsePath e.port path.toList).2.port

theorem portsKept_iff : s.PortsKept ↔ Counted s.ports s.users fun _ => 0 := by
  constructor
  · rintro ⟨he, _⟩
    exact he.counted
  · intro hc
    have he : Exact s.ports s.users := hc.exact_iff.mpr fun _ => rfl
    refine ⟨he, ?_⟩
    intro e url flags uid gid h
    obtain ⟨path, hpath, hp⟩ := openUrl_in_use h
    obtain ⟨id, h, hh, hq⟩ := exists_of_users_pos (he.used_pos hp)
    exact ⟨path, id, h, hpath, hh, hq⟩

theorem ports_kept_iff_none_removed (events : List Event) :
    Throughout step PortsKept new events ↔ Each step (fun s event => ¬ s.Removes event) new events := by
  apply throughout_iff_each
  · intro s event hs hr
    exact portsKept_iff.mpr (counted_step event hr (portsKept_iff.mp hs))
  · intro s event hs hr hn
    cases event with
    | request e p =>
      obtain ⟨gone', hc, q, hq⟩ := removes_counted (not_not.mp hr) (portsKept_iff.mp hs)
      have h0 := hc.exact_iff.mp hn.1 q
      omega
    | datagram ip udp => exact hr id
  · exact portsKept_iff.mpr (counted_empty 1)

end Udp.Udpd

/-- In every run of either daemon the counts of its ports are those of its handles, and `open` finds
a port taken only by a handle, as long as no handle has gone; from then on they are wrong. -/
theorem ports_kept_iff (tcp : List Tcp.Tcpd.Event) (udp : List Udp.Udpd.Event) :
    (Throughout Tcp.Tcpd.step Tcp.Tcpd.PortsKept Tcp.Tcpd.new tcp ↔
      Each Tcp.Tcpd.step (fun s event => ¬ s.Removes event) Tcp.Tcpd.new tcp) ∧
    (Throughout Udp.Udpd.step Udp.Udpd.PortsKept Udp.Udpd.new udp ↔
      Each Udp.Udpd.step (fun s event => ¬ s.Removes event) Udp.Udpd.new udp) :=
  ⟨Tcp.Tcpd.ports_kept_iff_none_removed tcp, Udp.Udpd.ports_kept_iff_none_removed udp⟩

/-- A handle is opened on port 32768 and closed: the port stays, with a count of 2, and cannot be
opened again. -/
theorem closed_port_stays_taken :
    let anyPort : Packet := ⟨1, 1, 0, 0, SYS_OPEN, 0, 0, 0⟩
    let first : Packet := ⟨2, 1, 0, 0, SYS_CLOSE, 1, 0, 0⟩
    let tcpEnv : Tcp.Env := ⟨fun _ => 0, 0, 0, 0, none⟩
    let udpEnv : Udp.Env := ⟨fun _ => 0, 0, 0, none⟩
    let tcpd := [Tcp.Tcpd.Event.request tcpEnv anyPort, .request tcpEnv first].foldl Tcp.Tcpd.step
      Tcp.Tcpd.new
    let udpd := [Udp.Udpd.Event.request udpEnv anyPort, .request udpEnv first].foldl Udp.Udpd.step
      Udp.Udpd.new
    (tcpd.ports 32768 = some 2 ∧ tcpd.users 32768 = 0 ∧ ¬ tcpd.PortsKept ∧
      (Tcp.Tcpd.openUrl tcpEnv tcpd [] 0 0 0).result = .error EADDRINUSE) ∧
    udpd.ports 32768 = some 2 ∧ udpd.users 32768 = 0 ∧ ¬ udpd.PortsKept ∧
      (Udp.Udpd.openUrl udpEnv udpd [] 0 0 0).result = .error EADDRINUSE := by
  intro anyPort first tcpEnv udpEnv tcpd udpd
  have htcp : tcpd.ports 32768 = some 2 ∧ tcpd.users 32768 = 0 := by decide
  have hudp : udpd.ports 32768 = some 2 ∧ udpd.users 32768 = 0 := by decide
  refine ⟨⟨htcp.1, htcp.2, ?_, by decide⟩, hudp.1, hudp.2, ?_, by decide⟩
  · intro h
    have h0 := h.1 32768
    rw [htcp.1, htcp.2] at h0
    cases h0
  · intro h
    have h0 := h.1 32768
    rw [hudp.1, hudp.2] at h0
    cases h0

end Origel.Net
