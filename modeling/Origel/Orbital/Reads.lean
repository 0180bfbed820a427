import Origel.Daemon.Replies
import Origel.Orbital.Loops
import Origel.Orbital.Steady

/-! What becomes of the reads of windows: the events they get, and those they wait for. -/
namespace Origel.Orbital

open Origel.Lib Origel.Daemon
open Origel.Kernel.UserScheme (Packet mux)

namespace Server

variable {o : Outside} {d d' : Server} {p : Packet} {memory : Nat → UInt8} {id : Nat}

/-- The requests with the given id that are answered or wait. -/
def accounted (d : Server) (id : Nat) : Nat := repliesTo id d.socket + withId id d.scheme.todo

/-- Each request is answered once, or waits. -/
def Counted (id : Nat) (d : Server) : Prop := d.accounted id = withId id d.received

theorem accounted_serve (id : Nat) (h : d.serve o memory p = some d') :
    d'.received = d.received ++ [p] ∧ d'.accounted id = d.accounted id + withId id [p] := by
  obtain ⟨s, hs, h⟩ := Option.bind_eq_some_iff.mp h
  have htodo := OrbitalScheme.todo_handle hs
  dsimp only at h htodo
  split at h
  · cases h
    refine ⟨rfl, ?_⟩
    show repliesTo id d.socket + withId id (s.todo ++ [_]) = _
    rw [htodo, withId_append, accounted, withId_cons, withId_cons, withId_nil]
    dsimp only
    omega
  · cases h
    refine ⟨rfl, ?_⟩
    show repliesTo id (d.socket ++ [_]) + withId id s.todo = _
    rw [htodo, repliesTo_append, accounted, repliesTo_cons, repliesTo_nil, withId_cons, withId_nil]
    dsimp only
    omega

theorem accounted_retry (id : Nat) (h : d.retry o memory p = some d') :
    d'.received = d.received ∧ d'.accounted id = d.accounted id + withId id [p] := by
  obtain ⟨s, hs, h⟩ := Option.bind_eq_some_iff.mp h
  have htodo := OrbitalScheme.todo_handle hs
  dsimp only at h htodo
  split at h
  · cases h
    refine ⟨rfl, ?_⟩
    show repliesTo id d.socket + withId id (s.todo ++ [_]) = _
    rw [htodo, withId_append, accounted]
    omega
  · cases h
    refine ⟨rfl, ?_⟩
    show repliesTo id (d.socket ++ [_]) + withId id s.todo = _
    rw [htodo, repliesTo_append, accounted, repliesTo_cons, repliesTo_nil, withId_cons, withId_nil]
    dsimp only
    omega

/-- What waits is taken up whole by the loop that tries it again. -/
theorem accounted_retries {todo : List Packet} (id : Nat) (h : todo.foldlM (retry o memory) d = some d') :
    d'.received = d.received ∧ d'.accounted id = d.accounted id + withId id todo := by
  induction todo generalizing d with
  | nil =>
    cases h
    exact ⟨rfl, rfl⟩
  | cons p todo ih =>
    rw [List.foldlM_cons] at h
    obtain ⟨t, ht, h⟩ := Option.bind_eq_some_iff.mp h
    obtain ⟨hreceived, hcount⟩ := ih h
    obtain ⟨hreceived', hcount'⟩ := accounted_retry id ht
    refine ⟨hreceived.trans hreceived', ?_⟩
    rw [hcount, hcount', withId_cons, withId_cons, withId_nil]
    omega

theorem repliesTo_notify (hid : id ≠ 0) (d : Server) :
    repliesTo id (d.notify o).socket = repliesTo id d.socket := by
  show repliesTo id (d.socket ++ _) = _
  rw [repliesTo_append, repliesTo_flatMap, Nat.add_zero]
  intro e
  split
  · exact repliesTo_notice hid _ _
  · rfl

theorem Counted.turn (hid : id ≠ 0) (hc : d.Counted id) {t : Turn} (h : d.turn o t = some d') :
    d'.Counted id := by
  have hnotify : ∀ d : Server, d.Counted id → (d.notify o).Counted id := by
    intro d hd
    show repliesTo id (d.notify o).socket + withId id d.scheme.todo = withId id d.received
    rw [repliesTo_notify hid]
    exact hd
  cases t with
  | redraw =>
    obtain ⟨s, hs, h⟩ := Option.bind_eq_some_iff.mp h
    cases h
    show repliesTo id d.socket + withId id s.todo = withId id d.received
    rw [(OrbitalScheme.steady_redraw hs).todo]
    exact hc
  | input memory events =>
    obtain ⟨s, hs, h⟩ := Option.bind_eq_some_iff.mp h
    obtain ⟨e, he, h⟩ := Option.bind_eq_some_iff.mp h
    cases h
    have htodo : s.todo = d.scheme.todo :=
      (Run.of_foldlM hs).invariant (I := fun s => s.todo = d.scheme.todo)
        (fun _ _ _ hs' hi => (OrbitalScheme.steady_event hs').todo.trans hi) rfl
    obtain ⟨hreceived, hcount⟩ := accounted_retries id he
    apply hnotify
    rw [Counted, hreceived, hcount, htodo]
    exact hc
  | requests memory packets =>
    obtain ⟨e, he, h⟩ := Option.bind_eq_some_iff.mp h
    cases h
    apply hnotify
    apply (Run.of_foldlM he).invariant (I := Counted id) ?_ hc
    intro d p d' hserve hd
    obtain ⟨hreceived, hcount⟩ := accounted_serve id hserve
    rw [Counted, hreceived, hcount, withId_append, hd]

/-- The read is answered with the bytes of at least one event. -/
def Answered (o : Outside) (a : Answer) : Prop :=
  ∃ taken, taken ≠ [] ∧ a.reply = ⟨{ a.request with a := taken.length * o.sizeOfEvent },
    taken.flatMap o.eventBytes⟩

/-- The events of each window come in order, and those returned are in the answers to the reads of
the window, from the first of these answers on. -/
def WindowsKept (o : Outside) (answers : List Answer) (s : OrbitalScheme) : Prop :=
  ∀ id w, s.windows.get id = some w → w.Kept ∧ (w.async = false →
    ∃ since, since <:+ answers.filter (·.request.b = id) ∧
      since.flatMap (·.reply.bytes) = w.history.delivered.flatMap o.eventBytes)

/-- The reads of windows that wait: those in `todo` are there as they came, those answered were sent
events, and the events of each window were returned in order, each once. -/
structure ReadsKept (o : Outside) (d : Server) : Prop where
  held : ∀ p ∈ d.scheme.todo, p.a = SYS_READ ∧ p ∈ d.received
  answered : ∀ a ∈ d.answers, a.request ∈ d.received ∧ Answered o a
  sent : (d.answers.map Answer.reply).Sublist d.socket
  windows : WindowsKept o d.answers d.scheme

/-- A read of a window that waits finds an event, and has room for one. -/
def Served (o : Outside) (d : Server) (p : Packet) : Prop :=
  p.a = SYS_READ → ∀ w, d.scheme.windows.get p.b = some w → w.async = false →
    w.events ≠ [] ∧ o.sizeOfEvent ≤ p.d

theorem WindowsKept.steady {answers : List Answer} {s s' : OrbitalScheme}
    (hk : WindowsKept o answers s) (h : OrbitalScheme.Steady s s') : WindowsKept o answers s' := by
  intro id w' hg
  rcases h.windows id w' hg with hfresh | ⟨w, hw, hunread⟩
  · refine ⟨hfresh.kept, fun _ => ⟨[], List.nil_suffix, ?_⟩⟩
    rw [hfresh.delivered]
    rfl
  · obtain ⟨hkept, hreturned⟩ := hk id w hw
    refine ⟨hunread.kept hkept, ?_⟩
    rw [hunread.async, hunread.delivered]
    exact hreturned

/-- A read of a window that does not wait is none of the answers. -/
theorem WindowsKept.read_async {answers : List Answer} {s : OrbitalScheme} {w : Window} {len : Nat}
    (hk : WindowsKept o answers s) (hw : s.windows.get id = some w) (ha : w.async = true) :
    WindowsKept o answers (s.modify id fun w => (w.read o len).1) := by
  intro k v hg
  by_cases hid : k = id
  · subst hid
    have hg := (SortedMap.get_modify_self (m := s.windows)).symm.trans hg
    rw [hw] at hg
    cases hg
    refine ⟨Window.kept_read (hk k w hw).1 o len, ?_⟩
    intro hv
    rw [Window.async_read, ha] at hv
    cases hv
  · exact hk k v ((SortedMap.get_modify_of_ne hid).symm.trans hg)

/-- A read that takes events joins the answers of its window. -/
theorem WindowsKept.read {answers : List Answer} {s : OrbitalScheme} {w : Window} {len : Nat}
    {a : Answer} {taken : List Event} (hk : WindowsKept o answers s)
    (hw : s.windows.get a.request.b = some w) (ha : w.async = false)
    (hd : (w.read o len).1.history.delivered = w.history.delivered ++ taken)
    (hb : a.reply.bytes = taken.flatMap o.eventBytes) :
    WindowsKept o (answers ++ [a]) (s.modify a.request.b fun w => (w.read o len).1) := by
  intro k v hg
  rw [List.filter_append]
  by_cases hid : k = a.request.b
  · subst hid
    have hg := (SortedMap.get_modify_self (m := s.windows)).symm.trans hg
    rw [hw] at hg
    cases hg
    obtain ⟨hkept, hreturned⟩ := hk _ w hw
    refine ⟨Window.kept_read hkept o len, ?_⟩
    intro _
    obtain ⟨since, ⟨before, hsince⟩, hbytes⟩ := hreturned ha
    refine ⟨since ++ [a], ⟨before, ?_⟩, ?_⟩
    · rw [← hsince]
      simp
    · dsimp only
      rw [hd, List.flatMap_append, List.flatMap_append, hbytes]
      simp [hb]
  · have hne : a.request.b ≠ k := fun h => hid h.symm
    have hnone : [a].filter (·.request.b = k) = [] := by simp [hne]
    rw [hnone, List.append_nil]
    exact hk k v ((SortedMap.get_modify_of_ne hid).symm.trans hg)

/-- The request has come. -/
def receive (d : Server) (p : Packet) : Server := { d with received := d.received ++ [p] }

/-- A packet that is not to wait leaves the answers as they were. -/
theorem ReadsKept.send_other {s : OrbitalScheme} (hk : d.ReadsKept o) (hempty : s.todo = [])
    (hw : WindowsKept o d.answers s) (hwaits : d.waits p = false) (reply : Reply) :
    ReadsKept o ((d.receive p).send p s reply) := by
  have hwaits : (d.receive p).waits p = false := hwaits
  rw [send, hwaits]
  constructor
  · show ∀ q ∈ s.todo, _
    rw [hempty]
    exact fun q hq => nomatch hq
  · intro a ha
    obtain ⟨hmem, hanswered⟩ := hk.answered a ha
    exact ⟨List.mem_append_left _ hmem, hanswered⟩
  · exact hk.sent.trans (List.sublist_append_left ..)
  · exact hw

/-- A read that is to wait joins the answers. -/
theorem ReadsKept.send_read {s : OrbitalScheme} {reply : Reply} (hk : d.ReadsKept o)
    (hempty : s.todo = []) (hw : WindowsKept o (d.answers ++ [⟨p, reply⟩]) s)
    (hanswered : Answered o ⟨p, reply⟩) (hwaits : d.waits p = true) :
    ReadsKept o ((d.receive p).send p s reply) := by
  have hwaits : (d.receive p).waits p = true := hwaits
  rw [send, hwaits]
  constructor
  · show ∀ q ∈ s.todo, _
    rw [hempty]
    exact fun q hq => nomatch hq
  · intro a ha
    rcases List.mem_append.mp ha with ha | ha
    · obtain ⟨hmem, hanswered⟩ := hk.answered a ha
      exact ⟨List.mem_append_left _ hmem, hanswered⟩
    · cases List.mem_singleton.mp ha
      exact ⟨List.mem_append_right _ (List.mem_singleton_self p), hanswered⟩
  · show ((d.answers ++ [_]).map Answer.reply).Sublist _
    rw [List.map_append]
    exact hk.sent.append (List.Sublist.refl _)
  · exact hw

/-- A packet that has its answer is sent. -/
theorem serve_of_answered {s : OrbitalScheme}
    (hstate : ((d.receive p).handle o memory p).state = some s)
    (ha : d.delay p = true → mux ((d.receive p).handle o memory p).result ≠ 0) :
    d.serve o memory p = some ((d.receive p).send p s
      ⟨{ p with a := mux ((d.receive p).handle o memory p).result },
        ((d.receive p).handle o memory p).bytes⟩) := by
  have hnot : ¬ ((d.receive p).delay p = true ∧
      mux ((d.receive p).handle o memory p).result = 0) := fun hc => ha hc.1 hc.2
  show ((d.receive p).handle o memory p).state.bind _ = _
  rw [hstate]
  exact if_neg hnot

/-- A served read of a window that is open. -/
theorem ReadsKept.serve_read (ho : 0 < o.sizeOfEvent) (hk : d.ReadsKept o)
    (htodo : d.scheme.todo = []) (hs : d.Served o p) (hp : p.a = SYS_READ) {w : Window}
    (hw : d.scheme.windows.get p.b = some w) (h : d.serve o memory p = some d') :
    d'.ReadsKept o ∧ d'.scheme.todo = [] := by
  let s := d.scheme.modify p.b fun w => (w.read o p.d).1
  have hread : (d.receive p).handle o memory p = ⟨some s, (w.read o p.d).2.1, (w.read o p.d).2.2⟩ := by
    have hread : d.scheme.read o p.b p.d = ⟨s, (w.read o p.d).2.1, (w.read o p.d).2.2⟩ := by
      rw [OrbitalScheme.read, hw]
    show (OrbitalScheme.scheme o).handle memory (some d.scheme) p = _
    rw [OrbitalScheme.handle_read hp, hread]
  cases ha : w.async with
  | true =>
    have hdelay : d.delay p = false := by simp [delay, hw, ha]
    have hwaits : d.waits p = false := by simp [waits, hw, ha]
    rw [serve_of_answered (by rw [hread]) (by rw [hdelay]; exact nofun)] at h
    cases h
    exact ⟨hk.send_other (s := s) htodo (hk.windows.read_async hw ha) hwaits _, htodo⟩
  | false =>
    obtain ⟨he, hroom⟩ := hs hp w hw ha
    obtain ⟨taken, left, hne, hevents, hdelivered, hresult⟩ := Window.read_served hroom he
    have hwaits : d.waits p = true := by simp [waits, hp, hw, ha]
    have hlen : 0 < taken.length := List.length_pos_iff.mpr hne
    have hvalue : taken.length * o.sizeOfEvent ≠ 0 := (Nat.mul_pos hlen ho).ne'
    rw [hresult] at hread
    rw [serve_of_answered (by rw [hread]) (by rw [hread]; exact fun _ => hvalue), hread] at h
    cases h
    exact ⟨hk.send_read (s := s) htodo (hk.windows.read hw ha hdelivered rfl) ⟨taken, hne, rfl⟩ hwaits, htodo⟩

/-- What a served request leaves: nothing waits, and what it sends is right. -/
theorem ReadsKept.serve (ho : 0 < o.sizeOfEvent) (hk : d.ReadsKept o) (htodo : d.scheme.todo = [])
    (hs : d.Served o p) (h : d.serve o memory p = some d') :
    d'.ReadsKept o ∧ d'.scheme.todo = [] := by
  by_cases hp : p.a = SYS_READ
  · cases hw : d.scheme.windows.get p.b with
    | some w => exact hk.serve_read ho htodo hs hp hw h
    | none =>
      have hread : (d.receive p).handle o memory p = ⟨some d.scheme, .error EBADF, []⟩ := by
        have hread : d.scheme.read o p.b p.d = fail d.scheme EBADF := by
          rw [OrbitalScheme.read, hw]
        show (OrbitalScheme.scheme o).handle memory (some d.scheme) p = _
        rw [OrbitalScheme.handle_read hp, hread]
        rfl
      have herror : mux (.error EBADF) ≠ 0 := by decide
      have hwaits : d.waits p = false := by simp [waits, hw]
      rw [serve_of_answered (by rw [hread]) (by rw [hread]; exact fun _ => herror)] at h
      cases h
      exact ⟨hk.send_other htodo hk.windows hwaits _, htodo⟩
  · have hdelay : d.delay p = false := by simp [delay, hp]
    have hwaits : d.waits p = false := by simp [waits, hp]
    obtain ⟨s, hstate, _⟩ := Option.bind_eq_some_iff.mp h
    have hsteady : OrbitalScheme.Steady d.scheme s := OrbitalScheme.steady_handle hp hstate
    have hempty : s.todo = [] := hsteady.todo.trans htodo
    rw [serve_of_answered hstate (by rw [hdelay]; exact nofun)] at h
    cases h
    exact ⟨hk.send_other hempty (hk.windows.steady hsteady) hwaits _, hempty⟩

/-- Every packet meets a server that serves it. -/
def AllServed (o : Outside) (memory : Nat → UInt8) : Server → List Packet → Prop
  | _, [] => True
  | d, p :: packets => Served o d p ∧
      ∀ d', d.serve o memory p = some d' → AllServed o memory d' packets

/-- In a turn of the requests all of them are served. -/
def Meets (o : Outside) : Option Server → Turn → Prop
  | some d, .requests memory packets => d.AllServed o memory packets
  | _, _ => True

theorem ReadsKept.serves (ho : 0 < o.sizeOfEvent) {packets : List Packet} (hk : d.ReadsKept o)
    (htodo : d.scheme.todo = []) (hs : d.AllServed o memory packets)
    (h : packets.foldlM (Server.serve o memory) d = some d') :
    d'.ReadsKept o ∧ d'.scheme.todo = [] := by
  induction packets generalizing d with
  | nil =>
    cases h
    exact ⟨hk, htodo⟩
  | cons p packets ih =>
    rw [List.foldlM_cons] at h
    obtain ⟨t, ht, h⟩ := Option.bind_eq_some_iff.mp h
    obtain ⟨hk', htodo'⟩ := hk.serve ho htodo hs.1 ht
    exact ih hk' htodo' (hs.2 t ht) h

theorem ReadsKept.of_scheme (hk : d.ReadsKept o) {s : OrbitalScheme}
    (h : OrbitalScheme.Steady d.scheme s) : ReadsKept o { d with scheme := s } := by
  constructor
  · show ∀ p ∈ s.todo, p.a = SYS_READ ∧ p ∈ d.received
    rw [h.todo]
    exact hk.held
  · exact hk.answered
  · exact hk.sent
  · exact hk.windows.steady h

theorem ReadsKept.notify (hk : d.ReadsKept o) : (d.notify o).ReadsKept o :=
  ⟨hk.held, hk.answered, hk.sent.trans (List.sublist_append_left ..), hk.windows⟩

theorem ReadsKept.turn (ho : 0 < o.sizeOfEvent) (hk : d.ReadsKept o) (htodo : d.scheme.todo = [])
    {t : Turn} (hm : Meets o (some d) t) (h : d.turn o t = some d') :
    d'.ReadsKept o ∧ d'.scheme.todo = [] := by
  cases t with
  | redraw =>
    obtain ⟨s, hs, h⟩ := Option.bind_eq_some_iff.mp h
    cases h
    have hsteady := OrbitalScheme.steady_redraw hs
    exact ⟨hk.of_scheme hsteady, hsteady.todo.trans htodo⟩
  | input memory events =>
    obtain ⟨s, hs, h⟩ := Option.bind_eq_some_iff.mp h
    have hsteady : OrbitalScheme.Steady d.scheme s :=
      (Run.of_foldlM hs).invariant (I := OrbitalScheme.Steady d.scheme)
        (fun _ _ _ hs' hi => hi.trans (OrbitalScheme.steady_event hs')) .refl
    have hempty := hsteady.todo.trans htodo
    rw [hempty] at h
    cases h
    have hsame : { s with todo := [] } = s := by rw [← hempty]
    rw [hsame]
    exact ⟨(hk.of_scheme hsteady).notify, hempty⟩
  | requests memory packets =>
    obtain ⟨e, he, h⟩ := Option.bind_eq_some_iff.mp h
    cases h
    obtain ⟨hk', htodo'⟩ := hk.serves ho htodo hm he
    exact ⟨hk'.notify, htodo'⟩

/-- What a server that has panicked has nothing to do with. -/
def Running (P : Server → Prop) (d : Option Server) : Prop := ∀ d', d = some d' → P d'

theorem step_eq_some {d : Option Server} {t : Turn} (h : step o d t = some d') :
    ∃ d₀, d = some d₀ ∧ d₀.turn o t = some d' := Option.bind_eq_some_iff.mp h

theorem new_eq_some {image background cursor : Image} (h : new image background cursor = some d) :
    d.scheme.todo = [] ∧ d.scheme.windows = .empty ∧ d.socket = [] ∧ d.received = [] ∧
      d.answers = [] := by
  obtain ⟨s, hs, h⟩ := Option.bind_eq_some_iff.mp h
  cases h
  obtain ⟨r, _, hs⟩ := Option.bind_eq_some_iff.mp hs
  cases hs
  exact ⟨rfl, rfl, rfl, rfl, rfl⟩

/-- In every run of the window server each request is answered once or waits; and the reads of
windows that wait for events are held as they came or answered with the events of their windows, in
order and each once, as long as they find an event and have room for one. -/
theorem window_reads_kept (ho : 0 < o.sizeOfEvent) (image background cursor : Image)
    (turns : List Turn) :
    (Each (step o) (Meets o) (new image background cursor) turns →
      Throughout (step o) (Running (ReadsKept o)) (new image background cursor) turns) ∧
    ∀ id, id ≠ 0 →
      Throughout (step o) (Running (Counted id)) (new image background cursor) turns := by
  constructor
  · apply throughout_of_each (I := Running fun d => d.ReadsKept o ∧ d.scheme.todo = [])
    · intro d t hd hm d' hstep
      obtain ⟨d, rfl, hturn⟩ := step_eq_some hstep
      obtain ⟨hk, htodo⟩ := hd d rfl
      exact hk.turn ho htodo hm hturn
    · exact fun d hd d' hd' => (hd d' hd').1
    · intro d hd
      obtain ⟨htodo, hwindows, hsocket, hreceived, hanswers⟩ := new_eq_some hd
      refine ⟨?_, htodo⟩
      constructor
      · rw [htodo]
        exact fun p hp => nomatch hp
      · rw [hanswers]
        exact fun a ha => nomatch ha
      · rw [hanswers]
        exact List.nil_sublist _
      · intro id w hw
        rw [hwindows] at hw
        cases hw
  · intro id hid
    apply throughout_of_step
    · intro d t hd d' hstep
      obtain ⟨d, rfl, hturn⟩ := step_eq_some hstep
      exact (hd d rfl).turn hid hturn
    · intro d hd
      obtain ⟨htodo, _, hsocket, hreceived, _⟩ := new_eq_some hd
      show repliesTo id d.socket + withId id d.scheme.todo = withId id d.received
      rw [htodo, hsocket, hreceived]
      rfl

/-- `orbclient` with the constants it is known for, and a font without characters -/
def plain : Outside where
  EVENT_KEY := 1
  EVENT_MOUSE := 2
  K_ESC := 0x01
  K_TAB := 0x0F
  rgb r g b := UInt32.ofNat (0xFF000000 + 65536 * r.toNat + 256 * g.toNat + b.toNat)
  focusEvent focused := ⟨5, if focused then 1 else 0, 0, 0⟩
  quitEvent := ⟨4, 0, 0, 0⟩
  sizeOfEvent := 32
  eventBytes e := [e.code, e.a, e.b, e.c].flatMap fun z =>
    (List.range 8).map fun i => UInt8.ofNat ((z % 2 ^ 64).toNat / 256 ^ i % 256)
  font := []
  pixels _ := 0

/-- An image with no pixels -/
def nothing : Image := ⟨0, 0, 0, fun _ => 0⟩

theorem meets_requests {d : Option Server} {packets : List Packet}
    (h : ∀ d', d = some d' → d'.AllServed o memory packets) :
    Meets o d (.requests memory packets) := by
  cases d with
  | none => trivial
  | some d => exact h d rfl

theorem allServed_single (h : d.Served o p) : d.AllServed o memory [p] :=
  ⟨h, fun _ _ => trivial⟩

/-- A read that comes after a key gets the event of the key. -/
theorem key_is_read :
    let key : Event := ⟨1, 0, 30, 1⟩
    let turns : List Turn := [.requests (fun _ => 0) [⟨1, 1, 0, 0, SYS_OPEN, 0, 0, 0⟩],
      .input (fun _ => 0) [key], .requests (fun _ => 0) [⟨2, 1, 0, 0, SYS_READ, 1, 0, 40⟩]]
    let start := new nothing nothing nothing
    ((turns.foldl (step plain) start).map fun d => d.answers.map Answer.reply) =
        some [⟨⟨2, 1, 0, 0, 32, 1, 0, 40⟩, plain.eventBytes key⟩] ∧
      Throughout (step plain) (Running (ReadsKept plain)) start turns ∧
      Throughout (step plain) (Running (Counted 2)) start turns := by
  intro key turns start
  have hrun := window_reads_kept (o := plain) (by decide) nothing nothing nothing turns
  refine ⟨by decide +kernel, hrun.1 ⟨?_, ?_, ?_, trivial⟩, hrun.2 2 (by decide)⟩
  · apply meets_requests
    intro d _
    apply allServed_single
    intro hp
    have hopen : SYS_OPEN ≠ SYS_READ := by decide
    exact (hopen hp).elim
  · cases step plain start _ <;> trivial
  · apply meets_requests
    intro d hd
    apply allServed_single
    intro _ w hw _
    have hevents : ((step plain (step plain start turns[0]) turns[1]).bind fun d =>
        d.scheme.windows.get 1).map (fun w => w.events) = some [key] := by decide +kernel
    have hd : step plain (step plain start turns[0]) turns[1] = some d := hd
    rw [hd, Option.bind_some, hw] at hevents
    have hevents : w.events = [key] := Option.some.inj hevents
    rw [hevents]
    exact ⟨List.cons_ne_nil _ _, by decide⟩

/-- A read that finds no event waits without its number, and the next event gets it an error while
its window is open. -/
theorem waiting_read_is_refused :
    let turns : List Turn := [.requests (fun _ => 0) [⟨1, 1, 0, 0, SYS_OPEN, 0, 0, 0⟩],
      .requests (fun _ => 0) [⟨2, 1, 0, 0, SYS_READ, 1, 0, 32⟩], .input (fun _ => 0) [⟨1, 0, 30, 1⟩]]
    let start := new nothing nothing nothing
    ¬ Throughout (step plain) (Running (ReadsKept plain)) start turns ∧
      ((turns.foldl (step plain) start).bind fun d =>
        (d.scheme.windows.get 1).map fun w => (w.async, w.events.length, d.scheme.todo)) =
          some (false, 1, []) ∧
      ((turns.foldl (step plain) start).map fun d => d.socket.take 2) =
        some [⟨⟨1, 1, 0, 0, 1, 0, 0, 0⟩, []⟩, ⟨⟨2, 1, 0, 0, mux (.error ENOSYS), 1, 0, 32⟩, []⟩] := by
  intro turns start
  refine ⟨?_, by decide +kernel, by decide +kernel⟩
  intro hkept
  have hheld : ((turns.take 2).foldl (step plain) start).map (fun d => d.scheme.todo) =
      some [⟨2, 1, 0, 0, 0, 1, 0, 32⟩] := by decide +kernel
  obtain ⟨d, hd, htodo⟩ := Option.map_eq_some_iff.mp hheld
  have hread := ((hkept.2.2.1 d hd).held ⟨2, 1, 0, 0, 0, 1, 0, 32⟩ (by rw [htodo]; simp)).1
  have hother : 0 ≠ SYS_READ := by decide
  exact hother hread

end Server

end Origel.Orbital
