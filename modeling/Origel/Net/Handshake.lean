import Origel.Kernel.Files
import Origel.Net.Ports

/-! The numbers that connections of `tcpd` start with, and what becomes of descriptors when a
process forks. -/
namespace Origel.Net.Tcp

open Origel.Lib Origel.Daemon
open Origel.Kernel.UserScheme (Packet mux)

variable {dials : Handle → Prop} {p : Packet} {parent : Option Handle} {h h' : Handle}

namespace Handle

/-- The handle waits for an answer to its SYN. -/
def Opening (h : Handle) : Prop := h.state = .SynSent ∨ h.state = .SynReceived

/-- A connection that is being opened has counted its SYN. -/
def Numbered (h : Handle) : Prop := h.Opening → h.seq = h.history.syn + 1

theorem Numbered.of_same (hn : h.Numbered) (hstate : h'.state = h.state) (hseq : h'.seq = h.seq)
    (hsyn : h'.history.syn = h.history.syn) : h'.Numbered := by
  intro ho
  rw [hseq, hsyn]
  apply hn
  rwa [Opening, hstate] at ho

theorem numbered_of_not_opening (hs : ¬ h.Opening) : h.Numbered := fun ho => (hs ho).elim

/-- What a segment leaves of the two fields that a handshake depends on. -/
theorem serve_opening {ip : Ipv4} {tcp : Net.Tcp} {draw : Draws} {id : Nat}
    (ho : (h.serve id ip tcp draw).handle.Opening) :
    (h.serve id ip tcp draw).handle.state = h.state ∧
      (h.serve id ip tcp draw).handle.seq = h.seq ∧
      (h.serve id ip tcp draw).handle.history.syn = h.history.syn := by
  have hkept := receive_kept h ip tcp
  rw [serve_handle] at ho ⊢
  rcases answerWrite_cases (h.receive ip tcp).handle.serveReads.1 draw with
    ⟨he, _⟩ | ⟨_, _, _, _, _, _, hs, he⟩
  · rw [he] at ho ⊢
    refine ⟨?_, hkept.2.2.1, hkept.2.2.2.2.2.2.1⟩
    rcases receive_cases h ip tcp with
      ⟨state, ack, hr, hstate⟩ | ⟨ht, _, hr⟩
    · have hst : (h.receive ip tcp).handle.serveReads.1.state = state := by
        show (h.receive ip tcp).handle.state = state
        rw [hr]
      rw [hst]
      rcases hstate with hstate | ⟨hn1, hn2, _⟩
      · exact hstate
      · rcases ho with ho | ho
        · exact (hn1 (hst.symm.trans ho)).elim
        · exact (hn2 (hst.symm.trans ho)).elim
    · show (h.receive ip tcp).handle.state = h.state
      rw [hr]
      rfl
  · rw [he] at ho
    rcases ho with ho | ho
    · cases hs.symm.trans ho
    · cases hs.symm.trans ho

theorem numbered_serve {ip : Ipv4} {tcp : Net.Tcp} {draw : Draws} {id : Nat} (hn : h.Numbered) :
    (h.serve id ip tcp draw).handle.Numbered := by
  intro ho
  obtain ⟨hstate, hseq, hsyn⟩ := serve_opening ho
  exact hn.of_same hstate hseq hsyn ho

theorem not_opening_closing {state : State} (hc : h.closing = some state) :
    ¬ ({ h with data := [], state := state } : Handle).Opening := by
  unfold closing at hc
  split at hc
  · cases hc
    rintro (ho | ho) <;> cases ho
  · cases hc
    rintro (ho | ho) <;> cases ho
  · cases hc
    rintro (ho | ho) <;> cases ho
  · cases hc

end Handle

theorem Request.numbered (hr : Request p h h') (hn : h.Numbered) : h'.Numbered := by
  have hadvance : ∀ {g : Handle} {n : Nat}, ¬ g.Opening → (g.advance n).Numbered :=
    fun hs => Handle.numbered_of_not_opening hs
  cases hr with
  | kept => exact hn
  | taken => exact hn.of_same rfl rfl rfl
  | read hm =>
    have hread : (h.read p.d).1.state = h.state ∧ (h.read p.d).1.seq = h.seq ∧
        (h.read p.d).1.history.syn = h.history.syn := by
      unfold Handle.read
      split
      · exact ⟨rfl, rfl, rfl⟩
      · split
        · exact ⟨rfl, rfl, rfl⟩
        · split <;> exact ⟨rfl, rfl, rfl⟩
    exact hn.of_same hread.1 hread.2.1 hread.2.2
  | written hs =>
    apply hadvance
    rintro (ho | ho) <;> cases hs.symm.trans ho
  | flagged => exact hn.of_same rfl rfl rfl
  | watched => exact hn.of_same rfl rfl rfl
  | closing hm hc =>
    apply Handle.numbered_of_not_opening
    exact Handle.not_opening_closing hc
  | closed hm hc => exact hadvance (Handle.not_opening_closing hc)

theorem Made.numbered (hm : Made dials parent h) (hd : ∀ h, ¬ dials h)
    (hp : ∀ g, parent = some g → g.Numbered) : h.Numbered := by
  cases hm with
  | listening => exact Handle.numbered_of_not_opening (by rintro (ho | ho) <;> cases ho)
  | calling => exact fun _ => rfl
  | accepted => exact fun _ => rfl
  | @copied g => exact (hp g rfl).of_same rfl rfl rfl
  | dialled h1 => exact (hd _ h1).elim

theorem numbered_park (hp : Tcpd.park p h = some h') (hn : h.Numbered) : h'.Numbered := by
  unfold Tcpd.park at hp
  split at hp
  · cases hp; exact hn.of_same rfl rfl rfl
  · cases hp; exact hn.of_same rfl rfl rfl
  · cases hp; exact hn.of_same rfl rfl rfl
  · cases hp

namespace Tcpd

variable {s : Tcpd} {e : Env} {id : Nat}

/-- The event is a `dup` that makes a connection by an address. -/
def DialsBy (s : Tcpd) : Event → Prop
  | .request e p => s.Dials e p
  | .segment _ _ _ => False

/-- Every connection that is being opened has counted its SYN, and the answer to that SYN opens
it. -/
def HandshakesKept (s : Tcpd) : Prop :=
  ∀ id h, s.handles.entry id = some h → h.Opening →
    h.seq = h.history.syn + 1 ∧
    ∀ ip tcp draw, h.matchesSegment ip tcp = true → tcp.header.ackNum = h.history.syn + 1 →
      tcp.flagged (TCP_SYN ||| TCP_ACK)
        (if h.state = .SynSent then TCP_SYN ||| TCP_ACK else TCP_ACK) = true →
      ∃ h', (s.step (.segment ip tcp draw)).handles.entry id = some h' ∧ h'.state = .Established

/-- An answer to the SYN of a connection opens it. -/
theorem opened_by_answer {ip : Ipv4} {tcp : Net.Tcp} {draw : Nat → Draws}
    (hh : s.handles.entry id = some h) (ho : h.Opening) (hm : h.matchesSegment ip tcp = true)
    (ha : tcp.header.ackNum = h.seq)
    (hf : tcp.flagged (TCP_SYN ||| TCP_ACK)
      (if h.state = .SynSent then TCP_SYN ||| TCP_ACK else TCP_ACK) = true) :
    ∃ h', (s.step (.segment ip tcp draw)).handles.entry id = some h' ∧ h'.state = .Established := by
  have hl : h.state ≠ .Listen := by
    intro hl
    rcases ho with ho | ho <;> cases ho.symm.trans hl
  have hstate : (h.receive ip tcp).handle.state = .Established := by
    unfold Handle.receive
    rcases ho with ho | ho
    · rw [ho, if_pos rfl] at hf
      simp [ho, hf, ha]
    · rw [ho, if_neg (by decide)] at hf
      simp [ho, hf, ha, Handle.received]
  have hserve : (h.serve id ip tcp (draw id)).handle.state = .Established := by
    rw [Handle.serve_handle]
    rcases Handle.answerWrite_cases (h.receive ip tcp).handle.serveReads.1 (draw id) with ⟨he, _⟩ | ⟨_, _, _, _, _, _, _, he⟩
    · rw [he]
      exact hstate
    · rw [he]
      exact hstate
  have hnf : (h.serve id ip tcp (draw id)).closes = false := by
    rw [Bool.eq_false_iff, ne_eq, Handle.serve_closes]
    rintro ⟨_, ⟨hs, _⟩ | ⟨hs, _⟩ | ⟨hs, _⟩⟩ <;> rcases ho with ho | ho <;> cases ho.symm.trans hs
  have hdel : (s.deliver ip tcp draw).handles.entry id =
      some (h.serve id ip tcp (draw id)).handle := by
    simp [deliver, hh, hl, hm, hnf]
  have hconn : s.connections ip tcp ≠ [] := by
    rw [ne_eq, connections_eq_nil]
    exact fun hall => hl (hall id h hh hm)
  refine ⟨_, ?_, hserve⟩
  show (s.tcpEvent ip tcp draw).handles.entry id = _
  unfold tcpEvent
  dsimp only
  rw [if_neg (fun hc => hconn hc.1)]
  exact hdel

theorem handshakesKept_iff :
    s.HandshakesKept ↔ ∀ id h, s.handles.entry id = some h → h.Numbered := by
  constructor
  · intro hk id h hh ho
    exact (hk id h hh ho).1
  · intro hn id h hh ho
    have hseq := hn id h hh ho
    refine ⟨hseq, ?_⟩
    intro ip tcp draw hm ha hf
    exact opened_by_answer hh ho hm (ha.trans hseq.symm) hf

/-- The step rule: without a `dup` by address, connections stay numbered. -/
theorem numbered_step (event : Event) (hd : ¬ s.DialsBy event)
    (hn : ∀ id h, s.handles.entry id = some h → h.Numbered) :
    ∀ id h, (s.step event).handles.entry id = some h → h.Numbered := by
  intro id h' hh
  cases event with
  | request e p =>
    rcases entry_schemeEvent hh with ⟨h, hs, ⟨_, h1, hr, he⟩ | he⟩ | ⟨_, parent, h1, hpar, hm, he⟩
    · have h1n := hr.numbered (hn id h hs)
      rcases he with he | he
      · rwa [he]
      · exact numbered_park he h1n
    · rw [he]
      exact hn id h hs
    · have h1n : h1.Numbered := by
        apply hm.numbered fun _ hdial => hd hdial.1
        intro g hg
        obtain ⟨k, hk⟩ := hpar g hg
        exact hn k g hk
      rcases he with he | he
      · rwa [he]
      · exact numbered_park he h1n
  | segment ip tcp draw =>
    rcases entry_tcpEvent hh with ⟨h, hs, ⟨_, _, _, he⟩ | ⟨_, he⟩ | ⟨hl, _, he⟩⟩ | ⟨_, _, _, _, he⟩
    · rw [he]
      exact Handle.numbered_serve (hn id h hs)
    · rw [he]
      exact hn id h hs
    · rw [he]
      apply Handle.numbered_of_not_opening
      rintro (ho | ho) <;> cases hl.symm.trans ho
    · rw [he]
      exact fun _ => rfl

theorem entry_schemeEvent_of_ne (hid : id ≠ p.b) : (s.schemeEvent e p).handles.entry id =
    ((scheme e).handle e.memory s p).state.handles.entry id := by
  unfold schemeEvent
  dsimp only
  split
  · split
    · split
      · exact Table.entry_modify_of_ne hid
      · rfl
    · rfl
  · rfl

/-- A `dup` by address leaves a connection that waits for the wrong answer. -/
theorem dials_unnumbered (hd : s.Dials e p) :
    ∃ h, (s.schemeEvent e p).handles.entry s.handles.next = some h ∧ ¬ h.Numbered := by
  obtain ⟨hm, h, path, hh, hpath, hempty, hlisten, hc, hdial, hw⟩ := hd
  refine ⟨h.dial (parseSocket path.toList) e.seq, ?_, ?_⟩
  · rw [entry_schemeEvent_of_ne (Table.lt_next hh).ne']
    have hdup : (scheme e).handle e.memory s p = dup e s p.b (load e.memory p.c p.d) := by
      simp only [SchemeMut.handle, hm]
      rfl
    rw [hdup]
    unfold dup
    simp only [hpath, hh, hempty, hlisten, hc, hdial, if_true, if_false, send_none hw]
    exact Table.entry_insert_self
  · intro hn
    have hseq : e.seq = e.seq + 1 := hn (.inl rfl)
    exact absurd hseq (by simp)

/-- In every run of the daemon the connections being opened wait for the answer to their SYN, as
long as none was made by `dup` with an address; such a one waits for another number. -/
theorem handshakes_kept_iff (events : List Event) :
    Throughout step HandshakesKept new events ↔
      Each step (fun s event => ¬ s.DialsBy event) new events := by
  apply throughout_iff_each
  · intro s event hs hd
    exact handshakesKept_iff.mpr (numbered_step event hd (handshakesKept_iff.mp hs))
  · intro s event _ hd hk
    cases event with
    | request e p =>
      obtain ⟨h, hh, hn⟩ := dials_unnumbered (not_not.mp hd)
      exact hn (handshakesKept_iff.mp hk _ h hh)
    | segment ip tcp draw => exact hd id
  · intro id h hh
    cases hh

/-- A handle that listens is duplicated for 1.1.1.1:1. Its SYN has the number 0, and the answer
with 1 leaves it waiting. -/
theorem dialled_handle_waits :
    let memory : Nat → UInt8 := fun a => [49, 46, 49, 46, 49, 46, 49, 58, 49].getD a 0
    let e : Env := ⟨memory, 0, 0, 0, none⟩
    let s := [Event.request e ⟨1, 1, 0, 0, SYS_OPEN, 0, 0, 0⟩,
      .request e ⟨2, 1, 0, 0, SYS_DUP, 1, 0, 9⟩].foldl step new
    let peer : Ipv4Addr := ⟨1, 1, 1, 1⟩
    let ip : Ipv4 := ⟨⟨0x45, 0, 40, 0, 0, 64, 6, 0, peer, .NULL⟩, [], []⟩
    let answer : Net.Tcp := ⟨⟨1, 32768, 7, 1, 0x5000 ||| TCP_SYN ||| TCP_ACK, 0, 0, 0⟩, [], []⟩
    let quiet : Draws := ⟨memory, 0, 0, none, fun _ => 0, fun _ => 0⟩
    ((s.handles.entry 2).map fun h => (h.state, h.seq, h.history.syn)) = some (.SynSent, 0, 0) ∧
      ((s.handles.entry 2).map fun h => h.matchesSegment ip answer) = some true ∧
      (((s.step (.segment ip answer fun _ => quiet)).handles.entry 2).map fun h => h.state) =
        some .SynSent ∧
      ¬ s.HandshakesKept := by
  intro memory e s peer ip answer quiet
  have hentry : ((s.handles.entry 2).map fun h => (h.state, h.seq, h.history.syn)) =
      some (.SynSent, 0, 0) := by decide
  refine ⟨hentry, by decide, by decide, ?_⟩
  intro hk
  obtain ⟨h, hh, hfields⟩ := Option.map_eq_some_iff.mp hentry
  simp only [Prod.mk.injEq] at hfields
  obtain ⟨hstate, hseq, hsyn⟩ := hfields
  have hnum := (hk 2 h hh (.inl hstate)).1
  rw [hseq, hsyn] at hnum
  exact absurd hnum (by decide)

/-- What the kernel duplicates descriptors for. -/
inductive Inheritance where
  | clone | exec
  deriving DecidableEq, Repr

def Inheritance.buf : Inheritance → List UInt8
  | .clone => [99, 108, 111, 110, 101]
  | .exec => [101, 120, 101, 99]

/-- A `dup` with the word of the kernel makes a handle of the same connection. -/
def Survives (s : Tcpd) (e : Env) (file : Nat) (i : Inheritance) : Prop :=
  ∃ id h h', (dup e s file i.buf).result = .ok id ∧ s.handles.entry file = some h ∧
    (dup e s file i.buf).state.handles.entry id = some h' ∧
    h'.localSocket = h.localSocket ∧ h'.remoteSocket = h.remoteSocket ∧ h'.state = h.state ∧
    h'.seq = h.seq ∧ h'.ack = h.ack

/-- The words of the kernel are taken for addresses, and name none. -/
theorem inherited_word (i : Inheritance) : ∃ path, Origel.RedoxFs.fromUtf8 i.buf = some path ∧
    path ≠ "listen" ∧ path ≠ "" ∧ parseSocket path.toList = ⟨.NULL, 0⟩ := by
  cases i with
  | clone =>
    refine ⟨"clone", ?_, by decide, by decide, by decide⟩
    rw [Origel.RedoxFs.fromUtf8_eq_some]
    decide
  | exec =>
    refine ⟨"exec", ?_, by decide, by decide, by decide⟩
    rw [Origel.RedoxFs.fromUtf8_eq_some]
    decide

theorem dup_inherited {file : Nat} (hh : s.handles.entry file = some h) (i : Inheritance) :
    dup e s file i.buf = fail s (if h.isConnected then EISCONN else EINVAL) := by
  obtain ⟨path, hpath, hlisten, hempty, hsocket⟩ := inherited_word i
  unfold dup
  simp only [hpath, hh, hlisten, hempty, if_false]
  cases hc : h.isConnected with
  | true => rfl
  | false =>
    have hd : (h.dial (parseSocket path.toList) e.seq).isConnected = false := by
      rw [hsocket]
      rfl
    simp [hd]

/-- Whatever the daemon has done before, no handle survives a `clone` or an `exec`: a connected one
is refused for that, and another one because the word is no address. -/
theorem no_descriptor_survives (s : Tcpd) (e : Env) (file : Nat) (i : Inheritance) :
    ¬ s.Survives e file i ∧ ∀ h, s.handles.entry file = some h →
      dup e s file i.buf = fail s (if h.isConnected then EISCONN else EINVAL) := by
  refine ⟨?_, fun h hh => dup_inherited hh i⟩
  rintro ⟨id, h, h', hok, hh, _⟩
  rw [dup_inherited hh i] at hok
  cases hok

/-- What the kernel is told in answer to the `dup` of a handle. -/
def inherited (s : Tcpd) (e : Env) (file : Nat) (i : Inheritance) : Option Nat :=
  (dup e s file i.buf).result.toOption

theorem inherited_eq_none (s : Tcpd) (e : Env) (file : Nat) (i : Inheritance) :
    s.inherited e file i = none := by
  unfold inherited
  cases hh : s.handles.entry file with
  | none =>
    obtain ⟨path, hpath, _⟩ := inherited_word i
    have hd : dup e s file i.buf = fail s EBADF := by
      unfold dup
      simp only [hpath, hh]
    rw [hd]
    rfl
  | some h =>
    rw [dup_inherited hh i]
    rfl

/-- Neither the child of a `clone` nor the program of an `exec` has a descriptor of the scheme
where its parent had one. -/
theorem descriptor_not_inherited {answers : Nat → Option Nat} {files : Kernel.Files.Table}
    {k : Kernel.Files.State} {fd pid file : Nat} (hfd : fd < files.length) (i : Inheritance)
    (ha : answers fd = s.inherited e file i) :
    (Kernel.Files.State.dupFiles answers 0 files k).1[fd]? = some none ∧
      (Kernel.Files.State.execFiles pid answers 0 files k).1[fd]? = some none := by
  rw [inherited_eq_none, ← Nat.zero_add fd] at ha
  exact ⟨Kernel.Files.State.dupFiles_unanswered hfd ha,
    Kernel.Files.State.execFiles_unanswered hfd ha⟩

/-- A listening handle and one that connects, both lost in a `clone`. -/
theorem fork_loses_listener :
    let memory : Nat → UInt8 := fun a => [49, 46, 49, 46, 49, 46, 49, 58, 49].getD a 0
    let e : Env := ⟨memory, 0, 0, 0, none⟩
    let s := [Event.request e ⟨1, 1, 0, 0, SYS_OPEN, 0, 0, 0⟩,
      .request { e with port := 1 } ⟨2, 1, 0, 0, SYS_OPEN, 0, 9, 0⟩].foldl step new
    ((s.handles.entry 1).map (·.state), (s.handles.entry 2).map (·.state)) =
        (some .Listen, some .SynSent) ∧
      (dup e s 1 Inheritance.clone.buf).result = .error EINVAL ∧
      (dup e s 2 Inheritance.clone.buf).result = .error EISCONN := by
  decide

end Tcpd

end Origel.Net.Tcp
