import Origel.Daemon.Replies
import Origel.Pty.Ptyd

/-! The two streams of a pseudo-terminal, and the requests that wait for them. -/
namespace Origel.Pty

open Origel.Lib Origel.Daemon
open Origel.Kernel.UserScheme (Packet mux)

/-- What the packets of a queue carry after their tags. -/
def untagged (read : List (List UInt8)) : List UInt8 := read.flatMap (List.drop 1)

@[simp] theorem untagged_cons (packet : List UInt8) (read : List (List UInt8)) :
    untagged (packet :: read) = packet.drop 1 ++ untagged read := rfl

@[simp] theorem untagged_push (read : List (List UInt8)) (tag : UInt8) (buf : List UInt8) :
    untagged (read ++ [tag :: buf]) = untagged read ++ buf := by simp [untagged]

/-- What was read is the beginning of what was written, in both directions. -/
structure History.Ordered (h : History) : Prop where
  returned : h.returned <+: h.written
  received : h.received.map Prod.snd <+: h.sent

/-- What was read and what is queued, one after the other, is what was written. -/
structure PtyMaster.Streams (m : PtyMaster) (h : History) : Prop where
  returned : h.returned ++ untagged m.read = h.written
  received : h.received.map Prod.snd ++ m.write = h.sent

theorem PtyMaster.Streams.ordered {m : PtyMaster} {h : History} (hs : m.Streams h) : h.Ordered :=
  ⟨⟨_, hs.returned⟩, ⟨_, hs.received⟩⟩

namespace PtyScheme

variable {s : PtyScheme} {p : Packet} {id len : Nat} {m m' : PtyMaster} {h : History}

/-- Reads have returned the beginning of what was written, and what a live master has not lost of it
is queued. -/
def StreamsKept (s : PtyScheme) : Prop :=
  (∀ id, (s.history id).Ordered) ∧ ∀ id m, s.master id = some m → m.Streams (s.history id)

/-- The invariant: the streams are kept, and ids to come have no history. -/
structure Kept (s : PtyScheme) : Prop where
  fresh : ∀ id, s.ptys.next ≤ id → s.history id = .none
  ordered : ∀ id, (s.history id).Ordered
  streams : ∀ id m, s.master id = some m → m.Streams (s.history id)

theorem master_eq_some : s.master id = some m ↔ s.ptys.entry id = some (.master m) := by
  unfold master
  constructor
  · intro hm
    split at hm
    next m' he =>
      cases hm
      exact he
    · cases hm
  · intro he
    rw [he]

theorem kept_new : new.Kept := by
  constructor
  · exact fun _ _ => rfl
  · exact fun _ => ⟨List.nil_prefix, List.nil_prefix⟩
  · intro id m hm
    cases hm

theorem Kept.update (hk : s.Kept) (hm : s.master id = some m) (hs : m'.Streams h) :
    (s.update id m' h).Kept := by
  have he := master_eq_some.mp hm
  constructor
  · intro k hle
    have hne : k ≠ id := (Nat.lt_of_lt_of_le (Table.lt_next he) hle).ne'
    show Function.update s.history id h k = .none
    rw [Function.update_of_ne hne]
    exact hk.fresh k hle
  · intro k
    show (Function.update s.history id h k).Ordered
    by_cases hid : k = id
    · rw [hid, Function.update_self]
      exact hs.ordered
    · rw [Function.update_of_ne hid]
      exact hk.ordered k
  · intro k m1 h1
    have h1 : (s.ptys.modify id fun _ => .master m').entry k = some (.master m1) :=
      master_eq_some.mp h1
    show m1.Streams (Function.update s.history id h k)
    by_cases hid : k = id
    · subst hid
      rw [Table.entry_modify_self, he] at h1
      cases h1
      rw [Function.update_self]
      exact hs
    · rw [Table.entry_modify_of_ne hid] at h1
      rw [Function.update_of_ne hid]
      exact hk.streams k m1 (master_eq_some.mpr h1)

/-- A new entry has nothing in its queues. -/
theorem Kept.insert (hk : s.Kept) {e : Entry} (he : ∀ m, e = .master m → m.read = [] ∧ m.write = []) :
    (s.insert e).state.Kept := by
  constructor
  · intro k hle
    exact hk.fresh k (Nat.le_of_succ_le hle)
  · exact hk.ordered
  · intro k m hm
    have hm : (s.ptys.insert e).entry k = some (.master m) := master_eq_some.mp hm
    by_cases hid : k = s.ptys.next
    · subst hid
      rw [Table.entry_insert_self] at hm
      obtain ⟨hread, hwrite⟩ := he m (Option.some.inj hm)
      show m.Streams (s.history s.ptys.next)
      rw [hk.fresh _ le_rfl]
      constructor
      · rw [hread]
        rfl
      · rw [hwrite]
        rfl
    · rw [Table.entry_insert_of_ne hid] at hm
      exact hk.streams k m (master_eq_some.mpr hm)

theorem Kept.close (hk : s.Kept) : (s.close id).state.Kept := by
  constructor
  · exact hk.fresh
  · exact hk.ordered
  · intro k m hm
    have hm : (s.ptys.remove id).entry k = some (.master m) := master_eq_some.mp hm
    by_cases hid : k = id
    · subst hid
      rw [Table.entry_remove_self] at hm
      cases hm
    · rw [Table.entry_remove_of_ne hid] at hm
      exact hk.streams k m (master_eq_some.mpr hm)

theorem Kept.openUrl (hk : s.Kept) (url : List UInt8) (flags uid gid : Nat) :
    (s.openUrl url flags uid gid).state.Kept := by
  unfold PtyScheme.openUrl
  split
  · exact hk
  · split
    · exact hk.insert (by intro m he; cases he; exact ⟨rfl, rfl⟩)
    · split
      · exact hk
      · split
        · exact hk
        · exact hk.insert nofun

theorem Kept.dup (hk : s.Kept) (buf : List UInt8) : (s.dup id buf).state.Kept := by
  unfold PtyScheme.dup
  split
  · exact hk.insert nofun
  · exact hk

/-- A packet read whole joins what the master has returned. -/
theorem Kept.readMaster (hk : s.Kept) (hm : s.master id = some m)
    (hroom : ∀ packet ∈ m.read.head?, packet.length ≤ len) : (s.readMaster id m len).state.Kept := by
  unfold PtyScheme.readMaster
  split
  next packet read hread =>
    have hbytes : copied len packet = packet :=
      List.take_of_length_le (hroom packet (by rw [hread]; rfl))
    have hs := hk.streams id m hm
    apply hk.update hm
    constructor
    · have hreturned := hs.returned
      rw [hread, untagged_cons, ← List.append_assoc] at hreturned
      dsimp only
      rw [hbytes]
      exact hreturned
    · exact hs.received
  · split <;> exact hk

/-- The bytes that a slave gets are the next ones. -/
theorem Kept.readSlave (hk : s.Kept) {v : PtySlave} : (s.readSlave id v len).state.Kept := by
  unfold PtyScheme.readSlave
  split
  · exact hk
  next m hm =>
    have hs := hk.streams v.masterId m hm
    have hstreams : PtyMaster.Streams { m with write := m.write.drop len }
        { s.history v.masterId with
          received := (s.history v.masterId).received ++ (copied len m.write).map (Prod.mk id) } := by
      refine ⟨hs.returned, ?_⟩
      have hreceived := hs.received
      rw [← List.take_append_drop len m.write, ← List.append_assoc] at hreceived
      simpa [copied] using hreceived
    have hkept := hk.update hm hstreams
    dsimp only
    split <;> exact hkept

theorem Kept.read (hk : s.Kept)
    (hroom : ∀ m, s.master id = some m → ∀ packet ∈ m.read.head?, packet.length ≤ len) :
    (s.read id len).state.Kept := by
  unfold PtyScheme.read
  split
  next m he =>
    have hm := master_eq_some.mpr he
    exact hk.readMaster hm (hroom m hm)
  · exact hk.readSlave
  · exact hk

theorem Kept.push (hk : s.Kept) {v : PtySlave} {tag : UInt8} {buf : List UInt8} :
    (s.push v tag buf).state.Kept := by
  unfold PtyScheme.push
  split
  · exact hk
  next m hm =>
    have hs := hk.streams v.masterId m hm
    apply hk.update hm
    constructor
    · rw [untagged_push, ← List.append_assoc, hs.returned]
    · exact hs.received

theorem Kept.write (hk : s.Kept) {buf : List UInt8} : (s.write id buf).state.Kept := by
  unfold PtyScheme.write
  split
  next m he =>
    have hm := master_eq_some.mpr he
    have hs := hk.streams id m hm
    apply hk.update hm
    constructor
    · exact hs.returned
    · show (s.history id).received.map Prod.snd ++ (m.write ++ buf) = (s.history id).sent ++ buf
      rw [← List.append_assoc, hs.received]
  · exact hk.push
  · exact hk

/-- A read of a master that finds a packet has room for it. -/
def Roomy (s : PtyScheme) (p : Packet) : Prop :=
  method p.a = some .read → ∀ m, s.master p.b = some m → ∀ packet ∈ m.read.head?,
    packet.length ≤ p.d

theorem Kept.handle (hk : s.Kept) (hr : s.Roomy p) (memory : Nat → UInt8) :
    (scheme.handle memory s p).state.Kept := by
  refine SchemeMut.handle_of (P := fun d : Done PtyScheme => d.state.Kept) (fun _ _ => hk)
    (fun _ => hk.openUrl (load memory p.b p.c) p.d p.uid p.gid) (fun _ => hk.dup (load memory p.c p.d))
    (fun hm => hk.read (hr hm)) (fun _ => hk.write) hk ?fevent ?fpath ?fsync fun _ => hk.close
  case fevent =>
    unfold fevent
    split <;> exact hk
  case fpath =>
    unfold fpath
    split <;> exact hk
  case fsync =>
    unfold fsync
    split
    · exact hk.push
    · exact hk

/-- A request that is no read leaves what reads have returned. -/
theorem handle_unread (hm : method p.a ≠ some .read) (memory : Nat → UInt8) (k : Nat) :
    ((scheme.handle memory s p).state.history k).returned = (s.history k).returned ∧
    ((scheme.handle memory s p).state.history k).received = (s.history k).received := by
  have hupdate : ∀ {i m h}, h.returned = (s.history i).returned → h.received = (s.history i).received →
      ((s.update i m h).history k).returned = (s.history k).returned ∧
      ((s.update i m h).history k).received = (s.history k).received := by
    intro i m h hreturned hreceived
    by_cases hk : k = i
    · subst hk
      simp [PtyScheme.update, hreturned, hreceived]
    · simp [PtyScheme.update, Function.update_of_ne hk]
  have hpush : ∀ v tag buf, ((s.push v tag buf).state.history k).returned = (s.history k).returned ∧
      ((s.push v tag buf).state.history k).received = (s.history k).received := by
    intro v tag buf
    unfold PtyScheme.push
    split
    · exact ⟨rfl, rfl⟩
    · exact hupdate rfl rfl
  refine SchemeMut.handle_of (P := fun d : Done PtyScheme =>
    (d.state.history k).returned = (s.history k).returned ∧
      (d.state.history k).received = (s.history k).received) (fun _ _ => ⟨rfl, rfl⟩) (fun _ => ?openUrl)
    (fun _ => ?dup) (fun h => absurd h hm) (fun _ => ?write) ⟨rfl, rfl⟩ ?fevent ?fpath ?fsync fun _ => ⟨rfl, rfl⟩
  case openUrl =>
    unfold openUrl
    split
    · exact ⟨rfl, rfl⟩
    · split
      · exact ⟨rfl, rfl⟩
      · split
        · exact ⟨rfl, rfl⟩
        · split <;> exact ⟨rfl, rfl⟩
  case dup =>
    unfold dup
    split <;> exact ⟨rfl, rfl⟩
  case write =>
    unfold PtyScheme.write
    split
    · exact hupdate rfl rfl
    · exact hpush ..
    · exact ⟨rfl, rfl⟩
  case fevent =>
    unfold fevent
    split <;> exact ⟨rfl, rfl⟩
  case fpath =>
    unfold fpath
    split <;> exact ⟨rfl, rfl⟩
  case fsync =>
    unfold fsync
    split
    · exact hpush ..
    · exact ⟨rfl, rfl⟩

/-- The master of the slave with the given id. -/
def masterOf (s : PtyScheme) (id : Nat) : Option Nat :=
  match s.ptys.entry id with
  | some (.slave v) => some v.masterId
  | _ => none

/-- What a read puts into the buffer of its caller joins the history. -/
theorem read_history (s : PtyScheme) (id len k : Nat) :
    ((s.read id len).state.history k).returned = (s.history k).returned ++
      (if (s.master id).isSome ∧ id = k then (s.read id len).bytes.drop 1 else []) ∧
    ((s.read id len).state.history k).received = (s.history k).received ++
      (if s.masterOf id = some k then (s.read id len).bytes.map (Prod.mk id) else []) := by
  unfold PtyScheme.read master masterOf
  cases he : s.ptys.entry id with
  | none => simp [fail]
  | some entry =>
    cases entry with
    | master m =>
      dsimp only
      unfold readMaster
      split
      · by_cases hk : k = id
        · subst hk
          simp [PtyScheme.update]
        · simp [PtyScheme.update, Function.update_of_ne hk, Ne.symm hk]
      · split <;> simp [succeed, fail]
    | slave v =>
      dsimp only
      unfold readSlave
      split
      · simp [succeed]
      · dsimp only
        by_cases hk : k = v.masterId
        · subst hk
          split
          · simp [PtyScheme.update]
          next hblocked =>
            have hnone := not_not.mp (not_or.mp hblocked).1
            simp [PtyScheme.update, fail, hnone]
        · split <;> simp [PtyScheme.update, Function.update_of_ne hk, Ne.symm hk, fail]

/-- A read that blocks puts nothing there. -/
theorem read_blocked (hlen : len < 2 ^ 63) (hb : mux (s.read id len).result = mux (.error EWOULDBLOCK)) :
    (s.read id len).bytes = [] := by
  have hcopied : ∀ data : List UInt8, mux (.ok (copied len data).length) ≠ mux (.error EWOULDBLOCK) := by
    intro data heq
    have hle : (copied len data).length ≤ len := List.length_take_le _ _
    have heq : (copied len data).length = 2 ^ 64 - 41 := heq
    omega
  unfold PtyScheme.read at hb ⊢
  split
  next m he =>
    simp only [he] at hb
    unfold readMaster at hb ⊢
    split
    next packet read hread =>
      simp only [hread] at hb
      exact absurd hb (hcopied packet)
    · split <;> rfl
  next v he =>
    simp only [he] at hb
    unfold readSlave at hb ⊢
    split
    · rfl
    next m hm =>
      simp only [hm] at hb ⊢
      split
      next hgot =>
        rw [if_pos hgot] at hb
        exact absurd hb (hcopied m.write)
      · rfl
  · rfl

end PtyScheme

namespace Ptyd

variable {s : Ptyd} {p : Packet} {memory : Nat → UInt8} {id : Nat}

/-- Every read of a master that finds a packet has room for it, when it comes and when it is tried
again. -/
def Roomy (s : Ptyd) (e : Event) : Prop :=
  s.scheme.Roomy e.packet ∧
    Each (attempt e.memory) (fun t p => t.scheme.Roomy p)
      { s.attempt e.memory e.packet with todo := [] } (s.attempt e.memory e.packet).todo

theorem attempt_scheme : (s.attempt memory p).scheme =
    (PtyScheme.scheme.handle memory s.scheme p).state := by
  unfold attempt
  dsimp only
  split <;> rfl

theorem kept_attempt (hk : s.scheme.Kept) (hr : s.scheme.Roomy p) :
    (s.attempt memory p).scheme.Kept := by
  rw [attempt_scheme]
  exact hk.handle hr memory

/-- What each attempt keeps, the loop keeps. -/
theorem kept_attempts {todo : List Packet} (hk : s.scheme.Kept)
    (hr : Each (attempt memory) (fun t p => t.scheme.Roomy p) s todo) :
    (todo.foldl (attempt memory) s).scheme.Kept := by
  induction todo generalizing s with
  | nil => exact hk
  | cons p todo ih => exact ih (kept_attempt hk hr.1) hr.2

theorem kept_step (e : Event) (hk : s.scheme.Kept) (hr : s.Roomy e) : (s.step e).scheme.Kept :=
  kept_attempts (kept_attempt hk hr.1) hr.2

/-- What a reply to a read carries, if an attempt of the packet is answered. -/
def readBytes (s : Ptyd) (memory : Nat → UInt8) (p : Packet) : List UInt8 :=
  if method p.a = some .read then ((s.attempt memory p).socket.drop s.socket.length).flatMap Reply.bytes
  else []

/-- What reads have returned grows by what the replies to them carry, in every attempt of the loop. -/
theorem attempt_history (hlen : method p.a = some .read → p.d < 2 ^ 63) (k : Nat) :
    ((s.attempt memory p).scheme.history k).returned = (s.scheme.history k).returned ++
      (if (s.scheme.master p.b).isSome ∧ p.b = k then (s.readBytes memory p).drop 1 else []) ∧
    ((s.attempt memory p).scheme.history k).received = (s.scheme.history k).received ++
      (if s.scheme.masterOf p.b = some k then (s.readBytes memory p).map (Prod.mk p.b) else []) := by
  rw [attempt_scheme]
  by_cases hm : method p.a = some .read
  · have hhandle : PtyScheme.scheme.handle memory s.scheme p = s.scheme.read p.b p.d := by
      simp only [SchemeMut.handle, hm]
      rfl
    have hbytes : s.readBytes memory p = (s.scheme.read p.b p.d).bytes := by
      rw [readBytes, if_pos hm]
      unfold attempt
      rw [hhandle]
      dsimp only
      split
      next hb => simp [PtyScheme.read_blocked (hlen hm) hb]
      next => simp
    rw [hhandle, hbytes]
    exact PtyScheme.read_history ..
  · have hbytes : s.readBytes memory p = [] := if_neg hm
    obtain ⟨hreturned, hreceived⟩ := PtyScheme.handle_unread (s := s.scheme) hm memory k
    simp [hbytes, hreturned, hreceived]

/-- The requests with the given id that are answered or wait. -/
def accounted (s : Ptyd) (id : Nat) : Nat := repliesTo id s.socket + withId id s.todo

theorem accounted_attempt :
    (s.attempt memory p).accounted id = s.accounted id + withId id [p] := by
  unfold attempt accounted
  dsimp only
  split
  · dsimp only
    rw [withId_append]
    omega
  · dsimp only
    rw [repliesTo_append, repliesTo_cons, repliesTo_nil, withId_cons, withId_nil]
    dsimp only
    omega

theorem accounted_attempts (s : Ptyd) (memory : Nat → UInt8) (id : Nat) (todo : List Packet) :
    (todo.foldl (attempt memory) s).accounted id = s.accounted id + withId id todo := by
  induction todo generalizing s with
  | nil => rfl
  | cons p todo ih =>
    rw [List.foldl_cons, ih, accounted_attempt, withId_cons, withId_cons, withId_nil]
    omega

theorem repliesTo_notices (hid : id ≠ 0) (s : PtyScheme) : repliesTo id s.notices = 0 := by
  rw [PtyScheme.notices, repliesTo_append, repliesTo_flatMap, repliesTo_flatMap]
  · intro e
    split
    · split
      · split
        · exact repliesTo_notice hid _ _
        · rfl
      · exact repliesTo_notice hid _ _
    · rfl
  · intro e
    split
    · split
      · exact repliesTo_notice hid _ _
      · split
        · exact repliesTo_notice hid _ _
        · rfl
    · rfl

theorem accounted_step (hid : id ≠ 0) (e : Event) :
    (s.step e).accounted id = s.accounted id + withId id [e.packet] := by
  let t := s.attempt e.memory e.packet
  have htry : t.accounted id = s.accounted id + withId id [e.packet] := accounted_attempt
  have hretry := accounted_attempts { t with todo := [] } e.memory id t.todo
  show repliesTo id ((t.retry e.memory).socket ++ (t.retry e.memory).scheme.notices) +
    withId id (t.retry e.memory).todo = _
  rw [repliesTo_append, repliesTo_notices hid, Nat.add_zero, ← htry]
  exact hretry

theorem accounted_run (hid : id ≠ 0) (events : List Event) (s : Ptyd) :
    (events.foldl step s).accounted id =
      s.accounted id + withId id (events.map Event.packet) := by
  induction events generalizing s with
  | nil => rfl
  | cons e events ih =>
    rw [List.foldl_cons, ih, accounted_step hid, List.map_cons, withId_cons, withId_cons,
      withId_nil]
    omega

/-- In every run of the daemon each request is answered once or waits; and both streams of every
pseudo-terminal come whole and in order as long as reads of masters have room. -/
theorem streams_and_requests_kept (events : List Event) :
    (Each step Roomy new events → Throughout step (fun s => s.scheme.StreamsKept) new events) ∧
      ∀ id, id ≠ 0 →
        (events.foldl step new).accounted id = withId id (events.map Event.packet) := by
  constructor
  · intro hr
    apply throughout_of_each (I := fun s => s.scheme.Kept) ?_ ?_ PtyScheme.kept_new hr
    · exact fun s e hk hr => kept_step e hk hr
    · exact fun s hk => ⟨hk.ordered, hk.streams⟩
  · intro id hid
    exact (accounted_run hid events new).trans (Nat.zero_add _)

/-- A read of a master waits for a slave to write, and gets all of that. -/
theorem waiting_read_is_answered :
    let memory : Nat → UInt8 := fun a => [48, 7].getD a 0
    let events : List Event := [⟨memory, 1, 1, 0, 0, SYS_OPEN, 0, 0, 0⟩,
      ⟨memory, 2, 1, 0, 0, SYS_OPEN, 0, 1, 0⟩, ⟨memory, 3, 1, 0, 0, SYS_READ, 0, 0, 2⟩,
      ⟨memory, 4, 1, 0, 0, SYS_WRITE, 1, 1, 1⟩]
    ((events.foldl step new).scheme.history 0).returned = [7] ∧
      Throughout step (fun s => s.scheme.StreamsKept) new events ∧
      (events.foldl step new).accounted 3 = 1 := by
  intro memory events
  have hrun := streams_and_requests_kept events
  have hroom : ∀ (s : PtyScheme) (p : Packet),
      (∀ m ∈ s.master p.b, ∀ packet ∈ m.read.head?, packet.length ≤ p.d) → s.Roomy p :=
    fun s p h _ => h
  have hnone : ∀ (s : Ptyd) (e : Event), method e.packet.a ≠ some .read →
      (s.attempt e.memory e.packet).todo = [] → s.Roomy e := by
    intro s e hne htodo
    refine ⟨fun hm => (hne hm).elim, ?_⟩
    rw [htodo]
    trivial
  have hone : ∀ (s : Ptyd) (e : Event) (p : Packet), s.scheme.Roomy e.packet →
      (s.attempt e.memory e.packet).todo = [p] →
      (s.attempt e.memory e.packet).scheme.Roomy p → s.Roomy e := by
    intro s e p hs htodo hp
    refine ⟨hs, ?_⟩
    rw [htodo]
    exact ⟨hp, trivial⟩
  refine ⟨by decide, hrun.1 ⟨?_, ?_, ?_, ?_, trivial⟩, hrun.2 3 (by decide)⟩
  · exact hnone _ _ (by decide) (by decide)
  · exact hnone _ _ (by decide) (by decide)
  · exact hone _ _ ⟨3, 1, 0, 0, SYS_READ, 0, 0, 2⟩ (hroom _ _ (by decide)) (by decide)
      (hroom _ _ (by decide))
  · exact hone _ _ ⟨3, 1, 0, 0, SYS_READ, 0, 0, 2⟩ (fun hm => absurd hm (by decide)) (by decide)
      (hroom _ _ (by decide))

/-- Two writes of a slave, read with a buffer of two bytes: the second byte of the first never
comes. -/
theorem cut_packet_is_lost :
    let memory : Nat → UInt8 := fun a => [48, 7, 8, 9].getD a 0
    let s := [(⟨memory, 1, 1, 0, 0, SYS_OPEN, 0, 0, 0⟩ : Event),
      ⟨memory, 2, 1, 0, 0, SYS_OPEN, 0, 1, 0⟩, ⟨memory, 3, 1, 0, 0, SYS_WRITE, 1, 1, 2⟩,
      ⟨memory, 4, 1, 0, 0, SYS_READ, 0, 0, 2⟩, ⟨memory, 5, 1, 0, 0, SYS_WRITE, 1, 3, 1⟩,
      ⟨memory, 6, 1, 0, 0, SYS_READ, 0, 0, 2⟩].foldl step new
    (s.scheme.history 0).written = [7, 8, 9] ∧ (s.scheme.history 0).returned = [7, 9] ∧
      ¬ s.scheme.StreamsKept := by
  intro memory s
  have hwritten : (s.scheme.history 0).written = [7, 8, 9] := by decide
  have hreturned : (s.scheme.history 0).returned = [7, 9] := by decide
  refine ⟨hwritten, hreturned, ?_⟩
  intro hk
  have hp := (hk.1 0).returned
  rw [hwritten, hreturned] at hp
  exact absurd hp (by decide)

end Ptyd

end Origel.Pty
