import Mathlib.Data.List.Nodup
import Origel.Kernel.Grants
import Origel.Numbers

/-! Schemes of user space: contexts send packets to a daemon and wait for what it writes back. -/
namespace Origel.Kernel.UserScheme

open Origel.Lib Paging

structure Packet where
  id : Nat
  pid : Nat
  uid : Nat
  gid : Nat
  a : Nat
  b : Nat
  c : Nat
  d : Nat
  deriving DecidableEq, Repr

def packetSize : Nat := 56

/-- `Error::mux` -/
def mux : Except Nat Nat → Nat
  | .ok value => value
  | .error errno => 2 ^ 64 - errno

/-- `Error::demux`: the low 32 bits are an error if they are minus a known number. -/
def demux (value : Nat) : Except Nat Nat :=
  if 2 ^ 32 - 132 < value % 2 ^ 32 then .error (2 ^ 32 - value % 2 ^ 32) else .ok value

/-- The part of `UserInner` that calls and replies go through. -/
structure UserInner where
  handleId : Nat
  nextId : Nat
  todo : List Packet
  fmap : Nat → Option (Nat × Nat)
  done : Nat → Option Nat
  /-- The contexts in the condition of `done`. -/
  waiting : List Nat

/-- Where a context is in a call: it has sent a packet and looks for the reply, or sleeps until
there is one. -/
inductive Phase where
  | idle
  | receiving (id : Nat)
  | blocked (id : Nat)
  deriving DecidableEq, Repr

/-- An event on the handle of the daemon, or on a file of the scheme. -/
inductive Event where
  | root (handle flags data : Nat)
  | file (number flags data : Nat)
  deriving DecidableEq, Repr

/-- A packet that was sent, by `fmap` or by another call. -/
structure Request where
  packet : Packet
  isMap : Bool

/-- A capture for an `fmap`: the context, the daemon's address, and what came of it. -/
structure Capture where
  pid : Nat
  address : Nat
  size : Nat
  result : Except Nat Nat

/-- What the daemon wrote for an id, and what was sent on. -/
structure Reply where
  id : Nat
  a : Nat
  capture : Option Capture
  value : Nat

/-- What a caller got. -/
structure Return where
  pid : Nat
  id : Nat
  result : Except Nat Nat

/-- A scheme with the contexts around it, and the history of its packets. -/
structure World where
  inner : UserInner
  contexts : Nat → Option Grants.Context
  phase : Nat → Phase
  events : List Event
  sent : List Request
  delivered : List Packet
  replies : List Reply
  returns : List Return

def errno : Grants.Errno → Nat
  | .EPERM => EPERM
  | .EFAULT => EFAULT

/-- `UserInner::capture_inner` for a context that may be gone by now -/
def captureInner (contexts : Nat → Option Grants.Context) (pid : Nat) (daemon : Nat → Option Frame)
    (address size : Nat) : Option (Except Nat Nat × (Nat → Option Grants.Context)) :=
  if size = 0 then some (.ok 0, contexts)
  else
    match contexts pid with
    | none => some (.error ESRCH, contexts)
    | some c =>
      match c.capture daemon address size true with
      | some (.ok value, c) => some (.ok value, Function.update contexts pid (some c))
      | some (.error e, c) => some (.error (errno e), Function.update contexts pid (some c))
      | none => none

namespace World

/-- The packet of a call is numbered and queued, and the daemon is told. -/
def request (w : World) (pid uid gid a b c d : Nat) (isMap : Bool) : Option World :=
  if w.phase pid = .idle then
    let id := w.inner.nextId
    let packet : Packet := ⟨id, pid, uid, gid, a, b, c, d⟩
    some { w with
      inner := { w.inner with
        nextId := (id + 1) % 2 ^ 64
        fmap := if isMap then Function.update w.inner.fmap id (some (pid, d)) else w.inner.fmap
        todo := w.inner.todo ++ [packet] }
      phase := Function.update w.phase pid (.receiving id)
      events := w.events ++
        [.root w.inner.handleId EVENT_READ (packetSize * (w.inner.todo.length + 1))]
      sent := w.sent ++ [⟨packet, isMap⟩] }
  else none

/-- `UserInner::call`, up to the wait for the reply -/
def call (w : World) (pid uid gid a b c d : Nat) : Option World := w.request pid uid gid a b c d false

/-- `UserScheme::fmap`, up to the wait for the reply -/
def fmap (w : World) (pid uid gid file offset size : Nat) : Option World :=
  w.request pid uid gid SYS_FMAP file offset size true

/-- One turn of the loop of `WaitMap::receive`. -/
def receive (w : World) (pid : Nat) : Option World :=
  match w.phase pid with
  | .receiving id =>
    match w.inner.done id with
    | some value => some { w with
        inner := { w.inner with done := Function.update w.inner.done id none }
        phase := Function.update w.phase pid .idle
        returns := w.returns ++ [⟨pid, id, demux value⟩] }
    | none => some { w with
        inner := { w.inner with waiting := w.inner.waiting ++ [pid] }
        phase := Function.update w.phase pid (.blocked id) }
  | _ => none

/-- A sleeping context runs again, also where nothing was sent: a signal wakes it too. -/
def unblock (phase : Nat → Phase) (pid : Nat) : Phase :=
  match phase pid with
  | .blocked id => .receiving id
  | other => other

def wake (w : World) (pid : Nat) : World :=
  { w with phase := Function.update w.phase pid (unblock w.phase pid) }

/-- `UserInner::read`: as many packets as the buffer holds, or there are. -/
def read (w : World) (count : Nat) : World :=
  { w with
    inner := { w.inner with todo := w.inner.todo.drop count }
    delivered := w.delivered ++ w.inner.todo.take count }

/-- `WaitMap::send`, with all who wait woken -/
def send (w : World) (r : Reply) : World :=
  { w with
    inner := { w.inner with done := Function.update w.inner.done r.id (some r.value), waiting := [] }
    phase := fun pid => if pid ∈ w.inner.waiting then unblock w.phase pid else w.phase pid
    replies := w.replies ++ [r] }

/-- One packet of `UserInner::write`. -/
def writeOne (w : World) (daemon : Nat → Option Frame) (p : Packet) : Option World :=
  if p.id = 0 then
    some { w with events := w.events ++ if p.a = SYS_FEVENT then [.file p.b p.c p.d] else [] }
  else
    match w.inner.fmap p.id with
    | some (pid, size) =>
      let w := { w with inner := { w.inner with fmap := Function.update w.inner.fmap p.id none } }
      match demux p.a with
      | .ok address =>
        match captureInner w.contexts pid daemon address size with
        | some (result, contexts) => some ({ w with contexts }.send
            ⟨p.id, p.a, some ⟨pid, address, size, result⟩, mux result⟩)
        | none => none
      | .error _ => some (w.send ⟨p.id, p.a, none, p.a⟩)
    | none => some (w.send ⟨p.id, p.a, none, p.a⟩)

/-- `UserInner::write` -/
def write (w : World) (daemon : Nat → Option Frame) : List Packet → Option World
  | [] => some w
  | p :: ps => do
    let w ← w.writeOne daemon p
    w.write daemon ps

end World

inductive Act where
  | call (pid uid gid a b c d : Nat)
  | fmap (pid uid gid file offset size : Nat)
  | receive (pid : Nat)
  | wake (pid : Nat)
  | read (count : Nat)
  | write (daemon : Nat → Option Frame) (packets : List Packet)
  /-- The rest of the kernel changes a context, or removes it. -/
  | other (pid : Nat) (c : Option Grants.Context)

def World.act (w : World) : Act → Option World
  | .call pid uid gid a b c d => w.call pid uid gid a b c d
  | .fmap pid uid gid file offset size => w.fmap pid uid gid file offset size
  | .receive pid => w.receive pid
  | .wake pid => some (w.wake pid)
  | .read count => some (w.read count)
  | .write daemon packets => w.write daemon packets
  | .other pid c => some { w with contexts := Function.update w.contexts pid c }

/-- The daemon answers packets that it has read, each once; and the ids do not run out. -/
def Orderly (w : World) : Act → Prop
  | .call .. => w.sent.length + 2 < 2 ^ 64
  | .fmap .. => w.sent.length + 2 < 2 ^ 64
  | .write _ packets =>
    ((packets.map Packet.id).filter (· ≠ 0)).Nodup ∧
    ∀ p ∈ packets, p.id ≠ 0 → p.id ∈ w.delivered.map Packet.id ∧ p.id ∉ w.replies.map Reply.id
  | _ => True

def Step (w : World) (act : Act) (w' : World) : Prop := Orderly w act ∧ w.act act = some w'

/-- A new scheme: no packet, no call. -/
def World.new (handleId : Nat) (contexts : Nat → Option Grants.Context) : World where
  inner := ⟨handleId, 1, [], fun _ => none, fun _ => none, []⟩
  contexts := contexts
  phase := fun _ => .idle
  events := []
  sent := []
  delivered := []
  replies := []
  returns := []

variable {w w' : World} {act : Act} {pid id n : Nat} {q q' : Request} {r r' : Reply} {p : Packet}
  {daemon : Nat → Option Frame}

/-- The context waits for the reply to the id, asleep or not. -/
def World.Awaits (w : World) (pid id : Nat) : Prop :=
  w.phase pid = .receiving id ∨ w.phase pid = .blocked id

/-- What is sent on for a request: the daemon's own value, but for an address that an `fmap` gets,
which is captured into the context that asked. -/
def Answers (q : Request) (r : Reply) : Prop :=
  if q.isMap then
    match demux r.a with
    | .ok address => ∃ result, r.capture = some ⟨q.packet.pid, address, q.packet.d, result⟩ ∧
        r.value = mux result
    | .error _ => r.capture = none ∧ r.value = r.a
  else r.capture = none ∧ r.value = r.a

/-- How ids, the queue, the waiting contexts and the two maps hang together. -/
structure Inv (w : World) : Prop where
  ids : w.sent.map (fun q => q.packet.id) = List.range' 1 w.sent.length
  next : w.inner.nextId = w.sent.length + 1
  room : w.sent.length + 1 < 2 ^ 64
  queue : w.delivered ++ w.inner.todo = w.sent.map Request.packet
  once : (w.replies.map Reply.id).Nodup
  known : ∀ r ∈ w.replies, r.id ∈ w.delivered.map Packet.id
  maps : ∀ id pid size, w.inner.fmap id = some (pid, size) ↔ ∃ q ∈ w.sent, q.isMap = true ∧
    q.packet.id = id ∧ q.packet.pid = pid ∧ q.packet.d = size ∧ id ∉ w.replies.map Reply.id
  awaits : ∀ pid id, w.Awaits pid id → ∃ q ∈ w.sent, q.packet.id = id ∧ q.packet.pid = pid
  stored : ∀ pid id, w.Awaits pid id → ∀ v, w.inner.done id = some v ↔
    ∃ r ∈ w.replies, r.id = id ∧ r.value = v
  replied : ∀ id v, w.inner.done id = some v → id ∈ w.replies.map Reply.id
  asleep : ∀ pid id, w.phase pid = .blocked id → pid ∈ w.inner.waiting ∧ w.inner.done id = none
  faithful : ∀ r ∈ w.replies, ∀ q ∈ w.sent, q.packet.id = r.id → Answers q r
  returned : ∀ x ∈ w.returns, ∃ q ∈ w.sent, ∃ r ∈ w.replies, q.packet.id = x.id ∧
    q.packet.pid = x.pid ∧ r.id = x.id ∧ x.result = demux r.value

namespace Inv

theorem id_bounds (h : Inv w) (hq : q ∈ w.sent) : 1 ≤ q.packet.id ∧ q.packet.id ≤ w.sent.length := by
  have hmem : q.packet.id ∈ w.sent.map fun q => q.packet.id := List.mem_map_of_mem hq
  rw [h.ids, List.mem_range'_1] at hmem
  omega

theorem eq_of_id (h : Inv w) (hq : q ∈ w.sent) (hq' : q' ∈ w.sent)
    (hid : q.packet.id = q'.packet.id) : q = q' := by
  have hnodup : (w.sent.map fun q => q.packet.id).Nodup := h.ids ▸ List.nodup_range'
  exact List.inj_on_of_nodup_map hnodup hq hq' hid

theorem delivered_sent (h : Inv w) (hid : id ∈ w.delivered.map Packet.id) :
    ∃ q ∈ w.sent, q.packet.id = id := by
  obtain ⟨p, hp, rfl⟩ := List.mem_map.mp hid
  have hmem : p ∈ w.sent.map Request.packet := h.queue ▸ List.mem_append_left _ hp
  obtain ⟨q, hq, rfl⟩ := List.mem_map.mp hmem
  exact ⟨q, hq, rfl⟩

theorem reply_le (h : Inv w) (hid : id ∈ w.replies.map Reply.id) : id ≤ w.sent.length := by
  obtain ⟨r, hr, rfl⟩ := List.mem_map.mp hid
  obtain ⟨q, hq, hqr⟩ := h.delivered_sent (h.known r hr)
  have := h.id_bounds hq
  omega

/-- Two contexts never wait for one id. -/
theorem pid_of_awaits (h : Inv w) {pid' : Nat} (ha : w.Awaits pid id) (ha' : w.Awaits pid' id) :
    pid = pid' := by
  obtain ⟨q, hq, hid, hpid⟩ := h.awaits pid id ha
  obtain ⟨q', hq', hid', hpid'⟩ := h.awaits pid' id ha'
  have heq := h.eq_of_id hq hq' (hid.trans hid'.symm)
  rw [← hpid, ← hpid', heq]

/-- What only the contexts, or the events, of a world change keeps the invariant. -/
theorem congr (h : Inv w) (hi : w'.inner = w.inner) (hp : w'.phase = w.phase) (hs : w'.sent = w.sent)
    (hd : w'.delivered = w.delivered) (hr : w'.replies = w.replies) (hx : w'.returns = w.returns) :
    Inv w' := by
  cases w
  cases w'
  dsimp only at hi hp hs hd hr hx
  subst hi hp hs hd hr hx
  exact ⟨h.ids, h.next, h.room, h.queue, h.once, h.known, h.maps, h.awaits, h.stored, h.replied,
    h.asleep, h.faithful, h.returned⟩

/-- The next id is not used yet. -/
theorem next_fresh (h : Inv w) :
    w.inner.nextId ∉ w.replies.map Reply.id ∧ w.inner.done w.inner.nextId = none ∧
      ∀ q ∈ w.sent, q.packet.id ≠ w.inner.nextId := by
  have hfresh : w.inner.nextId ∉ w.replies.map Reply.id := by
    intro hin
    have := h.reply_le hin
    have := h.next
    omega
  refine ⟨hfresh, ?_, ?_⟩
  · cases hd : w.inner.done w.inner.nextId with
    | none => rfl
    | some v => exact absurd (h.replied _ v hd) hfresh
  · intro q hq
    have := h.id_bounds hq
    have := h.next
    omega

/-- A request to map is known under its id from now on. -/
theorem maps_request {uid gid a b c d : Nat} {isMap : Bool} (h : Inv w)
    (hfresh : w.inner.nextId ∉ w.replies.map Reply.id)
    (hid : ∀ q ∈ w.sent, q.packet.id ≠ w.inner.nextId) (id pid' size : Nat) :
    (if isMap = true then Function.update w.inner.fmap w.inner.nextId (some (pid, d))
      else w.inner.fmap) id = some (pid', size) ↔
    ∃ q ∈ w.sent ++ [(⟨⟨w.inner.nextId, pid, uid, gid, a, b, c, d⟩, isMap⟩ : Request)], q.isMap = true ∧
      q.packet.id = id ∧ q.packet.pid = pid' ∧ q.packet.d = size ∧ id ∉ w.replies.map Reply.id := by
  by_cases he : id = w.inner.nextId
  · subst he
    constructor
    · intro hmap
      cases isMap with
      | true =>
        simp only [if_true, Function.update_self, Option.some.injEq, Prod.mk.injEq] at hmap
        exact ⟨_, List.mem_append_right _ List.mem_cons_self, rfl, rfl, hmap.1, hmap.2, hfresh⟩
      | false =>
        obtain ⟨q, hq, -, hqid, -⟩ := (h.maps _ pid' size).mp hmap
        exact absurd hqid (hid q hq)
    · rintro ⟨q, hq, hmap, hqid, hpid, hd, -⟩
      rcases List.mem_append.mp hq with hq | hq
      · exact absurd hqid (hid q hq)
      · rw [List.mem_singleton.mp hq] at hmap hpid hd
        dsimp only at hmap hpid hd
        subst hmap hpid hd
        simp
  · have hsame : (if isMap = true then Function.update w.inner.fmap w.inner.nextId (some (pid, d))
        else w.inner.fmap) id = w.inner.fmap id := by
      split
      · exact Function.update_of_ne he _ _
      · rfl
    rw [hsame, h.maps]
    constructor
    · rintro ⟨q, hq, hrest⟩
      exact ⟨q, List.mem_append_left _ hq, hrest⟩
    · rintro ⟨q, hq, hmap, hqid, hrest⟩
      rcases List.mem_append.mp hq with hq | hq
      · exact ⟨q, hq, hmap, hqid, hrest⟩
      · rw [List.mem_singleton.mp hq] at hqid
        exact absurd hqid.symm he

theorem request {uid gid a b c d : Nat} {isMap : Bool} (h : Inv w) (hroom : w.sent.length + 2 < 2 ^ 64)
    (hw : w.request pid uid gid a b c d isMap = some w') : Inv w' := by
  unfold World.request at hw
  split at hw
  next hidle =>
    cases hw
    obtain ⟨hfresh, hnone, hid⟩ := h.next_fresh
    have hother : ∀ pid' id, Function.update w.phase pid (.receiving w.inner.nextId) pid' = .receiving id ∨
        Function.update w.phase pid (.receiving w.inner.nextId) pid' = .blocked id →
        pid' = pid ∧ id = w.inner.nextId ∨ w.Awaits pid' id := by
      intro pid' id hp
      by_cases he : pid' = pid
      · subst he
        simp only [Function.update_self, Phase.receiving.injEq, reduceCtorEq, or_false] at hp
        exact .inl ⟨rfl, hp.symm⟩
      · simp only [Function.update_of_ne he] at hp
        exact .inr hp
    refine ⟨?_, ?_, ?_, ?_, h.once, h.known, ?_, ?_, ?_, h.replied, ?_, ?_, ?_⟩
    · simp only [List.map_append, List.map_cons, List.map_nil, List.length_append, List.length_cons,
        List.length_nil, h.ids, Nat.zero_add]
      rw [List.range'_concat, h.next]
      simp [Nat.add_comm]
    · simp only [List.length_append, List.length_cons, List.length_nil, h.next]
      omega
    · simp only [List.length_append, List.length_cons, List.length_nil]
      omega
    · simp only [List.map_append, List.map_cons, List.map_nil, ← h.queue, List.append_assoc]
    · exact h.maps_request hfresh hid
    · intro pid' id hp
      rcases hother pid' id hp with ⟨rfl, rfl⟩ | hold
      · exact ⟨_, List.mem_append_right _ List.mem_cons_self, rfl, rfl⟩
      · obtain ⟨q, hq, hrest⟩ := h.awaits pid' id hold
        exact ⟨q, List.mem_append_left _ hq, hrest⟩
    · intro pid' id hp v
      rcases hother pid' id hp with ⟨rfl, rfl⟩ | hold
      · rw [hnone]
        refine iff_of_false (by simp) ?_
        rintro ⟨r, hr, hrid, -⟩
        exact hfresh (hrid ▸ List.mem_map_of_mem hr)
      · exact h.stored pid' id hold v
    · intro pid' id hp
      by_cases he : pid' = pid
      · subst he
        simp at hp
      · simp only [Function.update_of_ne he] at hp
        exact h.asleep pid' id hp
    · intro r hr q hq hqr
      rcases List.mem_append.mp hq with hq | hq
      · exact h.faithful r hr q hq hqr
      · rw [List.mem_singleton.mp hq] at hqr
        have hnew : w.inner.nextId = r.id := hqr
        exact absurd (hnew ▸ List.mem_map_of_mem hr) hfresh
    · intro x hx
      obtain ⟨q, hq, r, hr, hrest⟩ := h.returned x hx
      exact ⟨q, List.mem_append_left _ hq, r, hr, hrest⟩
  next => cases hw

theorem receive (h : Inv w) (hw : w.receive pid = some w') : Inv w' := by
  unfold World.receive at hw
  split at hw
  next id hphase =>
    have hself : w.Awaits pid id := .inl hphase
    split at hw
    next value hdone =>
      cases hw
      have hold : ∀ pid' id', Function.update w.phase pid .idle pid' = .receiving id' ∨
          Function.update w.phase pid .idle pid' = .blocked id' → w.Awaits pid' id' ∧ id' ≠ id := by
        intro pid' id' hp
        by_cases he : pid' = pid
        · subst he
          simp at hp
        · simp only [Function.update_of_ne he] at hp
          refine ⟨hp, ?_⟩
          rintro rfl
          exact he (h.pid_of_awaits hp hself)
      refine ⟨h.ids, h.next, h.room, h.queue, h.once, h.known, h.maps, ?_, ?_, ?_, ?_, h.faithful, ?_⟩
      · exact fun pid' id' hp => h.awaits pid' id' (hold pid' id' hp).1
      · intro pid' id' hp v
        obtain ⟨hwait, hne⟩ := hold pid' id' hp
        dsimp only
        rw [Function.update_of_ne hne]
        exact h.stored pid' id' hwait v
      · intro id' v hv
        dsimp only at hv
        by_cases he : id' = id
        · rw [he, Function.update_self] at hv
          cases hv
        · rw [Function.update_of_ne he] at hv
          exact h.replied id' v hv
      · intro pid' id' hp
        obtain ⟨hwait, hne⟩ := hold pid' id' (.inr hp)
        have hp' : w.phase pid' = .blocked id' := by
          by_cases he : pid' = pid
          · subst he
            simp at hp
          · simpa [Function.update_of_ne he] using hp
        obtain ⟨hin, hnone⟩ := h.asleep pid' id' hp'
        exact ⟨hin, (Function.update_of_ne hne _ _).trans hnone⟩
      · intro x hx
        rcases List.mem_append.mp hx with hx | hx
        · exact h.returned x hx
        · rw [List.mem_singleton.mp hx]
          obtain ⟨q, hq, hqid, hqpid⟩ := h.awaits pid id hself
          obtain ⟨r, hr, hrid, hvalue⟩ := (h.stored pid id hself value).mp hdone
          exact ⟨q, hq, r, hr, hqid, hqpid, hrid, by rw [hvalue]⟩
    next hdone =>
      cases hw
      have hold : ∀ pid' id', Function.update w.phase pid (.blocked id) pid' = .receiving id' ∨
          Function.update w.phase pid (.blocked id) pid' = .blocked id' → w.Awaits pid' id' := by
        intro pid' id' hp
        by_cases he : pid' = pid
        · subst he
          simp only [Function.update_self, reduceCtorEq, Phase.blocked.injEq, false_or] at hp
          exact hp ▸ hself
        · simp only [Function.update_of_ne he] at hp
          exact hp
      refine ⟨h.ids, h.next, h.room, h.queue, h.once, h.known, h.maps, ?_, ?_, h.replied, ?_, h.faithful,
        h.returned⟩
      · exact fun pid' id' hp => h.awaits pid' id' (hold pid' id' hp)
      · exact fun pid' id' hp => h.stored pid' id' (hold pid' id' hp)
      · intro pid' id' hp
        dsimp only at hp
        by_cases he : pid' = pid
        · subst he
          simp only [Function.update_self, Phase.blocked.injEq] at hp
          exact ⟨List.mem_append_right _ List.mem_cons_self, hp ▸ hdone⟩
        · rw [Function.update_of_ne he] at hp
          obtain ⟨hin, hnone⟩ := h.asleep pid' id' hp
          exact ⟨List.mem_append_left _ hin, hnone⟩
  next => cases hw

theorem awaits_unblock {phase : Nat → Phase} :
    World.unblock phase pid = .receiving id ∨ World.unblock phase pid = .blocked id ↔
      phase pid = .receiving id ∨ phase pid = .blocked id := by
  unfold World.unblock
  cases phase pid <;> simp

theorem unblock_ne_blocked (phase : Nat → Phase) (pid id : Nat) :
    World.unblock phase pid ≠ .blocked id := by
  unfold World.unblock
  cases phase pid <;> simp

theorem wake (h : Inv w) (pid : Nat) : Inv (w.wake pid) := by
  have hold : ∀ pid' id', (w.wake pid).Awaits pid' id' → w.Awaits pid' id' := by
    intro pid' id' hp
    unfold World.Awaits World.wake at hp
    by_cases he : pid' = pid
    · subst he
      simp only [Function.update_self, awaits_unblock] at hp
      exact hp
    · simp only [Function.update_of_ne he] at hp
      exact hp
  refine ⟨h.ids, h.next, h.room, h.queue, h.once, h.known, h.maps, ?_, ?_, h.replied, ?_, h.faithful,
    h.returned⟩
  · exact fun pid' id' hp => h.awaits pid' id' (hold pid' id' hp)
  · exact fun pid' id' hp => h.stored pid' id' (hold pid' id' hp)
  · intro pid' id' hp
    unfold World.wake at hp
    dsimp only at hp
    by_cases he : pid' = pid
    · subst he
      rw [Function.update_self] at hp
      exact absurd hp (unblock_ne_blocked _ _ _)
    · rw [Function.update_of_ne he] at hp
      exact h.asleep pid' id' hp

theorem read (h : Inv w) (count : Nat) : Inv (w.read count) := by
  refine ⟨h.ids, h.next, h.room, ?_, h.once, ?_, h.maps, h.awaits, h.stored, h.replied, h.asleep,
    h.faithful, h.returned⟩
  · show w.delivered ++ w.inner.todo.take count ++ w.inner.todo.drop count = _
    rw [List.append_assoc, List.take_append_drop, h.queue]
    rfl
  · intro r hr
    show r.id ∈ (w.delivered ++ w.inner.todo.take count).map Packet.id
    rw [List.map_append]
    exact List.mem_append_left _ (h.known r hr)

/-- A first reply to a packet that was read. -/
theorem reply (h : Inv w) (contexts : Nat → Option Grants.Context)
    (hd : r.id ∈ w.delivered.map Packet.id) (hn : r.id ∉ w.replies.map Reply.id)
    (ha : ∀ q ∈ w.sent, q.packet.id = r.id → Answers q r) :
    Inv (World.send { w with
      inner := { w.inner with fmap := Function.update w.inner.fmap r.id none }, contexts } r) := by
  have hold : ∀ pid id, World.Awaits (World.send { w with
      inner := { w.inner with fmap := Function.update w.inner.fmap r.id none }, contexts } r) pid id →
      w.Awaits pid id := by
    intro pid id hp
    unfold World.Awaits World.send at hp
    dsimp only at hp
    split at hp
    · exact awaits_unblock.mp hp
    · exact hp
  have hids : (w.replies ++ [r]).map Reply.id = w.replies.map Reply.id ++ [r.id] := by simp
  refine ⟨h.ids, h.next, h.room, h.queue, ?_, ?_, ?_, ?_, ?_, ?_, ?_, ?_, ?_⟩
  · show ((w.replies ++ [r]).map Reply.id).Nodup
    rw [hids]
    exact List.nodup_append.mpr ⟨h.once, List.nodup_singleton _, fun a ha b hb => by
      rw [List.mem_singleton.mp hb]
      rintro rfl
      exact hn ha⟩
  · intro r' hr'
    rcases List.mem_append.mp hr' with hr' | hr'
    · exact h.known r' hr'
    · rw [List.mem_singleton.mp hr']
      exact hd
  · intro id pid size
    show Function.update w.inner.fmap r.id none id = some (pid, size) ↔ ∃ q ∈ w.sent, q.isMap = true ∧
      q.packet.id = id ∧ q.packet.pid = pid ∧ q.packet.d = size ∧ id ∉ (w.replies ++ [r]).map Reply.id
    rw [hids]
    by_cases he : id = r.id
    · rw [he, Function.update_self]
      refine iff_of_false (by simp) ?_
      rintro ⟨q, -, -, -, -, -, hout⟩
      exact hout (List.mem_append_right _ List.mem_cons_self)
    · rw [Function.update_of_ne he, h.maps]
      simp [he]
  · exact fun pid id hp => h.awaits pid id (hold pid id hp)
  · intro pid id hp v
    show Function.update w.inner.done r.id (some r.value) id = some v ↔
      ∃ r' ∈ w.replies ++ [r], r'.id = id ∧ r'.value = v
    by_cases he : id = r.id
    · rw [he, Function.update_self]
      constructor
      · intro hv
        exact ⟨r, List.mem_append_right _ List.mem_cons_self, rfl, Option.some.inj hv⟩
      · rintro ⟨r', hr', hid, hv⟩
        rcases List.mem_append.mp hr' with hr' | hr'
        · exact absurd (hid ▸ List.mem_map_of_mem hr') hn
        · rw [← hv, List.mem_singleton.mp hr']
    · rw [Function.update_of_ne he, h.stored pid id (hold pid id hp)]
      constructor
      · rintro ⟨r', hr', hrest⟩
        exact ⟨r', List.mem_append_left _ hr', hrest⟩
      · rintro ⟨r', hr', hid, hv⟩
        rcases List.mem_append.mp hr' with hr' | hr'
        · exact ⟨r', hr', hid, hv⟩
        · rw [List.mem_singleton.mp hr'] at hid
          exact absurd hid.symm he
  · intro id v hv
    show id ∈ (w.replies ++ [r]).map Reply.id
    change Function.update w.inner.done r.id (some r.value) id = some v at hv
    rw [hids]
    by_cases he : id = r.id
    · exact he ▸ List.mem_append_right _ List.mem_cons_self
    · rw [Function.update_of_ne he] at hv
      exact List.mem_append_left _ (h.replied id v hv)
  · -- whoever slept was in the condition, and is awake now
    intro pid id hp
    unfold World.send at hp
    dsimp only at hp
    split at hp
    · exact absurd hp (unblock_ne_blocked _ _ _)
    next hout => exact absurd (h.asleep pid id hp).1 hout
  · intro r' hr' q hq hid
    rcases List.mem_append.mp hr' with hr' | hr'
    · exact h.faithful r' hr' q hq hid
    · rw [List.mem_singleton.mp hr'] at hid ⊢
      exact ha q hq hid
  · intro x hx
    obtain ⟨q, hq, r', hr', hrest⟩ := h.returned x hx
    exact ⟨q, hq, r', List.mem_append_left _ hr', hrest⟩

end Inv

/-- What a packet with an id does: it answers a request, and captures for no other context. -/
theorem Inv.writeOne_answer (h : Inv w) (hz : p.id ≠ 0) (hd : p.id ∈ w.delivered.map Packet.id)
    (hn : p.id ∉ w.replies.map Reply.id) (hw : w.writeOne daemon p = some w') :
    ∃ q ∈ w.sent, q.packet.id = p.id ∧ ∃ r contexts, r.id = p.id ∧ r.a = p.a ∧ Answers q r ∧
      w' = World.send { w with
        inner := { w.inner with fmap := Function.update w.inner.fmap r.id none }, contexts } r ∧
      (r.capture = none → contexts = w.contexts) ∧
      ∀ x, r.capture = some x →
        captureInner w.contexts q.packet.pid daemon x.address x.size = some (x.result, contexts) := by
  obtain ⟨q, hq, hqid⟩ := h.delivered_sent hd
  refine ⟨q, hq, hqid, ?_⟩
  unfold World.writeOne at hw
  rw [if_neg hz] at hw
  split at hw
  next pid size hmap =>
    obtain ⟨q', hq', hisMap, hid', hpid, hsize, -⟩ := (h.maps p.id pid size).mp hmap
    have heq : q' = q := h.eq_of_id hq' hq (hid'.trans hqid.symm)
    subst heq
    dsimp only at hw
    split at hw
    next address hdemux =>
      split at hw
      next result contexts hcap =>
        cases hw
        refine ⟨⟨p.id, p.a, some ⟨pid, address, size, result⟩, mux result⟩, contexts, rfl, rfl, ?_, rfl,
          fun hnone => (nomatch hnone), fun x hx => ?_⟩
        · simp only [Answers, hisMap, if_true, hdemux]
          exact ⟨result, by rw [hpid, hsize], rfl⟩
        · cases hx
          rw [hpid]
          exact hcap
      next => cases hw
    next e hdemux =>
      cases hw
      refine ⟨⟨p.id, p.a, none, p.a⟩, w.contexts, rfl, rfl, ?_, rfl, fun _ => rfl,
        fun x hx => (nomatch hx)⟩
      simp [Answers, hisMap, hdemux]
  next hmap =>
    have hisMap : q.isMap = false := by
      cases hm : q.isMap with
      | false => rfl
      | true =>
        have := (h.maps p.id q.packet.pid q.packet.d).mpr ⟨q, hq, hm, hqid, rfl, rfl, hn⟩
        rw [hmap] at this
        cases this
    cases hw
    refine ⟨⟨p.id, p.a, none, p.a⟩, w.contexts, rfl, rfl, by simp [Answers, hisMap], ?_, fun _ => rfl,
      fun x hx => (nomatch hx)⟩
    rw [Function.update_eq_self_iff.mpr hmap.symm]

theorem Inv.writeOne (h : Inv w) (hok : p.id ≠ 0 →
      p.id ∈ w.delivered.map Packet.id ∧ p.id ∉ w.replies.map Reply.id)
    (hw : w.writeOne daemon p = some w') :
    Inv w' ∧ w'.delivered = w.delivered ∧
      ∀ id, id ∈ w'.replies.map Reply.id → id ∈ w.replies.map Reply.id ∨ id = p.id ∧ p.id ≠ 0 := by
  by_cases hz : p.id = 0
  · unfold World.writeOne at hw
    rw [if_pos hz] at hw
    cases hw
    exact ⟨h.congr rfl rfl rfl rfl rfl rfl, rfl, fun id hid => .inl hid⟩
  · obtain ⟨hd, hn⟩ := hok hz
    obtain ⟨q, hq, hqid, r, contexts, hrid, -, ha, rfl, -, -⟩ := h.writeOne_answer hz hd hn hw
    refine ⟨h.reply contexts (hrid ▸ hd) (hrid ▸ hn) fun q' hq' hid => ?_, rfl, fun id hid => ?_⟩
    · rw [h.eq_of_id hq' hq (by omega)]
      exact ha
    · change id ∈ (w.replies ++ [r]).map Reply.id at hid
      rw [List.map_append, List.mem_append] at hid
      rcases hid with hid | hid
      · exact .inl hid
      · exact .inr ⟨(List.mem_singleton.mp hid).trans hrid, hz⟩

/-- A whole buffer of packets, one after the other. -/
theorem Inv.write {packets : List Packet} (h : Inv w) (hok : Orderly w (.write daemon packets))
    (hw : w.write daemon packets = some w') : Inv w' := by
  induction packets generalizing w with
  | nil =>
    cases hw
    exact h
  | cons p packets ih =>
    obtain ⟨w₁, hw₁, hw⟩ := Option.bind_eq_some_iff.mp hw
    obtain ⟨hnodup, hfresh⟩ := hok
    obtain ⟨h₁, hdel, hrep⟩ := h.writeOne (hfresh p List.mem_cons_self) hw₁
    rw [List.map_cons, List.filter_cons] at hnodup
    refine ih h₁ ⟨?_, fun p' hp' hz' => ?_⟩ hw
    · split at hnodup
      · exact (List.nodup_cons.mp hnodup).2
      · exact hnodup
    · obtain ⟨hd, hn⟩ := hfresh p' (List.mem_cons_of_mem _ hp') hz'
      refine ⟨hdel ▸ hd, fun hin => ?_⟩
      rcases hrep p'.id hin with hin | ⟨heq, hz⟩
      · exact hn hin
      · have hmem : p.id ∈ (packets.map Packet.id).filter (· ≠ 0) := by
          rw [List.mem_filter]
          exact ⟨heq ▸ List.mem_map_of_mem hp', by simpa using hz⟩
        rw [if_pos (by simpa using hz)] at hnodup
        exact (List.nodup_cons.mp hnodup).1 hmem

theorem Inv.step (h : Inv w) (hs : Step w act w') : Inv w' := by
  obtain ⟨hok, hact⟩ := hs
  cases act with
  | call pid uid gid a b c d => exact h.request hok hact
  | fmap pid uid gid file offset size => exact h.request hok hact
  | receive pid => exact h.receive hact
  | wake pid =>
    cases hact
    exact h.wake pid
  | read count =>
    cases hact
    exact h.read count
  | write daemon packets => exact h.write hok hact
  | other pid c =>
    cases hact
    exact h.congr rfl rfl rfl rfl rfl rfl

theorem new_inv (handleId : Nat) (contexts : Nat → Option Grants.Context) :
    Inv (World.new handleId contexts) := by
  refine ⟨rfl, rfl, ?_, rfl, List.nodup_nil, ?_, ?_, ?_, ?_, ?_, ?_, ?_, ?_⟩ <;>
    simp [World.new, World.Awaits]

theorem captureInner_other {contexts contexts' : Nat → Option Grants.Context} {address size pid' : Nat}
    {result : Except Nat Nat}
    (h : captureInner contexts pid daemon address size = some (result, contexts')) (hne : pid' ≠ pid) :
    contexts' pid' = contexts pid' := by
  unfold captureInner at h
  split at h
  · cases h
    rfl
  · split at h
    · cases h
      rfl
    · split at h
      · cases h
        exact Function.update_of_ne hne _ _
      · cases h
        exact Function.update_of_ne hne _ _
      · cases h

/-- Calls and replies: packets are delivered once, in the order they were sent; a caller gets what
was sent on for its own id, the daemon's value or, for an `fmap`, what came of the capture of its
address; a caller with a reply does not sleep; and a reply changes no context but the one that asked
to map. -/
theorem callers_get_their_replies {handleId : Nat} {contexts : Nat → Option Grants.Context}
    {acts : List Act} (hr : Run Step (World.new handleId contexts) acts w) :
    w.delivered ++ w.inner.todo = w.sent.map Request.packet ∧
    (w.sent.map fun q => q.packet.id).Nodup ∧ (w.replies.map Reply.id).Nodup ∧
    (∀ x ∈ w.returns, ∃ q ∈ w.sent, ∃ r ∈ w.replies, q.packet.id = x.id ∧ q.packet.pid = x.pid ∧
      r.id = x.id ∧ Answers q r ∧ x.result = demux r.value) ∧
    (∀ pid id, w.Awaits pid id → ∀ r ∈ w.replies, r.id = id →
      ∃ w', w.receive pid = some w' ∧ w'.returns = w.returns ++ [⟨pid, id, demux r.value⟩]) ∧
    ∀ daemon p w', Orderly w (.write daemon [p]) → w.writeOne daemon p = some w' →
      ∀ pid, w'.contexts pid ≠ w.contexts pid → ∃ q ∈ w.sent, q.isMap = true ∧ q.packet.id = p.id ∧
        q.packet.pid = pid ∧ ∃ address result, demux p.a = .ok address ∧
          captureInner w.contexts pid daemon address q.packet.d = some (result, w'.contexts) := by
  have h : Inv w := hr.invariant (fun _ _ _ hs h => h.step hs) (new_inv handleId contexts)
  refine ⟨h.queue, h.ids ▸ List.nodup_range', h.once, fun x hx => ?_, fun pid id hwait r hr hid => ?_,
    fun daemon p w' hok hw pid hne => ?_⟩
  · obtain ⟨q, hq, r, hr, hqid, hqpid, hrid, hres⟩ := h.returned x hx
    exact ⟨q, hq, r, hr, hqid, hqpid, hrid, h.faithful r hr q hq (hqid.trans hrid.symm), hres⟩
  · have hdone : w.inner.done id = some r.value := (h.stored pid id hwait r.value).mpr ⟨r, hr, hid, rfl⟩
    rcases hwait with hphase | hphase
    · simp only [World.receive, hphase, hdone]
      exact ⟨_, rfl, rfl⟩
    · have := (h.asleep pid id hphase).2
      rw [hdone] at this
      cases this
  · by_cases hz : p.id = 0
    · unfold World.writeOne at hw
      rw [if_pos hz] at hw
      cases hw
      exact absurd rfl hne
    obtain ⟨hd, hn⟩ := hok.2 p List.mem_cons_self hz
    obtain ⟨q, hq, hqid, r, contexts', hrid, hra, ha, rfl, hnone, hsome⟩ := h.writeOne_answer hz hd hn hw
    cases hcap : r.capture with
    | none => exact absurd (congrFun (hnone hcap) pid) hne
    | some x =>
      have hx := hsome x hcap
      have hpid : pid = q.packet.pid := by
        by_contra hother
        exact hne (captureInner_other hx hother)
      unfold Answers at ha
      split at ha
      next hisMap =>
        split at ha
        next address hdemux =>
          obtain ⟨result, hcap', -⟩ := ha
          rw [hcap] at hcap'
          cases hcap'
          rw [hra] at hdemux
          exact ⟨q, hq, hisMap, hqid, hpid.symm, address, result, hdemux, hpid ▸ hx⟩
        next =>
          rw [hcap] at ha
          cases ha.1
      next =>
        rw [hcap] at ha
        cases ha.1

/-- A call of one context, read and answered. -/
theorem callers_get_their_replies_one : ∃ w, Run Step (World.new 0 fun _ => none)
      [.call 1 0 0 3 4 5 6, .read 1, .write (fun _ => none) [⟨1, 0, 0, 0, 7, 0, 0, 0⟩], .receive 1] w ∧
    w.returns = [⟨1, 1, .ok 7⟩] ∧ (w.replies.map Reply.id).Nodup := by
  have hrun : Run Step (World.new 0 fun _ => none)
      [.call 1 0 0 3 4 5 6, .read 1, .write (fun _ => none) [⟨1, 0, 0, 0, 7, 0, 0, 0⟩], .receive 1] _ :=
    .cons ⟨by show 0 + 2 < 2 ^ 64; omega, rfl⟩ (.cons ⟨trivial, rfl⟩
      (.cons ⟨⟨by decide, by simp [World.read, World.new]⟩, rfl⟩ (.cons ⟨trivial, rfl⟩ .nil)))
  exact ⟨_, hrun, rfl, (callers_get_their_replies hrun).2.2.1⟩

theorem driver_captures : ∃ c, Grants.driver.capture (fun _ => some 9) 0x1000 4096 true =
    some (.ok (2 ^ 40), c) := by
  obtain ⟨table, ht, -⟩ := mapFrames_isSome (n := 0) (m := Grants.driver.table) [2 ^ 28] [9]
    (PRESENT ||| NO_EXECUTE ||| USER_ACCESSIBLE ||| WRITABLE)
    (by simp [Grants.driver, Mapper.entryAt, Mapper.p1Table]) (by simp) (by simp)
    (by simp [Grants.driver])
  have hgrant : Grants.Grant.mapInactive (fun _ => some 9) Grants.driver.table (0x1000 / 4096 * 4096)
      USER_GRANT_OFFSET 4096 (PRESENT ||| NO_EXECUTE ||| USER_ACCESSIBLE ||| WRITABLE) =
      some (⟨USER_GRANT_OFFSET, 4096, PRESENT ||| NO_EXECUTE ||| USER_ACCESSIBLE ||| WRITABLE, true⟩,
        table) := by
    have hsource : pagesOf (0x1000 / 4096 * 4096) 4096 = [1] := by decide
    have htarget : pagesOf USER_GRANT_OFFSET 4096 = [2 ^ 28] := by decide
    have hframes : [1].mapM (fun _ : Nat => some 9) = some [9] := by simp
    rw [Grants.Grant.mapInactive, hsource, htarget, hframes]
    simp only [Option.bind_eq_bind, Option.bind_some, ht]
  have hcall : Grants.driver.capture (fun _ => some 9) 0x1000 4096 true =
      (Grants.Grant.mapInactive (fun _ => some 9) Grants.driver.table (0x1000 / 4096 * 4096)
        USER_GRANT_OFFSET 4096 (PRESENT ||| NO_EXECUTE ||| USER_ACCESSIBLE ||| WRITABLE)).bind
      fun g => some (.ok (2 ^ 40), ⟨0, [g.1], g.2⟩) := by
    norm_num [Grants.Context.capture, Grants.driver, Grants.place]
    rfl
  exact ⟨_, hcall.trans (by rw [hgrant]; rfl)⟩

/-- The daemon answers an `fmap` with an address of its own; the caller gets another, where it was
captured. -/
theorem fmap_returns_captured_address : ∃ contexts w, Run Step (World.new 0 contexts)
      [.fmap 1 0 0 3 0 4096, .read 1, .write (fun _ => some 9) [⟨1, 0, 0, 0, 0x1000, 0, 0, 0⟩],
        .receive 1] w ∧
    w.replies.map (fun r => (r.id, r.a)) = [(1, 0x1000)] ∧ demux 0x1000 = .ok 0x1000 ∧
    w.returns = [⟨1, 1, .ok (2 ^ 40)⟩] := by
  obtain ⟨c, hc⟩ := driver_captures
  let contexts : Nat → Option Grants.Context := fun pid => if pid = 1 then some Grants.driver else none
  have hcap : captureInner contexts 1 (fun _ => some 9) 0x1000 4096 =
      some (.ok (2 ^ 40), Function.update contexts 1 (some c)) := by
    simp [captureInner, contexts, hc]
  obtain ⟨w, hread, hfmap, hctx, hdel, hrep, hphase, hwait, hret⟩ : ∃ w, Run Step (World.new 0 contexts)
      [.fmap 1 0 0 3 0 4096, .read 1] w ∧ w.inner.fmap 1 = some (1, 4096) ∧ w.contexts = contexts ∧
      w.delivered.map Packet.id = [1] ∧ w.replies = [] ∧ w.phase 1 = .receiving 1 ∧
      w.inner.waiting = [] ∧ w.returns = [] :=
    ⟨_, .cons ⟨by show 0 + 2 < 2 ^ 64; omega, rfl⟩ (.cons ⟨trivial, rfl⟩ .nil), rfl, rfl, rfl, rfl, rfl,
      rfl, rfl⟩
  have hdemux : demux 0x1000 = .ok 0x1000 := rfl
  let r : Reply := ⟨1, 0x1000, some ⟨1, 0x1000, 4096, .ok (2 ^ 40)⟩, 2 ^ 40⟩
  let w₁ : World := World.send { w with
    inner := { w.inner with fmap := Function.update w.inner.fmap 1 none }
    contexts := Function.update contexts 1 (some c) } r
  have hwrite : Step w (.write (fun _ => some 9) [⟨1, 0, 0, 0, 0x1000, 0, 0, 0⟩]) w₁ := by
    refine ⟨⟨by decide, fun p hp _ => ?_⟩, ?_⟩
    · rw [List.mem_singleton.mp hp, hdel, hrep]
      exact ⟨List.mem_cons_self, List.not_mem_nil⟩
    · simp only [World.act, World.write, World.writeOne, hfmap, hdemux, hctx, hcap]
      rfl
  have hphase₁ : w₁.phase 1 = .receiving 1 := by
    show (if 1 ∈ w.inner.waiting then _ else w.phase 1) = _
    rw [hwait, hphase]
    rfl
  have hreceive : Step w₁ (.receive 1) { w₁ with
      inner := { w₁.inner with done := Function.update w₁.inner.done 1 none }
      phase := Function.update w₁.phase 1 .idle
      returns := w₁.returns ++ [⟨1, 1, .ok (2 ^ 40)⟩] } := by
    have hdone : w₁.inner.done 1 = some (2 ^ 40) := by
      show Function.update w.inner.done 1 (some (2 ^ 40)) 1 = _
      rw [Function.update_self]
    refine ⟨trivial, ?_⟩
    simp only [World.act, World.receive, hphase₁, hdone]
    rfl
  refine ⟨contexts, _, hread.append (.cons hwrite (.cons hreceive .nil)), ?_, hdemux, ?_⟩
  · show (w.replies ++ [r]).map (fun r => (r.id, r.a)) = _
    rw [hrep]
    rfl
  · show w.returns ++ _ = _
    rw [hret]
    rfl

end Origel.Kernel.UserScheme
