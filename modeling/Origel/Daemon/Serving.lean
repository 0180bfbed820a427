import Origel.Lib.Linearizable
import Origel.Daemon.Scheme

/-! A daemon that answers each packet before it reads the next, and the contexts that call it. -/
namespace Origel.Daemon

open Function Origel.Lib
open Origel.Kernel.UserScheme (World Packet Request Act Phase Inv Answers demux mux)

/-- The variable `packet` of the loop: what was read into it is answered in it. -/
inductive Hand where
  | empty
  | packet (p : Packet)
  | answered (p : Packet)

structure Server (σ : Type) where
  world : World
  state : σ
  hand : Hand

/-- A step of a context, or a line of the loop that reads a packet, handles it and writes it back -/
inductive Turn where
  | others (act : Act)
  | read
  | handle (memory : Nat → UInt8)
  | write (daemon : Nat → Option Kernel.Paging.Frame)

abbrev Seen := Moment Nat Request (Except Nat Nat)

/-- The calls and returns that a step of a context adds. -/
def shown (w w' : World) : List Seen :=
  (w'.sent.drop w.sent.length).map (fun q => .call q.packet.pid q) ++
    (w'.returns.drop w.returns.length).map fun x => .ret x.pid x.result

/-- A request is done by the method it asks for; the address that an `fmap` gives is captured into its
caller. -/
def Serves {σ : Type} (m : SchemeMut σ) (s : σ) (q : Request) (result : Except Nat Nat) (t : σ) : Prop :=
  ∃ memory reply, reply.a = mux (m.handle memory s q.packet).result ∧ Answers q reply ∧
    result = demux reply.value ∧ t = (m.handle memory s q.packet).state

namespace Server

variable {σ : Type} {m : SchemeMut σ}

def new (handleId : Nat) (contexts : Nat → Option Kernel.Grants.Context) (state : σ) : Server σ :=
  ⟨.new handleId contexts, state, .empty⟩

def act (m : SchemeMut σ) (s : Server σ) : Turn → Option (List Seen × Server σ)
  | .others (.read _) => none
  | .others (.write _ _) => none
  | .others act => (s.world.act act).map fun w => (shown s.world w, { s with world := w })
  | .read =>
    match s.hand, s.world.inner.todo with
    | .empty, p :: _ => some ([], { s with world := s.world.read 1, hand := .packet p })
    | _, _ => none
  | .handle memory =>
    match s.hand with
    | .packet p =>
      let done := m.handle memory s.state p
      some ([], { s with state := done.state, hand := .answered { p with a := mux done.result } })
    | _ => none
  | .write daemon =>
    match s.hand with
    | .answered p =>
      (s.world.writeOne daemon p).map fun w => ([], { s with world := w, hand := .empty })
    | _ => none

/-- The numbers of the packets do not run out. -/
def Step (m : SchemeMut σ) (s : Server σ) (seen : List Seen) (s' : Server σ) : Prop :=
  Chosen (act m) s seen s' ∧ s'.world.sent.length + 1 < 2 ^ 64

/-- The requests answered, in the order they were made, each with what is sent back for it. -/
def served (w : World) : List (Request × Except Nat Nat) :=
  w.sent.zip (w.replies.map fun r => demux r.value)

end Server

variable {σ : Type} {m : SchemeMut σ} {w w' : World} {s₀ state : σ} {s s' : Server σ} {pid pid' id : Nat}
  {q : Request} {p : Packet} {reply : Kernel.UserScheme.Reply} {a : Atomic σ Nat Request (Except Nat Nat)}

/-- What is in hand is the one packet that was read and not yet answered; the object is where the
daemon was before that. -/
def Holds (m : SchemeMut σ) (w : World) (s state : σ) : Hand → Prop
  | .empty => w.delivered.map Packet.id = w.replies.map Kernel.UserScheme.Reply.id ∧ s = state
  | .packet p => w.delivered.map Packet.id = w.replies.map Kernel.UserScheme.Reply.id ++ [p.id] ∧
      (∃ q ∈ w.sent, q.packet = p) ∧ s = state
  | .answered p => w.delivered.map Packet.id = w.replies.map Kernel.UserScheme.Reply.id ++ [p.id] ∧
      ∃ q ∈ w.sent, q.packet.id = p.id ∧ ∃ memory, p.a = mux (m.handle memory state q.packet).result ∧
        s = (m.handle memory state q.packet).state

/-- How far each context is with its call, in the eyes of an object that does a request when its reply
is written. -/
structure Stages (w : World) (stage : Nat → Stage Request (Except Nat Nat)) : Prop where
  waits : ∀ q ∈ w.sent, q.packet.id ∉ w.replies.map Kernel.UserScheme.Reply.id →
    w.Awaits q.packet.pid q.packet.id
  idle : ∀ pid, w.phase pid = .idle → stage pid = .idle
  called : ∀ pid, ∀ q ∈ w.sent, w.Awaits pid q.packet.id →
    q.packet.id ∉ w.replies.map Kernel.UserScheme.Reply.id → stage pid = .called q
  done : ∀ pid, ∀ r ∈ w.replies, w.Awaits pid r.id → stage pid = .done (demux r.value)

/-- The object follows the daemon. -/
structure Follows (m : SchemeMut σ) (s₀ : σ) (s : Server σ) (a : Atomic σ Nat Request (Except Nat Nat)) :
    Prop where
  inv : Inv s.world
  hand : Holds m s.world s.state a.state s.hand
  stages : Stages s.world a.stage
  order : Run (fun s x t => Serves m s x.1 x.2 t) s₀ (Server.served s.world) a.state

theorem awaits_idle (h : w.phase pid = .idle) : ¬w.Awaits pid id := by
  rintro (hp | hp) <;> exact Phase.noConfusion (h.symm.trans hp)

theorem awaits_congr (h : w'.phase pid = w.phase pid) : w'.Awaits pid id ↔ w.Awaits pid id := by
  rw [World.Awaits, World.Awaits, h]

/-- A context waits for one id only. -/
theorem awaits_unique {id' : Nat} (h : w.Awaits pid id) (h' : w.Awaits pid id') : id = id' := by
  rcases h with h | h <;> rcases h' with h' | h' <;> cases h.symm.trans h' <;> rfl

theorem shown_nothing (hs : w'.sent = w.sent) (hr : w'.returns = w.returns) : shown w w' = [] := by
  rw [shown, hs, hr, List.drop_length, List.drop_length]
  rfl

/-- What is in hand stays what it is when only contexts go on. -/
theorem Holds.mono {t : σ} {hand : Hand} (h : Holds m w t state hand) (hs : ∀ q ∈ w.sent, q ∈ w'.sent)
    (hd : w'.delivered = w.delivered) (hr : w'.replies = w.replies) : Holds m w' t state hand := by
  cases hand with
  | empty =>
    rw [Holds, hd, hr]
    exact h
  | packet p =>
    obtain ⟨hids, ⟨q, hq, hp⟩, hstate⟩ := h
    rw [Holds, hd, hr]
    exact ⟨hids, ⟨q, hs q hq, hp⟩, hstate⟩
  | answered p =>
    obtain ⟨hids, q, hq, hrest⟩ := h
    rw [Holds, hd, hr]
    exact ⟨hids, q, hs q hq, hrest⟩

theorem Holds.behind {t : σ} {hand : Hand} (h : Holds m w t state hand) : ∃ rest,
    w.delivered.map Packet.id = w.replies.map Kernel.UserScheme.Reply.id ++ rest := by
  cases hand with
  | empty => exact ⟨[], by rw [List.append_nil]; exact h.1⟩
  | packet p => exact ⟨_, h.1⟩
  | answered p => exact ⟨_, h.1⟩

/-- What changes nothing that the object sees -/
theorem Follows.same (h : Follows m s₀ s a) (hinv : Inv w) (hs : w.sent = s.world.sent)
    (hd : w.delivered = s.world.delivered) (hr : w.replies = s.world.replies)
    (hidle : ∀ pid, w.phase pid = .idle → s.world.phase pid = .idle)
    (hwaits : ∀ pid id, w.Awaits pid id ↔ s.world.Awaits pid id) :
    Follows m s₀ { s with world := w } a := by
  obtain ⟨-, hhand, hst, horder⟩ := h
  refine ⟨hinv, ?_, ⟨?_, fun pid hp => hst.idle pid (hidle pid hp), ?_, ?_⟩, ?_⟩
  · exact hhand.mono (fun _ hq => hs ▸ hq) hd hr
  · intro q hq hn
    dsimp only at hq hn ⊢
    rw [hs] at hq
    rw [hr] at hn
    exact (hwaits _ _).mpr (hst.waits q hq hn)
  · intro pid q hq ha hn
    dsimp only at hq ha hn
    rw [hs] at hq
    rw [hr] at hn
    exact hst.called pid q hq ((hwaits _ _).mp ha) hn
  · intro pid r hmem ha
    dsimp only at hmem ha
    rw [hr] at hmem
    exact hst.done pid r hmem ((hwaits _ _).mp ha)
  · show Run _ s₀ (Server.served w) a.state
    rwa [Server.served, hs, hr]

/-- A call, with the packet it sends -/
theorem request_spec {uid gid a b c d : Nat} {isMap : Bool}
    (h : w.request pid uid gid a b c d isMap = some w') : w.phase pid = .idle ∧
      ∃ q : Request, q.packet.pid = pid ∧ q.packet.id = w.inner.nextId ∧ w'.sent = w.sent ++ [q] ∧
        w'.phase = update w.phase pid (.receiving q.packet.id) ∧ w'.delivered = w.delivered ∧
        w'.replies = w.replies ∧ w'.returns = w.returns := by
  unfold World.request at h
  split at h
  next hidle =>
    cases h
    exact ⟨hidle, _, rfl, rfl, rfl, rfl, rfl, rfl, rfl⟩
  next => cases h

theorem length_replies (h : Inv w) (hand : ∃ rest,
    w.delivered.map Packet.id = w.replies.map Kernel.UserScheme.Reply.id ++ rest) :
    w.replies.length ≤ w.sent.length := by
  obtain ⟨rest, hrest⟩ := hand
  have hlen := congrArg List.length hrest
  have hqueue := congrArg List.length h.queue
  simp only [List.length_append, List.length_map] at hlen hqueue
  omega

theorem zip_append_left {α β : Type*} {xs ys : List α} {zs : List β} (h : zs.length ≤ xs.length) :
    (xs ++ ys).zip zs = xs.zip zs := by
  induction xs generalizing zs with
  | nil =>
    rw [List.eq_nil_of_length_eq_zero (Nat.le_zero.mp h), List.zip_nil_right, List.zip_nil_right]
  | cons x xs ih =>
    cases zs with
    | nil => rfl
    | cons z zs =>
      rw [List.cons_append, List.zip_cons_cons, List.zip_cons_cons, ih (Nat.le_of_succ_le_succ h)]

theorem Follows.call {uid gid f b c d : Nat} {isMap : Bool} (h : Follows m s₀ s a)
    (hroom : w.sent.length + 1 < 2 ^ 64) (hw : s.world.request pid uid gid f b c d isMap = some w) :
    ∃ a', Atomic.Shows (Serves m) a (shown s.world w) a' ∧ Follows m s₀ { s with world := w } a' := by
  obtain ⟨hidle, q, rfl, hid, hsent, hphase, hdelivered, hreplies, hreturns⟩ := request_spec hw
  have hroom' : s.world.sent.length + 2 < 2 ^ 64 := by
    rw [hsent, List.length_append] at hroom
    exact hroom
  have hinv : Inv w := h.inv.request hroom' hw
  have hseen : shown s.world w = [.call q.packet.pid q] := by
    rw [shown, hsent, hreturns, List.drop_left, List.drop_length]
    rfl
  have hfresh : q.packet.id ∉ s.world.replies.map Kernel.UserScheme.Reply.id := by
    intro hin
    have hle := h.inv.reply_le hin
    have hnext := h.inv.next
    omega
  have hself : w.phase q.packet.pid = .receiving q.packet.id := by rw [hphase, update_self]
  have hother : ∀ {pid}, pid ≠ q.packet.pid → w.phase pid = s.world.phase pid := by
    intro pid hne
    rw [hphase, update_of_ne hne]
  have hst := h.stages
  rw [hseen]
  refine ⟨_, .call (hst.idle _ hidle), hinv, ?_, ⟨?_, ?_, ?_, ?_⟩, ?_⟩
  · exact h.hand.mono (fun _ hq => hsent ▸ List.mem_append_left _ hq) hdelivered hreplies
  · intro q' hq' hn
    dsimp only at hq' hn ⊢
    rw [hreplies] at hn
    rw [hsent] at hq'
    rcases List.mem_append.mp hq' with hq' | hq'
    · have hwaits := hst.waits q' hq' hn
      have hne : q'.packet.pid ≠ q.packet.pid := by
        intro heq
        rw [heq] at hwaits
        exact awaits_idle hidle hwaits
      exact (awaits_congr (hother hne)).mpr hwaits
    · rw [List.mem_singleton.mp hq']
      exact .inl hself
  · intro pid hp
    by_cases hpid : pid = q.packet.pid
    · subst hpid
      cases hself.symm.trans hp
    · dsimp only at hp ⊢
      rw [update_of_ne hpid]
      exact hst.idle pid ((hother hpid).symm.trans hp)
  · intro pid q' hq' ha hn
    dsimp only at hq' ha hn ⊢
    rw [hreplies] at hn
    by_cases hpid : pid = q.packet.pid
    · subst hpid
      have heq : q' = q := by
        refine hinv.eq_of_id hq' ?_ (awaits_unique ha (.inl hself))
        rw [hsent]
        exact List.mem_append_right _ List.mem_cons_self
      rw [heq, update_self]
    · rw [update_of_ne hpid]
      have ha' := (awaits_congr (hother hpid)).mp ha
      rw [hsent] at hq'
      rcases List.mem_append.mp hq' with hq' | hq'
      · exact hst.called pid q' hq' ha' hn
      · rw [List.mem_singleton.mp hq'] at ha'
        obtain ⟨q'', hq'', hid'', -⟩ := h.inv.awaits _ _ ha'
        have hle := h.inv.id_bounds hq''
        have hnext := h.inv.next
        omega
  · intro pid r hr ha
    dsimp only at hr ha ⊢
    rw [hreplies] at hr
    by_cases hpid : pid = q.packet.pid
    · subst hpid
      have heq : r.id = q.packet.id := awaits_unique ha (.inl hself)
      exact absurd (heq ▸ List.mem_map_of_mem hr) hfresh
    · rw [update_of_ne hpid]
      exact hst.done pid r hr ((awaits_congr (hother hpid)).mp ha)
  · show Run _ s₀ (Server.served w) a.state
    have hlen := length_replies h.inv h.hand.behind
    rw [Server.served, hsent, hreplies, zip_append_left (by rwa [List.length_map])]
    exact h.order

theorem receive_cases (h : w.receive pid = some w') :
    (∃ id value, w.phase pid = .receiving id ∧ w.inner.done id = some value ∧ w'.sent = w.sent ∧
      w'.delivered = w.delivered ∧ w'.replies = w.replies ∧ w'.phase = update w.phase pid .idle ∧
      w'.returns = w.returns ++ [⟨pid, id, demux value⟩]) ∨
    ∃ id, w.phase pid = .receiving id ∧ w'.sent = w.sent ∧ w'.delivered = w.delivered ∧
      w'.replies = w.replies ∧ w'.phase = update w.phase pid (.blocked id) ∧ w'.returns = w.returns := by
  unfold World.receive at h
  split at h
  next id hphase =>
    split at h
    next value hdone =>
      cases h
      exact .inl ⟨id, value, hphase, hdone, rfl, rfl, rfl, rfl, rfl⟩
    next =>
      cases h
      exact .inr ⟨id, hphase, rfl, rfl, rfl, rfl, rfl⟩
  next => cases h

theorem Follows.receive (h : Follows m s₀ s a) (hw : s.world.receive pid = some w) :
    ∃ a', Atomic.Shows (Serves m) a (shown s.world w) a' ∧ Follows m s₀ { s with world := w } a' := by
  have hinv : Inv w := h.inv.receive hw
  have hst := h.stages
  rcases receive_cases hw with ⟨id, value, hself, hdone, hsent, hdelivered, hreplies, hphase, hreturns⟩ |
      ⟨id, hself, hsent, hdelivered, hreplies, hphase, hreturns⟩
  · have hseen : shown s.world w = [.ret pid (demux value)] := by
      rw [shown, hsent, hreturns, List.drop_left, List.drop_length]
      rfl
    obtain ⟨r, hr, rfl, rfl⟩ := (h.inv.stored pid id (.inl hself) value).mp hdone
    have hother : ∀ {pid'}, pid' ≠ pid → w.phase pid' = s.world.phase pid' := by
      intro pid' hne
      rw [hphase, update_of_ne hne]
    have hidle : w.phase pid = .idle := by rw [hphase, update_self]
    rw [hseen]
    refine ⟨_, .ret (hst.done pid r hr (.inl hself)), hinv, ?_, ⟨?_, ?_, ?_, ?_⟩, ?_⟩
    · exact h.hand.mono (fun _ hq => hsent ▸ hq) hdelivered hreplies
    · intro q hq hn
      dsimp only at hq hn ⊢
      rw [hsent] at hq
      rw [hreplies] at hn
      have hwaits := hst.waits q hq hn
      have hne : q.packet.pid ≠ pid := by
        rintro rfl
        have heq := awaits_unique hwaits (.inl hself)
        exact hn (heq ▸ List.mem_map_of_mem hr)
      exact (awaits_congr (hother hne)).mpr hwaits
    · intro pid' hp
      dsimp only at hp ⊢
      by_cases hpid : pid' = pid
      · rw [hpid, update_self]
      · rw [update_of_ne hpid]
        exact hst.idle pid' ((hother hpid).symm.trans hp)
    · intro pid' q hq ha hn
      dsimp only at hq ha hn ⊢
      rw [hsent] at hq
      rw [hreplies] at hn
      have hpid : pid' ≠ pid := by
        rintro rfl
        exact awaits_idle hidle ha
      rw [update_of_ne hpid]
      exact hst.called pid' q hq ((awaits_congr (hother hpid)).mp ha) hn
    · intro pid' r' hr' ha
      dsimp only at hr' ha ⊢
      rw [hreplies] at hr'
      have hpid : pid' ≠ pid := by
        rintro rfl
        exact awaits_idle hidle ha
      rw [update_of_ne hpid]
      exact hst.done pid' r' hr' ((awaits_congr (hother hpid)).mp ha)
    · show Run _ s₀ (Server.served w) a.state
      rw [Server.served, hsent, hreplies]
      exact h.order
  · rw [shown_nothing hsent hreturns]
    refine ⟨a, .refl a, h.same hinv hsent hdelivered hreplies ?_ ?_⟩
    · intro pid' hp
      by_cases hpid : pid' = pid
      · rw [hphase, hpid, update_self] at hp
        cases hp
      · rwa [hphase, update_of_ne hpid] at hp
    · intro pid' id'
      by_cases hpid : pid' = pid
      · rw [hpid, World.Awaits, World.Awaits, hphase, update_self, hself]
        simp only [Phase.receiving.injEq, Phase.blocked.injEq, reduceCtorEq, or_false, false_or]
      · exact awaits_congr (by rw [hphase, update_of_ne hpid])

theorem unblock_idle {phase : Nat → Phase} : World.unblock phase pid = .idle ↔ phase pid = .idle := by
  unfold World.unblock
  cases phase pid <;> simp

theorem Follows.wake (h : Follows m s₀ s a) (pid : Nat) :
    Follows m s₀ { s with world := s.world.wake pid } a := by
  have hphase : (s.world.wake pid).phase =
      update s.world.phase pid (World.unblock s.world.phase pid) := rfl
  refine h.same (h.inv.wake pid) rfl rfl rfl ?_ ?_
  · intro pid' hp
    by_cases hpid : pid' = pid
    · rw [hphase, hpid, update_self] at hp
      rw [hpid]
      exact unblock_idle.mp hp
    · rwa [hphase, update_of_ne hpid] at hp
  · intro pid' id'
    by_cases hpid : pid' = pid
    · rw [World.Awaits, hphase, hpid, update_self]
      exact Inv.awaits_unblock
    · exact awaits_congr (by rw [hphase, update_of_ne hpid])

theorem Follows.other {contexts : Nat → Option Kernel.Grants.Context} (h : Follows m s₀ s a) :
    Follows m s₀ { s with world := { s.world with contexts } } a :=
  h.same (h.inv.congr rfl rfl rfl rfl rfl rfl) rfl rfl rfl (fun _ hp => hp) fun _ _ => Iff.rfl

theorem Follows.read {todo : List Packet} (h : Follows m s₀ s a) (hhand : s.hand = .empty)
    (htodo : s.world.inner.todo = p :: todo) :
    Follows m s₀ { s with world := s.world.read 1, hand := .packet p } a := by
  obtain ⟨hinv, hold, hst, horder⟩ := h
  rw [hhand] at hold
  refine ⟨hinv.read 1, ⟨?_, ?_, hold.2⟩, ⟨hst.waits, hst.idle, hst.called, hst.done⟩, horder⟩
  · show (s.world.delivered ++ s.world.inner.todo.take 1).map Packet.id = _
    rw [htodo, List.map_append, hold.1]
    rfl
  · have hmem : p ∈ s.world.sent.map Request.packet := by
      rw [← hinv.queue, htodo]
      exact List.mem_append_right _ List.mem_cons_self
    exact List.mem_map.mp hmem

theorem Follows.handle {memory : Nat → UInt8} (h : Follows m s₀ s a) (hhand : s.hand = .packet p) :
    Follows m s₀ { s with
      state := (m.handle memory s.state p).state
      hand := .answered { p with a := mux (m.handle memory s.state p).result } } a := by
  obtain ⟨hinv, hold, hst, horder⟩ := h
  rw [hhand] at hold
  obtain ⟨hids, ⟨q, hq, rfl⟩, hstate⟩ := hold
  refine ⟨hinv, ⟨hids, q, hq, rfl, memory, ?_, ?_⟩, hst, horder⟩
  · dsimp only
    rw [hstate]
  · dsimp only
    rw [hstate]

/-- The packet in hand is the first that was sent of those without an answer. -/
theorem next_answer (h : Inv w)
    (hids : w.delivered.map Packet.id = w.replies.map Kernel.UserScheme.Reply.id ++ [q.packet.id])
    (hq : q ∈ w.sent) : q.packet.id ∉ w.replies.map Kernel.UserScheme.Reply.id ∧
      ∃ before after, w.sent = before ++ q :: after ∧ before.length = w.replies.length := by
  have hall : w.sent.map (fun q => q.packet.id) =
      w.replies.map Kernel.UserScheme.Reply.id ++ q.packet.id :: w.inner.todo.map Packet.id := by
    have hqueue := congrArg (List.map Packet.id) h.queue
    rw [List.map_append, hids, List.map_map, List.append_assoc] at hqueue
    exact hqueue.symm
  have hnodup : (w.sent.map fun q => q.packet.id).Nodup := h.ids ▸ List.nodup_range'
  rw [hall] at hnodup
  obtain ⟨before, rest, hsent, hbefore, hrest⟩ := List.map_eq_append_iff.mp hall
  obtain ⟨q', after, rfl, hid, -⟩ := List.map_eq_cons_iff.mp hrest
  have hlen := congrArg List.length hbefore
  rw [List.length_map, List.length_map] at hlen
  have heq : q' = q := by
    refine h.eq_of_id ?_ hq hid
    rw [hsent]
    exact List.mem_append_right _ List.mem_cons_self
  rw [heq] at hsent
  have hfresh := (List.nodup_append.mp hnodup).2.2
  exact ⟨fun hin => hfresh _ hin _ List.mem_cons_self rfl, before, after, hsent, hlen⟩

theorem send_awaits : (w.send reply).Awaits pid id ↔ w.Awaits pid id := by
  unfold World.Awaits World.send
  dsimp only
  split
  · exact Inv.awaits_unblock
  · rfl

theorem send_idle : (w.send reply).phase pid = .idle ↔ w.phase pid = .idle := by
  unfold World.send
  dsimp only
  split
  · exact unblock_idle
  · rfl

/-- The request that is answered comes to those that were done before. -/
theorem served_send {before after : List Request} (hsent : w.sent = before ++ q :: after)
    (hlen : before.length = w.replies.length) :
    Server.served (w.send reply) = Server.served w ++ [(q, demux reply.value)] := by
  have hlen' : before.length = (w.replies.map fun r => demux r.value).length := by
    rw [List.length_map, hlen]
  show w.sent.zip ((w.replies ++ [reply]).map fun r => demux r.value) = _
  rw [Server.served, hsent, List.map_append, List.zip_append hlen', zip_append_left hlen'.ge]
  cases after <;> rfl

/-- The object does a request when its reply is written. -/
theorem Follows.write {daemon : Nat → Option Kernel.Paging.Frame} (h : Follows m s₀ s a)
    (hhand : s.hand = .answered p) (hw : s.world.writeOne daemon p = some w) :
    ∃ a', Atomic.Shows (Serves m) a [] a' ∧ Follows m s₀ { s with world := w, hand := .empty } a' := by
  have hold := h.hand
  rw [hhand] at hold
  obtain ⟨hids, q, hq, hid, memory, hanswer, hstate⟩ := hold
  rw [← hid] at hids
  obtain ⟨hn, before, after, hsent, hlen⟩ := next_answer h.inv hids hq
  have hd : q.packet.id ∈ s.world.delivered.map Packet.id := by
    rw [hids]
    exact List.mem_append_right _ List.mem_cons_self
  have hpos := h.inv.id_bounds hq
  have hok : p.id ∈ s.world.delivered.map Packet.id ∧
      p.id ∉ s.world.replies.map Kernel.UserScheme.Reply.id := by
    rw [← hid]
    exact ⟨hd, hn⟩
  have hinv : Inv w := (h.inv.writeOne (fun _ => hok) hw).1
  obtain ⟨q', hq', hqid, r, contexts, hrid, hra, ha, rfl, -, -⟩ :=
    h.inv.writeOne_answer (by omega) hok.1 hok.2 hw
  rw [h.inv.eq_of_id hq' hq (hqid.trans hid.symm)] at ha
  have hwaits := h.stages.waits q hq hn
  have hserves : Serves m a.state q (demux r.value) s.state :=
    ⟨memory, r, hra.trans hanswer, ha, rfl, hstate⟩
  have hst := h.stages
  refine ⟨_, .point (hst.called _ q hq hwaits hn) hserves, hinv, ⟨?_, rfl⟩, ⟨?_, ?_, ?_, ?_⟩, ?_⟩
  · show s.world.delivered.map Packet.id = (s.world.replies ++ [r]).map Kernel.UserScheme.Reply.id
    rw [List.map_append, hids, List.map_singleton, hrid, hid]
  · intro q₁ hq₁ hn₁
    refine send_awaits.mpr (hst.waits q₁ hq₁ fun hin => hn₁ ?_)
    rw [World.send, List.map_append]
    exact List.mem_append_left _ hin
  · intro pid hp
    have hp' := send_idle.mp hp
    have hne : pid ≠ q.packet.pid := by
      rintro rfl
      exact awaits_idle hp' hwaits
    dsimp only
    rw [update_of_ne hne]
    exact hst.idle pid hp'
  · intro pid q₁ hq₁ ha₁ hn₁
    have ha' := send_awaits.mp ha₁
    rw [World.send, List.map_append, List.mem_append, not_or] at hn₁
    have hne : pid ≠ q.packet.pid := by
      rintro rfl
      refine hn₁.2 (List.mem_singleton.mpr ?_)
      rw [awaits_unique ha' hwaits, hid, hrid]
    dsimp only
    rw [update_of_ne hne]
    exact hst.called pid q₁ hq₁ ha' hn₁.1
  · intro pid r₁ hr₁ ha₁
    have ha' := send_awaits.mp ha₁
    dsimp only
    rcases List.mem_append.mp hr₁ with hr₁ | hr₁
    · have hne : pid ≠ q.packet.pid := by
        rintro rfl
        refine hn ?_
        rw [← awaits_unique ha' hwaits]
        exact List.mem_map_of_mem hr₁
      rw [update_of_ne hne]
      exact hst.done pid r₁ hr₁ ha'
    · rw [List.mem_singleton.mp hr₁] at ha' ⊢
      rw [hrid, ← hid] at ha'
      rw [h.inv.pid_of_awaits ha' hwaits, update_self]
  · show Run _ s₀ (Server.served _) s.state
    rw [served_send (w := { s.world with
      inner := { s.world.inner with fmap := update s.world.inner.fmap r.id none }, contexts }) hsent hlen]
    exact h.order.snoc hserves

theorem Follows.step {seen : List Seen} (h : Follows m s₀ s a) (hs : Server.Step m s seen s') :
    ∃ a', Atomic.Shows (Serves m) a seen a' ∧ Follows m s₀ s' a' := by
  obtain ⟨⟨turn, hact⟩, hroom⟩ := hs
  cases turn with
  | others act =>
    cases act with
    | call pid uid gid f b c d =>
      obtain ⟨w, hw, heq⟩ := Option.map_eq_some_iff.mp hact
      cases heq
      exact h.call hroom hw
    | fmap pid uid gid file offset size =>
      obtain ⟨w, hw, heq⟩ := Option.map_eq_some_iff.mp hact
      cases heq
      exact h.call hroom hw
    | receive pid =>
      obtain ⟨w, hw, heq⟩ := Option.map_eq_some_iff.mp hact
      cases heq
      exact h.receive hw
    | wake pid =>
      cases hact
      have hseen : shown s.world (s.world.wake pid) = [] := shown_nothing rfl rfl
      rw [hseen]
      exact ⟨a, .refl a, h.wake pid⟩
    | other pid c =>
      cases hact
      have hseen : shown s.world { s.world with contexts := update s.world.contexts pid c } = [] :=
        shown_nothing rfl rfl
      rw [hseen]
      exact ⟨a, .refl a, h.other⟩
    | read count => cases hact
    | write daemon packets => cases hact
  | read =>
    unfold Server.act at hact
    dsimp only at hact
    split at hact
    next p todo hhand htodo =>
      cases hact
      exact ⟨a, .refl a, h.read hhand htodo⟩
    next => cases hact
  | handle memory =>
    unfold Server.act at hact
    dsimp only at hact
    split at hact
    next p hhand =>
      cases hact
      exact ⟨a, .refl a, h.handle hhand⟩
    next => cases hact
  | write daemon =>
    unfold Server.act at hact
    dsimp only at hact
    split at hact
    next p hhand =>
      obtain ⟨w, hw, heq⟩ := Option.map_eq_some_iff.mp hact
      cases heq
      exact h.write hhand hw
    next => cases hact

theorem Follows.new (handleId : Nat) (contexts : Nat → Option Kernel.Grants.Context) (state : σ) :
    Follows m state (.new handleId contexts state) (.new state) := by
  refine ⟨Kernel.UserScheme.new_inv handleId contexts, ⟨rfl, rfl⟩, ⟨?_, fun _ _ => rfl, ?_, ?_⟩, .nil⟩ <;>
    simp [Server.new, World.new]

/-- Calls that contexts make at the same time are as if the daemon did each at one moment between its
start and its return, and one after the other in the order in which their packets were sent. -/
theorem calls_take_turns {handleId : Nat} {contexts : Nat → Option Kernel.Grants.Context}
    {seen : List (List Seen)} (h : Run (Server.Step m) (.new handleId contexts state) seen s) :
    Linearizable (Serves m) state seen.flatten ∧
      ∃ t, Run (fun s x t => Serves m s x.1 x.2 t) state (Server.served s.world) t := by
  obtain ⟨a, hshows, hfollows⟩ :=
    shows_of_simulation (fun _ _ _ _ hR hs => hR.step hs) h (Follows.new handleId contexts state)
  exact ⟨⟨a, hshows⟩, a.state, hfollows.order⟩

/-- The bytes of a chunk: `rand as u8`, and `rand` shifted on. -/
def chunkBytes : Nat → Nat → List UInt8
  | 0, _ => []
  | len + 1, rand => UInt8.ofNat rand :: chunkBytes len (rand / 2 ^ 8)

/-- The loop of `RandScheme::read` over so many chunks of a buffer -/
def randBytes {γ : Type} (nextU64 : γ → Nat × γ) : Nat → Nat → γ → List UInt8 × γ
  | 0, _, prng => ([], prng)
  | chunks + 1, len, prng =>
    let (rand, prng) := nextU64 prng
    let (rest, prng) := randBytes nextU64 chunks (len - 8) prng
    (chunkBytes (min 8 len) rand ++ rest, prng)

/-- `RandScheme`, over a generator -/
def randScheme {γ : Type} (nextU64 : γ → Nat × γ) : SchemeMut γ where
  openUrl prng _ _ _ _ := succeed prng 0
  dup prng file _ := succeed prng file
  read prng _ len :=
    let (bytes, prng) := randBytes nextU64 ((len + 7) / 8) len prng
    ⟨prng, .ok bytes.length, bytes⟩
  close prng _ := succeed prng 0

/-- Two contexts read random numbers at the same time, and the later call returns first. -/
theorem reads_take_turns : ∃ seen s,
    Run (Server.Step (randScheme fun n => (n, n + 1))) (.new 0 (fun _ => none) 0) seen s ∧
    seen.flatten = [.call 1 ⟨⟨1, 1, 0, 0, SYS_READ, 0, 0, 10⟩, false⟩,
      .call 2 ⟨⟨2, 2, 0, 0, SYS_READ, 0, 0, 3⟩, false⟩, .ret 2 (.ok 3), .ret 1 (.ok 10)] ∧
    s.state = 3 ∧ Linearizable (Serves (randScheme fun n => (n, n + 1))) 0 seen.flatten := by
  have hrun : Run (Server.Step (randScheme fun n => (n, n + 1))) (.new 0 (fun _ => none) 0) _ _ :=
    .cons ⟨⟨.others (.call 1 0 0 SYS_READ 0 0 10), rfl⟩, by decide⟩
      (.cons ⟨⟨.others (.call 2 0 0 SYS_READ 0 0 3), rfl⟩, by decide⟩
      (.cons ⟨⟨.read, rfl⟩, by decide⟩ (.cons ⟨⟨.handle fun _ => 0, rfl⟩, by decide⟩
      (.cons ⟨⟨.write fun _ => none, rfl⟩, by decide⟩ (.cons ⟨⟨.read, rfl⟩, by decide⟩
      (.cons ⟨⟨.handle fun _ => 0, rfl⟩, by decide⟩ (.cons ⟨⟨.write fun _ => none, rfl⟩, by decide⟩
      (.cons ⟨⟨.others (.receive 2), rfl⟩, by decide⟩
      (.cons ⟨⟨.others (.receive 1), rfl⟩, by decide⟩ .nil)))))))))
  exact ⟨_, _, hrun, rfl, rfl, (calls_take_turns hrun).1⟩

end Origel.Daemon
