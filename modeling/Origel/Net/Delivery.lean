import Origel.Net.Ethernet

/-! Frames from the network to the handles of `ethernet:`: each is queued, or given to one read. -/
namespace Origel.Net.Ethernet

open Origel.Lib Origel.Daemon
open Origel.Kernel.UserScheme (Packet mux)

variable {h : History} {given : Nat → List (Packet × EthernetII)} {s : EthernetScheme} {d : Ethernetd} {p : Packet} {e : Env}
  {rest : List Packet} {id : Nat}

/-- The reads of a handle among some packets. -/
def readsOf (id : Nat) (ps : List Packet) : List Packet :=
  ps.filter fun p => p.a = SYS_READ ∧ p.b = id

/-- The answers to the reads of a handle, in the order in which they were given. -/
def readAnswers (id : Nat) (answers : List (Packet × Reply)) : List (Packet × Reply) :=
  answers.filter fun answer => answer.1.a = SYS_READ ∧ answer.1.b = id

/-- The answer to a read that is given a frame: as much of its bytes as the buffer takes. -/
def delivered (given : Packet × EthernetII) : Reply :=
  let bytes := copied given.1.d given.2.toBytes
  ⟨{ given.1 with a := mux (.ok bytes.length) }, bytes⟩

/-- What is read where there is no frame. -/
def Nothing (r : Except Nat Nat) : Prop := r = .ok 0 ∨ ∃ errno, r = .error errno

/-- The answers to reads carry the frames given to them, one each, or nothing at all. -/
inductive Carries : List (Packet × Reply) → List (Packet × EthernetII) → Prop
  | nil : Carries [] []
  | frame {answers : List (Packet × Reply)} {given : List (Packet × EthernetII)}
      (h : Carries answers given) (p : Packet) (frame : EthernetII) :
      Carries (answers ++ [(p, delivered (p, frame))]) (given ++ [(p, frame)])
  | nothing {answers : List (Packet × Reply)} {given : List (Packet × EthernetII)}
      (h : Carries answers given) (p : Packet) {r : Except Nat Nat} (hr : Nothing r) :
      Carries (answers ++ [(p, ⟨{ p with a := mux r }, []⟩)]) given

/-- What one packet does to the handles and to what is due. -/
inductive Effect (h : History) (s : EthernetScheme) (p : Packet) :
    Done EthernetScheme → History → Prop
  | same {r : Except Nat Nat} {bytes : List UInt8}
      (hnothing : p.a = SYS_READ → Nothing r ∧ bytes = [])
      (hwait : p.a = SYS_READ → mux r = mux (.error EWOULDBLOCK) →
        ∃ handle, s.handles.entry p.b = some handle ∧ handle.frames = []) :
      Effect h s p ⟨s, r, bytes⟩ h
  | skipped {r : Except Nat Nat} {bytes : List UInt8} (hp : p.a ≠ SYS_READ) :
      Effect h s p ⟨⟨s.handles.skip⟩, r, bytes⟩ h
  | inserted {handle : Handle} {r : Except Nat Nat} {bytes : List UInt8} (hp : p.a ≠ SYS_READ)
      (hfrom : handle.frames = [] ∨ ∃ id, s.handles.entry id = some handle) :
      Effect h s p ⟨⟨s.handles.insert handle⟩, r, bytes⟩
        { h with due := Function.update h.due s.handles.next handle.frames }
  | taken {handle : Handle} {frame : EthernetII} {frames : List EthernetII}
      (hp : p.a = SYS_READ) (hh : s.handles.entry p.b = some handle)
      (hf : handle.frames = frame :: frames) :
      Effect h s p
        ⟨⟨s.handles.modify p.b fun handle => { handle with frames := frames }⟩,
          .ok (copied p.d frame.toBytes).length, copied p.d frame.toBytes⟩ h
  | removed {r : Except Nat Nat} {bytes : List UInt8} (hp : p.a ≠ SYS_READ) :
      Effect h s p ⟨⟨s.handles.remove p.b⟩, r, bytes⟩ h

theorem effect_read (h : History) (e : Env) (s : EthernetScheme) (hm : method p.a = some .read) :
    Effect h s p (s.handle e p) (h.opened s p (s.handle e p)) := by
  have hp : p.a = SYS_READ := method_eq_read.mp hm
  have hhandle : s.handle e p = s.read p.b p.d := by
    rw [EthernetScheme.handle, SchemeMut.handle, hm]
    rfl
  have hopened : ∀ done, h.opened s p done = h := by
    intro done
    unfold History.opened
    rw [hm]
  rw [hopened, hhandle]
  unfold EthernetScheme.read
  cases hh : s.handles.entry p.b with
  | none =>
    apply Effect.same
    · exact fun _ => ⟨.inr ⟨EBADF, rfl⟩, rfl⟩
    · intro _ hblocked
      exact absurd hblocked (by decide)
  | some handle =>
    cases hf : handle.frames with
    | nil =>
      by_cases hnon : handle.flags &&& O_NONBLOCK = O_NONBLOCK
      · simp only [hf, if_pos hnon]
        apply Effect.same
        · exact fun _ => ⟨.inl rfl, rfl⟩
        · intro _ hblocked
          exact absurd hblocked (by decide)
      · simp only [hf, if_neg hnon]
        apply Effect.same
        · exact fun _ => ⟨.inr ⟨EWOULDBLOCK, rfl⟩, rfl⟩
        · intro _ _
          exact ⟨handle, hh, hf⟩
    | cons frame frames =>
      simp only [hf]
      exact Effect.taken hp hh hf

/-- What every packet does. -/
theorem effect (h : History) (e : Env) (s : EthernetScheme) (p : Packet) :
    Effect h s p (s.handle e p) (h.opened s p (s.handle e p)) := by
  by_cases hread : method p.a = some .read
  · exact effect_read h e s hread
  · have hp : p.a ≠ SYS_READ := fun hp => hread (method_eq_read.mpr hp)
    have hsame : ∀ {r : Except Nat Nat} {bytes : List UInt8}, Effect h s p ⟨s, r, bytes⟩ h :=
      .same (fun h => absurd h hp) fun h => absurd h hp
    unfold History.opened EthernetScheme.handle SchemeMut.handle
    cases hm : method p.a with
    | none => exact hsame
    | some m =>
      cases m with
      | read => exact absurd hm hread
      | openUrl =>
        simp only [EthernetScheme.scheme]
        unfold EthernetScheme.openUrl
        split
        · split
          · exact hsame
          · split
            · exact hsame
            · exact Effect.inserted hp (.inl rfl)
        · exact hsame
      | dup =>
        simp only [EthernetScheme.scheme]
        unfold EthernetScheme.dup EthernetScheme.queue
        cases hh : s.handles.entry p.b with
        | none => exact Effect.skipped hp
        | some handle => exact Effect.inserted hp (.inr ⟨p.b, hh⟩)
      | close =>
        simp only [EthernetScheme.scheme]
        unfold EthernetScheme.close
        cases hh : s.handles.entry p.b with
        | none => exact hsame
        | some handle => exact Effect.removed hp
      | write =>
        simp only [EthernetScheme.scheme]
        unfold EthernetScheme.write
        split
        · exact hsame
        · split <;> exact hsame
      | fevent =>
        simp only [EthernetScheme.scheme]
        unfold EthernetScheme.fevent
        split <;> exact hsame
      | fpath =>
        simp only [EthernetScheme.scheme]
        unfold EthernetScheme.fpath
        split <;> exact hsame
      | fsync =>
        simp only [EthernetScheme.scheme]
        unfold EthernetScheme.fsync
        split <;> exact hsame
      | fstat =>
        simp only [EthernetScheme.scheme]
        split <;> exact hsame
      | fstatvfs =>
        simp only [EthernetScheme.scheme]
        split <;> exact hsame
      | _ => exact hsame

/-- The frames queued at the handles, where `given` are those that reads were given. -/
structure Queues (h : History) (given : Nat → List (Packet × EthernetII)) (s : EthernetScheme) :
    Prop where
  small : ∀ id handle, s.handles.entry id = some handle →
    ∀ frame ∈ handle.frames, frame.toBytes.length ≤ 65536
  frames : ∀ id, ∃ queued, (given id).map Prod.snd ++ queued = h.due id ∧
    ∀ handle, s.handles.entry id = some handle → queued = handle.frames
  untouched : ∀ id, s.handles.next ≤ id → given id = []

/-- The answers on the scheme file, apart from notices, are those to the requests that are not parked
or still to be handled. -/
structure Accounts (h : History) (d : Ethernetd) (rest : List Packet) : Prop where
  sent : d.schemeFile.filter (·.packet.id ≠ 0) =
    (h.answers.map Prod.snd).filter (·.packet.id ≠ 0)
  counted : ∀ id, id ≠ 0 → repliesTo id d.schemeFile + withId id (d.todo ++ rest) =
    withId id h.requests
  original : (d.todo ++ rest).Sublist h.requests

/-- The daemon has done what its history accounts for, where the packets `rest` are still to be
handled. -/
structure Faithful (h : History) (given : Nat → List (Packet × EthernetII)) (d : Ethernetd)
    (rest : List Packet) : Prop where
  queues : Queues h given d.scheme
  carried : ∀ id, Carries (readAnswers id h.answers) (given id)
  order : ∀ id, ((given id).map Prod.fst ++ readsOf id (d.todo ++ rest)).Sublist (h.reads id)
  waits : ∀ p ∈ d.todo, p.a = SYS_READ → p.b < d.scheme.handles.next ∧
    d.scheme.queue p.b = []
  accounts : Accounts h d rest

theorem queue_of_entry {handle : Handle} (hh : s.handles.entry id = some handle) :
    s.queue id = handle.frames := by
  rw [EthernetScheme.queue, hh]
  rfl

theorem queue_of_none (hh : s.handles.entry id = none) : s.queue id = [] := by
  rw [EthernetScheme.queue, hh]
  rfl

theorem readAnswers_other {answers : List (Packet × Reply)} {reply : Reply}
    (hp : ¬ (p.a = SYS_READ ∧ p.b = id)) :
    readAnswers id (answers ++ [(p, reply)]) = readAnswers id answers := by
  have hnone : [(p, reply)].filter (fun answer => answer.1.a = SYS_READ ∧ answer.1.b = id) = [] :=
    List.filter_cons_of_neg fun h => hp (of_decide_eq_true h)
  rw [readAnswers, List.filter_append, hnone, List.append_nil]
  rfl

theorem readAnswers_read {answers : List (Packet × Reply)} {reply : Reply} (hp : p.a = SYS_READ) :
    readAnswers p.b (answers ++ [(p, reply)]) = readAnswers p.b answers ++ [(p, reply)] := by
  rw [readAnswers, List.filter_append]
  exact congrArg _ (List.filter_cons_of_pos (decide_eq_true ⟨hp, rfl⟩))

/-- A packet that blocks is parked behind the others. -/
theorem Faithful.park (hf : Faithful h given d (p :: rest))
    (hp : p.a = SYS_READ → p.b < d.scheme.handles.next ∧ d.scheme.queue p.b = []) :
    Faithful h given { d with todo := d.todo ++ [p] } rest := by
  have hlist : d.todo ++ [p] ++ rest = d.todo ++ p :: rest := List.append_assoc _ [p] rest
  refine ⟨hf.queues, hf.carried, ?_, ?_, hf.accounts.sent, ?_, ?_⟩
  · intro id
    rw [hlist]
    exact hf.order id
  · intro q hq
    rcases List.mem_append.mp hq with hq | hq
    · exact hf.waits q hq
    · rw [List.mem_singleton.mp hq]
      exact hp
  · intro id hid
    rw [hlist]
    exact hf.accounts.counted id hid
  · rw [hlist]
    exact hf.accounts.original

theorem readsOf_middle (id : Nat) (todo : List Packet) (p : Packet) (rest : List Packet) :
    (readsOf id (todo ++ rest)).Sublist (readsOf id (todo ++ p :: rest)) :=
  ((List.sublist_cons_self p rest).append_left todo).filter _

/-- A packet is answered, with the rest of its fields as they were. -/
theorem Accounts.reply (ha : Accounts h d (p :: rest)) (a : Nat) (bytes : List UInt8) :
    Accounts { h with answers := h.answers ++ [(p, ⟨{ p with a := a }, bytes⟩)] }
      { d with schemeFile := d.schemeFile ++ [⟨{ p with a := a }, bytes⟩] } rest := by
  refine ⟨?_, ?_, ?_⟩
  · show (d.schemeFile ++ _).filter _ = ((h.answers ++ _).map Prod.snd).filter _
    rw [List.map_append, List.filter_append, List.filter_append, ha.sent]
    rfl
  · intro id hne
    show repliesTo id (d.schemeFile ++ _) + withId id (d.todo ++ rest) = withId id h.requests
    rw [← ha.counted id hne, repliesTo_append, repliesTo_cons, repliesTo_nil, withId_append,
      withId_append, withId_cons]
    dsimp only
    omega
  · exact ((List.sublist_cons_self p rest).append_left d.todo).trans ha.original

/-- A packet is answered that is given no frame. -/
theorem Faithful.reply (hf : Faithful h given d (p :: rest)) {r : Except Nat Nat}
    {bytes : List UInt8} (hp : p.a = SYS_READ → Nothing r ∧ bytes = []) :
    Faithful { h with answers := h.answers ++ [(p, ⟨{ p with a := mux r }, bytes⟩)] } given
      { d with schemeFile := d.schemeFile ++ [⟨{ p with a := mux r }, bytes⟩] } rest := by
  refine ⟨⟨hf.queues.small, hf.queues.frames, hf.queues.untouched⟩, ?_, ?_, hf.waits,
    hf.accounts.reply _ _⟩
  · intro id
    show Carries (readAnswers id (h.answers ++ _)) (given id)
    by_cases hread : p.a = SYS_READ ∧ p.b = id
    · obtain ⟨hread, rfl⟩ := hread
      obtain ⟨hr, rfl⟩ := hp hread
      rw [readAnswers_read hread]
      exact (hf.carried p.b).nothing p hr
    · rw [readAnswers_other hread]
      exact hf.carried id
  · intro id
    exact ((readsOf_middle id d.todo p rest).append_left _).trans (hf.order id)

theorem Faithful.skip (hf : Faithful h given d rest) :
    Faithful h given { d with scheme := ⟨d.scheme.handles.skip⟩ } rest := by
  refine ⟨⟨hf.queues.small, hf.queues.frames, ?_⟩, hf.carried, hf.order, ?_, hf.accounts.sent,
    hf.accounts.counted, hf.accounts.original⟩
  · intro id hle
    exact hf.queues.untouched id (Nat.le_of_succ_le hle)
  · intro p hp hread
    obtain ⟨hlt, hqueue⟩ := hf.waits p hp hread
    exact ⟨Nat.lt_succ_of_lt hlt, hqueue⟩

/-- A new handle is due what it begins with. -/
theorem Queues.insert {handle : Handle} (hq : Queues h given s)
    (hfrom : handle.frames = [] ∨ ∃ id, s.handles.entry id = some handle) :
    Queues { h with due := Function.update h.due s.handles.next handle.frames } given
      ⟨s.handles.insert handle⟩ := by
  refine ⟨?_, ?_, ?_⟩
  · intro id found hfound
    by_cases hid : id = s.handles.next
    · subst hid
      cases Table.entry_insert_self.symm.trans hfound
      rcases hfrom with hnil | ⟨k, hk⟩
      · rw [hnil]
        intro frame hframe
        cases hframe
      · exact hq.small k handle hk
    · exact hq.small id found ((Table.entry_insert_of_ne hid).symm.trans hfound)
  · intro id
    by_cases hid : id = s.handles.next
    · subst hid
      refine ⟨handle.frames, ?_, ?_⟩
      · show (given _).map Prod.snd ++ _ = Function.update h.due _ _ _
        rw [hq.untouched _ (Nat.le_refl _), Function.update_self]
        rfl
      · intro found hfound
        cases Table.entry_insert_self.symm.trans hfound
        rfl
    · obtain ⟨queued, hdue, hqueued⟩ := hq.frames id
      refine ⟨queued, ?_, ?_⟩
      · rw [hdue]
        exact (Function.update_of_ne hid ..).symm
      · intro found hfound
        exact hqueued found ((Table.entry_insert_of_ne hid).symm.trans hfound)
  · intro id hle
    exact hq.untouched id (Nat.le_of_succ_le hle)

theorem Faithful.insert {handle : Handle} (hf : Faithful h given d rest)
    (hfrom : handle.frames = [] ∨ ∃ id, d.scheme.handles.entry id = some handle) :
    Faithful { h with due := Function.update h.due d.scheme.handles.next handle.frames } given
      { d with scheme := ⟨d.scheme.handles.insert handle⟩ } rest := by
  refine ⟨hf.queues.insert hfrom, hf.carried, hf.order, ?_, hf.accounts.sent,
    hf.accounts.counted, hf.accounts.original⟩
  intro p hp hread
  obtain ⟨hlt, hqueue⟩ := hf.waits p hp hread
  refine ⟨Nat.lt_succ_of_lt hlt, ?_⟩
  show (((d.scheme.handles.insert handle).entry p.b).map Handle.frames).getD [] = []
  rw [Table.entry_insert_of_ne (Nat.ne_of_lt hlt)]
  exact hqueue

theorem entry_of_remove {k : Nat} {handle : Handle}
    (hk : (s.handles.remove id).entry k = some handle) : s.handles.entry k = some handle := by
  by_cases hne : k = id
  · subst hne
    rw [Table.entry_remove_self] at hk
    cases hk
  · rwa [Table.entry_remove_of_ne hne] at hk

theorem Faithful.remove (hf : Faithful h given d rest) (id : Nat) :
    Faithful h given { d with scheme := ⟨d.scheme.handles.remove id⟩ } rest := by
  refine ⟨⟨?_, ?_, hf.queues.untouched⟩, hf.carried, hf.order, ?_, hf.accounts.sent,
    hf.accounts.counted, hf.accounts.original⟩
  · intro k handle hk
    exact hf.queues.small k handle (entry_of_remove hk)
  · intro k
    obtain ⟨queued, hdue, hqueued⟩ := hf.queues.frames k
    exact ⟨queued, hdue, fun handle hk => hqueued handle (entry_of_remove hk)⟩
  · intro p hp hread
    obtain ⟨hlt, hqueue⟩ := hf.waits p hp hread
    refine ⟨hlt, ?_⟩
    cases hk : (d.scheme.handles.remove id).entry p.b with
    | none => exact queue_of_none hk
    | some handle =>
      rw [queue_of_entry (entry_of_remove hk)] at hqueue
      exact (queue_of_entry hk).trans hqueue

section Take

variable {handle : Handle} {frame : EthernetII} {frames : List EthernetII}

theorem entry_taken (hh : s.handles.entry id = some handle) :
    (s.handles.modify id fun handle => { handle with frames := frames }).entry id =
      some { handle with frames := frames } := by
  rw [Table.entry_modify_self, hh]
  rfl

/-- The first frame of a handle is given to a read. -/
theorem Queues.take (hq : Queues h given s) (hh : s.handles.entry p.b = some handle)
    (hframes : handle.frames = frame :: frames) :
    Queues h (Function.update given p.b (given p.b ++ [(p, frame)]))
      ⟨s.handles.modify p.b fun handle => { handle with frames := frames }⟩ := by
  refine ⟨?_, ?_, ?_⟩
  · intro id found hfound
    by_cases hid : id = p.b
    · subst hid
      cases (entry_taken hh).symm.trans hfound
      intro f hmem
      exact hq.small p.b handle hh f (by rw [hframes]; exact List.mem_cons_of_mem _ hmem)
    · exact hq.small id found ((Table.entry_modify_of_ne hid).symm.trans hfound)
  · intro id
    obtain ⟨queued, hdue, hqueued⟩ := hq.frames id
    by_cases hid : id = p.b
    · subst hid
      refine ⟨frames, ?_, ?_⟩
      · rw [hqueued handle hh, hframes] at hdue
        rw [Function.update_self, List.map_append, ← hdue]
        exact List.append_assoc _ [frame] frames
      · intro found hfound
        cases (entry_taken hh).symm.trans hfound
        rfl
    · refine ⟨queued, ?_, ?_⟩
      · rw [Function.update_of_ne hid]
        exact hdue
      · intro found hfound
        exact hqueued found ((Table.entry_modify_of_ne hid).symm.trans hfound)
  · intro id hle
    have hne : id ≠ p.b := by
      have hlt := Table.lt_next hh
      intro heq
      rw [heq] at hle
      exact Nat.lt_irrefl _ (Nat.lt_of_lt_of_le hlt hle)
    rw [Function.update_of_ne hne]
    exact hq.untouched id hle

/-- No parked read waits for a handle that has frames. -/
theorem Faithful.none_parked (hf : Faithful h given d rest)
    (hh : d.scheme.handles.entry id = some handle) (hframes : handle.frames = frame :: frames) :
    readsOf id d.todo = [] := by
  apply List.filter_eq_nil_iff.mpr
  intro q hq hmatch
  obtain ⟨hread, hb⟩ := of_decide_eq_true hmatch
  have hqueue := (hf.waits q hq hread).2
  rw [hb, queue_of_entry hh, hframes] at hqueue
  cases hqueue

/-- A read takes the first frame of a handle that no earlier read waits for. -/
theorem Faithful.take (hf : Faithful h given d (p :: rest)) (hp : p.a = SYS_READ)
    (hh : d.scheme.handles.entry p.b = some handle) (hframes : handle.frames = frame :: frames) :
    Faithful { h with answers := h.answers ++ [(p, delivered (p, frame))] }
      (Function.update given p.b (given p.b ++ [(p, frame)]))
      { d with
        scheme := ⟨d.scheme.handles.modify p.b fun handle => { handle with frames := frames }⟩
        schemeFile := d.schemeFile ++ [delivered (p, frame)] } rest := by
  have hqueues := hf.queues.take hh hframes
  have haccounts := hf.accounts.reply (delivered (p, frame)).packet.a (delivered (p, frame)).bytes
  refine ⟨⟨hqueues.small, hqueues.frames, hqueues.untouched⟩, ?_, ?_, ?_,
    haccounts.sent, haccounts.counted, haccounts.original⟩
  · intro id
    show Carries (readAnswers id (h.answers ++ _)) _
    by_cases hid : id = p.b
    · subst hid
      rw [Function.update_self, readAnswers_read hp]
      exact (hf.carried p.b).frame p frame
    · rw [Function.update_of_ne hid, readAnswers_other fun hread => hid hread.2.symm]
      exact hf.carried id
  · intro id
    have horder := hf.order id
    by_cases hid : id = p.b
    · subst hid
      have hone : readsOf p.b (p :: rest) = p :: readsOf p.b rest :=
        List.filter_cons_of_pos (decide_eq_true ⟨hp, rfl⟩)
      have hnone := hf.none_parked hh hframes
      rw [readsOf] at hnone hone
      rw [readsOf, List.filter_append, hnone, hone] at horder
      rw [Function.update_self, List.map_append, readsOf, List.filter_append, hnone,
        List.append_assoc]
      exact horder
    · rw [Function.update_of_ne hid]
      exact ((readsOf_middle id d.todo p rest).append_left _).trans horder
  · intro q hq hread
    obtain ⟨hlt, hqueue⟩ := hf.waits q hq hread
    refine ⟨hlt, ?_⟩
    have hne : q.b ≠ p.b := by
      intro hb
      rw [hb, queue_of_entry hh, hframes] at hqueue
      cases hqueue
    rw [EthernetScheme.queue, Table.entry_modify_of_ne hne]
    exact hqueue

end Take

/-- A packet that is given no frame is parked or answered. -/
theorem Faithful.settle (hf : Faithful h given d (p :: rest)) (done : Done EthernetScheme)
    (hnothing : p.a = SYS_READ → Nothing done.result ∧ done.bytes = [])
    (hwait : p.a = SYS_READ → mux done.result = mux (.error EWOULDBLOCK) →
      p.b < d.scheme.handles.next ∧ d.scheme.queue p.b = []) :
    Faithful (h.answered p done) given
      (if mux done.result = mux (.error EWOULDBLOCK) then { d with todo := d.todo ++ [p] }
        else { d with
          schemeFile := d.schemeFile ++ [⟨{ p with a := mux done.result }, done.bytes⟩] })
      rest := by
  unfold History.answered
  split
  · rename_i hblocked
    exact hf.park fun hread => hwait hread hblocked
  · exact hf.reply hnothing

theorem Faithful.serve (hf : Faithful h given d (p :: rest)) (e : Env) :
    ∃ given, Faithful (h.served e d.scheme p) given (d.serve e p) rest := by
  have heffect := effect h e d.scheme p
  unfold History.served Ethernetd.serve
  revert heffect
  generalize h.opened d.scheme p (d.scheme.handle e p) = h'
  generalize d.scheme.handle e p = done
  intro heffect
  cases heffect with
  | @same result bytes hnothing hwait =>
    refine ⟨given, hf.settle ⟨d.scheme, result, bytes⟩ hnothing ?_⟩
    intro hread hblocked
    obtain ⟨handle, hh, hnil⟩ := hwait hread hblocked
    exact ⟨Table.lt_next hh, (queue_of_entry hh).trans hnil⟩
  | @skipped result bytes hp =>
    exact ⟨given, hf.skip.settle ⟨_, result, bytes⟩ (fun hread => absurd hread hp)
      fun hread => absurd hread hp⟩
  | @inserted handle result bytes hp hfrom =>
    exact ⟨given, (hf.insert hfrom).settle ⟨_, result, bytes⟩ (fun hread => absurd hread hp)
      fun hread => absurd hread hp⟩
  | @removed result bytes hp =>
    exact ⟨given, (hf.remove p.b).settle ⟨_, result, bytes⟩ (fun hread => absurd hread hp)
      fun hread => absurd hread hp⟩
  | @taken handle frame frames hp hh hframes =>
    have hsmall := hf.queues.small p.b handle hh frame (by rw [hframes]; exact List.mem_cons_self)
    have hlength : (copied p.d frame.toBytes).length ≤ 65536 :=
      Nat.le_trans (by rw [copied, List.length_take]; exact Nat.min_le_right _ _) hsmall
    have hanswered : mux (.ok (copied p.d frame.toBytes).length) ≠ mux (.error EWOULDBLOCK) := by
      intro heq
      have heq : (copied p.d frame.toBytes).length = 2 ^ 64 - 41 := heq
      omega
    unfold History.answered
    dsimp only
    rw [if_neg hanswered, if_neg hanswered]
    exact ⟨_, hf.take hp hh hframes⟩

theorem Faithful.retry (hf : Faithful h given d rest) (envs : Nat → Env) :
    ∃ given, Faithful (h.retried d envs rest) given (d.retry envs rest) [] := by
  induction rest generalizing h given d with
  | nil => exact ⟨given, hf⟩
  | cons p rest ih =>
    obtain ⟨given', hf'⟩ := hf.serve (envs rest.length)
    exact ih hf'

/-- Notices are no answers. -/
theorem Faithful.notify (hf : Faithful h given d []) : Faithful h given d.notify [] := by
  have hnotices : (d.scheme.handles.entries.flatMap Ethernetd.told).filter (·.packet.id ≠ 0) = [] := by
    apply List.filter_eq_nil_iff.mpr
    intro r hr
    obtain ⟨⟨k, handle⟩, -, hr⟩ := List.mem_flatMap.mp hr
    unfold Ethernetd.told at hr
    split at hr
    · rw [List.mem_singleton.mp hr]
      exact fun h => of_decide_eq_true h rfl
    · cases hr
  refine ⟨hf.queues, hf.carried, hf.order, hf.waits, ?_, ?_, hf.accounts.original⟩
  · rw [Ethernetd.notify, List.filter_append, hnotices, List.append_nil]
    exact hf.accounts.sent
  · intro id hid
    have hnone : repliesTo id (d.scheme.handles.entries.flatMap Ethernetd.told) = 0 := by
      apply repliesTo_flatMap
      rintro ⟨k, handle⟩
      unfold Ethernetd.told
      split
      · exact repliesTo_notice hid _ _
      · rfl
    rw [Ethernetd.notify, repliesTo_append, hnone]
    exact hf.accounts.counted id hid

/-- A frame is given to a read with the bytes that came from the network. -/
theorem toBytes_of_fromBytes {frame : EthernetII} {bytes : List UInt8}
    (hframe : EthernetII.fromBytes bytes = some frame) : frame.toBytes = bytes := by
  unfold EthernetII.fromBytes at hframe
  split at hframe
  · rename_i hle
    have hle : 14 ≤ bytes.length := hle
    cases hframe
    have h12 : bytes.getD 12 0 = bytes[12] := by
      rw [List.getD_eq_getElem?_getD, List.getElem?_eq_getElem (by omega), Option.getD_some]
    have h13 : bytes.getD 13 0 = bytes[13] := by
      rw [List.getD_eq_getElem?_getD, List.getElem?_eq_getElem (by omega), Option.getD_some]
    have htype : [bytes[12], bytes[13]] ++ bytes.drop 14 = bytes.drop 12 := by
      rw [List.drop_eq_getElem_cons (show 12 < bytes.length by omega),
        List.drop_eq_getElem_cons (show 13 < bytes.length by omega)]
      rfl
    have hsrc : (bytes.drop 6).take 6 ++ bytes.drop 12 = bytes.drop 6 := by
      have hdrop : bytes.drop 12 = (bytes.drop 6).drop 6 := by rw [List.drop_drop]
      rw [hdrop, List.take_append_drop]
    show bytes.take 6 ++ (bytes.drop 6).take 6 ++ be16 _ ++ bytes.drop 14 = bytes
    rw [h12, h13, be16_bytes, List.append_assoc, List.append_assoc, htype, hsrc,
      List.take_append_drop]
  · cases hframe

theorem length_toBytes {frame : EthernetII} {bytes : List UInt8}
    (hframe : EthernetII.fromBytes bytes = some frame) : frame.toBytes.length = bytes.length := by
  rw [toBytes_of_fromBytes hframe]

theorem small_of_arrived {chunks : List (List UInt8)} :
    ∀ frame ∈ History.arrived chunks, frame.toBytes.length ≤ 65536 := by
  fun_induction History.arrived chunks with
  | case1 => exact fun _ h => absurd h List.not_mem_nil
  | case2 => exact fun _ h => absurd h List.not_mem_nil
  | case3 chunk chunks hne ih =>
    intro frame hframe
    rcases List.mem_append.mp hframe with hframe | hframe
    · rw [length_toBytes (Option.mem_toList.mp hframe), List.length_take]
      exact Nat.min_le_left _ _
    · exact ih frame hframe

/-- The loop of `input` delivers what arrives, and counts it. -/
theorem input_eq (s : EthernetScheme) (chunks : List (List UInt8)) :
    (s.input chunks).1 = (History.arrived chunks).foldl EthernetScheme.deliver s ∧
      ((s.input chunks).2 = 0 → History.arrived chunks = []) := by
  fun_induction EthernetScheme.input s chunks with
  | case1 s => exact ⟨rfl, fun _ => rfl⟩
  | case2 s chunks => exact ⟨rfl, fun _ => rfl⟩
  | case3 s chunk chunks hne bytes frame hframe scheme total hinput ih =>
    rw [hinput] at ih
    have harrived : History.arrived (chunk :: chunks) = frame :: History.arrived chunks := by
      rw [History.arrived, hframe]
      · rfl
      · exact hne
    rw [harrived]
    refine ⟨ih.1, ?_⟩
    intro hzero
    have hlength := length_toBytes hframe
    have hpos : 14 ≤ frame.toBytes.length := by
      simp only [EthernetII.toBytes, be16, List.length_append, frame.header.dst.length_bytes,
        frame.header.src.length_bytes, List.length_cons, List.length_nil]
      omega
    omega
  | case4 s chunk chunks hne bytes hframe ih =>
    have harrived : History.arrived (chunk :: chunks) = History.arrived chunks := by
      rw [History.arrived, hframe]
      · rfl
      · exact hne
    rw [harrived]
    exact ih

/-- Frames go behind those that a handle of their type has queued. -/
theorem entry_delivered (s : EthernetScheme) (frames : List EthernetII) :
    (frames.foldl EthernetScheme.deliver s).handles.next = s.handles.next ∧
    ∀ id, (frames.foldl EthernetScheme.deliver s).handles.entry id =
      (s.handles.entry id).map fun handle => { handle with
        frames := handle.frames ++ frames.filter handle.accepts } := by
  induction frames generalizing s with
  | nil =>
    refine ⟨rfl, ?_⟩
    intro id
    cases hh : s.handles.entry id with
    | none => exact hh
    | some handle =>
      rw [List.foldl_nil, hh, Option.map_some, List.filter_nil, List.append_nil]
  | cons frame frames ih =>
    obtain ⟨hnext, hentry⟩ := ih (s.deliver frame)
    refine ⟨hnext, ?_⟩
    intro id
    rw [List.foldl_cons, hentry id, EthernetScheme.deliver, Table.entry_map]
    cases hh : s.handles.entry id with
    | none => rfl
    | some handle =>
      simp only [Option.map_some]
      by_cases htype : handle.accepts frame = true
      · rw [if_pos htype, List.filter_cons_of_pos htype]
        exact congrArg (fun queued => some { handle with frames := queued })
          (List.append_assoc handle.frames [frame] (frames.filter handle.accepts))
      · rw [if_neg htype, List.filter_cons_of_neg htype]

/-- What arrives is due to the handles it is delivered to. While no read has been tried again, the
parked ones may wait at a handle with frames. -/
theorem Faithful.deliver {frames : List EthernetII} (hf : Faithful h given d [])
    (hsmall : ∀ frame ∈ frames, frame.toBytes.length ≤ 65536) :
    Faithful (h.brought d.scheme frames) given
      { d with scheme := frames.foldl EthernetScheme.deliver d.scheme, todo := [] } d.todo := by
  obtain ⟨hnext, hentry⟩ := entry_delivered d.scheme frames
  have hold : ∀ {id : Nat} {found : Handle},
      (frames.foldl EthernetScheme.deliver d.scheme).handles.entry id = some found →
        ∃ handle, d.scheme.handles.entry id = some handle ∧
          found.frames = handle.frames ++ frames.filter handle.accepts := by
    intro id found hfound
    rw [hentry id] at hfound
    obtain ⟨handle, hh, rfl⟩ := Option.map_eq_some_iff.mp hfound
    exact ⟨handle, hh, rfl⟩
  refine ⟨⟨?_, ?_, fun id hle => hf.queues.untouched id (hnext ▸ hle)⟩, hf.carried, ?_, ?_,
    hf.accounts.sent, ?_, ?_⟩
  · intro id found hfound frame hframe
    obtain ⟨handle, hh, hfound⟩ := hold hfound
    rw [hfound] at hframe
    rcases List.mem_append.mp hframe with hframe | hframe
    · exact hf.queues.small id handle hh frame hframe
    · exact hsmall frame (List.mem_of_mem_filter hframe)
  · intro id
    obtain ⟨queued, hdue, hqueued⟩ := hf.queues.frames id
    show ∃ queued, (given id).map Prod.snd ++ queued = h.due id ++ _ ∧ _
    cases hh : d.scheme.handles.entry id with
    | none =>
      refine ⟨queued, hdue.trans (List.append_nil _).symm, ?_⟩
      intro found hfound
      obtain ⟨handle, hh', -⟩ := hold hfound
      rw [hh] at hh'
      cases hh'
    | some handle =>
      refine ⟨_, by rw [← hdue, List.append_assoc], ?_⟩
      intro found hfound
      obtain ⟨handle', hh', hfound⟩ := hold hfound
      rw [hh] at hh'
      cases hh'
      rw [hfound, hqueued handle hh]
  · intro id
    have horder := hf.order id
    rw [List.append_nil] at horder
    exact horder
  · exact fun q hq => absurd hq List.not_mem_nil
  · intro id hid
    have hcounted := hf.accounts.counted id hid
    rw [List.append_nil] at hcounted
    exact hcounted
  · have horiginal := hf.accounts.original
    rw [List.append_nil] at horiginal
    exact horiginal

theorem brought_nil (h : History) (s : EthernetScheme) : h.brought s [] = h := by
  have hdue : (h.brought s []).due = h.due := by
    funext id
    unfold History.brought
    dsimp only
    cases s.handles.entry id <;> exact List.append_nil _
  exact congrArg (fun due => { h with due := due }) hdue

/-- A request that is read from the scheme file is the only one still to be handled. -/
theorem Faithful.ask (hf : Faithful h given d []) (p : Packet) :
    Faithful (h.asked p) given d [p] := by
  refine ⟨⟨hf.queues.small, hf.queues.frames, hf.queues.untouched⟩, hf.carried, ?_, hf.waits,
    hf.accounts.sent, ?_, ?_⟩
  · intro id
    have horder := hf.order id
    rw [List.append_nil] at horder
    show ((given id).map Prod.fst ++ readsOf id (d.todo ++ [p])).Sublist
      ((if p.a = SYS_READ then Function.update h.reads p.b (h.reads p.b ++ [p]) else h.reads) id)
    rw [readsOf, List.filter_append, ← List.append_assoc]
    by_cases hread : p.a = SYS_READ
    · rw [if_pos hread]
      by_cases hid : id = p.b
      · subst hid
        rw [Function.update_self]
        exact horder.append (List.filter_sublist)
      · have hnone : [p].filter (fun p => p.a = SYS_READ ∧ p.b = id) = [] :=
          List.filter_cons_of_neg fun h => hid (of_decide_eq_true h).2.symm
        rw [Function.update_of_ne hid, hnone, List.append_nil]
        exact horder
    · have hnone : [p].filter (fun p => p.a = SYS_READ ∧ p.b = id) = [] :=
        List.filter_cons_of_neg fun h => hread (of_decide_eq_true h).1
      rw [if_neg hread, hnone, List.append_nil]
      exact horder
  · intro id hid
    have hcounted := hf.accounts.counted id hid
    rw [List.append_nil] at hcounted
    show _ = withId id (h.requests ++ [p])
    rw [withId_append, withId_append, ← hcounted, Nat.add_assoc]
  · have horiginal := hf.accounts.original
    rw [List.append_nil] at horiginal
    exact horiginal.append_right [p]

theorem Faithful.next (hf : Faithful h given d []) (event : Ethernetd.Event) :
    ∃ given, Faithful (h.next d event) given (d.step event) [] := by
  cases event with
  | request e p => exact (hf.ask p).serve e
  | network chunks envs =>
    obtain ⟨hscheme, htotal⟩ := input_eq d.scheme chunks
    have hdelivered : Faithful (h.brought d.scheme (History.arrived chunks)) given _ d.todo :=
      hf.deliver small_of_arrived
    rw [← hscheme] at hdelivered
    simp only [History.next, Ethernetd.step]
    by_cases hpos : (d.scheme.input chunks).2 > 0
    · rw [if_pos hpos, if_pos hpos]
      obtain ⟨given', hretried⟩ := hdelivered.retry envs
      exact ⟨given', hretried.notify⟩
    · have harrived := htotal (Nat.eq_zero_of_not_pos hpos)
      rw [harrived] at hscheme
      rw [if_neg hpos, if_neg hpos, harrived, brought_nil, hscheme]
      exact ⟨given, hf⟩

theorem faithful_new : Faithful .new (fun _ => []) .new [] := by
  refine ⟨⟨?_, ?_, fun _ _ => rfl⟩, fun _ => .nil, fun _ => .slnil, ?_, rfl, fun _ _ => rfl, .slnil⟩
  · intro id handle h
    cases h
  · intro id
    refine ⟨[], rfl, ?_⟩
    intro handle h
    cases h
  · exact fun q hq => absurd hq List.not_mem_nil

theorem faithful_run (events : List Ethernetd.Event) :
    ∃ given, Faithful (events.foldl follow (.new, .new)).2 given
      (events.foldl follow (.new, .new)).1 [] := by
  have hrun : ∀ (w : Ethernetd × History) given, Faithful w.2 given w.1 [] →
      ∃ given, Faithful (events.foldl follow w).2 given (events.foldl follow w).1 [] := by
    induction events with
    | nil => exact fun w given hw => ⟨given, hw⟩
    | cons event events ih =>
      intro w given hw
      obtain ⟨given', hw'⟩ := hw.next event
      exact ih (follow w event) given' hw'
  exact hrun _ _ faithful_new

/-- In every run, the answers to the reads of a handle carry frames, given in the order in which the
reads were asked for, which with those it has queued are the ones that are due to it. The scheme file
has these answers and no other, and every request has been answered once or is parked as it came. -/
theorem frames_delivered_faithfully (events : List Ethernetd.Event) :
    let d := (events.foldl follow (.new, .new)).1
    let h := (events.foldl follow (.new, .new)).2
    (∀ id, ∃ given queued, Carries (readAnswers id h.answers) given ∧
      given.map Prod.snd ++ queued = h.due id ∧
      (∀ handle, d.scheme.handles.entry id = some handle → queued = handle.frames) ∧
      (given.map Prod.fst ++ readsOf id d.todo).Sublist (h.reads id)) ∧
    d.schemeFile.filter (·.packet.id ≠ 0) = (h.answers.map Prod.snd).filter (·.packet.id ≠ 0) ∧
    (∀ id, id ≠ 0 → repliesTo id d.schemeFile + withId id d.todo = withId id h.requests) ∧
    d.todo.Sublist h.requests := by
  obtain ⟨given, hf⟩ := faithful_run events
  have horder := hf.order
  have hcounted := hf.accounts.counted
  have horiginal := hf.accounts.original
  simp only [List.append_nil] at horder hcounted horiginal
  refine ⟨?_, hf.accounts.sent, hcounted, horiginal⟩
  intro id
  obtain ⟨queued, hdue, hqueued⟩ := hf.queues.frames id
  exact ⟨given id, queued, hf.carried id, hdue, hqueued, horder id⟩

end Origel.Net.Ethernet
