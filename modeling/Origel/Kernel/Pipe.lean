import Mathlib.Data.List.Basic
import Mathlib.Logic.Function.Basic
import Origel.Lib.Run
import Origel.Numbers

/-! Pipes: a queue of bytes with handles to read and to write, under calls that overlap. -/
namespace Origel.Kernel.Pipe

open Origel.Lib

/-- Where a thread is in `read` or `write`. Between its steps it holds the reference to the handle's
side of the pipe that it has cloned at the start; a write also holds one to the queue from its upgrade
on. -/
inductive Phase where
  | idle
  /-- At the head of the loop of `read`. -/
  | readTaken (id n : Nat)
  /-- The queue had nothing for it, and is unlocked again. -/
  | readEmpty (id n : Nat)
  | readWaits (id n : Nat)
  | writeTaken (id : Nat) (bytes : List UInt8)
  | writeUp (id : Nat) (bytes : List UInt8)
  | writeDone (id n : Nat)
  deriving DecidableEq, Repr

namespace Phase

def reads : Phase → Bool
  | readTaken .. | readEmpty .. | readWaits .. => true
  | _ => false

def writes : Phase → Bool
  | writeTaken .. | writeUp .. | writeDone .. => true
  | _ => false

/-- It holds a reference to the queue of its own. -/
def upgraded : Phase → Bool
  | writeUp .. | writeDone .. => true
  | _ => false

end Phase

/-- One pipe: the handles that are open, their flags, the bytes in the queue, and the threads that
use it. The queue is freed with the last reference to it, with what is still in it. `taken` and
`accepted` are the bytes that reads have taken out and writes have put in, in order. -/
structure State where
  readers : List Nat
  writers : List Nat
  flags : Nat → Nat
  queue : List UInt8
  threads : List Phase
  taken : List UInt8
  accepted : List UInt8

inductive Reply where
  | bytes (bs : List UInt8)
  | num (n : Nat)
  | error (e : Nat)
  deriving DecidableEq, Repr

namespace State

/-- `pipe` -/
def pipe (flags readId writeId threads : Nat) : State :=
  ⟨[readId], [writeId], fun _ => flags, [], List.replicate threads .idle, [], []⟩

def withPhase (s : State) (t : Nat) (p : Phase) : State := { s with threads := s.threads.set t p }

/-- No reference to the queue is left: a reading side holds one, and a write from its upgrade on. -/
def strongZero (s : State) : Bool :=
  s.readers.isEmpty && s.threads.all fun p => !p.reads && !p.upgraded

/-- `Arc::weak_count(&self.vec) == 0`: a writing side is there as long as its handle, or a write that
has begun. -/
def weakZero (s : State) : Bool := s.writers.isEmpty && s.threads.all fun p => !p.writes

end State

/-- The steps that the locks make. `dup` is given the number that `PIPE_NEXT_ID` has come to. -/
inductive Act where
  | readStart (t id n : Nat)
  | readTake (t : Nat)
  | readTest (t : Nat)
  | wake (t : Nat)
  | writeStart (t id : Nat) (bytes : List UInt8)
  | writeUpgrade (t : Nat)
  | writePush (t : Nat)
  | writeReturn (t : Nat)
  | dup (id new : Nat) (buf : List UInt8)
  | close (id : Nat)
  | fcntl (id cmd arg : Nat)

/-- The flags of a copy, if there is to be one: `buf` is "exec" when a program is run. -/
def dupFlags (flags : Nat) (buf : List UInt8) : Option Nat :=
  if buf = [101, 120, 101, 99] ∧ flags &&& O_CLOEXEC = O_CLOEXEC then none
  else if buf.isEmpty then some (flags &&& (2 ^ 64 - 1 - O_CLOEXEC))
  else some flags

/-- One step, with the reply of the call that it ends. -/
def step (s : State) : Act → Option (State × Option Reply)
  | .readStart t id n =>
    if s.threads[t]? = some .idle then
      if id ∈ s.readers then some (s.withPhase t (.readTaken id n), none)
      else some (s, some (.error EBADF))
    else none
  | .readTake t =>
    match s.threads[t]? with
    | some (.readTaken id n) =>
      if s.queue.take n = [] then some (s.withPhase t (.readEmpty id n), none)
      else some ({ s.withPhase t .idle with queue := s.queue.drop n, taken := s.taken ++ s.queue.take n },
        some (.bytes (s.queue.take n)))
    | _ => none
  | .readTest t =>
    match s.threads[t]? with
    | some (.readEmpty id n) =>
      if s.weakZero then some (s.withPhase t .idle, some (.bytes []))
      else if s.flags id &&& O_NONBLOCK = O_NONBLOCK then
        some (s.withPhase t .idle, some (.error EAGAIN))
      else some (s.withPhase t (.readWaits id n), none)
    | _ => none
  | .wake t =>
    match s.threads[t]? with
    | some (.readWaits id n) => some (s.withPhase t (.readTaken id n), none)
    | _ => none
  | .writeStart t id bytes =>
    if s.threads[t]? = some .idle then
      if id ∈ s.writers then some (s.withPhase t (.writeTaken id bytes), none)
      else some (s, some (.error EBADF))
    else none
  | .writeUpgrade t =>
    match s.threads[t]? with
    | some (.writeTaken id bytes) =>
      if s.strongZero then some (s.withPhase t .idle, some (.error EPIPE))
      else some (s.withPhase t (.writeUp id bytes), none)
    | _ => none
  | .writePush t =>
    match s.threads[t]? with
    | some (.writeUp id bytes) =>
      some ({ s.withPhase t (.writeDone id bytes.length) with
        queue := s.queue ++ bytes, accepted := s.accepted ++ bytes }, none)
    | _ => none
  | .writeReturn t =>
    match s.threads[t]? with
    | some (.writeDone _ n) => some (s.withPhase t .idle, some (.num n))
    | _ => none
  | .dup id new buf =>
    if id ∈ s.readers then
      match dupFlags (s.flags id) buf with
      | none => some (s, some (.error EBADF))
      | some f => some ({ s with readers := new :: s.readers, flags := Function.update s.flags new f },
          some (.num new))
    else if id ∈ s.writers then
      match dupFlags (s.flags id) buf with
      | none => some (s, some (.error EBADF))
      | some f => some ({ s with writers := new :: s.writers, flags := Function.update s.flags new f },
          some (.num new))
    else some (s, some (.error EBADF))
  | .close id =>
    some ({ s with readers := s.readers.filter (· ≠ id), writers := s.writers.filter (· ≠ id) },
      some (.num 0))
  | .fcntl id cmd arg =>
    if id ∈ s.readers ∨ id ∈ s.writers then
      if cmd = F_GETFL then some (s, some (.num (s.flags id)))
      else if cmd = F_SETFL then
        some ({ s with flags := Function.update s.flags id (arg &&& (2 ^ 64 - 1 - O_ACCMODE)) },
          some (.num 0))
      else some (s, some (.error EINVAL))
    else some (s, some (.error EBADF))

variable {s s' : State} {t id n : Nat} {p p' : Phase} {act : Act} {r : Option Reply}

/-- No read is in progress, and no write has got hold of the queue. -/
def Quiet (s : State) : Prop := ∀ p ∈ s.threads, p.reads = false ∧ p.upgraded = false

/-- No read into a non-empty buffer stands between its look at the queue and its test for the end,
unless the queue is empty. -/
def NoneMissed (s : State) : Prop :=
  ∀ id n, Phase.readEmpty id n ∈ s.threads → 0 < n → s.queue = []

/-- The last reading handle is closed when no read is in progress and no write has got hold of the
queue; the last writing side goes when no read stands between its look at the queue and its test,
unless there is nothing in the queue. -/
def Orderly (s : State) : Act → Prop
  | .close id => (s.readers.filter (· ≠ id) = [] → Quiet s) ∧
      (s.writers.filter (· ≠ id) = [] → (∀ p ∈ s.threads, p.writes = false) → NoneMissed s)
  | .writeReturn t => (s.withPhase t .idle).weakZero = true → NoneMissed s
  | _ => True

def Step (P : State → Act → Prop) (s : State) (act : Act) (s' : State) : Prop :=
  P s act ∧ ∃ r, step s act = some (s', r)

structure Inv (s : State) : Prop where
  fifo : s.taken ++ s.queue = s.accepted
  readers : s.readers = [] → Quiet s
  missed : s.weakZero = true → NoneMissed s

theorem weakZero_iff : s.weakZero = true ↔ s.writers = [] ∧ ∀ p ∈ s.threads, p.writes = false := by
  simp [State.weakZero, List.isEmpty_iff]

theorem strongZero_iff : s.strongZero = true ↔ s.readers = [] ∧ Quiet s := by
  simp [State.strongZero, List.isEmpty_iff, Quiet]

/-- The phases of the other threads are still there. -/
theorem mem_withPhase (ht : s.threads[t]? = some p) {q : Phase} (hq : q ∈ s.threads) :
    q ∈ (s.withPhase t p').threads ∨ q = p := by
  obtain ⟨i, hi, rfl⟩ := List.mem_iff_getElem.mp hq
  by_cases hit : i = t
  · subst hit
    rw [List.getElem?_eq_getElem hi] at ht
    exact .inr (Option.some.inj ht)
  · refine .inl (List.mem_iff_getElem.mpr ⟨i, by simpa [State.withPhase] using hi, ?_⟩)
    simp [State.withPhase, List.getElem_set_ne (Ne.symm hit)]

theorem mem_of_withPhase {q : Phase} (hq : q ∈ (s.withPhase t p').threads) :
    q ∈ s.threads ∨ q = p' := List.mem_or_eq_of_mem_set hq

/-- The thread itself is in its new phase. -/
theorem self_withPhase (ht : s.threads[t]? = some p) : p' ∈ (s.withPhase t p').threads := by
  obtain ⟨hlt, -⟩ := List.getElem?_eq_some_iff.mp ht
  exact List.mem_set hlt p'

/-- A thread that was not writing makes no difference for the writing sides. -/
theorem weakZero_of_withPhase (ht : s.threads[t]? = some p) (hp : p.writes = false)
    (h : (s.withPhase t p').weakZero = true) : s.weakZero = true := by
  obtain ⟨hw, hall⟩ := weakZero_iff.mp h
  refine weakZero_iff.mpr ⟨hw, fun q hq => ?_⟩
  rcases mem_withPhase ht hq with hq | rfl
  · exact hall q hq
  · exact hp

/-- A thread that is writing is a writing side. -/
theorem weakZero_writing (ht : s.threads[t]? = some p) (hp : p'.writes = true) :
    (s.withPhase t p').weakZero ≠ true := by
  intro h
  have := (weakZero_iff.mp h).2 p' (self_withPhase ht)
  rw [hp] at this
  cases this

namespace Inv

/-- A thread goes on to its next phase. -/
theorem move (h : Inv s) (hread : s.readers = [] → p'.reads = false ∧ p'.upgraded = false)
    (hmissed : (s.withPhase t p').weakZero = true → NoneMissed s ∧
      ∀ id n, p' = .readEmpty id n → 0 < n → s.queue = []) : Inv (s.withPhase t p') := by
  refine ⟨h.fifo, fun hr q hq => ?_, fun hw id n hq hn => ?_⟩
  · rcases mem_of_withPhase hq with hq | rfl
    · exact h.readers hr q hq
    · exact hread hr
  · obtain ⟨hold, hnew⟩ := hmissed hw
    rcases mem_of_withPhase hq with hq | heq
    · exact hold id n hq hn
    · exact hnew id n heq.symm hn

/-- A thread that holds the reading side is not there without a reading handle. -/
theorem reading (h : Inv s) (ht : s.threads[t]? = some p) (hp : p.reads = true ∨ p.upgraded = true) :
    s.readers ≠ [] := by
  intro hr
  obtain ⟨h1, h2⟩ := h.readers hr p (List.mem_of_getElem? ht)
  rcases hp with hp | hp
  · exact absurd (hp.symm.trans h1) (by decide)
  · exact absurd (hp.symm.trans h2) (by decide)

/-- A thread that is neither writing nor about to look at the queue. -/
theorem moveReading (h : Inv s) (ht : s.threads[t]? = some p) (hp : p.writes = false)
    (hread : s.readers = [] → p'.reads = false ∧ p'.upgraded = false)
    (hnew : ∀ id n, p' = .readEmpty id n → 0 < n → s.queue = []) : Inv (s.withPhase t p') :=
  h.move hread fun hw => ⟨h.missed (weakZero_of_withPhase ht hp hw), hnew⟩

theorem readTake (h : Inv s) (hs : Pipe.step s (.readTake t) = some (s', r)) : Inv s' := by
  unfold Pipe.step at hs
  cases ht : s.threads[t]? with
  | none => simp [ht] at hs
  | some p =>
    cases p with
    | readTaken id n =>
      simp only [ht] at hs
      split at hs
      · rename_i hempty
        cases hs
        refine h.moveReading ht rfl (fun hr => (h.reading ht (.inl rfl) hr).elim) fun id' n' heq hn => ?_
        cases heq
        exact (List.take_eq_nil_iff.mp hempty).resolve_left (by omega)
      · rename_i hsome
        cases hs
        refine ⟨?_, fun hr => (h.reading ht (.inl rfl) hr).elim, fun hw id' n' hq hn => ?_⟩
        · change (s.taken ++ s.queue.take n) ++ s.queue.drop n = s.accepted
          rw [List.append_assoc, List.take_append_drop, h.fifo]
        · rcases mem_of_withPhase hq with hq | hq
          · have hnil := h.missed (weakZero_of_withPhase ht rfl hw) id' n' hq hn
            change s.queue.drop n = []
            rw [hnil, List.drop_nil]
          · cases hq
    | _ => simp [ht] at hs

theorem readTest (h : Inv s) (hs : Pipe.step s (.readTest t) = some (s', r)) : Inv s' := by
  unfold Pipe.step at hs
  cases ht : s.threads[t]? with
  | none => simp [ht] at hs
  | some p =>
    cases p with
    | readEmpty id n =>
      have hr := h.reading ht (.inl rfl)
      simp only [ht] at hs
      split at hs
      · cases hs
        exact h.moveReading ht rfl (fun h0 => (hr h0).elim) nofun
      · split at hs
        · cases hs
          exact h.moveReading ht rfl (fun h0 => (hr h0).elim) nofun
        · cases hs
          exact h.moveReading ht rfl (fun h0 => (hr h0).elim) nofun
    | _ => simp [ht] at hs

theorem wake (h : Inv s) (hs : Pipe.step s (.wake t) = some (s', r)) : Inv s' := by
  unfold Pipe.step at hs
  cases ht : s.threads[t]? with
  | none => simp [ht] at hs
  | some p =>
    cases p with
    | readWaits id n =>
      simp only [ht] at hs
      cases hs
      exact h.moveReading ht rfl (fun hr => (h.reading ht (.inl rfl) hr).elim) nofun
    | _ => simp [ht] at hs

theorem writeUpgrade (h : Inv s) (hs : Pipe.step s (.writeUpgrade t) = some (s', r)) : Inv s' := by
  unfold Pipe.step at hs
  cases ht : s.threads[t]? with
  | none => simp [ht] at hs
  | some p =>
    cases p with
    | writeTaken id bytes =>
      simp only [ht] at hs
      split at hs
      · rename_i hz
        cases hs
        refine h.move (fun _ => ⟨rfl, rfl⟩) fun _ => ⟨fun id n hq _ => ?_, nofun⟩
        -- no read is in progress
        have := ((strongZero_iff.mp hz).2 _ hq).1
        cases this
      · rename_i hz
        cases hs
        refine h.move (fun hr => ?_) fun hw => (weakZero_writing ht rfl hw).elim
        exact (hz (strongZero_iff.mpr ⟨hr, h.readers hr⟩)).elim
    | _ => simp [ht] at hs

theorem writePush (h : Inv s) (hs : Pipe.step s (.writePush t) = some (s', r)) : Inv s' := by
  unfold Pipe.step at hs
  cases ht : s.threads[t]? with
  | none => simp [ht] at hs
  | some p =>
    cases p with
    | writeUp id bytes =>
      simp only [ht] at hs
      cases hs
      refine ⟨?_, fun hr => (h.reading ht (.inr rfl) hr).elim,
        fun hw => (weakZero_writing ht rfl hw).elim⟩
      change s.taken ++ (s.queue ++ bytes) = s.accepted ++ bytes
      rw [← h.fifo, List.append_assoc]
    | _ => simp [ht] at hs

theorem writeReturn (h : Inv s) (hok : Orderly s (.writeReturn t))
    (hs : Pipe.step s (.writeReturn t) = some (s', r)) : Inv s' := by
  unfold Pipe.step at hs
  cases ht : s.threads[t]? with
  | none => simp [ht] at hs
  | some p =>
    cases p with
    | writeDone id n =>
      simp only [ht] at hs
      cases hs
      exact h.move (fun hr => (h.reading ht (.inr rfl) hr).elim) fun hw => ⟨hok hw, nofun⟩
    | _ => simp [ht] at hs

theorem dup {new : Nat} {buf : List UInt8} (h : Inv s)
    (hs : Pipe.step s (.dup id new buf) = some (s', r)) : Inv s' := by
  simp only [Pipe.step] at hs
  split at hs
  · split at hs
    · cases hs
      exact h
    · cases hs
      exact ⟨h.fifo, nofun, h.missed⟩
  · split at hs
    · split at hs
      · cases hs
        exact h
      · cases hs
        refine ⟨h.fifo, h.readers, fun hw => ?_⟩
        cases (weakZero_iff.mp hw).1
    · cases hs
      exact h

theorem step (h : Inv s) (hok : Orderly s act) (hs : Pipe.step s act = some (s', r)) : Inv s' := by
  cases act with
  | readStart t id n =>
    simp only [Pipe.step] at hs
    split at hs
    · rename_i ht
      split at hs
      · rename_i hid
        cases hs
        refine h.moveReading ht rfl (fun hr => ?_) nofun
        rw [hr] at hid
        cases hid
      · cases hs
        exact h
    · cases hs
  | readTake t => exact h.readTake hs
  | readTest t => exact h.readTest hs
  | wake t => exact h.wake hs
  | writeStart t id bytes =>
    simp only [Pipe.step] at hs
    split at hs
    · rename_i ht
      split at hs
      · cases hs
        exact h.move (fun _ => ⟨rfl, rfl⟩) fun hw => (weakZero_writing ht rfl hw).elim
      · cases hs
        exact h
    · cases hs
  | writeUpgrade t => exact h.writeUpgrade hs
  | writePush t => exact h.writePush hs
  | writeReturn t => exact h.writeReturn hok hs
  | dup id new buf => exact h.dup hs
  | close id =>
    cases hs
    refine ⟨h.fifo, hok.1, fun hw => ?_⟩
    obtain ⟨hwriters, hthreads⟩ := weakZero_iff.mp hw
    exact hok.2 hwriters hthreads
  | fcntl id cmd arg =>
    simp only [Pipe.step] at hs
    split at hs
    · split at hs
      · cases hs
        exact h
      · split at hs
        · cases hs
          exact ⟨h.fifo, h.readers, h.missed⟩
        · cases hs
          exact h
    · cases hs
      exact h

end Inv

theorem pipe_inv (flags readId writeId threads : Nat) : Inv (State.pipe flags readId writeId threads) :=
  ⟨rfl, nofun, fun hw => nomatch (weakZero_iff.mp hw).1⟩

/-- The replies of a call that a step ends: a write is refused exactly without a reading handle, and a
read finds the end only without writing handles and with nothing in the queue. -/
structure Faithful (s : State) (act : Act) : Prop where
  refused : ∀ s', step s act = some (s', some (.error EPIPE)) → s'.readers = []
  wrote : ∀ t s' r, act = .writeReturn t → step s act = some (s', r) → s'.readers ≠ []
  ended : ∀ s', step s act = some (s', some (.bytes [])) →
    ∃ t id n, act = .readTest t ∧ s.threads[t]? = some (.readEmpty id n) ∧
      (0 < n → s'.writers = [] ∧ s'.queue = [])

/-- Only the upgrade of a write is refused with `EPIPE`. -/
theorem refused_strongZero (hs : step s act = some (s', some (.error EPIPE))) :
    s.strongZero = true ∧ s'.readers = s.readers := by
  cases act <;> simp only [step] at hs
  case writeUpgrade t =>
    split at hs
    · split at hs
      · rename_i hz
        cases hs
        exact ⟨hz, rfl⟩
      · cases hs
    · cases hs
  all_goals
    repeat' split at hs
    all_goals simp [EBADF, EAGAIN, EINVAL, EPIPE] at hs

/-- Only the test for the end gives nothing. -/
theorem ended_weakZero (hs : step s act = some (s', some (.bytes []))) :
    ∃ t id n, act = .readTest t ∧ s.threads[t]? = some (.readEmpty id n) ∧ s.weakZero = true ∧
      s' = s.withPhase t .idle := by
  cases act <;> simp only [step] at hs
  case readTake t =>
    split at hs
    · split at hs
      · cases hs
      · rename_i hsome
        exact (hsome (by simpa using (Prod.mk.inj (Option.some.inj hs)).2)).elim
    · cases hs
  case readTest t =>
    split at hs
    · rename_i id n ht
      split at hs
      · rename_i hz
        cases hs
        exact ⟨t, id, n, rfl, ht, hz, rfl⟩
      · split at hs
        · cases hs
        · cases hs
    · cases hs
  all_goals
    repeat' split at hs
    all_goals simp at hs

theorem Inv.faithful (h : Inv s) (act : Act) : Faithful s act := by
  refine ⟨fun s' hs => ?_, fun t s' r hact hs => ?_, fun s' hs => ?_⟩
  · obtain ⟨hz, hr⟩ := refused_strongZero hs
    rw [hr]
    exact (strongZero_iff.mp hz).1
  · subst hact
    simp only [Pipe.step] at hs
    split at hs
    · rename_i ht
      cases hs
      exact h.reading ht (.inr rfl)
    · cases hs
  · obtain ⟨t, id, n, hact, ht, hz, rfl⟩ := ended_weakZero hs
    refine ⟨t, id, n, hact, ht, fun hn => ⟨(weakZero_iff.mp hz).1, ?_⟩⟩
    exact h.missed hz id n (List.mem_of_getElem? ht) hn

/-- In every run in which sides of the pipe go at the right time, what was read and what is in the
queue is what was written, and replies tell who is left. -/
theorem pipe_is_fifo {flags readId writeId threads : Nat} {acts : List Act}
    (hrun : Run (Step Orderly) (State.pipe flags readId writeId threads) acts s) :
    s.taken ++ s.queue = s.accepted ∧ ∀ act, Faithful s act := by
  have hinv : Inv s := by
    refine hrun.invariant ?_ (pipe_inv flags readId writeId threads)
    rintro s act s' ⟨hok, r, hs⟩ h
    exact h.step hok hs
  exact ⟨hinv.fifo, hinv.faithful⟩

/-- A read finds the queue empty; then a byte is written and the writing handle closed; the read goes
on and reports the end. -/
theorem end_reported_with_byte_queued : ∃ s s' : State,
    Run (Step fun _ _ => True) (State.pipe 0 0 1 2) [.readStart 0 0 1, .readTake 0, .writeStart 1 1 [7],
      .writeUpgrade 1, .writePush 1, .writeReturn 1, .close 1] s ∧
    step s (.readTest 0) = some (s', some (.bytes [])) ∧ s'.queue = [7] ∧ ¬Faithful s (.readTest 0) := by
  refine ⟨_, _, .cons ⟨trivial, _, rfl⟩ (.cons ⟨trivial, _, rfl⟩ (.cons ⟨trivial, _, rfl⟩
    (.cons ⟨trivial, _, rfl⟩ (.cons ⟨trivial, _, rfl⟩ (.cons ⟨trivial, _, rfl⟩
    (.cons ⟨trivial, _, rfl⟩ .nil)))))), rfl, rfl, fun h => ?_⟩
  obtain ⟨t, id, n, hact, ht, hend⟩ := h.ended _ rfl
  cases hact
  cases ht
  cases (hend (by decide)).2

/-- A byte goes through the pipe, and the next read finds the end. -/
theorem byte_goes_through : ∃ s : State,
    Run (Step Orderly) (State.pipe 0 0 1 2) [.writeStart 1 1 [7], .writeUpgrade 1, .writePush 1,
      .writeReturn 1, .readStart 0 0 1, .readTake 0, .close 1, .readStart 0 0 1, .readTake 0] s ∧
    s.taken = [7] ∧ s.taken ++ s.queue = s.accepted ∧ Faithful s (.readTest 0) := by
  have hrun : Run (Step Orderly) (State.pipe 0 0 1 2) [.writeStart 1 1 [7], .writeUpgrade 1,
      .writePush 1, .writeReturn 1, .readStart 0 0 1, .readTake 0, .close 1, .readStart 0 0 1,
      .readTake 0] _ :=
    .cons ⟨trivial, _, rfl⟩ (.cons ⟨trivial, _, rfl⟩ (.cons ⟨trivial, _, rfl⟩
      (.cons ⟨fun h => absurd h (by decide), _, rfl⟩ (.cons ⟨trivial, _, rfl⟩ (.cons ⟨trivial, _, rfl⟩
      (.cons ⟨⟨fun h => absurd h (by decide), fun _ _ => nofun⟩, _, rfl⟩ (.cons ⟨trivial, _, rfl⟩ (.cons ⟨trivial, _, rfl⟩ .nil))))))))
  exact ⟨_, hrun, rfl, (pipe_is_fifo hrun).1, (pipe_is_fifo hrun).2 _⟩

end Origel.Kernel.Pipe
