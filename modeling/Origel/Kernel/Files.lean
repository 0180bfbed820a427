import Mathlib.Algebra.BigOperators.Group.Finset.Basic
import Mathlib.Data.List.Count
import Origel.Lib.Run

/-! Descriptor tables, the scheme handles they refer to, and the event registry. What a scheme answers
to a call is part of the label of a step. -/
namespace Origel.Kernel.Files

open Origel.Lib

structure File where
  scheme : Nat
  number : Nat
  event : Option Nat
  deriving DecidableEq, Repr

structure Event where
  id : Nat
  flags : Nat
  data : Nat
  deriving DecidableEq, Repr

/-- A descriptor table. Contexts hold tables by their number, several the same one after
`CLONE_FILES`. -/
abbrev Table := List (Option File)

/-- A handle is open as often as its scheme has given it out and not closed it since. The registry
has pairs of a scheme with an event id and a context with a descriptor. -/
structure State where
  contexts : List (Nat × Nat)
  tables : Nat → Table
  next : Nat
  handles : List (Nat × Nat)
  registry : List ((Nat × Nat) × (Nat × Nat))
  queues : Nat → List Event

def CONTEXT_MAX_FILES : Nat := 65536

def addSlot (file : File) : Table → Option Table
  | [] => none
  | none :: files => some (some file :: files)
  | some f :: files => (addSlot file files).map (some f :: ·)

/-- `Context::add_file` -/
def addFile (file : File) (files : Table) : Option Table :=
  match addSlot file files with
  | some files => some files
  | none => if files.length < CONTEXT_MAX_FILES then some (files ++ [some file]) else none

/-- `Context::get_file` -/
def getFile (files : Table) (fd : Nat) : Option File := (files[fd]?).join

/-- `Context::remove_file` -/
def removeFile (files : Table) (fd : Nat) : Table := files.set fd none

namespace State

/-- The number of the context's table. -/
def table (s : State) (pid : Nat) : Option Nat := s.contexts.lookup pid

def setTable (s : State) (t : Nat) (files : Table) : State :=
  { s with tables := Function.update s.tables t files }

/-- `Arc::strong_count` is 1. -/
def unshared (s : State) (t : Nat) : Bool := (s.contexts.filter (·.2 = t)).length = 1

/-- `event::register` -/
def register (s : State) (pid fd scheme event : Nat) : State :=
  if ((scheme, event), (pid, fd)) ∈ s.registry then s
  else { s with registry := ((scheme, event), (pid, fd)) :: s.registry }

/-- `event::unregister` -/
def unregister (s : State) (pid fd scheme event : Nat) : State :=
  { s with registry := s.registry.filter (· ≠ ((scheme, event), (pid, fd))) }

/-- Unregisters the event a descriptor has recorded. -/
def forget (s : State) (pid fd : Nat) (file : File) : State :=
  match file.event with
  | some event => s.unregister pid fd file.scheme event
  | none => s

/-- A scheme gives out a handle. -/
def give (s : State) (scheme number : Nat) : State :=
  { s with handles := (scheme, number) :: s.handles }

/-- A scheme closes a handle. -/
def schemeClose (s : State) (file : File) : State :=
  { s with handles := s.handles.erase (file.scheme, file.number) }

/-- Stores a new file; without a free descriptor the handle stays open and is not stored. -/
def store (s : State) (t scheme number : Nat) : State :=
  match addFile ⟨scheme, number, none⟩ (s.tables t) with
  | some files => s.setTable t files
  | none => s

def openFile (s : State) (pid scheme : Nat) (answer : Option Nat) : State :=
  match s.table pid, answer with
  | some t, some number => (s.give scheme number).store t scheme number
  | _, _ => s

def dup (s : State) (pid fd : Nat) (answer : Option Nat) : State :=
  match s.table pid with
  | some t =>
    match getFile (s.tables t) fd, answer with
    | some file, some number => (s.give file.scheme number).store t file.scheme number
    | _, _ => s
  | none => s

/-- Both ends are made first; the second is stored only if the first was. -/
def pipe2 (s : State) (pid scheme readId writeId : Nat) : State :=
  match s.table pid with
  | some t =>
    let s := (s.give scheme readId).give scheme writeId
    match addFile ⟨scheme, readId, none⟩ (s.tables t) with
    | some files => (s.setTable t files).store t scheme writeId
    | none => s
  | none => s

def close (s : State) (pid fd : Nat) : State :=
  match s.table pid with
  | some t =>
    match getFile (s.tables t) fd with
    | some file =>
      ((s.setTable t (removeFile (s.tables t) fd)).forget pid fd file).schemeClose file
    | none => s
  | none => s

/-- `file` is a copy both times: neither the taken nor the new event id reaches the table. -/
def fevent (s : State) (pid fd : Nat) (answer : Option Nat) : State :=
  match s.table pid with
  | some t =>
    match getFile (s.tables t) fd with
    | some file =>
      let s := s.forget pid fd file
      match answer with
      | some event => s.register pid fd file.scheme event
      | none => s
    | none => s
  | none => s

def trigger (s : State) (scheme event flags data : Nat) : State :=
  { s with queues := fun pid => s.queues pid ++ (s.registry.filter fun r =>
      r.1 = (scheme, event) ∧ r.2.1 = pid).map fun r => ⟨r.2.2, flags, data⟩ }

/-- The loop of `clone` over a copy of the table, from descriptor `fd` on. -/
def dupFiles (answers : Nat → Option Nat) : Nat → Table → State → Table × State
  | _, [], s => ([], s)
  | fd, none :: files, s =>
    let r := dupFiles answers (fd + 1) files s
    (none :: r.1, r.2)
  | fd, some file :: files, s =>
    match answers fd with
    | some number =>
      let r := dupFiles answers (fd + 1) files (s.give file.scheme number)
      (some ⟨file.scheme, number, none⟩ :: r.1, r.2)
    | none =>
      let r := dupFiles answers (fd + 1) files s
      (none :: r.1, r.2)

def newTable (s : State) (files : Table) : State :=
  { s.setTable s.next files with next := s.next + 1 }

def clone (s : State) (pid child : Nat) (share : Bool) (answers : Nat → Option Nat) : State :=
  match s.table pid, s.table child with
  | some t, none =>
    if share then { s with contexts := (child, t) :: s.contexts }
    else
      let r := dupFiles answers 0 (s.tables t) s
      let s := r.2.newTable r.1
      { s with contexts := (child, s.next - 1) :: s.contexts }
  | _, _ => s

/-- The loop of `exec`: each file is duplicated and the previous one closed. -/
def execFiles (pid : Nat) (answers : Nat → Option Nat) : Nat → Table → State → Table × State
  | _, [], s => ([], s)
  | fd, none :: files, s =>
    let r := execFiles pid answers (fd + 1) files s
    (none :: r.1, r.2)
  | fd, some file :: files, s =>
    match answers fd with
    | some number =>
      let r := execFiles pid answers (fd + 1) files
        (((s.give file.scheme number).forget pid fd file).schemeClose file)
      (some ⟨file.scheme, number, none⟩ :: r.1, r.2)
    | none =>
      let r := execFiles pid answers (fd + 1) files ((s.forget pid fd file).schemeClose file)
      (none :: r.1, r.2)

/-- Gives a context another table. -/
def hold (s : State) (pid t : Nat) : State :=
  { s with contexts := s.contexts.map fun c => if c.1 = pid then (pid, t) else c }

def exec (s : State) (pid : Nat) (answers : Nat → Option Nat) : State :=
  match s.table pid with
  | some t =>
    let r := execFiles pid answers 0 (s.tables t) s
    (r.2.newTable r.1).hold pid s.next
  | none => s

/-- A descriptor whose `dup` fails is not in the table of the child. -/
theorem dupFiles_unanswered {answers : Nat → Option Nat} {n i : Nat} {files : Table} {s : State}
    (hi : i < files.length) (ha : answers (n + i) = none) :
    (dupFiles answers n files s).1[i]? = some none := by
  induction files generalizing n i s with
  | nil => simp at hi
  | cons o files ih =>
    cases i with
    | zero =>
      cases o with
      | none => rfl
      | some f =>
        rw [Nat.add_zero] at ha
        simp [dupFiles, ha]
    | succ i =>
      have hnext : ∀ s, (dupFiles answers (n + 1) files s).1[i]? = some none := by
        intro s
        apply ih (by simpa using hi)
        rwa [Nat.add_assoc, Nat.add_comm 1]
      cases o with
      | none => simp [dupFiles, hnext]
      | some f => cases h : answers n <;> simp [dupFiles, h, hnext]

/-- A descriptor whose `dup` fails is not in the table after an `exec`. -/
theorem execFiles_unanswered {pid : Nat} {answers : Nat → Option Nat} {n i : Nat} {files : Table}
    {s : State} (hi : i < files.length) (ha : answers (n + i) = none) :
    (execFiles pid answers n files s).1[i]? = some none := by
  induction files generalizing n i s with
  | nil => simp at hi
  | cons o files ih =>
    cases i with
    | zero =>
      cases o with
      | none => rfl
      | some f =>
        rw [Nat.add_zero] at ha
        simp [execFiles, ha]
    | succ i =>
      have hnext : ∀ s, (execFiles pid answers (n + 1) files s).1[i]? = some none := by
        intro s
        apply ih (by simpa using hi)
        rwa [Nat.add_assoc, Nat.add_comm 1]
      cases o with
      | none => simp [execFiles, hnext]
      | some f => cases h : answers n <;> simp [execFiles, h, hnext]

/-- The loop of `exit`. -/
def closeFiles (pid : Nat) : Nat → Table → State → State
  | _, [], s => s
  | fd, none :: files, s => closeFiles pid (fd + 1) files s
  | fd, some file :: files, s =>
    closeFiles pid (fd + 1) files ((s.forget pid fd file).schemeClose file)

/-- The files are closed if the table is not shared; the context uses it no longer. -/
def exit (s : State) (pid : Nat) : State :=
  match s.table pid with
  | some t =>
    let gone := { s with contexts := s.contexts.filter (·.1 ≠ pid) }
    if s.unshared t then closeFiles pid 0 (s.tables t) gone else gone
  | none => s

end State

inductive Act where
  | openFile (pid scheme : Nat) (answer : Option Nat)
  | dup (pid fd : Nat) (answer : Option Nat)
  | close (pid fd : Nat)
  | pipe2 (pid scheme readId writeId : Nat)
  | fevent (pid fd : Nat) (answer : Option Nat)
  | trigger (scheme event flags data : Nat)
  | clone (pid child : Nat) (share : Bool) (answers : Nat → Option Nat)
  | exec (pid : Nat) (answers : Nat → Option Nat)
  | exit (pid : Nat)

def step (s : State) : Act → State
  | .openFile pid scheme answer => s.openFile pid scheme answer
  | .dup pid fd answer => s.dup pid fd answer
  | .close pid fd => s.close pid fd
  | .pipe2 pid scheme readId writeId => s.pipe2 pid scheme readId writeId
  | .fevent pid fd answer => s.fevent pid fd answer
  | .trigger scheme event flags data => s.trigger scheme event flags data
  | .clone pid child share answers => s.clone pid child share answers
  | .exec pid answers => s.exec pid answers
  | .exit pid => s.exit pid

/-- A call that meets `P`. -/
def Step (P : State → Act → Prop) (s : State) (act : Act) (s' : State) : Prop :=
  P s act ∧ s' = step s act

/-- The first context has an empty table. -/
def boot (pid : Nat) : State := ⟨[(pid, 0)], fun _ => [], 1, [], [], fun _ => []⟩

end Origel.Kernel.Files
