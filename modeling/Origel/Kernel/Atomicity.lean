import Origel.Kernel.Events
import Origel.Kernel.Privilege
import Origel.Numbers

/-! What the calls that make descriptors leave behind when they fail. -/
namespace Origel.Kernel.Files

open Privilege (Stat perm)

variable {s s' : State} {pid fd t n : Nat} {file f : File} {files files' : Table}

/-- The lowest slot that is free, or the one after the last -/
def freeFd (files : Table) : Nat := files.findIdx Option.isNone

/-- How many files can still be added. -/
def free (files : Table) : Nat := files.count none + (CONTEXT_MAX_FILES - files.length)

namespace State

/-- `add_file` for a handle that a scheme has given out -/
def addHandle (s : State) (t scheme number : Nat) : Except Nat Nat × State :=
  let s := s.give scheme number
  match addFile ⟨scheme, number, none⟩ (s.tables t) with
  | some files => (.ok (freeFd (s.tables t)), s.setTable t files)
  | none => (.error EMFILE, s)

/-- `open`, after the lookup of the scheme and the scheme's answer -/
def openCall (s : State) (pid : Nat) (opened : Except Nat (Nat × Nat)) : Except Nat Nat × State :=
  match s.table pid with
  | none => (.error ESRCH, s)
  | some t =>
    match opened with
    | .error e => (.error e, s)
    | .ok (scheme, number) => s.addHandle t scheme number

def dupCall (s : State) (pid fd : Nat) (duped : Except Nat Nat) : Except Nat Nat × State :=
  match s.table pid with
  | none => (.error ESRCH, s)
  | some t =>
    match getFile (s.tables t) fd with
    | none => (.error EBADF, s)
    | some file =>
      match duped with
      | .error e => (.error e, s)
      | .ok number => s.addHandle t file.scheme number

/-- `pipe2` with so many places for descriptors. Both ends are open before the context is looked up. -/
def pipe2Call (s : State) (pid len scheme readId writeId : Nat) : Except Nat Nat × State :=
  if len ≥ 2 then
    let s := (s.give scheme readId).give scheme writeId
    match s.table pid with
    | none => (.error ESRCH, s)
    | some t =>
      match addFile ⟨scheme, readId, none⟩ (s.tables t) with
      | none => (.error EMFILE, s)
      | some files =>
        let s := s.setTable t files
        match addFile ⟨scheme, writeId, none⟩ (s.tables t) with
        | none => (.error EMFILE, s)
        | some files => (.ok 0, s.setTable t files)
  else (.error EFAULT, s)

end State

/-- What an `exec` comes upon: an argument that is not in memory, the answers of the scheme of the
program, whether the program is one, and the answers of all schemes to the duplication of files. -/
structure Program where
  args : Option Nat
  opened : Except Nat (Nat × Nat)
  fstat : Except Nat Stat
  read : Except Nat Nat
  elf : Bool
  answers : Nat → Option Nat

/-- `exec`, with the error that it returns, if it returns -/
def State.execCall (s : State) (pid uid gid : Nat) (p : Program) : Option Nat × State :=
  match p.args with
  | some e => (some e, s)
  | none =>
    match s.openCall pid p.opened with
    | (.error e, s) => (some e, s)
    | (.ok fd, s) =>
      match p.fstat with
      | .error e => (some e, s)
      | .ok stat =>
        if perm stat uid gid &&& 0o1 ≠ 0o1 then (some EACCES, s.close pid fd)
        else
          match p.read with
          | .error e => (some e, s)
          | .ok _ =>
            let s := s.close pid fd
            if p.elf then (none, s.exec pid p.answers) else (some ENOEXEC, s)

inductive Call where
  | openFile (opened : Except Nat (Nat × Nat))
  | dup (fd : Nat) (duped : Except Nat Nat)
  | pipe2 (len scheme readId writeId : Nat)
  | exec (uid gid : Nat) (p : Program)

/-- The error of a result -/
def failure (r : Except Nat Nat × State) : Option Nat × State :=
  match r.1 with
  | .error e => (some e, r.2)
  | .ok _ => (none, r.2)

/-- The call with the error that it returns, if it does. -/
def State.call (s : State) (pid : Nat) : Call → Option Nat × State
  | .openFile opened => failure (s.openCall pid opened)
  | .dup fd duped => failure (s.dupCall pid fd duped)
  | .pipe2 len scheme readId writeId => failure (s.pipe2Call pid len scheme readId writeId)
  | .exec uid gid p => s.execCall pid uid gid p

/-- The descriptors of a context and the handles of all schemes are what they were. -/
structure Unchanged (pid : Nat) (s s' : State) : Prop where
  files : ∀ fd, s'.fileOf pid fd = s.fileOf pid fd
  handles : s'.handles.Perm s.handles

/-- If the call returns an error, nothing has changed. -/
def Atomic (s : State) (pid : Nat) (call : Call) : Prop :=
  ∀ e, (s.call pid call).1 = some e → Unchanged pid s (s.call pid call).2

/-- The handles that the schemes give out find their slots, and after that nothing fails before the
file is closed again. -/
def FindsRoom (s : State) (pid : Nat) : Call → Prop
  | .openFile opened => ∀ t x, s.table pid = some t → opened = .ok x → 1 ≤ free (s.tables t)
  | .dup fd duped => ∀ t file number, s.table pid = some t → getFile (s.tables t) fd = some file →
      duped = .ok number → 1 ≤ free (s.tables t)
  | .pipe2 len _ _ _ => len ≥ 2 → ∃ t, s.table pid = some t ∧ 2 ≤ free (s.tables t)
  | .exec uid gid p => ∀ t x, s.table pid = some t → p.args = none → p.opened = .ok x →
      1 ≤ free (s.tables t) ∧ ∃ stat, p.fstat = .ok stat ∧
        (perm stat uid gid &&& 0o1 = 0o1 → ∃ count, p.read = .ok count)

theorem freeFd_cons (o : Option File) (files : Table) :
    freeFd (o :: files) = if o.isNone then 0 else freeFd files + 1 := by
  rw [freeFd, List.findIdx_cons]
  cases o <;> rfl

theorem addSlot_eq (file : File) (files : Table) : addSlot file files =
    if freeFd files < files.length then some (files.set (freeFd files) (some file)) else none := by
  induction files with
  | nil => rfl
  | cons o files ih =>
    rw [freeFd_cons]
    cases o with
    | none => rfl
    | some f =>
      rw [addSlot, ih]
      by_cases h : freeFd files < files.length
      · rw [if_pos h]
        simp [h]
      · rw [if_neg h]
        simp [h]

/-- There is a slot before the end of the table, or the table can grow. -/
theorem addFile_eq (file : File) (files : Table) : addFile file files =
    if freeFd files < files.length then some (files.set (freeFd files) (some file))
    else if files.length < CONTEXT_MAX_FILES then some (files ++ [some file]) else none := by
  rw [addFile, addSlot_eq]
  by_cases h : freeFd files < files.length
  · rw [if_pos h, if_pos h]
  · rw [if_neg h, if_neg h]

theorem freeFd_le (files : Table) : freeFd files ≤ files.length := List.findIdx_le_length

theorem freeFd_lt_iff : freeFd files < files.length ↔ 1 ≤ files.count none := by
  rw [freeFd, List.findIdx_lt_length, Nat.succ_le_iff, List.count_pos_iff]
  constructor
  · rintro ⟨o, ho, hnone⟩
    cases o with
    | none => exact ho
    | some f => cases hnone
  · intro h
    exact ⟨none, h, rfl⟩

theorem getElem?_freeFd (h : freeFd files < files.length) : files[freeFd files]? = some none := by
  have hslot := List.findIdx_getElem (w := h)
  rw [List.getElem?_eq_getElem h, Option.some_inj]
  exact Option.isNone_iff_eq_none.mp hslot

/-- The new descriptor had no file. -/
theorem getFile_freeFd (files : Table) : getFile files (freeFd files) = none := by
  rcases (freeFd_le files).lt_or_eq with h | h
  · rw [getFile, getElem?_freeFd h]
    rfl
  · rw [getFile, List.getElem?_eq_none h.ge]
    rfl

theorem count_set_none {i : Nat} (h : files[i]? = some none) :
    (files.set i (some file)).count none + 1 = files.count none := by
  induction files generalizing i with
  | nil => cases h
  | cons o files ih =>
    cases i with
    | zero =>
      obtain rfl : o = none := by simpa using h
      simp
    | succ i =>
      have := ih (by simpa using h)
      simp only [List.set_cons_succ, List.count_cons]
      omega

/-- A file takes one of the free places. -/
theorem free_addFile (h : addFile file files = some files') : free files' + 1 = free files := by
  rw [addFile_eq] at h
  by_cases hslot : freeFd files < files.length
  · rw [if_pos hslot] at h
    cases h
    have : (files.set (freeFd files) (some file)).count none + 1 = files.count none :=
      count_set_none (getElem?_freeFd hslot)
    rw [free, free, List.length_set]
    omega
  · rw [if_neg hslot] at h
    by_cases hlen : files.length < CONTEXT_MAX_FILES
    · rw [if_pos hlen] at h
      cases h
      have hcount : (files ++ [some file]).count none = files.count none := by simp
      rw [free, free, hcount, List.length_append, List.length_singleton]
      omega
    · rw [if_neg hlen] at h
      cases h

theorem addFile_none_iff : addFile file files = none ↔ free files = 0 := by
  rw [addFile_eq]
  have hlt : freeFd files < files.length ↔ 1 ≤ files.count none := freeFd_lt_iff
  by_cases hslot : freeFd files < files.length
  · have := hlt.mp hslot
    rw [if_pos hslot, free]
    constructor
    · intro h
      cases h
    · omega
  · rw [if_neg hslot, free]
    by_cases hlen : files.length < CONTEXT_MAX_FILES
    · rw [if_pos hlen]
      constructor
      · intro h
        cases h
      · omega
    · rw [if_neg hlen]
      constructor
      · omega
      · intro
        rfl

/-- The file is at the new descriptor, and nothing else has changed. -/
theorem getFile_added (h : addFile file files = some files') (fd : Nat) :
    getFile files' fd = if fd = freeFd files then some file else getFile files fd := by
  rw [addFile_eq] at h
  by_cases hslot : freeFd files < files.length
  · rw [if_pos hslot] at h
    cases h
    rw [getFile, List.getElem?_set]
    by_cases hfd : fd = freeFd files
    · rw [if_pos hfd.symm, if_pos hfd, if_pos hslot]
      rfl
    · rw [if_neg (Ne.symm hfd), if_neg hfd]
      rfl
  · rw [if_neg hslot] at h
    by_cases hlen : files.length < CONTEXT_MAX_FILES
    · rw [if_pos hlen] at h
      cases h
      have hend : freeFd files = files.length := le_antisymm (freeFd_le files) (not_lt.mp hslot)
      rw [hend, getFile, getFile]
      rcases lt_trichotomy fd files.length with hfd | hfd | hfd
      · rw [List.getElem?_append_left hfd, if_neg hfd.ne]
      · rw [if_pos hfd, hfd]
        simp
      · rw [if_neg hfd.ne', List.getElem?_eq_none, List.getElem?_eq_none hfd.le]
        rw [List.length_append, List.length_singleton]
        omega
    · rw [if_neg hlen] at h
      cases h

theorem getFile_removed (files : Table) (fd fd' : Nat) :
    getFile (removeFile files fd) fd' = if fd' = fd then none else getFile files fd' := by
  rw [getFile, removeFile, List.getElem?_set]
  by_cases h : fd' = fd
  · rw [if_pos h.symm, if_pos h]
    split <;> rfl
  · rw [if_neg (Ne.symm h), if_neg h]
    rfl

theorem Unchanged.refl (pid : Nat) (s : State) : Unchanged pid s s :=
  ⟨fun _ => rfl, List.Perm.refl _⟩

theorem not_unchanged (h : s.handles.length < s'.handles.length) : ¬ Unchanged pid s s' := by
  intro hs
  have := hs.handles.length_eq
  omega

variable {scheme number : Nat}

theorem not_unchanged_give : ¬ Unchanged pid s (s.give scheme number) :=
  not_unchanged (Nat.lt_succ_self _)

/-- The slot comes after the handle: without one the handle stays open. -/
theorem addHandle_full (h : free (s.tables t) = 0) :
    s.addHandle t scheme number = (.error EMFILE, s.give scheme number) := by
  have hadd : addFile ⟨scheme, number, none⟩ ((s.give scheme number).tables t) = none :=
    addFile_none_iff.mpr h
  rw [State.addHandle]
  simp only [hadd]

theorem addHandle_fits (scheme number : Nat) (h : 1 ≤ free (s.tables t)) :
    ∃ files, addFile ⟨scheme, number, none⟩ (s.tables t) = some files ∧
      s.addHandle t scheme number =
        (.ok (freeFd (s.tables t)), (s.give scheme number).setTable t files) := by
  cases hadd : addFile ⟨scheme, number, none⟩ (s.tables t) with
  | none =>
    have := addFile_none_iff.mp hadd
    omega
  | some files =>
    have hgive : addFile ⟨scheme, number, none⟩ ((s.give scheme number).tables t) = some files := hadd
    refine ⟨files, rfl, ?_⟩
    rw [State.addHandle]
    simp only [hgive]
    rfl

/-- A handle is undone by nobody. -/
theorem addHandle_atomic_iff :
    (∀ e, (failure (s.addHandle t scheme number)).1 = some e →
      Unchanged pid s (failure (s.addHandle t scheme number)).2) ↔ 1 ≤ free (s.tables t) := by
  constructor
  · intro h
    by_contra hfree
    rw [addHandle_full (by omega)] at h
    exact not_unchanged_give (h EMFILE rfl)
  · intro h e he
    obtain ⟨files, -, heq⟩ := addHandle_fits scheme number h
    rw [heq] at he
    cases he

/-- Closing the new descriptor undoes the call. -/
theorem close_added (ht : s.table pid = some t)
    (h : addFile ⟨scheme, number, none⟩ (s.tables t) = some files) :
    Unchanged pid s (((s.give scheme number).setTable t files).close pid (freeFd (s.tables t))) := by
  have htable : ((s.give scheme number).setTable t files).tables t = files := Function.update_self ..
  have hfile : getFile files (freeFd (s.tables t)) = some ⟨scheme, number, none⟩ := by
    rw [getFile_added h, if_pos rfl]
  have hclose : ((s.give scheme number).setTable t files).close pid (freeFd (s.tables t)) =
      (((s.give scheme number).setTable t files).setTable t
        (removeFile files (freeFd (s.tables t)))).schemeClose ⟨scheme, number, none⟩ := by
    have ht' : ((s.give scheme number).setTable t files).table pid = some t := ht
    simp only [State.close, ht', htable, hfile]
    rfl
  rw [hclose]
  constructor
  · intro fd
    have ht' : ((((s.give scheme number).setTable t files).setTable t
        (removeFile files (freeFd (s.tables t)))).schemeClose ⟨scheme, number, none⟩).table pid = some t := ht
    rw [State.fileOf_eq ht, State.fileOf_eq ht']
    have hend : ((((s.give scheme number).setTable t files).setTable t
        (removeFile files (freeFd (s.tables t)))).schemeClose ⟨scheme, number, none⟩).tables t =
        removeFile files (freeFd (s.tables t)) := Function.update_self ..
    rw [hend, getFile_removed]
    by_cases hfd : fd = freeFd (s.tables t)
    · rw [if_pos hfd, hfd, getFile_freeFd]
    · rw [if_neg hfd, getFile_added h, if_neg hfd]
  · have hlist : (((s.give scheme number).setTable t files).setTable t
        (removeFile files (freeFd (s.tables t)))).handles = (scheme, number) :: s.handles := rfl
    rw [State.schemeClose, hlist, List.erase_cons_head]

theorem addHandle_state : (s.addHandle t scheme number).2 = (s.give scheme number).store t scheme number := by
  rw [State.addHandle, State.store]
  cases addFile ⟨scheme, number, none⟩ ((s.give scheme number).tables t) <;> rfl

/-- With their results left out, the calls are the steps of the descriptor tables. -/
theorem openCall_state : (s.openCall pid (.ok (scheme, number))).2 = s.openFile pid scheme (some number) := by
  cases ht : s.table pid with
  | none => simp only [State.openCall, State.openFile, ht]
  | some t =>
    simp only [State.openCall, State.openFile, ht]
    exact addHandle_state

theorem dupCall_state {duped : Except Nat Nat} :
    (s.dupCall pid fd duped).2 = s.dup pid fd duped.toOption := by
  cases ht : s.table pid with
  | none => simp only [State.dupCall, State.dup, ht]
  | some t =>
    cases hf : getFile (s.tables t) fd with
    | none => simp only [State.dupCall, State.dup, ht, hf]
    | some file =>
      cases duped with
      | error e => simp only [State.dupCall, State.dup, ht, hf, Except.toOption]
      | ok number =>
        simp only [State.dupCall, State.dup, ht, hf, Except.toOption]
        exact addHandle_state

theorem pipe2Call_state {len readId writeId : Nat} (hlen : len ≥ 2) (ht : s.table pid = some t) :
    (s.pipe2Call pid len scheme readId writeId).2 = s.pipe2 pid scheme readId writeId := by
  have ht' : ((s.give scheme readId).give scheme writeId).table pid = some t := ht
  cases hadd : addFile ⟨scheme, readId, none⟩ (((s.give scheme readId).give scheme writeId).tables t) with
  | none => simp only [State.pipe2Call, State.pipe2, if_pos hlen, ht, ht', hadd]
  | some files =>
    simp only [State.pipe2Call, State.pipe2, if_pos hlen, ht, ht', hadd, State.store]
    cases addFile ⟨scheme, writeId, none⟩
      ((((s.give scheme readId).give scheme writeId).setTable t files).tables t) <;> rfl

/-- Both ends of a pipe are given before either slot, and the first keeps its slot when the second
finds none. -/
theorem pipe2Call_cases (s : State) (pid scheme readId writeId : Nat) {len : Nat} (hlen : len ≥ 2) :
    (∃ t, s.table pid = some t ∧ 2 ≤ free (s.tables t)) ∧
        (∃ s', s.pipe2Call pid len scheme readId writeId = (.ok 0, s')) ∨
      ¬ (∃ t, s.table pid = some t ∧ 2 ≤ free (s.tables t)) ∧
        ∃ e s', s.pipe2Call pid len scheme readId writeId = (.error e, s') ∧
          s.handles.length < s'.handles.length := by
  have hgiven : s.handles.length < (((s.give scheme readId).give scheme writeId).handles).length := by
    change s.handles.length < s.handles.length + 1 + 1
    omega
  cases ht : s.table pid with
  | none =>
    right
    refine ⟨by simp, ESRCH, (s.give scheme readId).give scheme writeId, ?_, hgiven⟩
    have ht' : ((s.give scheme readId).give scheme writeId).table pid = none := ht
    simp only [State.pipe2Call, if_pos hlen, ht']
  | some t =>
    have ht' : ((s.give scheme readId).give scheme writeId).table pid = some t := ht
    have htables : ((s.give scheme readId).give scheme writeId).tables t = s.tables t := rfl
    cases hfirst : addFile ⟨scheme, readId, none⟩ (s.tables t) with
    | none =>
      have hfull := addFile_none_iff.mp hfirst
      right
      refine ⟨?_, EMFILE, (s.give scheme readId).give scheme writeId, ?_, hgiven⟩
      · rintro ⟨t', heq, hfree⟩
        cases heq
        omega
      · simp only [State.pipe2Call, if_pos hlen, ht', htables, hfirst]
    | some files =>
      have hone := free_addFile hfirst
      have hfiles : (((s.give scheme readId).give scheme writeId).setTable t files).tables t = files :=
        Function.update_self ..
      cases hsecond : addFile ⟨scheme, writeId, none⟩ files with
      | none =>
        have hfull := addFile_none_iff.mp hsecond
        right
        refine ⟨?_, EMFILE, ((s.give scheme readId).give scheme writeId).setTable t files, ?_, hgiven⟩
        · rintro ⟨t', heq, hfree⟩
          cases heq
          omega
        · simp only [State.pipe2Call, if_pos hlen, ht', htables, hfirst, hfiles, hsecond]
      | some files' =>
        have htwo := free_addFile hsecond
        left
        refine ⟨⟨t, rfl, by omega⟩,
          (((s.give scheme readId).give scheme writeId).setTable t files).setTable t files', ?_⟩
        simp only [State.pipe2Call, if_pos hlen, ht', htables, hfirst, hfiles, hsecond]

theorem pipe2_atomic_iff {len readId writeId : Nat} :
    Atomic s pid (.pipe2 len scheme readId writeId) ↔ FindsRoom s pid (.pipe2 len scheme readId writeId) := by
  by_cases hlen : len ≥ 2
  · rcases pipe2Call_cases s pid scheme readId writeId hlen with ⟨hroom, s', heq⟩ | ⟨hroom, e, s', heq, hlt⟩
    · refine iff_of_true ?_ fun _ => hroom
      intro e he
      rw [State.call, heq] at he
      cases he
    · refine iff_of_false ?_ fun h => hroom (h hlen)
      intro h
      rw [Atomic, State.call, heq] at h
      exact not_unchanged hlt (h e rfl)
  · refine iff_of_true ?_ fun h => absurd h hlen
    intro e _
    rw [State.call, State.pipe2Call, if_neg hlen]
    exact Unchanged.refl pid s

theorem open_atomic_iff {opened : Except Nat (Nat × Nat)} :
    Atomic s pid (.openFile opened) ↔ FindsRoom s pid (.openFile opened) := by
  cases ht : s.table pid with
  | none =>
    refine iff_of_true ?_ ?_
    · intro e _
      simp only [State.call, State.openCall, ht]
      exact Unchanged.refl pid s
    · intro t x heq
      rw [ht] at heq
      cases heq
  | some t =>
    cases opened with
    | error e =>
      refine iff_of_true ?_ ?_
      · intro e' _
        simp only [State.call, State.openCall, ht]
        exact Unchanged.refl pid s
      · intro t' x _ heq
        cases heq
    | ok x =>
      have hcall : s.openCall pid (.ok x) = s.addHandle t x.1 x.2 := by
        rw [State.openCall, ht]
      rw [Atomic, State.call, hcall, addHandle_atomic_iff]
      constructor
      · intro h t' y ht' _
        cases ht.symm.trans ht'
        exact h
      · intro h
        exact h t x ht rfl

theorem dup_atomic_iff {duped : Except Nat Nat} :
    Atomic s pid (.dup fd duped) ↔ FindsRoom s pid (.dup fd duped) := by
  cases ht : s.table pid with
  | none =>
    refine iff_of_true ?_ ?_
    · intro e _
      simp only [State.call, State.dupCall, ht]
      exact Unchanged.refl pid s
    · intro t file number heq
      rw [ht] at heq
      cases heq
  | some t =>
    cases hf : getFile (s.tables t) fd with
    | none =>
      refine iff_of_true ?_ ?_
      · intro e _
        simp only [State.call, State.dupCall, ht, hf]
        exact Unchanged.refl pid s
      · intro t' file number heq hfile
        cases ht.symm.trans heq
        rw [hf] at hfile
        cases hfile
    | some file =>
      cases duped with
      | error e =>
        refine iff_of_true ?_ ?_
        · intro e' _
          simp only [State.call, State.dupCall, ht, hf]
          exact Unchanged.refl pid s
        · intro t' file' number _ _ heq
          cases heq
      | ok number =>
        have hcall : s.dupCall pid fd (.ok number) = s.addHandle t file.scheme number := by
          simp only [State.dupCall, ht, hf]
        rw [Atomic, State.call, hcall, addHandle_atomic_iff]
        constructor
        · intro h t' file' number' ht' _ _
          cases ht.symm.trans ht'
          exact h
        · intro h
          exact h t file number ht hf rfl

/-- An `exec` that has the descriptor of its program fails in the end with everything as it was if it
comes to the `close`. -/
theorem exec_opened_iff {uid gid : Nat} {p : Program} (ht : s.table pid = some t)
    (hargs : p.args = none) (hopened : p.opened = .ok (scheme, number)) (hfree : 1 ≤ free (s.tables t)) :
    Atomic s pid (.exec uid gid p) ↔ ∃ stat, p.fstat = .ok stat ∧
      (perm stat uid gid &&& 0o1 = 0o1 → ∃ count, p.read = .ok count) := by
  obtain ⟨files, hadd, hhandle⟩ := addHandle_fits scheme number hfree
  have hcall : s.openCall pid p.opened =
      (.ok (freeFd (s.tables t)), (s.give scheme number).setTable t files) := by
    rw [hopened, State.openCall, ht]
    exact hhandle
  have hleft : ¬ Unchanged pid s ((s.give scheme number).setTable t files) :=
    not_unchanged (Nat.lt_succ_self _)
  have hback := close_added ht hadd
  cases hstat : p.fstat with
  | error e =>
    refine iff_of_false ?_ ?_
    · intro h
      rw [Atomic, State.call, State.execCall] at h
      simp only [hargs, hcall, hstat] at h
      exact hleft (h e rfl)
    · rintro ⟨stat, heq, -⟩
      cases heq
  | ok stat =>
    by_cases hperm : perm stat uid gid &&& 0o1 = 0o1
    · cases hread : p.read with
      | error e =>
        refine iff_of_false ?_ ?_
        · intro h
          rw [Atomic, State.call, State.execCall] at h
          simp only [hargs, hcall, hstat, hread, ne_eq, hperm, not_true_eq_false, if_false] at h
          exact hleft (h e rfl)
        · rintro ⟨stat', heq, hok⟩
          cases heq
          obtain ⟨count, heq⟩ := hok hperm
          cases heq
      | ok count =>
        refine iff_of_true ?_ ⟨stat, rfl, fun _ => ⟨count, rfl⟩⟩
        intro e he
        rw [State.call, State.execCall] at he ⊢
        simp only [hargs, hcall, hstat, hread, ne_eq, hperm, not_true_eq_false, if_false] at he ⊢
        cases helf : p.elf with
        | true =>
          rw [helf] at he
          cases he
        | false => exact hback
    · refine iff_of_true ?_ ⟨stat, rfl, fun h => absurd h hperm⟩
      intro e _
      rw [State.call, State.execCall]
      simp only [hargs, hcall, hstat, ne_eq, hperm, not_false_eq_true, if_true]
      exact hback

theorem exec_atomic_iff {uid gid : Nat} {p : Program} :
    Atomic s pid (.exec uid gid p) ↔ FindsRoom s pid (.exec uid gid p) := by
  cases hargs : p.args with
  | some e =>
    refine iff_of_true ?_ ?_
    · intro e' _
      simp only [State.call, State.execCall, hargs]
      exact Unchanged.refl pid s
    · intro t x _ heq
      rw [hargs] at heq
      cases heq
  | none =>
    cases ht : s.table pid with
    | none =>
      refine iff_of_true ?_ ?_
      · intro e _
        simp only [State.call, State.execCall, hargs, State.openCall, ht]
        exact Unchanged.refl pid s
      · intro t x heq
        rw [ht] at heq
        cases heq
    | some t =>
      cases hopened : p.opened with
      | error e =>
        refine iff_of_true ?_ ?_
        · intro e' _
          simp only [State.call, State.execCall, hargs, State.openCall, ht, hopened]
          exact Unchanged.refl pid s
        · intro t' x _ _ heq
          rw [hopened] at heq
          cases heq
      | ok x =>
        obtain ⟨scheme, number⟩ := x
        by_cases hfree : 1 ≤ free (s.tables t)
        · rw [exec_opened_iff ht hargs hopened hfree]
          constructor
          · intro h t' x ht' _ _
            cases ht.symm.trans ht'
            exact ⟨hfree, h⟩
          · intro h
            exact (h t (scheme, number) ht hargs hopened).2
        · refine iff_of_false ?_ ?_
          · intro h
            have hcall : s.openCall pid p.opened = (.error EMFILE, s.give scheme number) := by
              rw [hopened, State.openCall, ht]
              exact addHandle_full (by omega)
            rw [Atomic, State.call, State.execCall] at h
            simp only [hargs, hcall] at h
            exact not_unchanged_give (h EMFILE rfl)
          · intro h
            exact hfree (h t (scheme, number) ht hargs hopened).1

/-- Calls that make descriptors fail without a trace exactly if they find the room they need. -/
theorem fails_without_trace_iff (s : State) (pid : Nat) (call : Call) :
    Atomic s pid call ↔ FindsRoom s pid call := by
  cases call with
  | openFile opened => exact open_atomic_iff
  | dup fd duped => exact dup_atomic_iff
  | pipe2 len scheme readId writeId => exact pipe2_atomic_iff
  | exec uid gid p => exact exec_atomic_iff

/-- A context that has opened all its files -/
def crowded : State := { boot 1 with
  tables := fun _ => List.replicate CONTEXT_MAX_FILES (some ⟨2, 0, none⟩)
  handles := List.replicate CONTEXT_MAX_FILES (2, 0) }

theorem free_crowded : free (crowded.tables 0) = 0 := by
  have htable : crowded.tables 0 = List.replicate CONTEXT_MAX_FILES (some ⟨2, 0, none⟩) := rfl
  have hcount : (crowded.tables 0).count none = 0 := by
    rw [htable, List.count_eq_zero]
    intro h
    cases List.eq_of_mem_replicate h
  rw [free, hcount, htable, List.length_replicate, Nat.zero_add, Nat.sub_self]

/-- With a full table, an `open` returns `EMFILE` and the handle of the scheme stays open. An `exec` of
a program that the scheme has opened and will not `fstat` leaves a descriptor as well. -/
theorem error_keeps_handle : ¬ Atomic crowded 1 (.openFile (.ok (2, 7))) ∧
    ¬ Atomic (boot 1) 1 (.exec 0 0 ⟨none, .ok (2, 7), .error 5, .ok 0, true, fun _ => none⟩) := by
  constructor
  · intro h
    have hcall : crowded.openCall 1 (.ok (2, 7)) = (.error EMFILE, crowded.give 2 7) := by
      have ht : crowded.table 1 = some 0 := rfl
      rw [State.openCall, ht]
      exact addHandle_full free_crowded
    rw [Atomic, State.call, hcall] at h
    exact not_unchanged_give (h EMFILE rfl)
  · intro h
    have hfile := (h 5 (by decide)).files 0
    revert hfile
    decide

end Origel.Kernel.Files
