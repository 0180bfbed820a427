import Origel.Kernel.Descriptors

/-! Which descriptors the event registry speaks of. -/
namespace Origel.Kernel.Files

open Origel.Lib

variable {s s' : State} {pid child q fd fd' t scheme number event : Nat} {file f : File}
  {files files' : Table} {answers : Nat → Option Nat} {answer : Option Nat} {act : Act}

/-- The file of a context's descriptor. -/
def State.fileOf (s : State) (pid fd : Nat) : Option File :=
  (s.table pid).bind fun t => getFile (s.tables t) fd

theorem State.fileOf_eq (ht : s.table pid = some t) : s.fileOf pid fd = getFile (s.tables t) fd := by
  simp [fileOf, ht]

/-- No table records an event: `fevent` sets it in a copy. -/
def NoEvents (s : State) : Prop := ∀ t, ∀ f, some f ∈ s.tables t → f.event = none

theorem mem_of_getFile (h : getFile files fd = some file) : some file ∈ files := by
  unfold getFile at h
  cases ho : files[fd]? with
  | none => simp [ho] at h
  | some o =>
    obtain rfl : o = some file := by simpa [ho] using h
    exact List.mem_of_getElem? ho

theorem mem_addSlot (h : addSlot file files = some files') (hf : some f ∈ files') :
    f = file ∨ some f ∈ files := by
  induction files generalizing files' with
  | nil => cases h
  | cons o files ih =>
    cases o with
    | none =>
      cases h
      rcases List.mem_cons.mp hf with hf | hf
      · exact Or.inl (Option.some.inj hf)
      · exact Or.inr (List.mem_cons_of_mem _ hf)
    | some g =>
      simp only [addSlot, Option.map_eq_some_iff] at h
      obtain ⟨files₁, h₁, rfl⟩ := h
      rcases List.mem_cons.mp hf with hf | hf
      · exact Or.inr (hf ▸ List.mem_cons_self)
      · exact (ih h₁ hf).imp_right (List.mem_cons_of_mem _)

theorem mem_addFile (h : addFile file files = some files') (hf : some f ∈ files') :
    f = file ∨ some f ∈ files := by
  unfold addFile at h
  split at h
  · rename_i files₁ h₁
    cases h
    exact mem_addSlot h₁ hf
  · split at h
    · cases h
      rcases List.mem_append.mp hf with hf | hf
      · exact Or.inr hf
      · exact Or.inl (by simpa using hf)
    · cases h

/-- Adding a file leaves the other descriptors alone. -/
theorem getFile_addSlot (h : addSlot file files = some files') (hf : getFile files fd = some f) :
    getFile files' fd = some f := by
  induction files generalizing files' fd with
  | nil => cases h
  | cons o files ih =>
    cases o with
    | none =>
      cases h
      cases fd with
      | zero => simp [getFile] at hf
      | succ fd => simpa [getFile] using hf
    | some g =>
      simp only [addSlot, Option.map_eq_some_iff] at h
      obtain ⟨files₁, h₁, rfl⟩ := h
      cases fd with
      | zero => simpa [getFile] using hf
      | succ fd => simpa [getFile] using ih h₁ (by simpa [getFile] using hf)

theorem getFile_addFile (h : addFile file files = some files') (hf : getFile files fd = some f) :
    getFile files' fd = some f := by
  unfold addFile at h
  split at h
  · rename_i files₁ h₁
    cases h
    exact getFile_addSlot h₁ hf
  · split at h
    · cases h
      unfold getFile at hf ⊢
      cases ho : files[fd]? with
      | none => simp [ho] at hf
      | some o =>
        obtain ⟨hlt, -⟩ := List.getElem?_eq_some_iff.mp ho
        rw [List.getElem?_append_left hlt, ho]
        simpa [ho] using hf
    · cases h

theorem getFile_removeFile (hne : fd' ≠ fd) : getFile (removeFile files fd) fd' = getFile files fd' := by
  simp only [getFile, removeFile, List.getElem?_set_ne hne.symm]

theorem mem_removeFile (h : some f ∈ removeFile files fd) : some f ∈ files := by
  rcases List.mem_or_eq_of_mem_set h with h | h
  · exact h
  · cases h

/-- The registered descriptors are open on their schemes with the event recorded. -/
def Follows (s : State) : Prop :=
  ∀ r ∈ s.registry, ∃ file, s.fileOf r.2.1 r.2.2 = some file ∧ file.scheme = r.1.1 ∧
    file.event = some r.1.2

/-- The registered descriptors are open on their schemes, each registered once, and no event is
queued for a descriptor that is not open. -/
structure StillOpen (s : State) : Prop where
  isOpen : ∀ r ∈ s.registry, ∃ file, s.fileOf r.2.1 r.2.2 = some file ∧ file.scheme = r.1.1
  once : (s.registry.map (·.2)).Nodup
  quiet : ∀ scheme event flags data pid e, e ∈ (s.trigger scheme event flags data).queues pid →
    e ∈ s.queues pid ∨ (s.fileOf pid e.id).isSome

/-- The call is a `fevent` on an open descriptor that its scheme agrees to. -/
def Registers (s : State) : Act → Prop
  | .fevent pid fd (some _) => (s.fileOf pid fd).isSome
  | _ => False

/-- No registered descriptor is closed or registered again, and no context with one executes or
exits. -/
def Undisturbed (s : State) : Act → Prop
  | .close pid fd => ∀ r ∈ s.registry, r.2.2 = fd → s.table r.2.1 ≠ s.table pid
  | .exec pid _ => ∀ r ∈ s.registry, r.2.1 ≠ pid
  | .exit pid => ∀ r ∈ s.registry, r.2.1 ≠ pid
  | .fevent pid fd _ => ∀ r ∈ s.registry, r.2 ≠ (pid, fd)
  | _ => True

/-- The call does not take the descriptor away. -/
def Spares (s : State) (q fd : Nat) : Act → Prop
  | .close pid fd' => fd = fd' → s.table q ≠ s.table pid
  | .exec pid _ => q ≠ pid
  | .exit pid => q ≠ pid
  | _ => True

/-- Replacing a table by one that has the file keeps the descriptor. -/
theorem setTable_fileOf (h : s.fileOf q fd = some f)
    (hkeep : s.table q = some t → getFile (s.tables t) fd = some f → getFile files fd = some f) :
    (s.setTable t files).fileOf q fd = some f := by
  cases hq : s.table q with
  | none => simp [State.fileOf, hq] at h
  | some u =>
    rw [State.fileOf_eq hq] at h
    have hq' : (s.setTable t files).table q = some u := hq
    rw [State.fileOf_eq hq', State.setTable_tables]
    by_cases hut : u = t
    · subst hut
      rw [Function.update_self]
      exact hkeep hq h
    · rw [Function.update_of_ne hut]
      exact h

theorem store_fileOf (h : s.fileOf q fd = some f) :
    (s.store t scheme number).fileOf q fd = some f := by
  unfold State.store
  split
  · rename_i files hadd
    exact setTable_fileOf h fun _ hf => getFile_addFile hadd hf
  · exact h

/-- Other tables than the contexts' matter as little as handles and registry. -/
theorem fileOf_congr (hc : s'.table q = s.table q)
    (ht : ∀ t, s.table q = some t → s'.tables t = s.tables t) : s'.fileOf q fd = s.fileOf q fd := by
  cases hq : s.table q with
  | none => simp [State.fileOf, hc, hq]
  | some t => rw [State.fileOf_eq hq, State.fileOf_eq (hc.trans hq), ht t hq]

/-- Tables have numbers below the next one. -/
def Numbered (s : State) : Prop := ∀ c ∈ s.contexts, c.2 < s.next

theorem Numbered.lt (h : Numbered s) (ht : s.table pid = some t) : t < s.next :=
  h _ (State.table_mem ht)

theorem dupFiles_frame (answers : Nat → Option Nat) (files : Table) (fd : Nat) (s : State) :
    (State.dupFiles answers fd files s).2.registry = s.registry ∧
      ∀ f, some f ∈ (State.dupFiles answers fd files s).1 → f.event = none := by
  induction files generalizing fd s with
  | nil => exact ⟨rfl, fun f hf => absurd hf List.not_mem_nil⟩
  | cons o files ih =>
    cases o with
    | none =>
      obtain ⟨hr, he⟩ := ih (fd + 1) s
      refine ⟨hr, fun f hf => he f ?_⟩
      rcases List.mem_cons.mp hf with hf | hf
      · cases hf
      · exact hf
    | some file =>
      unfold State.dupFiles
      split
      · rename_i number _
        obtain ⟨hr, he⟩ := ih (fd + 1) (s.give file.scheme number)
        refine ⟨hr, fun f hf => ?_⟩
        rcases List.mem_cons.mp hf with hf | hf
        · cases hf
          rfl
        · exact he f hf
      · obtain ⟨hr, he⟩ := ih (fd + 1) s
        refine ⟨hr, fun f hf => he f ?_⟩
        rcases List.mem_cons.mp hf with hf | hf
        · cases hf
        · exact hf

theorem forget_none (h : file.event = none) : s.forget pid fd file = s := by
  simp [State.forget, h]

theorem execFiles_frame (pid : Nat) (answers : Nat → Option Nat) (files : Table) (fd : Nat) (s : State)
    (hno : ∀ f, some f ∈ files → f.event = none) :
    (State.execFiles pid answers fd files s).2.registry = s.registry ∧
      (State.execFiles pid answers fd files s).2.contexts = s.contexts ∧
      (State.execFiles pid answers fd files s).2.tables = s.tables ∧
      (State.execFiles pid answers fd files s).2.next = s.next ∧
      ∀ f, some f ∈ (State.execFiles pid answers fd files s).1 → f.event = none := by
  induction files generalizing fd s with
  | nil => exact ⟨rfl, rfl, rfl, rfl, fun f hf => absurd hf List.not_mem_nil⟩
  | cons o files ih =>
    have hno' : ∀ f, some f ∈ files → f.event = none := fun f hf => hno f (List.mem_cons_of_mem _ hf)
    cases o with
    | none =>
      obtain ⟨hr, hc, ht, hn, he⟩ := ih (fd + 1) s hno'
      refine ⟨hr, hc, ht, hn, fun f hf => he f ?_⟩
      rcases List.mem_cons.mp hf with hf | hf
      · cases hf
      · exact hf
    | some file =>
      have hfile := hno file List.mem_cons_self
      unfold State.execFiles
      split
      · rename_i number _
        rw [forget_none hfile]
        obtain ⟨hr, hc, ht, hn, he⟩ := ih (fd + 1) ((s.give file.scheme number).schemeClose file) hno'
        refine ⟨hr, hc, ht, hn, fun f hf => ?_⟩
        rcases List.mem_cons.mp hf with hf | hf
        · cases hf
          rfl
        · exact he f hf
      · rw [forget_none hfile]
        obtain ⟨hr, hc, ht, hn, he⟩ := ih (fd + 1) (s.schemeClose file) hno'
        refine ⟨hr, hc, ht, hn, fun f hf => he f ?_⟩
        rcases List.mem_cons.mp hf with hf | hf
        · cases hf
        · exact hf

theorem closeFiles_frame (pid : Nat) (files : Table) (fd : Nat) (s : State)
    (hno : ∀ f, some f ∈ files → f.event = none) :
    (State.closeFiles pid fd files s).registry = s.registry ∧
      (State.closeFiles pid fd files s).contexts = s.contexts ∧
      (State.closeFiles pid fd files s).tables = s.tables ∧
      (State.closeFiles pid fd files s).next = s.next := by
  induction files generalizing fd s with
  | nil => exact ⟨rfl, rfl, rfl, rfl⟩
  | cons o files ih =>
    have hno' : ∀ f, some f ∈ files → f.event = none := fun f hf => hno f (List.mem_cons_of_mem _ hf)
    cases o with
    | none => exact ih (fd + 1) s hno'
    | some file =>
      unfold State.closeFiles
      rw [forget_none (hno file List.mem_cons_self)]
      exact ih (fd + 1) (s.schemeClose file) hno'

/-- What holds of every state, whatever is called. -/
structure Plain (s : State) : Prop where
  noEvents : NoEvents s
  numbered : Numbered s

namespace Plain

theorem fileOf_event (h : Plain s) (hf : s.fileOf pid fd = some file) : file.event = none := by
  cases ht : s.table pid with
  | none => simp [State.fileOf, ht] at hf
  | some t =>
    rw [State.fileOf_eq ht] at hf
    exact h.noEvents t file (mem_of_getFile hf)

/-- One table is replaced, with files from it and new ones. -/
theorem setTable (h : Plain s) (hf : ∀ f, some f ∈ files → f.event = none ∨ some f ∈ s.tables t) :
    Plain (s.setTable t files) := by
  refine ⟨fun u f hm => ?_, h.numbered⟩
  rw [State.setTable_tables] at hm
  by_cases hut : u = t
  · subst hut
    rw [Function.update_self] at hm
    exact (hf f hm).elim id (h.noEvents u f)
  · rw [Function.update_of_ne hut] at hm
    exact h.noEvents u f hm

theorem store (h : Plain s) : Plain (s.store t scheme number) := by
  unfold State.store
  split
  · rename_i files hadd
    refine h.setTable fun f hf => ?_
    rcases mem_addFile hadd hf with rfl | hf
    · exact Or.inl rfl
    · exact Or.inr hf
  · exact h

theorem give (h : Plain s) : Plain (s.give scheme number) := ⟨h.noEvents, h.numbered⟩

theorem openFile (h : Plain s) : Plain (s.openFile pid scheme answer) := by
  unfold State.openFile
  split
  · exact h.give.store
  · exact h

theorem dup (h : Plain s) : Plain (s.dup pid fd answer) := by
  unfold State.dup
  split
  · split
    · exact h.give.store
    · exact h
  · exact h

theorem pipe2 {readId writeId : Nat} (h : Plain s) : Plain (s.pipe2 pid scheme readId writeId) := by
  unfold State.pipe2
  split
  · dsimp only
    split
    · rename_i files hadd
      refine (Plain.setTable h.give.give fun f hf => ?_).store
      rcases mem_addFile hadd hf with rfl | hf
      · exact Or.inl rfl
      · exact Or.inr hf
    · exact h.give.give
  · exact h

theorem close (h : Plain s) : Plain (s.close pid fd) := by
  unfold State.close
  split
  · rename_i t ht
    split
    · rename_i file hf
      rw [forget_none (h.noEvents t file (mem_of_getFile hf))]
      have hset : Plain (s.setTable t (removeFile (s.tables t) fd)) :=
        h.setTable fun f hm => Or.inr (mem_removeFile hm)
      exact ⟨hset.noEvents, hset.numbered⟩
    · exact h
  · exact h

theorem fevent (h : Plain s) : Plain (s.fevent pid fd answer) := by
  unfold State.fevent
  split
  · rename_i t ht
    split
    · rename_i file hf
      rw [forget_none (h.noEvents t file (mem_of_getFile hf))]
      dsimp only
      split
      · unfold State.register
        split
        · exact h
        · exact ⟨h.noEvents, h.numbered⟩
      · exact h
    · exact h
  · exact h

theorem newTable (h : Plain s) (hf : ∀ f, some f ∈ files → f.event = none) :
    NoEvents (s.newTable files) :=
  (h.setTable (t := s.next) fun f hm => Or.inl (hf f hm)).noEvents

theorem clone {share : Bool} (h : Plain s) : Plain (s.clone pid child share answers) := by
  unfold State.clone
  split
  · rename_i t ht hchild
    split
    · refine ⟨h.noEvents, fun c hc => ?_⟩
      rcases List.mem_cons.mp hc with rfl | hc
      · exact h.numbered.lt ht
      · exact h.numbered c hc
    · obtain ⟨hc, htab, hn, -⟩ := dupFiles_spec answers (s.tables t) 0 s
      obtain ⟨-, he⟩ := dupFiles_frame answers (s.tables t) 0 s
      generalize State.dupFiles answers 0 (s.tables t) s = r at *
      have hr : Plain r.2 := by
        refine ⟨?_, ?_⟩
        · intro u f hf
          rw [htab] at hf
          exact h.noEvents u f hf
        · intro c hm
          rw [hc] at hm
          rw [hn]
          exact h.numbered c hm
      refine ⟨hr.newTable he, fun c hm => ?_⟩
      rcases List.mem_cons.mp hm with rfl | hm
      · simp [State.newTable]
      · exact Nat.lt_succ_of_lt (hr.numbered c hm)
  · exact h

theorem exec (h : Plain s) : Plain (s.exec pid answers) := by
  unfold State.exec
  split
  · rename_i t ht
    obtain ⟨-, hc, htab, hn, he⟩ := execFiles_frame pid answers (s.tables t) 0 s (h.noEvents t)
    generalize State.execFiles pid answers 0 (s.tables t) s = r at *
    have hr : Plain r.2 := by
      refine ⟨?_, ?_⟩
      · intro u f hf
        rw [htab] at hf
        exact h.noEvents u f hf
      · intro c hm
        rw [hc] at hm
        rw [hn]
        exact h.numbered c hm
    refine ⟨hr.newTable he, fun c hm => ?_⟩
    obtain ⟨d, hd, rfl⟩ := List.mem_map.mp hm
    split
    · exact Nat.lt_succ_of_le hn.ge
    · exact Nat.lt_succ_of_lt (hr.numbered d hd)
  · exact h

theorem exit (h : Plain s) : Plain (s.exit pid) := by
  unfold State.exit
  split
  · rename_i t ht
    have hgone : Plain { s with contexts := s.contexts.filter (·.1 ≠ pid) } :=
      ⟨h.noEvents, fun c hc => h.numbered c (List.mem_of_mem_filter hc)⟩
    dsimp only
    split
    · obtain ⟨-, hc, htab, hn⟩ := closeFiles_frame pid (s.tables t) 0
        { s with contexts := s.contexts.filter (·.1 ≠ pid) } (h.noEvents t)
      refine ⟨?_, ?_⟩
      · intro u f hf
        rw [htab] at hf
        exact h.noEvents u f hf
      · intro c hm
        rw [hc] at hm
        rw [hn]
        exact hgone.numbered c hm
    · exact hgone
  · exact h

theorem step (h : Plain s) (act : Act) : Plain (Files.step s act) := by
  cases act with
  | openFile pid scheme answer => exact h.openFile
  | dup pid fd answer => exact h.dup
  | close pid fd => exact h.close
  | pipe2 pid scheme readId writeId => exact h.pipe2
  | fevent pid fd answer => exact h.fevent
  | trigger scheme event flags data => exact ⟨h.noEvents, h.numbered⟩
  | clone pid child share answers => exact h.clone
  | exec pid answers => exact h.exec
  | exit pid => exact h.exit

end Plain

theorem boot_plain (pid : Nat) : Plain (boot pid) := by
  refine ⟨fun t f hf => absurd hf List.not_mem_nil, fun c hc => ?_⟩
  obtain rfl := List.mem_singleton.mp hc
  exact Nat.one_pos

@[simp] theorem registry_store : (s.store t scheme number).registry = s.registry := by
  unfold State.store
  split <;> rfl

/-- Only a `fevent` that registers changes the registry. -/
theorem registry_step (h : Plain s) (hr : ¬Registers s act) : (step s act).registry = s.registry := by
  cases act with
  | openFile pid scheme answer =>
    simp only [step, State.openFile]
    split
    · rw [registry_store]
      rfl
    · rfl
  | dup pid fd answer =>
    simp only [step, State.dup]
    split
    · split
      · rw [registry_store]
        rfl
      · rfl
    · rfl
  | close pid fd =>
    simp only [step, State.close]
    split
    · rename_i t ht
      split
      · rename_i file hf
        rw [forget_none (h.noEvents t file (mem_of_getFile hf))]
        rfl
      · rfl
    · rfl
  | pipe2 pid scheme readId writeId =>
    simp only [step, State.pipe2]
    split
    · split
      · rw [registry_store]
        rfl
      · rfl
    · rfl
  | fevent pid fd answer =>
    simp only [step, State.fevent]
    split
    · rename_i t ht
      split
      · rename_i file hf
        rw [forget_none (h.noEvents t file (mem_of_getFile hf))]
        cases answer with
        | none => rfl
        | some event =>
          refine absurd ?_ hr
          simp [Registers, State.fileOf_eq ht, hf]
      · rfl
    · rfl
  | trigger scheme event flags data => rfl
  | clone pid child share answers =>
    simp only [step, State.clone]
    split
    · rename_i t ht hchild
      split
      · rfl
      · exact (dupFiles_frame answers (s.tables t) 0 s).1
    · rfl
  | exec pid answers =>
    simp only [step, State.exec]
    split
    · rename_i t ht
      exact (execFiles_frame pid answers (s.tables t) 0 s (h.noEvents t)).1
    · rfl
  | exit pid =>
    simp only [step, State.exit]
    split
    · rename_i t ht
      split
      · exact (closeFiles_frame pid (s.tables t) 0 _ (h.noEvents t)).1
      · rfl
    · rfl

/-- What a `fevent` that registers does. -/
theorem step_fevent (h : Plain s) (hf : s.fileOf pid fd = some file) :
    step s (.fevent pid fd (some event)) = s.register pid fd file.scheme event := by
  cases ht : s.table pid with
  | none => simp [State.fileOf, ht] at hf
  | some t =>
    rw [State.fileOf_eq ht] at hf
    simp only [step, State.fevent, ht, hf]
    rw [forget_none (h.noEvents t file (mem_of_getFile hf))]

theorem mem_register : ((scheme, event), (pid, fd)) ∈ (s.register pid fd scheme event).registry := by
  unfold State.register
  split
  · assumption
  · exact List.mem_cons_self

theorem lookup_hold (cs : List (Nat × Nat)) (hq : q ≠ pid) :
    (cs.map fun c => if c.1 = pid then (pid, t) else c).lookup q = cs.lookup q := by
  have hb : (q == pid) = false := by simpa using hq
  induction cs with
  | nil => rfl
  | cons c cs ih =>
    obtain ⟨a, u⟩ := c
    by_cases hc : a = pid
    · subst hc
      simp only [List.map_cons, if_true, List.lookup_cons, hb, ih]
    · simp only [List.map_cons, if_neg hc, List.lookup_cons, ih]

theorem lookup_filter (cs : List (Nat × Nat)) (hq : q ≠ pid) :
    (cs.filter (·.1 ≠ pid)).lookup q = cs.lookup q := by
  have hb : (q == pid) = false := by simpa using hq
  induction cs with
  | nil => rfl
  | cons c cs ih =>
    obtain ⟨a, u⟩ := c
    by_cases hc : a = pid
    · subst hc
      simp only [ne_eq, not_true, decide_false, List.filter_cons_of_neg, Bool.false_eq_true,
        not_false_eq_true, List.lookup_cons, hb]
      exact ih
    · rw [List.filter_cons_of_pos (by simpa using hc), List.lookup_cons, List.lookup_cons, ih]

theorem fileOf_clone {share : Bool} (h : Plain s) (hf : s.fileOf q fd = some f) :
    (s.clone pid child share answers).fileOf q fd = some f := by
  unfold State.clone
  split
  · rename_i t ht hchild
    obtain ⟨u, hu⟩ : ∃ u, s.table q = some u := by
      cases hq : s.table q with
      | none => simp [State.fileOf, hq] at hf
      | some u => exact ⟨u, rfl⟩
    have hqc : q ≠ child := by
      rintro rfl
      simp [hu] at hchild
    have hcons : ∀ n, List.lookup q ((child, n) :: s.contexts) = s.table q := by
      intro n
      have hb : (q == child) = false := by simpa using hqc
      simp only [State.table, List.lookup_cons, hb]
    split
    · have hlook : State.table { s with contexts := (child, t) :: s.contexts } q = s.table q := hcons t
      rw [fileOf_congr hlook fun _ _ => rfl]
      exact hf
    · obtain ⟨hc, htab, hn, -⟩ := dupFiles_spec answers (s.tables t) 0 s
      generalize State.dupFiles answers 0 (s.tables t) s = r at *
      have hctx : (r.2.newTable r.1).contexts = s.contexts := hc
      have hlook : State.table { r.2.newTable r.1 with contexts :=
          (child, (r.2.newTable r.1).next - 1) :: (r.2.newTable r.1).contexts } q = s.table q := by
        rw [hctx]
        exact hcons _
      rw [fileOf_congr hlook fun v hv => ?_]
      · exact hf
      · have hlt := h.numbered.lt hv
        have hne : v ≠ r.2.next := by omega
        change Function.update r.2.tables r.2.next r.1 v = s.tables v
        rw [Function.update_of_ne hne, htab]
  · exact hf

theorem fileOf_exec (h : Plain s) (hq : q ≠ pid) (hf : s.fileOf q fd = some f) :
    (s.exec pid answers).fileOf q fd = some f := by
  unfold State.exec
  split
  · rename_i t ht
    obtain ⟨-, hc, htab, hn, -⟩ := execFiles_frame pid answers (s.tables t) 0 s (h.noEvents t)
    generalize State.execFiles pid answers 0 (s.tables t) s = r at *
    have hlook : ((r.2.newTable r.1).hold pid s.next).table q = s.table q := by
      have hctx : (r.2.newTable r.1).contexts = s.contexts := hc
      simp only [State.table, State.hold, hctx, lookup_hold _ hq]
    rw [fileOf_congr hlook fun v hv => ?_]
    · exact hf
    · have hlt := h.numbered.lt hv
      have hne : v ≠ r.2.next := by omega
      change Function.update r.2.tables r.2.next r.1 v = s.tables v
      rw [Function.update_of_ne hne, htab]
  · exact hf

theorem fileOf_exit (h : Plain s) (hq : q ≠ pid) (hf : s.fileOf q fd = some f) :
    (s.exit pid).fileOf q fd = some f := by
  unfold State.exit
  split
  · rename_i t ht
    dsimp only
    split
    · obtain ⟨-, hc, htab, -⟩ := closeFiles_frame pid (s.tables t) 0
        { s with contexts := s.contexts.filter (·.1 ≠ pid) } (h.noEvents t)
      have hlook : (State.closeFiles pid 0 (s.tables t)
          { s with contexts := s.contexts.filter (·.1 ≠ pid) }).table q = s.table q := by
        rw [State.table, hc]
        exact lookup_filter _ hq
      rw [fileOf_congr hlook fun v _ => by rw [htab]]
      exact hf
    · have hlook : State.table { s with contexts := s.contexts.filter (·.1 ≠ pid) } q = s.table q :=
        lookup_filter _ hq
      rw [fileOf_congr hlook fun _ _ => rfl]
      exact hf
  · exact hf

/-- A descriptor stays until its context or a sharing one closes it, executes or exits. -/
theorem fileOf_step (h : Plain s) (hs : Spares s q fd act) (hf : s.fileOf q fd = some f) :
    (step s act).fileOf q fd = some f := by
  cases act with
  | openFile pid scheme answer =>
    simp only [step, State.openFile]
    split
    · exact store_fileOf hf
    · exact hf
  | dup pid fd' answer =>
    simp only [step, State.dup]
    split
    · split
      · exact store_fileOf hf
      · exact hf
    · exact hf
  | close pid fd' =>
    simp only [step, State.close]
    split
    · rename_i t ht
      split
      · rename_i file hfile
        rw [forget_none (h.noEvents t file (mem_of_getFile hfile))]
        refine setTable_fileOf hf fun hq hget => ?_
        rw [getFile_removeFile]
        · exact hget
        · intro he
          exact hs he (hq.trans ht.symm)
      · exact hf
    · exact hf
  | pipe2 pid scheme readId writeId =>
    simp only [step, State.pipe2]
    split
    · split
      · rename_i files hadd
        exact store_fileOf (setTable_fileOf hf fun _ hget => getFile_addFile hadd hget)
      · exact hf
    · exact hf
  | fevent pid fd' answer =>
    simp only [step, State.fevent]
    split
    · rename_i t ht
      split
      · rename_i file hfile
        rw [forget_none (h.noEvents t file (mem_of_getFile hfile))]
        split
        · unfold State.register
          split
          · exact hf
          · exact hf
        · exact hf
      · exact hf
    · exact hf
  | trigger scheme event flags data => exact hf
  | clone pid child share answers => exact fileOf_clone h hf
  | exec pid answers => exact fileOf_exec h hs hf
  | exit pid => exact fileOf_exit h hs hf

theorem mem_queues_trigger {flags data : Nat} {e : Event}
    (h : e ∈ (s.trigger scheme event flags data).queues pid) :
    e ∈ s.queues pid ∨ ∃ r ∈ s.registry, r.2 = (pid, e.id) := by
  rcases List.mem_append.mp h with h | h
  · exact Or.inl h
  · obtain ⟨r, hr, rfl⟩ := List.mem_map.mp h
    obtain ⟨hr, hc⟩ := List.mem_filter.mp hr
    have hpid : r.2.1 = pid := (of_decide_eq_true hc).2
    exact Or.inr ⟨r, hr, by rw [← hpid]⟩

/-- The part of `StillOpen` that calls keep. -/
structure Kept (s : State) : Prop where
  isOpen : ∀ r ∈ s.registry, ∃ file, s.fileOf r.2.1 r.2.2 = some file ∧ file.scheme = r.1.1
  once : (s.registry.map (·.2)).Nodup

theorem Kept.stillOpen (h : Kept s) : StillOpen s := by
  refine ⟨h.isOpen, h.once, fun scheme event flags data pid e he => ?_⟩
  rcases mem_queues_trigger he with he | ⟨r, hr, hre⟩
  · exact Or.inl he
  · obtain ⟨file, hf, -⟩ := h.isOpen r hr
    rw [hre] at hf
    exact Or.inr (by simp [hf])

theorem Undisturbed.spares (h : Undisturbed s act) {r : (Nat × Nat) × (Nat × Nat)}
    (hr : r ∈ s.registry) : Spares s r.2.1 r.2.2 act := by
  cases act with
  | close pid fd => exact fun he => h r hr he
  | exec pid answers => exact h r hr
  | exit pid => exact h r hr
  | _ => trivial

theorem Kept.step (h : Kept s) (hp : Plain s) (hu : Undisturbed s act) : Kept (Files.step s act) := by
  have hold : ∀ r ∈ s.registry, ∃ file, (Files.step s act).fileOf r.2.1 r.2.2 = some file ∧
      file.scheme = r.1.1 := by
    intro r hr
    obtain ⟨file, hf, hsch⟩ := h.isOpen r hr
    exact ⟨file, fileOf_step hp (hu.spares hr) hf, hsch⟩
  by_cases hreg : Registers s act
  · cases act with
    | fevent pid fd answer =>
      cases answer with
      | none => exact hreg.elim
      | some event =>
        obtain ⟨file, hf⟩ := Option.isSome_iff_exists.mp hreg
        have hspare : Spares s pid fd (.fevent pid fd (some event)) := trivial
        have hf' := fileOf_step hp hspare hf
        rw [step_fevent hp hf] at hold hf' ⊢
        have hnot : ((file.scheme, event), (pid, fd)) ∉ s.registry := fun hm => hu _ hm rfl
        have hnew : (s.register pid fd file.scheme event).registry =
            ((file.scheme, event), (pid, fd)) :: s.registry := by
          simp [State.register, hnot]
        refine ⟨fun r hr => ?_, ?_⟩
        · rw [hnew] at hr
          rcases List.mem_cons.mp hr with rfl | hr
          · exact ⟨file, hf', rfl⟩
          · exact hold r hr
        · rw [hnew, List.map_cons, List.nodup_cons]
          refine ⟨fun hm => ?_, h.once⟩
          obtain ⟨r, hr, hre⟩ := List.mem_map.mp hm
          exact hu r hr hre
    | _ => exact hreg.elim
  · have hsame := registry_step hp hreg
    exact ⟨by rw [hsame]; exact hold, by rw [hsame]; exact h.once⟩

theorem run_plain {P : State → Act → Prop} {acts : List Act} (hrun : Run (Step P) (boot pid) acts s) :
    Plain s := by
  refine hrun.invariant (I := Plain) (fun s act s' hs h => ?_) (boot_plain pid)
  rw [hs.2]
  exact h.step act

theorem run_unregistered {acts : List Act}
    (hrun : Run (Step fun s act => ¬Registers s act) (boot pid) acts s) : s.registry = [] := by
  refine (hrun.invariant (I := fun s => Plain s ∧ s.registry = []) (fun s act s' hs h => ?_)
    ⟨boot_plain pid, rfl⟩).2
  obtain ⟨hr, rfl⟩ := hs
  exact ⟨h.1.step act, (registry_step h.1 hr).trans h.2⟩

theorem run_kept {acts : List Act} (hrun : Run (Step Undisturbed) (boot pid) acts s) : Kept s := by
  refine (hrun.invariant (I := fun s => Plain s ∧ Kept s) (fun s act s' hs h => ?_)
    ⟨boot_plain pid, fun r hr => absurd hr List.not_mem_nil, List.nodup_nil⟩).2
  obtain ⟨hu, rfl⟩ := hs
  exact ⟨h.1.step act, h.2.step h.1 hu⟩

/-- The registry follows the tables as long as nothing is registered, and no longer: the event id
never reaches the table. What it says of open descriptors and queued events stays right as long as
registered descriptors are left alone. -/
theorem registry_follows_descriptors (pid : Nat) (acts : List Act) (s : State) :
    (Run (Step fun s act => ¬Registers s act) (boot pid) acts s → Follows s) ∧
    (∀ act, Run (Step fun _ _ => True) (boot pid) acts s → Registers s act → ¬Follows (step s act)) ∧
    (Run (Step Undisturbed) (boot pid) acts s → StillOpen s) := by
  refine ⟨fun hrun => ?_, fun act hrun hreg hfol => ?_, fun hrun => (run_kept hrun).stillOpen⟩
  · intro r hr
    rw [run_unregistered hrun] at hr
    cases hr
  · have hp := run_plain hrun
    cases act with
    | fevent pid fd answer =>
      cases answer with
      | none => exact hreg.elim
      | some event =>
        obtain ⟨file, hf⟩ := Option.isSome_iff_exists.mp hreg
        have hplain := hp.step (.fevent pid fd (some event))
        rw [step_fevent hp hf] at hfol hplain
        obtain ⟨f, hf', -, hev⟩ := hfol _ mem_register
        rw [hplain.fileOf_event hf'] at hev
        cases hev
    | _ => exact hreg.elim

/-- A descriptor is opened, registered and closed: the registry still has it, and the next event is
queued for it. -/
theorem closed_descriptor_gets_event : ∃ s, Run (Step fun _ _ => True) (boot 1)
    [.openFile 1 3 (some 5), .fevent 1 0 (some 9), .close 1 0] s ∧ ¬Follows s ∧
    s.fileOf 1 0 = none ∧ (s.trigger 3 9 1 0).queues 1 = [⟨0, 1, 0⟩] := by
  refine ⟨_, .cons ⟨trivial, rfl⟩ (.cons ⟨trivial, rfl⟩ (.cons ⟨trivial, rfl⟩ .nil)), fun h => ?_,
    rfl, rfl⟩
  obtain ⟨file, hf, -⟩ := h ((3, 9), (1, 0)) (by decide)
  cases hf

theorem registry_follows_open_descriptor : ∃ s, Run (Step Undisturbed) (boot 1)
    [.openFile 1 3 (some 5), .fevent 1 0 (some 9)] s ∧ StillOpen s := by
  have hrun : ∃ s, Run (Step Undisturbed) (boot 1)
      [.openFile 1 3 (some 5), .fevent 1 0 (some 9)] s := by
    refine ⟨_, .cons ⟨trivial, rfl⟩ (.cons ⟨fun r hr => ?_, rfl⟩ .nil)⟩
    cases hr
  obtain ⟨s, hrun⟩ := hrun
  exact ⟨s, hrun, (registry_follows_descriptors 1 _ s).2.2 hrun⟩

end Origel.Kernel.Files
