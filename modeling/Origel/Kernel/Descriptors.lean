import Mathlib.Algebra.Order.BigOperators.Group.Finset
import Origel.Kernel.Files

/-! Every file in a descriptor table in use is an open handle of its scheme. -/
namespace Origel.Kernel.Files

open Origel.Lib

variable {s s' : State} {pid child fd t n scheme number event : Nat} {file f : File} {files files' : Table}
  {answers : Nat → Option Nat} {answer : Option Nat} {act : Act}

/-- The handles a table refers to. -/
def refs (files : Table) : List (Nat × Nat) :=
  files.filterMap fun o => o.map fun f => (f.scheme, f.number)

@[simp] theorem refs_nil : refs [] = [] := rfl

@[simp] theorem refs_none : refs (none :: files) = refs files := rfl

@[simp] theorem refs_some : refs (some file :: files) = (file.scheme, file.number) :: refs files := rfl

@[simp] theorem refs_append : refs (files ++ files') = refs files ++ refs files' :=
  List.filterMap_append

theorem count_addSlot (h : addSlot file files = some files') (x : Nat × Nat) :
    (refs files').count x = (refs (some file :: files)).count x := by
  induction files generalizing files' with
  | nil => cases h
  | cons o files ih =>
    cases o with
    | none =>
      cases h
      rfl
    | some g =>
      simp only [addSlot, Option.map_eq_some_iff] at h
      obtain ⟨files₁, h₁, rfl⟩ := h
      have := ih h₁
      simp only [refs_some, List.count_cons] at this ⊢
      omega

/-- A table gets one more reference. -/
theorem count_addFile (h : addFile file files = some files') (x : Nat × Nat) :
    (refs files').count x = (refs (some file :: files)).count x := by
  unfold addFile at h
  split at h
  · rename_i files₁ h₁
    cases h
    exact count_addSlot h₁ x
  · split at h
    · cases h
      simp only [refs_append, refs_some, refs_nil, List.count_append, List.count_cons, List.count_nil]
      omega
    · cases h

theorem count_removeFile (h : getFile files fd = some file) (x : Nat × Nat) :
    (refs files).count x = (refs (some file :: removeFile files fd)).count x := by
  induction files generalizing fd with
  | nil => simp [getFile] at h
  | cons o files ih =>
    cases fd with
    | zero =>
      obtain rfl : o = some file := by simpa [getFile] using h
      simp [removeFile]
    | succ fd =>
      have := ih (show getFile files fd = some file by simpa [getFile] using h)
      cases o with
      | none => simpa [removeFile] using this
      | some g =>
        simp only [removeFile, List.set_cons_succ, refs_some, List.count_cons] at this ⊢
        omega

/-- The tables that contexts use. -/
def State.used (s : State) : Finset Nat := (s.contexts.map (·.2)).toFinset

/-- How often tables in use refer to a handle. -/
def State.owned (s : State) (x : Nat × Nat) : Nat := ∑ t ∈ s.used, (refs (s.tables t)).count x

/-- Each reference has an open handle of its own. -/
structure Owning (s : State) : Prop where
  covered : ∀ x, s.owned x ≤ s.handles.count x
  fresh : ∀ c ∈ s.contexts, c.2 < s.next
  nodup : (s.contexts.map (·.1)).Nodup

theorem State.mem_used (h : s.table pid = some t) : t ∈ s.used := by
  obtain ⟨l, r, hc, -⟩ := List.lookup_eq_some_iff.mp h
  simp [used, hc]

theorem State.count_le_owned (ht : t ∈ s.used) (x : Nat × Nat) :
    (refs (s.tables t)).count x ≤ s.owned x := by
  rw [owned, ← Finset.add_sum_erase _ _ ht]
  exact Nat.le_add_right _ _

namespace Owning

/-- A call that leaves the contexts alone and changes one table in use and the handles. -/
theorem change (h : Owning s) (ht : t ∈ s.used) (hc : s'.contexts = s.contexts) (hn : s'.next = s.next)
    (hother : ∀ u, u ≠ t → s'.tables u = s.tables u)
    (hx : ∀ x, (refs (s'.tables t)).count x + s.handles.count x ≤
      (refs (s.tables t)).count x + s'.handles.count x) : Owning s' := by
  refine ⟨fun x => ?_, by rw [hc, hn]; exact h.fresh, by rw [hc]; exact h.nodup⟩
  have hused : s'.used = s.used := by rw [State.used, State.used, hc]
  have hold := h.covered x
  rw [State.owned, ← Finset.add_sum_erase _ _ ht] at hold
  rw [State.owned, hused, ← Finset.add_sum_erase _ _ ht]
  have hrest : ∑ u ∈ s.used.erase t, (refs (s'.tables u)).count x =
      ∑ u ∈ s.used.erase t, (refs (s.tables u)).count x :=
    Finset.sum_congr rfl fun u hu => by rw [hother u (Finset.ne_of_mem_erase hu)]
  have := hx x
  omega

/-- Changes of the registry and of the queues do not matter. -/
theorem congr (h : Owning s) (hc : s'.contexts = s.contexts) (ht : s'.tables = s.tables)
    (hn : s'.next = s.next) (hh : s'.handles = s.handles) : Owning s' := by
  refine ⟨fun x => ?_, by rw [hc, hn]; exact h.fresh, by rw [hc]; exact h.nodup⟩
  rw [State.owned, State.used, hc, ht, hh]
  exact h.covered x

end Owning

namespace State

@[simp] theorem setTable_contexts : (s.setTable t files).contexts = s.contexts := rfl

@[simp] theorem setTable_handles : (s.setTable t files).handles = s.handles := rfl

@[simp] theorem setTable_next : (s.setTable t files).next = s.next := rfl

@[simp] theorem setTable_tables : (s.setTable t files).tables = Function.update s.tables t files := rfl

@[simp] theorem forget_contexts : (s.forget pid fd file).contexts = s.contexts := by
  unfold forget
  split <;> rfl

@[simp] theorem forget_tables : (s.forget pid fd file).tables = s.tables := by
  unfold forget
  split <;> rfl

@[simp] theorem forget_next : (s.forget pid fd file).next = s.next := by
  unfold forget
  split <;> rfl

@[simp] theorem forget_handles : (s.forget pid fd file).handles = s.handles := by
  unfold forget
  split <;> rfl

end State

/-- What `store` does to the one table. -/
theorem State.store_frame (s : State) (t scheme number : Nat) :
    (s.store t scheme number).contexts = s.contexts ∧ (s.store t scheme number).next = s.next ∧
      (s.store t scheme number).handles = s.handles ∧
      (∀ u, u ≠ t → (s.store t scheme number).tables u = s.tables u) ∧
      ∀ x, (refs ((s.store t scheme number).tables t)).count x ≤
        ((scheme, number) :: refs (s.tables t)).count x := by
  unfold store
  split
  · rename_i files hadd
    refine ⟨rfl, rfl, rfl, fun u hu => Function.update_of_ne hu _ _, fun x => ?_⟩
    simp only [setTable, Function.update_self]
    exact (count_addFile hadd x).le
  · exact ⟨rfl, rfl, rfl, fun _ _ => rfl, fun x => List.count_le_count_cons⟩

namespace Owning

theorem stored (h : Owning s) (ht : t ∈ s.used) :
    Owning ((s.give scheme number).store t scheme number) := by
  obtain ⟨hc, hn, hh, hother, hx⟩ := (s.give scheme number).store_frame t scheme number
  refine h.change ht hc hn hother fun x => ?_
  rw [hh]
  have := hx x
  simp only [State.give, List.count_cons] at this ⊢
  omega

theorem openFile (h : Owning s) : Owning (s.openFile pid scheme answer) := by
  unfold State.openFile
  split
  · rename_i t number ht
    exact h.stored (State.mem_used ht)
  · exact h

theorem dup (h : Owning s) : Owning (s.dup pid fd answer) := by
  unfold State.dup
  split
  · rename_i t ht
    split
    · exact h.stored (State.mem_used ht)
    · exact h
  · exact h

theorem close (h : Owning s) : Owning (s.close pid fd) := by
  unfold State.close
  split
  · rename_i t ht
    split
    · rename_i file hf
      have hu := State.mem_used ht
      refine h.change hu ?_ ?_ (fun u hu => ?_) fun x => ?_
      · simp [State.schemeClose]
      · simp [State.schemeClose]
      · simp [State.schemeClose, hu]
      · have hrem := count_removeFile hf x
        have hcov := h.covered x
        have hown := State.count_le_owned hu x
        simp only [State.schemeClose, State.forget_tables, State.forget_handles, State.setTable_tables,
          State.setTable_handles, Function.update_self, refs_some, List.count_cons,
          List.count_erase] at hrem ⊢
        omega
    · exact h
  · exact h

theorem pipe2 {readId writeId : Nat} (h : Owning s) : Owning (s.pipe2 pid scheme readId writeId) := by
  unfold State.pipe2
  split
  · rename_i t ht
    have hu := State.mem_used ht
    dsimp only
    split
    · rename_i files hadd
      have hread := count_addFile hadd
      obtain ⟨hc, hn, hh, hother, hx⟩ := State.store_frame
        (((s.give scheme readId).give scheme writeId).setTable t files) t scheme writeId
      refine h.change hu hc hn (fun u hu => ?_) fun x => ?_
      · rw [hother u hu, State.setTable_tables, Function.update_of_ne hu]
        rfl
      · rw [hh]
        have h1 := hx x
        have h2 := hread x
        simp only [State.setTable_tables, State.setTable_handles, Function.update_self, refs_some,
          State.give, List.count_cons] at h1 h2 ⊢
        omega
    · refine h.change hu rfl rfl (fun _ _ => rfl) fun x => ?_
      simp only [State.give, List.count_cons]
      omega
  · exact h

theorem fevent (h : Owning s) : Owning (s.fevent pid fd answer) := by
  unfold State.fevent
  split
  · split
    · dsimp only
      split
      · unfold State.register
        split
        · exact h.congr State.forget_contexts State.forget_tables State.forget_next
            State.forget_handles
        · exact h.congr State.forget_contexts State.forget_tables State.forget_next
            State.forget_handles
      · exact h.congr State.forget_contexts State.forget_tables State.forget_next
          State.forget_handles
    · exact h
  · exact h

end Owning

/-- The loop of `clone` makes a table of new handles. -/
theorem dupFiles_spec (answers : Nat → Option Nat) (files : Table) (fd : Nat) (s : State) :
    (State.dupFiles answers fd files s).2.contexts = s.contexts ∧
      (State.dupFiles answers fd files s).2.tables = s.tables ∧
      (State.dupFiles answers fd files s).2.next = s.next ∧
      ∀ x, (State.dupFiles answers fd files s).2.handles.count x =
        s.handles.count x + (refs (State.dupFiles answers fd files s).1).count x := by
  induction files generalizing fd s with
  | nil => exact ⟨rfl, rfl, rfl, fun x => rfl⟩
  | cons o files ih =>
    cases o with
    | none => exact ih (fd + 1) s
    | some file =>
      unfold State.dupFiles
      split
      · rename_i number _
        obtain ⟨hc, ht, hn, hx⟩ := ih (fd + 1) (s.give file.scheme number)
        refine ⟨hc, ht, hn, fun x => ?_⟩
        have := hx x
        simp only [State.give, refs_some, List.count_cons] at this ⊢
        omega
      · exact ih (fd + 1) s

/-- The loop of `exec` trades the handles of a table, one for one or for none. -/
theorem execFiles_spec (pid : Nat) (answers : Nat → Option Nat) (files : Table) (fd : Nat) (s : State)
    (hcov : ∀ x, (refs files).count x ≤ s.handles.count x) :
    (State.execFiles pid answers fd files s).2.contexts = s.contexts ∧
      (State.execFiles pid answers fd files s).2.tables = s.tables ∧
      (State.execFiles pid answers fd files s).2.next = s.next ∧
      ∀ x, (State.execFiles pid answers fd files s).2.handles.count x + (refs files).count x =
        s.handles.count x + (refs (State.execFiles pid answers fd files s).1).count x := by
  induction files generalizing fd s with
  | nil => exact ⟨rfl, rfl, rfl, fun x => rfl⟩
  | cons o files ih =>
    cases o with
    | none => exact ih (fd + 1) s hcov
    | some file =>
      unfold State.execFiles
      split
      · rename_i number _
        obtain ⟨hc, ht, hn, hx⟩ := ih (fd + 1)
          (((s.give file.scheme number).forget pid fd file).schemeClose file) (fun x => by
            have := hcov x
            simp only [State.schemeClose, State.forget_handles, State.give, refs_some,
              List.count_erase, List.count_cons] at this ⊢
            omega)
        refine ⟨hc.trans State.forget_contexts, ht.trans State.forget_tables,
          hn.trans State.forget_next, fun x => ?_⟩
        have h1 := hcov x
        have h2 := hx x
        simp only [State.schemeClose, State.forget_handles, State.give, refs_some,
          List.count_erase, List.count_cons] at h1 h2 ⊢
        omega
      · obtain ⟨hc, ht, hn, hx⟩ := ih (fd + 1) ((s.forget pid fd file).schemeClose file) (fun x => by
            have := hcov x
            simp only [State.schemeClose, State.forget_handles, refs_some, List.count_erase,
              List.count_cons] at this ⊢
            omega)
        refine ⟨hc.trans State.forget_contexts, ht.trans State.forget_tables,
          hn.trans State.forget_next, fun x => ?_⟩
        have h1 := hcov x
        have h2 := hx x
        simp only [State.schemeClose, State.forget_handles, refs_some, refs_none, List.count_erase,
          List.count_cons] at h1 h2 ⊢
        omega

/-- The loop of `exit` closes the handles of a table. -/
theorem closeFiles_spec (pid : Nat) (files : Table) (fd : Nat) (s : State)
    (hcov : ∀ x, (refs files).count x ≤ s.handles.count x) :
    (State.closeFiles pid fd files s).contexts = s.contexts ∧
      (State.closeFiles pid fd files s).tables = s.tables ∧
      (State.closeFiles pid fd files s).next = s.next ∧
      ∀ x, (State.closeFiles pid fd files s).handles.count x + (refs files).count x =
        s.handles.count x := by
  induction files generalizing fd s with
  | nil => exact ⟨rfl, rfl, rfl, fun x => rfl⟩
  | cons o files ih =>
    cases o with
    | none => exact ih (fd + 1) s hcov
    | some file =>
      unfold State.closeFiles
      obtain ⟨hc, ht, hn, hx⟩ := ih (fd + 1) ((s.forget pid fd file).schemeClose file) (fun x => by
          have := hcov x
          simp only [State.schemeClose, State.forget_handles, refs_some, List.count_erase,
            List.count_cons] at this ⊢
          omega)
      refine ⟨hc.trans State.forget_contexts, ht.trans State.forget_tables,
        hn.trans State.forget_next, fun x => ?_⟩
      have h1 := hcov x
      have h2 := hx x
      simp only [State.schemeClose, State.forget_handles, refs_some, List.count_erase,
        List.count_cons] at h1 h2 ⊢
      omega

namespace State

theorem table_mem (h : s.table pid = some t) : (pid, t) ∈ s.contexts := by
  obtain ⟨l, r, hc, -⟩ := List.lookup_eq_some_iff.mp h
  simp [hc]

theorem table_none (h : s.table child = none) : child ∉ s.contexts.map (·.1) := by
  intro hmem
  obtain ⟨c, hc, rfl⟩ := List.mem_map.mp hmem
  have := List.lookup_eq_none_iff.mp h c hc
  simp at this

/-- The only context with an unshared table. -/
theorem only_context (h : s.unshared t = true) (ht : s.table pid = some t) {c : Nat × Nat}
    (hc : c ∈ s.contexts) (hct : c.2 = t) : c = (pid, t) := by
  simp only [unshared, decide_eq_true_eq] at h
  obtain ⟨d, hd⟩ := List.length_eq_one_iff.mp h
  have h1 : c ∈ s.contexts.filter (·.2 = t) := List.mem_filter.mpr ⟨hc, by simpa using hct⟩
  have h2 : (pid, t) ∈ s.contexts.filter (·.2 = t) := List.mem_filter.mpr ⟨table_mem ht, by simp⟩
  rw [hd] at h1 h2
  simp_all

end State

namespace Owning

theorem next_not_used (h : Owning s) : s.next ∉ s.used := by
  intro hmem
  simp only [State.used, List.mem_toFinset, List.mem_map] at hmem
  obtain ⟨c, hc, he⟩ := hmem
  have := h.fresh c hc
  omega

/-- A context with a table of its own is added. -/
theorem added (h : Owning s) (hchild : s.table child = none)
    (ht : s'.tables = s.tables) (hn : s'.next = s.next)
    (hx : ∀ x, s'.handles.count x = s.handles.count x + (refs files).count x) :
    Owning { s'.newTable files with contexts := (child, s.next) :: s.contexts } := by
  have hnext := h.next_not_used
  refine ⟨fun x => ?_, ?_, ?_⟩
  · have hused : State.used { s'.newTable files with contexts := (child, s.next) :: s.contexts } =
        insert s.next s.used := by
      simp [State.used]
    rw [State.owned, hused, Finset.sum_insert hnext]
    have hrest : ∑ u ∈ s.used, (refs ((s'.newTable files).tables u)).count x = s.owned x := by
      refine Finset.sum_congr rfl fun u hu => ?_
      have hne : u ≠ s'.next := by
        rw [hn]
        rintro rfl
        exact hnext hu
      simp only [State.newTable, State.setTable_tables, Function.update_of_ne hne, ht]
    have hnew : (s'.newTable files).tables s.next = files := by
      simp [State.newTable, hn]
    have h1 := h.covered x
    have h2 := hx x
    change _ + ∑ u ∈ s.used, (refs ((s'.newTable files).tables u)).count x ≤ s'.handles.count x
    rw [hrest]
    change (refs ((s'.newTable files).tables s.next)).count x + _ ≤ _
    rw [hnew]
    omega
  · intro c hc'
    have hlt : (s'.newTable files).next = s.next + 1 := by simp [State.newTable, hn]
    change c.2 < (s'.newTable files).next
    rw [hlt]
    rcases List.mem_cons.mp hc' with rfl | hc'
    · exact Nat.lt_succ_self _
    · have := h.fresh c hc'
      omega
  · exact List.nodup_cons.mpr ⟨State.table_none hchild, h.nodup⟩

theorem clone {share : Bool} (h : Owning s) : Owning (s.clone pid child share answers) := by
  unfold State.clone
  split
  · rename_i t ht hchild
    split
    · refine ⟨fun x => ?_, fun c hc => ?_, List.nodup_cons.mpr ⟨State.table_none hchild, h.nodup⟩⟩
      · have hused : State.used { s with contexts := (child, t) :: s.contexts } = s.used := by
          have := State.mem_used ht
          simp only [State.used, List.mem_toFinset] at this
          simp [State.used, this]
        rw [State.owned, hused]
        exact h.covered x
      · rcases List.mem_cons.mp hc with rfl | hc
        · exact h.fresh (pid, t) (State.table_mem ht)
        · exact h.fresh c hc
    · obtain ⟨hc, htab, hn, hx⟩ := dupFiles_spec answers (s.tables t) 0 s
      generalize State.dupFiles answers 0 (s.tables t) s = r at *
      have hctx : (r.2.newTable r.1).contexts = s.contexts := hc
      have hnum : (r.2.newTable r.1).next - 1 = s.next := by
        simp [State.newTable, hn]
      dsimp only
      rw [hctx, hnum]
      exact h.added hchild htab hn hx
  · exact h

theorem same_context (h : Owning s) {c d : Nat × Nat} (hc : c ∈ s.contexts) (hd : d ∈ s.contexts)
    (he : c.1 = d.1) : c = d :=
  List.inj_on_of_nodup_map h.nodup hc hd he

theorem covers (h : Owning s) (ht : s.table pid = some t) (x : Nat × Nat) :
    (refs (s.tables t)).count x ≤ s.handles.count x :=
  (State.count_le_owned (State.mem_used ht) x).trans (h.covered x)

theorem exec (h : Owning s) (hsole : ∀ t, s.table pid = some t → s.unshared t = true) :
    Owning (s.exec pid answers) := by
  unfold State.exec
  split
  · rename_i t ht
    have hu := State.mem_used ht
    have hnext := h.next_not_used
    obtain ⟨hc, htab, hn, hx⟩ := execFiles_spec pid answers (s.tables t) 0 s (h.covers ht)
    generalize State.execFiles pid answers 0 (s.tables t) s = r at *
    have hctx : ((r.2.newTable r.1).hold pid s.next).contexts =
        s.contexts.map fun c => if c.1 = pid then (pid, s.next) else c := by
      rw [← hc]
      rfl
    have hused : ((r.2.newTable r.1).hold pid s.next).used = insert s.next (s.used.erase t) := by
      ext u
      rw [State.used, hctx]
      simp only [State.used, List.mem_toFinset, List.mem_map, Finset.mem_insert, Finset.mem_erase]
      constructor
      · rintro ⟨-, ⟨c, hcm, rfl⟩, rfl⟩
        split
        · exact Or.inl rfl
        · rename_i hcp
          refine Or.inr ⟨fun hct => hcp ?_, c, hcm, rfl⟩
          rw [State.only_context (hsole t ht) ht hcm hct]
      · rintro (rfl | ⟨hne, c, hcm, rfl⟩)
        · exact ⟨(pid, s.next), ⟨(pid, t), State.table_mem ht, if_pos rfl⟩, rfl⟩
        · refine ⟨c, ⟨c, hcm, if_neg fun hcp => hne ?_⟩, rfl⟩
          exact congrArg Prod.snd (h.same_context hcm (State.table_mem ht) hcp)
    refine ⟨fun x => ?_, fun c hcm => ?_, ?_⟩
    · have hsplit := h.covered x
      rw [State.owned, ← Finset.add_sum_erase _ _ hu] at hsplit
      have hnot : s.next ∉ s.used.erase t := fun hm => hnext (Finset.mem_of_mem_erase hm)
      rw [State.owned, hused, Finset.sum_insert hnot]
      have htabs : ((r.2.newTable r.1).hold pid s.next).tables = Function.update s.tables s.next r.1 := by
        rw [← htab, ← hn]
        rfl
      have hrest : ∑ u ∈ s.used.erase t,
          (refs (((r.2.newTable r.1).hold pid s.next).tables u)).count x =
          ∑ u ∈ s.used.erase t, (refs (s.tables u)).count x := by
        refine Finset.sum_congr rfl fun u hu => ?_
        have hne : u ≠ s.next := by
          rintro rfl
          exact hnot hu
        rw [htabs, Function.update_of_ne hne]
      have h2 := hx x
      rw [hrest, htabs, Function.update_self]
      change _ ≤ r.2.handles.count x
      omega
    · have hlt : ((r.2.newTable r.1).hold pid s.next).next = s.next + 1 := by
        rw [← hn]
        rfl
      rw [hctx] at hcm
      obtain ⟨d, hd, rfl⟩ := List.mem_map.mp hcm
      have := h.fresh d hd
      rw [hlt]
      split
      · exact Nat.lt_succ_self _
      · omega
    · rw [hctx, List.map_map]
      have hfst : ((fun c : Nat × Nat => c.1) ∘ fun c : Nat × Nat =>
          if c.1 = pid then (pid, s.next) else c) = fun c => c.1 := by
        funext c
        by_cases hcp : c.1 = pid <;> simp [hcp]
      rw [hfst]
      exact h.nodup
  · exact h

theorem exit (h : Owning s) : Owning (s.exit pid) := by
  unfold State.exit
  split
  · rename_i t ht
    have hu := State.mem_used ht
    have hsub : (s.contexts.filter (·.1 ≠ pid)).map (·.2) ⊆ s.contexts.map (·.2) :=
      List.map_subset _ fun c hc => List.mem_of_mem_filter hc
    have hfresh : ∀ c ∈ s.contexts.filter (·.1 ≠ pid), c.2 < s.next :=
      fun c hc => h.fresh c (List.mem_of_mem_filter hc)
    have hnodup : ((s.contexts.filter (·.1 ≠ pid)).map (·.1)).Nodup :=
      h.nodup.sublist (List.filter_sublist.map _)
    dsimp only
    split
    · rename_i hsole
      obtain ⟨hc, htab, hn, hx⟩ := closeFiles_spec pid (s.tables t) 0
        { s with contexts := s.contexts.filter (·.1 ≠ pid) } (h.covers ht)
      generalize State.closeFiles pid 0 (s.tables t)
        { s with contexts := s.contexts.filter (·.1 ≠ pid) } = s₁ at *
      refine ⟨fun x => ?_, by rw [hc, hn]; exact hfresh, by rw [hc]; exact hnodup⟩
      -- nobody uses the closed table any more
      have hused : s₁.used ⊆ s.used.erase t := by
        intro u hm
        simp only [State.used, hc, List.mem_toFinset, List.mem_map] at hm
        obtain ⟨c, hcm, rfl⟩ := hm
        obtain ⟨hcs, hcp⟩ := List.mem_filter.mp hcm
        refine Finset.mem_erase.mpr ⟨fun hct => ?_, ?_⟩
        · rw [State.only_context hsole ht hcs hct] at hcp
          simp at hcp
        · simp only [State.used, List.mem_toFinset, List.mem_map]
          exact ⟨c, hcs, rfl⟩
      have hle := Finset.sum_le_sum_of_subset (f := fun u => (refs (s.tables u)).count x) hused
      have hsplit := h.covered x
      rw [State.owned, ← Finset.add_sum_erase _ _ hu] at hsplit
      have h2 := hx x
      rw [State.owned, htab]
      dsimp only at h2 hle ⊢
      omega
    · refine ⟨fun x => ?_, hfresh, hnodup⟩
      refine (Finset.sum_le_sum_of_subset fun u hm => ?_).trans (h.covered x)
      simp only [State.used, List.mem_toFinset] at hm ⊢
      exact hsub hm
  · exact h

end Owning

/-- A context runs another program only with a descriptor table of its own. -/
def OwnTable (s : State) : Act → Prop
  | .exec pid _ => ∀ t, s.table pid = some t → s.unshared t = true
  | _ => True

theorem Owning.step (h : Owning s) (hs : Step OwnTable s act s') : Owning s' := by
  obtain ⟨hown, rfl⟩ := hs
  cases act with
  | openFile pid scheme answer => exact h.openFile
  | dup pid fd answer => exact h.dup
  | close pid fd => exact h.close
  | pipe2 pid scheme readId writeId => exact h.pipe2
  | fevent pid fd answer => exact h.fevent
  | trigger scheme event flags data => exact h.congr rfl rfl rfl rfl
  | clone pid child share answers => exact h.clone
  | exec pid answers => exact h.exec hown
  | exit pid => exact h.exit

theorem boot_owning (pid : Nat) : Owning (boot pid) := by
  refine ⟨fun x => ?_, fun c hc => ?_, List.nodup_singleton _⟩
  · simp [State.owned, boot]
  · obtain rfl := List.mem_singleton.mp hc
    exact Nat.one_pos

/-- Every file in a table that a context uses is an open handle of its scheme. -/
def HandlesOpen (s : State) : Prop :=
  ∀ pid t fd file, s.table pid = some t → getFile (s.tables t) fd = some file →
    (file.scheme, file.number) ∈ s.handles

theorem mem_refs (h : getFile files fd = some file) : (file.scheme, file.number) ∈ refs files := by
  have := count_removeFile h (file.scheme, file.number)
  rw [refs_some, List.count_cons_self] at this
  exact List.count_pos_iff.mp (by omega)

theorem Owning.handlesOpen (h : Owning s) : HandlesOpen s := by
  intro pid t fd file ht hf
  have hpos := List.count_pos_iff.mpr (mem_refs hf)
  have := h.covers ht (file.scheme, file.number)
  exact List.count_pos_iff.mp (by omega)

/-- Over all runs in which no program is executed on a shared table. -/
theorem files_are_open_handles {pid : Nat} {acts : List Act} (hrun : Run (Step OwnTable) (boot pid) acts s) :
    HandlesOpen s :=
  (hrun.invariant (I := Owning) (fun _ _ _ hs h => h.step hs) (boot_owning pid)).handlesOpen

/-- Of two contexts that share a table one executes a program: the other's file is closed. -/
theorem exec_closes_shared_file : ∃ s, Run (Step fun _ _ => True) (boot 1)
    [.openFile 1 3 (some 5), .clone 1 2 true fun _ => none, .exec 2 fun _ => some 6] s ∧
    ¬HandlesOpen s := by
  refine ⟨_, .cons ⟨trivial, rfl⟩ (.cons ⟨trivial, rfl⟩ (.cons ⟨trivial, rfl⟩ .nil)), fun h => ?_⟩
  have := h 1 0 0 ⟨3, 5, none⟩ rfl rfl
  revert this
  decide

theorem files_open_after_exec : ∃ s, Run (Step OwnTable) (boot 1)
    [.openFile 1 3 (some 5), .clone 1 2 false fun _ => some 6, .exec 2 fun _ => some 7] s ∧
    HandlesOpen s := by
  have hrun : ∃ s, Run (Step OwnTable) (boot 1)
      [.openFile 1 3 (some 5), .clone 1 2 false fun _ => some 6, .exec 2 fun _ => some 7] s := by
    refine ⟨_, .cons ⟨trivial, rfl⟩ (.cons ⟨trivial, rfl⟩ (.cons ⟨fun t ht => ?_, rfl⟩ .nil))⟩
    cases ht
    decide
  obtain ⟨s, hrun⟩ := hrun
  exact ⟨s, hrun, files_are_open_handles hrun⟩

end Origel.Kernel.Files
