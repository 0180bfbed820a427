import Origel.RedoxFs.Cells

/-! How the bytes behind a file's extents change when the file is cut or grown. -/
namespace Origel.RedoxFs

open Origel.Lib

variable {e e' : Extent} {es es' : List Extent} {len nb rest : Nat}

/-- In a node the extents in use come first. -/
def FilledFirst : List Extent → Prop
  | [] => True
  | e :: es => (e.length = 0 → cellsOf es = []) ∧ FilledFirst es

/-- Of the extents in use, none lies right behind the fresh blocks and only the last may lie right
before them. -/
def OnlyAtEnd (nb rest : Nat) : List Extent → Prop
  | [] => True
  | e :: es =>
    (0 < e.length → ¬(rest % 512 = 0 ∧ e.block = nb + rest / 512) ∧
      (e.block + (e.length + 511) / 512 = nb → cellsOf es = [])) ∧ OnlyAtEnd nb rest es

theorem cells_eq_nil : e.cells = [] ↔ e.length = 0 := by
  simp [Extent.cells]

theorem cellsOf_eq_nil : cellsOf es = [] ↔ ∀ e ∈ es, e.length = 0 := by
  simp only [cellsOf, List.flatMap_eq_nil_iff, cells_eq_nil]

theorem cellsOf_replicate (n : Nat) : cellsOf (List.replicate n Extent.default) = [] := by
  rw [cellsOf_eq_nil]
  intro e he
  rw [List.eq_of_mem_replicate he]
  rfl

theorem packed_of_nil (h : cellsOf es = []) : Packed es := by
  induction es with
  | nil => trivial
  | cons e es ih =>
    rw [cellsOf_cons, List.append_eq_nil_iff] at h
    exact ⟨fun hne => (hne h.2).elim, ih h.2⟩

theorem filledFirst_of_nil (h : cellsOf es = []) : FilledFirst es := by
  induction es with
  | nil => trivial
  | cons e es ih =>
    rw [cellsOf_cons, List.append_eq_nil_iff] at h
    exact ⟨fun _ => h.2, ih h.2⟩

theorem packed_append (ha : ∀ e ∈ es, 512 ∣ e.length) (h : Packed es') : Packed (es ++ es') := by
  induction es with
  | nil => exact h
  | cons e es ih => exact ⟨fun _ => ha e (by simp), ih fun x hx => ha x (by simp [hx])⟩

/-- A cut file keeps the first bytes. -/
theorem cellsOf_truncate (es : List Extent) (len : Nat) :
    cellsOf (truncateExtents len es).2.1 = (cellsOf es).take len := by
  induction es generalizing len with
  | nil => simp [truncateExtents]
  | cons e es ih =>
    rw [truncateExtents, cellsOf_cons, List.take_append, Extent.length_cells]
    split
    · rename_i hlt
      have hz : len - e.length = 0 := by omega
      dsimp only
      rw [cellsOf_cons, ih, hz, Extent.cells, Extent.cells, List.take_range'_of_length_ge (by omega)]
    · rename_i hle
      dsimp only
      rw [cellsOf_cons, ih, Extent.cells, List.take_range'_of_length_le (by omega)]

theorem packed_truncate (h : Packed es) (len : Nat) : Packed (truncateExtents len es).2.1 := by
  induction es generalizing len with
  | nil => trivial
  | cons e es ih =>
    rw [truncateExtents]
    split
    · refine ⟨fun hne => (hne ?_).elim, ih h.2 0⟩
      rw [cellsOf_truncate, List.take_zero]
    · refine ⟨fun hne => h.1 fun hnil => hne ?_, ih h.2 _⟩
      rw [cellsOf_truncate, hnil, List.take_nil]

theorem filledFirst_truncate (h : FilledFirst es) (len : Nat) :
    FilledFirst (truncateExtents len es).2.1 := by
  induction es generalizing len with
  | nil => trivial
  | cons e es ih =>
    rw [truncateExtents]
    split
    · refine ⟨fun _ => ?_, ih h.2 0⟩
      rw [cellsOf_truncate, List.take_zero]
    · refine ⟨fun h0 => ?_, ih h.2 _⟩
      rw [cellsOf_truncate, h.1 h0, List.take_nil]

theorem cellsOf_grown_nil (h : List.Forall₂ Grown es es') : cellsOf es' = [] ↔ cellsOf es = [] := by
  induction h with
  | nil => exact Iff.rfl
  | @cons e e' es es' hg _ ih =>
    obtain ⟨-, hlo, hhi⟩ := hg
    have hz : e'.length = 0 ↔ e.length = 0 := by omega
    rw [cellsOf_cons, cellsOf_cons, List.append_eq_nil_iff, List.append_eq_nil_iff, cells_eq_nil,
      cells_eq_nil, ih, hz]

theorem filledFirst_grown (h : List.Forall₂ Grown es es') (hf : FilledFirst es) :
    FilledFirst es' := by
  induction h with
  | nil => trivial
  | @cons e e' es es' hg hgs ih =>
    obtain ⟨-, hlo, hhi⟩ := hg
    refine ⟨fun h0 => ?_, ih hf.2⟩
    rw [cellsOf_grown_nil hgs]
    exact hf.1 (by omega)

theorem onlyAtEnd_grown (h : List.Forall₂ Grown es es') (ho : OnlyAtEnd nb rest es) :
    OnlyAtEnd nb rest es' := by
  induction h with
  | nil => trivial
  | @cons e e' es es' hg hgs ih =>
    obtain ⟨hb, hlo, hhi⟩ := hg
    refine ⟨fun hpos => ?_, ih ho.2⟩
    have hc : (e'.length + 511) / 512 = (e.length + 511) / 512 := by omega
    rw [hb, hc, cellsOf_grown_nil hgs]
    exact ho.1 (by omega)

/-- Every extent grown to the end of its last sector. -/
def filledUp (es : List Extent) : List Extent :=
  es.map fun e => { e with length := 512 * ((e.length + 511) / 512) }

/-- When the sectors do not reach the length, all of them are used. -/
theorem ensureExtents_filledUp (hl : ∀ e ∈ es, e.length + 511 < 2 ^ 64)
    (hr : 0 < (ensureExtents len es).2.2) : (ensureExtents len es).2.1 = filledUp es := by
  induction es generalizing len with
  | nil => rfl
  | cons e es ih =>
    have he := hl e (by simp)
    rw [ensureExtents] at hr ⊢
    by_cases h1 : e.length ≥ len
    · rw [if_pos h1] at hr
      cases hr
    rw [if_neg h1] at hr ⊢
    dsimp only at hr ⊢
    rw [wrap64_of_lt he] at hr ⊢
    by_cases h2 : 512 * ((e.length + 511) / 512) ≥ len
    · rw [if_pos h2] at hr
      cases hr
    rw [if_neg h2] at hr ⊢
    dsimp only at hr ⊢
    rw [ih (fun x hx => hl x (by simp [hx])) hr]
    rfl

theorem length_filledUp (es : List Extent) : (filledUp es).length = es.length := by
  simp [filledUp]

theorem filledUp_append (es es' : List Extent) :
    filledUp (es ++ es') = filledUp es ++ filledUp es' := List.map_append

theorem filledUp_grown (es : List Extent) : List.Forall₂ Grown es (filledUp es) := by
  induction es with
  | nil => exact .nil
  | cons e es ih => exact .cons ⟨rfl, by dsimp only; omega, Nat.le_refl _⟩ ih

/-- Filling up packed extents adds bytes behind the last, as many as are wanted and fit its last
sector; if that is not enough, every extent ends with its sector. -/
theorem ensureExtents_packed (hl : ∀ e ∈ es, e.length + 511 < 2 ^ 64) (hp : Packed es) (len : Nat) :
    ∃ tail, cellsOf (ensureExtents len es).2.1 = cellsOf es ++ tail ∧
      (cellsOf (ensureExtents len es).2.1).length + (ensureExtents len es).2.2 =
        max (cellsOf es).length len ∧
      Packed (ensureExtents len es).2.1 ∧
      (0 < (ensureExtents len es).2.2 → ∀ e ∈ (ensureExtents len es).2.1, 512 ∣ e.length) := by
  induction es generalizing len with
  | nil => exact ⟨[], by simp [ensureExtents], by simp [ensureExtents], trivial, by simp [ensureExtents]⟩
  | cons e es ih =>
    have he := hl e (by simp)
    rw [ensureExtents]
    by_cases h1 : e.length ≥ len
    · rw [if_pos h1]
      refine ⟨[], by simp, ?_, hp, by simp⟩
      simp only [cellsOf_cons, List.length_append, Extent.length_cells]
      omega
    rw [if_neg h1]
    dsimp only
    rw [wrap64_of_lt he]
    by_cases h2 : 512 * ((e.length + 511) / 512) ≥ len
    · -- a later extent in use would make this one end with its sector
      have hnil : cellsOf es = [] := by
        by_contra hne
        have := packed_tail hp hne
        omega
      rw [if_pos h2]
      refine ⟨List.range' (512 * e.block + e.length) (len - e.length), ?_, ?_, ?_, by simp⟩
      · rw [cellsOf_cons, cellsOf_cons, hnil, List.append_nil, List.append_nil, Extent.cells,
          Extent.cells, List.range'_append_1]
        congr 1
        dsimp only
        omega
      · simp only [cellsOf_cons, hnil, List.append_nil, Extent.length_cells]
        omega
      · exact ⟨fun hne => (hne hnil).elim, packed_of_nil hnil⟩
    · rw [if_neg h2]
      obtain ⟨tail, hcells, hlen, hpk, hal⟩ := ih (fun x hx => hl x (by simp [hx])) hp.2
        (len - 512 * ((e.length + 511) / 512))
      dsimp only
      have hdvd : 512 ∣ 512 * ((e.length + 511) / 512) := Nat.dvd_mul_right ..
      by_cases hes : cellsOf es = []
      · refine ⟨List.range' (512 * e.block + e.length) (512 * ((e.length + 511) / 512) - e.length) ++
          tail, ?_, ?_, ⟨fun _ => hdvd, hpk⟩, ?_⟩
        · rw [cellsOf_cons, cellsOf_cons, hcells, hes, List.nil_append, List.append_nil,
            ← List.append_assoc, Extent.cells, Extent.cells, List.range'_append_1]
          congr 2
          dsimp only
          omega
        · simp only [cellsOf_cons, List.length_append, Extent.length_cells, hes,
            List.length_nil] at hlen ⊢
          omega
        · intro hr x hx
          rcases List.mem_cons.mp hx with rfl | hx
          · exact hdvd
          · exact hal hr x hx
      · have hfull := packed_tail hp hes
        have hsame : ({ e with length := 512 * ((e.length + 511) / 512) } : Extent) = e := by
          rw [← hfull]
        rw [hsame]
        refine ⟨tail, by rw [cellsOf_cons, cellsOf_cons, hcells, List.append_assoc], ?_,
          ⟨fun _ => ?_, hpk⟩, ?_⟩
        · simp only [cellsOf_cons, List.length_append, Extent.length_cells] at hlen ⊢
          omega
        · rw [hfull]
          exact hdvd
        · intro hr x hx
          rcases List.mem_cons.mp hx with rfl | hx
          · rw [hfull]
            exact hdvd
          · exact hal hr x hx

/-- Fresh blocks inserted at the end of a node add their bytes behind the others. -/
theorem insertExtent_cells (hstop : nb + rest / 512 < 2 ^ 64)
    (hes : ∀ e ∈ es, e.block + e.length / 512 < 2 ^ 64) (hf : FilledFirst es) (ho : OnlyAtEnd nb rest es)
    (ha : ∀ e ∈ es, 512 ∣ e.length) (hi : insertExtent nb rest es = some es') :
    cellsOf es' = cellsOf es ++ List.range' (512 * nb) rest ∧ FilledFirst es' ∧ Packed es' := by
  induction es generalizing es' with
  | nil => cases hi
  | cons e es ih =>
    rw [insertExtent, wrap64_of_lt hstop, wrap64_of_lt (hes e (by simp))] at hi
    by_cases h0 : e.length = 0
    · rw [if_pos h0] at hi
      cases hi
      have hnil := hf.1 h0
      refine ⟨?_, ⟨fun _ => hnil, hf.2⟩, ⟨fun hne => (hne hnil).elim, packed_of_nil hnil⟩⟩
      rw [cellsOf_cons, cellsOf_cons, hnil, cells_eq_nil.mpr h0]
      simp [Extent.cells]
    rw [if_neg h0] at hi
    obtain ⟨hbefore, hafter⟩ := ho.1 (by omega)
    rw [if_neg hbefore] at hi
    obtain ⟨k, hk⟩ := ha e (by simp)
    by_cases h2 : e.length % 512 = 0 ∧ e.block + e.length / 512 = nb
    · rw [if_pos h2] at hi
      cases hi
      have hnil := hafter (by omega)
      refine ⟨?_, ⟨fun _ => hnil, hf.2⟩, ⟨fun hne => (hne hnil).elim, packed_of_nil hnil⟩⟩
      rw [cellsOf_cons, cellsOf_cons, hnil, List.append_nil, List.append_nil, Extent.cells,
        Extent.cells]
      have hnb : 512 * nb = 512 * e.block + e.length := by omega
      rw [hnb, List.range'_append_1]
    · rw [if_neg h2] at hi
      obtain ⟨xs, hxs, rfl⟩ := Option.map_eq_some_iff.mp hi
      obtain ⟨hc, hff, hpk⟩ := ih (fun x hx => hes x (by simp [hx])) hf.2 ho.2
        (fun x hx => ha x (by simp [hx])) hxs
      refine ⟨by rw [cellsOf_cons, cellsOf_cons, hc, List.append_assoc],
        ⟨fun hz => (h0 hz).elim, hff⟩, ⟨fun _ => ⟨k, hk⟩, hpk⟩⟩

end Origel.RedoxFs
