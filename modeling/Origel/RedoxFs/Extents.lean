import Mathlib.Data.List.Perm.Subperm
import Origel.RedoxFs.FileSystem

/-! What the loops over a node's extents do, stated on the extents alone. -/
namespace Origel.RedoxFs

open Origel.Lib

variable {size block length : Nat} {e e' r : Extent} {es es' : List Extent}

namespace Extent

/-- The blocks the extent lists. -/
def span (e : Extent) : List Nat := List.range' e.block ((e.length + 511) / 512)

/-- The extent lies on a disk of the given size, behind the reserved blocks. -/
structure Fits (size : Nat) (e : Extent) : Prop where
  le : 512 * e.block + e.length ≤ size
  start : 0 < e.length → 4 ≤ e.block

theorem fits_mk {b l : Nat} :
    (⟨b, l⟩ : Extent).Fits size ↔ 512 * b + l ≤ size ∧ (0 < l → 4 ≤ b) :=
  ⟨fun h => ⟨h.le, h.start⟩, fun h => ⟨h.1, h.2⟩⟩

theorem span_mk (b l : Nat) : (⟨b, l⟩ : Extent).span = List.range' b ((l + 511) / 512) := rfl

theorem mem_span {b : Nat} :
    b ∈ e.span ↔ e.block ≤ b ∧ b < e.block + (e.length + 511) / 512 := by
  simp [span, List.mem_range'_1]

theorem span_eq_nil (h : e.length = 0) : e.span = [] := by
  simp [span, h]

theorem Fits.mem_span (h : e.Fits size) {b : Nat} (hb : b ∈ e.span) : 4 ≤ b ∧ 512 * b < size := by
  have hb := Extent.mem_span.mp hb
  have hl : 0 < e.length := by omega
  have := h.start hl
  have := h.le
  omega

theorem Fits.block_lt (h : e.Fits size) (hs : size < 2 ^ 64) :
    e.block < 2 ^ 64 ∧ e.length < 2 ^ 64 := by
  have := h.le
  omega

theorem Fits.length_lt (h : e.Fits size) (hs : size < 2 ^ 64) : e.length + 511 < 2 ^ 64 := by
  have := h.le
  by_cases hl : 0 < e.length
  · have := h.start hl
    omega
  · omega

/-- The numbers of the extent's sectors are counted without a wrap. -/
structure Plain (e : Extent) : Prop where
  length : e.length + 511 < 2 ^ 64
  stop : e.block + (e.length + 511) / 512 ≤ 2 ^ 64

theorem Fits.plain (h : e.Fits size) (hs : size < 2 ^ 64) : e.Plain := by
  refine ⟨h.length_lt hs, ?_⟩
  have := h.le
  omega

theorem Fits.stop_lt (h : e.Fits size) (hs : size < 2 ^ 64) : e.block + e.length / 512 < 2 ^ 64 := by
  have := h.le
  omega

theorem fits_default (size : Nat) : Extent.default.Fits size :=
  ⟨by simp [default], by simp [default]⟩

/-- On a real disk `blocks` does not overflow. -/
theorem blocks_eq (h : e.Plain) :
    e.blocks = (List.range ((e.length + 511) / 512)).map fun i =>
      (e.block + i, min 512 (e.length - 512 * i)) := by
  obtain ⟨hlength, hstop⟩ := h
  rw [blocks, wrap64_of_lt hlength]
  apply List.map_congr_left
  intro i hi
  have hi := List.mem_range.mp hi
  rw [wrap64_of_lt (by omega)]

end Extent

/-- The blocks a list of extents lists. -/
def spans (es : List Extent) : List Nat := es.flatMap Extent.span

@[simp] theorem spans_nil : spans [] = [] := rfl

@[simp] theorem spans_cons : spans (e :: es) = e.span ++ spans es := rfl

@[simp] theorem spans_append : spans (es ++ es') = spans es ++ spans es' := List.flatMap_append

theorem spans_eq_nil (h : ∀ e ∈ es, e.length = 0) : spans es = [] := by
  rw [spans, List.flatMap_eq_nil_iff]
  exact fun e he => Extent.span_eq_nil (h e he)

theorem spans_replicate (n : Nat) : spans (List.replicate n Extent.default) = [] := by
  apply spans_eq_nil
  intro e he
  rw [List.eq_of_mem_replicate he]
  rfl

/-- The sectors of an extent in whole sectors are its blocks. -/
theorem childBlocks_eq {n : Node} (h : ∀ e ∈ n.extents, 512 ∣ e.length ∧ e.Plain) :
    childBlocks n = spans n.extents := by
  unfold childBlocks spans
  apply List.flatMap_congr
  intro e he
  obtain ⟨hd, hl⟩ := h e he
  have hall : ∀ p ∈ e.blocks, decide (512 ≤ p.2) = true := by
    intro p hp
    rw [Extent.blocks_eq hl] at hp
    obtain ⟨i, hi, rfl⟩ := List.mem_map.mp hp
    have hi := List.mem_range.mp hi
    simp only [decide_eq_true_eq]
    omega
  rw [List.filter_eq_self.mpr hall, Extent.blocks_eq hl, List.map_map, Extent.span,
    List.range'_eq_map_range]
  rfl

/-- `allocate` cuts its blocks off the front of one extent. -/
theorem takeExtent_some {b : Nat} (h : takeExtent length es = some (b, es')) :
    ∃ l e r, es = l ++ e :: r ∧ length ≤ e.length / 512 ∧ b = e.block ∧
      es' = l ++ ⟨e.block + length, e.length - 512 * length⟩ :: r := by
  induction es generalizing es' with
  | nil => cases h
  | cons e es ih =>
    unfold takeExtent at h
    split at h
    · rename_i hl
      cases h
      exact ⟨[], e, es, rfl, hl, rfl, rfl⟩
    · obtain ⟨⟨b', rest⟩, hr, he⟩ := Option.map_eq_some_iff.mp h
      cases he
      obtain ⟨l, x, r, rfl, hx, rfl, rfl⟩ := ih hr
      exact ⟨e :: l, x, r, rfl, hx, rfl, rfl⟩

theorem spans_takeExtent {b : Nat} (h : takeExtent length es = some (b, es')) :
    (List.range' b length ++ spans es').Perm (spans es) := by
  obtain ⟨l, e, r, rfl, hl, rfl, rfl⟩ := takeExtent_some h
  have hspan : e.span = List.range' e.block length ++
      (⟨e.block + length, e.length - 512 * length⟩ : Extent).span := by
    rw [Extent.span, Extent.span_mk, List.range'_append_1]
    congr 1
    omega
  simp only [spans_append, spans_cons, hspan, List.append_assoc]
  exact List.perm_append_comm_assoc ..

theorem takeExtent_fits {b : Nat} (h : takeExtent length es = some (b, es'))
    (hf : ∀ e ∈ es, e.Fits size) :
    (∀ e ∈ es', e.Fits size) ∧ 512 * b + 512 * length ≤ size ∧ (0 < length → 4 ≤ b) := by
  obtain ⟨l, e, r, rfl, hl, rfl, rfl⟩ := takeExtent_some h
  have he := hf e (by simp)
  have hle := he.le
  have hst := he.start
  refine ⟨?_, by omega, fun h0 => hst (by omega)⟩
  intro x hx
  rcases List.mem_append.mp hx with hx | hx
  · exact hf x (by simp [hx])
  rcases List.mem_cons.mp hx with rfl | hx
  · refine Extent.fits_mk.mpr ⟨by omega, fun h0 => ?_⟩
    have := hst (by omega)
    omega
  · exact hf x (by simp [hx])

theorem length_takeExtent {b : Nat} (h : takeExtent length es = some (b, es')) :
    es'.length = es.length := by
  obtain ⟨l, e, r, rfl, -, -, rfl⟩ := takeExtent_some h
  simp

/-- The three places `insert_blocks` has for a run of blocks. -/
inductive Place (block length : Nat) : Extent → Extent → Prop
  | empty {e : Extent} (h : e.length = 0) : Place block length e ⟨block, length⟩
  | before {e : Extent} (h : e.length ≠ 0) (ha : length % 512 = 0)
      (hb : e.block = wrap64 (block + length / 512)) : Place block length e ⟨block, e.length + length⟩
  | after {e : Extent} (h : e.length ≠ 0) (ha : e.length % 512 = 0)
      (hb : wrap64 (e.block + e.length / 512) = block) : Place block length e ⟨e.block, e.length + length⟩

/-- An extent that is in use and that the blocks do not touch. -/
def Blocked (block length : Nat) (e : Extent) : Prop :=
  e.length ≠ 0 ∧ ¬(length % 512 = 0 ∧ e.block = wrap64 (block + length / 512)) ∧
    ¬(e.length % 512 = 0 ∧ wrap64 (e.block + e.length / 512) = block)

theorem insertExtent_some (h : insertExtent block length es = some es') :
    ∃ l e e' r, es = l ++ e :: r ∧ es' = l ++ e' :: r ∧ Place block length e e' ∧
      ∀ x ∈ l, Blocked block length x := by
  induction es generalizing es' with
  | nil => cases h
  | cons e es ih =>
    unfold insertExtent at h
    split at h
    · rename_i h0
      cases h
      exact ⟨[], e, _, es, rfl, rfl, .empty h0, by simp⟩
    rename_i h0
    split at h
    · rename_i hb
      cases h
      exact ⟨[], e, _, es, rfl, rfl, .before h0 hb.1 hb.2, by simp⟩
    rename_i hnb
    split at h
    · rename_i ha
      cases h
      exact ⟨[], e, _, es, rfl, rfl, .after h0 ha.1 ha.2, by simp⟩
    rename_i hna
    obtain ⟨rest, hr, rfl⟩ := Option.map_eq_some_iff.mp h
    obtain ⟨l, x, x', r, rfl, rfl, hp, hl⟩ := ih hr
    refine ⟨e :: l, x, x', r, rfl, rfl, hp, ?_⟩
    intro y hy
    rcases List.mem_cons.mp hy with rfl | hy
    · exact ⟨h0, hnb, hna⟩
    · exact hl y hy

theorem insertExtent_none :
    insertExtent block length es = none ↔ ∀ e ∈ es, Blocked block length e := by
  induction es with
  | nil => simp [insertExtent]
  | cons e es ih =>
    simp only [List.mem_cons, forall_eq_or_imp]
    rw [insertExtent]
    split
    · rename_i h0
      simp [Blocked, h0]
    split
    · rename_i h0 hb
      simp [Blocked, hb]
    split
    · rename_i h0 hb ha
      simp [Blocked, ha]
    rename_i h0 hb ha
    simp only [Option.map_eq_none_iff, ih]
    exact ⟨fun h => ⟨⟨h0, hb, ha⟩, h⟩, fun h => h.2⟩

theorem Place.perm_span (h : Place block length e e') (hstop : block + length / 512 < 2 ^ 64)
    (he : e.block + e.length / 512 < 2 ^ 64) :
    e'.span.Perm (List.range' block ((length + 511) / 512) ++ e.span) := by
  cases h with
  | empty h0 =>
    rw [Extent.span_eq_nil h0]
    simp [Extent.span]
  | before h0 ha hb =>
    rw [wrap64_of_lt hstop] at hb
    have hspan : e.span = List.range' (block + (length + 511) / 512) ((e.length + 511) / 512) := by
      rw [Extent.span, hb]
      congr 1
      omega
    rw [hspan, List.range'_append_1, Extent.span_mk]
    apply List.Perm.of_eq
    congr 1
    omega
  | after h0 ha hb =>
    rw [wrap64_of_lt he] at hb
    have hspan : e.span = List.range' e.block (e.length / 512) := by
      rw [Extent.span]
      congr 1
      omega
    refine List.Perm.trans (List.Perm.of_eq ?_) List.perm_append_comm
    rw [hspan, ← hb, List.range'_append_1, Extent.span_mk]
    congr 1
    omega

theorem Place.fits (h : Place block length e e') (he : e.Fits size) (hsize : size < 2 ^ 64)
    (hn : 512 * block + length ≤ size) (hs : 0 < length → 4 ≤ block) : e'.Fits size := by
  have hle := he.le
  have hst := he.start
  cases h with
  | empty h0 => exact ⟨hn, hs⟩
  | before h0 ha hb =>
    rw [wrap64_of_lt (by omega)] at hb
    rw [hb] at hle
    refine Extent.fits_mk.mpr ⟨by omega, fun _ => ?_⟩
    by_cases hl : 0 < length
    · exact hs hl
    · have := hst (by omega)
      omega
  | after h0 ha hb =>
    rw [wrap64_of_lt (he.stop_lt hsize)] at hb
    rw [← hb] at hn
    exact Extent.fits_mk.mpr ⟨by omega, fun _ => hst (by omega)⟩

theorem spans_insertExtent (h : insertExtent block length es = some es') (hsize : size < 2 ^ 64)
    (hf : ∀ e ∈ es, e.Fits size) (hn : 512 * block + length ≤ size) :
    (spans es').Perm (List.range' block ((length + 511) / 512) ++ spans es) := by
  obtain ⟨l, e, e', r, rfl, rfl, hp, -⟩ := insertExtent_some h
  have hspan := hp.perm_span (by omega) ((hf e (by simp)).stop_lt hsize)
  simp only [spans_append, spans_cons]
  refine ((hspan.append_right (spans r)).append_left (spans l)).trans ?_
  rw [List.append_assoc]
  exact List.perm_append_comm_assoc ..

theorem insertExtent_fits (h : insertExtent block length es = some es') (hsize : size < 2 ^ 64)
    (hf : ∀ e ∈ es, e.Fits size) (hn : 512 * block + length ≤ size) (hs : 0 < length → 4 ≤ block) :
    ∀ e ∈ es', e.Fits size := by
  obtain ⟨l, e, e', r, rfl, rfl, hp, -⟩ := insertExtent_some h
  intro x hx
  rcases List.mem_append.mp hx with hx | hx
  · exact hf x (by simp [hx])
  rcases List.mem_cons.mp hx with rfl | hx
  · exact hp.fits (hf e (by simp)) hsize hn hs
  · exact hf x (by simp [hx])

theorem length_insertExtent (h : insertExtent block length es = some es') :
    es'.length = es.length := by
  obtain ⟨l, e, e', r, rfl, rfl, -⟩ := insertExtent_some h
  simp

theorem insertExtent_aligned (h : insertExtent block length es = some es')
    (ha : ∀ e ∈ es, 512 ∣ e.length) (hl : 512 ∣ length) : ∀ e ∈ es', 512 ∣ e.length := by
  obtain ⟨l, e, e', r, rfl, rfl, hp, -⟩ := insertExtent_some h
  have he := ha e (by simp)
  intro x hx
  rcases List.mem_append.mp hx with hx | hx
  · exact ha x (by simp [hx])
  rcases List.mem_cons.mp hx with rfl | hx
  · cases hp
    · exact hl
    · exact Nat.dvd_add he hl
    · exact Nat.dvd_add he hl
  · exact ha x (by simp [hx])

/-- The blocks of the extent a removal hands out. -/
def spanOption : Option Extent → List Nat
  | some e => e.span
  | none => []

/-- `remove_blocks` of one block takes it out of an extent in whole sectors. -/
theorem removeExtent_some {o : Option Extent} (h : removeExtent block 1 es = some (es', o))
    (hsize : size < 2 ^ 64) (hf : ∀ e ∈ es, e.Fits size) (hb : 512 * block < size) :
    ∃ l e e' r, es = l ++ e :: r ∧ es' = l ++ e' :: r ∧ e.block ≤ block ∧
      block + 1 ≤ e.block + e.length / 512 ∧
      (e' = ⟨e.block, 512 * (block - e.block)⟩ ∧ e.block < block ∧
          (o = none ∧ e.block + e.length / 512 = block + 1 ∨
            o = some ⟨block + 1, 512 * (e.block + e.length / 512 - (block + 1))⟩ ∧
              block + 1 < e.block + e.length / 512) ∨
        o = none ∧ e.block = block ∧
          (e' = ⟨block + 1, 512 * (e.block + e.length / 512 - (block + 1))⟩ ∧
              block + 1 < e.block + e.length / 512 ∨
            e' = Extent.default ∧ e.block + e.length / 512 = block + 1)) := by
  induction es generalizing es' with
  | nil => cases h
  | cons e es ih =>
    have he := (hf e (by simp)).le
    have hstop : wrap64 (block + 1) = block + 1 := wrap64_of_lt (by omega)
    have hextent : wrap64 (e.block + e.length / 512) = e.block + e.length / 512 :=
      wrap64_of_lt ((hf e (by simp)).stop_lt hsize)
    unfold removeExtent at h
    simp only [hstop, hextent] at h
    split at h
    · rename_i hin
      have hleft : wrap64 (512 * (block - e.block)) = 512 * (block - e.block) := wrap64_of_lt (by omega)
      have hright : wrap64 (512 * (e.block + e.length / 512 - (block + 1))) =
          512 * (e.block + e.length / 512 - (block + 1)) := wrap64_of_lt (by omega)
      rw [hleft, hright] at h
      split at h
      · rename_i hleft
        simp only [Option.some.injEq, Prod.mk.injEq] at h
        obtain ⟨rfl, ho⟩ := h
        refine ⟨[], e, _, es, rfl, rfl, hin.1, hin.2, Or.inl ⟨rfl, by simp at hleft; omega, ?_⟩⟩
        split at ho
        · rename_i hright
          exact Or.inr ⟨ho.symm, by simp at hright; omega⟩
        · rename_i hright
          exact Or.inl ⟨ho.symm, by simp at hright; omega⟩
      · rename_i hleft
        have hb : e.block = block := by simp at hleft; omega
        split at h
        · rename_i hright
          simp only [Option.some.injEq, Prod.mk.injEq] at h
          obtain ⟨rfl, rfl⟩ := h
          exact ⟨[], e, _, es, rfl, rfl, hin.1, hin.2,
            Or.inr ⟨rfl, hb, Or.inl ⟨rfl, by simp at hright; omega⟩⟩⟩
        · rename_i hright
          simp only [Option.some.injEq, Prod.mk.injEq] at h
          obtain ⟨rfl, rfl⟩ := h
          exact ⟨[], e, _, es, rfl, rfl, hin.1, hin.2,
            Or.inr ⟨rfl, hb, Or.inr ⟨rfl, by simp at hright; omega⟩⟩⟩
    · obtain ⟨⟨rest, o'⟩, hr, he⟩ := Option.map_eq_some_iff.mp h
      cases he
      obtain ⟨l, x, x', r, rfl, rfl, hx⟩ := ih hr fun x hx => hf x (by simp [hx])
      exact ⟨e :: l, x, x', r, rfl, rfl, hx⟩

theorem removeExtent_none (hsize : size < 2 ^ 64) (hf : ∀ e ∈ es, e.Fits size)
    (hb : 512 * block < size) (ha : ∀ e ∈ es, 512 ∣ e.length) :
    removeExtent block 1 es = none ↔ block ∉ spans es := by
  induction es with
  | nil => simp [removeExtent]
  | cons e es ih =>
    have he := ha e (by simp)
    have ih := ih (fun x hx => hf x (by simp [hx])) fun x hx => ha x (by simp [hx])
    have hstop : wrap64 (block + 1) = block + 1 := wrap64_of_lt (by omega)
    have hextent : wrap64 (e.block + e.length / 512) = e.block + e.length / 512 :=
      wrap64_of_lt ((hf e (by simp)).stop_lt hsize)
    rw [removeExtent]
    simp only [hstop, hextent, spans_cons, List.mem_append, not_or, Extent.mem_span]
    split
    · rename_i hin
      constructor
      · intro h
        split at h
        · cases h
        · split at h <;> cases h
      · intro h
        omega
    · rename_i hin
      simp only [Option.map_eq_none_iff, ih]
      exact ⟨fun h => ⟨by omega, h⟩, fun h => h.2⟩

theorem spans_removeExtent {o : Option Extent} (h : removeExtent block 1 es = some (es', o))
    (hsize : size < 2 ^ 64) (hf : ∀ e ∈ es, e.Fits size) (hb : 512 * block < size) (ha : ∀ e ∈ es, 512 ∣ e.length) :
    (spans es).Perm (block :: (spanOption o ++ spans es')) := by
  obtain ⟨l, e, e', r, rfl, rfl, hlo, hhi, hcase⟩ := removeExtent_some h hsize hf hb
  have he := ha e (by simp)
  have hspan : e.span.Perm (block :: (spanOption o ++ e'.span)) := by
    have split : e.span = List.range' e.block (block - e.block) ++ block ::
        List.range' (block + 1) (e.block + e.length / 512 - (block + 1)) := by
      have h1 : (e.length + 511) / 512 =
          (block - e.block) + (1 + (e.block + e.length / 512 - (block + 1))) := by omega
      have h2 : e.block + (block - e.block) = block := by omega
      rw [Extent.span, h1, ← List.range'_append_1, ← List.range'_append_1, h2]
      rfl
    have width : ∀ k : Nat, (512 * k + 511) / 512 = k := by omega
    rw [split]
    rcases hcase with ⟨rfl, -, ⟨rfl, hr⟩ | ⟨rfl, hr⟩⟩ | ⟨rfl, hb, ⟨rfl, hr⟩ | ⟨rfl, hr⟩⟩
    · simp only [hr, Nat.sub_self, List.range'_zero, spanOption, Extent.span, width, List.nil_append]
      exact List.perm_append_singleton ..
    · simp only [spanOption, Extent.span, width]
      refine List.perm_middle.trans ?_
      exact List.Perm.cons _ List.perm_append_comm
    · simp [spanOption, Extent.span, width, hb]
    · have h0 : block + e.length / 512 - (block + 1) = 0 := by omega
      simp [spanOption, Extent.span, hb, Extent.default, h0]
  have hcount := List.perm_iff_count.mp hspan
  rw [List.perm_iff_count]
  intro a
  have ha := hcount a
  simp only [List.count_cons, List.count_append] at ha
  simp only [spans_append, spans_cons, List.count_cons, List.count_append, ha]
  omega

theorem removeExtent_fits {o : Option Extent} (h : removeExtent block 1 es = some (es', o))
    (hsize : size < 2 ^ 64) (hf : ∀ e ∈ es, e.Fits size) (hb : 512 * block < size) :
    (∀ e ∈ es', e.Fits size ∧ (512 ∣ e.length ∨ e ∈ es)) ∧ es'.length = es.length ∧
      ∀ x, o = some x → x.Fits size ∧ 512 ∣ x.length := by
  obtain ⟨l, e, e', r, rfl, rfl, hlo, hhi, hcase⟩ := removeExtent_some h hsize hf hb
  have he := hf e (by simp)
  have hle := he.le
  have hst := he.start (by omega)
  have hright : 512 * (block + 1) + 512 * (e.block + e.length / 512 - (block + 1)) ≤ size := by
    omega
  have he' : e'.Fits size ∧ 512 ∣ e'.length := by
    rcases hcase with ⟨rfl, -, -⟩ | ⟨-, hb, ⟨rfl, hr⟩ | ⟨rfl, hr⟩⟩
    · refine ⟨Extent.fits_mk.mpr ⟨by omega, fun _ => hst⟩, Dvd.intro _ rfl⟩
    · exact ⟨Extent.fits_mk.mpr ⟨hright, fun _ => by omega⟩, Dvd.intro _ rfl⟩
    · exact ⟨Extent.fits_default size, by simp [Extent.default]⟩
  refine ⟨?_, by simp, ?_⟩
  · intro x hx
    rcases List.mem_append.mp hx with hx | hx
    · exact ⟨hf x (by simp [hx]), Or.inr (by simp [hx])⟩
    rcases List.mem_cons.mp hx with rfl | hx
    · exact ⟨he'.1, Or.inl he'.2⟩
    · exact ⟨hf x (by simp [hx]), Or.inr (by simp [hx])⟩
  · intro x hx
    rcases hcase with ⟨-, -, ⟨rfl, -⟩ | ⟨rfl, hr⟩⟩ | ⟨rfl, -⟩ <;> cases hx
    exact ⟨Extent.fits_mk.mpr ⟨hright, fun _ => by omega⟩, Dvd.intro _ rfl⟩

/-- Every extent of the new list stands for one of the old. -/
theorem forall₂_source {R : Extent → Extent → Prop} (h : List.Forall₂ R es es') (he : e' ∈ es') :
    ∃ e ∈ es, R e e' := by
  induction h with
  | nil => cases he
  | cons hr _ ih =>
    rcases List.mem_cons.mp he with rfl | he
    · exact ⟨_, List.mem_cons_self, hr⟩
    · obtain ⟨x, hx, hr⟩ := ih he
      exact ⟨x, List.mem_cons_of_mem _ hx, hr⟩

/-- The extent keeps its place and loses bytes at most. -/
def Shrunk (e e' : Extent) : Prop := e'.block = e.block ∧ e'.length ≤ e.length

/-- The extent grows at most to the end of its last sector. -/
def Grown (e e' : Extent) : Prop :=
  e'.block = e.block ∧ e.length ≤ e'.length ∧ e'.length ≤ 512 * ((e.length + 511) / 512)

theorem Grown.span (h : Grown e e') : e'.span = e.span := by
  obtain ⟨hb, hl, hu⟩ := h
  rw [Extent.span, Extent.span, hb]
  congr 1
  omega

theorem Grown.stop_lt (h : Grown e e') (he : e.Fits size) (hs : size < 2 ^ 64) :
    e'.block + e'.length / 512 < 2 ^ 64 := by
  obtain ⟨hb, -, hu⟩ := h
  have := he.le
  omega

theorem Shrunk.span (h : Shrunk e e') : e'.span.Sublist e.span := by
  obtain ⟨hb, hl⟩ := h
  rw [Extent.span, Extent.span, hb]
  exact List.range'_sublist_right.mpr (by omega)

theorem spans_grown (h : List.Forall₂ Grown es es') : spans es' = spans es := by
  induction h with
  | nil => rfl
  | cons he _ ih => rw [spans_cons, spans_cons, he.span, ih]

theorem spans_shrunk (h : List.Forall₂ Shrunk es es') : (spans es').Sublist (spans es) := by
  induction h with
  | nil => exact List.Sublist.refl _
  | cons he _ ih => exact he.span.append ih

theorem truncateExtents_append (es es' : List Extent) (length : Nat) :
    truncateExtents length (es ++ es') =
      ((truncateExtents length es).1 || (truncateExtents (truncateExtents length es).2.2 es').1,
        (truncateExtents length es).2.1 ++ (truncateExtents (truncateExtents length es).2.2 es').2.1,
        (truncateExtents (truncateExtents length es).2.2 es').2.2) := by
  induction es generalizing length with
  | nil => rfl
  | cons e es ih =>
    simp only [List.cons_append, truncateExtents]
    split <;> simp [ih]

theorem truncateExtents_unchanged (h : (truncateExtents length es).1 = false) :
    (truncateExtents length es).2.1 = es := by
  induction es generalizing length with
  | nil => rfl
  | cons e es ih =>
    rw [truncateExtents] at h ⊢
    split at h
    · cases h
    · rename_i hl
      rw [if_neg hl]
      exact congrArg (e :: ·) (ih h)

theorem truncateExtents_shrunk (es : List Extent) (length : Nat) :
    List.Forall₂ Shrunk es (truncateExtents length es).2.1 := by
  induction es generalizing length with
  | nil => exact .nil
  | cons e es ih =>
    rw [truncateExtents]
    split
    · exact .cons ⟨rfl, by dsimp only; omega⟩ (ih _)
    · exact .cons ⟨rfl, Nat.le_refl _⟩ (ih _)

theorem ensureExtents_zero (es : List Extent) : ensureExtents 0 es = (false, es, 0) := by
  cases es with
  | nil => rfl
  | cons e es => simp [ensureExtents]

theorem ensureExtents_append (es es' : List Extent) (length : Nat) :
    ensureExtents length (es ++ es') =
      ((ensureExtents length es).1 || (ensureExtents (ensureExtents length es).2.2 es').1,
        (ensureExtents length es).2.1 ++ (ensureExtents (ensureExtents length es).2.2 es').2.1,
        (ensureExtents (ensureExtents length es).2.2 es').2.2) := by
  induction es generalizing length with
  | nil => simp [ensureExtents]
  | cons e es ih =>
    simp only [List.cons_append, ensureExtents]
    split
    · simp [ensureExtents_zero]
    · split
      · simp [ensureExtents_zero]
      · simp [ih]

theorem ensureExtents_unchanged (h : (ensureExtents length es).1 = false) :
    (ensureExtents length es).2.1 = es := by
  cases es with
  | nil => rfl
  | cons e es =>
    rw [ensureExtents] at h ⊢
    split at h
    · rename_i hl
      rw [if_pos hl]
    · dsimp only at h
      split at h <;> cases h

theorem grown_refl (e : Extent) : Grown e e := ⟨rfl, Nat.le_refl _, by omega⟩

theorem ensureExtents_grown (hl : ∀ e ∈ es, e.length + 511 < 2 ^ 64) (length : Nat) :
    List.Forall₂ Grown es (ensureExtents length es).2.1 := by
  induction es generalizing length with
  | nil => exact .nil
  | cons e es ih =>
    have he := hl e (by simp)
    have same : ∀ xs : List Extent, List.Forall₂ Grown xs xs := fun xs =>
      List.forall₂_same.mpr fun x _ => grown_refl x
    rw [ensureExtents]
    split
    · exact same _
    rename_i hlt
    dsimp only
    rw [wrap64_of_lt he]
    split
    · rename_i hle
      exact .cons ⟨rfl, by dsimp only; omega, hle⟩ (same es)
    · exact .cons ⟨rfl, by dsimp only; omega, Nat.le_refl _⟩ (ih (fun x hx => hl x (by simp [hx])) _)

theorem pushBlocks_zero (ps : List (Nat × Nat)) (offset : Nat) (push : Extent)
    (hp : ∀ p ∈ ps, 0 < p.2) : (pushBlocks ps offset 0 push).2.1 = 0 ∧
      (pushBlocks ps offset 0 push).2.2.length = push.length := by
  induction ps generalizing offset push with
  | nil => exact ⟨rfl, rfl⟩
  | cons p ps ih =>
    obtain ⟨b, s⟩ := p
    have hs : ¬0 ≥ s := by
      have := hp (b, s) (by simp)
      omega
    have htail : ∀ q ∈ ps, 0 < q.2 := fun q hq => hp q (by simp [hq])
    rw [pushBlocks]
    split
    · dsimp only
      rw [if_neg (Nat.lt_irrefl 0)]
      exact ⟨rfl, by split <;> rfl⟩
    · exact ih _ _ htail

theorem blocks_pos (e : Extent) : ∀ p ∈ e.blocks, 0 < p.2 := by
  intro p hp
  obtain ⟨i, hi, rfl⟩ := List.mem_map.mp hp
  have hi := List.mem_range.mp hi
  have hw : wrap64 (e.length + 511) ≤ e.length + 511 := Nat.mod_le _ _
  simp only [Nat.lt_min]
  omega

/-- With nothing wanted nothing is pushed. -/
theorem pushExtents_zero (es : List Extent) (offset : Nat) (acc : List Extent) :
    (pushExtents es offset 0 acc).2.2 = acc := by
  cases es with
  | nil => rfl
  | cons e es =>
    obtain ⟨hl, hp⟩ := pushBlocks_zero e.blocks offset Extent.default (blocks_pos e)
    have hp : ¬(pushBlocks e.blocks offset 0 Extent.default).2.2.length > 0 := by
      rw [hp]
      exact Nat.lt_irrefl 0
    rw [pushExtents]
    simp only [hl, hp, if_true, if_false]

theorem pushExtents_append (es es' : List Extent) (offset len : Nat) (acc : List Extent) :
    (pushExtents (es ++ es') offset len acc).2.2 =
      if (pushExtents es offset len acc).2.1 = 0 then (pushExtents es offset len acc).2.2
      else (pushExtents es' (pushExtents es offset len acc).1 (pushExtents es offset len acc).2.1
        (pushExtents es offset len acc).2.2).2.2 := by
  induction es generalizing offset len acc with
  | nil =>
    simp only [List.nil_append, pushExtents]
    by_cases hl : len = 0
    · simp only [hl, if_true, pushExtents_zero]
    · simp only [hl, if_false]
  | cons e es ih =>
    simp only [List.cons_append, pushExtents]
    by_cases hl : (pushBlocks e.blocks offset len Extent.default).2.1 = 0
    · simp only [hl, if_true]
    · simp only [hl, if_false, ih]

end Origel.RedoxFs
