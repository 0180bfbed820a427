import Origel.RedoxFs.Walk

/-! The bytes behind a list of extents, and what the reading and writing loops do to them. -/
namespace Origel.RedoxFs

open Origel.Lib FileSystem

variable {fs : FileSystem} {e : Extent} {es : List Extent} {p : Progress} {block length : Nat}

/-- The places of an extent's bytes on the disk. -/
def Extent.cells (e : Extent) : List Nat := List.range' (512 * e.block) e.length

def cellsOf (es : List Extent) : List Nat := es.flatMap Extent.cells

@[simp] theorem cellsOf_nil : cellsOf [] = [] := rfl

@[simp] theorem cellsOf_cons : cellsOf (e :: es) = e.cells ++ cellsOf es := rfl

@[simp] theorem cellsOf_append (es es' : List Extent) :
    cellsOf (es ++ es') = cellsOf es ++ cellsOf es' := List.flatMap_append

@[simp] theorem Extent.length_cells (e : Extent) : e.cells.length = e.length := List.length_range'

theorem length_cellsOf (es : List Extent) : (cellsOf es).length = (es.map Extent.length).sum := by
  induction es with
  | nil => rfl
  | cons e es ih => simp [ih]

theorem Extent.map_cells (m : Nat → UInt8) (e : Extent) :
    e.cells.map m = load m (512 * e.block) e.length := rfl

theorem bytesAt_eq (hb : fs.block = 0) (b n : Nat) :
    fs.bytesAt b n = load fs.disk.bytes (512 * b) n := by
  rw [bytesAt, hb, Nat.zero_add]

theorem readAt_run (hb : fs.block = 0) (hw : fs.Within block) (n : Nat) :
    readAt block n fs = .ok (load fs.disk.bytes (512 * block) n) fs := by
  rw [← bytesAt_eq hb, ← readBlock_of_within hw]
  rfl

/-- A whole or partial sector, copied. -/
theorem readSector_run {start stop : Nat} (hb : fs.block = 0) (hw : fs.Within block) (hs : start ≤ stop) (h5 : stop ≤ 512)
    (hroom : p.i + (stop - start) ≤ p.buf.length) :
    readSector block start stop p fs = .ok { p with
      buf := overlay p.buf p.i (load fs.disk.bytes (512 * block + start) (stop - start))
      i := p.i + (stop - start) } fs := by
  have hsrc : ((load fs.disk.bytes (512 * block) 512).take stop).drop start =
      load fs.disk.bytes (512 * block + start) (stop - start) := by
    rw [take_load _ _ h5, drop_load]
  have hnot : ¬stop < start := by omega
  have hmin : min (stop - start) (p.buf.length - p.i) = stop - start := by omega
  rw [readSector, bind_ok (readAt_run hb hw 512)]
  simp only [hnot, if_false, hsrc, copyAt, length_load, hmin]
  rw [List.take_of_length_le (by simp; omega)]
  rfl

/-- The part of `read_node`'s loop body behind a first partial sector. -/
def readRest (e : Extent) (p : Progress) (block length : Nat) : FsM Progress := do
  let mut p := p
  let mut block := block
  let mut length := length
  let lengthAligned := 512 * (min length (p.buf.length - p.i) / 512)
  if lengthAligned > 0 then
    let bytes ← readAt block lengthAligned
    p := { p with buf := copyAt p.buf p.i bytes, i := p.i + lengthAligned }
    block := block + lengthAligned / 512
    length := length - lengthAligned
  if length > 0 then
    let sectorSize := min 512 length
    p ← readSector block 0 sectorSize p
    block := block + 1
    length := length - sectorSize
  if length ≠ 0 ∨ block ≠ e.block + (e.length + 511) / 512 then
    throw .crash
  return p

theorem readExtent_eq (e : Extent) (p : Progress) :
    readExtent e p = if p.byteOffset > 0 ∧ e.length > 0 then do
        let p ← readSector e.block p.byteOffset (min 512 e.length) p
        readRest e { p with byteOffset := 0 } (e.block + 1) (e.length - min 512 e.length)
      else readRest e p e.block e.length := rfl

theorem readRest_run (hb : fs.block = 0)
    (hw : ∀ b, block ≤ b → b < block + (length + 511) / 512 → fs.Within b) (hroom : p.i + length ≤ p.buf.length)
    (hend : block + (length + 511) / 512 = e.block + (e.length + 511) / 512) :
    readRest e p block length fs = .ok { p with
      buf := overlay p.buf p.i (load fs.disk.bytes (512 * block) length)
      i := p.i + length } fs := by
  have hmin : min length (p.buf.length - p.i) = length := by omega
  have hwhole : copyAt p.buf p.i (load fs.disk.bytes (512 * block) (512 * (length / 512))) =
      overlay p.buf p.i (load fs.disk.bytes (512 * block) (512 * (length / 512))) := by
    rw [copyAt, List.take_of_length_le (by simp; omega)]
  unfold readRest
  simp only [hmin]
  by_cases h0 : 512 * (length / 512) > 0
  · simp only [h0, if_true]
    rw [bind_ok (readAt_run hb (hw block le_rfl (by omega)) _)]
    simp only [hwhole]
    by_cases h1 : length - 512 * (length / 512) > 0
    · -- whole sectors and a part of one
      have hs : min 512 (length - 512 * (length / 512)) = length % 512 := by omega
      have hno : ¬(length - 512 * (length / 512) - length % 512 ≠ 0 ∨
          block + 512 * (length / 512) / 512 + 1 ≠ e.block + (e.length + 511) / 512) := by omega
      simp only [h1, if_true, hs]
      rw [bind_ok (readSector_run hb (hw _ (by omega) (by omega)) (Nat.zero_le _) (by omega) (by
        dsimp only
        rw [length_overlay (by simp; omega)]
        omega))]
      simp only [hno, if_false]
      have hcat : overlay (overlay p.buf p.i (load fs.disk.bytes (512 * block) (512 * (length / 512))))
          (p.i + 512 * (length / 512))
          (load fs.disk.bytes (512 * (block + 512 * (length / 512) / 512) + 0) (length % 512 - 0)) =
          overlay p.buf p.i (load fs.disk.bytes (512 * block) length) := by
        have hl := length_load fs.disk.bytes (512 * block) (512 * (length / 512))
        have ho : p.i + (load fs.disk.bytes (512 * block) (512 * (length / 512))).length ≤
            p.buf.length := by omega
        have h2 := overlay_overlay (load fs.disk.bytes
          (512 * (block + 512 * (length / 512) / 512) + 0) (length % 512 - 0)) ho
        rw [hl] at h2
        rw [h2]
        congr 1
        have ha : 512 * (block + 512 * (length / 512) / 512) + 0 =
            512 * block + 512 * (length / 512) := by omega
        rw [ha, Nat.sub_zero, ← load_add]
        congr 1
        omega
      have hi : p.i + 512 * (length / 512) + (length % 512 - 0) = p.i + length := by omega
      simp only [hcat, hi]
      rfl
    · have hlen : 512 * (length / 512) = length := by omega
      have hno : ¬(length - 512 * (length / 512) ≠ 0 ∨
          block + 512 * (length / 512) / 512 ≠ e.block + (e.length + 511) / 512) := by omega
      simp only [h1, hno, if_false]
      rw [hlen]
      rfl
  · simp only [h0, if_false]
    by_cases h1 : length > 0
    · have hs : min 512 length = length := by omega
      have hno : ¬(length - length ≠ 0 ∨ block + 1 ≠ e.block + (e.length + 511) / 512) := by omega
      simp only [h1, if_true, hs]
      rw [bind_ok (readSector_run hb (hw _ le_rfl (by omega)) (Nat.zero_le _) (by omega) (by omega))]
      simp only [hno, if_false, Nat.sub_zero, Nat.add_zero]
      rfl
    · have hlen : length = 0 := by omega
      have hno : ¬(length ≠ 0 ∨ block ≠ e.block + (e.length + 511) / 512) := by omega
      simp only [h1, hno, if_false]
      rw [hlen]
      simp only [load, List.range'_zero, List.map_nil, overlay_nil, Nat.add_zero]
      rfl

/-- One extent is read behind the bytes already there. -/
theorem readExtent_run (hb : fs.block = 0) (hw : ∀ b ∈ e.span, fs.Within b) (ho : p.byteOffset ≤ min 512 e.length)
    (hroom : p.i + (e.length - p.byteOffset) ≤ p.buf.length) :
    readExtent e p fs = .ok ⟨overlay p.buf p.i ((e.cells.map fs.disk.bytes).drop p.byteOffset),
      p.i + (e.length - p.byteOffset), 0⟩ fs := by
  have hin : ∀ b, e.block ≤ b → b < e.block + (e.length + 511) / 512 → fs.Within b :=
    fun b hlo hhi => hw b (Extent.mem_span.mpr ⟨hlo, hhi⟩)
  rw [readExtent_eq, Extent.map_cells, drop_load]
  by_cases h0 : p.byteOffset > 0 ∧ e.length > 0
  · rw [if_pos h0, bind_ok (readSector_run hb (hin _ le_rfl (by omega)) ho (by omega) (by omega))]
    have hl := length_load fs.disk.bytes (512 * e.block + p.byteOffset)
      (min 512 e.length - p.byteOffset)
    have hov : p.i + (load fs.disk.bytes (512 * e.block + p.byteOffset)
        (min 512 e.length - p.byteOffset)).length ≤ p.buf.length := by omega
    rw [readRest_run hb (fun b _ _ => hin b (by omega) (by omega)) (by dsimp only; rw [length_overlay hov]; omega) (by omega)]
    have hcat := overlay_overlay (load fs.disk.bytes (512 * (e.block + 1))
      (e.length - min 512 e.length)) hov
    rw [hl] at hcat
    have hi : p.i + (min 512 e.length - p.byteOffset) + (e.length - min 512 e.length) =
        p.i + (e.length - p.byteOffset) := by omega
    simp only [hcat, hi]
    congr 3
    by_cases h5 : e.length ≤ 512
    · have hz : e.length - min 512 e.length = 0 := by omega
      have hm : min 512 e.length = e.length := by omega
      rw [hz, hm]
      simp [load]
    · have ha : 512 * (e.block + 1) = 512 * e.block + p.byteOffset +
          (min 512 e.length - p.byteOffset) := by omega
      rw [ha, ← load_add]
      congr 1
      omega
  · rw [if_neg h0]
    have hz : p.byteOffset = 0 := by omega
    rw [readRest_run hb hin (by omega) rfl, hz]
    simp only [Nat.sub_zero, Nat.add_zero]

/-- The loop of `read_node`. -/
theorem readExtents_run (hb : fs.block = 0) (zs : List Extent) (hw : ∀ z ∈ zs, ∀ b ∈ z.span, fs.Within b)
    (ho : ∀ z ∈ zs.head?, p.byteOffset ≤ min 512 z.length)
    (hroom : p.i + ((cellsOf zs).length - p.byteOffset) ≤ p.buf.length) :
    ∃ o, zs.foldlM (fun p e => readExtent e p) p fs =
      .ok ⟨overlay p.buf p.i (((cellsOf zs).map fs.disk.bytes).drop p.byteOffset),
        p.i + ((cellsOf zs).length - p.byteOffset), o⟩ fs := by
  induction zs generalizing p with
  | nil =>
    refine ⟨p.byteOffset, ?_⟩
    simp only [cellsOf_nil, List.map_nil, List.drop_nil, overlay_nil, List.length_nil, Nat.zero_sub,
      Nat.add_zero]
    rfl
  | cons z zs ih =>
    have hz := ho z (by simp)
    simp only [cellsOf_cons, List.length_append, Extent.length_cells] at hroom
    have hfirst := readExtent_run hb (hw z List.mem_cons_self) hz (by omega)
    have hl : ((z.cells.map fs.disk.bytes).drop p.byteOffset).length = z.length - p.byteOffset := by
      simp
    have hov : p.i + ((z.cells.map fs.disk.bytes).drop p.byteOffset).length ≤ p.buf.length := by omega
    obtain ⟨o, hrest⟩ := ih (p := ⟨overlay p.buf p.i ((z.cells.map fs.disk.bytes).drop p.byteOffset),
      p.i + (z.length - p.byteOffset), 0⟩) (fun y hy => hw y (List.mem_cons_of_mem z hy)) (by simp) (by
        dsimp only
        rw [length_overlay hov]
        omega)
    refine ⟨o, ?_⟩
    rw [List.foldlM_cons, bind_ok hfirst, hrest]
    have hcat := overlay_overlay ((cellsOf zs).map fs.disk.bytes) hov
    rw [hl] at hcat
    have hi : p.i + (z.length - p.byteOffset) + (cellsOf zs).length =
        p.i + (z.length + (cellsOf zs).length - p.byteOffset) := by omega
    simp only [List.drop_zero, Nat.sub_zero, hcat, hi, cellsOf_cons, List.map_append,
      List.length_append, Extent.length_cells]
    rw [List.drop_append_of_le_length (by simp; omega)]

theorem setBlock_eq (hb : fs.block = 0) (b : Nat) (buf : List UInt8) :
    fs.setBlock b buf = fs.setBytes (store fs.disk.bytes (512 * b) buf) := by
  rw [setBlock, hb, Nat.zero_add]

theorem block_setBytes (hb : fs.block = 0) (m : Nat → UInt8) : (fs.setBytes m).block = 0 := hb

/-- A whole or partial sector, read, patched and written back. -/
theorem writeSector_run {start stop : Nat} (hb : fs.block = 0) (hw : fs.Within block) (hs : start ≤ stop) (h5 : stop ≤ 512)
    (hroom : p.i + (stop - start) ≤ p.buf.length) :
    writeSector block start stop p fs = .ok { p with i := p.i + (stop - start) }
      (fs.setBytes (store fs.disk.bytes (512 * block + start)
        ((p.buf.drop p.i).take (stop - start)))) := by
  have hnot : ¬stop < start := by omega
  have hl : ((p.buf.drop p.i).take (stop - start)).length = stop - start := by
    simp
    omega
  have hpatch := store_patch fs.disk.bytes (512 * block) start 512
    ((p.buf.drop p.i).take (stop - start)) (by omega)
  rw [writeSector, bind_ok (readAt_run hb hw 512)]
  simp only [hnot, if_false]
  rw [bind_ok (writeAt_run hw), setBlock_eq hb, overlay, hpatch, hl]
  rfl

/-- The part of `write_node`'s loop body behind a first partial sector. -/
def writeRest (e : Extent) (p : Progress) (block length : Nat) : FsM Progress := do
  let mut p := p
  let mut block := block
  let mut length := length
  let lengthAligned := 512 * (min length (p.buf.length - p.i) / 512)
  if lengthAligned > 0 then
    let _ ← writeAt block ((p.buf.drop p.i).take lengthAligned)
    p := { p with i := p.i + lengthAligned }
    block := block + lengthAligned / 512
    length := length - lengthAligned
  if length > 0 then
    let sectorSize := min 512 length
    p ← writeSector block 0 sectorSize p
    block := block + 1
    length := length - sectorSize
  if length ≠ 0 ∨ block ≠ e.block + (e.length + 511) / 512 then
    throw .crash
  return p

theorem writeExtent_eq (e : Extent) (p : Progress) :
    writeExtent e p = if p.byteOffset > 0 ∧ e.length > 0 then do
        let p ← writeSector e.block p.byteOffset (min 512 e.length) p
        writeRest e { p with byteOffset := 0 } (e.block + 1) (e.length - min 512 e.length)
      else writeRest e p e.block e.length := rfl

theorem writeRest_run (hb : fs.block = 0)
    (hw : ∀ b, block ≤ b → b < block + (length + 511) / 512 → fs.Within b) (hroom : p.i + length ≤ p.buf.length)
    (hend : block + (length + 511) / 512 = e.block + (e.length + 511) / 512) :
    writeRest e p block length fs = .ok { p with i := p.i + length }
      (fs.setBytes (store fs.disk.bytes (512 * block) ((p.buf.drop p.i).take length))) := by
  have hmin : min length (p.buf.length - p.i) = length := by omega
  unfold writeRest
  simp only [hmin]
  by_cases h0 : 512 * (length / 512) > 0
  · simp only [h0, if_true]
    rw [bind_ok (writeAt_run (hw block le_rfl (by omega))), setBlock_eq hb]
    by_cases h1 : length - 512 * (length / 512) > 0
    · -- whole sectors and a part of one
      have hs : min 512 (length - 512 * (length / 512)) = length % 512 := by omega
      have hno : ¬(length - 512 * (length / 512) - length % 512 ≠ 0 ∨
          block + 512 * (length / 512) / 512 + 1 ≠ e.block + (e.length + 511) / 512) := by omega
      simp only [h1, if_true, hs]
      have hlast : fs.Within (block + 512 * (length / 512) / 512) :=
        hw _ (by omega) (by omega)
      rw [bind_ok (writeSector_run (block_setBytes hb _) (hlast.setBytes _) (Nat.zero_le _) (by omega) (by
        dsimp only
        omega))]
      simp only [hno, if_false]
      have hcat : store (store fs.disk.bytes (512 * block)
            ((p.buf.drop p.i).take (512 * (length / 512))))
          (512 * (block + 512 * (length / 512) / 512) + 0)
          ((p.buf.drop (p.i + 512 * (length / 512))).take (length % 512 - 0)) =
          store fs.disk.bytes (512 * block) ((p.buf.drop p.i).take length) := by
        have hl : ((p.buf.drop p.i).take (512 * (length / 512))).length = 512 * (length / 512) := by
          simp
          omega
        have ha : 512 * (block + 512 * (length / 512) / 512) + 0 =
            512 * block + ((p.buf.drop p.i).take (512 * (length / 512))).length := by omega
        rw [ha, store_append, ← List.drop_drop, Nat.sub_zero, ← List.take_add]
        congr 2
        omega
      have hi : p.i + 512 * (length / 512) + (length % 512 - 0) = p.i + length := by omega
      simp only [hi]
      exact congrArg (fun m => EStateM.Result.ok _ (fs.setBytes m)) hcat
    · have hlen : 512 * (length / 512) = length := by omega
      have hno : ¬(length - 512 * (length / 512) ≠ 0 ∨
          block + 512 * (length / 512) / 512 ≠ e.block + (e.length + 511) / 512) := by omega
      simp only [h1, hno, if_false]
      rw [hlen]
      rfl
  · simp only [h0, if_false]
    by_cases h1 : length > 0
    · have hs : min 512 length = length := by omega
      have hno : ¬(length - length ≠ 0 ∨ block + 1 ≠ e.block + (e.length + 511) / 512) := by omega
      simp only [h1, if_true, hs]
      rw [bind_ok (writeSector_run hb (hw _ le_rfl (by omega)) (Nat.zero_le _) (by omega) (by omega))]
      simp only [hno, if_false, Nat.sub_zero, Nat.add_zero]
      rfl
    · have hlen : length = 0 := by omega
      have hno : ¬(length ≠ 0 ∨ block ≠ e.block + (e.length + 511) / 512) := by omega
      simp only [h1, hno, if_false]
      rw [hlen]
      simp only [List.take_zero, store_nil, Nat.add_zero]
      rfl

/-- One extent is written from the buffer. -/
theorem writeExtent_run (hb : fs.block = 0) (hw : ∀ b ∈ e.span, fs.Within b) (ho : p.byteOffset ≤ min 512 e.length)
    (hroom : p.i + (e.length - p.byteOffset) ≤ p.buf.length) :
    writeExtent e p fs = .ok ⟨p.buf, p.i + (e.length - p.byteOffset), 0⟩
      (fs.setBytes (scatter fs.disk.bytes (e.cells.drop p.byteOffset)
        ((p.buf.drop p.i).take (e.length - p.byteOffset)))) := by
  have hl : ((p.buf.drop p.i).take (e.length - p.byteOffset)).length = e.length - p.byteOffset := by
    simp
    omega
  have hst := store_eq_scatter fs.disk.bytes (512 * e.block + p.byteOffset)
    ((p.buf.drop p.i).take (e.length - p.byteOffset))
  rw [hl] at hst
  have hcells : e.cells.drop p.byteOffset =
      List.range' (512 * e.block + p.byteOffset) (e.length - p.byteOffset) := by
    rw [Extent.cells, List.drop_range', Nat.mul_one]
  have hin : ∀ b, e.block ≤ b → b < e.block + (e.length + 511) / 512 → fs.Within b :=
    fun b hlo hhi => hw b (Extent.mem_span.mpr ⟨hlo, hhi⟩)
  rw [hcells, ← hst, writeExtent_eq]
  by_cases h0 : p.byteOffset > 0 ∧ e.length > 0
  · rw [if_pos h0, bind_ok (writeSector_run hb (hin _ le_rfl (by omega)) ho (by omega) (by omega))]
    rw [writeRest_run (block_setBytes hb _) (fun b _ _ => (hin b (by omega) (by omega)).setBytes _)
      (by dsimp only; omega) (by omega)]
    have hi : p.i + (min 512 e.length - p.byteOffset) + (e.length - min 512 e.length) =
        p.i + (e.length - p.byteOffset) := by omega
    have hlf : ((p.buf.drop p.i).take (min 512 e.length - p.byteOffset)).length =
        min 512 e.length - p.byteOffset := by
      simp
      omega
    have hcat : store (store fs.disk.bytes (512 * e.block + p.byteOffset)
          ((p.buf.drop p.i).take (min 512 e.length - p.byteOffset))) (512 * (e.block + 1))
        ((p.buf.drop (p.i + (min 512 e.length - p.byteOffset))).take (e.length - min 512 e.length)) =
        store fs.disk.bytes (512 * e.block + p.byteOffset)
          ((p.buf.drop p.i).take (e.length - p.byteOffset)) := by
      by_cases h5 : e.length ≤ 512
      · have hz : e.length - min 512 e.length = 0 := by omega
        have hm : min 512 e.length = e.length := by omega
        rw [hz, hm, List.take_zero, store_nil]
      · have ha : 512 * (e.block + 1) = 512 * e.block + p.byteOffset +
            ((p.buf.drop p.i).take (min 512 e.length - p.byteOffset)).length := by omega
        rw [ha, store_append, ← List.drop_drop, ← List.take_add]
        congr 2
        omega
    simp only [hi]
    exact congrArg (fun m => EStateM.Result.ok _ (fs.setBytes m)) hcat
  · rw [if_neg h0]
    have hz : p.byteOffset = 0 := by omega
    rw [writeRest_run hb hin (by omega) rfl, hz]
    simp only [Nat.sub_zero, Nat.add_zero]

/-- The loop of `write_node`. -/
theorem writeExtents_run (hb : fs.block = 0) (zs : List Extent) (hw : ∀ z ∈ zs, ∀ b ∈ z.span, fs.Within b)
    (ho : ∀ z ∈ zs.head?, p.byteOffset ≤ min 512 z.length)
    (hroom : p.i + ((cellsOf zs).length - p.byteOffset) ≤ p.buf.length) :
    ∃ o, zs.foldlM (fun p e => writeExtent e p) p fs =
      .ok ⟨p.buf, p.i + ((cellsOf zs).length - p.byteOffset), o⟩
        (fs.setBytes (scatter fs.disk.bytes ((cellsOf zs).drop p.byteOffset)
          ((p.buf.drop p.i).take ((cellsOf zs).length - p.byteOffset)))) := by
  induction zs generalizing p fs with
  | nil =>
    refine ⟨p.byteOffset, ?_⟩
    simp only [cellsOf_nil, List.drop_nil, scatter_nil, List.length_nil, Nat.zero_sub, Nat.add_zero]
    rfl
  | cons z zs ih =>
    have hz := ho z (by simp)
    simp only [cellsOf_cons, List.length_append, Extent.length_cells] at hroom
    have hfirst := writeExtent_run hb (hw z List.mem_cons_self) hz (by omega)
    have hb' := block_setBytes hb (scatter fs.disk.bytes (z.cells.drop p.byteOffset)
      ((p.buf.drop p.i).take (z.length - p.byteOffset)))
    have hrestWithin : ∀ y ∈ zs, ∀ b ∈ y.span, fs.Within b :=
      fun y hy => hw y (List.mem_cons_of_mem z hy)
    obtain ⟨o, hrest⟩ := ih (p := ⟨p.buf, p.i + (z.length - p.byteOffset), 0⟩) hb' hrestWithin (by simp) (by
        dsimp only
        omega)
    refine ⟨o, ?_⟩
    rw [List.foldlM_cons, bind_ok hfirst, hrest]
    have hi : p.i + (z.length - p.byteOffset) + (cellsOf zs).length =
        p.i + (z.length + (cellsOf zs).length - p.byteOffset) := by omega
    have hlen : (z.cells.drop p.byteOffset).length =
        ((p.buf.drop p.i).take (z.length - p.byteOffset)).length := by
      simp
      omega
    have hcat := scatter_append fs.disk.bytes (cellsOf zs)
      ((p.buf.drop (p.i + (z.length - p.byteOffset))).take (cellsOf zs).length) hlen
    simp only [List.drop_zero, Nat.sub_zero, hi, cellsOf_cons, List.length_append,
      Extent.length_cells]
    rw [List.drop_append_of_le_length (by simp; omega)]
    have hbuf : (p.buf.drop p.i).take (z.length + (cellsOf zs).length - p.byteOffset) =
        (p.buf.drop p.i).take (z.length - p.byteOffset) ++
          (p.buf.drop (p.i + (z.length - p.byteOffset))).take (cellsOf zs).length := by
      rw [← List.drop_drop, ← List.take_add]
      congr 1
      omega
    rw [hbuf, hcat]
    rfl

/-- Every extent but the last one in use ends with its sector. -/
def Packed : List Extent → Prop
  | [] => True
  | e :: es => (cellsOf es ≠ [] → 512 ∣ e.length) ∧ Packed es

/-- The inner loop of `node_extents` first skips sectors. -/
theorem pushBlocks_skip (f : Nat → Nat × Nat) (i m offset len : Nat) (push : Extent) :
    pushBlocks ((List.range' i m).map f) offset len push =
      if offset < m then pushBlocks ((List.range' (i + offset) (m - offset)).map f) 0 len push
      else (offset - m, len, push) := by
  induction m generalizing i offset with
  | zero => rfl
  | succ m ih =>
    by_cases h0 : offset = 0
    · subst h0
      simp
    · obtain ⟨o, rfl⟩ : ∃ o, offset = o + 1 := ⟨offset - 1, by omega⟩
      rw [List.range'_succ, List.map_cons, pushBlocks, if_neg h0, Nat.add_sub_cancel, ih]
      have h1 : i + 1 + o = i + (o + 1) := by omega
      have h2 : m - o = m + 1 - (o + 1) := by omega
      have h3 : o - m = o + 1 - (m + 1) := by omega
      rw [h1, h2, h3]
      by_cases ho : o < m
      · rw [if_pos ho, if_pos (by omega)]
      · rw [if_neg ho, if_neg (by omega)]

/-- Then it takes bytes until it has enough or the extent ends. -/
theorem pushBlocks_take {b n i m len : Nat} {push : Extent} (hb : 0 < b)
    (hm : i + m = (n + 511) / 512) :
    pushBlocks ((List.range' i m).map fun j => (b + j, min 512 (n - 512 * j))) 0 len push =
      (0, len - min len (n - 512 * i),
        ⟨if push.block = 0 ∧ 0 < m then b + i else push.block,
          push.length + min len (n - 512 * i)⟩) := by
  induction m generalizing i len push with
  | zero =>
    have hz : min len (n - 512 * i) = 0 := by omega
    rw [hz]
    simp [pushBlocks]
  | succ m ih =>
    have hpos : 0 < min 512 (n - 512 * i) := by omega
    rw [List.range'_succ, List.map_cons, pushBlocks]
    generalize hp : (if push.block = 0 then { push with block := b + i } else push) = push'
    have hblock : push'.block = if push.block = 0 ∧ 0 < m + 1 then b + i else push.block := by
      rw [← hp]
      by_cases h0 : push.block = 0
      · simp [h0]
      · simp [h0]
    have hne : push'.block ≠ 0 := by
      rw [hblock]
      split
      · omega
      · rename_i h
        intro h0
        exact h ⟨h0, by omega⟩
    have hlen : push'.length = push.length := by
      rw [← hp]
      split <;> rfl
    simp only [if_true]
    by_cases h1 : len ≥ min 512 (n - 512 * i)
    · have htake : min 512 (n - 512 * i) + min (len - min 512 (n - 512 * i)) (n - 512 * (i + 1)) =
          min len (n - 512 * i) := by omega
      have hnot : ¬(push'.block = 0 ∧ 0 < m) := fun h => hne h.1
      rw [if_pos h1, ih (by omega), if_neg hnot, hblock, hlen, ← htake]
      simp only [Prod.mk.injEq, Extent.mk.injEq, true_and]
      omega
    · rw [if_neg h1]
      by_cases h2 : len > 0
      · have htake : min len (n - 512 * i) = len := by omega
        rw [if_pos h2, hblock, hlen, htake, Nat.sub_self]
      · have htake : min len (n - 512 * i) = 0 := by omega
        rw [if_neg h2, htake, Nat.sub_zero, ← hblock, ← hlen]
        rfl

/-- What `node_extents` takes from one extent. -/
theorem pushBlocks_extent (hl : e.Plain) (hb : 0 < e.length → 0 < e.block)
    (offset len : Nat) :
    pushBlocks e.blocks offset len Extent.default =
      (offset - (e.length + 511) / 512, len - min len (e.length - 512 * offset),
        ⟨if offset < (e.length + 511) / 512 then e.block + offset else 0,
          min len (e.length - 512 * offset)⟩) := by
  rw [Extent.blocks_eq hl, List.range_eq_range', pushBlocks_skip]
  by_cases ho : offset < (e.length + 511) / 512
  · rw [if_pos ho, if_pos ho, Nat.zero_add, pushBlocks_take (hb (by omega)) (by omega)]
    have hz : offset - (e.length + 511) / 512 = 0 := by omega
    have hpos : 0 < (e.length + 511) / 512 - offset := by omega
    simp [hz, hpos, Extent.default]
  · rw [if_neg ho, if_neg ho]
    have hz : min len (e.length - 512 * offset) = 0 := by omega
    rw [hz, Nat.sub_zero]
    rfl

theorem packed_tail (h : Packed (e :: es)) (hes : cellsOf es ≠ []) :
    e.length = 512 * ((e.length + 511) / 512) := by
  obtain ⟨k, hk⟩ := h.1 hes
  omega

/-- What is pushed of one extent: its bytes from a sector on, as many as wanted. -/
theorem pushed_extent {P : Extent → Prop} {offset len taken : Nat} (acc : List Extent)
    (hPe : ∀ x, 0 < x.length → (∀ b ∈ x.span, b ∈ e.span) → P x)
    (htk : min len (e.length - 512 * offset) = taken) :
    ∃ ys, (if taken > 0 then acc ++ [(⟨if offset < (e.length + 511) / 512 then
        e.block + offset else 0, taken⟩ : Extent)] else acc) = acc ++ ys ∧
      cellsOf ys = (e.cells.drop (512 * offset)).take len ∧ (∀ z ∈ ys, P z) ∧
      (ys = [] ∨ 0 < taken ∧ ∃ z, ys = [z] ∧ z.length = taken) := by
  by_cases h0 : taken > 0
  · have ho : offset < (e.length + 511) / 512 := by omega
    rw [if_pos h0, if_pos ho]
    refine ⟨[⟨e.block + offset, taken⟩], rfl, ?_, ?_, Or.inr ⟨h0, _, rfl, rfl⟩⟩
    · rw [Extent.cells, List.drop_range', Nat.mul_one]
      simp only [cellsOf_cons, cellsOf_nil, List.append_nil, Extent.cells, Nat.mul_add]
      by_cases hle : len ≤ e.length - 512 * offset
      · rw [List.take_range'_of_length_ge hle]
        congr 1
        omega
      · rw [List.take_range'_of_length_le (by omega)]
        congr 1
        omega
    · intro z hz
      rw [List.mem_singleton.mp hz]
      refine hPe _ h0 ?_
      intro b hb
      rw [Extent.mem_span] at hb ⊢
      dsimp only at hb
      omega
  · rw [if_neg h0]
    refine ⟨[], by simp, ?_, by simp, Or.inl rfl⟩
    rw [Extent.cells, List.drop_range', Nat.mul_one]
    by_cases hlen : len = 0
    · simp [hlen]
    · have hz : e.length - 512 * offset = 0 := by omega
      simp [hz]

theorem cellsOf_drop (hp : Packed (e :: es)) (offset : Nat) :
    (cellsOf (e :: es)).drop (512 * offset) =
      e.cells.drop (512 * offset) ++ (cellsOf es).drop (512 * (offset - (e.length + 511) / 512)) := by
  rw [cellsOf_cons, List.drop_append, Extent.length_cells]
  by_cases hes : cellsOf es = []
  · simp [hes]
  · have := packed_tail hp hes
    congr 2
    omega

/-- `node_extents` hands out the bytes from a sector on, as many as wanted. -/
theorem pushExtents_spec {P : Extent → Prop} (hP : ∀ e ∈ es, e.Plain ∧
      (0 < e.length → 0 < e.block) ∧
      ∀ x, 0 < x.length → (∀ b ∈ x.span, b ∈ e.span) → P x)
    (offset len : Nat) (acc : List Extent) :
    ∃ zs, (pushExtents es offset len acc).2.2 = acc ++ zs ∧ (∀ z ∈ zs, P z) ∧
      (cellsOf zs).length ≤ len ∧
      (Packed es → cellsOf zs = ((cellsOf es).drop (512 * offset)).take len ∧
        ∀ z ∈ zs.head?, min 512 (cellsOf zs).length ≤ z.length) := by
  induction es generalizing offset len acc with
  | nil => exact ⟨[], by simp [pushExtents], by simp, by simp, by simp⟩
  | cons e es ih =>
    obtain ⟨hl, hb, hPe⟩ := hP e (by simp)
    have ih := ih (fun x hx => hP x (by simp [hx]))
    rw [pushExtents, pushBlocks_extent hl hb]
    dsimp only
    generalize htk : min len (e.length - 512 * offset) = taken
    obtain ⟨ys, hys, hcells, hPys, hone⟩ := pushed_extent acc hPe htk
    have hylen : (cellsOf ys).length = taken := by
      rw [hcells, List.length_take, List.length_drop, Extent.length_cells, htk]
    rw [hys]
    by_cases hlen : len - taken = 0
    · rw [if_pos hlen]
      refine ⟨ys, rfl, hPys, by omega, ?_⟩
      intro hp
      constructor
      · have hz : len - (e.length - 512 * offset) = 0 := by omega
        rw [cellsOf_drop hp, List.take_append, ← hcells, List.length_drop, Extent.length_cells, hz,
          List.take_zero, List.append_nil]
      · rcases hone with rfl | ⟨-, z, rfl, hz⟩
        · simp
        · intro z' hz'
          obtain rfl : z = z' := by simpa using hz'
          omega
    · rw [if_neg hlen]
      obtain ⟨zs, hzs, hPz, hle, hcz⟩ :=
        ih (offset - (e.length + 511) / 512) (len - taken) (acc ++ ys)
      refine ⟨ys ++ zs, by rw [hzs, List.append_assoc], ?_, ?_, ?_⟩
      · intro z hz
        rcases List.mem_append.mp hz with hz | hz
        · exact hPys z hz
        · exact hPz z hz
      · rw [cellsOf_append, List.length_append]
        omega
      intro hp
      obtain ⟨hcz, hhead⟩ := hcz hp.2
      constructor
      · have hrest : len - taken = len - (e.length - 512 * offset) := by omega
        rw [cellsOf_drop hp, List.take_append, ← hcells, List.length_drop, Extent.length_cells,
          cellsOf_append, hcz, hrest]
      · rcases hone with rfl | ⟨hpos, z, rfl, hz⟩
        · exact hhead
        · intro z' hz'
          obtain rfl : z = z' := by simpa using hz'
          by_cases hes : cellsOf es = []
          · have hzn : cellsOf zs = [] := by simp [hcz, hes]
            simp [hzn]
          · -- a later extent is in use, so this one was pushed up to the end of a sector
            have := packed_tail hp hes
            omega

end Origel.RedoxFs
