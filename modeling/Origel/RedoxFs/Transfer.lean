import Origel.RedoxFs.Content

/-! What `read_node`, `write_node` and `node_set_len` do to the bytes of a well laid out file. -/
namespace Origel.RedoxFs

open Origel.Lib FileSystem

variable {fs fs' : FileSystem} {t len offset k : Nat} {cs : List Nat} {l l' : Layout}
  {buf : List UInt8} {p : Progress} {z : Extent} {zs : List Extent}

/-- The second half of `write_node`, once the file is long enough. -/
def writeBytes (block offset : Nat) (buf : List UInt8) : FsM Nat := do
  let extents ← nodeExtents block (offset / 512) (offset % 512 + buf.length)
  let p ← extents.foldlM (fun p e => writeExtent e p) ⟨buf, 0, offset % 512⟩
  return p.i

theorem writeNode_eq (block offset : Nat) (buf : List UInt8) :
    writeNode block offset buf = (do
      nodeEnsureLen block (wrap64 (offset + buf.length))
      writeBytes block offset buf) := by
  rw [writeNode, ← Nat.add_assoc, Nat.div_add_mod]
  rfl

/-- A transfer that starts behind the end of its first sector is a failed slice. -/
theorem readExtents_crash (hz : 0 < z.length) (ho : min 512 z.length < p.byteOffset) :
    (z :: zs).foldlM (fun p e => readExtent e p) p fs = .error .crash fs := by
  have hif : p.byteOffset > 0 ∧ z.length > 0 := ⟨by omega, hz⟩
  have hsector : readSector z.block p.byteOffset (min 512 z.length) p fs = .error .crash fs := by
    rw [readSector, bind_ok (show readAt z.block 512 fs = .ok (fs.readBlock z.block 512) fs from rfl)]
    simp only [ho, if_true]
    rfl
  rw [List.foldlM_cons]
  apply bind_error
  rw [readExtent_eq, if_pos hif]
  exact bind_error hsector

theorem writeExtents_crash (hz : 0 < z.length) (ho : min 512 z.length < p.byteOffset) :
    (z :: zs).foldlM (fun p e => writeExtent e p) p fs = .error .crash fs := by
  have hif : p.byteOffset > 0 ∧ z.length > 0 := ⟨by omega, hz⟩
  have hsector : writeSector z.block p.byteOffset (min 512 z.length) p fs = .error .crash fs := by
    rw [writeSector, bind_ok (show readAt z.block 512 fs = .ok (fs.readBlock z.block 512) fs from rfl)]
    simp only [ho, if_true]
    rfl
  rw [List.foldlM_cons]
  apply bind_error
  rw [writeExtent_eq, if_pos hif]
  exact bind_error hsector

namespace Inv

/-- What a file lists is neither the free node nor one of its own. -/
theorem data_not_node {b : Nat} (h : Inv fs l) (hfile : (fs.nodeAt t).isDir = false)
    (hb : b ∈ listing fs (l.chain t)) : ¬(b = 2 ∨ b ∈ l.chain t) := by
  have hown : b ∈ own fs l (.object t) := by
    rw [own_of_file hfile]
    exact List.mem_append_right _ hb
  rintro (rfl | hc)
  · cases h.exclusive.disjoint .reserved _ 2 (by simp [own]) hown
  · have hn := h.exclusive.nodup (.object t)
    rw [own_of_file hfile, List.nodup_append] at hn
    exact hn.2.2 _ hc _ hb rfl

/-- The pieces a transfer works on lie in the sectors of the file. -/
theorem nodeExtents_spec (h : Inv fs l) (ht : l.chain t ≠ []) (k len : Nat) :
    ∃ zs, nodeExtents t k len fs = .ok zs fs ∧
      (∀ z ∈ zs, 0 < z.length ∧ ∀ b ∈ z.span, b ∈ listing fs (l.chain t)) ∧
      (cellsOf zs).length ≤ len ∧
      (Packed (extentsOf fs (l.chain t)) →
        cellsOf zs = ((fileCells fs (l.chain t)).drop (512 * k)).take len ∧
        ∀ z ∈ zs.head?, min 512 (cellsOf zs).length ≤ z.length) := by
  have hP : ∀ e ∈ extentsOf fs (l.chain t), e.Plain ∧ (0 < e.length → 0 < e.block) ∧
      ∀ x : Extent, 0 < x.length → (∀ b ∈ x.span, b ∈ e.span) →
        0 < x.length ∧ ∀ b ∈ x.span, b ∈ listing fs (l.chain t) := by
    intro e he
    obtain ⟨c, hc, hec⟩ := List.mem_flatMap.mp he
    have hfit := (h.object t ht).fits c hc e hec
    refine ⟨h.extents_plain e he, fun hpos => ?_, fun x hx hsub => ⟨hx, fun b hb => ?_⟩⟩
    · have := hfit.2 hpos
      omega
    · exact List.mem_flatMap.mpr ⟨e, he, hsub b hb⟩
  obtain ⟨zs, hzs, hall, hlen, hpk⟩ := pushExtents_spec hP k len []
  refine ⟨zs, ?_, hall, hlen, hpk⟩
  rw [nodeExtents_run (h.object t ht).chain (fun _ hc => h.within hc) (h.fuel t), hzs]
  rfl

theorem within_pieces (h : Inv fs l)
    (hzs : ∀ z ∈ zs, 0 < z.length ∧ ∀ b ∈ z.span, b ∈ listing fs (l.chain t)) :
    ∀ z ∈ zs, ∀ b ∈ z.span, fs.Within b :=
  fun z hz b hb => h.within_listed ((hzs z hz).2 b hb)

theorem mem_listing_of_mem_pieces {x : Nat}
    (hzs : ∀ z ∈ zs, 0 < z.length ∧ ∀ b ∈ z.span, b ∈ listing fs (l.chain t))
    (hx : x ∈ cellsOf zs) : x / 512 ∈ listing fs (l.chain t) := by
  obtain ⟨z, hz, hxz⟩ := mem_cellsOf.mp hx
  exact (hzs z hz).2 _ (mem_span_of_mem_cells hxz)

/-- The bytes of a write go to sectors of the file. -/
theorem writeBytes_spec (h : Inv fs l) (ht : l.chain t ≠ []) :
    writeBytes t offset buf fs = .error .crash fs ∨
      ∃ xs : List Nat, writeBytes t offset buf fs =
          .ok xs.length (fs.setBytes (scatter fs.disk.bytes xs (buf.take xs.length))) ∧
        ∀ x ∈ xs, x / 512 ∈ listing fs (l.chain t) := by
  obtain ⟨zs, hrun, hzs, hlen, -⟩ := h.nodeExtents_spec ht (offset / 512) (offset % 512 + buf.length)
  have hin := h.within_pieces hzs
  rw [writeBytes, bind_ok hrun]
  by_cases ho : ∀ z ∈ zs.head?, offset % 512 ≤ min 512 z.length
  · right
    obtain ⟨o, hfold⟩ := writeExtents_run (p := ⟨buf, 0, offset % 512⟩) h.base.block zs hin ho (by
      dsimp only
      omega)
    refine ⟨(cellsOf zs).drop (offset % 512), ?_, ?_⟩
    · rw [bind_ok hfold]
      simp only [List.length_drop, List.drop_zero, Nat.zero_add]
      rfl
    · exact fun x hx => mem_listing_of_mem_pieces hzs (List.mem_of_mem_drop hx)
  · left
    push Not at ho
    obtain ⟨z, hz, hlt⟩ := ho
    cases zs with
    | nil => cases hz
    | cons y ys =>
      obtain rfl : y = z := by simpa using hz
      exact bind_error (writeExtents_crash (hzs y (by simp)).1 hlt)

/-- A file that is long enough takes the whole buffer, in place. -/
theorem writeBytes_tidy (h : Inv fs l) (offset : Nat) (buf : List UInt8) (ht : l.chain t ≠ []) (hp : Packed (extentsOf fs (l.chain t)))
    (hlen : offset + buf.length ≤ (fileCells fs (l.chain t)).length) :
    writeBytes t offset buf fs = .ok buf.length (fs.setBytes (scatter fs.disk.bytes
      (((fileCells fs (l.chain t)).drop offset).take buf.length) buf)) := by
  obtain ⟨zs, hrun, hzs, -, hpk⟩ := h.nodeExtents_spec ht (offset / 512) (offset % 512 + buf.length)
  obtain ⟨hcells, hhead⟩ := hpk hp
  have hin := h.within_pieces hzs
  have hdm := Nat.div_add_mod offset 512
  have hmod := Nat.mod_lt offset (by omega : 512 > 0)
  have hcl : (cellsOf zs).length = offset % 512 + buf.length := by
    rw [hcells, List.length_take, List.length_drop]
    omega
  have ho : ∀ z ∈ zs.head?, offset % 512 ≤ min 512 z.length := by
    intro z hz
    have := hhead z hz
    omega
  obtain ⟨o, hfold⟩ := writeExtents_run (p := ⟨buf, 0, offset % 512⟩) h.base.block zs hin ho (by
    dsimp only
    omega)
  have hdrop : (cellsOf zs).drop (offset % 512) =
      ((fileCells fs (l.chain t)).drop offset).take buf.length := by
    rw [hcells, List.drop_take, List.drop_drop, hdm]
    congr 1
    omega
  have hsub : (cellsOf zs).length - offset % 512 = buf.length := by omega
  rw [writeBytes, bind_ok hrun, bind_ok hfold]
  simp only [hdrop, hsub, List.drop_zero, List.take_length, Nat.zero_add]
  rfl

/-- Bytes written to sectors of a file leave its nodes and the free list alone. -/
theorem agree_data {T : Nat → Prop} (h : Inv fs l) (hfile : (fs.nodeAt t).isDir = false)
    (ha : Agree T fs fs') (hT : ∀ x, T x → x ∈ listing fs (l.chain t)) :
    (∀ p, ∀ c ∈ l.chain p, fs'.nodeAt c = fs.nodeAt c) ∧ fs'.freeNode = fs.freeNode := by
  have hown : ∀ x, T x → x ∈ own fs l (.object t) := by
    intro x hx
    rw [own_of_file hfile]
    exact List.mem_append_right _ (hT x hx)
  constructor
  · intro p c hc
    apply ha.nodeAt
    intro hTc
    cases h.exclusive.disjoint _ _ c (mem_own_of_chain hc) (hown c hTc)
    exact h.data_not_node hfile (hT c hTc) (Or.inr hc)
  · apply ha.freeNode
    rw [h.base.free]
    exact fun hT2 => h.data_not_node hfile (hT 2 hT2) (Or.inl rfl)

/-- Writing to a file that is long enough overlays its bytes. -/
theorem writeBytes_content (h : Inv fs l) (offset : Nat) (buf : List UInt8) (ht : l.chain t ≠ [])
    (hfile : (fs.nodeAt t).isDir = false) (hp : Packed (extentsOf fs (l.chain t)))
    (hlen : offset + buf.length ≤ (content fs (l.chain t)).length) :
    ∃ fs', writeBytes t offset buf fs = .ok buf.length fs' ∧
      Agree (· ∈ listing fs (l.chain t)) fs fs' ∧
      (∀ p, ∀ c ∈ l.chain p, fs'.nodeAt c = fs.nodeAt c) ∧
      content fs' (l.chain t) = overlay (content fs (l.chain t)) offset buf := by
  rw [length_content h.base.block] at hlen
  have hrun := h.writeBytes_tidy offset buf ht hp hlen
  have hx : ∀ x ∈ ((fileCells fs (l.chain t)).drop offset).take buf.length,
      x / 512 ∈ listing fs (l.chain t) := by
    intro x hx
    exact mem_listing_of_mem_cells (List.mem_of_mem_drop (List.mem_of_mem_take hx))
  have ha := agree_scatter buf h.base.block hx
  have hmap := map_scatter_stretch buf (m := fs.disk.bytes) (o := offset)
    (h.nodup_fileCells hfile) hlen
  rw [← content_eq h.base.block] at hmap
  have hbytes : (fs.setBytes (scatter fs.disk.bytes
      (((fileCells fs (l.chain t)).drop offset).take buf.length) buf)).disk.bytes =
      scatter fs.disk.bytes (((fileCells fs (l.chain t)).drop offset).take buf.length) buf := rfl
  rw [← hbytes] at hmap
  generalize fs.setBytes (scatter fs.disk.bytes
    (((fileCells fs (l.chain t)).drop offset).take buf.length) buf) = fs' at hrun ha hmap
  obtain ⟨hnodes, -⟩ := h.agree_data hfile ha fun x hx => hx
  have hexts : ∀ c ∈ l.chain t, (fs'.nodeAt c).extents = (fs.nodeAt c).extents := by
    intro c hc
    rw [hnodes t c hc]
  refine ⟨fs', hrun, ha, hnodes, ?_⟩
  rw [content_eq (ha.block.trans h.base.block), fileCells, extentsOf_congr hexts]
  exact hmap

/-- `read_node` copies the bytes from the offset on. -/
theorem readNode_tidy (h : Inv fs l) (ht : l.chain t ≠ []) (hp : Packed (extentsOf fs (l.chain t)))
    (hpos : offset ≤ (fileCells fs (l.chain t)).length ∨
      (fileCells fs (l.chain t)).length ≤ 512 * (offset / 512)) :
    readNode t offset buf fs =
      .ok (overlay buf 0 (((content fs (l.chain t)).drop offset).take buf.length),
        min buf.length ((content fs (l.chain t)).length - offset)) fs := by
  obtain ⟨zs, hrun, hzs, -, hpk⟩ := h.nodeExtents_spec ht (offset / 512) (offset % 512 + buf.length)
  obtain ⟨hcells, hhead⟩ := hpk hp
  have hin := h.within_pieces hzs
  have hdm := Nat.div_add_mod offset 512
  have hmod := Nat.mod_lt offset (by omega : 512 > 0)
  have hcl : (cellsOf zs).length = min (offset % 512 + buf.length)
      ((fileCells fs (l.chain t)).length - 512 * (offset / 512)) := by
    rw [hcells, List.length_take, List.length_drop]
  have ho : ∀ z ∈ zs.head?, offset % 512 ≤ min 512 z.length := by
    intro z hz
    have hle := hhead z hz
    have hz0 := (hzs z (List.mem_of_mem_head? hz)).1
    have hzc : z.length ≤ (cellsOf zs).length := by
      cases zs with
      | nil => cases hz
      | cons y ys =>
        obtain rfl : y = z := by simpa using hz
        simp
    omega
  obtain ⟨o, hfold⟩ := readExtents_run (p := ⟨buf, 0, offset % 512⟩) h.base.block zs hin ho (by
    dsimp only
    omega)
  have hdrop : ((cellsOf zs).map fs.disk.bytes).drop (offset % 512) =
      ((content fs (l.chain t)).drop offset).take buf.length := by
    rw [content_eq h.base.block, ← List.map_drop, ← List.map_drop, ← List.map_take, hcells,
      List.drop_take, List.drop_drop, hdm]
    congr 2
    omega
  have hcount : 0 + ((cellsOf zs).length - offset % 512) =
      min buf.length ((content fs (l.chain t)).length - offset) := by
    rw [length_content h.base.block]
    omega
  rw [readNode, bind_ok hrun, bind_ok hfold]
  simp only [hdrop, hcount]
  rfl

/-- A read that starts behind the end, in the last sector, is a failed slice. -/
theorem readNode_crash (h : Inv fs l) (ht : l.chain t ≠ [])
    (hp : Packed (extentsOf fs (l.chain t)))
    (hlo : 512 * (offset / 512) < (fileCells fs (l.chain t)).length)
    (hhi : (fileCells fs (l.chain t)).length < offset) :
    readNode t offset buf fs = .error .crash fs := by
  obtain ⟨zs, hrun, hzs, -, hpk⟩ := h.nodeExtents_spec ht (offset / 512) (offset % 512 + buf.length)
  obtain ⟨hcells, -⟩ := hpk hp
  have hdm := Nat.div_add_mod offset 512
  have hmod := Nat.mod_lt offset (by omega : 512 > 0)
  have hcl : (cellsOf zs).length = min (offset % 512 + buf.length)
      ((fileCells fs (l.chain t)).length - 512 * (offset / 512)) := by
    rw [hcells, List.length_take, List.length_drop]
  rw [readNode, bind_ok hrun]
  cases zs with
  | nil =>
    rw [cellsOf_nil, List.length_nil] at hcl
    omega
  | cons z ys =>
    rw [cellsOf_cons, List.length_append, Extent.length_cells] at hcl
    apply bind_error
    apply readExtents_crash (hzs z (by simp)).1
    dsimp only
    omega

end Inv

/-- What `write_node` does when it returns: the file is made long enough, and then only bytes in
its sectors change. -/
structure Wrote (fs : FileSystem) (l : Layout) (t len : Nat) (fs' : FileSystem) (l' : Layout) :
    Prop where
  touches : Touches fs l t fs' l'
  conserve : (own fs l .free ++ own fs l (.object t)).Perm
    (own fs' l' .free ++ own fs' l' (.object t))
  ensured : ∃ fs₁, Ensured fs l t len fs₁ l' ∧ Agree (· ∈ listing fs₁ (l'.chain t)) fs₁ fs'

/-- What `write_node` leaves when it finds no space: the extents are filled up all the same. -/
structure FilledOnly (fs : FileSystem) (l : Layout) (t len : Nat) (fs' : FileSystem) : Prop where
  inv : Inv fs' l
  agree : Agree (fun x => x = 2 ∨ x ∈ l.chain t) fs fs'
  attrs : (fs'.nodeAt t).attrs = (fs.nodeAt t).attrs
  extents : ∀ c ∈ l.chain t, (fs'.nodeAt c).extents = filledUp (fs.nodeAt c).extents
  short : 0 < missing fs (l.chain t) len
  cause : takeExtent ((missing fs (l.chain t) len + 511) / 512) fs.freeNode.extents = none ∧
      Agree (· ∈ l.chain t) fs fs' ∨ CannotList fs (l.chain t) len

theorem Ensured.wrote {fs₁ : FileSystem} (h : Ensured fs l t len fs₁ l')
    (hfile : (fs.nodeAt t).isDir = false) (ha : Agree (· ∈ listing fs₁ (l'.chain t)) fs₁ fs') :
    Wrote fs l t len fs' l' := by
  have hinv := h.touches.inv
  have hfile₁ : (fs₁.nodeAt t).isDir = false := (Node.isDir_attrs h.touches.attrs).trans hfile
  have hmem : ∀ b ∈ listing fs₁ (l'.chain t), b ∈ own fs₁ l' (.object t) := by
    intro b hb
    rw [own_of_file hfile₁]
    exact List.mem_append_right _ hb
  have hchain : ∀ p, ∀ c ∈ l'.chain p, c ∉ listing fs₁ (l'.chain t) := by
    intro p c hc hb
    have hpt := hinv.exclusive.disjoint _ _ c (mem_own_of_chain hc) (hmem c hb)
    cases hpt
    have hn := hinv.exclusive.nodup (.object t)
    rw [own_of_file hfile₁, List.nodup_append] at hn
    exact hn.2.2 c hc c hb rfl
  have h2 : 2 ∉ listing fs₁ (l'.chain t) := by
    intro hb
    cases hinv.exclusive.disjoint .reserved _ 2 (by simp [own]) (hmem 2 hb)
  have hattr : (fs'.nodeAt t).attrs = (fs₁.nodeAt t).attrs := by
    by_cases htt : l'.chain t = []
    · rw [htt, listing_nil] at ha
      rw [ha.nodeAt (by simp)]
    · rw [ha.nodeAt (hchain t t (hinv.head_mem htt))]
  have hfree : fs'.freeNode = fs₁.freeNode := by
    apply ha.freeNode
    rw [hinv.base.free]
    exact h2
  have hobj : own fs' l' (.object t) = own fs₁ l' (.object t) :=
    (hinv.own_object _ rfl fun c hc => ha.nodeAt (hchain t c hc)).1
  refine ⟨⟨hinv.congr ha h2 hchain, h.touches.held, h.touches.chain, ?_, hattr.trans h.touches.attrs⟩,
    ?_, fs₁, h, ha⟩
  · refine h.touches.agree.trans (ha.mono fun x hx => ?_)
    have hx' := h.conserve.mem_iff.mpr (List.mem_append_right _ (hmem x hx))
    rcases List.mem_append.mp hx' with hx' | hx'
    · exact Or.inr (Or.inl hx')
    · exact Or.inr (Or.inr (Or.inr hx'))
  · rw [own_free_congr (l := l') hfree, hobj]
    exact h.conserve

theorem Ensured.chain_ne_nil (h : Ensured fs l t len fs' l') : l'.chain t ≠ [] := by
  obtain ⟨pre, c, fs₂, hcs, -, -, hcase⟩ := h.grown
  rcases hcase with ⟨-, -, rfl⟩ | ⟨-, nb, es, -, happ⟩
  · simp [hcs]
  · generalize l'.chain t = cs at happ
    cases happ <;> simp

/-- The bytes of a file are where they were while it is made long enough. -/
theorem Ensured.content_old {fs₁ : FileSystem} {tail : List Nat} (h : Ensured fs l t len fs₁ l')
    (hinv : Inv fs l) (hfile : (fs.nodeAt t).isDir = false)
    (hcells : fileCells fs₁ (l'.chain t) = fileCells fs (l.chain t) ++ tail) :
    content fs₁ (l'.chain t) = content fs (l.chain t) ++ tail.map fs₁.disk.bytes := by
  have hb₁ := h.touches.inv.base.block
  rw [content_eq hinv.base.block, content_eq hb₁, hcells, List.map_append]
  congr 1
  apply List.map_congr_left
  intro x hx
  have hx' := mem_listing_of_mem_cells hx
  have hown : x / 512 ∈ own fs l (.object t) := by
    rw [own_of_file hfile]
    exact List.mem_append_right _ hx'
  apply bytes_of_sector hinv.base.block hb₁
  apply h.nodesOnly.sector
  rintro (h2 | hfree | hc)
  · exact hinv.data_not_node hfile hx' (Or.inl h2)
  · cases hinv.exclusive.disjoint _ _ _ hfree hown
  · exact hinv.data_not_node hfile hx' (Or.inr hc)

/-- `write_node` writes, or finds no space, or fails a slice of a file whose last sector is not its
last. -/
theorem Inv.writeNode_spec (h : Inv fs l) (ht : l.chain t ≠ []) (hfile : (fs.nodeAt t).isDir = false)
    (hw : missing fs (l.chain t) (wrap64 (offset + buf.length)) + 511 < 2 ^ 64) :
    (∃ n fs' l', writeNode t offset buf fs = .ok n fs' ∧
        Wrote fs l t (wrap64 (offset + buf.length)) fs' l') ∨
      (∃ fs', writeNode t offset buf fs = .error (.errno .ENOSPC) fs' ∧
        FilledOnly fs l t (wrap64 (offset + buf.length)) fs') ∨
      ∃ fs', writeNode t offset buf fs = .error .crash fs' := by
  rw [writeNode_eq]
  rcases h.ensure_spec _ ht hfile hw with ⟨fs₁, l', hok, hens, -⟩ |
    ⟨fs', herr, hinv, hag, hattr, hpos, hext, hcause⟩
  · rw [bind_ok hok]
    have hinv := hens.touches.inv
    rcases hinv.writeBytes_spec hens.chain_ne_nil with hcrash | ⟨xs, hrun, hxs⟩
    · exact Or.inr (Or.inr ⟨fs₁, hcrash⟩)
    · have ha := agree_scatter (buf.take xs.length) hinv.base.block hxs
      generalize fs₁.setBytes (scatter fs₁.disk.bytes xs (buf.take xs.length)) = fs' at hrun ha
      exact Or.inl ⟨xs.length, fs', l', hrun, hens.wrote hfile ha⟩
  · exact Or.inr (Or.inl ⟨fs', bind_error herr, hinv, hag, hattr, hext, hpos, hcause⟩)

/-- What the fresh places of a file held is still there when it has got them. -/
theorem Ensured.bytes_fresh {fs₁ : FileSystem} {x : Nat} (h : Ensured fs l t len fs₁ l')
    (hinv : Inv fs l) (hfile : (fs.nodeAt t).isDir = false)
    (hag : Agree (fun x => x = 2 ∨ x ∈ l'.chain t) fs fs₁) (hx : x ∈ fileCells fs₁ (l'.chain t)) :
    fs₁.disk.bytes x = fs.disk.bytes x := by
  have hinv₁ := h.touches.inv
  apply bytes_of_sector hinv.base.block hinv₁.base.block
  apply hag.sector
  exact hinv₁.data_not_node ((Node.isDir_attrs h.touches.attrs).trans hfile)
    (mem_listing_of_mem_cells hx)

/-- A file that grows at its end takes the whole buffer: its bytes, lengthened as far as needed by
what the disk holds there, are overlaid. -/
theorem Inv.writeNode_tidy (h : Inv fs l) (ht : l.chain t ≠ []) (hfile : (fs.nodeAt t).isDir = false)
    (hlt : offset + buf.length < 2 ^ 64)
    (hw : missing fs (l.chain t) (offset + buf.length) + 511 < 2 ^ 64)
    (htidy : Tidy fs (l.chain t)) (hend : GrowsAtEnd fs (l.chain t) (offset + buf.length)) :
    (∃ fs' l' tail, writeNode t offset buf fs = .ok buf.length fs' ∧
        Wrote fs l t (offset + buf.length) fs' l' ∧ Tidy fs' (l'.chain t) ∧
        (content fs (l.chain t)).length + tail.length =
          max (content fs (l.chain t)).length (offset + buf.length) ∧
        content fs' (l'.chain t) = overlay (content fs (l.chain t) ++ tail) offset buf ∧
        tail = (fillCells fs (l.chain t) (offset + buf.length) ++
          freshCells fs (l.chain t) (offset + buf.length)).map fs.disk.bytes ∧
        ¬NoSpace fs (l.chain t) (offset + buf.length)) ∨
      ∃ fs', writeNode t offset buf fs = .error (.errno .ENOSPC) fs' ∧
        FilledOnly fs l t (offset + buf.length) fs' := by
  rw [writeNode_eq, wrap64_of_lt hlt]
  rcases h.ensure_spec _ ht hfile hw with ⟨fs₁, l', hok, hens, hag, hspace⟩ |
    ⟨fs', herr, hinv, hag, hattr, hpos, hext, hcause⟩
  · rw [bind_ok hok]
    obtain ⟨hcells, hlen, htidy'⟩ := hens.cells h htidy hend
    have hinv := hens.touches.inv
    have hfile₁ : (fs₁.nodeAt t).isDir = false := (Node.isDir_attrs hens.touches.attrs).trans hfile
    have hne := hens.chain_ne_nil
    have hold := hens.content_old h hfile hcells
    have hcl := length_content h.base.block (l.chain t)
    have hcl₁ := length_content hinv.base.block (l'.chain t)
    obtain ⟨fs', hrun, ha, hnodes, hcont⟩ := hinv.writeBytes_content offset buf hne hfile₁
      htidy'.packed (by omega)
    have hwrote := hens.wrote hfile ha
    left
    refine ⟨fs', l', _, hrun, hwrote, ?_, ?_, by rw [hcont, hold], ?_, hspace⟩
    · exact htidy'.congr fun c hc => by rw [hnodes t c hc]
    · rw [hcells, List.length_append] at hlen
      rw [List.length_map]
      omega
    · apply List.map_congr_left
      intro x hx
      refine hens.bytes_fresh h hfile hag ?_
      rw [hcells]
      exact List.mem_append_right _ hx
  · exact Or.inr ⟨fs', bind_error herr, hinv, hag, hattr, hext, hpos, hcause⟩

/-- Filling up the extents keeps a file tidy and its bytes in front. -/
theorem FilledOnly.content {l : Layout} (h : FilledOnly fs l t len fs') (hinv : Inv fs l)
    (hfile : (fs.nodeAt t).isDir = false) (htidy : Tidy fs (l.chain t)) :
    Tidy fs' (l.chain t) ∧ content fs' (l.chain t) =
      content fs (l.chain t) ++ (fillCells fs (l.chain t) len).map fs.disk.bytes := by
  have hes : extentsOf fs' (l.chain t) = (ensureExtents len (extentsOf fs (l.chain t))).2.1 := by
    rw [ensureExtents_filledUp hinv.extents_lt h.short]
    exact extentsOf_filledUp h.extents
  obtain ⟨tail, hcells, -, hpk, -⟩ := ensureExtents_packed hinv.extents_lt htidy.packed len
  have hfill : fillCells fs (l.chain t) len = tail := by
    rw [fillCells, hcells]
    exact List.drop_left
  rw [← hes] at hcells hpk
  refine ⟨⟨hpk, fun c hc => ?_⟩, ?_⟩
  · rw [h.extents c hc]
    exact filledFirst_grown (filledUp_grown _) (htidy.filled c hc)
  · have hfile' : (fs'.nodeAt t).isDir = false := (Node.isDir_attrs h.attrs).trans hfile
    rw [content_eq h.inv.base.block, content_eq hinv.base.block, hfill, ← List.map_append,
      ← show fileCells fs' (l.chain t) = fileCells fs (l.chain t) ++ tail from hcells]
    apply List.map_congr_left
    intro x hx
    apply bytes_of_sector hinv.base.block h.inv.base.block
    apply h.agree.sector
    exact h.inv.data_not_node hfile' (mem_listing_of_mem_cells hx)

/-- `node_set_len` keeps the first bytes. -/
theorem Inv.nodeSetLen_content (h : Inv fs l) (len : Nat) (ht : l.chain t ≠ [])
    (hfile : (fs.nodeAt t).isDir = false) :
    ∃ fs', nodeSetLen t len fs = .ok () fs' ∧ Inv fs' l ∧
      Rewritten (fun es es' => ∃ k, es' = (truncateExtents k es).2.1) (l.chain t) fs fs' ∧
      extentsOf fs' (l.chain t) = (truncateExtents len (extentsOf fs (l.chain t))).2.1 ∧
      content fs' (l.chain t) = (content fs (l.chain t)).take len ∧
      (Tidy fs (l.chain t) → Tidy fs' (l.chain t)) := by
  obtain ⟨fs', hrun, hinv, hrw, hes⟩ := h.nodeSetLen_spec len ht hfile
  have hcells : fileCells fs' (l.chain t) = (fileCells fs (l.chain t)).take len := by
    rw [fileCells, hes, cellsOf_truncate]
    rfl
  refine ⟨fs', hrun, hinv, hrw, hes, ?_, fun htidy => ⟨?_, fun c hc => ?_⟩⟩
  · rw [content_eq hinv.base.block, content_eq h.base.block, hcells, List.map_take]
    congr 1
    apply List.map_congr_left
    intro x hx
    apply bytes_of_sector h.base.block hinv.base.block
    apply hrw.agree.sector
    exact fun hc => h.data_not_node hfile (mem_listing_of_mem_cells hx) (Or.inr hc)
  · rw [hes]
    exact packed_truncate htidy.packed len
  · obtain ⟨k, hk⟩ := hrw.extents hc
    have hff := htidy.filled c hc
    generalize (fs.nodeAt c).extents = es at hk hff
    generalize (fs'.nodeAt c).extents = es' at hk ⊢
    subst hk
    exact filledFirst_truncate hff k

end Origel.RedoxFs
