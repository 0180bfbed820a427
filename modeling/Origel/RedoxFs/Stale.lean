import Origel.RedoxFs.Overlay

/-! The bytes of a file that nobody wrote, over all runs in which files grow over zeros. -/
namespace Origel.RedoxFs

open Origel.Lib FileSystem

variable {fs fs' : FileSystem} {i p t x offset len : Nat} {l l' : Layout} {op : Op}
  {buf : List UInt8} {err : Option Errno} {w : Nat → Set Nat}

/-- The positions of the file `t` that a call writes. -/
def Op.writes (fs : FileSystem) (t : Nat) : Op → Set Nat
  | .writeNode t' offset buf =>
    match RedoxFs.writeNode t' offset buf fs with
    | .ok n _ => {i | t' = t ∧ offset ≤ i ∧ i < offset + n}
    | .error _ _ => ∅
  | _ => ∅

/-- The positions written since they came into the length of the file. What was written there
before is forgotten once the file ends in front of it. -/
def marked (fs : FileSystem) (op : Op) (w : Nat → Set Nat) (t : Nat) : Set Nat :=
  {i | i ∈ w t ∧ i < (contentOf fs t).length} ∪ op.writes fs t

/-- A call that meets `P`, with the marks it leaves. -/
def MarkStep (P : FileSystem → Op → Prop) (s : FileSystem × (Nat → Set Nat)) (op : Op)
    (s' : FileSystem × (Nat → Set Nat)) : Prop :=
  Op.Step P s.1 op s'.1 ∧ s'.2 = marked s.1 op s.2

/-- A call in order that brings only zeros into a file unwritten: before the offset of a write
behind the end, and in the last sector if the write finds no space. -/
def Zeroed (fs : FileSystem) (op : Op) : Prop :=
  InOrder fs op ∧ match op with
    | .writeNode t offset buf => offset + buf.length < 2 ^ 64 ∧
      (¬NoSpace fs (chainOf fs t) (offset + buf.length) →
        ∀ x ∈ (fillCells fs (chainOf fs t) (offset + buf.length) ++
          freshCells fs (chainOf fs t) (offset + buf.length)).take
            (offset - (contentOf fs t).length), fs.disk.bytes x = 0) ∧
      (NoSpace fs (chainOf fs t) (offset + buf.length) →
        ∀ x ∈ fillCells fs (chainOf fs t) (offset + buf.length), fs.disk.bytes x = 0)
    | _ => True

/-- What a file holds without a mark is zero. -/
def ZeroAt (fs : FileSystem) (w : Nat → Set Nat) (t : Nat) : Prop :=
  ∀ (i : Nat) (x : UInt8), (contentOf fs t)[i]? = some x → i ∉ w t → x = 0

theorem not_marked (hi : i < (contentOf fs t).length) (h : i ∉ marked fs op w t) : i ∉ w t :=
  fun hw => h (Or.inl ⟨hw, hi⟩)

/-- A file that a call does not lengthen, and whose bytes stay what they are. -/
theorem ZeroAt.kept (h : ZeroAt fs w t)
    (hc : ∀ (i : Nat) (x : UInt8), (contentOf fs' t)[i]? = some x → (contentOf fs t)[i]? = some x) :
    ZeroAt fs' (marked fs op w) t := by
  intro i x hx hi
  have hx₀ := hc i x hx
  exact h i x hx₀ (not_marked (List.getElem?_eq_some_iff.mp hx₀).1 hi)

/-- A write that goes through marks its buffer, and what comes before that behind the old end is
zero. -/
theorem ZeroAt.wrote {tail : List UInt8} (h : ZeroAt fs w t)
    (hrun : writeNode t offset buf fs = .ok buf.length fs')
    (hlen : (contentOf fs t).length + tail.length = max (contentOf fs t).length (offset + buf.length))
    (hc : contentOf fs' t = overlay (contentOf fs t ++ tail) offset buf)
    (hz : ∀ x ∈ tail.take (offset - (contentOf fs t).length), x = 0) :
    ZeroAt fs' (marked fs (.writeNode t offset buf) w) t := by
  intro i x hx hi
  have hout : ¬(offset ≤ i ∧ i < offset + buf.length) := by
    intro hin
    apply hi
    right
    rw [Op.writes, hrun]
    exact ⟨rfl, hin⟩
  rw [hc, getElem?_overlay (by rw [List.length_append]; omega) hout] at hx
  by_cases hold : i < (contentOf fs t).length
  · rw [List.getElem?_append_left hold] at hx
    exact h i x hx (not_marked hold hi)
  · rw [List.getElem?_append_right (by omega)] at hx
    have hlt := (List.getElem?_eq_some_iff.mp hx).1
    refine hz x (List.mem_of_getElem? (i := i - (contentOf fs t).length) ?_)
    rw [List.getElem?_take_of_lt (by omega)]
    exact hx

/-- A write that finds no space marks nothing, and adds zeros at most. -/
theorem ZeroAt.filled {tail : List UInt8} (h : ZeroAt fs w t)
    (hc : contentOf fs' t = contentOf fs t ++ tail) (hz : ∀ x ∈ tail, x = 0) :
    ZeroAt fs' (marked fs op w) t := by
  intro i x hx hi
  rw [hc] at hx
  by_cases hold : i < (contentOf fs t).length
  · rw [List.getElem?_append_left hold] at hx
    exact h i x hx (not_marked hold hi)
  · rw [List.getElem?_append_right (by omega)] at hx
    exact hz x (List.mem_of_getElem? hx)

theorem Inv.contentOf_empty (h : Inv fs l) (ht : l.chain t = [t])
    (hempty : (fs.nodeAt t).extents = List.replicate 15 Extent.default) : contentOf fs t = [] := by
  rw [h.contentOf_eq (by simp [ht]), content_eq h.base.block, ht, fileCells, extentsOf_cons,
    extentsOf_nil, List.append_nil, hempty, cellsOf_replicate]
  rfl

/-- Setting attributes moves no byte. -/
theorem Inv.content_setAttr {perm uid gid : Nat} (h : Inv fs l) (ht : l.chain t ≠ [])
    (hfile : (fs.nodeAt t).isDir = false) (ha : Agree (fun x => x = t) fs fs')
    (hn : fs'.nodeAt t = (fs.nodeAt t).setAttr perm uid gid) :
    content fs' (l.chain t) = content fs (l.chain t) := by
  have hes : extentsOf fs' (l.chain t) = extentsOf fs (l.chain t) := by
    refine extentsOf_congr fun c _ => ?_
    by_cases hct : c = t
    · rw [hct, hn, Node.setAttr]
    · rw [ha.nodeAt hct]
  rw [content_eq h.base.block, content_eq (ha.block.trans h.base.block), fileCells, hes]
  apply List.map_congr_left
  intro x hx
  apply bytes_of_sector h.base.block (ha.block.trans h.base.block)
  apply ha.sector
  rintro rfl
  exact h.data_not_node hfile (mem_listing_of_mem_cells hx) (Or.inr (h.head_mem ht))

/-- A write over zeros leaves no unwritten byte but zeros in its file. -/
theorem Inv.zeroAt_write (h : Inv fs l) (ht : l.chain t ≠ [])
    (hfile : (fs.nodeAt t).isDir = false) (htidy : Tidy fs (l.chain t))
    (hz : Zeroed fs (.writeNode t offset buf))
    (hr : Returns (Op.writeNode t offset buf).run fs err fs') (hw : ZeroAt fs w t) :
    ZeroAt fs' (marked fs (.writeNode t offset buf) w) t := by
  obtain ⟨⟨hsafe, hend⟩, hlt, hgap, hfull⟩ := hz
  dsimp only at hend
  rw [Safe, h.chainOf_eq ht, wrap64_of_lt hlt] at hsafe
  rw [h.chainOf_eq ht, wrap64_of_lt hlt] at hend
  rw [h.chainOf_eq ht] at hgap hfull
  have hold := h.contentOf_eq ht
  rcases h.writeNode_tidy ht hfile hlt hsafe htidy hend with
    ⟨fs₁, l₁, tail, hok, hwrote, -, hlen, hcont, rfl, hspace⟩ | ⟨fs₁, herr, hfill⟩
  · obtain ⟨-, rfl⟩ := hr.of_ok (bind_ok hok)
    have hne : l₁.chain t ≠ [] := by
      obtain ⟨fs₂, hens, -⟩ := hwrote.ensured
      exact hens.chain_ne_nil
    rw [← hold] at hlen hcont
    refine hw.wrote hok hlen ((hwrote.touches.inv.contentOf_eq hne).trans hcont) fun x hx => ?_
    rw [← List.map_take] at hx
    obtain ⟨y, hy, rfl⟩ := List.mem_map.mp hx
    exact hgap hspace y hy
  · obtain ⟨-, rfl⟩ := hr.of_error (bind_error herr)
    have hno : NoSpace fs (l.chain t) (offset + buf.length) :=
      hfill.cause.imp (fun hc => ⟨hfill.short, hc.1⟩) id
    have hcont := (hfill.content h hfile htidy).2
    rw [← hold, ← hfill.inv.contentOf_eq ht] at hcont
    refine hw.filled hcont fun x hx => ?_
    obtain ⟨y, hy, rfl⟩ := List.mem_map.mp hx
    exact hfull hno y hy

/-- A call over zeros keeps unwritten bytes zero. -/
theorem Outcome.zeroAt (h : Outcome fs l op err fs' l') (hinv : Inv fs l) (hl : op.Legal fs)
    (hr : Returns op.run fs err fs') (hz : Zeroed fs op) (htidy : AllTidy fs l)
    (hw : ∀ p, l.chain p ≠ [] → (fs.nodeAt p).isDir = false → ZeroAt fs w p) (p : Nat)
    (hp' : l'.chain p ≠ []) (hfile' : (fs'.nodeAt p).isDir = false) :
    ZeroAt fs' (marked fs op w) p := by
  have hinv' := (h.inv hinv).1
  by_cases hp : l.chain p = []
  · -- a new file is empty
    obtain ⟨hself, hempty⟩ := h.new_head (hinv.target hl) hp hp'
    intro i x hx
    rw [hinv'.contentOf_empty hself hempty] at hx
    cases hx
  have hfile : (fs.nodeAt p).isDir = false := (h.isDir hinv hp hp').symm.trans hfile'
  have hzero := hw p hp hfile
  have hsame : content fs' (l'.chain p) = content fs (l.chain p) →
      ZeroAt fs' (marked fs op w) p := by
    intro hc
    refine hzero.kept fun i x hx => ?_
    rwa [hinv'.contentOf_eq hp', hc, ← hinv.contentOf_eq hp] at hx
  by_cases hpt : p = op.target
  · subst hpt
    cases h with
    | refused => exact hsame rfl
    | created => exact absurd (hl.2.1.symm.trans hfile) (by decide)
    | unnamed => exact absurd (hl.2.1.symm.trans hfile) (by decide)
    | removed => exact absurd (hl.2.symm.trans hfile) (by decide)
    | unsplit => exact absurd (hl.2.symm.trans hfile) (by decide)
    | wrote => exact hinv.zeroAt_write hp hfile (htidy _ hp hfile) hz hr hzero
    | filled => exact hinv.zeroAt_write hp hfile (htidy _ hp hfile) hz hr hzero
    | @cut t len _ _ hrw hes =>
      obtain ⟨fs₁, hok, -, -, -, hcont, -⟩ := hinv.nodeSetLen_content len hp hfile
      obtain ⟨-, rfl⟩ := hr.of_ok hok
      refine hzero.kept fun i x hx => ?_
      rw [hinv'.contentOf_eq hp', hcont, ← hinv.contentOf_eq hp] at hx
      obtain ⟨hlt, -⟩ := List.getElem?_eq_some_iff.mp hx
      rw [List.length_take] at hlt
      rwa [List.getElem?_take_of_lt (by omega)] at hx
    | attr _ _ ha hn => exact hsame (hinv.content_setAttr hp hfile ha hn)
  · exact hsame (h.other_content hinv hpt hp hp' hfile).1

/-- Runs over zeros keep unwritten bytes zero. -/
theorem run_zeroAt {disk : Disk} {fs₀ : FileSystem} {ops : List Op} (hsize : disk.size < 2 ^ 64)
    (hc : create disk = .ok fs₀) (hrun : Run (MarkStep Zeroed) (fs₀, fun _ => ∅) ops (fs, w)) :
    ∃ l, Inv fs l ∧ AllTidy fs l ∧
      ∀ p, l.chain p ≠ [] → (fs.nodeAt p).isDir = false → ZeroAt fs w p := by
  refine hrun.invariant (I := fun s => ∃ l, Inv s.1 l ∧ AllTidy s.1 l ∧
    ∀ p, l.chain p ≠ [] → (s.1.nodeAt p).isDir = false → ZeroAt s.1 s.2 p) ?_ ?_
  · rintro ⟨fs, w⟩ op ⟨fs', w'⟩ ⟨⟨hl, hz, err, hr⟩, rfl⟩ ⟨l, h, htidy, hw⟩
    obtain ⟨l', hout⟩ := h.outcome hl hz.1.1 hr
    exact ⟨l', (hout.inv h).1, hout.tidy h hl hz.1 htidy, hout.zeroAt h hl hr hz htidy hw⟩
  · refine ⟨freshLayout, create_inv hsize hc, create_tidy hsize hc, fun p hp hfile => ?_⟩
    have hp1 : p = 1 := by
      by_contra hne
      exact hp (if_neg hne)
    rw [hp1, (create_inv hsize hc).rootDir] at hfile
    cases hfile

/-- In every run over zeros, what `read_node` returns of the bytes nobody wrote since they came into
the length of the file is zero. -/
theorem unwritten_bytes_read_zero {disk : Disk} {fs₀ : FileSystem} {ops : List Op}
    (hsize : disk.size < 2 ^ 64) (hc : create disk = .ok fs₀)
    (hrun : Run (MarkStep Zeroed) (fs₀, fun _ => ∅) ops (fs, w)) (ht : Reach fs t)
    (hfile : (fs.nodeAt t).isDir = false) {buf' : List UInt8} {n : Nat}
    (hread : readNode t offset buf fs = .ok (buf', n) fs') (hi : i < n) (hw : offset + i ∉ w t) :
    buf'[i]? = some 0 := by
  obtain ⟨l, h, htidy, hzero⟩ := run_zeroAt hsize hc hrun
  have htl := h.reach ht
  have hpk := (htidy t htl hfile).packed
  have hpos : offset ≤ (fileCells fs (l.chain t)).length ∨
      (fileCells fs (l.chain t)).length ≤ 512 * (offset / 512) := by
    by_contra hno
    rw [h.readNode_crash htl hpk (by omega) (by omega)] at hread
    cases hread
  rw [h.readNode_tidy htl hpk hpos, ← h.contentOf_eq htl] at hread
  cases hread
  have hlt : offset + i < (contentOf fs t).length := by omega
  have hx : (contentOf fs t)[offset + i]? = some (contentOf fs t)[offset + i] :=
    List.getElem?_eq_getElem hlt
  have h0 := hzero t htl hfile _ _ hx hw
  rw [overlay, List.take_zero, List.nil_append, List.getElem?_append_left, List.getElem?_take_of_lt,
    List.getElem?_drop, hx, h0]
  · omega
  · rw [List.length_take, List.length_drop]
    omega

theorem fillCells_empty (hempty : (fs.nodeAt t).extents = List.replicate 15 Extent.default)
    (hpos : 0 < len) : fillCells fs [t] len = [] := by
  rw [fillCells, extentsOf_cons, extentsOf_nil, List.append_nil, hempty, ensureExtents_empty 15 hpos,
    cellsOf_replicate, List.drop_nil]

/-- A write marks no position beside its buffer. -/
theorem not_marked_beside {n : Nat} (hrun : writeNode t offset buf fs = .ok n fs')
    (hw : i ∈ w t → (contentOf fs t).length ≤ i) (hi : i < offset) :
    i ∉ marked fs (.writeNode t offset buf) w t := by
  rintro (⟨hold, hlt⟩ | hnew)
  · exact absurd (hw hold) (by omega)
  · rw [Op.writes, hrun] at hnew
    exact absurd hnew.2.1 (by omega)

/-- A byte is written behind the end of an empty file, and the blocks of the new disk are zero. -/
theorem gap_on_new_disk_reads_zero : ∃ fs₀ fs w, create (blankDisk 8) = .ok fs₀ ∧
    Run (MarkStep Zeroed) (fs₀, fun _ => ∅)
      [.createNode plainFile "a" 1, .writeNode 4 100 [1]] (fs, w) ∧
    ∃ buf' n, readNode 4 0 [9] fs = .ok (buf', n) fs ∧ 0 < n ∧ 0 ∉ w 4 ∧ buf'[0]? = some 0 := by
  have hsize : (blankDisk 8).size < 2 ^ 64 := by decide
  obtain ⟨fs₀, hc⟩ := create_ok (show 4 * 512 ≤ (blankDisk 8).size by decide)
  have hinv₀ := create_inv hsize hc
  have hm : plainFile < 2 ^ 16 := by decide
  obtain ⟨fs₁, l₁, hok₁, -, hfirst⟩ := first_node (n := 8) "a" rfl (by omega) (by omega) hc hm
  have hinv₁ := hfirst.inv
  have hne₁ : l₁.chain 4 ≠ [] := by simp [hfirst.chain]
  have hfile₁ : (fs₁.nodeAt 4).isDir = false := by
    rw [hfirst.node]
    decide
  have hempty : (fs₁.nodeAt 4).extents = List.replicate 15 Extent.default := by
    rw [hfirst.node]
    rfl
  have hch₁ : chainOf fs₁ 4 = [4] := by rw [hinv₁.chainOf_eq hne₁, hfirst.chain]
  have htake : takeExtent ((101 + 511) / 512) fs₁.freeNode.extents =
      some (5, ⟨6, 1024⟩ :: List.replicate 14 Extent.default) := by
    rw [hfirst.free]
    decide
  obtain ⟨fs₂, l₂, hok₂, hwrote, hchain₂, -, hext₂, hcont₂⟩ := hinv₁.writeNode_first
    (show 100 + ([1] : List UInt8).length = 101 from rfl) hfirst.chain hfile₁ hempty (by omega) (by omega) htake
  have hinv₂ := hwrote.touches.inv
  have hne₂ : l₂.chain 4 ≠ [] := by simp [hchain₂]
  have hlen₂ : (content fs₂ (l₂.chain 4)).length = 101 := by
    rw [hchain₂, hcont₂, List.length_append, length_load]
    rfl
  have hz : Zeroed fs₁ (.writeNode 4 100 [1]) := by
    refine ⟨hinv₁.inOrder_first hfirst.chain hempty (by decide) (by decide), by decide, ?_, ?_⟩
    · intro _ x hx
      have hx' := List.mem_of_mem_take hx
      rw [hch₁, fillCells_empty hempty (by decide), List.nil_append, freshCells,
        missing_empty hempty (by decide)] at hx'
      simp only [show takeExtent ((100 + [(1 : UInt8)].length + 511) / 512) fs₁.freeNode.extents = _ from
        htake] at hx'
      rw [hfirst.bytes x (List.mem_range'_1.mp hx').1]
      rfl
    · intro _ x hx
      rw [hch₁, fillCells_empty hempty (by decide)] at hx
      cases hx
  have hstep₁ : MarkStep Zeroed (fs₀, fun _ => ∅) (.createNode plainFile "a" 1)
      (fs₁, marked fs₀ (.createNode plainFile "a" 1) fun _ => ∅) :=
    ⟨⟨⟨hinv₀.reach_root, hinv₀.rootDir, hm⟩, ⟨⟨trivial, trivial⟩, trivial⟩, none,
      .ok (bind_ok hok₁)⟩, rfl⟩
  have hstep₂ : MarkStep Zeroed (fs₁, marked fs₀ (.createNode plainFile "a" 1) fun _ => ∅)
      (.writeNode 4 100 [1]) (fs₂, marked fs₁ (.writeNode 4 100 [1])
        (marked fs₀ (.createNode plainFile "a" 1) fun _ => ∅)) :=
    ⟨⟨⟨hfirst.reach, hfile₁, by decide, by decide⟩, hz, none, .ok (bind_ok hok₂)⟩, rfl⟩
  have hrun := Run.cons hstep₁ (.cons hstep₂ .nil)
  have hread : readNode 4 0 [9] fs₂ = _ := hinv₂.readNode_tidy hne₂
    (by
      rw [hchain₂, extentsOf_cons, extentsOf_nil, List.append_nil, hext₂]
      exact ⟨fun hc => (hc (cellsOf_replicate 14)).elim, packed_of_nil (cellsOf_replicate 14)⟩)
    (Or.inl (Nat.zero_le _))
  have hn : 0 < min ([9] : List UInt8).length ((content fs₂ (l₂.chain 4)).length - 0) := by
    rw [hlen₂]
    decide
  have hreach₂ : Reach fs₂ 4 := by
    have hn1 : fs₂.nodeAt 1 = fs₁.nodeAt 1 :=
      hwrote.touches.agree.nodeAt (hinv₁.domain_disjoint (p := 1) (by omega)
        (mem_own_of_chain (by simp [hfirst.rootChain])))
    refine hinv₂.reach_listed ((hwrote.touches.chain 1 (by omega)).trans hfirst.rootChain) ?_
    rw [hn1, hfirst.root]
    exact List.mem_append_left _ (by decide)
  have hfree : 0 ∉ marked fs₁ (.writeNode 4 100 [1])
      (marked fs₀ (.createNode plainFile "a" 1) fun _ => ∅) 4 := by
    refine not_marked_beside hok₂ (fun _ => ?_) (by omega)
    rw [hinv₁.contentOf_empty hfirst.chain hempty]
    exact Nat.le_refl 0
  refine ⟨fs₀, fs₂, _, hc, hrun, _, _, hread, hn, hfree, ?_⟩
  exact unwritten_bytes_read_zero hsize hc hrun hreach₂
    ((Node.isDir_attrs hwrote.touches.attrs).trans hfile₁) hread hn hfree

/-- A file of one sector is cut to a byte and lengthened again by a write to the end of the sector:
the bytes that were cut off are back. -/
theorem cut_bytes_come_back : ∃ fs₀ fs w, create (blankDisk 8) = .ok fs₀ ∧
    Run (MarkStep InOrder) (fs₀, fun _ => ∅)
      [.createNode plainFile "a" 1, .writeNode 4 0 (List.replicate 512 1), .nodeSetLen 4 1,
        .writeNode 4 511 [2]] (fs, w) ∧
    Reach fs 4 ∧ readNode 4 1 [9] fs = .ok ([1], 1) fs ∧ 1 ∉ w 4 := by
  have hsize : (blankDisk 8).size < 2 ^ 64 := by decide
  obtain ⟨fs₀, hc⟩ := create_ok (show 4 * 512 ≤ (blankDisk 8).size by decide)
  have hinv₀ := create_inv hsize hc
  have hm : plainFile < 2 ^ 16 := by decide
  obtain ⟨fs₁, l₁, hok₁, -, hfirst⟩ := first_node (n := 8) "a" rfl (by omega) (by omega) hc hm
  have hinv₁ := hfirst.inv
  have hfile₁ : (fs₁.nodeAt 4).isDir = false := by
    rw [hfirst.node]
    decide
  have hempty : (fs₁.nodeAt 4).extents = List.replicate 15 Extent.default := by
    rw [hfirst.node]
    rfl
  have htake : takeExtent ((512 + 511) / 512) fs₁.freeNode.extents =
      some (5, ⟨6, 1024⟩ :: List.replicate 14 Extent.default) := by
    rw [hfirst.free]
    decide
  have hlen : 0 + (List.replicate 512 (1 : UInt8)).length = 512 := by
    rw [List.length_replicate]
  obtain ⟨fs₂, l₂, hok₂, hwrote, hchain₂, -, hext₂, hcont₂⟩ := hinv₁.writeNode_first
    hlen hfirst.chain hfile₁ hempty (by omega) (by omega) htake
  have hinv₂ := hwrote.touches.inv
  have hne₂ : l₂.chain 4 ≠ [] := by simp [hchain₂]
  have hfile₂ : (fs₂.nodeAt 4).isDir = false :=
    (Node.isDir_attrs hwrote.touches.attrs).trans hfile₁
  have htidy₂ : Tidy fs₂ (l₂.chain 4) := by
    rw [hchain₂]
    refine ⟨?_, fun c hc => ?_⟩
    · rw [extentsOf_cons, extentsOf_nil, List.append_nil, hext₂]
      exact ⟨fun hc => (hc (cellsOf_replicate 14)).elim, packed_of_nil (cellsOf_replicate 14)⟩
    · obtain rfl : c = 4 := by simpa using hc
      rw [hext₂]
      exact ⟨fun _ => cellsOf_replicate 14, filledFirst_of_nil (cellsOf_replicate 14)⟩
  obtain ⟨fs₃, hok₃, hinv₃, hrw, hes₃, hcont₃, htidy₃⟩ := hinv₂.nodeSetLen_content 1 hne₂ hfile₂
  have hfile₃ : (fs₃.nodeAt 4).isDir = false := (Node.isDir_attrs (hrw.attrs 4)).trans hfile₂
  have hes₂ : extentsOf fs₂ [4] = ⟨5, 512⟩ :: List.replicate 14 Extent.default := by
    rw [extentsOf_cons, extentsOf_nil, List.append_nil, hext₂]
  rw [hchain₂, hes₂] at hes₃
  have hcut : (truncateExtents 1 (⟨5, 512⟩ :: List.replicate 14 Extent.default)).2.1 =
      ⟨5, 1⟩ :: List.replicate 14 Extent.default := by decide
  have hgrown : (ensureExtents 512 (⟨5, 1⟩ :: List.replicate 14 Extent.default)).2 =
      (⟨5, 512⟩ :: List.replicate 14 Extent.default, 0) := by decide
  rw [hcut] at hes₃
  have hmiss : missing fs₃ [4] 512 = 0 := by
    rw [missing, hes₃, hgrown]
  have hcells₃ : (fileCells fs₃ [4]).length = 1 := by
    rw [fileCells, hes₃, cellsOf_cons, cellsOf_replicate]
    rfl
  have hfill : fillCells fs₃ [4] 512 = (fileCells fs₂ [4]).drop 1 := by
    rw [fillCells, hcells₃, hes₃, hgrown, fileCells, hes₂]
  have hold : ∀ x ∈ fileCells fs₂ [4], fs₃.disk.bytes x = fs₂.disk.bytes x := by
    intro x hx
    rw [← hchain₂] at hx
    apply bytes_of_sector hinv₂.base.block hinv₃.base.block
    apply hrw.agree.sector
    exact fun hc => hinv₂.data_not_node hfile₂ (mem_listing_of_mem_cells hx) (Or.inr hc)
  have hch₃ : chainOf fs₃ 4 = [4] := by rw [hinv₃.chainOf_eq hne₂, hchain₂]
  have hord : InOrder fs₃ (.writeNode 4 511 [2]) := by
    refine ⟨?_, ?_⟩
    · rw [Safe, hch₃]
      change missing fs₃ [4] 512 + 511 < 2 ^ 64
      rw [hmiss]
      omega
    · dsimp only
      rw [hch₃]
      intro c nb es _ hpos
      change 0 < missing fs₃ [4] 512 at hpos
      rw [hmiss] at hpos
      cases hpos
  have hnow₃ : content fs₃ [4] ++ ((fileCells fs₂ [4]).drop 1).map fs₃.disk.bytes =
      List.replicate 512 1 := by
    have hmap : ((fileCells fs₂ [4]).drop 1).map fs₃.disk.bytes = (content fs₂ [4]).drop 1 := by
      rw [content_eq hinv₂.base.block, ← List.map_drop]
      exact List.map_congr_left fun x hx => hold x (List.mem_of_mem_drop hx)
    rw [hchain₂] at hcont₃
    rw [hmap, hcont₃, List.take_append_drop, hcont₂]
    rfl
  have hlong : 511 + ([2] : List UInt8).length = 512 := rfl
  have hw₃ : missing fs₃ (l₂.chain 4) (511 + ([2] : List UInt8).length) = 0 := by
    rw [hchain₂]
    exact hmiss
  have hend₃ : GrowsAtEnd fs₃ (l₂.chain 4) (511 + ([2] : List UInt8).length) := by
    intro c nb es _ hpos
    rw [hw₃] at hpos
    cases hpos
  rcases hinv₃.writeNode_tidy hne₂ hfile₃ (by decide) (by rw [hw₃]; omega) (htidy₃ htidy₂) hend₃ with
    ⟨fs₄, l₄, tail, hok₄, hwrote₄, htidy₄, -, hcont₄, rfl, -⟩ | ⟨fs₄, -, hfull⟩
  · have hinv₄ := hwrote₄.touches.inv
    have hne₄ : l₄.chain 4 ≠ [] := by
      obtain ⟨fs', hens, -⟩ := hwrote₄.ensured
      exact hens.chain_ne_nil
    rw [hlong, hchain₂, hfill, freshCells_nil hmiss, List.append_nil, hnow₃] at hcont₄
    have hstep₁ : MarkStep InOrder (fs₀, fun _ => ∅) (.createNode plainFile "a" 1)
        (fs₁, marked fs₀ (.createNode plainFile "a" 1) fun _ => ∅) :=
      ⟨⟨⟨hinv₀.reach_root, hinv₀.rootDir, hm⟩, ⟨trivial, trivial⟩, none, .ok (bind_ok hok₁)⟩, rfl⟩
    have hstep₂ : ∀ w, MarkStep InOrder (fs₁, w) (.writeNode 4 0 (List.replicate 512 1))
        (fs₂, marked fs₁ (.writeNode 4 0 (List.replicate 512 1)) w) := fun w =>
      ⟨⟨⟨hfirst.reach, hfile₁, by omega, by rw [List.length_replicate]; omega⟩,
        hinv₁.inOrder_first hfirst.chain hempty (by rw [hlen]; omega) (by rw [hlen]; omega), none,
        .ok (bind_ok hok₂)⟩, rfl⟩
    have hroot₂ : l₂.chain 1 = [1] := (hwrote.touches.chain 1 (by omega)).trans hfirst.rootChain
    have hn₂ : fs₂.nodeAt 1 = fs₁.nodeAt 1 :=
      hwrote.touches.agree.nodeAt (hinv₁.domain_disjoint (p := 1) (by omega)
        (mem_own_of_chain (by simp [hfirst.rootChain])))
    have hn₃ : fs₃.nodeAt 1 = fs₂.nodeAt 1 := by
      refine hrw.agree.nodeAt fun h1 => ?_
      rw [hchain₂] at h1
      exact absurd h1 (by decide)
    have hn₄ : fs₄.nodeAt 1 = fs₃.nodeAt 1 :=
      hwrote₄.touches.agree.nodeAt (hinv₃.domain_disjoint (p := 1) (by omega)
        (mem_own_of_chain (by simp [hroot₂])))
    have hlisted : 4 ∈ spans (fs₁.nodeAt 1).extents := by
      rw [hfirst.root]
      exact List.mem_append_left _ (by decide)
    have hreach₂ : Reach fs₂ 4 := hinv₂.reach_listed hroot₂ (by rw [hn₂]; exact hlisted)
    have hreach₃ : Reach fs₃ 4 := hinv₃.reach_listed hroot₂ (by rw [hn₃, hn₂]; exact hlisted)
    have hreach₄ : Reach fs₄ 4 :=
      hinv₄.reach_listed ((hwrote₄.touches.chain 1 (by omega)).trans hroot₂)
        (by rw [hn₄, hn₃, hn₂]; exact hlisted)
    have hstep₃ : ∀ w, MarkStep InOrder (fs₂, w) (.nodeSetLen 4 1)
        (fs₃, marked fs₂ (.nodeSetLen 4 1) w) := fun w =>
      ⟨⟨⟨hreach₂, hfile₂, by decide⟩, ⟨trivial, trivial⟩, none, .ok hok₃⟩, rfl⟩
    have hstep₄ : ∀ w, MarkStep InOrder (fs₃, w) (.writeNode 4 511 [2])
        (fs₄, marked fs₃ (.writeNode 4 511 [2]) w) := fun w =>
      ⟨⟨⟨hreach₃, hfile₃, by decide, by decide⟩, hord, none, .ok (bind_ok hok₄)⟩, rfl⟩
    refine ⟨fs₀, fs₄, _, hc, .cons hstep₁ (.cons (hstep₂ _) (.cons (hstep₃ _) (.cons (hstep₄ _) .nil))),
      hreach₄, ?_, not_marked_beside hok₄ (fun _ => ?_) (by omega)⟩
    · have hlen₄ : (overlay (List.replicate 512 (1 : UInt8)) 511 [2]).length = 512 := by
        rw [length_overlay] <;> rw [List.length_replicate]
        exact hlong.le
      rw [hinv₄.readNode_tidy hne₄ htidy₄.packed (Or.inl ?_), hcont₄, hlen₄]
      · rfl
      · rw [← length_content hinv₄.base.block, hcont₄, hlen₄]
        omega
    · rw [hinv₃.contentOf_eq hne₂, length_content hinv₃.base.block, hchain₂, hcells₃]
  · have hpos := hfull.short
    rw [hw₃] at hpos
    cases hpos

end Origel.RedoxFs
