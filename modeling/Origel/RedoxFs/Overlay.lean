import Origel.RedoxFs.Short

/-! What is written to a file is what the file then holds, over all runs in which files grow at
their ends. -/
namespace Origel.RedoxFs

open Origel.Lib FileSystem

variable {fs fs' fs₁ : FileSystem} {b c d p t x mode offset len n : Nat} {l l' : Layout} {op : Op}
  {es : List Extent} {buf : List UInt8} {err : Option Errno}

/-- The bytes of a file. -/
def contentOf (fs : FileSystem) (t : Nat) : List UInt8 := content fs (chainOf fs t)

/-- A safe call after which the bytes of a file that grows are still in order: fresh blocks do not
join extents before the last, nor the last at its front. -/
def InOrder (fs : FileSystem) (op : Op) : Prop :=
  Safe fs op ∧ match op with
    | .writeNode t offset buf => GrowsAtEnd fs (chainOf fs t) (wrap64 (offset + buf.length))
    | _ => True

/-- `write_node` returns the length of the buffer, lays the buffer over the bytes of the file, and
leaves all other files alone. -/
def Overlays (fs : FileSystem) (t offset : Nat) (buf : List UInt8) : Prop :=
  ∀ n fs', writeNode t offset buf fs = .ok n fs' →
    n = buf.length ∧ contentOf fs' t = overlay (contentOf fs t) offset buf ∧
    nodeLen t fs' = .ok (max (contentOf fs t).length (offset + n)) fs' ∧
    ∀ p, Reach fs p → (fs.nodeAt p).isDir = false → p ≠ t → contentOf fs' p = contentOf fs p

/-- Every file is laid out in order. -/
def AllTidy (fs : FileSystem) (l : Layout) : Prop :=
  ∀ p, l.chain p ≠ [] → (fs.nodeAt p).isDir = false → Tidy fs (l.chain p)

namespace Inv

theorem contentOf_eq (h : Inv fs l) (ht : l.chain t ≠ []) : contentOf fs t = content fs (l.chain t) := by
  rw [contentOf, h.chainOf_eq ht]

/-- `node_len` counts the bytes. -/
theorem nodeLen_eq (h : Inv fs l) (ht : l.chain t ≠ []) :
    nodeLen t fs = .ok (contentOf fs t).length fs := by
  rw [nodeLen_run (h.object t ht).chain (fun _ hc => h.within hc) ht (h.fuel t), h.contentOf_eq ht,
    length_content h.base.block, fileCells, length_cellsOf]

end Inv

theorem Tidy.cut (h : Tidy fs (l.chain t))
    (hrw : Rewritten (fun es es' => ∃ k, es' = (truncateExtents k es).2.1) (l.chain t) fs fs')
    (hes : extentsOf fs' (l.chain t) = (truncateExtents len (extentsOf fs (l.chain t))).2.1) :
    Tidy fs' (l.chain t) := by
  refine ⟨?_, fun c hc => ?_⟩
  · rw [hes]
    exact packed_truncate h.packed len
  · obtain ⟨k, hk⟩ := hrw.extents hc
    have hff := h.filled c hc
    generalize (fs.nodeAt c).extents = es at hk hff
    generalize (fs'.nodeAt c).extents = es' at hk ⊢
    subst hk
    exact filledFirst_truncate hff k

theorem Wrote.tidy (h : Wrote fs l t len fs' l') (hinv : Inv fs l)
    (hfile : (fs.nodeAt t).isDir = false) (htidy : Tidy fs (l.chain t))
    (hend : GrowsAtEnd fs (l.chain t) len) : Tidy fs' (l'.chain t) := by
  obtain ⟨fs₁, hens, ha⟩ := h.ensured
  obtain ⟨-, -, htidy₁⟩ := hens.cells hinv htidy hend
  have hfile₁ : (fs₁.nodeAt t).isDir = false := (Node.isDir_attrs hens.touches.attrs).trans hfile
  obtain ⟨hnodes, -⟩ := hens.touches.inv.agree_data hfile₁ ha fun x hx => hx
  exact htidy₁.congr fun c hc => by rw [hnodes t c hc]

/-- A call in order keeps every file in order. -/
theorem Outcome.tidy (h : Outcome fs l op err fs' l') (hinv : Inv fs l) (hl : op.Legal fs)
    (hord : InOrder fs op) (htidy : AllTidy fs l) : AllTidy fs' l' := by
  intro p hp hfile'
  by_cases hlp : l.chain p = []
  · -- only a new object has no old chain
    obtain ⟨hself, hempty⟩ := h.new_head (hinv.target hl) hlp hp
    rw [hself]
    exact tidy_empty hempty
  have hfile : (fs.nodeAt p).isDir = false := (h.isDir hinv hlp hp).symm.trans hfile'
  by_cases hpt : p = op.target
  · subst hpt
    have ht := htidy _ hlp hfile
    cases h with
    | refused => exact ht
    | created => exact absurd (hl.2.1.symm.trans hfile) (by decide)
    | unnamed => exact absurd (hl.2.1.symm.trans hfile) (by decide)
    | removed => exact absurd (hl.2.symm.trans hfile) (by decide)
    | unsplit => exact absurd (hl.2.symm.trans hfile) (by decide)
    | @wrote t offset buf _ _ h =>
      have hend := hord.2
      dsimp only at hend
      rw [hinv.chainOf_eq (hinv.reach hl.1)] at hend
      exact h.tidy hinv hfile ht hend
    | filled h => exact (h.content hinv hfile ht).1
    | cut _ hrw hes => exact ht.cut hrw hes
    | @attr t perm uid gid _ _ _ ha hn =>
      refine ht.congr fun c _ => ?_
      by_cases hct : c = t
      · rw [hct, hn, Node.setAttr]
      · rw [ha.nodeAt hct]
  · exact (h.other_content hinv hpt hlp hp hfile).2 (htidy p hlp hfile)

theorem create_tidy {disk : Disk} (hsize : disk.size < 2 ^ 64) (hc : create disk = .ok fs) :
    AllTidy fs freshLayout := by
  intro p hp hfile
  have hp1 : p = 1 := by
    by_contra hne
    exact hp (if_neg hne)
  rw [hp1, (create_inv hsize hc).rootDir] at hfile
  cases hfile

/-- Runs in order keep the files in order. -/
theorem run_inOrder {disk : Disk} {fs₀ : FileSystem} {ops : List Op} (hsize : disk.size < 2 ^ 64)
    (hc : create disk = .ok fs₀) (hrun : Run (Op.Step InOrder) fs₀ ops fs) :
    ∃ l, Inv fs l ∧ AllTidy fs l := by
  refine hrun.invariant (I := fun fs => ∃ l, Inv fs l ∧ AllTidy fs l) ?_
    ⟨freshLayout, create_inv hsize hc, create_tidy hsize hc⟩
  rintro fs op fs' ⟨hl, hord, err, hr⟩ ⟨l, h, htidy⟩
  obtain ⟨l', hout⟩ := h.outcome hl hord.1 hr
  exact ⟨l', (hout.inv h).1, hout.tidy h hl hord htidy⟩

/-- Laying a buffer over bytes that were lengthened just as far as needed. -/
theorem overlay_lengthened {ys tail xs : List UInt8} (ho : offset ≤ ys.length)
    (hl : ys.length + tail.length = max ys.length (offset + xs.length)) :
    overlay (ys ++ tail) offset xs = overlay ys offset xs := by
  rw [overlay, overlay, List.take_append_of_le_length ho]
  congr 1
  rcases Nat.le_total (offset + xs.length) ys.length with hle | hle
  · have hnil : tail = [] := List.eq_nil_of_length_eq_zero (by omega)
    rw [hnil, List.append_nil]
  · rw [List.drop_of_length_le (by rw [List.length_append]; omega), List.drop_of_length_le hle]

theorem take_overlay {ys xs : List UInt8} (ho : offset ≤ ys.length) :
    (overlay ys offset xs).take offset = ys.take offset := by
  rw [overlay, List.append_assoc, List.take_append_of_le_length (by rw [List.length_take]; omega),
    List.take_take, Nat.min_self]

theorem length_overlay_max {ys xs : List UInt8} (ho : offset ≤ ys.length) :
    (overlay ys offset xs).length = max ys.length (offset + xs.length) := by
  simp only [overlay, List.length_append, List.length_take, List.length_drop]
  omega

/-- A write to a tidy file that grows at its end, from an offset not behind the end, lays the buffer
over the bytes of the file. -/
theorem Inv.wrote_overlay (h : Inv fs l) (ht : l.chain t ≠ []) (hfile : (fs.nodeAt t).isDir = false)
    (htidy : Tidy fs (l.chain t)) (hoff : offset ≤ (contentOf fs t).length)
    (hlt : offset + buf.length < 2 ^ 64)
    (hsafe : missing fs (l.chain t) (offset + buf.length) + 511 < 2 ^ 64)
    (hend : GrowsAtEnd fs (l.chain t) (offset + buf.length))
    (hw : writeNode t offset buf fs = .ok n fs') :
    n = buf.length ∧ contentOf fs' t = overlay (contentOf fs t) offset buf ∧
      ∃ l', Wrote fs l t (offset + buf.length) fs' l' ∧ l'.chain t ≠ [] := by
  rcases h.writeNode_tidy ht hfile hlt hsafe htidy hend with
    ⟨fs₁, l', tail, hok, hwrote, -, hlen, hcont, -⟩ | ⟨fs₁, herr, -⟩
  · rw [hw] at hok
    cases hok
    have hne : l'.chain t ≠ [] := by
      obtain ⟨fs₂, hens, -⟩ := hwrote.ensured
      exact hens.chain_ne_nil
    rw [h.contentOf_eq ht] at hoff
    refine ⟨rfl, ?_, l', hwrote, hne⟩
    rw [hwrote.touches.inv.contentOf_eq hne, hcont, h.contentOf_eq ht, overlay_lengthened hoff hlen]
  · rw [hw] at herr
    cases herr

/-- The other files keep their bytes. -/
theorem Wrote.content_other (hwrote : Wrote fs l t len fs' l') (h : Inv fs l) (hp : l.chain p ≠ [])
    (hpfile : (fs.nodeAt p).isDir = false) (hpt : p ≠ t) :
    l'.chain p = l.chain p ∧ contentOf fs' p = contentOf fs p := by
  have hchain := hwrote.touches.chain p hpt
  have hp' : l'.chain p ≠ [] := by
    rw [hchain]
    exact hp
  refine ⟨hchain, ?_⟩
  rw [hwrote.touches.inv.contentOf_eq hp', h.contentOf_eq hp, hchain]
  exact (content_of_own h hpfile hwrote.touches.agree fun x hx => h.domain_disjoint hpt hx).1

theorem Inv.overlays (h : Inv fs l) (htidy : AllTidy fs l) (ht : Reach fs t)
    (hfile : (fs.nodeAt t).isDir = false) (hoff : offset ≤ (contentOf fs t).length)
    (hlt : offset + buf.length < 2 ^ 64) (hord : InOrder fs (.writeNode t offset buf)) :
    Overlays fs t offset buf := by
  intro n fs' hw
  have hlt' := h.reach ht
  obtain ⟨hsafe, hend⟩ := hord
  dsimp only at hend
  rw [Safe, h.chainOf_eq hlt', wrap64_of_lt hlt] at hsafe
  rw [h.chainOf_eq hlt', wrap64_of_lt hlt] at hend
  obtain ⟨rfl, hnew, l', hwrote, hne⟩ :=
    h.wrote_overlay hlt' hfile (htidy t hlt' hfile) hoff hlt hsafe hend hw
  refine ⟨rfl, hnew, ?_, fun p hp hpfile hpt => ?_⟩
  · rw [hwrote.touches.inv.nodeLen_eq hne, hnew, length_overlay_max hoff]
  · exact (hwrote.content_other h (h.reach hp) hpfile hpt).2

/-- After every run in order, a write in order lays the buffer over the bytes of the file. -/
theorem write_overlays_content {disk : Disk} {fs₀ : FileSystem} {ops : List Op}
    (hsize : disk.size < 2 ^ 64) (hc : create disk = .ok fs₀)
    (hrun : Run (Op.Step InOrder) fs₀ ops fs) (ht : Reach fs t)
    (hfile : (fs.nodeAt t).isDir = false) (hlen : nodeLen t fs = .ok len fs) (hoff : offset ≤ len)
    (hlt : offset + buf.length < 2 ^ 64) (hord : InOrder fs (.writeNode t offset buf)) :
    Overlays fs t offset buf := by
  obtain ⟨l, h, htidy⟩ := run_inOrder hsize hc hrun
  rw [h.nodeLen_eq (h.reach ht)] at hlen
  cases hlen
  exact h.overlays htidy ht hfile hoff hlt hord

theorem onlyAtEnd_empty (nb rest k : Nat) : OnlyAtEnd nb rest (List.replicate k Extent.default) := by
  induction k with
  | zero => trivial
  | succ k ih => exact ⟨fun hpos => absurd hpos (by decide), ih⟩

/-- The first write to an empty file is in order. -/
theorem Inv.inOrder_first (h : Inv fs l) (ht : l.chain t = [t])
    (hempty : (fs.nodeAt t).extents = List.replicate 15 Extent.default)
    (hpos : 0 < offset + buf.length) (hlt : offset + buf.length + 511 < 2 ^ 64) :
    InOrder fs (.writeNode t offset buf) := by
  have hch : chainOf fs t = [t] := by
    rw [h.chainOf_eq (by simp [ht]), ht]
  refine ⟨?_, ?_⟩
  · rw [Safe, wrap64_of_lt (by omega), hch, missing_empty hempty hpos]
    exact hlt
  · dsimp only
    rw [wrap64_of_lt (by omega), hch]
    intro c nb es hlast _ _
    obtain rfl : c = t := by simpa using hlast.symm
    rw [hempty]
    exact onlyAtEnd_empty nb _ 15

theorem first_write_overlays_content : ∃ fs₀ fs, create (blankDisk 7) = .ok fs₀ ∧
    Run (Op.Step InOrder) fs₀ [.createNode plainFile "a" 1] fs ∧
    Overlays fs 4 0 (List.replicate 600 1) := by
  have hsize : (blankDisk 7).size < 2 ^ 64 := by decide
  obtain ⟨fs₀, hc⟩ := create_ok (show 4 * 512 ≤ (blankDisk 7).size by decide)
  have hinv₀ := create_inv hsize hc
  have hm : plainFile < 2 ^ 16 := by decide
  obtain ⟨fs, l, hok, -, hfirst⟩ := first_node (n := 7) "a" rfl (by omega) (by omega) hc hm
  have hne : l.chain 4 ≠ [] := by simp [hfirst.chain]
  have hfile : (fs.nodeAt 4).isDir = false := by
    rw [hfirst.node]
    decide
  have hempty : (fs.nodeAt 4).extents = List.replicate 15 Extent.default := by
    rw [hfirst.node]
    rfl
  have hstep : Op.Step InOrder fs₀ (.createNode plainFile "a" 1) fs :=
    ⟨⟨hinv₀.reach_root, hinv₀.rootDir, hm⟩, ⟨trivial, trivial⟩, none, .ok (bind_ok hok)⟩
  have hlen : 0 + (List.replicate 600 (1 : UInt8)).length = 600 := by
    rw [List.length_replicate]
  have hord : InOrder fs (.writeNode 4 0 (List.replicate 600 1)) :=
    hfirst.inv.inOrder_first hfirst.chain hempty (by rw [hlen]; omega) (by rw [hlen]; omega)
  refine ⟨fs₀, fs, hc, .cons hstep .nil, ?_⟩
  exact write_overlays_content hsize hc (.cons hstep .nil) hfirst.reach hfile
    (hfirst.inv.nodeLen_eq hne) (Nat.zero_le _) (by rw [hlen]; omega) hord

/-- A file is made and another behind it, the first gets the sector behind both, and the second is
removed: the free block now lies right before the data of the first. -/
theorem run_gap_before_data : ∃ fs₀ fs l, create (blankDisk 7) = .ok fs₀ ∧
    Run (Op.Step Safe) fs₀ [.createNode plainFile "a" 1, .createNode plainFile "b" 1,
      .writeNode 4 0 (List.replicate 512 1), .removeNode Node.MODE_FILE "b" 1] fs ∧
    Inv fs l ∧ l.chain 4 = [4] ∧ Reach fs 4 ∧ (fs.nodeAt 4).isDir = false ∧
    (fs.nodeAt 4).extents = ⟨6, 512⟩ :: List.replicate 14 Extent.default ∧
    fs.freeNode.extents = ⟨5, 512⟩ :: List.replicate 14 Extent.default ∧
    content fs [4] = List.replicate 512 1 ∧ fs.nodeAt 5 = Node.default := by
  have hsize : (blankDisk 7).size < 2 ^ 64 := by decide
  obtain ⟨fs₀, hc⟩ := create_ok (show 4 * 512 ≤ (blankDisk 7).size by decide)
  have hinv₀ := create_inv hsize hc
  have hm : plainFile < 2 ^ 16 := by decide
  obtain ⟨fs₁, l₁, hok₁, -, hfirst⟩ := first_node (n := 7) "a" rfl (by omega) (by omega) hc hm
  have hname₁ : (fs₁.nodeAt 4).nameStr = some "a" := by
    rw [hfirst.node]
    exact Node.nameStr_new (by decide) (by decide)
  have habsent : lookup fs₁ "b" [4] = none := by
    rw [lookup]
    simp [hname₁]
  obtain ⟨fs₂, l₂, hok₂, hcreated, hroot₂, hfree₂, hext₂, hn₂⟩ :=
    hfirst.second (by omega) (by omega) hm habsent
  have hinv₂ := hcreated.inv
  have hchain₂ : l₂.chain 4 = [4] := by
    rw [hcreated.chain 4 (by omega) (by omega), hfirst.chain]
  have hfile₂ : (fs₂.nodeAt 4).isDir = false := by
    rw [hn₂, hfirst.node]
    decide
  have hempty₂ : (fs₂.nodeAt 4).extents = List.replicate 15 Extent.default := by
    rw [hn₂, hfirst.node]
    rfl
  have hlen : 0 + (List.replicate 512 (1 : UInt8)).length = 512 := by
    rw [List.length_replicate]
  have htake₂ : takeExtent 1 fs₂.freeNode.extents =
      some (6, ⟨7, 0⟩ :: List.replicate 14 Extent.default) := by
    rw [hfree₂]
    decide
  obtain ⟨fs₃, l₃, hok₃, hwrote, hchain₃, hfree₃, hext₃, hcont₃⟩ := hinv₂.writeNode_first hlen
    hchain₂ hfile₂ hempty₂ (by omega) (by omega) htake₂
  have hinv₃ := hwrote.touches.inv
  have hsame₃ : ∀ p, p ≠ 4 → ∀ c ∈ l₂.chain p, fs₃.nodeAt c = fs₂.nodeAt c := fun p hp c hcp =>
    hwrote.touches.agree.nodeAt (hinv₂.domain_disjoint hp (mem_own_of_chain hcp))
  have hroot₃ : l₃.chain 1 = [1] := (hwrote.touches.chain 1 (by omega)).trans hroot₂
  have hn₃ : fs₃.nodeAt 5 = Node.new plainFile "b" 1 :=
    (hsame₃ 5 (by omega) 5 (by simp [hcreated.self])).trans hcreated.node
  have hrootext₃ : (fs₃.nodeAt 1).extents = ⟨4, 1024⟩ :: List.replicate 14 Extent.default := by
    rw [hsame₃ 1 (by omega) 1 (by simp [hroot₂]), hext₂]
  have hname₃ : (fs₃.nodeAt 4).nameStr = some "a" := by
    rw [Node.nameStr_attrs hwrote.touches.attrs, hn₂, hname₁]
  have hlist₃ : children fs₃ (chainOf fs₃ 1) = [4, 5] := by
    rw [hinv₃.chainOf_eq hinv₃.rootChain, hinv₃.children_eq hinv₃.rootDir, hroot₃, listing_cons,
      listing_nil, hrootext₃]
    decide
  have hremoves : Removes fs₃ Node.MODE_FILE "b" 1 5 := by
    refine ⟨?_, ?_, ?_⟩
    · have hname : (fs₃.nodeAt 5).nameStr = some "b" := by
        rw [hn₃]
        exact Node.nameStr_new (by decide) (by decide)
      rw [hlist₃, lookup]
      simp [hname₃, hname]
    · rw [hn₃]
      decide
    · rw [hn₃]
      exact fun hd => absurd hd (by decide)
  have hout₃ : removeExtent 5 1 (fs₃.nodeAt 1).extents =
      some (⟨4, 512⟩ :: List.replicate 14 Extent.default, none) := by
    rw [hrootext₃]
    decide
  have hins₃ : insertExtent 5 512 fs₃.freeNode.extents =
      some (⟨5, 512⟩ :: List.replicate 14 Extent.default) := by
    rw [hfree₃]
    decide
  obtain ⟨hroom, fs₄, l₄, hok₄, hremoved, hroot₄, hfree₄, hrootn₄, hn₄, hag₄⟩ :=
    hinv₃.removeNode_short hinv₃.reach_root hinv₃.rootDir hremoves hout₃ hins₃ ⟨rfl, by decide⟩
  have hinv₄ := hremoved.inv
  have hfile₃ : (fs₃.nodeAt 4).isDir = false :=
    (Node.isDir_attrs hwrote.touches.attrs).trans hfile₂
  have hn4 : fs₄.nodeAt 4 = fs₃.nodeAt 4 := hag₄.nodeAt (by omega)
  have hcont₄ : content fs₄ [4] = content fs₃ [4] := by
    have hne : ∀ x ∈ own fs₃ l₃ (.object 4), ¬(Domain fs₃ l₃ 1 x ∨ x = 5) := by
      rintro x hx (hd | rfl)
      · exact hinv₃.domain_disjoint (by omega) hx hd
      · have h5 : 5 ∈ own fs₃ l₃ (.object 5) := by
          refine mem_own_of_chain ?_
          rw [hwrote.touches.chain 5 (by omega), hcreated.self]
          simp
        cases hinv₃.exclusive.disjoint _ _ 5 hx h5
    have := (content_of_own hinv₃ hfile₃ hremoved.agree hne).1
    rwa [hchain₃] at this
  have hreach₂ : Reach fs₂ 4 := by
    refine hinv₂.reach_listed hroot₂ ?_
    rw [hext₂]
    decide
  have hreach₄ : Reach fs₄ 4 := by
    refine hinv₄.reach_listed (hroot₄.trans hroot₃) ?_
    rw [hrootn₄]
    exact List.mem_append_left _ (by decide)
  have hstep₁ : Op.Step Safe fs₀ (.createNode plainFile "a" 1) fs₁ :=
    ⟨⟨hinv₀.reach_root, hinv₀.rootDir, hm⟩, trivial, none, .ok (bind_ok hok₁)⟩
  have hstep₂ : Op.Step Safe fs₁ (.createNode plainFile "b" 1) fs₂ :=
    ⟨⟨hfirst.inv.reach_root, hfirst.inv.rootDir, hm⟩, trivial, none, .ok (bind_ok hok₂)⟩
  have hstep₃ : Op.Step Safe fs₂ (.writeNode 4 0 (List.replicate 512 1)) fs₃ := by
    refine ⟨⟨hreach₂, hfile₂, by omega, by rw [List.length_replicate]; omega⟩, ?_, none,
      .ok (bind_ok hok₃)⟩
    have hch : chainOf fs₂ 4 = [4] := by
      rw [hinv₂.chainOf_eq (by simp [hchain₂]), hchain₂]
    rw [Safe, hlen, hch, wrap64_of_lt (by omega), missing_empty hempty₂ (by omega)]
    omega
  have hstep₄ : Op.Step Safe fs₃ (.removeNode Node.MODE_FILE "b" 1) fs₄ := by
    refine ⟨⟨hinv₃.reach_root, hinv₃.rootDir⟩, fun b hb => ?_, none, .ok hok₄⟩
    obtain rfl : 5 = b := Option.some.inj (hremoves.1.symm.trans hb.1)
    rw [hinv₃.chainOf_eq hinv₃.rootChain]
    exact hroom
  refine ⟨fs₀, fs₄, l₄, hc, .cons hstep₁ (.cons hstep₂ (.cons hstep₃ (.cons hstep₄ .nil))), hinv₄,
    ?_, hreach₄, ?_, ?_, hfree₄, ?_, hn₄⟩
  · rw [hremoved.chain 4 (by omega) (by omega), hchain₃]
  · rw [hn4, hfile₃]
  · rw [hn4, hext₃]
  · rw [hcont₄, hcont₃]
    exact List.nil_append _

/-- The next sector of the file is put before the first: what was its content is now its end, and
gets overwritten. -/
theorem growth_in_front_breaks_overlay : ∃ fs₀ fs, create (blankDisk 7) = .ok fs₀ ∧
    Run (Op.Step Safe) fs₀ [.createNode plainFile "a" 1, .createNode plainFile "b" 1,
      .writeNode 4 0 (List.replicate 512 1), .removeNode Node.MODE_FILE "b" 1] fs ∧
    Reach fs 4 ∧ (fs.nodeAt 4).isDir = false ∧ nodeLen 4 fs = .ok 512 fs ∧
    Safe fs (.writeNode 4 512 (List.replicate 512 2)) ∧
    ¬Overlays fs 4 512 (List.replicate 512 2) := by
  obtain ⟨fs₀, fs, l, hc, hrun, h, hchain, hreach, hfile, hext, hfree, hcont, hzero⟩ :=
    run_gap_before_data
  have hne : l.chain 4 ≠ [] := by simp [hchain]
  have hcont' : contentOf fs 4 = List.replicate 512 1 := by
    rw [h.contentOf_eq hne, hchain, hcont]
  have hm : missing fs [4] 1024 = 512 := by
    rw [missing, extentsOf_cons, extentsOf_nil, List.append_nil, hext]
    decide
  have hlen : 512 + (List.replicate 512 (2 : UInt8)).length = 1024 := by
    rw [List.length_replicate]
  refine ⟨fs₀, fs, hc, hrun, hreach, hfile, ?_, ?_, fun hover => ?_⟩
  · rw [h.nodeLen_eq hne, hcont', List.length_replicate]
  · rw [Safe, hlen, wrap64_of_lt (by omega), h.chainOf_eq hne, hchain, hm]
    omega
  have htake : takeExtent 1 fs.freeNode.extents =
      some (5, ⟨6, 0⟩ :: List.replicate 14 Extent.default) := by
    rw [hfree]
    decide
  have hins : insertExtent 5 512 (filledUp (fs.nodeAt 4).extents) =
      some (⟨5, 1024⟩ :: List.replicate 14 Extent.default) := by
    rw [hext]
    decide
  obtain ⟨fs₁, l₁, hok, hens, hchain₁, -, hnode, hag⟩ := h.nodeEnsureLen_short hchain hfile
    (by rw [hm]; omega) (by rw [hm]; omega) (by rw [hm]; exact htake) (by rw [hm]; exact hins)
    ⟨rfl, by decide⟩
  have hinv₁ := hens.touches.inv
  have hfile₁ : (fs₁.nodeAt 4).isDir = false := (Node.isDir_attrs hens.touches.attrs).trans hfile
  have hext₁ : (fs₁.nodeAt 4).extents = ⟨5, 1024⟩ :: List.replicate 14 Extent.default := by
    rw [hnode]
  obtain ⟨-, hcont₁⟩ := content_one hinv₁.base.block hext₁
  have hpk : Packed (extentsOf fs₁ (l₁.chain 4)) := by
    rw [hchain₁, extentsOf_cons, extentsOf_nil, List.append_nil, hext₁]
    exact ⟨fun hc => (hc (cellsOf_replicate 14)).elim, packed_of_nil (cellsOf_replicate 14)⟩
  obtain ⟨fs₂, hrun₂, ha, -, hcont₂⟩ := hinv₁.writeBytes_content 512 (List.replicate 512 2)
    hens.chain_ne_nil hfile₁ hpk (by rw [hchain₁, hcont₁, length_load, hlen])
  have hw : writeNode 4 512 (List.replicate 512 2) fs =
      .ok (List.replicate 512 (2 : UInt8)).length fs₂ := by
    rw [writeNode_eq, hlen, wrap64_of_lt (by omega), bind_ok hok, hrun₂]
  have hchain₂ : chainOf fs₂ 4 = l₁.chain 4 :=
    (hens.wrote hfile ha).touches.inv.chainOf_eq hens.chain_ne_nil
  obtain ⟨-, hnew, -⟩ := hover _ _ hw
  -- the first sector of the file is now block 5, which still holds the removed node
  have hfront : fs₁.sector 5 = List.replicate 512 1 := by
    rw [contentOf, hchain₂, hcont₂, hchain₁, hcont₁, hcont'] at hnew
    have htake := congrArg (List.take 512) hnew
    rw [take_overlay (by rw [length_load]; decide), take_overlay (by rw [List.length_replicate]),
      take_load _ _ (by decide), List.take_of_length_le (by rw [List.length_replicate])] at htake
    rw [FileSystem.sector, FileSystem.bytesAt, hinv₁.base.block, Nat.zero_add]
    exact htake
  have hmode : (fs.nodeAt 5).mode = 257 := by
    rw [nodeAt_eq, ← hag.sector 5 (by omega), hfront]
    decide
  rw [hzero] at hmode
  exact absurd hmode (by decide)

end Origel.RedoxFs
