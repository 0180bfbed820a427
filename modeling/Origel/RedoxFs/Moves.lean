import Origel.RedoxFs.Layout

/-! How blocks pass between the free list, the caller and the objects when the extents of one node
are edited. -/
namespace Origel.RedoxFs

open Origel.Lib FileSystem

variable {fs fs' : FileSystem} {b c p t block length : Nat} {n : Node} {cs held' pre : List Nat}
  {es : List Extent} {l : Layout}

/-- What a node says apart from where its blocks are. -/
def Node.attrs (n : Node) : Nat × Nat × Nat × List UInt8 × Nat :=
  (n.mode, n.uid, n.gid, n.name, n.parent)

theorem Node.attrs_next (n : Node) (x : Nat) : Node.attrs { n with next := x } = n.attrs := rfl

theorem Node.attrs_extents (n : Node) (es : List Extent) :
    Node.attrs { n with extents := es } = n.attrs := rfl

theorem Node.isDir_attrs {n n' : Node} (h : n'.attrs = n.attrs) : n'.isDir = n.isDir := by
  simp only [attrs, Prod.mk.injEq] at h
  exact Node.isDir_congr h.1

theorem Node.nameStr_attrs {n n' : Node} (h : n'.attrs = n.attrs) : n'.nameStr = n.nameStr := by
  simp only [attrs, Prod.mk.injEq] at h
  rw [nameStr, nameStr, h.2.2.2.1]

theorem Node.permission_attrs {n n' : Node} (h : n'.attrs = n.attrs) (uid gid op : Nat) :
    n'.permission uid gid op = n.permission uid gid op := by
  simp only [attrs, Prod.mk.injEq] at h
  rw [permission, permission, h.1, h.2.1, h.2.2.1]

theorem attrs_setExtents (hv : ValidExtents es) :
    ((fs.setExtents c es).nodeAt p).attrs = (fs.nodeAt p).attrs := by
  rw [nodeAt_setExtents hv]
  by_cases hp : p = c
  · rw [hp, Function.update_self]
    exact Node.attrs_extents ..
  · rw [Function.update_of_ne hp]

theorem FileSystem.Agree.freeNode {T : Nat → Prop} (h : Agree T fs fs') (hT : ¬T fs.header.2.free) :
    fs'.freeNode = fs.freeNode := by
  rw [FileSystem.freeNode, FileSystem.freeNode, h.header, h.nodeAt hT]

/-- The listing of a chain splits into what one of its nodes lists and the rest. -/
theorem listing_setExtents (fs : FileSystem) (hn : cs.Nodup) (hc : c ∈ cs) (hv : ValidExtents es) :
    ∃ rest, (listing fs cs).Perm (spans (fs.nodeAt c).extents ++ rest) ∧
      (listing (fs.setExtents c es) cs).Perm (spans es ++ rest) := by
  obtain ⟨pre, post, rfl⟩ := List.append_of_mem hc
  obtain ⟨_, hpost, hd⟩ := List.nodup_append.mp hn
  have hother : ∀ x, x ≠ c → ((fs.setExtents c es).nodeAt x).extents = (fs.nodeAt x).extents := by
    intro x hx
    rw [nodeAt_setExtents hv, Function.update_of_ne hx]
  have hself : ((fs.setExtents c es).nodeAt c).extents = es := by
    rw [nodeAt_setExtents hv, Function.update_self]
  have hl : listing (fs.setExtents c es) pre = listing fs pre :=
    listing_congr fun x hx => hother x (hd x hx c (by simp))
  have hr : listing (fs.setExtents c es) post = listing fs post := by
    apply listing_congr
    intro x hx
    apply hother
    rintro rfl
    exact (List.nodup_cons.mp hpost).1 hx
  refine ⟨listing fs pre ++ listing fs post, ?_, ?_⟩
  · rw [listing_append, listing_cons]
    exact List.perm_append_comm_assoc ..
  · rw [listing_append, listing_cons, hl, hr, hself]
    exact List.perm_append_comm_assoc ..

theorem listing_insertExtent (hsize : fs.disk.size < 2 ^ 64) (hn : cs.Nodup) (hc : c ∈ cs)
    (hv : ValidExtents es) (hf : ∀ e ∈ (fs.nodeAt c).extents, e.Fits fs.disk.size)
    (hin : 512 * block + length ≤ fs.disk.size) (he : insertExtent block length (fs.nodeAt c).extents = some es) :
    (listing (fs.setExtents c es) cs).Perm
      (List.range' block ((length + 511) / 512) ++ listing fs cs) := by
  obtain ⟨rest, hold, hnew⟩ := listing_setExtents fs hn hc hv
  refine hnew.trans (((spans_insertExtent he hsize hf hin).append_right rest).trans ?_)
  rw [List.append_assoc]
  exact List.Perm.append_left _ hold.symm

theorem validExtents_of_fits (hs : fs.disk.size < 2 ^ 64) (hl : es.length = 15)
    (hf : ∀ e ∈ es, e.Fits fs.disk.size) : ValidExtents es :=
  ⟨hl, fun e he => (hf e he).block_lt hs⟩

theorem isDir_setExtents (hv : ValidExtents es) :
    ((fs.setExtents c es).nodeAt p).isDir = (fs.nodeAt p).isDir := by
  apply Node.isDir_congr
  rw [nodeAt_setExtents hv]
  by_cases hp : p = c
  · rw [hp, Function.update_self]
  · rw [Function.update_of_ne hp]

theorem next_setExtents (hv : ValidExtents es) :
    ((fs.setExtents c es).nodeAt p).next = (fs.nodeAt p).next := by
  rw [nodeAt_setExtents hv]
  by_cases hp : p = c
  · rw [hp, Function.update_self]
  · rw [Function.update_of_ne hp]

namespace Inv

theorem freeNode_count (_h : Inv fs l) : fs.freeNode.extents.length = 15 :=
  (nodeAt_valid fs fs.header.2.free).count

theorem freeFits (h : Inv fs l) : ∀ e ∈ fs.freeNode.extents, e.Fits fs.disk.size := by
  rw [h.base.freeNode]
  exact h.base.fits

theorem within_taken (h : Inv fs l) (ht : takeExtent 1 fs.freeNode.extents = some (b, es)) :
    fs.Within b := by
  have := (takeExtent_fits ht h.freeFits).2.1
  exact h.base.within (by omega)

/-- `allocate` hands free blocks to the caller. -/
theorem take {k : Nat} (h : Inv fs l) (ht : takeExtent k fs.freeNode.extents = some (b, es)) :
    ValidExtents es ∧ Inv (fs.setExtents 2 es) { l with held := List.range' b k ++ l.held } ∧
      ∀ x ∈ List.range' b k, x ∈ own fs l .free := by
  obtain ⟨hfits, hin, hlo⟩ := takeExtent_fits ht h.freeFits
  have hp := spans_takeExtent ht
  have hv : ValidExtents es :=
    validExtents_of_fits h.base.size ((length_takeExtent ht).trans h.freeNode_count) hfits
  refine ⟨hv, ?_, ?_⟩
  · refine h.setFree hv hfits ?_ ?_
    · have hp' : (spans es ++ (List.range' b k ++ l.held)).Perm
          (spans fs.freeNode.extents ++ l.held) := by
        rw [← List.append_assoc]
        exact (List.perm_append_comm.trans hp).append_right _
      exact hp'.subperm
    · intro x hx
      rcases List.mem_append.mp hx with hx | hx
      · have := List.mem_range'_1.mp hx
        omega
      · exact h.inside .held (by simp) x hx
  · intro x hx
    exact hp.subset (List.mem_append_left _ hx)

/-- A run of blocks in hand lies on the disk, behind the reserved blocks. -/
theorem held_run (h : Inv fs l) (hl : 0 < length)
    (hh : ∀ x ∈ List.range' block ((length + 511) / 512), x ∈ l.held) :
    512 * block + length ≤ fs.disk.size ∧ 4 ≤ block := by
  have hfirst : block ∈ l.held := hh _ (List.mem_range'_1.mpr (by omega))
  have hlast : block + (length + 511) / 512 - 1 ∈ l.held :=
    hh _ (List.mem_range'_1.mpr (by omega))
  have hin := h.inside .held (by simp) _ hlast
  have hno := (h.held_unowned hfirst).2 1
  have hres : block ∉ own fs l .reserved := by
    intro hr
    have hm : block ∈ own fs l .held := hfirst
    cases h.exclusive.disjoint _ _ block hr hm
  have h1 : block ≠ 1 := by
    rintro rfl
    exact hno (h.head_mem h.rootChain)
  have : block ≠ 0 ∧ block ≠ 2 ∧ block ≠ 3 := by simpa [own] using hres
  omega

/-- The free node has a place for blocks that the caller gives back. -/
theorem give (h : Inv fs l) (hl : 0 < length)
    (hh : l.held.Perm (List.range' block ((length + 511) / 512) ++ held'))
    (he : insertExtent block length fs.freeNode.extents = some es) :
    ValidExtents es ∧ Inv (fs.setExtents 2 es) { l with held := held' } := by
  obtain ⟨hin, hlo⟩ := h.held_run hl fun x hx => hh.mem_iff.mpr (List.mem_append_left _ hx)
  have hfits := insertExtent_fits he h.base.size h.freeFits hin fun _ => hlo
  have hv : ValidExtents es :=
    validExtents_of_fits h.base.size ((length_insertExtent he).trans h.freeNode_count) hfits
  have hp := spans_insertExtent he h.base.size h.freeFits hin
  refine ⟨hv, h.setFree hv hfits ?_ ?_⟩
  · have hp' : (spans es ++ held').Perm (spans fs.freeNode.extents ++ l.held) := by
      refine (hp.append_right held').trans ?_
      refine ((List.perm_append_comm).append_right held').trans ?_
      rw [List.append_assoc]
      exact List.Perm.append_left _ hh.symm
    exact hp'.subperm
  · intro x hx
    exact h.inside .held (by simp) x (hh.mem_iff.mpr (List.mem_append_right _ hx))

/-- A node of a file has a place for blocks in hand. -/
theorem placeFile (h : Inv fs l) (hc : c ∈ l.chain t) (hfile : (fs.nodeAt t).isDir = false)
    (hl : 0 < length) (hh : l.held.Perm (List.range' block ((length + 511) / 512) ++ held'))
    (he : insertExtent block length (fs.nodeAt c).extents = some es) :
    ValidExtents es ∧ Inv (fs.setExtents c es) { l with held := held' } ∧
      (listing (fs.setExtents c es) (l.chain t)).Perm
        (List.range' block ((length + 511) / 512) ++ listing fs (l.chain t)) := by
  have hne := List.ne_nil_of_mem hc
  have ho := h.object t hne
  obtain ⟨hin, hlo⟩ := h.held_run hl fun x hx => hh.mem_iff.mpr (List.mem_append_left _ hx)
  have hfits := insertExtent_fits he h.base.size (ho.fits c hc) hin fun _ => hlo
  have hv : ValidExtents es := validExtents_of_fits h.base.size
    ((length_insertExtent he).trans (nodeAt_valid fs c).count) hfits
  have hmove := listing_insertExtent h.base.size (h.nodup_chain t) hc hv (ho.fits c hc) hin he
  refine ⟨hv, ?_, hmove⟩
  refine h.rewriteFile _ hne hfile (Agree.setExtents hv hc) (fun _ _ => next_setExtents hv)
    ((isDir_setExtents hv).trans hfile) ?_ ?_
  · intro d hd
    rw [nodeAt_setExtents hv]
    by_cases hdc : d = c
    · rw [hdc, Function.update_self]
      exact hfits
    · rw [Function.update_of_ne hdc]
      exact ho.fits d hd
  · apply List.Perm.subperm
    refine (hmove.append_right held').trans ?_
    refine List.Perm.trans ?_ (List.Perm.append_left _ hh.symm)
    rw [List.append_assoc]
    exact List.perm_append_comm_assoc ..

/-- A node of a directory has a place for objects nobody names. -/
theorem placeDir (h : Inv fs l) (hc : c ∈ l.chain t) (hdir : (fs.nodeAt t).isDir = true)
    (ha : 512 ∣ length) (hfit : 512 * block + length ≤ fs.disk.size) (hlo : 0 < length → 4 ≤ block)
    (hfresh : ∀ x ∈ List.range' block ((length + 511) / 512),
      (∀ p, x ∉ entries fs l p) ∧ l.chain x ≠ [] ∧ x ≠ 1)
    (he : insertExtent block length (fs.nodeAt c).extents = some es) :
    ValidExtents es ∧ Inv (fs.setExtents c es) l ∧
      (listing (fs.setExtents c es) (l.chain t)).Perm
        (List.range' block ((length + 511) / 512) ++ listing fs (l.chain t)) := by
  have hne := List.ne_nil_of_mem hc
  have ho := h.object t hne
  have hfits := insertExtent_fits he h.base.size (ho.fits c hc) hfit hlo
  have hal := insertExtent_aligned he (ho.aligned hdir c hc) ha
  have hv : ValidExtents es := validExtents_of_fits h.base.size
    ((length_insertExtent he).trans (nodeAt_valid fs c).count) hfits
  have hmove := listing_insertExtent h.base.size (h.nodup_chain t) hc hv (ho.fits c hc) hfit he
  refine ⟨hv, ?_, hmove⟩
  refine h.rewriteDir _ hne hdir (Agree.setExtents hv hc) (fun _ _ => next_setExtents hv)
    ((isDir_setExtents hv).trans hdir) ?_ List.nodup_range' hfresh hmove.subperm
  intro d hd e hm
  rw [nodeAt_setExtents hv] at hm
  by_cases hdc : d = c
  · rw [hdc, Function.update_self] at hm
    exact ⟨hfits e hm, hal e hm⟩
  · rw [Function.update_of_ne hdc] at hm
    exact ⟨ho.fits d hd e hm, ho.aligned hdir d hd e hm⟩

/-- A free block becomes the last node of the chain of `t`, behind `c`. -/
structure Extension (fs : FileSystem) (l : Layout) (t c b : Nat) (es : List Extent)
    (fs' : FileSystem) : Prop where
  valid : ValidExtents es
  inv : Inv fs' (l.set t (l.chain t ++ [b]) l.held)
  free : b ∈ own fs l .free
  freeNode : fs'.freeNode.extents = es
  node : fs'.nodeAt b = Node.default
  nodes : ∀ d ∈ l.chain t, ∃ x, fs'.nodeAt d = { fs.nodeAt d with next := x }
  agree : Agree (fun x => x = 2 ∨ x = c ∨ x = b) fs fs'
  entries : ∀ p, entries fs' (l.set t (l.chain t ++ [b]) l.held) p = entries fs l p
  listing : listing fs' (l.chain t ++ [b]) = listing fs (l.chain t)

theorem extend (h : Inv fs l) (hcs : l.chain t = pre ++ [c])
    (hb : takeExtent 1 fs.freeNode.extents = some (b, es)) :
    Extension fs l t c b es ((fs.setExtents 2 es).link c b) := by
  obtain ⟨hv, hinv, hfree⟩ := h.take hb
  have hct : c ∈ l.chain t := by simp [hcs]
  have hbh : b ∈ List.range' b 1 ++ l.held := by simp
  have ha : Agree (· = 2) fs (fs.setExtents 2 es) := Agree.setExtents hv rfl
  have hn : ∀ d ∈ l.chain t, (fs.setExtents 2 es).nodeAt d = fs.nodeAt d :=
    fun d hd => ha.nodeAt (h.chain_ne_two hd)
  obtain ⟨hnb, -, hl⟩ := hinv.link_nodes (t := t) hct hbh
  have hb2 := (hinv.held_bounds hbh).2.1
  constructor
  case valid => exact hv
  case inv => exact hinv.link (t := t) hcs (List.Perm.refl _)
  case free => exact hfree b (by simp)
  case freeNode =>
    rw [hl.freeNode, hinv.base.freeNode, nodeAt_setExtents hv, Function.update_self]
    rw [hinv.base.free]
    rintro (h2 | h2)
    · exact h.chain_ne_two hct h2.symm
    · exact hb2 h2.symm
  case node => exact hnb
  case nodes =>
    intro d hd
    obtain ⟨x, hx⟩ := hinv.link_old (t := t) hct hbh hd
    rw [hn d hd] at hx
    exact ⟨x, hx⟩
  case agree => exact (ha.mono fun x hx => Or.inl hx).trans (hl.mono fun x hx => Or.inr hx)
  case entries =>
    intro p
    exact (hinv.entries_link (t := t) hct hbh p).trans (h.own_setFree _ hv rfl).2
  case listing =>
    refine (hinv.listing_link (t := t) hct hbh).trans ?_
    exact listing_congr fun d hd => by rw [hn d hd]

end Inv

end Origel.RedoxFs
