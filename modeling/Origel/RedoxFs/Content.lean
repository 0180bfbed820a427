import Origel.RedoxFs.File
import Origel.RedoxFs.Growth

/-! The bytes of a file, and what reading, writing and growing it do to them. -/
namespace Origel.RedoxFs

open Origel.Lib FileSystem

variable {fs fs' fs₁ : FileSystem} {b c p t len offset : Nat} {cs pre : List Nat}
  {es : List Extent} {l l' : Layout} {buf : List UInt8}

/-- The bytes of the extents along a chain, in order. -/
def content (fs : FileSystem) (cs : List Nat) : List UInt8 :=
  cs.flatMap fun c => (fs.nodeAt c).extents.flatMap fun e => fs.bytesAt e.block e.length

/-- The places of a file's bytes. -/
def fileCells (fs : FileSystem) (cs : List Nat) : List Nat := cellsOf (extentsOf fs cs)

theorem content_eq (hb : fs.block = 0) (cs : List Nat) :
    content fs cs = (fileCells fs cs).map fs.disk.bytes := by
  have hread : ∀ e : Extent, fs.bytesAt e.block e.length = e.cells.map fs.disk.bytes :=
    fun e => bytesAt_eq hb e.block e.length
  simp only [content, hread, fileCells, cellsOf, extentsOf, List.flatMap_assoc, List.map_flatMap]

theorem length_content (hb : fs.block = 0) (cs : List Nat) : (content fs cs).length = (fileCells fs cs).length := by
  rw [content_eq hb, List.length_map]

theorem mem_cellsOf {x : Nat} : x ∈ cellsOf es ↔ ∃ e ∈ es, x ∈ e.cells := List.mem_flatMap

theorem mem_span_of_mem_cells {e : Extent} {x : Nat} (h : x ∈ e.cells) : x / 512 ∈ e.span := by
  have := List.mem_range'_1.mp h
  rw [Extent.mem_span]
  omega

theorem mem_listing_of_mem_cells {x : Nat} (h : x ∈ fileCells fs cs) : x / 512 ∈ listing fs cs := by
  obtain ⟨e, he, hx⟩ := mem_cellsOf.mp h
  exact List.mem_flatMap.mpr ⟨e, he, mem_span_of_mem_cells hx⟩

/-- Two file systems with the same sector have the same bytes there. -/
theorem bytes_of_sector {x : Nat} (hb : fs.block = 0) (hb' : fs'.block = 0)
    (h : fs'.sector (x / 512) = fs.sector (x / 512)) : fs'.disk.bytes x = fs.disk.bytes x := by
  have hs : ∀ f : FileSystem, f.block = 0 →
      (f.sector (x / 512))[x % 512]? = some (f.disk.bytes x) := by
    intro f hf
    have hx : x = 512 * (x / 512) + x % 512 := (Nat.div_add_mod x 512).symm
    have hlt : x % 512 < 512 := Nat.mod_lt _ (by omega)
    rw [sector, bytesAt_eq hf, load, List.getElem?_map, List.getElem?_range' hlt, Option.map_some,
      Nat.one_mul, ← hx]
  have h1 := hs fs' hb'
  rw [h, hs fs hb] at h1
  exact (Option.some.inj h1).symm

theorem content_congr {T : Nat → Prop} (hb : fs.block = 0) (ha : Agree T fs fs')
    (hc : ∀ c ∈ cs, ¬T c) (hd : ∀ b ∈ listing fs cs, ¬T b) : content fs' cs = content fs cs := by
  have hes : extentsOf fs' cs = extentsOf fs cs :=
    extentsOf_congr fun c hcs => by rw [ha.nodeAt (hc c hcs)]
  rw [content_eq hb, content_eq (ha.block.trans hb), fileCells, hes]
  apply List.map_congr_left
  intro x hx
  exact bytes_of_sector hb (ha.block.trans hb) (ha.sector _ (hd _ (mem_listing_of_mem_cells hx)))

theorem agree_scatter {T : Nat → Prop} {xs : List Nat} (ys : List UInt8) (hb : fs.block = 0)
    (hT : ∀ x ∈ xs, T (x / 512)) :
    Agree T fs (fs.setBytes (scatter fs.disk.bytes xs ys)) where
  block := rfl
  header := rfl
  size := rfl
  sector b hn := by
    rw [sector, sector, bytesAt_eq hb, bytesAt_eq (block_setBytes hb _)]
    apply List.map_congr_left
    intro x hx
    have := List.mem_range'_1.mp hx
    apply scatter_of_not_mem
    intro hm
    have hx : x / 512 = b := by omega
    exact hn (hx ▸ hT x hm)

/-- The files are laid out as the code assumes: each extent in use but the last ends with its
sector, and unused extents of a node come last. -/
structure Tidy (fs : FileSystem) (cs : List Nat) : Prop where
  packed : Packed (extentsOf fs cs)
  filled : ∀ c ∈ cs, FilledFirst (fs.nodeAt c).extents

theorem Tidy.congr (h : Tidy fs cs) (hn : ∀ c ∈ cs, (fs'.nodeAt c).extents = (fs.nodeAt c).extents) :
    Tidy fs' cs := by
  refine ⟨?_, ?_⟩
  · rw [extentsOf_congr hn]
    exact h.packed
  · intro c hc
    rw [hn c hc]
    exact h.filled c hc

theorem nodup_cellsOf (h : (spans es).Nodup) : (cellsOf es).Nodup := by
  induction es with
  | nil => exact List.nodup_nil
  | cons e es ih =>
    rw [spans_cons, List.nodup_append] at h
    rw [cellsOf_cons, List.nodup_append]
    refine ⟨List.nodup_range', ih h.2.1, fun x hx y hy hxy => ?_⟩
    subst hxy
    obtain ⟨e', he', hx'⟩ := mem_cellsOf.mp hy
    exact h.2.2 _ (mem_span_of_mem_cells hx) _
      (List.mem_flatMap.mpr ⟨e', he', mem_span_of_mem_cells hx'⟩) rfl

theorem Inv.nodup_fileCells (h : Inv fs l) (hfile : (fs.nodeAt p).isDir = false) :
    (fileCells fs (l.chain p)).Nodup := by
  have hn := h.exclusive.nodup (.object p)
  rw [own_of_file hfile, List.nodup_append] at hn
  exact nodup_cellsOf hn.2.1

/-- A file whose blocks are untouched keeps its bytes. -/
theorem content_of_own {T : Nat → Prop} (h : Inv fs l) (hfile : (fs.nodeAt p).isDir = false)
    (ha : Agree T fs fs') (hT : ∀ b ∈ own fs l (.object p), ¬T b) :
    content fs' (l.chain p) = content fs (l.chain p) ∧
      (Tidy fs (l.chain p) → Tidy fs' (l.chain p)) := by
  rw [own_of_file hfile] at hT
  have hc : ∀ c ∈ l.chain p, ¬T c := fun c hc => hT c (by simp [hc])
  refine ⟨content_congr h.base.block ha hc fun b hb => hT b (by simp [hb]), fun ht => ?_⟩
  exact ht.congr fun c hcs => by rw [ha.nodeAt (hc c hcs)]

/-- The length that the sectors of the file do not reach. -/
def missing (fs : FileSystem) (cs : List Nat) (len : Nat) : Nat :=
  (ensureExtents len (extentsOf fs cs)).2.2

/-- What `node_ensure_len` does when it succeeds. -/
structure Ensured (fs : FileSystem) (l : Layout) (t len : Nat) (fs' : FileSystem) (l' : Layout) :
    Prop where
  touches : Touches fs l t fs' l'
  nodesOnly : Agree (fun x => x = 2 ∨ x ∈ own fs l .free ∨ x ∈ l.chain t) fs fs'
  conserve : (own fs l .free ++ own fs l (.object t)).Perm
    (own fs' l' .free ++ own fs' l' (.object t))
  grown : ∃ pre c fs₁, l.chain t = pre ++ [c] ∧
    Rewritten (fun es es' => ∃ k, es' = (ensureExtents k es).2.1) (l.chain t) fs fs₁ ∧
    extentsOf fs₁ (l.chain t) = (ensureExtents len (extentsOf fs (l.chain t))).2.1 ∧
    (missing fs (l.chain t) len = 0 ∧ fs' = fs₁ ∧ l' = l ∨
      0 < missing fs (l.chain t) len ∧ ∃ nb es,
        takeExtent ((missing fs (l.chain t) len + 511) / 512) fs.freeNode.extents = some (nb, es) ∧
        Appended fs₁ pre c nb (missing fs (l.chain t) len) fs' (l'.chain t))

theorem filledUp_nodes (h : extentsOf fs' cs = filledUp (extentsOf fs cs)) :
    ∀ c ∈ cs, (fs'.nodeAt c).extents = filledUp (fs.nodeAt c).extents := by
  induction cs with
  | nil => simp
  | cons d cs ih =>
    rw [extentsOf_cons, extentsOf_cons, filledUp_append] at h
    have hl : (fs'.nodeAt d).extents.length = (filledUp (fs.nodeAt d).extents).length := by
      rw [length_filledUp, (nodeAt_valid fs' d).count, (nodeAt_valid fs d).count]
    obtain ⟨hd, hcs⟩ := List.append_inj h hl
    intro c hc
    rcases List.mem_cons.mp hc with rfl | hc
    · exact hd
    · exact ih hcs c hc

theorem extentsOf_filledUp
    (h : ∀ c ∈ cs, (fs'.nodeAt c).extents = filledUp (fs.nodeAt c).extents) :
    extentsOf fs' cs = filledUp (extentsOf fs cs) := by
  induction cs with
  | nil => rfl
  | cons d cs ih =>
    rw [extentsOf_cons, extentsOf_cons, filledUp_append, h d (by simp),
      ih fun c hc => h c (by simp [hc])]

/-- The fresh blocks have no place in the last node, and no block is left to make one. -/
def CannotList (fs : FileSystem) (cs : List Nat) (len : Nat) : Prop :=
  0 < missing fs cs len ∧ ∃ c nb es, cs.getLast? = some c ∧
    takeExtent ((missing fs cs len + 511) / 512) fs.freeNode.extents = some (nb, es) ∧
    takeExtent 1 es = none ∧
    insertExtent nb (missing fs cs len) (filledUp (fs.nodeAt c).extents) = none

/-- A file of that length is too long for the free blocks. -/
def NoSpace (fs : FileSystem) (cs : List Nat) (len : Nat) : Prop :=
  0 < missing fs cs len ∧
    takeExtent ((missing fs cs len + 511) / 512) fs.freeNode.extents = none ∨ CannotList fs cs len

/-- The places in the last sector of a file that it gets when it is made longer. -/
def fillCells (fs : FileSystem) (cs : List Nat) (len : Nat) : List Nat :=
  (cellsOf (ensureExtents len (extentsOf fs cs)).2.1).drop (fileCells fs cs).length

/-- The places in fresh blocks that it gets besides. -/
def freshCells (fs : FileSystem) (cs : List Nat) (len : Nat) : List Nat :=
  match takeExtent ((missing fs cs len + 511) / 512) fs.freeNode.extents with
  | some (nb, _) => List.range' (512 * nb) (missing fs cs len)
  | none => []

namespace Inv

theorem extents_plain (h : Inv fs l) : ∀ e ∈ extentsOf fs (l.chain t), e.Plain := by
  intro e he
  obtain ⟨c, hc, he⟩ := List.mem_flatMap.mp he
  exact ((h.object t (List.ne_nil_of_mem hc)).fits c hc e he).plain h.base.size

theorem extents_lt (h : Inv fs l) : ∀ e ∈ extentsOf fs (l.chain t), e.length + 511 < 2 ^ 64 :=
  fun e he => (h.extents_plain e he).length

/-- `node_ensure_len` succeeds, or finds no run of free blocks, or no block for the list of them. -/
theorem ensure_spec (h : Inv fs l) (len : Nat) (ht : l.chain t ≠ []) (hfile : (fs.nodeAt t).isDir = false)
    (hw : missing fs (l.chain t) len + 511 < 2 ^ 64) :
    (∃ fs' l', nodeEnsureLen t len fs = .ok () fs' ∧ Ensured fs l t len fs' l' ∧
      Agree (fun x => x = 2 ∨ x ∈ l'.chain t) fs fs' ∧ ¬NoSpace fs (l.chain t) len) ∨
    ∃ fs', nodeEnsureLen t len fs = .error (.errno .ENOSPC) fs' ∧ Inv fs' l ∧
      Agree (fun x => x = 2 ∨ x ∈ l.chain t) fs fs' ∧
      (fs'.nodeAt t).attrs = (fs.nodeAt t).attrs ∧ 0 < missing fs (l.chain t) len ∧
      (∀ c ∈ l.chain t, (fs'.nodeAt c).extents = filledUp (fs.nodeAt c).extents) ∧
      (takeExtent ((missing fs (l.chain t) len + 511) / 512) fs.freeNode.extents = none ∧
          Agree (· ∈ l.chain t) fs fs' ∨
        CannotList fs (l.chain t) len) := by
  obtain ⟨pre, c, hcs⟩ : ∃ pre c, l.chain t = pre ++ [c] :=
    ⟨_, _, (List.dropLast_append_getLast ht).symm⟩
  obtain ⟨fs₁, hinv, hrw, hlist, hes, hrun⟩ := h.fillUp len hcs hfile
  have hattr := hrw.attrs t
  have hfile₁ := (Node.isDir_attrs hattr).trans hfile
  have hfn : fs₁.freeNode = fs.freeNode := by
    apply hrw.agree.freeNode
    rw [h.base.free]
    exact fun h2 => h.chain_ne_two h2 rfl
  have hown : own fs₁ l (.object t) = own fs l (.object t) := by
    rw [own_of_file hfile₁, own_of_file hfile, hlist]
  have hgo : nodeEnsureLen t len fs = (if missing fs (l.chain t) len > 0 then
      growLast c (missing fs (l.chain t) len) else pure ()) fs₁ := hrun
  rw [hgo]
  by_cases hr : missing fs (l.chain t) len > 0
  · rw [if_pos hr]
    have hfill : extentsOf fs₁ (l.chain t) = filledUp (extentsOf fs (l.chain t)) := by
      rw [hes, ensureExtents_filledUp h.extents_lt hr]
    rcases hinv.growLast_spec hcs hfile₁ hr hw with ⟨hnone, herr⟩ | ⟨nb, es, htake, hcase⟩
    · right
      refine ⟨fs₁, herr, hinv, hrw.agree.mono fun x hx => Or.inr hx, hattr, hr,
        filledUp_nodes hfill, Or.inl ⟨?_, hrw.agree⟩⟩
      rw [← hfn]
      exact hnone
    rw [hfn] at htake
    rcases hcase with ⟨hin, hone, fs', herr, hinv', hag⟩ |
      ⟨fs', l', hok, htouch, hag, hnodes, hspace, hcons, happ⟩
    · right
      refine ⟨fs', herr, hinv', ?_, ?_, hr, fun x hx => ?_,
        Or.inr ⟨hr, c, nb, es, by simp [hcs], htake, hone, ?_⟩⟩
      · exact (hrw.agree.mono fun x hx => Or.inr hx).trans (hag.mono fun x hx => Or.inl hx)
      · have ht2 : t ≠ 2 := h.chain_ne_two (h.head_mem ht)
        rw [hag.nodeAt ht2, hattr]
      · rw [hag.nodeAt (h.chain_ne_two hx)]
        exact filledUp_nodes hfill x hx
      · rw [← filledUp_nodes hfill c (by simp [hcs])]
        exact hin
    · left
      have hfine : Agree (fun x => x = 2 ∨ x ∈ own fs l .free ∨ x ∈ l.chain t) fs fs' := by
        refine (hrw.agree.mono fun x hx => Or.inr (Or.inr hx)).trans ?_
        rw [own_free_congr (l := l) hfn] at hag
        exact hag
      have hgrow : ∃ ext, l'.chain t = l.chain t ++ ext := by
        rw [hcs]
        generalize l'.chain t = cs' at happ
        cases happ with
        | placed => exact ⟨[], by simp⟩
        | @extended b => exact ⟨[b], rfl⟩
      have hthere : ¬NoSpace fs (l.chain t) len := by
        rintro (⟨-, hno⟩ | ⟨-, d, nb', es', hlast, htake', hone, hin⟩)
        · rw [htake] at hno
          cases hno
        · rw [htake] at htake'
          cases htake'
          obtain rfl : d = c := by simpa [hcs] using hlast.symm
          rw [← filledUp_nodes hfill d (by simp [hcs])] at hin
          exact hspace.elim (· hin) (· hone)
      refine ⟨fs', l', hok, ⟨⟨htouch.inv, htouch.held, htouch.chain, ?_, htouch.attrs.trans hattr⟩,
        hfine, ?_, pre, c, fs₁, hcs, hrw, hes, Or.inr ⟨hr, nb, es, htake, happ⟩⟩, ?_, hthere⟩
      · refine hfine.mono ?_
        rintro x (rfl | hx | hx)
        · exact Or.inl rfl
        · exact Or.inr (Or.inl hx)
        · exact Or.inr (Or.inr (Or.inr (mem_own_of_chain hx)))
      · rw [own_free_congr (l := l) hfn, hown] at hcons
        exact hcons
      · obtain ⟨ext, hext⟩ := hgrow
        exact (hrw.agree.mono fun x hx => Or.inr (by rw [hext]; exact List.mem_append_left _ hx)).trans
          hnodes
  · rw [if_neg hr]
    left
    have hfine : Agree (fun x => x = 2 ∨ x ∈ own fs l .free ∨ x ∈ l.chain t) fs fs₁ :=
      hrw.agree.mono fun x hx => Or.inr (Or.inr hx)
    refine ⟨fs₁, l, rfl, ⟨⟨hinv, rfl, fun _ _ => rfl, ?_, hattr⟩, hfine, ?_, pre, c, fs₁, hcs, hrw,
      hes, Or.inl ⟨by omega, rfl, rfl⟩⟩, hrw.agree.mono fun x hx => Or.inr hx, ?_⟩
    · exact hrw.agree.mono fun x hx => Or.inr (Or.inr (Or.inr (mem_own_of_chain hx)))
    · rw [own_free_congr (l := l) hfn, hown]
    · rintro (⟨hpos, -⟩ | ⟨hpos, -⟩) <;> exact hr hpos

/-- The block behind a fresh run has a 64-bit number. -/
theorem fresh_stop_lt {nb rest : Nat} {es : List Extent} (h : Inv fs l)
    (htake : takeExtent ((rest + 511) / 512) fs.freeNode.extents = some (nb, es)) :
    nb + rest / 512 < 2 ^ 64 := by
  obtain ⟨-, hin, -⟩ := takeExtent_fits htake h.freeFits
  have hsize := h.base.size
  omega

/-- So has the block behind an extent that grew. -/
theorem grown_stop_lt {c : Nat} {es : List Extent} (h : Inv fs l) (hc : c ∈ l.chain t)
    (hg : List.Forall₂ Grown (fs.nodeAt c).extents es) :
    ∀ e ∈ es, e.block + e.length / 512 < 2 ^ 64 := by
  intro e he
  obtain ⟨x, hx, hgrown⟩ := forall₂_source hg he
  exact hgrown.stop_lt ((h.object t (List.ne_nil_of_mem hc)).fits c hc x hx) h.base.size

end Inv

/-- Fresh blocks for the missing length go behind the extents in use of the last node. -/
def GrowsAtEnd (fs : FileSystem) (cs : List Nat) (len : Nat) : Prop :=
  ∀ c nb es, cs.getLast? = some c → 0 < missing fs cs len →
    takeExtent ((missing fs cs len + 511) / 512) fs.freeNode.extents = some (nb, es) →
    OnlyAtEnd nb (missing fs cs len) (fs.nodeAt c).extents

theorem freshCells_nil (h : missing fs cs len = 0) : freshCells fs cs len = [] := by
  rw [freshCells, h]
  split <;> rfl

/-- A file that grows at its end keeps its bytes in front. -/
theorem Ensured.cells (h : Ensured fs l t len fs' l') (hinv : Inv fs l)
    (htidy : Tidy fs (l.chain t)) (hend : GrowsAtEnd fs (l.chain t) len) :
    fileCells fs' (l'.chain t) = fileCells fs (l.chain t) ++
        (fillCells fs (l.chain t) len ++ freshCells fs (l.chain t) len) ∧
      (fileCells fs' (l'.chain t)).length = max (fileCells fs (l.chain t)).length len ∧
      Tidy fs' (l'.chain t) := by
  obtain ⟨pre, c, fs₁, hcs, hrw, hes, hcase⟩ := h.grown
  obtain ⟨tail, hcells, hlen, hpk, hal⟩ := ensureExtents_packed hinv.extents_lt htidy.packed len
  have hfill : fillCells fs (l.chain t) len = tail := by
    rw [fillCells, hcells]
    exact List.drop_left
  rw [hfill]
  rw [← hes] at hcells hlen hpk hal
  have hg : ∀ d ∈ l.chain t, List.Forall₂ Grown (fs.nodeAt d).extents (fs₁.nodeAt d).extents := by
    intro d hd
    obtain ⟨k, hk⟩ := hrw.extents hd
    rw [hk]
    exact ensureExtents_grown (hinv.lengths_lt hd) k
  have hff : ∀ d ∈ l.chain t, FilledFirst (fs₁.nodeAt d).extents :=
    fun d hd => filledFirst_grown (hg d hd) (htidy.filled d hd)
  rcases hcase with ⟨hz, rfl, rfl⟩ | ⟨hpos, nb, es, htake, happ⟩
  · refine ⟨?_, ?_, hpk, hff⟩
    · rw [freshCells_nil hz, List.append_nil]
      exact hcells
    · rw [missing] at hz
      rw [hz] at hlen
      exact hlen
  · have hfresh : freshCells fs (l.chain t) len =
        List.range' (512 * nb) (missing fs (l.chain t) len) := by
      rw [freshCells, htake]
    rw [hfresh]
    have hmem : c ∈ l.chain t := by simp [hcs]
    have hstop := hinv.fresh_stop_lt htake
    have hoe := onlyAtEnd_grown (hg c hmem) (hend c nb es (by simp [hcs]) hpos htake)
    have hal := hal hpos
    have hsplit : ∀ f : FileSystem, extentsOf f (pre ++ [c]) = extentsOf f pre ++ (f.nodeAt c).extents := by
      intro f
      simp [extentsOf]
    change _ + missing fs (l.chain t) len = _ at hlen
    rw [hcs, hsplit] at hcells hlen hal
    have halc : ∀ e ∈ (fs₁.nodeAt c).extents, 512 ∣ e.length := fun e he => hal e (by simp [he])
    have halp : ∀ e ∈ extentsOf fs₁ pre, 512 ∣ e.length := fun e he => hal e (by simp [he])
    rw [← hcs] at hcells hlen
    generalize hcs' : l'.chain t = cs' at happ
    generalize hm : missing fs (l.chain t) len = rest at *
    cases happ with
    | placed hin hpre hc =>
      obtain ⟨hadd, hff', hpk'⟩ := insertExtent_cells hstop (hinv.grown_stop_lt hmem (hg c hmem)) (hff c hmem)
        hoe halc hin
      have hx : extentsOf fs' (pre ++ [c]) = extentsOf fs₁ pre ++ (fs'.nodeAt c).extents := by
        rw [hsplit, extentsOf_congr hpre]
      have hfc : fileCells fs' (pre ++ [c]) =
          cellsOf (extentsOf fs₁ pre ++ (fs₁.nodeAt c).extents) ++ List.range' (512 * nb) rest := by
        rw [fileCells, hx, hc, cellsOf_append, hadd, cellsOf_append, List.append_assoc]
      refine ⟨?_, ?_, ?_, ?_⟩
      · rw [hfc, hcells, List.append_assoc]
        rfl
      · rw [hfc, List.length_append, List.length_range', hlen]
        rfl
      · rw [hx, hc]
        exact packed_append halp hpk'
      · intro d hd
        rcases List.mem_append.mp hd with hd | hd
        · rw [hpre d hd]
          exact hff d (by simp [hcs, hd])
        · obtain rfl : d = c := by simpa using hd
          rw [hc]
          exact hff'
    | @extended b hin hold hb =>
      have hx : extentsOf fs' (pre ++ [c] ++ [b]) = (extentsOf fs₁ pre ++ (fs₁.nodeAt c).extents) ++
          ⟨nb, rest⟩ :: List.replicate 14 Extent.default := by
        rw [← hsplit, ← hb, ← extentsOf_congr hold]
        simp [extentsOf]
      have hfc : fileCells fs' (pre ++ [c] ++ [b]) =
          cellsOf (extentsOf fs₁ pre ++ (fs₁.nodeAt c).extents) ++ List.range' (512 * nb) rest := by
        rw [fileCells, hx, cellsOf_append, cellsOf_cons, cellsOf_replicate, List.append_nil]
        rfl
      refine ⟨?_, ?_, ?_, ?_⟩
      · rw [hfc, hcells, List.append_assoc]
        rfl
      · rw [hfc, List.length_append, List.length_range', hlen]
        rfl
      · rw [hx]
        exact packed_append hal ⟨fun hne => (hne (cellsOf_replicate 14)).elim,
          packed_of_nil (cellsOf_replicate 14)⟩
      · intro d hd
        rcases List.mem_append.mp hd with hd | hd
        · rw [hold d hd]
          exact hff d (by rw [hcs]; exact hd)
        · obtain rfl : d = b := by simpa using hd
          rw [hb]
          exact ⟨fun _ => cellsOf_replicate 14, filledFirst_of_nil (cellsOf_replicate 14)⟩

end Origel.RedoxFs
