import Origel.RedoxFs.Conservation
import Origel.RedoxFs.Creation
import Origel.RedoxFs.Stale

/-! What a call that returns an error leaves of the files, the directories and the free blocks. -/
namespace Origel.RedoxFs

open Origel.Lib FileSystem

variable {fs fs' : FileSystem} {s s' : FileScheme} {b d p t mode offset len uid gid flags : Nat}
  {l l' : Layout} {op : Op} {buf : List UInt8} {name path : String} {url : List UInt8} {e : Errno}

/-- The entries of a directory, with their names -/
def named (fs : FileSystem) (d : Nat) : List (Option String × Nat) :=
  (children fs (chainOf fs d)).map fun b => ((fs.nodeAt b).nameStr, b)

/-- Files have their bytes and their lengths, directories their entries, and what was free is free. -/
structure Unchanged (fs fs' : FileSystem) : Prop where
  content : ∀ t, Reach fs t → (fs.nodeAt t).isDir = false → contentOf fs' t = contentOf fs t
  length : ∀ t, Reach fs t → (fs.nodeAt t).isDir = false →
    ∃ n, nodeLen t fs = .ok n fs ∧ nodeLen t fs' = .ok n fs'
  entries : ∀ d, Reach fs d → (fs.nodeAt d).isDir = true → named fs' d = named fs d
  free : listing fs' (chainOf fs' fs'.header.2.free) = listing fs (chainOf fs fs.header.2.free)

/-- The call does not run out of blocks half way: for the list node that a new name or the rest of an
extent needs, or, after the extents of the file have been filled up, for the rest of the bytes. -/
def Unbroken (fs : FileSystem) : Op → Prop
  | .createNode _ name d =>
    lookup fs name (children fs (chainOf fs d)) = none → ¬CannotName fs (chainOf fs d)
  | .removeNode mode name d => ∀ b, Removes fs mode name d b → ¬CannotSplit fs (chainOf fs d) b
  | .writeNode t offset buf => NoSpace fs (chainOf fs t) (wrap64 (offset + buf.length)) →
    ¬CannotList fs (chainOf fs t) (wrap64 (offset + buf.length)) ∧
      ∀ c ∈ chainOf fs t, filledUp (fs.nodeAt c).extents = (fs.nodeAt c).extents
  | _ => True

/-- A name that `open` makes has its node and its place in the directory, and the new node grants what
is asked for. -/
def OpensWhole (fs : FileSystem) (path : String) (flags uid gid : Nat) : Prop :=
  flags &&& O_CREAT = O_CREAT → ∀ ds d, Walked fs uid gid path ds none → ds.getLast? = some d →
    (fs.nodeAt d).permission uid gid Node.MODE_WRITE = true →
    lookup fs (FileScheme.lastPart path) (children fs (chainOf fs d)) = none →
    ¬CannotName fs (chainOf fs d) ∧ (Spacious fs (chainOf fs d) →
      Grants { Node.new (madeMode flags) (FileScheme.lastPart path) d with uid := uid, gid := gid } flags
        uid gid)

theorem Unchanged.refl (h : Inv fs l) : Unchanged fs fs where
  content _ _ _ := rfl
  length _ ht _ := ⟨_, h.nodeLen_eq (h.reach ht), h.nodeLen_eq (h.reach ht)⟩
  entries _ _ _ := rfl
  free := rfl

/-- Objects that keep their chains keep what they hold if their extents and their bytes are the same. -/
theorem Unchanged.of_layout (h : Inv fs l) (h' : Inv fs' l)
    (hfile : ∀ p, l.chain p ≠ [] → (fs.nodeAt p).isDir = false →
      RedoxFs.content fs' (l.chain p) = RedoxFs.content fs (l.chain p))
    (hdir : ∀ p, l.chain p ≠ [] → (fs.nodeAt p).isDir = true →
      (fs'.nodeAt p).isDir = true ∧ listing fs' (l.chain p) = listing fs (l.chain p))
    (hname : ∀ p, l.chain p ≠ [] → (fs'.nodeAt p).nameStr = (fs.nodeAt p).nameStr)
    (hfree : fs'.freeNode = fs.freeNode) : Unchanged fs fs' := by
  have hcontent : ∀ t, Reach fs t → (fs.nodeAt t).isDir = false → contentOf fs' t = contentOf fs t := by
    intro t ht hf
    rw [h'.contentOf_eq (h.reach ht), h.contentOf_eq (h.reach ht), hfile t (h.reach ht) hf]
  refine ⟨hcontent, fun t ht hf => ⟨_, h.nodeLen_eq (h.reach ht), ?_⟩, fun d hd hdd => ?_, ?_⟩
  · rw [h'.nodeLen_eq (h.reach ht), hcontent t ht hf]
  · obtain ⟨hdd', hlist⟩ := hdir d (h.reach hd) hdd
    rw [named, named, h'.chainOf_eq (h.reach hd), h.chainOf_eq (h.reach hd), h'.children_eq hdd',
      h.children_eq hdd, hlist]
    refine List.map_congr_left fun b hb => ?_
    rw [← entries_of_dir hdd] at hb
    rw [hname b (h.entryHead d b hb).1]
  · rw [h'.chainOf_free, h.chainOf_free, listing_cons, listing_cons, listing_nil, listing_nil,
      ← h'.base.freeNode, ← h.base.freeNode, hfree]

/-- A write that finds no space leaves a file of whole sectors as it is. -/
theorem FilledOnly.unchanged (hout : Outcome fs l (.writeNode t offset buf) (some .ENOSPC) fs' l)
    (hfill : FilledOnly fs l t len fs') (h : Inv fs l) (ht : l.chain t ≠ [])
    (hfile : (fs.nodeAt t).isDir = false) (hlist : ¬CannotList fs (l.chain t) len)
    (hwhole : ∀ c ∈ l.chain t, filledUp (fs.nodeAt c).extents = (fs.nodeAt c).extents) :
    Unchanged fs fs' := by
  have h' := hfill.inv
  have hagree : Agree (· ∈ l.chain t) fs fs' := (hfill.cause.resolve_right hlist).2
  have hextents : ∀ c ∈ l.chain t, (fs'.nodeAt c).extents = (fs.nodeAt c).extents := fun c hc =>
    (hfill.extents c hc).trans (hwhole c hc)
  refine Unchanged.of_layout h h' (fun p hp hf => ?_) (fun p hp hd => ?_)
    (fun p hp => hout.nameStr h hp hp) (h.freeNode_agree hagree fun h2 => h.chain_ne_two h2 rfl)
  · by_cases hpt : p = t
    · subst hpt
      have hcells : fileCells fs' (l.chain p) = fileCells fs (l.chain p) := by
        rw [fileCells, fileCells, extentsOf_congr hextents]
      rw [content_eq h'.base.block, content_eq h.base.block, hcells]
      refine List.map_congr_left fun x hx => ?_
      apply bytes_of_sector h.base.block h'.base.block
      apply hagree.sector
      exact fun hc => h.data_not_node hfile (mem_listing_of_mem_cells hx) (Or.inr hc)
    · exact (hout.other_content h hpt hp hp hf).1
  · have hpt : p ≠ t := by
      rintro rfl
      rw [hfile] at hd
      cases hd
    obtain ⟨hnode, -, hentries⟩ := hout.other_own h hpt hp hp
    have hd' : (fs'.nodeAt p).isDir = true := by rwa [hnode]
    rw [entries_of_dir hd', entries_of_dir hd] at hentries
    exact ⟨hd', hentries⟩

/-- A call that fails without being broken off changes nothing. -/
theorem Outcome.unchanged (hout : Outcome fs l op (some e) fs' l') (h : Inv fs l) (hl : op.Legal fs)
    (hu : Unbroken fs op) : Unchanged fs fs' := by
  cases hout with
  | refused => exact Unchanged.refl h
  | @unnamed _ name d _ hname hc =>
    have hd := h.reach hl.1
    rw [Unbroken, h.chainOf_eq hd, h.children_eq hl.2.1] at hu
    exact absurd hc (hu hname)
  | @unsplit _ _ d b _ hb hc =>
    have hd := h.reach hl.1
    rw [Unbroken, h.chainOf_eq hd] at hu
    exact absurd hc (hu b hb)
  | @filled t offset buf _ hfill =>
    have ht := h.reach hl.1
    rw [Unbroken, h.chainOf_eq ht] at hu
    have hno : NoSpace fs (l.chain t) (wrap64 (offset + buf.length)) :=
      hfill.cause.imp (fun hc => ⟨hfill.short, hc.1⟩) id
    exact hfill.unchanged (.filled hfill) h ht hl.2.1 (hu hno).1 (hu hno).2

/-- Where the path leads to nothing, an `open` that fails has made nothing. -/
theorem Inv.ends_unmade (h : Inv s.fs l) (hu : uid < 2 ^ 32) (hg : gid < 2 ^ 32)
    (ho : OpensWhole s.fs (FileScheme.urlPath url) flags uid gid)
    (hnone : ∀ ds o, Walked s.fs uid gid (FileScheme.urlPath url) ds o → o = none) :
    Ends (Request.openUrl url flags uid gid).run s (Back fun r s' => (∃ e, r = .error e) → s'.fs = s.fs) := by
  apply ends_reply
  rw [FileScheme.openUrl_eq]
  refine FileScheme.ends_walked h (fun e _ _ => rfl) fun ds o hw => ?_
  obtain rfl := hnone ds o hw
  obtain ⟨hreach, -⟩ := hw.reach h
  have hds : ∀ d ∈ ds, l.chain d ≠ [] ∧ (s.fs.nodeAt d).isDir = true :=
    fun d hd => ⟨h.reach (hreach d hd), hw.dirs d hd⟩
  unfold FileScheme.openNode
  simp only [found, true_and]
  by_cases hc : flags &&& O_CREAT = O_CREAT
  · rw [if_pos hc]
    refine FileScheme.ends_seq (FileScheme.ends_openCreate h hds hu hg) ?_ ?_
    · intro res s' _
      refine FileScheme.ends_addFile ?_
      rintro ⟨e, he⟩
      cases he
    · rintro e s' hcases -
      rcases hcases with ⟨rfl, -⟩ | ⟨d, l', hd, hwrite, hs, hrest⟩
      · rfl
      obtain ⟨hdl, hdir⟩ := hds d (List.mem_of_getLast? hd)
      have hwhole := ho hc ds d hw hd hwrite
      rw [h.chainOf_eq hdl, h.children_eq hdir] at hwhole
      rcases hrest with ⟨e', he, -, hout⟩ | ⟨hspace, b, hm, ⟨-, hgr⟩ | ⟨hres, -⟩⟩
      · generalize hfs : s'.fs = fs' at hout ⊢
        cases hout with
        | refused => rfl
        | unnamed hname hcannot => exact absurd hcannot (hwhole hname).1
      · rw [hm.node] at hgr
        exact absurd ((hwhole hm.absent).2 hspace) hgr
      · cases hres
  · rw [if_neg hc]
    exact ends_of_error rfl fun _ => rfl

/-- After every safe run, a call that returns an error, is safe and is not broken off half way leaves all
files, directories and free blocks as they are, and so does `open`. -/
theorem failures_change_nothing (h : Reachable Safe fs) :
    (∀ op e fs', op.Legal fs → Safe fs op → Unbroken fs op → Returns op.run fs (some e) fs' →
      Unchanged fs fs') ∧
    ∀ s url flags uid gid e s', s.fs = fs → uid < 2 ^ 32 → gid < 2 ^ 32 →
      OpensWhole fs (FileScheme.urlPath url) flags uid gid →
      Answers (Request.openUrl url flags uid gid).run s (.error e) s' → Unchanged fs s'.fs := by
  obtain ⟨l, hinv, -⟩ := h.inv
  constructor
  · intro op e fs' hl hs hu hr
    obtain ⟨l', hout⟩ := hinv.outcome hl hs hr
    exact hout.unchanged hinv hl hu
  · rintro s url flags uid gid e s' rfl hu hg ho ha
    have hsame : s'.fs = s.fs := by
      obtain ⟨l', hans⟩ := ha.of_ends (hinv.ends_openUrl hu hg)
      have hmissing : ∀ {ds}, Walked s.fs uid gid (FileScheme.urlPath url) ds none → s'.fs = s.fs := by
        intro ds hw
        refine ha.of_ends (hinv.ends_unmade hu hg ho fun ds' o hw' => ?_) ⟨e, rfl⟩
        exact (Prod.mk.inj (hw'.leads.symm.trans hw.leads)).2
      cases hans with
      | refused => rfl
      | madeOnly hw => exact hmissing hw
      | unmade hw => exact hmissing hw
      | unremoved hreq => rcases hreq with ⟨hc, -⟩ | ⟨hc, -⟩ <;> cases hc
    rw [hsame]
    exact Unchanged.refl hinv

/-- A write that the free blocks are too few for fails. -/
theorem Inv.writeNode_full (h : Inv fs l) (ht : l.chain t ≠ []) (hfile : (fs.nodeAt t).isDir = false)
    (hlt : offset + buf.length < 2 ^ 64) (hw : missing fs (l.chain t) (offset + buf.length) + 511 < 2 ^ 64)
    (htidy : Tidy fs (l.chain t)) (hpos : 0 < missing fs (l.chain t) (offset + buf.length))
    (hfull : takeExtent ((missing fs (l.chain t) (offset + buf.length) + 511) / 512) fs.freeNode.extents =
      none) :
    ∃ fs', writeNode t offset buf fs = .error (.errno .ENOSPC) fs' ∧
      FilledOnly fs l t (offset + buf.length) fs' := by
  have hend : GrowsAtEnd fs (l.chain t) (offset + buf.length) := by
    intro c nb es _ _ htake
    rw [hfull] at htake
    cases htake
  rcases h.writeNode_tidy ht hfile hlt hw htidy hend with ⟨-, -, -, -, -, -, -, -, -, hspace⟩ | hfail
  · exact absurd (Or.inl ⟨hpos, hfull⟩) hspace
  · exact hfail

/-- On a disk of eight sectors a byte at 4096 finds no space, and the empty file stays empty. -/
theorem failed_write_keeps_empty : ∃ fs₀ fs fs', create (blankDisk 8) = .ok fs₀ ∧
    Run (Op.Step Safe) fs₀ [.createNode plainFile "a" 1] fs ∧
    Returns (Op.writeNode 4 4096 [2]).run fs (some .ENOSPC) fs' ∧ Unchanged fs fs' := by
  have hsize : (blankDisk 8).size < 2 ^ 64 := by decide
  obtain ⟨fs₀, hc⟩ := create_ok (show 4 * 512 ≤ (blankDisk 8).size by decide)
  have hinv₀ := create_inv hsize hc
  have hm : plainFile < 2 ^ 16 := by decide
  obtain ⟨fs₁, l₁, hok₁, -, hfirst⟩ := first_node (n := 8) "a" rfl (by omega) (by omega) hc hm
  have hinv₁ := hfirst.inv
  have hne₁ : l₁.chain 4 ≠ [] := by simp [hfirst.chain]
  have hch₁ : chainOf fs₁ 4 = [4] := by rw [hinv₁.chainOf_eq hne₁, hfirst.chain]
  have hfile₁ : (fs₁.nodeAt 4).isDir = false := by
    rw [hfirst.node]
    decide
  have hempty : (fs₁.nodeAt 4).extents = List.replicate 15 Extent.default := by
    rw [hfirst.node]
    rfl
  have hmiss : missing fs₁ [4] 4097 = 4097 := missing_empty hempty (by decide)
  have hfull : takeExtent ((4097 + 511) / 512) fs₁.freeNode.extents = none := by
    rw [hfirst.free]
    decide
  have hlong : 4096 + ([2] : List UInt8).length = 4097 := rfl
  have hlt : 4096 + ([2] : List UInt8).length < 2 ^ 64 := by decide
  obtain ⟨fs₂, hfail, -⟩ := hinv₁.writeNode_full hne₁ hfile₁ hlt
    (by rw [hlong, hfirst.chain, hmiss]; decide) (by rw [hfirst.chain]; exact tidy_empty hempty)
    (by rw [hlong, hfirst.chain, hmiss]; decide) (by rw [hlong, hfirst.chain, hmiss]; exact hfull)
  have hrun : Run (Op.Step Safe) fs₀ [.createNode plainFile "a" 1] fs₁ :=
    .cons ⟨⟨hinv₀.reach_root, hinv₀.rootDir, hm⟩, trivial, none, .ok (bind_ok hok₁)⟩ .nil
  have hfails : Returns (Op.writeNode 4 4096 [2]).run fs₁ (some .ENOSPC) fs₂ := .error (bind_error hfail)
  have hsafe : Safe fs₁ (.writeNode 4 4096 [2]) := by
    rw [Safe, hch₁]
    change missing fs₁ [4] 4097 + 511 < 2 ^ 64
    rw [hmiss]
    decide
  have hunbroken : Unbroken fs₁ (.writeNode 4 4096 [2]) := by
    rw [Unbroken, hch₁]
    change NoSpace fs₁ [4] 4097 → ¬CannotList fs₁ [4] 4097 ∧ _
    refine fun _ => ⟨?_, fun c hc => ?_⟩
    · rintro ⟨-, c, nb, es, -, htake, -⟩
      rw [hmiss, hfull] at htake
      cases htake
    · obtain rfl := List.mem_singleton.mp hc
      rw [hempty]
      decide
  refine ⟨fs₀, fs₁, fs₂, hc, hrun, hfails, ?_⟩
  exact (failures_change_nothing ⟨_, _, _, hsize, hc, hrun⟩).1 (.writeNode 4 4096 [2]) _ _
    ⟨hfirst.reach, hfile₁, by decide, by decide⟩ hsafe hunbroken hfails

/-- In a file of one byte the same write finds no space, and the file has 512 bytes. -/
theorem failed_write_lengthens : ∃ fs₀ fs fs', create (blankDisk 8) = .ok fs₀ ∧
    Run (Op.Step Safe) fs₀ [.createNode plainFile "a" 1, .writeNode 4 0 [1]] fs ∧
    (Op.writeNode 4 4096 [2]).Legal fs ∧ Returns (Op.writeNode 4 4096 [2]).run fs (some .ENOSPC) fs' ∧
    nodeLen 4 fs = .ok 1 fs ∧ nodeLen 4 fs' = .ok 512 fs' ∧ ¬Unchanged fs fs' := by
  have hsize : (blankDisk 8).size < 2 ^ 64 := by decide
  obtain ⟨fs₀, hc⟩ := create_ok (show 4 * 512 ≤ (blankDisk 8).size by decide)
  have hinv₀ := create_inv hsize hc
  have hm : plainFile < 2 ^ 16 := by decide
  obtain ⟨fs₁, l₁, hok₁, -, hfirst⟩ := first_node (n := 8) "a" rfl (by omega) (by omega) hc hm
  have hinv₁ := hfirst.inv
  have hfile₁ : (fs₁.nodeAt 4).isDir = false := by
    rw [hfirst.node]
    decide
  have hempty : (fs₁.nodeAt 4).extents = List.replicate 15 Extent.default := by
    rw [hfirst.node]
    rfl
  have htake : takeExtent ((1 + 511) / 512) fs₁.freeNode.extents =
      some (5, ⟨6, 1024⟩ :: List.replicate 14 Extent.default) := by
    rw [hfirst.free]
    decide
  obtain ⟨fs₂, l₂, hok₂, hwrote, hchain₂, hfree₂, hext₂, hcont₂⟩ := hinv₁.writeNode_first
    (show 0 + ([1] : List UInt8).length = 1 from rfl) hfirst.chain hfile₁ hempty (by omega) (by omega) htake
  have hinv₂ := hwrote.touches.inv
  have hne₂ : l₂.chain 4 ≠ [] := by simp [hchain₂]
  have hfile₂ : (fs₂.nodeAt 4).isDir = false := (Node.isDir_attrs hwrote.touches.attrs).trans hfile₁
  have hlen₂ : (contentOf fs₂ 4).length = 1 := by
    rw [hinv₂.contentOf_eq hne₂, hchain₂, hcont₂, List.length_append, length_load]
    rfl
  have hes₂ : extentsOf fs₂ [4] = ⟨5, 1⟩ :: List.replicate 14 Extent.default := by
    rw [extentsOf_cons, extentsOf_nil, List.append_nil, hext₂]
  have htidy₂ : Tidy fs₂ (l₂.chain 4) := by
    rw [hchain₂]
    refine ⟨?_, fun c hc => ?_⟩
    · rw [hes₂]
      exact ⟨fun hc => (hc (cellsOf_replicate 14)).elim, packed_of_nil (cellsOf_replicate 14)⟩
    · obtain rfl := List.mem_singleton.mp hc
      rw [hext₂]
      exact ⟨fun _ => cellsOf_replicate 14, filledFirst_of_nil (cellsOf_replicate 14)⟩
  have hmiss : missing fs₂ (l₂.chain 4) (4096 + ([2] : List UInt8).length) = 3585 := by
    rw [missing, hchain₂, hes₂]
    decide
  have hfull : takeExtent ((3585 + 511) / 512) fs₂.freeNode.extents = none := by
    rw [hfree₂]
    decide
  have hlt : 4096 + ([2] : List UInt8).length < 2 ^ 64 := by decide
  obtain ⟨fs₃, hfail, hfilled⟩ := hinv₂.writeNode_full hne₂ hfile₂ hlt
    (by rw [hmiss]; decide) htidy₂ (by rw [hmiss]; decide) (by rw [hmiss]; exact hfull)
  have hlen₃ : (contentOf fs₃ 4).length = 512 := by
    have hes₃ : extentsOf fs₃ [4] = ⟨5, 512⟩ :: List.replicate 14 Extent.default := by
      rw [extentsOf_cons, extentsOf_nil, List.append_nil, hfilled.extents 4 (by simp [hchain₂]), hext₂]
      decide
    rw [hfilled.inv.contentOf_eq hne₂, length_content hfilled.inv.base.block, hchain₂, fileCells, hes₃,
      cellsOf_cons, cellsOf_replicate, List.append_nil, Extent.cells, List.length_range']
  have hroot₂ : fs₂.nodeAt 1 = fs₁.nodeAt 1 :=
    hwrote.touches.agree.nodeAt (hinv₁.domain_disjoint (p := 1) (by omega)
      (mem_own_of_chain (by simp [hfirst.rootChain])))
  have hreach₂ : Reach fs₂ 4 := by
    refine hinv₂.reach_listed ((hwrote.touches.chain 1 (by omega)).trans hfirst.rootChain) ?_
    rw [hroot₂, hfirst.root]
    exact List.mem_append_left _ (by decide)
  have hsafe : Safe fs₁ (.writeNode 4 0 [1]) :=
    (hinv₁.inOrder_first hfirst.chain hempty (by decide) (by decide)).1
  have hstep₁ : Op.Step Safe fs₀ (.createNode plainFile "a" 1) fs₁ :=
    ⟨⟨hinv₀.reach_root, hinv₀.rootDir, hm⟩, trivial, none, .ok (bind_ok hok₁)⟩
  have hstep₂ : Op.Step Safe fs₁ (.writeNode 4 0 [1]) fs₂ :=
    ⟨⟨hfirst.reach, hfile₁, by decide, by decide⟩, hsafe, none, .ok (bind_ok hok₂)⟩
  refine ⟨fs₀, fs₂, fs₃, hc, .cons hstep₁ (.cons hstep₂ .nil), ⟨hreach₂, hfile₂, by decide, by decide⟩,
    .error (bind_error hfail), ?_, ?_, fun hsame => ?_⟩
  · rw [hinv₂.nodeLen_eq hne₂, hlen₂]
  · rw [hfilled.inv.nodeLen_eq hne₂, hlen₃]
  · have hcontent := hsame.content 4 hreach₂ hfile₂
    rw [hcontent, hlen₂] at hlen₃
    cases hlen₃

end Origel.RedoxFs
