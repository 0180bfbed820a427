import Origel.RedoxFs.Outcomes

/-! Calls on files and directories whose first node has a place: what they write, in full. -/
namespace Origel.RedoxFs

open Origel.Lib FileSystem

variable {fs fs' : FileSystem} {b c d p t mode offset len nb : Nat} {l l' : Layout}
  {es es' : List Extent} {buf : List UInt8} {name : String}

namespace Inv

/-- The first node of the directory has a place for the block that is free next. -/
theorem createNode_short (h : Inv fs l) (name : String) (hd : l.chain d ≠ []) (hdir : (fs.nodeAt d).isDir = true)
    (hm : mode < 2 ^ 16) (habsent : lookup fs name (listing fs (l.chain d)) = none)
    (ht : takeExtent 1 fs.freeNode.extents = some (b, es))
    (hins : insertExtent b 512 (fs.nodeAt d).extents = some es') (hv : ValidExtents es') :
    ∃ fs' l', createNode mode name d fs = .ok (b, Node.new mode name d) fs' ∧
      Created fs l d b (Node.new mode name d) fs' l' ∧ l'.chain d = l.chain d ∧
      fs'.freeNode.extents = es ∧ fs'.nodeAt d = { fs.nodeAt d with extents := es' } ∧
      Agree (fun x => x = 2 ∨ x = b ∨ x = d) fs fs' := by
  have hdmem := h.head_mem hd
  have hdlt : d < 2 ^ 64 := by
    have := h.chain_inside hdmem
    have := h.base.size
    omega
  obtain ⟨hinv, -, hnil, -, -, hfn, hag, hsame, -⟩ :=
    h.newObject ht (Node.valid_new name hm hdlt) rfl (fun e he => Node.extents_new he) rfl
  have hrun : makeNode mode name d fs = (do
      insertBlocks b 512 d
      return (b, Node.new mode name d) : FsM (Nat × Node))
      ((fs.setExtents 2 es).writeNodeAt b (Node.new mode name d)) := by
    rw [makeNode, bind_ok (allocate_some h.within_free ht),
      bind_ok (writeAt_run ((h.within_taken ht).setExtents es)), h.base.free]
    rfl
  generalize (fs.setExtents 2 es).writeNodeAt b (Node.new mode name d) = fs₂ at *
  have hdb : d ≠ b := by
    rintro rfl
    exact hd hnil
  have hnd : ∀ c ∈ l.chain d, fs₂.nodeAt c = fs.nodeAt c := hsame d hdb
  have hd0 : d ≠ 0 := (h.object d hd).chain.ne_zero hdmem
  have hplace : insertBlocks b 512 d fs₂ = .ok () (fs₂.setExtents d es') := by
    change insertBlocksAux fs₂.fuel b 512 d fs₂ = _
    have hk : fs₂.fuel = (fs₂.fuel - 1) + 1 := by
      have := hinv.fuel 1
      omega
    rw [hk]
    exact insertBlocksAux_placed hd0 (hinv.within_head (by rw [Layout.set_chain_ne hdb]; exact hd)) (by rw [hnd d hdmem]; exact hins)
  rw [bind_ok hplace] at hrun
  have hnode : ∀ c, (fs₂.setExtents d es').nodeAt c =
      if c = d then { fs₂.nodeAt d with extents := es' } else fs₂.nodeAt c := by
    intro c
    rw [nodeAt_setExtents hv, Function.update_apply]
  have hhead : (fs₂.setExtents d es').header = fs₂.header := rfl
  have hag' : Agree (fun x => x = 2 ∨ x = b ∨ x = d) fs (fs₂.setExtents d es') := by
    refine (hag.mono fun x hx => ?_).trans (Agree.setExtents hv (Or.inr (Or.inr rfl)))
    exact hx.imp_right Or.inl
  generalize fs₂.setExtents d es' = fs₃ at *
  have hok : makeNode mode name d fs = .ok (b, Node.new mode name d) fs₃ := hrun
  rcases h.makeNode_spec name hd hdir hm with ⟨-, herr⟩ | ⟨-, fs₁, herr, -⟩ |
    ⟨b', fs₁, l', hok', hcreated⟩
  · rw [hok] at herr
    cases herr
  · rw [hok] at herr
    cases herr
  · rw [hok] at hok'
    cases hok'
    refine ⟨fs₃, l', ?_, hcreated, ?_, ?_, ?_, hag'⟩
    · rw [h.createNode_absent mode hd hdir habsent, hok]
    · have hne : l'.chain d ≠ [] := by
        obtain ⟨ext, hext, -⟩ := hcreated.grown
        rw [hext]
        exact fun hc => hd (List.append_eq_nil_iff.mp hc).1
      refine (hcreated.inv.object d hne).chain.unique ((h.object d hd).chain.congr fun c hc => ?_)
      rw [hnode c]
      split
      · rename_i hcd
        rw [hcd, hnd d hdmem]
      · rw [hnd c hc]
    · have h2 : fs₃.header.2.free ≠ d := by
        rw [hcreated.inv.base.free]
        exact (h.chain_ne_two hdmem).symm
      rw [FileSystem.freeNode, hnode, if_neg h2, hhead]
      exact hfn
    · rw [hnode d, if_pos rfl, hnd d hdmem]

/-- A file of one node grows in that node. -/
theorem nodeEnsureLen_short (h : Inv fs l) (ht : l.chain t = [t])
    (hfile : (fs.nodeAt t).isDir = false) (hpos : 0 < missing fs [t] len)
    (hw : missing fs [t] len + 511 < 2 ^ 64)
    (htake : takeExtent ((missing fs [t] len + 511) / 512) fs.freeNode.extents = some (nb, es))
    (hins : insertExtent nb (missing fs [t] len) (filledUp (fs.nodeAt t).extents) = some es')
    (hv : ValidExtents es') :
    ∃ fs' l', nodeEnsureLen t len fs = .ok () fs' ∧ Ensured fs l t len fs' l' ∧
      l'.chain t = [t] ∧ fs'.freeNode.extents = es ∧
      fs'.nodeAt t = { fs.nodeAt t with extents := es' } ∧ Agree (fun x => x = 2 ∨ x = t) fs fs' := by
  have hne : l.chain t ≠ [] := by simp [ht]
  have htmem := h.head_mem hne
  have ht0 : t ≠ 0 := (h.object t hne).chain.ne_zero htmem
  have ht2 := h.chain_ne_two htmem
  obtain ⟨fs₁, hinv, hrw, -, hes, hrun⟩ := h.fillUp len (show l.chain t = [] ++ [t] from ht) hfile
  rw [ht] at hrw hes hrun
  have hgo : nodeEnsureLen t len fs = growLast t (missing fs [t] len) fs₁ := by
    rw [hrun]
    change (if missing fs [t] len > 0 then growLast t (missing fs [t] len) else pure ()) fs₁ = _
    rw [if_pos hpos]
  have hlt : ∀ e ∈ extentsOf fs [t], e.length + 511 < 2 ^ 64 := by
    rw [← ht]
    exact h.extents_lt
  have hfill : (fs₁.nodeAt t).extents = filledUp (fs.nodeAt t).extents := by
    rw [ensureExtents_filledUp hlt hpos] at hes
    exact filledUp_nodes hes t (by simp)
  obtain ⟨fills, -, hn₁⟩ := hrw.nodes t (by simp)
  have hfn₁ : fs₁.freeNode = fs.freeNode := by
    apply hrw.agree.freeNode
    rw [h.base.free]
    simpa using ht2.symm
  have hsize : fs₁.disk.size = fs.disk.size := hrw.agree.size
  generalize hrest : missing fs [t] len = rest at *
  rw [← hfn₁] at htake
  obtain ⟨hv₂, hinv₂, -⟩ := hinv.take htake
  have hn₂ : (fs₁.setExtents 2 es).nodeAt t = fs₁.nodeAt t := by
    rw [nodeAt_setExtents hv₂, Function.update_of_ne ht2]
  have hgrow : growLast t rest fs₁ = .ok () ((fs₁.setExtents 2 es).setExtents t es') := by
    have htake' := htake
    rw [← wrap64_of_lt hw] at htake'
    rw [growLast, bind_ok (allocate_some hinv.within_free htake'), hinv.base.free]
    change insertBlocksAux (fs₁.setExtents 2 es).fuel nb rest t (fs₁.setExtents 2 es) = _
    have hk : (fs₁.setExtents 2 es).fuel = ((fs₁.setExtents 2 es).fuel - 1) + 1 := by
      have := hinv₂.fuel 1
      omega
    rw [hk]
    exact insertBlocksAux_placed ht0 (hinv₂.within_head hne) (by rw [hn₂, hfill]; exact hins)
  have hag : Agree (fun x => x = 2 ∨ x = t) fs ((fs₁.setExtents 2 es).setExtents t es') := by
    refine (hrw.agree.mono fun x hx => Or.inr (by simpa using hx)).trans ?_
    exact (Agree.setExtents hv₂ (Or.inl rfl)).trans (Agree.setExtents hv (Or.inr rfl))
  have hnode : ((fs₁.setExtents 2 es).setExtents t es').nodeAt t =
      { fs.nodeAt t with extents := es' } := by
    rw [nodeAt_setExtents hv, Function.update_self, hn₂, hn₁]
  have hfree : ((fs₁.setExtents 2 es).setExtents t es').freeNode.extents = es := by
    have hhead : ((fs₁.setExtents 2 es).setExtents t es').header.2.free = 2 := hinv₂.base.free
    rw [FileSystem.freeNode, hhead, nodeAt_setExtents hv, Function.update_of_ne ht2.symm,
      nodeAt_setExtents hv₂, Function.update_self]
  rw [hgrow] at hgo
  generalize (fs₁.setExtents 2 es).setExtents t es' = fs₂ at *
  rcases h.ensure_spec len hne hfile (by rw [ht, hrest]; exact hw) with
    ⟨fs', l', hok, hens, -⟩ | ⟨fs', herr, -⟩
  · rw [hgo] at hok
    cases hok
    refine ⟨fs₂, l', hgo, hens, ?_, hfree, hnode, hag⟩
    have hnext : (fs₂.nodeAt t).next = 0 := by
      rw [hnode]
      have hc := (h.object t hne).chain
      rw [ht] at hc
      exact hc.2.2
    exact (hens.touches.inv.object t hens.chain_ne_nil).chain.unique ⟨rfl, ht0, hnext⟩
  · rw [hgo] at herr
    cases herr

end Inv

theorem ensureExtents_empty (n : Nat) (hpos : 0 < len) :
    (ensureExtents len (List.replicate n Extent.default)).2 =
      (List.replicate n Extent.default, len) := by
  induction n with
  | zero => rfl
  | succ n ih =>
    have h0 : ¬(Extent.default.length ≥ len) := show ¬(0 ≥ len) by omega
    have hz : 512 * (wrap64 (Extent.default.length + 511) / 512) = 0 := by decide
    rw [List.replicate_succ, ensureExtents, if_neg h0]
    dsimp only
    rw [hz, if_neg (by omega), Nat.sub_zero, ih]
    rfl

theorem missing_empty (hempty : (fs.nodeAt t).extents = List.replicate 15 Extent.default)
    (hpos : 0 < len) : missing fs [t] len = len := by
  rw [missing, extentsOf_cons, extentsOf_nil, List.append_nil, hempty, ensureExtents_empty 15 hpos]

theorem tidy_empty (hempty : (fs.nodeAt t).extents = List.replicate 15 Extent.default) :
    Tidy fs [t] := by
  refine ⟨?_, fun c hc => ?_⟩
  · rw [extentsOf_cons, extentsOf_nil, List.append_nil, hempty]
    exact packed_of_nil (cellsOf_replicate 15)
  · obtain rfl : c = t := by simpa using hc
    rw [hempty]
    exact filledFirst_of_nil (cellsOf_replicate 15)

theorem content_one {e : Extent} (hb : fs.block = 0)
    (he : (fs.nodeAt t).extents = e :: List.replicate 14 Extent.default) :
    fileCells fs [t] = e.cells ∧ content fs [t] = load fs.disk.bytes (512 * e.block) e.length := by
  have hcells : fileCells fs [t] = e.cells := by
    rw [fileCells, extentsOf_cons, extentsOf_nil, List.append_nil, he, cellsOf_cons,
      cellsOf_replicate, List.append_nil]
  refine ⟨hcells, ?_⟩
  rw [content_eq hb, hcells]
  rfl

/-- The first write to an empty file: it gets one run of blocks, and what the disk held there comes
before the bytes written. -/
theorem Inv.writeNode_first (h : Inv fs l) (hlen : offset + buf.length = len)
    (ht : l.chain t = [t]) (hfile : (fs.nodeAt t).isDir = false)
    (hempty : (fs.nodeAt t).extents = List.replicate 15 Extent.default) (hpos : 0 < len)
    (hlt : len + 511 < 2 ^ 64)
    (htake : takeExtent ((len + 511) / 512) fs.freeNode.extents = some (nb, es)) :
    ∃ fs' l', writeNode t offset buf fs = .ok buf.length fs' ∧ Wrote fs l t len fs' l' ∧
      l'.chain t = [t] ∧ fs'.freeNode.extents = es ∧
      (fs'.nodeAt t).extents = ⟨nb, len⟩ :: List.replicate 14 Extent.default ∧
      content fs' [t] = load fs.disk.bytes (512 * nb) offset ++ buf := by
  have hm := missing_empty hempty hpos
  have hne : l.chain t ≠ [] := by simp [ht]
  have hfit := (takeExtent_fits htake h.freeFits).2
  have hsize := h.base.size
  have hv : ValidExtents (⟨nb, len⟩ :: List.replicate 14 Extent.default) := by
    refine ⟨rfl, fun e he => ?_⟩
    rcases List.mem_cons.mp he with rfl | he
    · exact ⟨show nb < 2 ^ 64 by omega, show len < 2 ^ 64 by omega⟩
    · rw [List.eq_of_mem_replicate he]
      decide
  have hins : insertExtent nb (missing fs [t] len) (filledUp (fs.nodeAt t).extents) =
      some (⟨nb, len⟩ :: List.replicate 14 Extent.default) := by
    have hfill : filledUp (List.replicate 15 Extent.default) = List.replicate 15 Extent.default := by
      decide
    have h0 : Extent.default.length = 0 := rfl
    rw [hm, hempty, hfill, List.replicate_succ, insertExtent, if_pos h0]
  obtain ⟨fs₁, l', hok, hens, hchain, hfree, hnode, hag⟩ := h.nodeEnsureLen_short ht hfile
    (by rw [hm]; exact hpos) (by rw [hm]; exact hlt) (by rw [hm]; exact htake) hins hv
  have hinv := hens.touches.inv
  have hfile₁ : (fs₁.nodeAt t).isDir = false := (Node.isDir_attrs hens.touches.attrs).trans hfile
  have hext : (fs₁.nodeAt t).extents = ⟨nb, len⟩ :: List.replicate 14 Extent.default := by
    rw [hnode]
  have hpk : Packed (extentsOf fs₁ (l'.chain t)) := by
    rw [hchain, extentsOf_cons, extentsOf_nil, List.append_nil, hext]
    exact ⟨fun hc => (hc (cellsOf_replicate 14)).elim, packed_of_nil (cellsOf_replicate 14)⟩
  obtain ⟨hcells, hcont₁⟩ := content_one hinv.base.block hext
  obtain ⟨fs', hrun, ha, hnodes, hcont⟩ := hinv.writeBytes_content offset buf hens.chain_ne_nil
    hfile₁ hpk (by rw [hchain, hcont₁, length_load]; dsimp only; omega)
  obtain ⟨-, hfree'⟩ := hinv.agree_data hfile₁ ha fun x hx => hx
  have hnt : fs'.nodeAt t = fs₁.nodeAt t := hnodes t t (by simp [hchain])
  refine ⟨fs', l', ?_, hens.wrote hfile ha, hchain, by rw [hfree', hfree], by rw [hnt, hext], ?_⟩
  · rw [writeNode_eq, hlen, wrap64_of_lt (by omega), bind_ok hok, hrun]
  · have hold : ∀ x ∈ (⟨nb, len⟩ : Extent).cells, fs₁.disk.bytes x = fs.disk.bytes x := by
      intro x hx
      have hfr := (h.take htake).2.2 (x / 512) (by
        have := List.mem_range'_1.mp hx
        rw [List.mem_range'_1]
        dsimp only at this
        omega)
      apply bytes_of_sector h.base.block hinv.base.block
      apply hag.sector
      rintro (h2 | hxt)
      · rw [h2] at hfr
        cases h.exclusive.disjoint .reserved .free 2 (by simp [own]) hfr
      · rw [hxt] at hfr
        cases h.exclusive.disjoint _ _ t (mem_own_of_chain (h.head_mem hne)) hfr
    have hload : load fs₁.disk.bytes (512 * nb) len = load fs.disk.bytes (512 * nb) len :=
      List.map_congr_left hold
    rw [hchain, hcont₁] at hcont
    rw [hcont, overlay]
    dsimp only
    rw [hload, take_load _ _ (by omega), List.drop_of_length_le (by rw [length_load]; omega),
      List.append_nil]

/-- The first node of the directory lists the entry at the end of an extent or alone, and the free
node has a place for its block. -/
theorem Inv.removeNode_short (h : Inv fs l) (hd : Reach fs d) (hdir : (fs.nodeAt d).isDir = true)
    (hrem : Removes fs mode name d b)
    (hout : removeExtent b 1 (fs.nodeAt d).extents = some (es, none))
    (hins : insertExtent b 512 fs.freeNode.extents = some es') (hv : ValidExtents es') :
    Room fs (l.chain d) b ∧ ∃ fs' l', removeNode mode name d fs = .ok () fs' ∧
      Removed fs l d b fs' l' ∧ l'.chain d = l.chain d ∧ fs'.freeNode.extents = es' ∧
      fs'.nodeAt d = { fs.nodeAt d with extents := es } ∧ fs'.nodeAt b = Node.default ∧
      Agree (fun x => x = 2 ∨ x = b ∨ x = d) fs fs' := by
  have hd' := h.reach hd
  obtain ⟨hlook, hbl, hbd⟩ := h.removes_mem hd hdir hrem
  have hbh : l.chain b ≠ [] := by
    rw [← entries_of_dir hdir] at hbl
    exact (h.entryHead d b hbl).1
  obtain ⟨post, hpost⟩ : ∃ post, l.chain d = d :: post := by
    have hc := (h.object d hd').chain
    cases hcs : l.chain d with
    | nil => exact (hd' hcs).elim
    | cons c post =>
      rw [hcs] at hc
      exact ⟨post, by rw [hc.1]⟩
  have hf : Found fs (l.chain d) b d post es none := ⟨[], hpost, by simp, hout⟩
  have hroom : Room fs (l.chain d) b := by
    rintro c post' es₂ o ⟨pre, hcs, hpre, hrm⟩
    rw [hpost] at hcs
    cases pre with
    | nil =>
      obtain ⟨rfl, rfl⟩ := List.cons.inj hcs
      rw [hout] at hrm
      cases hrm
      rw [freeAtRelease, hins]
      exact Option.some_ne_none _
    | cons x pre =>
      obtain ⟨rfl, -⟩ := List.cons.inj hcs
      rw [hpre d (by simp)] at hout
      cases hout
  refine ⟨hroom, ?_⟩
  obtain ⟨hv₁, hdc, hinv₁, -⟩ := h.unlist hd' hdir hbl hf
  have hb2 : b ≠ 2 := h.chain_ne_two (h.head_mem hbh)
  have hd2 : d ≠ 2 := h.chain_ne_two hdc
  have hag₁ : Agree (· = d) fs (fs.setExtents d es) := Agree.setExtents hv₁ rfl
  have hfree₁ : (fs.setExtents d es).freeNode = fs.freeNode := by
    apply hag₁.freeNode
    rw [h.base.free]
    exact hd2.symm
  have hrun : eraseNode b d fs =
      .ok () (((fs.setExtents d es).setExtents 2 es').writeNodeAt b Node.default) := by
    rw [h.eraseNode_run hd' hf, relistRest, bind_ok (show (pure () : FsM Unit) _ = .ok () _ from rfl),
      bind_ok (hinv₁.deallocate_run (by rw [hfree₁]; exact hins)),
      bind_ok (writeAt_run (((h.within_head hbh).setExtents es).setExtents es'))]
    rfl
  have hnode : ∀ c, (((fs.setExtents d es).setExtents 2 es').writeNodeAt b Node.default).nodeAt c =
      if c = b then Node.default
      else if c = 2 then { fs.nodeAt 2 with extents := es' }
      else if c = d then { fs.nodeAt d with extents := es } else fs.nodeAt c := by
    intro c
    rw [nodeAt_writeNodeAt Node.valid_default, nodeAt_setExtents hv, nodeAt_setExtents hv₁,
      Function.update_apply, Function.update_apply, Function.update_of_ne hd2.symm,
      Function.update_apply]
  have hag : Agree (fun x => x = 2 ∨ x = b ∨ x = d) fs
      (((fs.setExtents d es).setExtents 2 es').writeNodeAt b Node.default) := by
    refine (hag₁.mono fun x hx => Or.inr (Or.inr hx)).trans ?_
    exact (Agree.setExtents hv (Or.inl rfl)).trans
      (Agree.writeNodeAt Node.valid_default (Or.inr (Or.inl rfl)))
  generalize ((fs.setExtents d es).setExtents 2 es').writeNodeAt b Node.default = fs' at *
  have hfound : removeNode mode name d fs = _ := h.removeNode_found hd' hdir hlook
  have hempty : ¬((fs.nodeAt b).isDir = true ∧ listing fs (l.chain b) ≠ []) := by
    rintro ⟨hbdir, hne⟩
    rw [← h.children_eq hbdir, ← h.chainOf_eq hbh] at hne
    exact hne (hrem.2.2 hbdir)
  rw [if_pos hrem.2.1, if_neg hempty, hrun] at hfound
  rcases h.eraseNode_spec hd' hdir hbl hbd hroom with ⟨fs₂, l', hok, hremoved⟩ | ⟨-, fs₂, herr, -⟩
  · rw [hrun] at hok
    cases hok
    refine ⟨fs', l', hfound, hremoved, ?_, ?_, ?_, ?_, hag⟩
    · have hne : l'.chain d ≠ [] := by
        obtain ⟨ext, hext, -⟩ := hremoved.grown
        rw [hext]
        exact fun hc => hd' (List.append_eq_nil_iff.mp hc).1
      refine (hremoved.inv.object d hne).chain.unique ((h.object d hd').chain.congr fun c hc => ?_)
      have hcb : c ≠ b := fun hcb => hbd (h.chain_disjoint (h.head_mem hbh) (hcb ▸ hc))
      rw [hnode, if_neg hcb, if_neg (h.chain_ne_two hc)]
      split
      · rename_i hcd
        rw [hcd]
      · rfl
    · rw [hremoved.inv.base.freeNode, hnode, if_neg hb2.symm, if_pos rfl]
    · rw [hnode, if_neg hbd.symm, if_neg hd2, if_pos rfl]
    · rw [hnode, if_pos rfl]
  · rw [hrun] at herr
    cases herr

/-- A file system made on `disk`, with one file or directory in its root. -/
structure FirstNode (disk : Disk) (n mode : Nat) (name : String) (fs : FileSystem) (l : Layout) :
    Prop where
  inv : Inv fs l
  held : l.held = []
  rootChain : l.chain 1 = [1]
  chain : l.chain 4 = [4]
  node : fs.nodeAt 4 = Node.new mode name 1
  root : fs.nodeAt 1 = { Node.new (Node.MODE_DIR ||| 0o755) "root" 0 with
    extents := ⟨4, 512⟩ :: List.replicate 14 Extent.default }
  free : fs.freeNode.extents = ⟨5, 512 * (n - 5)⟩ :: List.replicate 14 Extent.default
  bytes : ∀ x, 512 * 5 ≤ x → fs.disk.bytes x = disk.bytes x

/-- The root of a new disk lists nothing. -/
theorem listing_fresh {disk : Disk} (hs : disk.size < 2 ^ 64) (hc : create disk = .ok fs) :
    listing fs (freshLayout.chain 1) = [] := by
  obtain ⟨-, -, -, -, -, h1, -, -⟩ := create_spec hs hc
  have hempty : (fs.nodeAt 1).extents = List.replicate 15 Extent.default := by
    rw [h1]
    rfl
  rw [← entries_of_dir (create_inv hs hc).rootDir]
  exact entries_fresh (fun e he => List.eq_of_mem_replicate (hempty ▸ he)) 1

theorem first_node {disk : Disk} {n : Nat} (name : String) (hd : disk.size = 512 * n) (hn : 5 ≤ n)
    (hsize : 512 * n < 2 ^ 64) (hc : create disk = .ok fs) (hm : mode < 2 ^ 16) :
    ∃ fs' l', createNode mode name 1 fs = .ok (4, Node.new mode name 1) fs' ∧
      Created fs freshLayout 1 4 (Node.new mode name 1) fs' l' ∧
      FirstNode disk n mode name fs' l' := by
  have hs : disk.size < 2 ^ 64 := by omega
  have hinv := create_inv hs hc
  obtain ⟨-, hb0, -, -, -, h1, -, hbytes⟩ := create_spec hs hc
  have hdir : (fs.nodeAt 1).isDir = true := hinv.rootDir
  have hempty : (fs.nodeAt 1).extents = List.replicate 15 Extent.default := by
    rw [h1]
    rfl
  have hlist := listing_fresh hs hc
  have htake : takeExtent 1 fs.freeNode.extents =
      some (4, ⟨5, 512 * (n - 5)⟩ :: List.replicate 14 Extent.default) := by
    have hrest : n - 4 - 1 = n - 5 := by omega
    rw [takeExtent_fresh hd (by omega) hsize hc, hrest]
  have hins : insertExtent 4 512 (fs.nodeAt 1).extents =
      some (⟨4, 512⟩ :: List.replicate 14 Extent.default) := by
    rw [hempty]
    rfl
  have hv : ValidExtents (⟨4, 512⟩ :: List.replicate 14 Extent.default) := ⟨rfl, by decide⟩
  obtain ⟨fs', l', hok, hcreated, hchain, hfree, hroot, hag⟩ := hinv.createNode_short
    name hinv.rootChain hdir hm (by rw [hlist]; rfl) htake hins hv
  refine ⟨fs', l', hok, hcreated, hcreated.inv, hcreated.held, hchain, hcreated.self, hcreated.node,
    by rw [hroot, h1], hfree, fun x hx => ?_⟩
  rw [← hbytes x (by omega)]
  apply bytes_of_sector hb0 (hag.block.trans hb0)
  apply hag.sector
  omega

/-- What the only node of the root lists is in reach. -/
theorem Inv.reach_listed {x : Nat} (h : Inv fs l) (h1 : l.chain 1 = [1])
    (hx : x ∈ spans (fs.nodeAt 1).extents) : Reach fs x := by
  refine h.reach_entry h.reach_root ?_
  rw [entries_of_dir h.rootDir, h1, listing_cons]
  exact List.mem_append_left _ hx

theorem FirstNode.reach {disk : Disk} {n : Nat} (h : FirstNode disk n mode name fs l) :
    Reach fs 4 := by
  refine h.inv.reach_listed h.rootChain ?_
  rw [h.root]
  exact List.mem_append_left _ (by decide)

/-- A second file is made beside the first: the blocks of both lie side by side. -/
theorem FirstNode.second {disk : Disk} {n m : Nat} {name name' : String}
    (h : FirstNode disk n mode name fs l) (hn : 6 ≤ n) (hsize : 512 * n < 2 ^ 64) (hm : m < 2 ^ 16)
    (habsent : lookup fs name' [4] = none) :
    ∃ fs' l', createNode m name' 1 fs = .ok (5, Node.new m name' 1) fs' ∧
      Created fs l 1 5 (Node.new m name' 1) fs' l' ∧ l'.chain 1 = [1] ∧
      fs'.freeNode.extents = ⟨6, 512 * (n - 6)⟩ :: List.replicate 14 Extent.default ∧
      (fs'.nodeAt 1).extents = ⟨4, 1024⟩ :: List.replicate 14 Extent.default ∧
      fs'.nodeAt 4 = fs.nodeAt 4 := by
  have hlist : listing fs (l.chain 1) = [4] := by
    rw [h.rootChain, listing_cons, listing_nil, h.root]
    decide
  have htake : takeExtent 1 fs.freeNode.extents =
      some (5, ⟨6, 512 * (n - 6)⟩ :: List.replicate 14 Extent.default) := by
    have hfit : 512 * (n - 5) / 512 ≥ 1 := by omega
    have hrest : 512 * (n - 5) - 1 * 512 = 512 * (n - 6) := by omega
    rw [h.free, takeExtent, if_pos hfit]
    dsimp only
    rw [hrest]
  have hins : insertExtent 5 512 (fs.nodeAt 1).extents =
      some (⟨4, 1024⟩ :: List.replicate 14 Extent.default) := by
    rw [h.root]
    decide
  have hv : ValidExtents (⟨4, 1024⟩ :: List.replicate 14 Extent.default) := ⟨rfl, by decide⟩
  obtain ⟨fs', l', hok, hcreated, hchain, hfree, hroot, hag⟩ := h.inv.createNode_short name'
    h.inv.rootChain h.inv.rootDir hm (by rw [hlist]; exact habsent) htake hins hv
  exact ⟨fs', l', hok, hcreated, hchain.trans h.rootChain, hfree, by rw [hroot],
    hag.nodeAt (by omega)⟩

/-- The mode of a plain file. -/
def plainFile : Nat := Node.MODE_FILE ||| 0o644

end Origel.RedoxFs
