import Origel.RedoxFs.Chain

/-! The operations that read a chain, or rewrite the extents along it. -/
namespace Origel.RedoxFs

open Origel.Lib FileSystem

variable {fs fs' : FileSystem} {b c p block length : Nat} {n : Node} {cs : List Nat}
  {es es' : List Extent} {name : String}

/-- The children a directory chain lists. -/
def children (fs : FileSystem) (cs : List Nat) : List Nat :=
  cs.flatMap fun c => childBlocks (fs.nodeAt c)

/-- The extents along a chain. -/
def extentsOf (fs : FileSystem) (cs : List Nat) : List Extent :=
  cs.flatMap fun c => (fs.nodeAt c).extents

/-- The first of the blocks that holds a node of that name. -/
def lookup (fs : FileSystem) (name : String) (bs : List Nat) : Option Nat :=
  bs.find? fun b => (fs.nodeAt b).nameStr = some name

@[simp] theorem extentsOf_nil : extentsOf fs [] = [] := rfl

@[simp] theorem extentsOf_cons : extentsOf fs (c :: cs) = (fs.nodeAt c).extents ++ extentsOf fs cs :=
  rfl

/-- The walk along a chain, and the look at what it lists, stay on the disk. -/
structure Near (fs : FileSystem) (cs : List Nat) : Prop where
  chain : ∀ c ∈ cs, fs.Within c
  children : ∀ b ∈ children fs cs, fs.Within b

theorem Near.head (h : Near fs (c :: cs)) : fs.Within c := h.chain c List.mem_cons_self

theorem Near.tail (h : Near fs (c :: cs)) : Near fs cs := by
  refine ⟨fun d hd => h.chain d (List.mem_cons_of_mem c hd), fun b hb => h.children b ?_⟩
  exact List.mem_append_right _ hb

theorem Near.listed (h : Near fs (c :: cs)) (hb : b ∈ childBlocks (fs.nodeAt c)) : fs.Within b :=
  h.children b (List.mem_append_left _ hb)

theorem extentsOf_congr (h : ∀ c ∈ cs, (fs'.nodeAt c).extents = (fs.nodeAt c).extents) :
    extentsOf fs' cs = extentsOf fs cs := List.flatMap_congr h

theorem findChild_run (bs : List Nat) (hw : ∀ b ∈ bs, fs.Within b) :
    findChild name bs fs = .ok ((lookup fs name bs).map fun b => (b, fs.nodeAt b)) fs := by
  induction bs with
  | nil => rfl
  | cons b bs ih =>
    rw [findChild, bind_ok (node_run (hw b List.mem_cons_self))]
    by_cases hb : (fs.nodeAt b).nameStr = some name
    · simp only [hb, if_true, lookup, List.find?_cons_of_pos, decide_true]
      rfl
    · have hrest := ih fun d hd => hw d (List.mem_cons_of_mem b hd)
      simp only [hb, if_false, hrest, lookup, List.find?_cons_of_neg, decide_false,
        Bool.false_eq_true, not_false_eq_true]

theorem lookup_append (bs bs' : List Nat) :
    lookup fs name (bs ++ bs') = (lookup fs name bs).or (lookup fs name bs') := List.find?_append

theorem findNodeAux_run {k : Nat} (hc : Chain fs.nodeAt p cs) (hw : Near fs cs) (hk : cs.length < k) :
    findNodeAux name k p fs = match lookup fs name (children fs cs) with
      | some b => .ok (b, fs.nodeAt b) fs
      | none => .error (.errno .ENOENT) fs := by
  induction cs generalizing p k with
  | nil =>
    cases k with
    | zero => cases hk
    | succ k =>
      rw [findNodeAux]
      simp only [show p = 0 from hc, if_true]
      rfl
  | cons c cs ih =>
    obtain ⟨rfl, h0, ht⟩ := hc
    cases k with
    | zero => cases hk
    | succ k =>
      rw [findNodeAux]
      simp only [h0, if_false]
      rw [bind_ok (node_run hw.head), bind_ok (findChild_run _ fun b hb => hw.listed hb)]
      simp only [children, List.flatMap_cons, lookup_append]
      cases hl : lookup fs name (childBlocks (fs.nodeAt c)) with
      | some b => rfl
      | none => exact ih ht hw.tail (by simpa using hk)

/-- `find_node` is the first listed child of that name. -/
theorem findNode_run (hc : Chain fs.nodeAt p cs) (hw : Near fs cs) (hk : cs.length < fs.fuel) :
    findNode name p fs = match lookup fs name (children fs cs) with
      | some b => .ok (b, fs.nodeAt b) fs
      | none => .error (.errno .ENOENT) fs :=
  findNodeAux_run hc hw hk

theorem mapM_node_run (bs : List Nat) (hw : ∀ b ∈ bs, fs.Within b) :
    bs.mapM node fs = .ok (bs.map fun b => (b, fs.nodeAt b)) fs := by
  induction bs with
  | nil => rfl
  | cons b bs ih =>
    rw [List.mapM_cons, bind_ok (node_run (hw b List.mem_cons_self)),
      bind_ok (ih fun d hd => hw d (List.mem_cons_of_mem b hd))]
    rfl

theorem childNodesAux_run {k : Nat} (hc : Chain fs.nodeAt p cs) (hw : Near fs cs) (hk : cs.length < k) :
    childNodesAux k p fs = .ok ((children fs cs).map fun b => (b, fs.nodeAt b)) fs := by
  induction cs generalizing p k with
  | nil =>
    cases k with
    | zero => cases hk
    | succ k =>
      rw [childNodesAux]
      simp only [show p = 0 from hc, if_true]
      rfl
  | cons c cs ih =>
    obtain ⟨rfl, h0, ht⟩ := hc
    cases k with
    | zero => cases hk
    | succ k =>
      rw [childNodesAux]
      simp only [h0, if_false]
      rw [bind_ok (node_run hw.head), bind_ok (mapM_node_run _ fun b hb => hw.listed hb),
        bind_ok (ih ht hw.tail (by simpa using hk))]
      simp only [children, List.flatMap_cons, List.map_append]
      rfl

theorem childNodes_run (hc : Chain fs.nodeAt p cs) (hw : Near fs cs) (hk : cs.length < fs.fuel) :
    childNodes p fs = .ok ((children fs cs).map fun b => (b, fs.nodeAt b)) fs :=
  childNodesAux_run hc hw hk

theorem nodeLenAux_run {k : Nat} (hc : Chain fs.nodeAt p cs) (hw : ∀ c ∈ cs, fs.Within c)
    (hne : cs ≠ []) (hk : cs.length < k) :
    nodeLenAux k p fs = .ok ((extentsOf fs cs).map Extent.length).sum fs := by
  induction cs generalizing p k with
  | nil => exact (hne rfl).elim
  | cons c cs ih =>
    obtain ⟨rfl, h0, ht⟩ := hc
    cases k with
    | zero => cases hk
    | succ k =>
      rw [nodeLenAux]
      simp only [h0, if_false]
      rw [bind_ok (node_run (hw c List.mem_cons_self))]
      simp only [extentsOf_cons, List.map_append, List.sum_append]
      by_cases hn : (fs.nodeAt c).next = 0
      · have hcs : cs = [] := by
          rw [hn] at ht
          exact ht.unique rfl
        simp only [hn, Nat.lt_irrefl, if_false, hcs, extentsOf_nil, List.map_nil, List.sum_nil,
          Nat.add_zero, gt_iff_lt]
        rfl
      · have hcs : cs ≠ [] := by
          rintro rfl
          exact hn ht
        simp only [Nat.pos_of_ne_zero hn, if_true]
        rw [bind_ok (ih ht (fun d hd => hw d (List.mem_cons_of_mem c hd)) hcs (by simpa using hk))]
        rfl

theorem nodeLen_run (hc : Chain fs.nodeAt p cs) (hw : ∀ c ∈ cs, fs.Within c) (hne : cs ≠ [])
    (hk : cs.length < fs.fuel) :
    nodeLen p fs = .ok ((extentsOf fs cs).map Extent.length).sum fs :=
  nodeLenAux_run hc hw hne hk

/-- `remove_blocks` walks past the nodes that do not list the blocks. -/
theorem removeBlocksAux_walk {pre post : List Nat} (k : Nat)
    (hc : Chain fs.nodeAt p (pre ++ c :: post)) (hw : ∀ d ∈ pre, fs.Within d)
    (hpre : ∀ d ∈ pre, removeExtent block length (fs.nodeAt d).extents = none) :
    removeBlocksAux (pre.length + k) block length p fs = removeBlocksAux k block length c fs := by
  induction pre generalizing p with
  | nil =>
    obtain ⟨rfl, -⟩ := hc
    simp
  | cons d pre ih =>
    obtain ⟨rfl, h0, ht⟩ := hc
    rw [List.length_cons, Nat.add_right_comm, removeBlocksAux]
    simp only [h0, if_false]
    rw [bind_ok (node_run (hw d (by simp)))]
    simp only [hpre d (by simp)]
    exact ih ht (fun x hx => hw x (by simp [hx])) fun x hx => hpre x (by simp [hx])

/-- What is left to do once the node that lists the block is rewritten. -/
def afterRemoval (block c : Nat) (replace : Option Extent) : FsM Unit := do
  match replace with
  | some r => insertBlocks r.block r.length c
  | none => pure ()
  deallocate block 512

theorem removeBlocks_run {pre post : List Nat} {o : Option Extent}
    (hc : Chain fs.nodeAt p (pre ++ c :: post)) (hw : ∀ d ∈ pre ++ [c], fs.Within d)
    (hpre : ∀ d ∈ pre, removeExtent block length (fs.nodeAt d).extents = none)
    (he : removeExtent block length (fs.nodeAt c).extents = some (es, o))
    (hk : pre.length < fs.fuel) :
    removeBlocks block length p fs = afterRemoval block c o (fs.setExtents c es) := by
  obtain ⟨k, hk⟩ : ∃ k, fs.fuel = pre.length + (k + 1) := ⟨fs.fuel - pre.length - 1, by omega⟩
  change removeBlocksAux fs.fuel block length p fs = _
  rw [hk, removeBlocksAux_walk (k + 1) hc (fun d hd => hw d (by simp [hd])) hpre, removeBlocksAux]
  simp only [hc.ne_zero (c := c) (by simp), if_false]
  rw [bind_ok (node_run (hw c (by simp)))]
  simp only [he]
  rw [bind_ok (writeAt_run (hw c (by simp)))]
  rfl

/-- Along `cs` only the extents may have changed, each node's list as `R` allows. -/
structure Rewritten (R : List Extent → List Extent → Prop) (cs : List Nat) (fs fs' : FileSystem) :
    Prop where
  agree : Agree (· ∈ cs) fs fs'
  nodes : ∀ c ∈ cs, ∃ es, R (fs.nodeAt c).extents es ∧
    fs'.nodeAt c = { fs.nodeAt c with extents := es }

theorem Rewritten.next {R : List Extent → List Extent → Prop} (h : Rewritten R cs fs fs')
    (b : Nat) : (fs'.nodeAt b).next = (fs.nodeAt b).next := by
  by_cases hb : b ∈ cs
  · obtain ⟨es, -, he⟩ := h.nodes b hb
    rw [he]
  · rw [h.agree.nodeAt hb]

section Rewriting

variable {R : List Extent → List Extent → Prop}

/-- The first node of a chain is rewritten, then the rest of the chain. -/
theorem Rewritten.cons (hc : c ∉ cs) (he : ValidExtents es) (hR : R (fs.nodeAt c).extents es)
    (h : Rewritten R cs (fs.setExtents c es) fs') :
    Rewritten R (c :: cs) fs fs' ∧ extentsOf fs' (c :: cs) = es ++ extentsOf fs' cs := by
  have hself : fs'.nodeAt c = { fs.nodeAt c with extents := es } := by
    rw [h.agree.nodeAt hc, nodeAt_setExtents he, Function.update_self]
  refine ⟨⟨?_, ?_⟩, ?_⟩
  · have hfirst : Agree (· ∈ c :: cs) fs (fs.setExtents c es) := Agree.setExtents he (by simp)
    exact hfirst.trans (h.agree.mono fun b hb => List.mem_cons_of_mem c hb)
  · intro d hd
    rcases List.mem_cons.mp hd with rfl | hd
    · exact ⟨es, hR, hself⟩
    · have hdc : d ≠ c := fun h => hc (h ▸ hd)
      have hn := h.nodes d hd
      rwa [nodeAt_setExtents he, Function.update_of_ne hdc] at hn
  · rw [extentsOf_cons, hself]

theorem extentsOf_setExtents (hc : c ∉ cs) (he : ValidExtents es) :
    extentsOf (fs.setExtents c es) cs = extentsOf fs cs := by
  apply extentsOf_congr
  intro d hd
  rw [nodeAt_setExtents he, Function.update_of_ne]
  rintro rfl
  exact hc hd

theorem chain_setExtents (h : Chain fs.nodeAt p cs) (he : ValidExtents es) :
    Chain (fs.setExtents c es).nodeAt p cs := by
  apply h.congr
  intro d _
  rw [nodeAt_setExtents he]
  by_cases hd : d = c
  · rw [hd, Function.update_self]
  · rw [Function.update_of_ne hd]

end Rewriting

theorem validExtents_shrunk (hn : n.Valid) (h : List.Forall₂ Shrunk n.extents es) :
    ValidExtents es := by
  refine ⟨h.length_eq ▸ hn.count, ?_⟩
  intro e he
  obtain ⟨x, hx, hb, hl⟩ := forall₂_source h he
  have := hn.extents x hx
  omega

theorem validExtents_grown (hl : ∀ e ∈ n.extents, e.length + 511 < 2 ^ 64) (hn : n.Valid)
    (h : List.Forall₂ Grown n.extents es) : ValidExtents es := by
  refine ⟨h.length_eq ▸ hn.count, ?_⟩
  intro e he
  obtain ⟨x, hx, hb, hlo, hhi⟩ := forall₂_source h he
  have := hn.extents x hx
  have := hl x hx
  omega

/-- An unchanged node is not written, which is as good as writing it back. -/
theorem nodeSetLenAux_succ {k : Nat} (h0 : c ≠ 0) (hw : fs.Within c) {t : Bool × List Extent × Nat}
    (ht : truncateExtents length (fs.nodeAt c).extents = t) :
    nodeSetLenAux (k + 1) c length fs =
      (if (fs.nodeAt c).next > 0 then nodeSetLenAux k (fs.nodeAt c).next t.2.2 else pure ())
        (fs.setExtents c t.2.1) := by
  rw [nodeSetLenAux]
  simp only [h0, if_false]
  rw [bind_ok (node_run hw)]
  obtain ⟨changed, es, rest⟩ := t
  simp only [ht]
  cases changed with
  | true =>
    simp only [if_true]
    rw [bind_ok (writeAt_run hw)]
    rfl
  | false =>
    have he := truncateExtents_unchanged (congrArg Prod.fst ht)
    rw [ht] at he
    have hsame : fs.setExtents c es = fs := by
      rw [show es = (fs.nodeAt c).extents from he]
      exact writeNodeAt_nodeAt fs c
    rw [hsame]
    simp only [Bool.false_eq_true, if_false]

/-- `node_set_len` truncates the extents along the chain. -/
theorem nodeSetLenAux_run {k : Nat} (length : Nat) (hc : Chain fs.nodeAt p cs)
    (hw : ∀ c ∈ cs, fs.Within c) (hne : cs ≠ []) (hk : cs.length < k) (hn : cs.Nodup) :
    ∃ fs', nodeSetLenAux k p length fs = .ok () fs' ∧
      Rewritten (fun es es' => ∃ l, es' = (truncateExtents l es).2.1) cs fs fs' ∧
      extentsOf fs' cs = (truncateExtents length (extentsOf fs cs)).2.1 := by
  induction cs generalizing p k length fs with
  | nil => exact (hne rfl).elim
  | cons c cs ih =>
    obtain ⟨rfl, h0, ht⟩ := hc
    obtain ⟨hcs, hn⟩ := List.nodup_cons.mp hn
    cases k with
    | zero => cases hk
    | succ k =>
      have hv := validExtents_shrunk (nodeAt_valid fs c)
        (truncateExtents_shrunk (fs.nodeAt c).extents length)
      have hrest : ∀ d ∈ cs, (fs.setExtents c (truncateExtents length (fs.nodeAt c).extents).2.1).Within d :=
        fun d hd => (hw d (List.mem_cons_of_mem c hd)).setExtents _
      rw [nodeSetLenAux_succ h0 (hw c List.mem_cons_self) rfl]
      by_cases hnext : (fs.nodeAt c).next > 0
      · rw [if_pos hnext]
        obtain ⟨fs', hrun, hrw, hes⟩ := ih _ (chain_setExtents ht hv) hrest
          (by rintro rfl; exact hnext.ne' ht) (by simpa using hk) hn
        obtain ⟨hrw', hes'⟩ := hrw.cons hcs hv ⟨length, rfl⟩
        refine ⟨fs', hrun, hrw', ?_⟩
        rw [hes', hes, extentsOf_setExtents hcs hv, extentsOf_cons, truncateExtents_append]
      · rw [if_neg hnext]
        have hnil : cs = [] := by
          rw [show (fs.nodeAt c).next = 0 by omega] at ht
          exact ht.unique rfl
        subst hnil
        have hrw : Rewritten (fun es es' => ∃ l, es' = (truncateExtents l es).2.1) []
            (fs.setExtents c (truncateExtents length (fs.nodeAt c).extents).2.1)
            (fs.setExtents c (truncateExtents length (fs.nodeAt c).extents).2.1) :=
          ⟨Agree.refl _ _, by simp⟩
        obtain ⟨hrw', hes'⟩ := hrw.cons hcs hv ⟨length, rfl⟩
        refine ⟨_, rfl, hrw', ?_⟩
        rw [hes', extentsOf_cons, extentsOf_nil, extentsOf_nil, List.append_nil, List.append_nil]

/-- What `node_ensure_len` does about the length that the extents do not reach. -/
def growLast (c rest : Nat) : FsM Unit := do
  let newBlock ← allocate (wrap64 (rest + 511) / 512)
  insertBlocks newBlock rest c

theorem nodeEnsureLenAux_succ {k : Nat} (h0 : c ≠ 0) (hw : fs.Within c) {t : Bool × List Extent × Nat}
    (ht : ensureExtents length (fs.nodeAt c).extents = t) :
    nodeEnsureLenAux (k + 1) c length fs =
      (if t.2.2 > 0 then
        if (fs.nodeAt c).next > 0 then nodeEnsureLenAux k (fs.nodeAt c).next t.2.2
        else growLast c t.2.2
      else pure ()) (fs.setExtents c t.2.1) := by
  rw [nodeEnsureLenAux]
  simp only [h0, if_false]
  rw [bind_ok (node_run hw)]
  obtain ⟨changed, es, rest⟩ := t
  simp only [ht]
  cases changed with
  | true =>
    simp only [if_true]
    rw [bind_ok (writeAt_run hw)]
    rfl
  | false =>
    have he := ensureExtents_unchanged (congrArg Prod.fst ht)
    rw [ht] at he
    have hsame : fs.setExtents c es = fs := by
      rw [show es = (fs.nodeAt c).extents from he]
      exact writeNodeAt_nodeAt fs c
    rw [hsame]
    simp only [Bool.false_eq_true, if_false]
    rfl

/-- `node_ensure_len` fills up the extents along the chain, and grows the last node if that is not
enough. -/
theorem nodeEnsureLenAux_run {k : Nat} {pre : List Nat} (length : Nat) (hc : Chain fs.nodeAt p (pre ++ [c]))
    (hw : ∀ d ∈ pre ++ [c], fs.Within d) (hk : pre.length + 1 < k) (hn : (pre ++ [c]).Nodup)
    (hl : ∀ d ∈ pre ++ [c], ∀ e ∈ (fs.nodeAt d).extents, e.length + 511 < 2 ^ 64) :
    ∃ fs', Rewritten (fun es es' => ∃ l, es' = (ensureExtents l es).2.1) (pre ++ [c]) fs fs' ∧
      extentsOf fs' (pre ++ [c]) = (ensureExtents length (extentsOf fs (pre ++ [c]))).2.1 ∧
      nodeEnsureLenAux k p length fs =
        (if (ensureExtents length (extentsOf fs (pre ++ [c]))).2.2 > 0 then
          growLast c (ensureExtents length (extentsOf fs (pre ++ [c]))).2.2
        else pure ()) fs' := by
  induction pre generalizing p k length fs with
  | nil =>
    obtain ⟨rfl, h0, hnext⟩ := hc
    cases k with
    | zero => cases hk
    | succ k =>
      have hv := validExtents_grown (hl c (by simp)) (nodeAt_valid fs c)
        (ensureExtents_grown (hl c (by simp)) length)
      have hrw : Rewritten (fun es es' => ∃ l, es' = (ensureExtents l es).2.1) []
          (fs.setExtents c (ensureExtents length (fs.nodeAt c).extents).2.1)
          (fs.setExtents c (ensureExtents length (fs.nodeAt c).extents).2.1) :=
        ⟨Agree.refl _ _, by simp⟩
      obtain ⟨hrw', hes'⟩ := hrw.cons (by simp) hv ⟨length, rfl⟩
      have hnext : (fs.nodeAt c).next = 0 := hnext
      refine ⟨_, hrw', ?_, ?_⟩
      · rw [List.nil_append, hes', extentsOf_cons, extentsOf_nil, extentsOf_nil, List.append_nil,
          List.append_nil]
      · rw [nodeEnsureLenAux_succ h0 (hw c (by simp)) rfl]
        simp only [hnext, Nat.lt_irrefl, if_false, List.nil_append, extentsOf_cons, extentsOf_nil,
          List.append_nil, gt_iff_lt]
  | cons d pre ih =>
    obtain ⟨rfl, h0, ht⟩ := hc
    obtain ⟨hcs, hn⟩ := List.nodup_cons.mp (show (d :: (pre ++ [c])).Nodup from hn)
    have hnext : (fs.nodeAt d).next > 0 := by
      apply Nat.pos_of_ne_zero
      cases pre with
      | nil => exact ht.2.1
      | cons d' pre => exact ht.2.1
    cases k with
    | zero => cases hk
    | succ k =>
      have hv := validExtents_grown (hl d (by simp)) (nodeAt_valid fs d)
        (ensureExtents_grown (hl d (by simp)) length)
      rw [nodeEnsureLenAux_succ h0 (hw d (by simp)) rfl, List.cons_append, extentsOf_cons, ensureExtents_append]
      by_cases hrest : (ensureExtents length (fs.nodeAt d).extents).2.2 > 0
      · rw [if_pos hrest, if_pos hnext]
        have hl' : ∀ x ∈ pre ++ [c],
            ∀ e ∈ ((fs.setExtents d (ensureExtents length (fs.nodeAt d).extents).2.1).nodeAt x).extents,
              e.length + 511 < 2 ^ 64 := by
          intro x hx
          have hxd : x ≠ d := fun h => hcs (h ▸ hx)
          rw [nodeAt_setExtents hv, Function.update_of_ne hxd]
          exact hl x (List.mem_cons_of_mem d hx)
        obtain ⟨fs', hrw, hes, hrun⟩ := ih _ (chain_setExtents ht hv)
          (fun x hx => (hw x (List.mem_cons_of_mem d hx)).setExtents _) (by simpa using hk) hn hl'
        obtain ⟨hrw', hes'⟩ := hrw.cons hcs hv ⟨length, rfl⟩
        rw [extentsOf_setExtents hcs hv] at hes hrun
        exact ⟨fs', hrw', by rw [hes', hes], hrun⟩
      · -- the loop ends here, and the later nodes stay as they are
        have hz : (ensureExtents length (fs.nodeAt d).extents).2.2 = 0 := by omega
        have hrw : Rewritten (fun es es' => ∃ l, es' = (ensureExtents l es).2.1) (pre ++ [c])
            (fs.setExtents d (ensureExtents length (fs.nodeAt d).extents).2.1)
            (fs.setExtents d (ensureExtents length (fs.nodeAt d).extents).2.1) :=
          ⟨Agree.refl _ _, fun x _ => ⟨(nodeAt _ x).extents, ⟨0, by rw [ensureExtents_zero]⟩, rfl⟩⟩
        obtain ⟨hrw', hes'⟩ := hrw.cons hcs hv ⟨length, rfl⟩
        refine ⟨_, hrw', ?_, ?_⟩
        · rw [hes', extentsOf_setExtents hcs hv, hz, ensureExtents_zero]
        · rw [hz, ensureExtents_zero]
          simp only [Nat.lt_irrefl, if_false, gt_iff_lt]

/-- `node_extents` works on the extents along the chain. -/
theorem nodeExtentsAux_run {k offset len : Nat} {acc : List Extent} (hc : Chain fs.nodeAt p cs)
    (hw : ∀ c ∈ cs, fs.Within c) (hk : cs.length < k) :
    nodeExtentsAux k p offset len acc fs =
      .ok (pushExtents (extentsOf fs cs) offset len acc).2.2 fs := by
  induction cs generalizing p k offset len acc with
  | nil =>
    cases k with
    | zero => cases hk
    | succ k =>
      rw [nodeExtentsAux]
      simp only [show p = 0 from hc, if_true]
      rfl
  | cons c cs ih =>
    obtain ⟨rfl, h0, ht⟩ := hc
    cases k with
    | zero => cases hk
    | succ k =>
      rw [nodeExtentsAux]
      simp only [h0, if_false]
      rw [bind_ok (node_run (hw c List.mem_cons_self)), extentsOf_cons, pushExtents_append]
      generalize pushExtents (fs.nodeAt c).extents offset len acc = t
      obtain ⟨offset', len', acc'⟩ := t
      by_cases hl : len' > 0
      · simp only [hl, if_true, hl.ne', if_false]
        exact ih ht (fun d hd => hw d (List.mem_cons_of_mem c hd)) (by simpa using hk)
      · simp only [show len' = 0 by omega, if_true]
        rfl

theorem nodeExtents_run {offset len : Nat} (hc : Chain fs.nodeAt p cs) (hw : ∀ c ∈ cs, fs.Within c)
    (hk : cs.length < fs.fuel) :
    nodeExtents p offset len fs = .ok (pushExtents (extentsOf fs cs) offset len []).2.2 fs :=
  nodeExtentsAux_run hc hw hk

end Origel.RedoxFs
