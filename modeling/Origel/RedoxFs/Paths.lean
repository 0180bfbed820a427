import Origel.Lib.Ends
import Origel.RedoxFs.Overlay

/-! How paths lead from the root through directories, and what only reads the disk. -/
namespace Origel.RedoxFs

open Origel.Lib FileSystem

variable {fs fs' : FileSystem} {b c d p t offset : Nat} {l : Layout} {buf : List UInt8}
  {name part : String} {parts : List String} {nodes ns : List (Nat × Node)}
  {res : Except Errno (Nat × Node)}

theorem reads_node (b : Nat) : Reads (node b) := fun _ => ends_of_ok rfl rfl

theorem reads_findChild (name : String) (bs : List Nat) : Reads (findChild name bs) := by
  induction bs with
  | nil => exact reads_pure none
  | cons b bs ih =>
    refine (reads_node b).bind fun child => ?_
    split
    · exact reads_pure _
    · exact ih

theorem reads_findNode (name : String) (b : Nat) : Reads (findNode name b) := by
  have haux : ∀ k b, Reads (findNodeAux name k b) := by
    intro k
    induction k with
    | zero => exact fun b => reads_throw _
    | succ k ih =>
      intro b
      rw [findNodeAux]
      split
      · exact reads_throw _
      · refine (reads_node b).bind fun parent => (reads_findChild name _).bind fun o => ?_
        cases o with
        | some child => exact reads_pure child
        | none => exact ih _
  exact reads_get.bind fun fs => haux fs.fuel b

theorem walkPath_skip {last : Nat × Node} (hp : part.isEmpty = true) :
    walkPath (part :: parts) last nodes = walkPath parts last nodes := if_pos hp

theorem walkPath_part {last : Nat × Node} (hp : ¬part.isEmpty = true) :
    walkPath (part :: parts) last nodes fs = match findNode part last.1 fs with
      | .ok child fs => walkPath parts child (nodes ++ [last]) fs
      | .error (.errno e) fs => .ok (nodes ++ [last], .error e) fs
      | .error .crash fs => .error .crash fs := congrFun (if_neg hp) fs

theorem reads_walkPath (parts : List String) (last : Nat × Node) (nodes : List (Nat × Node)) :
    Reads (walkPath parts last nodes) := by
  induction parts generalizing last nodes with
  | nil => exact reads_pure _
  | cons part parts ih =>
    by_cases hp : part.isEmpty = true
    · rw [walkPath_skip hp]
      exact ih last nodes
    · intro fs
      have hrun : walkPath (part :: parts) last nodes fs = _ := walkPath_part hp
      cases hf : findNode part last.1 fs with
      | ok child fs₁ =>
        obtain rfl := (reads_findNode part last.1).ok hf
        rw [hf] at hrun
        rw [Ends, hrun]
        exact ih child (nodes ++ [last]) fs₁
      | error e fs₁ =>
        obtain rfl := (reads_findNode part last.1).error hf
        rw [hf] at hrun
        cases e with
        | errno e => exact ends_of_ok hrun rfl
        | crash => exact ends_of_error hrun rfl

/-- A lookup that fails is reported, not thrown. -/
theorem walkPath_error {last : Nat × Node} {e : Fault}
    (h : walkPath parts last nodes fs = .error e fs') : e = .crash := by
  induction parts generalizing last nodes fs with
  | nil => cases h
  | cons part parts ih =>
    by_cases hp : part.isEmpty = true
    · rw [walkPath_skip hp] at h
      exact ih h
    · rw [walkPath_part hp] at h
      cases hf : findNode part last.1 fs with
      | ok child fs₁ =>
        rw [hf] at h
        exact ih h
      | error e fs₁ =>
        rw [hf] at h
        cases e with
        | errno e => cases h
        | crash =>
          cases h
          rfl

theorem pathNodes_error {path : String} {e : Fault} (h : pathNodes path fs = .error e fs') :
    e = .crash := by
  have hwalk : walkPath (splitPath path) (fs.header.2.root, fs.nodeRead fs.header.2.root) [] fs =
    .error e fs' := h
  exact walkPath_error hwalk

theorem reads_pathNodes (path : String) : Reads (pathNodes path) :=
  reads_get.bind fun _ => (reads_node _).bind fun _ => reads_walkPath _ _ _

theorem reads_mapM_node (bs : List Nat) : Reads (bs.mapM node) := by
  induction bs with
  | nil => exact reads_pure []
  | cons b bs ih =>
    rw [List.mapM_cons]
    exact (reads_node b).bind fun n => ih.bind fun ns => reads_pure _

theorem reads_childNodes (b : Nat) : Reads (childNodes b) := by
  have haux : ∀ k b, Reads (childNodesAux k b) := by
    intro k
    induction k with
    | zero => exact fun b => reads_throw _
    | succ k ih =>
      intro b
      rw [childNodesAux]
      split
      · exact reads_pure _
      · exact (reads_node b).bind fun parent => (reads_mapM_node _).bind fun cs =>
          (ih _).bind fun rest => reads_pure _
  exact reads_get.bind fun fs => haux fs.fuel b

theorem reads_nodeLen (b : Nat) : Reads (nodeLen b) := by
  have haux : ∀ k b, Reads (nodeLenAux k b) := by
    intro k
    induction k with
    | zero => exact fun b => reads_throw _
    | succ k ih =>
      intro b
      rw [nodeLenAux]
      split
      · exact reads_throw _
      · refine (reads_node b).bind fun n => ?_
        split
        · exact (ih _).bind fun rest => reads_pure _
        · exact reads_pure _
  exact reads_get.bind fun fs => haux fs.fuel b

namespace Inv

/-- A read copies bytes out of the sectors of its file, or is a failed slice. -/
theorem readNode_own (h : Inv fs l) (ht : l.chain t ≠ []) (offset : Nat) (buf : List UInt8) :
    readNode t offset buf fs = .error .crash fs ∨
    ∃ cells : List Nat, (∀ x ∈ cells, x / 512 ∈ listing fs (l.chain t)) ∧ cells.length ≤ buf.length ∧
      readNode t offset buf fs = .ok (overlay buf 0 (cells.map fs.disk.bytes), cells.length) fs := by
  obtain ⟨zs, hrun, hzs, hlen, -⟩ := h.nodeExtents_spec ht (offset / 512) (offset % 512 + buf.length)
  by_cases ho : ∀ z ∈ zs.head?, offset % 512 ≤ min 512 z.length
  · right
    refine ⟨(cellsOf zs).drop (offset % 512), fun x hx => ?_, ?_, ?_⟩
    · exact mem_listing_of_mem_pieces hzs (List.mem_of_mem_drop hx)
    · rw [List.length_drop]
      omega
    · obtain ⟨o, hfold⟩ := readExtents_run (p := ⟨buf, 0, offset % 512⟩) h.base.block zs
        (h.within_pieces hzs) ho (by
        dsimp only
        omega)
      rw [readNode, bind_ok hrun, bind_ok hfold, List.length_drop, List.map_drop]
      simp only [Nat.zero_add]
      rfl
  · left
    push Not at ho
    obtain ⟨z, hz, hlt⟩ := ho
    cases zs with
    | nil => cases hz
    | cons y ys =>
      obtain rfl : y = z := by simpa using hz
      rw [readNode, bind_ok hrun]
      exact bind_error (readExtents_crash (hzs y (by simp)).1 hlt)

end Inv

/-- The blocks that the parts of a path lead through, and the one they lead to. -/
def follow (fs : FileSystem) : Nat → List String → List Nat × Option Nat
  | b, [] => ([], some b)
  | b, part :: parts =>
    match lookup fs part (children fs (chainOf fs b)) with
    | some c => (b :: (follow fs c parts).1, (follow fs c parts).2)
    | none => ([b], none)

/-- The parts of a path that `path_nodes` looks up. -/
def partsOf (path : String) : List String := (splitPath path).filter fun part => !part.isEmpty

/-- What a block is looked up as. -/
def found (fs : FileSystem) : Option Nat → Except Errno (Nat × Node)
  | some b => .ok (b, fs.nodeAt b)
  | none => .error .ENOENT

theorem walkPath_extends {last : Nat × Node} (h : walkPath parts last nodes fs = .ok (ns, res) fs') :
    nodes <+: ns := by
  induction parts generalizing last nodes fs with
  | nil =>
    cases h
    exact List.prefix_refl _
  | cons part parts ih =>
    by_cases hp : part.isEmpty = true
    · rw [walkPath_skip hp] at h
      exact ih h
    · rw [walkPath_part hp] at h
      cases hf : findNode part last.1 fs with
      | ok child fs₁ =>
        rw [hf] at h
        exact (List.prefix_append nodes [last]).trans (ih h)
      | error e fs₁ =>
        rw [hf] at h
        cases e with
        | errno e =>
          cases h
          exact List.prefix_append nodes [last]
        | crash => cases h

namespace Inv

theorem findNode_lookup (h : Inv fs l) (ht : l.chain t ≠ []) : findNode name t fs =
    match lookup fs name (children fs (chainOf fs t)) with
      | some b => .ok (b, fs.nodeAt b) fs
      | none => .error (.errno .ENOENT) fs := by
  rw [h.chainOf_eq ht]
  exact findNode_run (h.object t ht).chain (h.near t) (h.fuel t)

/-- A path whose nodes are all directories is looked up from directory to directory. -/
theorem walkPath_spec (h : Inv fs l) (hb : Reach fs b)
    (hrun : walkPath parts (b, fs.nodeAt b) nodes fs = .ok (ns, res) fs')
    (hdirs : ∀ n ∈ ns, n.2.isDir = true) :
    ns = nodes ++ (follow fs b (parts.filter fun part => !part.isEmpty)).1.map
        (fun b => (b, fs.nodeAt b)) ∧
      res = found fs (follow fs b (parts.filter fun part => !part.isEmpty)).2 := by
  induction parts generalizing b nodes with
  | nil =>
    cases hrun
    exact ⟨by simp [follow], rfl⟩
  | cons part parts ih =>
    by_cases hp : part.isEmpty = true
    · rw [walkPath_skip hp] at hrun
      rw [List.filter_cons_of_neg (by simp [hp])]
      exact ih hb hrun
    · rw [walkPath_part hp] at hrun
      rw [List.filter_cons_of_pos (by simp [hp]), follow]
      dsimp only at hrun
      rw [h.findNode_lookup (h.reach hb)] at hrun
      cases hl : lookup fs part (children fs (chainOf fs b)) with
      | none =>
        rw [hl] at hrun
        cases hrun
        exact ⟨rfl, rfl⟩
      | some c =>
        rw [hl] at hrun
        have hmem : (b, fs.nodeAt b) ∈ ns :=
          (walkPath_extends hrun).subset (List.mem_append_right _ (List.mem_singleton_self _))
        have hc : Reach fs c := .child hb (hdirs _ hmem) (List.mem_of_find?_eq_some hl)
        obtain ⟨hns, hres⟩ := ih hc hrun
        refine ⟨?_, hres⟩
        rw [hns, List.append_assoc]
        rfl

/-- A path through directories is looked up to its end or to the first missing part. -/
theorem walkPath_run (h : Inv fs l) (hb : Reach fs b)
    (hdirs : ∀ x ∈ (follow fs b (parts.filter fun part => !part.isEmpty)).1,
      (fs.nodeAt x).isDir = true) :
    walkPath parts (b, fs.nodeAt b) nodes fs =
      .ok (nodes ++ (follow fs b (parts.filter fun part => !part.isEmpty)).1.map
        (fun b => (b, fs.nodeAt b)), found fs (follow fs b (parts.filter fun part =>
          !part.isEmpty)).2) fs := by
  induction parts generalizing b nodes with
  | nil => simp [walkPath, follow, found, pure, EStateM.pure]
  | cons part parts ih =>
    by_cases hp : part.isEmpty = true
    · rw [List.filter_cons_of_neg (by simp [hp])] at hdirs ⊢
      rw [walkPath_skip hp]
      exact ih hb hdirs
    · rw [List.filter_cons_of_pos (by simp [hp]), follow] at hdirs ⊢
      rw [walkPath_part hp]
      dsimp only
      rw [h.findNode_lookup (h.reach hb)]
      cases hl : lookup fs part (children fs (chainOf fs b)) with
      | none => rfl
      | some c =>
        rw [hl] at hdirs
        dsimp only at hdirs ⊢
        have hc : Reach fs c := .child hb (hdirs b (by simp)) (List.mem_of_find?_eq_some hl)
        rw [ih hc fun x hx => hdirs x (by simp [hx]), List.append_assoc]
        rfl

theorem pathNodes_root {path : String} (h : Inv fs l) :
    pathNodes path fs = walkPath (splitPath path) (1, fs.nodeAt 1) [] fs := by
  rw [pathNodes, bind_ok get_run, h.base.root, bind_ok (node_run (h.within_head h.rootChain))]

theorem pathNodes_run {path : String} (h : Inv fs l)
    (hdirs : ∀ x ∈ (follow fs 1 (partsOf path)).1, (fs.nodeAt x).isDir = true) :
    pathNodes path fs = .ok ((follow fs 1 (partsOf path)).1.map (fun b => (b, fs.nodeAt b)),
      found fs (follow fs 1 (partsOf path)).2) fs := by
  rw [h.pathNodes_root, h.walkPath_run h.reach_root hdirs]
  rfl

theorem pathNodes_spec {path : String} (h : Inv fs l)
    (hrun : pathNodes path fs = .ok (ns, res) fs') (hdirs : ∀ n ∈ ns, n.2.isDir = true) :
    ns = (follow fs 1 (partsOf path)).1.map (fun b => (b, fs.nodeAt b)) ∧
      res = found fs (follow fs 1 (partsOf path)).2 := by
  rw [h.pathNodes_root] at hrun
  exact h.walkPath_spec h.reach_root hrun hdirs

end Inv

theorem follow_reach (hb : Reach fs b) (hdirs : ∀ x ∈ (follow fs b parts).1, (fs.nodeAt x).isDir = true) :
    (∀ x ∈ (follow fs b parts).1, Reach fs x) ∧ ∀ c, (follow fs b parts).2 = some c → Reach fs c := by
  induction parts generalizing b with
  | nil =>
    refine ⟨by simp [follow], fun c hc => ?_⟩
    cases hc
    exact hb
  | cons part parts ih =>
    rw [follow] at hdirs ⊢
    cases hl : lookup fs part (children fs (chainOf fs b)) with
    | none =>
      refine ⟨fun x hx => ?_, fun c hc => nomatch hc⟩
      obtain rfl : x = b := by simpa using hx
      exact hb
    | some c =>
      rw [hl] at hdirs
      dsimp only at hdirs ⊢
      have hc : Reach fs c := .child hb (hdirs b (by simp)) (List.mem_of_find?_eq_some hl)
      obtain ⟨hall, hend⟩ := ih hc fun x hx => hdirs x (by simp [hx])
      refine ⟨fun x hx => ?_, hend⟩
      rcases List.mem_cons.mp hx with rfl | hx
      · exact hb
      · exact hall x hx

/-- The block a path leads to is an entry of the last directory passed. -/
theorem follow_last (h : (follow fs b parts).2 = some c) (hd : (follow fs b parts).1.getLast? = some d) :
    ∃ part, parts.getLast? = some part ∧ lookup fs part (children fs (chainOf fs d)) = some c := by
  induction parts generalizing b with
  | nil => cases hd
  | cons part parts ih =>
    rw [follow] at h hd
    cases hl : lookup fs part (children fs (chainOf fs b)) with
    | none =>
      rw [hl] at h
      cases h
    | some e =>
      rw [hl] at h hd
      dsimp only at h hd
      cases parts with
      | nil =>
        obtain rfl : e = c := by simpa [follow] using h
        obtain rfl : b = d := by simpa [follow] using hd
        exact ⟨part, rfl, hl⟩
      | cons part' parts =>
        have hne : (follow fs e (part' :: parts)).1 ≠ [] := by
          rw [follow]
          split
          · exact List.cons_ne_nil _ _
          · exact List.cons_ne_nil _ _
        have hd' : (follow fs e (part' :: parts)).1.getLast? = some d := by
          rw [← hd]
          cases hx : (follow fs e (part' :: parts)).1 with
          | nil => exact (hne hx).elim
          | cons y ys => rw [List.getLast?_cons_cons]
        obtain ⟨q, hq, hlook⟩ := ih h hd'
        exact ⟨q, by rw [List.getLast?_cons_cons, hq], hlook⟩

end Origel.RedoxFs
