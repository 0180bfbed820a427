import Origel.RedoxFs.Requests

/-! Requests that nothing stands against, those of the superuser above all: what they write, in
full. -/
namespace Origel.RedoxFs

open Origel.Lib FileSystem

variable {fs fs' : FileSystem} {s s' : FileScheme} {b c d p mode uid gid flags : Nat}
  {l l' : Layout} {name path : String} {url : List UInt8} {ds : List Nat}

/-- The superuser may do everything. -/
theorem Node.permission_root (n : Node) (gid : Nat) {op : Nat} (hop : 7 &&& op = op) :
    n.permission 0 gid op = true := by
  rw [Node.permission]
  simp only [if_true, decide_eq_true_eq]
  rw [Nat.and_or_distrib_right, hop]
  apply Nat.eq_of_testBit_eq
  intro i
  rw [Nat.testBit_or, Nat.testBit_and]
  cases op.testBit i <;> simp

theorem Grants.root (n : Node) (flags gid : Nat) : Grants n flags 0 gid :=
  ⟨fun _ => n.permission_root gid (by decide), fun _ => n.permission_root gid (by decide)⟩

namespace FileScheme

theorem checkPath_run (ns : List (Nat × Node)) (h : ∀ n ∈ ns, n.2.isDir = true ∧
    n.2.permission uid gid Node.MODE_EXEC = true) : checkPath uid gid ns s = .ok () s := by
  induction ns with
  | nil => rfl
  | cons n ns ih =>
    obtain ⟨hd, hp⟩ := h n (by simp)
    rw [checkPath]
    simp only [hp, hd, Bool.not_true, Bool.false_eq_true, if_false]
    exact ih fun m hm => h m (by simp [hm])

theorem checkAccess_run {n : Node} (h : Grants n flags uid gid) :
    checkAccess n flags uid gid s = .ok () s := by
  have hno : ∀ {c : Prop} {b : Bool}, (c → b = true) → ¬(c ∧ (!b) = true) := by
    rintro c b hb ⟨hc, hn⟩
    rw [hb hc] at hn
    cases hn
  rw [checkAccess]
  simp only [hno h.read, hno h.write, if_false]
  rfl

theorem path_run {o : Option Nat} (h : Inv s.fs l) (hf : follow s.fs 1 (partsOf path) = (ds, o))
    (hdirs : ∀ d ∈ ds, (s.fs.nodeAt d).isDir = true) : onFs (pathNodes path) s =
      .ok (ds.map fun b => (b, s.fs.nodeAt b), found s.fs o) s := by
  have hrun : pathNodes path s.fs = .ok ((follow s.fs 1 (partsOf path)).1.map (fun b => (b, s.fs.nodeAt b)),
      found s.fs (follow s.fs 1 (partsOf path)).2) s.fs :=
    h.pathNodes_run (by rw [hf]; exact hdirs)
  rw [hf] at hrun
  exact onFs_ok hrun

/-- A path is looked up through directories that may be searched. -/
theorem walk_run {β : Type} {o : Option Nat}
    {g : List (Nat × Node) → Except Errno (Nat × Node) → SchemeM β} (h : Inv s.fs l)
    (hw : Walked s.fs uid gid path ds o) : (do
      let x ← onFs (pathNodes path)
      checkPath uid gid x.1
      g x.1 x.2) s = g (ds.map fun b => (b, s.fs.nodeAt b)) (found s.fs o) s := by
  have hcheck : ∀ n ∈ ds.map fun b => (b, s.fs.nodeAt b), n.2.isDir = true ∧
      n.2.permission uid gid Node.MODE_EXEC = true := by
    intro n hn
    obtain ⟨d, hd, rfl⟩ := List.mem_map.mp hn
    exact ⟨hw.dirs d hd, hw.exec d hd⟩
  rw [bind_of_ok (path_run h hw.leads hw.dirs)]
  exact bind_of_ok (checkPath_run _ hcheck)

/-- `open` makes what the path does not lead to. -/
theorem openUrl_makes {n : Node} (h : Inv s.fs l)
    (hw : Walked s.fs uid gid (urlPath url) ds none) (hd : ds.getLast? = some d)
    (hwrite : (s.fs.nodeAt d).permission uid gid Node.MODE_WRITE = true)
    (hname : (lastPart (urlPath url)).isEmpty = false) (hcreat : flags &&& O_CREAT = O_CREAT)
    (hok : createNode (madeMode flags) (lastPart (urlPath url)) d s.fs = .ok (b, n) fs')
    (hwb : fs'.Within b) (hgr : Grants { n with uid := uid, gid := gid } flags uid gid) :
    openUrl url flags uid gid s = .ok s.nextId
      ((s.withFs (fs'.writeNodeAt b { n with uid := uid, gid := gid })).added
        (madeResource (urlPath url) b flags)) := by
  rw [openUrl_eq, walk_run h hw]
  have hmade : onFs (createNode (madeMode flags) (lastPart (urlPath url)) d) s =
      .ok (b, n) (s.withFs fs') := onFs_ok hok
  have hwritten : onFs (writeAt b ({ n with uid := uid, gid := gid } : Node).encode) (s.withFs fs') =
      .ok ({ n with uid := uid, gid := gid } : Node).encode.length
        (s.withFs (fs'.writeNodeAt b { n with uid := uid, gid := gid })) :=
    onFs_ok (writeAt_node hwb _)
  have hcreate : openCreate (urlPath url) (ds.map fun b => (b, s.fs.nodeAt b)) flags uid gid s =
      .ok (madeResource (urlPath url) b flags)
        (s.withFs (fs'.writeNodeAt b { n with uid := uid, gid := gid })) := by
    rw [openCreate]
    simp only [hname, Bool.false_eq_true, if_false, List.getLast?_map, hd, Option.map_some, hwrite,
      Bool.not_true]
    refine (bind_of_ok hmade).trans ?_
    refine (bind_of_ok hwritten).trans ?_
    refine (bind_of_ok (checkAccess_run hgr)).trans ?_
    rw [madeResource]
    split
    · rfl
    · rfl
  unfold openNode
  simp only [found, true_and, hcreat, if_true]
  exact bind_of_ok hcreate

theorem walked_root {o : Option Nat} (hf : follow fs 1 (partsOf path) = (ds, o))
    (hdirs : ∀ d ∈ ds, (fs.nodeAt d).isDir = true) : Walked fs 0 gid path ds o :=
  ⟨hf, hdirs, fun _ _ => Node.permission_root _ gid (by decide)⟩

/-- The superuser makes what the path does not lead to. -/
theorem openUrl_made {n : Node} (h : Inv s.fs l)
    (hf : follow s.fs 1 (partsOf (urlPath url)) = (ds, none))
    (hdirs : ∀ d ∈ ds, (s.fs.nodeAt d).isDir = true) (hd : ds.getLast? = some d)
    (hname : (lastPart (urlPath url)).isEmpty = false) (hcreat : flags &&& O_CREAT = O_CREAT)
    (hown : n.uid = 0 ∧ n.gid = 0)
    (hok : createNode (madeMode flags) (lastPart (urlPath url)) d s.fs = .ok (b, n) fs')
    (hnode : fs'.nodeAt b = n) (hwb : fs'.Within b) :
    openUrl url flags 0 0 s =
      .ok s.nextId ((s.withFs fs').added (madeResource (urlPath url) b flags)) := by
  have hsame : ({ n with uid := 0, gid := 0 } : Node) = n := by
    obtain ⟨mode, uid, gid, name, parent, next, extents⟩ := n
    obtain ⟨rfl, rfl⟩ := hown
    rfl
  have hself : fs'.writeNodeAt b n = fs' := by
    rw [← hnode]
    exact FileSystem.writeNodeAt_nodeAt fs' b
  have hrun := openUrl_makes h (walked_root hf hdirs) hd (Node.permission_root _ 0 (by decide)) hname
    hcreat hok hwb (Grants.root _ flags 0)
  rw [hsame, hself] at hrun
  exact hrun

/-- A path of one part that the root does not list leads through the root to nothing. -/
theorem follow_absent (h : Inv fs l) (hparts : partsOf path = [name])
    (habsent : lookup fs name (listing fs (l.chain 1)) = none) :
    follow fs 1 (partsOf path) = ([1], none) := by
  rw [hparts, follow, h.chainOf_eq h.rootChain, h.children_eq h.rootDir, habsent]

/-- The superuser makes a file in the root. -/
theorem openUrl_root (h : Inv s.fs l) (hparts : partsOf (urlPath url) = [name])
    (hname : name.isEmpty = false) (hcreat : flags &&& O_CREAT = O_CREAT)
    (habsent : lookup s.fs name (listing s.fs (l.chain 1)) = none)
    (hok : createNode (madeMode flags) name 1 s.fs = .ok (b, Node.new (madeMode flags) name 1) fs')
    (hc : Created s.fs l 1 b (Node.new (madeMode flags) name 1) fs' l') :
    openUrl url flags 0 0 s =
      .ok s.nextId ((s.withFs fs').added (madeResource (urlPath url) b flags)) := by
  have hlast : lastPart (urlPath url) = name := by
    change (partsOf (urlPath url)).getLast?.getD "" = name
    rw [hparts]
    rfl
  subst hlast
  have hown : (Node.new (madeMode flags) (lastPart (urlPath url)) 1).uid = 0 ∧
      (Node.new (madeMode flags) (lastPart (urlPath url)) 1).gid = 0 := by
    rw [Node.new]
    exact ⟨rfl, rfl⟩
  refine openUrl_made h (follow_absent h hparts habsent) ?_ rfl hname hcreat hown hok hc.node
    hc.within
  intro d hd
  rw [List.mem_singleton.mp hd]
  exact h.rootDir

/-- `unlink` removes the file the path leads to. -/
theorem unlink_run (h : Inv s.fs l) (hf : follow s.fs 1 (partsOf (urlPath url)) = (ds, some b))
    (hdirs : ∀ d ∈ ds, (s.fs.nodeAt d).isDir = true) (hd : ds.getLast? = some d)
    (hfile : (s.fs.nodeAt b).isDir = false) (hname : (s.fs.nodeAt b).nameStr = some name)
    (hok : removeNode Node.MODE_FILE name d s.fs = .ok () fs') :
    unlink url 0 gid s = .ok 0 (s.withFs fs') := by
  have hcheck : ∀ n ∈ ds.map fun b => (b, s.fs.nodeAt b), n.2.isDir = true ∧
      n.2.permission 0 gid Node.MODE_EXEC = true := by
    intro n hn
    obtain ⟨d, hd, rfl⟩ := List.mem_map.mp hn
    exact ⟨hdirs d hd, Node.permission_root _ gid (by decide)⟩
  have hp : ∀ n : Node, n.permission 0 gid Node.MODE_WRITE = true :=
    fun n => n.permission_root gid (by decide)
  rw [unlink, removeUrl, bind_of_ok (path_run h hf hdirs)]
  refine (bind_of_ok (show lift _ s = .ok (b, s.fs.nodeAt b) s from rfl)).trans ?_
  refine (bind_of_ok (checkPath_run _ hcheck)).trans ?_
  simp only [List.getLast?_map, hd, Option.map_some, hp, Bool.not_true, Bool.false_eq_true, if_false,
    hfile, if_true, hname]
  exact bind_of_ok (onFs_ok hok)

end FileScheme

end Origel.RedoxFs
