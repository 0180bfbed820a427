import Origel.RedoxFs.Extents

/-! Nodes as a memory of their own, the `next` chains through it, and what the operations that walk
a chain do there. -/
namespace Origel.RedoxFs

open Origel.Lib

variable {fs fs' fs'' : FileSystem} {b c p block length : Nat} {n : Node} {cs : List Nat}
  {es : List Extent} {name : String}

/-- Extents that a node can hold. -/
structure ValidExtents (es : List Extent) : Prop where
  count : es.length = 15
  fields : ∀ e ∈ es, e.block < 2 ^ 64 ∧ e.length < 2 ^ 64

theorem Node.Valid.setExtents (h : n.Valid) (he : ValidExtents es) :
    Node.Valid { n with extents := es } :=
  ⟨h.mode, h.uid, h.gid, h.name, h.parent, h.next, he.count, he.fields⟩

theorem Node.Valid.setNext (h : n.Valid) (hb : b < 2 ^ 64) : Node.Valid { n with next := b } :=
  ⟨h.mode, h.uid, h.gid, h.name, h.parent, hb, h.count, h.extents⟩

namespace FileSystem

/-- The bytes from the start of a block on. -/
def bytesAt (fs : FileSystem) (b n : Nat) : List UInt8 := load fs.disk.bytes (512 * (fs.block + b)) n

def sector (fs : FileSystem) (b : Nat) : List UInt8 := fs.bytesAt b 512

/-- The node a block holds. -/
def nodeAt (fs : FileSystem) (b : Nat) : Node := Node.decode (fs.sector b)

/-- What `node` reads at a block number, which may lead around the end of the disk. -/
def nodeRead (fs : FileSystem) (b : Nat) : Node := Node.decode (fs.readBlock b 512)

def setBytes (fs : FileSystem) (m : Nat → UInt8) : FileSystem :=
  { fs with disk := { fs.disk with bytes := m } }

def setBlock (fs : FileSystem) (b : Nat) (buf : List UInt8) : FileSystem :=
  fs.setBytes (store fs.disk.bytes (512 * (fs.block + b)) buf)

def writeNodeAt (fs : FileSystem) (b : Nat) (n : Node) : FileSystem := fs.setBlock b n.encode

/-- A block whose place on the disk is found without a wrap. -/
def Within (fs : FileSystem) (b : Nat) : Prop := 512 * (fs.block + b) < 2 ^ 64

def freeNode (fs : FileSystem) : Node := fs.nodeAt fs.header.2.free

def setExtents (fs : FileSystem) (c : Nat) (es : List Extent) : FileSystem :=
  fs.writeNodeAt c { fs.nodeAt c with extents := es }

/-- A fresh node `b` hung behind the node `c`. -/
def link (fs : FileSystem) (c b : Nat) : FileSystem :=
  (fs.writeNodeAt c { fs.nodeAt c with next := b }).writeNodeAt b Node.default

/-- The two file systems differ at most in the sectors of `T`. -/
structure Agree (T : Nat → Prop) (fs fs' : FileSystem) : Prop where
  block : fs'.block = fs.block
  header : fs'.header = fs.header
  size : fs'.disk.size = fs.disk.size
  sector : ∀ b, ¬T b → fs'.sector b = fs.sector b

theorem nodeAt_eq (fs : FileSystem) (b : Nat) : fs.nodeAt b = Node.decode (fs.sector b) := rfl

theorem length_sector (fs : FileSystem) (b : Nat) : (fs.sector b).length = 512 := length_load ..

theorem nodeAt_valid (fs : FileSystem) (b : Nat) : (fs.nodeAt b).Valid :=
  Node.valid_decode (length_sector fs b)

theorem readBlock_of_within (h : fs.Within b) (n : Nat) :
    fs.readBlock b n = fs.bytesAt b n := by
  have hsum : fs.block + b < 2 ^ 64 := by
    unfold Within at h
    omega
  have hplace : 512 * (fs.block + b) < 2 ^ 64 := h
  rw [readBlock, Disk.readAt, wrap64_of_lt hsum, wrap64_of_lt hplace, bytesAt]

theorem nodeRead_of_within (h : fs.Within b) : fs.nodeRead b = fs.nodeAt b := by
  rw [nodeRead, readBlock_of_within h, nodeAt, sector]

theorem writeBlock_of_within (h : fs.Within b) (buf : List UInt8) :
    fs.writeBlock b buf = fs.setBlock b buf := by
  have hsum : fs.block + b < 2 ^ 64 := by
    unfold Within at h
    omega
  have hplace : 512 * (fs.block + b) < 2 ^ 64 := h
  rw [writeBlock, Disk.writeAt, wrap64_of_lt hsum, wrap64_of_lt hplace]
  rfl

theorem Within.setBytes (h : fs.Within b) (m : Nat → UInt8) : (fs.setBytes m).Within b := h

theorem Within.setBlock (h : fs.Within b) (buf : List UInt8) : (fs.setBlock c buf).Within b := h

theorem Within.setExtents (h : fs.Within b) (es : List Extent) : (fs.setExtents c es).Within b := h

theorem Within.link (h : fs.Within b) (d : Nat) : (fs.link c d).Within b := h

theorem sector_setBlock {buf : List UInt8} (h : c < b ∨ b + (buf.length + 511) / 512 ≤ c) :
    (fs.setBlock b buf).sector c = fs.sector c := by
  have hb : (fs.setBlock b buf).block = fs.block := rfl
  apply load_store_disjoint
  omega

theorem sector_setBlock_self {buf : List UInt8} (h : buf.length = 512) :
    (fs.setBlock b buf).sector b = buf := by
  have hs := load_store_same fs.disk.bytes (512 * (fs.block + b)) buf
  rwa [h] at hs

theorem nodeAt_writeNodeAt (hn : n.Valid) :
    (fs.writeNodeAt b n).nodeAt = Function.update fs.nodeAt b n := by
  funext c
  by_cases hc : c = b
  · subst hc
    rw [Function.update_self, nodeAt_eq, writeNodeAt, sector_setBlock_self (Node.length_encode hn)]
    exact Node.decode_encode hn
  · rw [Function.update_of_ne hc, nodeAt_eq, writeNodeAt, sector_setBlock]
    · rfl
    · have := Node.length_encode hn
      omega

theorem nodeAt_setExtents (he : ValidExtents es) :
    (fs.setExtents c es).nodeAt = Function.update fs.nodeAt c { fs.nodeAt c with extents := es } :=
  nodeAt_writeNodeAt ((nodeAt_valid fs c).setExtents he)

theorem nodeAt_link (hb : b < 2 ^ 64) : (fs.link c b).nodeAt =
    Function.update (Function.update fs.nodeAt c { fs.nodeAt c with next := b }) b Node.default := by
  rw [link, nodeAt_writeNodeAt Node.valid_default,
    nodeAt_writeNodeAt ((nodeAt_valid fs c).setNext hb)]

/-- Writing a node back changes nothing. -/
theorem writeNodeAt_nodeAt (fs : FileSystem) (b : Nat) : fs.writeNodeAt b (fs.nodeAt b) = fs := by
  have he : (fs.nodeAt b).encode = fs.sector b := Node.encode_decode (length_sector fs b)
  have hs := store_load_self fs.disk.bytes (512 * (fs.block + b)) 512
  rw [writeNodeAt, he]
  rw [setBlock, sector, bytesAt, hs]
  rfl

namespace Agree

variable {T U : Nat → Prop}

theorem refl (T : Nat → Prop) (fs : FileSystem) : Agree T fs fs := ⟨rfl, rfl, rfl, fun _ _ => rfl⟩

theorem trans (h : Agree T fs fs') (h' : Agree T fs' fs'') : Agree T fs fs'' where
  block := h'.block.trans h.block
  header := h'.header.trans h.header
  size := h'.size.trans h.size
  sector b hb := (h'.sector b hb).trans (h.sector b hb)

theorem mono (h : Agree T fs fs') (hT : ∀ b, T b → U b) : Agree U fs fs' :=
  ⟨h.block, h.header, h.size, fun b hb => h.sector b fun ht => hb (hT b ht)⟩

theorem nodeAt (h : Agree T fs fs') (hb : ¬T b) : fs'.nodeAt b = fs.nodeAt b := by
  rw [nodeAt_eq, nodeAt_eq, h.sector b hb]

theorem setBlock {buf : List UInt8} (h : ∀ c, b ≤ c → c < b + (buf.length + 511) / 512 → T c) :
    Agree T fs (fs.setBlock b buf) where
  block := rfl
  header := rfl
  size := rfl
  sector c hc := by
    apply sector_setBlock
    by_contra hin
    exact hc (h c (by omega) (by omega))

theorem writeNodeAt (hn : n.Valid) (hb : T b) : Agree T fs (fs.writeNodeAt b n) := by
  apply Agree.setBlock
  intro c hlo hhi
  have := Node.length_encode hn
  have hc : c = b := by omega
  rwa [hc]

theorem setExtents (he : ValidExtents es) (hc : T c) : Agree T fs (fs.setExtents c es) :=
  writeNodeAt ((nodeAt_valid fs c).setExtents he) hc

theorem link (hb : b < 2 ^ 64) (hT : T c ∧ T b) : Agree T fs (fs.link c b) :=
  (writeNodeAt ((nodeAt_valid fs c).setNext hb) hT.1).trans
    (writeNodeAt Node.valid_default hT.2)

end Agree

end FileSystem

open FileSystem

/-- `cs` are the blocks met from `b` on along `next`. -/
def Chain (nodes : Nat → Node) : Nat → List Nat → Prop
  | b, [] => b = 0
  | b, c :: cs => c = b ∧ b ≠ 0 ∧ Chain nodes (nodes b).next cs

namespace Chain

variable {nodes nodes' : Nat → Node} {cs' : List Nat}

theorem congr (h : Chain nodes b cs) (hn : ∀ c ∈ cs, (nodes' c).next = (nodes c).next) :
    Chain nodes' b cs := by
  induction cs generalizing b with
  | nil => exact h
  | cons c cs ih =>
    obtain ⟨rfl, h0, hc⟩ := h
    refine ⟨rfl, h0, ?_⟩
    rw [hn c (by simp)]
    exact ih hc fun d hd => hn d (by simp [hd])

theorem unique (h : Chain nodes b cs) (h' : Chain nodes b cs') : cs = cs' := by
  induction cs generalizing b cs' with
  | nil =>
    cases cs' with
    | nil => rfl
    | cons c' cs' => exact (h'.2.1 h).elim
  | cons c cs ih =>
    obtain ⟨rfl, h0, hc⟩ := h
    cases cs' with
    | nil => exact (h0 h').elim
    | cons c' cs' =>
      obtain ⟨rfl, -, hc'⟩ := h'
      rw [ih hc hc']

theorem ne_zero (h : Chain nodes b cs) (hc : c ∈ cs) : c ≠ 0 := by
  induction cs generalizing b with
  | nil => cases hc
  | cons d cs ih =>
    obtain ⟨rfl, h0, ht⟩ := h
    rcases List.mem_cons.mp hc with rfl | hc
    · exact h0
    · exact ih ht hc

/-- What follows a node of a chain is the chain from that node on. -/
theorem suffix {pre : List Nat} (h : Chain nodes b (pre ++ c :: cs)) : Chain nodes c (c :: cs) := by
  induction pre generalizing b with
  | nil =>
    obtain ⟨rfl, h0, hc⟩ := h
    exact ⟨rfl, h0, hc⟩
  | cons d pre ih => exact ih h.2.2

theorem next_last {pre : List Nat} (h : Chain nodes b (pre ++ [c])) : (nodes c).next = 0 :=
  h.suffix.2.2

/-- The last node is made to point to a node without successor. -/
theorem extend {pre : List Nat} {d : Nat} (h : Chain nodes b (pre ++ [c])) (hd : d ≠ 0)
    (hpre : ∀ x ∈ pre, (nodes' x).next = (nodes x).next) (hc : (nodes' c).next = d)
    (hnext : (nodes' d).next = 0) : Chain nodes' b (pre ++ [c] ++ [d]) := by
  induction pre generalizing b with
  | nil =>
    obtain ⟨rfl, h0, -⟩ := h
    exact ⟨rfl, h0, hc.symm, hc ▸ hd, by rw [hc, hnext]; rfl⟩
  | cons x pre ih =>
    obtain ⟨rfl, h0, ht⟩ := h
    refine ⟨rfl, h0, ?_⟩
    rw [hpre x (by simp)]
    exact ih ht fun y hy => hpre y (by simp [hy])

end Chain

section Runs

variable {α β : Type} {x : FsM α} {f : α → FsM β}

theorem bind_ok {a : α} (h : x fs = .ok a fs') : (x >>= f) fs = f a fs' := by
  simp [bind, EStateM.bind, h]

theorem bind_error {e : Fault} (h : x fs = .error e fs') : (x >>= f) fs = .error e fs' := by
  simp [bind, EStateM.bind, h]

theorem get_run : (get : FsM FileSystem) fs = .ok fs fs := rfl

theorem node_read : node b fs = .ok (b, fs.nodeRead b) fs := rfl

theorem node_run (h : fs.Within b) : node b fs = .ok (b, fs.nodeAt b) fs := by
  rw [node_read, nodeRead_of_within h]

theorem writeAt_run {buf : List UInt8} (h : fs.Within b) :
    writeAt b buf fs = .ok buf.length (fs.setBlock b buf) := by
  rw [← writeBlock_of_within h]
  rfl

theorem writeAt_node (h : fs.Within b) (n : Node) :
    writeAt b n.encode fs = .ok n.encode.length (fs.writeNodeAt b n) := writeAt_run h

theorem allocate_some (hw : fs.Within fs.header.2.free)
    (h : takeExtent length fs.freeNode.extents = some (b, es)) :
    allocate length fs = .ok b (fs.setExtents fs.header.2.free es) := by
  unfold allocate
  rw [bind_ok get_run, bind_ok (node_run hw)]
  simp only [show takeExtent length (fs.nodeAt fs.header.2.free).extents = _ from h]
  rw [bind_ok (writeAt_run hw)]
  rfl

theorem allocate_none (hw : fs.Within fs.header.2.free)
    (h : takeExtent length fs.freeNode.extents = none) :
    allocate length fs = .error (.errno .ENOSPC) fs := by
  unfold allocate
  rw [bind_ok get_run, bind_ok (node_run hw)]
  simp only [show takeExtent length (fs.nodeAt fs.header.2.free).extents = _ from h]
  rfl

/-- `insert_blocks` walks past the nodes that have no place. -/
theorem insertBlocksAux_walk {pre post : List Nat} (k : Nat)
    (hc : Chain fs.nodeAt p (pre ++ c :: post)) (hw : ∀ d ∈ pre, fs.Within d)
    (hpre : ∀ d ∈ pre, insertExtent block length (fs.nodeAt d).extents = none) :
    insertBlocksAux (pre.length + k) block length p fs = insertBlocksAux k block length c fs := by
  induction pre generalizing p with
  | nil =>
    obtain ⟨rfl, -⟩ := hc
    simp
  | cons d pre ih =>
    obtain ⟨rfl, h0, ht⟩ := hc
    have hn : (fs.nodeAt d).next ≠ 0 := by
      cases pre with
      | nil => exact ht.2.1
      | cons d' pre => exact ht.2.1
    rw [List.length_cons, Nat.add_right_comm, insertBlocksAux]
    simp only [h0, if_false]
    rw [bind_ok (node_run (hw d (by simp)))]
    simp only [hpre d (by simp), hn, if_false]
    exact ih ht (fun x hx => hw x (by simp [hx])) fun x hx => hpre x (by simp [hx])

theorem insertBlocksAux_placed {k : Nat} (h0 : c ≠ 0) (hw : fs.Within c)
    (he : insertExtent block length (fs.nodeAt c).extents = some es) :
    insertBlocksAux (k + 1) block length c fs = .ok () (fs.setExtents c es) := by
  rw [insertBlocksAux]
  simp only [h0, if_false]
  rw [bind_ok (node_run hw)]
  simp only [he]
  rw [bind_ok (writeAt_run hw)]
  rfl

/-- The three ways `insert_blocks` ends on a chain outside the free list. -/
inductive Inserted (fs : FileSystem) (block length : Nat) (cs : List Nat) :
    EStateM.Result Fault FileSystem Unit → Prop
  | placed {c : Nat} {es : List Extent} (hc : c ∈ cs)
      (he : insertExtent block length (fs.nodeAt c).extents = some es) :
      Inserted fs block length cs (.ok () (fs.setExtents c es))
  | extended {pre : List Nat} {c b : Nat} {es : List Extent} (hcs : cs = pre ++ [c])
      (hfull : ∀ d ∈ cs, insertExtent block length (fs.nodeAt d).extents = none)
      (hb : takeExtent 1 fs.freeNode.extents = some (b, es)) :
      Inserted fs block length cs (.ok () (((fs.setExtents fs.header.2.free es).link c b).setExtents b
        (⟨block, length⟩ :: List.replicate 14 Extent.default)))
  | full (hfull : ∀ d ∈ cs, insertExtent block length (fs.nodeAt d).extents = none)
      (hb : takeExtent 1 fs.freeNode.extents = none) :
      Inserted fs block length cs (.error (.errno .ENOSPC) fs)

theorem insertBlocks_inserted (hc : Chain fs.nodeAt p cs) (hne : cs ≠ []) (hk : cs.length < fs.fuel)
    (hfree : fs.header.2.free ∉ cs) (hw : ∀ d ∈ fs.header.2.free :: cs, fs.Within d)
    (hv : ∀ b es, takeExtent 1 fs.freeNode.extents = some (b, es) →
      b ≠ 0 ∧ fs.Within b ∧ ValidExtents es) :
    Inserted fs block length cs (insertBlocks block length p fs) := by
  change Inserted fs block length cs (insertBlocksAux fs.fuel block length p fs)
  by_cases hall : ∀ d ∈ cs, insertExtent block length (fs.nodeAt d).extents = none
  · obtain ⟨pre, c, rfl⟩ : ∃ pre c, cs = pre ++ [c] :=
      ⟨_, _, (List.dropLast_append_getLast hne).symm⟩
    obtain ⟨k, hk⟩ : ∃ k, fs.fuel = pre.length + (k + 2) :=
      ⟨fs.fuel - pre.length - 2, by simp at hk; omega⟩
    have hn := hc.next_last
    have h0 := hc.ne_zero (c := c) (by simp)
    have hwc : fs.Within c := hw c (by simp)
    have hwf : fs.Within fs.header.2.free := hw _ (by simp)
    rw [hk, insertBlocksAux_walk (k + 2) hc (fun d hd => hw d (by simp [hd]))
      fun d hd => hall d (by simp [hd]), insertBlocksAux]
    simp only [h0, if_false]
    rw [bind_ok (node_run hwc)]
    simp only [hall c (by simp), hn, if_true]
    cases hb : takeExtent 1 fs.freeNode.extents with
    | none =>
      rw [bind_error (allocate_none hwf hb)]
      exact .full hall hb
    | some r =>
      obtain ⟨b, es⟩ := r
      obtain ⟨hb0, hwb, hval⟩ := hv b es hb
      rw [bind_ok (allocate_some hwf hb), bind_ok (writeAt_run (hwc.setExtents es)),
        bind_ok (writeAt_run ((hwb.setExtents es).setBlock _))]
      have hnode : (fs.setExtents fs.header.2.free es).nodeAt c = fs.nodeAt c := by
        rw [nodeAt_setExtents hval, Function.update_of_ne]
        rintro rfl
        exact hfree (by simp)
      have hlink : ((fs.setExtents fs.header.2.free es).setBlock c
          { fs.nodeAt c with next := b }.encode).setBlock b Node.default.encode =
          (fs.setExtents fs.header.2.free es).link c b := by
        rw [link, hnode]
        rfl
      have hfresh : ((fs.setExtents fs.header.2.free es).link c b).nodeAt b = Node.default := by
        rw [link, nodeAt_writeNodeAt Node.valid_default, Function.update_self]
      simp only [hlink]
      have hplace : insertExtent block length
          (((fs.setExtents fs.header.2.free es).link c b).nodeAt b).extents =
          some (⟨block, length⟩ :: List.replicate 14 Extent.default) := by
        rw [hfresh]
        rfl
      rw [insertBlocksAux_placed hb0 ((hwb.setExtents es).link b) hplace]
      exact .extended rfl hall hb
  · push Not at hall
    -- the first node with a place
    obtain ⟨pre, c, post, rfl, hpre, hin⟩ :
        ∃ pre c post, cs = pre ++ c :: post ∧
          (∀ d ∈ pre, insertExtent block length (fs.nodeAt d).extents = none) ∧
          insertExtent block length (fs.nodeAt c).extents ≠ none := by
      clear hc hk hfree hw
      induction cs with
      | nil => exact (hne rfl).elim
      | cons c cs ih =>
        by_cases hin : insertExtent block length (fs.nodeAt c).extents = none
        · have hcs : ∃ d ∈ cs, insertExtent block length (fs.nodeAt d).extents ≠ none := by
            obtain ⟨d, hd, hd'⟩ := hall
            rcases List.mem_cons.mp hd with rfl | hd
            · exact (hd' hin).elim
            · exact ⟨d, hd, hd'⟩
          obtain ⟨pre, d, post, rfl, hpre, hd⟩ := ih (by rintro rfl; simp at hcs) hcs
          exact ⟨c :: pre, d, post, rfl, by simpa [hin] using hpre, hd⟩
        · exact ⟨[], c, cs, rfl, by simp, hin⟩
    obtain ⟨es, he⟩ := Option.ne_none_iff_exists'.mp hin
    obtain ⟨k, hk⟩ : ∃ k, fs.fuel = pre.length + (k + 1) :=
      ⟨fs.fuel - pre.length - 1, by simp at hk; omega⟩
    rw [hk, insertBlocksAux_walk (k + 1) hc (fun d hd => hw d (by simp [hd])) hpre,
      insertBlocksAux_placed (hc.ne_zero (by simp)) (hw c (by simp)) he]
    exact .placed (by simp) he

end Runs

end Origel.RedoxFs
