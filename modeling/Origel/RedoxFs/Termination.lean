import Origel.RedoxFs.Paths

/-! Which walks end on an image whose blocks hold any bytes. -/
namespace Origel.RedoxFs

open Origel.Lib FileSystem

variable {fs fs' : FileSystem} {b c d p block length : Nat} {n : Node} {cs ds : List Nat}
  {es es' : List Extent} {α : Type}

namespace Header

def decode (bs : List UInt8) : Header where
  signature := bs.take 8
  version := ofLe ((bs.drop 8).take 8)
  uuid := (bs.drop 16).take 16
  size := ofLe ((bs.drop 32).take 8)
  root := ofLe ((bs.drop 40).take 8)
  free := ofLe ((bs.drop 48).take 8)

def valid (h : Header) : Bool := h.signature = SIGNATURE && h.version = VERSION

end Header

/-- The loop of `FileSystem::open` from a block on -/
def openFrom (disk : Disk) : Nat → Nat → Except Fault FileSystem
  | 0, _ => .error (.errno .ENOENT)
  | blocks + 1, block =>
    let header := Header.decode (disk.readAt block 512)
    -- the root and the free node are read, and nothing is asked of them
    if header.valid then .ok ⟨disk, block, (0, header)⟩ else openFrom disk blocks (block + 1)

/-- `FileSystem::open` -/
def openDisk (disk : Disk) : Except Fault FileSystem := openFrom disk 65536 0

/-- The walks may take so many steps and one. -/
def FileSystem.fueled (fs : FileSystem) (n : Nat) : FileSystem :=
  { fs with disk := { fs.disk with size := 512 * n } }

/-- With enough steps, and with any more of them, the walk does not run out of them. -/
def Terminates (x : FsM α) (fs : FileSystem) : Prop :=
  ∃ k, ∀ n, k ≤ n → ∀ fs', x (fs.fueled n) ≠ .error .crash fs'

/-- Every walk ends, whatever it is asked for. -/
structure WalksEnd (fs : FileSystem) : Prop where
  childNodes : ∀ parentBlock, Terminates (childNodes parentBlock) fs
  findNode : ∀ name parentBlock, Terminates (findNode name parentBlock) fs
  pathNodes : ∀ path, Terminates (pathNodes path) fs
  nodeExtents : ∀ block offset len, Terminates (nodeExtents block offset len) fs
  nodeLen : ∀ block, Terminates (nodeLen block) fs
  nodeSetLen : ∀ block length, Terminates (nodeSetLen block length) fs
  insertBlocks : ∀ block length parentBlock, Terminates (insertBlocks block length parentBlock) fs
  removeBlocks : ∀ block length parentBlock, Terminates (removeBlocks block length parentBlock) fs

/-- From every block, the `next` pointers lead to 0. A block number beyond the 64 bits of a byte offset
leads to the block that it wraps around to. -/
def Grounded (fs : FileSystem) : Prop := ∀ b, ∃ cs, Chain fs.nodeRead b cs

theorem fueled_fuel (fs : FileSystem) (k : Nat) : (fs.fueled k).fuel = k + 1 := by
  change 512 * k / 512 + 1 = k + 1
  omega

theorem terminates_of_chain {x : FsM α} (hc : Chain fs.nodeRead p cs)
    (h : ∀ fs₁ : FileSystem, Chain fs₁.nodeRead p cs → cs.length < fs₁.fuel → ∀ fs', x fs₁ ≠ .error .crash fs') :
    Terminates x fs := by
  refine ⟨cs.length, fun n hn => h _ hc ?_⟩
  rw [fueled_fuel]
  omega

namespace FileSystem

/-- Where a block starts on the disk -/
def place (fs : FileSystem) (b : Nat) : Nat := wrap64 (512 * wrap64 (fs.block + b))

/-- The file system with a node written to a block. -/
def nodeWrite (fs : FileSystem) (b : Nat) (n : Node) : FileSystem := fs.writeBlock b n.encode

/-- The file system with other extents in a node. -/
def relist (fs : FileSystem) (c : Nat) (es : List Extent) : FileSystem :=
  fs.nodeWrite c { fs.nodeRead c with extents := es }

theorem writeAt_write : writeAt b n.encode fs = .ok n.encode.length (fs.nodeWrite b n) := rfl

theorem nodeRead_valid (fs : FileSystem) (b : Nat) : (fs.nodeRead b).Valid :=
  Node.valid_decode (length_load ..)

theorem nodeRead_congr (h : fs.place b = fs.place c) : fs.nodeRead b = fs.nodeRead c := by
  rw [nodeRead, nodeRead, readBlock, readBlock, Disk.readAt, Disk.readAt]
  rw [place, place] at h
  rw [h]

theorem place_eq (fs : FileSystem) (b : Nat) : fs.place b = 512 * ((fs.block + b) % 2 ^ 55) := by
  have hplace : ∀ x, wrap64 (512 * x) = 512 * (x % 2 ^ 55) := fun x => Nat.mul_mod_mul_left 512 x (2 ^ 55)
  have hsum : wrap64 (fs.block + b) % 2 ^ 55 = (fs.block + b) % 2 ^ 55 :=
    Nat.mod_mod_of_dvd _ (Nat.pow_dvd_pow 2 (by omega))
  rw [place, hplace, hsum]

/-- Two blocks start at the same place, or do not overlap. -/
theorem place_cases (fs : FileSystem) (b c : Nat) :
    fs.place b = fs.place c ∨ fs.place b + 512 ≤ fs.place c ∨ fs.place c + 512 ≤ fs.place b := by
  rw [place_eq, place_eq]
  omega

end FileSystem

/-- What comes back as the `next` of a node that was written -/
theorem next_decode_encode (hname : n.name.length = 246) (hnext : n.next < 2 ^ 64) :
    (Node.decode n.encode).next = n.next := by
  have hn : ofLe (toLe 8 n.next) = n.next := ofLe_toLe (by simpa using hnext)
  obtain ⟨mode, uid, gid, name, parent, next, extents⟩ := n
  simp only [Node.decode, Node.encode] at *
  simp [List.drop_append, List.drop_of_length_le, hname, hn]

theorem length_encode_of (hname : n.name.length = 246) (hcount : n.extents.length = 15) :
    n.encode.length = 512 := by
  simp only [Node.encode, List.length_append, length_toLe, Node.length_encodeExtents, hname, hcount]

/-- What is written to a block is read from it. -/
theorem nodeRead_self (hlen : n.encode.length = 512) (h : fs.place b = fs.place c) :
    (fs.nodeWrite c n).nodeRead b = Node.decode n.encode := by
  have hload := load_store_same fs.disk.bytes (fs.place c) n.encode
  rw [hlen] at hload
  have hread : (fs.nodeWrite c n).readBlock b 512 = n.encode := by
    change load (store fs.disk.bytes (fs.place c) n.encode) (fs.place b) 512 = n.encode
    rw [h, hload]
  rw [nodeRead, hread]

/-- Writing a node sets the `next` of its own block alone, whatever its extents are. -/
theorem next_nodeWrite (hname : n.name.length = 246) (hcount : n.extents.length = 15)
    (hnext : n.next < 2 ^ 64) (b : Nat) :
    ((fs.nodeWrite c n).nodeRead b).next =
      if fs.place b = fs.place c then n.next else (fs.nodeRead b).next := by
  have hlen := length_encode_of hname hcount
  split
  · rename_i h
    rw [nodeRead_self hlen h, next_decode_encode hname hnext]
  · rename_i h
    have hread : (fs.nodeWrite c n).readBlock b 512 = fs.readBlock b 512 := by
      apply load_store_disjoint
      have := (fs.place_cases b c).resolve_left h
      rw [hlen]
      exact this
    rw [nodeRead, nodeRead, hread]

theorem next_relist (hcount : es.length = 15) (b : Nat) :
    ((fs.relist c es).nodeRead b).next = (fs.nodeRead b).next := by
  have hv := nodeRead_valid fs c
  rw [relist, next_nodeWrite (n := { fs.nodeRead c with extents := es }) hv.name hcount hv.next]
  split
  · rename_i h
    rw [nodeRead_congr h]
  · rfl

theorem chain_of_next (h : ∀ b, (fs'.nodeRead b).next = (fs.nodeRead b).next)
    (hc : Chain fs.nodeRead p cs) : Chain fs'.nodeRead p cs :=
  hc.congr fun c _ => h c

/-- The nodes of a list of blocks are read without fail. -/
theorem mapM_node_ok (fs : FileSystem) (bs : List Nat) : ∃ ns, bs.mapM node fs = .ok ns fs := by
  induction bs with
  | nil => exact ⟨[], rfl⟩
  | cons b bs ih =>
    obtain ⟨ns, hns⟩ := ih
    refine ⟨(b, fs.nodeRead b) :: ns, ?_⟩
    rw [List.mapM_cons, bind_ok node_read, bind_ok hns]
    rfl

theorem childNodesAux_ok {k : Nat} (hc : Chain fs.nodeRead p cs) (hk : cs.length < k) :
    ∃ ns, childNodesAux k p fs = .ok ns fs := by
  obtain ⟨k, rfl⟩ : ∃ k', k = k' + 1 := ⟨k - 1, by omega⟩
  induction cs generalizing p k with
  | nil =>
    obtain rfl : p = 0 := hc
    exact ⟨[], rfl⟩
  | cons c cs ih =>
    obtain ⟨rfl, h0, ht⟩ := hc
    obtain ⟨k, rfl⟩ : ∃ k', k = k' + 1 := ⟨k - 1, by simp at hk; omega⟩
    obtain ⟨ns, hns⟩ := mapM_node_ok fs (childBlocks (fs.nodeRead c))
    obtain ⟨rest, hrest⟩ := ih ht k (by simpa using hk)
    refine ⟨ns ++ rest, ?_⟩
    rw [childNodesAux]
    simp only [h0, if_false]
    rw [bind_ok node_read, bind_ok hns, bind_ok hrest]
    rfl

theorem childNodes_terminates (hc : Chain fs.nodeRead p cs) : Terminates (childNodes p) fs := by
  refine terminates_of_chain hc fun fs₁ hc₁ hk fs' h => ?_
  obtain ⟨ns, hns⟩ := childNodesAux_ok hc₁ hk
  cases hns.symm.trans h

/-- The outcome of a search -/
def sought (o : Option (Nat × Node)) (fs : FileSystem) : EStateM.Result Fault FileSystem (Nat × Node) :=
  match o with
  | some child => .ok child fs
  | none => .error (.errno .ENOENT) fs

theorem findChild_ok (name : String) (bs : List Nat) (fs : FileSystem) :
    ∃ o, ∀ n, findChild name bs (fs.fueled n) = .ok o (fs.fueled n) := by
  induction bs with
  | nil => exact ⟨none, fun _ => rfl⟩
  | cons b bs ih =>
    obtain ⟨o, ho⟩ := ih
    by_cases hb : (fs.nodeRead b).nameStr = some name
    · refine ⟨some (b, fs.nodeRead b), fun n => ?_⟩
      have hb : ((fs.fueled n).nodeRead b).nameStr = some name := hb
      rw [findChild, bind_ok node_read]
      simp only [hb, if_true]
      rfl
    · refine ⟨o, fun n => ?_⟩
      have hb : ¬((fs.fueled n).nodeRead b).nameStr = some name := hb
      rw [findChild, bind_ok node_read]
      simp only [hb, if_false]
      exact ho n

/-- What a search finds does not depend on the steps it may take, once they are enough. -/
theorem findNodeAux_finds (name : String) (hc : Chain fs.nodeRead p cs) :
    ∃ o, ∀ k n, cs.length < k → findNodeAux name k p (fs.fueled n) = sought o (fs.fueled n) := by
  induction cs generalizing p with
  | nil =>
    obtain rfl : p = 0 := hc
    refine ⟨none, fun k n hk => ?_⟩
    obtain ⟨k, rfl⟩ : ∃ k', k = k' + 1 := ⟨k - 1, by simp at hk; omega⟩
    rfl
  | cons c cs ih =>
    obtain ⟨rfl, h0, ht⟩ := hc
    obtain ⟨o, ho⟩ := ih ht
    obtain ⟨found, hfound⟩ := findChild_ok name (childBlocks (fs.nodeRead c)) fs
    refine ⟨found.or o, fun k n hk => ?_⟩
    obtain ⟨k, rfl⟩ : ∃ k', k = k' + 1 := ⟨k - 1, by simp at hk; omega⟩
    have hfind : findChild name (childBlocks ((fs.fueled n).nodeRead c)) (fs.fueled n) = _ := hfound n
    rw [findNodeAux]
    simp only [h0, if_false]
    rw [bind_ok node_read, bind_ok hfind]
    cases found with
    | some child => rfl
    | none => exact ho k n (by simpa using hk)

theorem findNode_finds (name : String) (hc : Chain fs.nodeRead p cs) :
    ∃ o, ∀ n, cs.length ≤ n → findNode name p (fs.fueled n) = sought o (fs.fueled n) := by
  obtain ⟨o, ho⟩ := findNodeAux_finds name hc
  refine ⟨o, fun n hn => ho _ n ?_⟩
  rw [fueled_fuel]
  omega

theorem findNode_terminates (name : String) (hc : Chain fs.nodeRead p cs) :
    Terminates (findNode name p) fs := by
  obtain ⟨o, ho⟩ := findNode_finds name hc
  refine ⟨cs.length, fun n hn fs' h => ?_⟩
  rw [ho n hn] at h
  cases o with
  | some child => cases h
  | none => cases h

/-- The parts of a path are looked up in an unchanged file system. -/
theorem pathNodes_terminates (h : Grounded fs) (path : String) : Terminates (pathNodes path) fs := by
  have hwalk : ∀ parts last nodes, Terminates (walkPath parts last nodes) fs := by
    intro parts
    induction parts with
    | nil =>
      intro last nodes
      refine ⟨0, fun n _ fs' hrun => ?_⟩
      cases hrun
    | cons part parts ih =>
      intro last nodes
      by_cases hp : part.isEmpty = true
      · obtain ⟨k, hk⟩ := ih last nodes
        refine ⟨k, fun n hn fs' hrun => ?_⟩
        rw [walkPath_skip hp] at hrun
        exact hk n hn fs' hrun
      · obtain ⟨cs, hc⟩ := h last.1
        obtain ⟨o, ho⟩ := findNode_finds part hc
        cases o with
        | none =>
          refine ⟨cs.length, fun n hn fs' hrun => ?_⟩
          rw [walkPath_part hp, ho n hn] at hrun
          cases hrun
        | some child =>
          obtain ⟨k, hk⟩ := ih child (nodes ++ [last])
          refine ⟨max k cs.length, fun n hn fs' hrun => ?_⟩
          rw [walkPath_part hp, ho n (le_of_max_le_right hn)] at hrun
          exact hk n (le_of_max_le_left hn) fs' hrun
  obtain ⟨k, hk⟩ := hwalk (splitPath path) (fs.header.2.root, fs.nodeRead fs.header.2.root) []
  exact ⟨k, hk⟩

theorem nodeExtentsAux_ok {k : Nat} (offset len : Nat) (acc : List Extent) (hc : Chain fs.nodeRead p cs)
    (hk : cs.length < k) : ∃ es, nodeExtentsAux k p offset len acc fs = .ok es fs := by
  obtain ⟨k, rfl⟩ : ∃ k', k = k' + 1 := ⟨k - 1, by omega⟩
  induction cs generalizing p k offset len acc with
  | nil =>
    obtain rfl : p = 0 := hc
    exact ⟨acc, rfl⟩
  | cons c cs ih =>
    obtain ⟨rfl, h0, ht⟩ := hc
    obtain ⟨k, rfl⟩ : ∃ k', k = k' + 1 := ⟨k - 1, by simp at hk; omega⟩
    rw [nodeExtentsAux]
    simp only [h0, if_false]
    rw [bind_ok node_read]
    generalize pushExtents (fs.nodeRead c).extents offset len acc = t
    obtain ⟨offset', len', acc'⟩ := t
    by_cases hl : len' > 0
    · simp only [hl, if_true]
      exact ih offset' len' acc' ht k (by simpa using hk)
    · simp only [hl, if_false]
      exact ⟨acc', rfl⟩

theorem nodeExtents_terminates {offset len : Nat} (hc : Chain fs.nodeRead p cs) :
    Terminates (nodeExtents p offset len) fs := by
  refine terminates_of_chain hc fun fs₁ hc₁ hk fs' h => ?_
  obtain ⟨es, hes⟩ := nodeExtentsAux_ok offset len [] hc₁ hk
  cases hes.symm.trans h

theorem nodeLenAux_succ {k : Nat} (h0 : p ≠ 0) : nodeLenAux (k + 1) p fs =
    (if (fs.nodeRead p).next > 0 then do
      return ((fs.nodeRead p).extents.map Extent.length).sum + (← nodeLenAux k (fs.nodeRead p).next)
    else pure ((fs.nodeRead p).extents.map Extent.length).sum : FsM Nat) fs := by
  rw [nodeLenAux]
  simp only [h0, if_false]
  rw [bind_ok node_read]

theorem nodeLenAux_ok {k : Nat} (hc : Chain fs.nodeRead p (c :: cs)) (hk : cs.length + 1 < k) :
    ∃ n, nodeLenAux k p fs = .ok n fs := by
  obtain ⟨k, rfl⟩ : ∃ k', k = k' + 1 := ⟨k - 1, by omega⟩
  induction cs generalizing p c k with
  | nil =>
    obtain ⟨rfl, h0, hnext⟩ := hc
    have hnext : ¬(fs.nodeRead c).next > 0 := Nat.not_lt_of_le (Nat.le_of_eq hnext)
    rw [nodeLenAux_succ h0, if_neg hnext]
    exact ⟨_, rfl⟩
  | cons d cs ih =>
    obtain ⟨rfl, h0, ht⟩ := hc
    obtain ⟨k, rfl⟩ : ∃ k', k = k' + 1 := ⟨k - 1, by simp at hk; omega⟩
    obtain ⟨n, hn⟩ := ih ht k (by simpa using hk)
    rw [nodeLenAux_succ h0, if_pos (Nat.pos_of_ne_zero ht.2.1), bind_ok hn]
    exact ⟨_, rfl⟩

theorem nodeLen_terminates (hc : Chain fs.nodeRead p cs) : Terminates (nodeLen p) fs := by
  refine terminates_of_chain hc fun fs₁ hc₁ hk fs' h => ?_
  cases cs with
  | nil =>
    obtain rfl : p = 0 := hc
    cases h
  | cons c cs =>
    obtain ⟨n, hn⟩ := nodeLenAux_ok hc₁ hk
    cases hn.symm.trans h

theorem length_truncateExtents (es : List Extent) (length : Nat) :
    (truncateExtents length es).2.1.length = es.length :=
  (truncateExtents_shrunk es length).length_eq.symm

theorem nodeSetLenAux_reads {k rest : Nat} {changed : Bool} (h0 : c ≠ 0)
    (ht : truncateExtents length (fs.nodeRead c).extents = (changed, es, rest)) :
    nodeSetLenAux (k + 1) c length fs =
      (if (fs.nodeRead c).next > 0 then nodeSetLenAux k (fs.nodeRead c).next rest else pure () : FsM Unit)
        (if changed then fs.relist c es else fs) := by
  rw [nodeSetLenAux]
  simp only [h0, if_false]
  rw [bind_ok node_read]
  simp only [ht]
  cases changed with
  | true =>
    simp only [if_true]
    rw [bind_ok writeAt_write]
    rfl
  | false => simp only [Bool.false_eq_true, if_false]

/-- Cutting a file changes no link. -/
theorem nodeSetLenAux_ne_crash {k : Nat} (hc : Chain fs.nodeRead p cs) (hk : cs.length < k) :
    nodeSetLenAux k p length fs ≠ .error .crash fs' := by
  obtain ⟨k, rfl⟩ : ∃ k', k = k' + 1 := ⟨k - 1, by omega⟩
  induction cs generalizing p k length fs with
  | nil =>
    obtain rfl : p = 0 := hc
    intro h
    cases h
  | cons c cs ih =>
    obtain ⟨rfl, h0, ht⟩ := hc
    obtain ⟨k, rfl⟩ : ∃ k', k = k' + 1 := ⟨k - 1, by simp at hk; omega⟩
    have hcount := (length_truncateExtents (fs.nodeRead c).extents length).trans (nodeRead_valid fs c).count
    generalize ht' : truncateExtents length (fs.nodeRead c).extents = t at hcount
    obtain ⟨changed, es, rest⟩ := t
    have hnext : ∀ b, ((if changed then fs.relist c es else fs).nodeRead b).next = (fs.nodeRead b).next := by
      intro b
      split
      · exact next_relist hcount b
      · rfl
    rw [nodeSetLenAux_reads h0 ht']
    split
    · exact ih (chain_of_next hnext ht) k (by simpa using hk)
    · intro h
      cases h

theorem nodeSetLen_terminates (hc : Chain fs.nodeRead p cs) : Terminates (nodeSetLen p length) fs :=
  terminates_of_chain hc fun _ hc₁ hk _ => nodeSetLenAux_ne_crash hc₁ hk

/-- A node is hung behind others, and nothing behind that node. No chain gets longer by more than
that node. -/
theorem Chain.relink {nodes nodes' : Nat → Node} (hc : Chain nodes b cs) (hd : (nodes' d).next = 0)
    (h : ∀ x, (nodes' x).next = (nodes x).next ∨ (nodes' x).next = 0 ∨ (nodes' x).next = d) :
    ∃ cs', Chain nodes' b cs' ∧ cs'.length ≤ cs.length + 1 := by
  induction cs generalizing b with
  | nil => exact ⟨[], hc, Nat.zero_le _⟩
  | cons x cs ih =>
    obtain ⟨rfl, h0, ht⟩ := hc
    rcases h x with hsame | hzero | hlink
    · obtain ⟨cs', hc', hlen⟩ := ih ht
      refine ⟨x :: cs', ⟨rfl, h0, ?_⟩, by simpa using hlen⟩
      rw [hsame]
      exact hc'
    · exact ⟨[x], ⟨rfl, h0, hzero⟩, by simp⟩
    · by_cases hd0 : d = 0
      · exact ⟨[x], ⟨rfl, h0, hlink.trans hd0⟩, by simp⟩
      · exact ⟨[x, d], ⟨rfl, h0, hlink.symm, hlink ▸ hd0, hlink ▸ hd⟩, by simp⟩

/-- The walks have as many steps as before, and need one more at most. -/
structure Grows (fs fs' : FileSystem) : Prop where
  header : fs'.header = fs.header
  fuel : fs'.fuel = fs.fuel
  chain : ∀ b cs, Chain fs.nodeRead b cs → ∃ cs', Chain fs'.nodeRead b cs' ∧ cs'.length ≤ cs.length + 1

theorem Grows.refl (fs : FileSystem) : Grows fs fs :=
  ⟨rfl, rfl, fun _ cs hc => ⟨cs, hc, Nat.le_succ _⟩⟩

theorem Grows.relist (h : Grows fs fs') (hcount : es.length = 15) : Grows fs (fs'.relist c es) := by
  refine ⟨h.header, h.fuel, fun b cs hc => ?_⟩
  obtain ⟨cs', hc', hlen⟩ := h.chain b cs hc
  exact ⟨cs', chain_of_next (next_relist hcount) hc', hlen⟩

/-- What `insert_blocks` leaves before it goes on to a fresh node -/
def FileSystem.hung (fs : FileSystem) (c b : Nat) (es : List Extent) : FileSystem :=
  ((fs.relist fs.header.2.free es).nodeWrite c { fs.nodeRead c with next := b }).nodeWrite b Node.default

theorem Grows.hung (hcount : es.length = 15) (hb : b < 2 ^ 64) : Grows fs (fs.hung c b es) := by
  have hc := nodeRead_valid fs c
  have hnext : ∀ x, ((fs.hung c b es).nodeRead x).next = if fs.place x = fs.place b then 0
      else if fs.place x = fs.place c then b else (fs.nodeRead x).next := by
    intro x
    rw [FileSystem.hung, next_nodeWrite Node.valid_default.name Node.valid_default.count
      Node.valid_default.next, next_nodeWrite (n := { fs.nodeRead c with next := b }) hc.name hc.count hb,
      next_relist hcount]
    rfl
  refine ⟨rfl, rfl, fun p cs hcs => hcs.relink (d := b) ?_ fun x => ?_⟩
  · rw [hnext, if_pos rfl]
  · rw [hnext]
    split
    · exact Or.inr (Or.inl rfl)
    · split
      · exact Or.inr (Or.inr rfl)
      · exact Or.inl rfl

/-- An insertion that does not run out of steps. -/
def Inserts (fs : FileSystem) (r : Except Fault Unit) (fs' : FileSystem) : Prop :=
  r ≠ .error .crash ∧ Grows fs fs'

theorem insertBlocksAux_lists {k : Nat} (h0 : c ≠ 0)
    (he : insertExtent block length (fs.nodeRead c).extents = some es) :
    insertBlocksAux (k + 1) block length c fs = .ok () (fs.relist c es) := by
  rw [insertBlocksAux]
  simp only [h0, if_false]
  rw [bind_ok node_read]
  simp only [he]
  rw [bind_ok writeAt_write]
  rfl

theorem insertBlocksAux_passes {k : Nat} (h0 : c ≠ 0)
    (he : insertExtent block length (fs.nodeRead c).extents = none) :
    insertBlocksAux (k + 1) block length c fs =
      (if (fs.nodeRead c).next = 0 then do
        let next ← allocate 1
        let _ ← writeAt c { fs.nodeRead c with next := next }.encode
        let _ ← writeAt next Node.default.encode
        insertBlocksAux k block length next
      else
        insertBlocksAux k block length (fs.nodeRead c).next : FsM Unit) fs := by
  rw [insertBlocksAux]
  simp only [h0, if_false]
  rw [bind_ok node_read]
  simp only [he]

theorem allocate_takes (h : takeExtent length (fs.nodeRead fs.header.2.free).extents = some (b, es)) :
    allocate length fs = .ok b (fs.relist fs.header.2.free es) := by
  unfold allocate
  rw [bind_ok get_run, bind_ok node_read]
  simp only [h]
  rfl

theorem allocate_refuses (h : takeExtent length (fs.nodeRead fs.header.2.free).extents = none) :
    allocate length fs = .error (.errno .ENOSPC) fs := by
  unfold allocate
  rw [bind_ok get_run, bind_ok node_read]
  simp only [h]
  rfl

/-- The last node of the chain gets a fresh node, which has room. -/
theorem insertBlocksAux_link {k : Nat} (h0 : c ≠ 0)
    (hfull : insertExtent block length (fs.nodeRead c).extents = none) (hnext : (fs.nodeRead c).next = 0) :
    Ends (insertBlocksAux (k + 2) block length c) fs (Inserts fs) := by
  have hrun := insertBlocksAux_passes (k := k + 1) h0 hfull
  simp only [hnext, if_true] at hrun
  cases hb : takeExtent 1 (fs.nodeRead fs.header.2.free).extents with
  | none =>
    rw [bind_error (allocate_refuses hb)] at hrun
    refine ends_of_error hrun ⟨?_, Grows.refl fs⟩
    intro h
    cases h
  | some r =>
    obtain ⟨b, es⟩ := r
    have hfree := nodeRead_valid fs fs.header.2.free
    have hcount : es.length = 15 := (length_takeExtent hb).trans hfree.count
    have hb64 : b < 2 ^ 64 := by
      obtain ⟨l, e, r, hes, -, rfl, -⟩ := takeExtent_some hb
      exact (hfree.extents e (by rw [hes]; simp)).1
    have hgrows : Grows fs (fs.hung c b es) := Grows.hung hcount hb64
    rw [bind_ok (allocate_takes hb)] at hrun
    have hrun : insertBlocksAux (k + 2) block length c fs =
        insertBlocksAux (k + 1) block length b (fs.hung c b es) := hrun
    by_cases hzero : b = 0
    · subst hzero
      refine ends_of_error (hrun.trans rfl) ⟨?_, hgrows⟩
      intro h
      cases h
    · have hfresh : (fs.hung c b es).nodeRead b = Node.default := by
        rw [FileSystem.hung, nodeRead_self (Node.length_encode Node.valid_default) rfl,
          Node.decode_encode Node.valid_default]
      have hplace : insertExtent block length ((fs.hung c b es).nodeRead b).extents =
          some (⟨block, length⟩ :: List.replicate 14 Extent.default) := by
        rw [hfresh]
        rfl
      refine ends_of_ok (hrun.trans (insertBlocksAux_lists hzero hplace)) ⟨?_, hgrows.relist rfl⟩
      intro h
      cases h

/-- `insert_blocks` ends on a chain that ends, also where it goes through the free list or through
what it has just allocated. -/
theorem insertBlocksAux_inserts {k : Nat} (hc : Chain fs.nodeRead p cs) (hk : cs.length + 1 < k) :
    Ends (insertBlocksAux k block length p) fs (Inserts fs) := by
  obtain ⟨k, rfl⟩ : ∃ k', k = k' + 2 := ⟨k - 2, by omega⟩
  induction cs generalizing p k with
  | nil =>
    obtain rfl : p = 0 := hc
    have hrun : insertBlocksAux (k + 2) block length 0 fs = .error (.errno .ENOSPC) fs := rfl
    refine ends_of_error hrun ⟨?_, Grows.refl fs⟩
    intro h
    cases h
  | cons c cs ih =>
    obtain ⟨rfl, h0, ht⟩ := hc
    cases hplace : insertExtent block length (fs.nodeRead c).extents with
    | some es =>
      have hcount : es.length = 15 := (length_insertExtent hplace).trans (nodeRead_valid fs c).count
      refine ends_of_ok (insertBlocksAux_lists h0 hplace) ⟨?_, (Grows.refl fs).relist hcount⟩
      intro h
      cases h
    | none =>
      by_cases hnext : (fs.nodeRead c).next = 0
      · exact insertBlocksAux_link h0 hplace hnext
      · obtain ⟨k, rfl⟩ : ∃ k', k = k' + 1 := ⟨k - 1, by simp at hk; omega⟩
        have hrun : insertBlocksAux (k + 1 + 2) block length c fs =
            insertBlocksAux (k + 2) block length (fs.nodeRead c).next fs := by
          rw [insertBlocksAux_passes h0 hplace]
          simp only [hnext, if_false]
        rw [Ends, hrun]
        exact ih ht k (by simpa using hk)

theorem insertBlocks_inserts (hc : Chain fs.nodeRead p cs) (hk : cs.length + 1 < fs.fuel) :
    Ends (insertBlocks block length p) fs (Inserts fs) := by
  have hrun : insertBlocks block length p fs = insertBlocksAux fs.fuel block length p fs := rfl
  rw [Ends, hrun]
  exact insertBlocksAux_inserts hc hk

theorem ne_crash_of_inserts {x : FsM Unit} (h : Ends x fs (Inserts fs)) : x fs ≠ .error .crash fs' :=
  fun hx => (h.2 _ _ hx).1 rfl

theorem insertBlocks_terminates (hc : Chain fs.nodeRead p cs) :
    Terminates (insertBlocks block length p) fs := by
  refine ⟨cs.length + 1, fun n hn fs' => ?_⟩
  apply ne_crash_of_inserts
  apply insertBlocks_inserts (show Chain (fs.fueled n).nodeRead p cs from hc)
  rw [fueled_fuel]
  omega

theorem length_removeExtent {o : Option Extent} (h : removeExtent block length es = some (es', o)) :
    es'.length = es.length := by
  induction es generalizing es' with
  | nil => cases h
  | cons e es ih =>
    rw [removeExtent] at h
    split at h
    · dsimp only at h
      split at h
      · cases h
        rfl
      · split at h
        · cases h
          rfl
        · cases h
          rfl
    · rw [Option.map_eq_some_iff] at h
      obtain ⟨⟨es₁, o₁⟩, h₁, heq⟩ := h
      cases heq
      rw [List.length_cons, List.length_cons, ih h₁]

theorem deallocate_inserts (hf : Chain fs.nodeRead fs.header.2.free ds) (hk : ds.length + 1 < fs.fuel) :
    Ends (deallocate block length) fs (Inserts fs) := by
  have hrun : deallocate block length fs = insertBlocks block length fs.header.2.free fs := rfl
  rw [Ends, hrun]
  exact insertBlocks_inserts hf hk

/-- The right part may get a new node behind it before the block itself goes back to the free list. -/
theorem afterRemoval_ne_crash {o : Option Extent} (hc : Chain fs.nodeRead c cs)
    (hk : cs.length + 1 < fs.fuel) (hf : Chain fs.nodeRead fs.header.2.free ds)
    (hfk : ds.length + 2 < fs.fuel) : afterRemoval block c o fs ≠ .error .crash fs' := by
  cases o with
  | none => exact ne_crash_of_inserts (deallocate_inserts hf (by omega))
  | some r =>
    have hrest : ∀ fs₁, Grows fs fs₁ → ∀ fs', deallocate block 512 fs₁ ≠ .error .crash fs' := by
      intro fs₁ hgrows fs'
      obtain ⟨ds', hd, hlen⟩ := hgrows.chain _ _ hf
      apply ne_crash_of_inserts
      have hfree : Chain fs₁.nodeRead fs₁.header.2.free ds' := by
        rw [hgrows.header]
        exact hd
      apply deallocate_inserts hfree
      rw [hgrows.fuel]
      omega
    have hrun : afterRemoval block c (some r) fs =
        (insertBlocks r.block r.length c >>= fun _ => deallocate block 512) fs := rfl
    have hinsert : Ends (insertBlocks r.block r.length c) fs (Inserts fs) := insertBlocks_inserts hc hk
    rw [hrun]
    cases hx : insertBlocks r.block r.length c fs with
    | ok a fs₁ =>
      rw [bind_ok hx]
      exact hrest fs₁ (hinsert.1 a fs₁ hx).2 fs'
    | error e fs₁ =>
      rw [bind_error hx]
      intro h
      cases h
      exact (hinsert.2 _ _ hx).1 rfl

theorem removeBlocksAux_ne_crash {k : Nat} (hc : Chain fs.nodeRead p cs) (hk : cs.length < k)
    (hfuel : cs.length + 1 < fs.fuel) (hf : Chain fs.nodeRead fs.header.2.free ds)
    (hfk : ds.length + 2 < fs.fuel) : removeBlocksAux k block length p fs ≠ .error .crash fs' := by
  obtain ⟨k, rfl⟩ : ∃ k', k = k' + 1 := ⟨k - 1, by omega⟩
  induction cs generalizing p k with
  | nil =>
    obtain rfl : p = 0 := hc
    intro h
    cases h
  | cons c cs ih =>
    have hchain := hc
    obtain ⟨rfl, h0, ht⟩ := hc
    obtain ⟨k, rfl⟩ : ∃ k', k = k' + 1 := ⟨k - 1, by simp at hk; omega⟩
    rw [removeBlocksAux]
    simp only [h0, if_false]
    rw [bind_ok node_read]
    cases hr : removeExtent block length (fs.nodeRead c).extents with
    | none => exact ih ht (by simp at hfuel; omega) k (by simpa using hk)
    | some r =>
      obtain ⟨es, o⟩ := r
      have hcount : es.length = 15 := (length_removeExtent hr).trans (nodeRead_valid fs c).count
      have hnext : ∀ b, ((fs.relist c es).nodeRead b).next = (fs.nodeRead b).next := next_relist hcount
      exact afterRemoval_ne_crash (chain_of_next hnext hchain) hfuel (chain_of_next hnext hf) hfk

theorem removeBlocks_terminates (h : Grounded fs) : Terminates (removeBlocks block length p) fs := by
  obtain ⟨cs, hc⟩ := h p
  obtain ⟨ds, hd⟩ := h fs.header.2.free
  refine ⟨cs.length + ds.length + 2, fun n hn fs' => ?_⟩
  have hrun : removeBlocks block length p (fs.fueled n) =
    removeBlocksAux (n + 1) block length p (fs.fueled n) := by
    rw [← fueled_fuel fs n]
    rfl
  rw [hrun]
  apply removeBlocksAux_ne_crash (show Chain (fs.fueled n).nodeRead p cs from hc) (by omega) _
    (show Chain (fs.fueled n).nodeRead (fs.fueled n).header.2.free ds from hd)
  · rw [fueled_fuel]
    omega
  · rw [fueled_fuel]
    omega

/-- The length of a node without a last extent is never known. -/
theorem chain_of_nodeLenAux {k : Nat} (h : ∀ fs', nodeLenAux k p fs ≠ .error .crash fs') :
    ∃ cs, Chain fs.nodeRead p cs := by
  induction k generalizing p with
  | zero => exact absurd rfl (h fs)
  | succ k ih =>
    by_cases h0 : p = 0
    · exact ⟨[], h0⟩
    · by_cases hnext : (fs.nodeRead p).next > 0
      · have hrest : ∀ fs', nodeLenAux k (fs.nodeRead p).next fs ≠ .error .crash fs' := by
          intro fs' hx
          apply h fs'
          rw [nodeLenAux_succ h0, if_pos hnext, bind_error hx]
        obtain ⟨cs, hc⟩ := ih hrest
        exact ⟨p :: cs, rfl, h0, hc⟩
      · exact ⟨[p], rfl, h0, Nat.eq_zero_of_not_pos hnext⟩

theorem grounded_of_walksEnd (h : WalksEnd fs) : Grounded fs := by
  intro p
  obtain ⟨k, hk⟩ := h.nodeLen p
  have haux : ∀ fs', nodeLenAux (fs.fueled k).fuel p (fs.fueled k) ≠ .error .crash fs' := hk k le_rfl
  have hc : ∃ cs, Chain (fs.fueled k).nodeRead p cs := chain_of_nodeLenAux haux
  exact hc

/-- An image with a header for the root 1 and the free node 2, and with one more block -/
def imageWith (n : Node) : Disk :=
  (Disk.writeAt ⟨4096, fun _ => 0⟩ 0 (Header.new 4096 1 2).encode).writeAt 1 n.encode

def opened (n : Node) : FileSystem := ⟨imageWith n, 0, (0, Header.decode (Header.new 4096 1 2).encode)⟩

theorem openDisk_of_valid {disk : Disk} (h : (Header.decode (disk.readAt 0 512)).valid = true) :
    openDisk disk = .ok ⟨disk, 0, (0, Header.decode (disk.readAt 0 512))⟩ := if_pos h

theorem length_header : (Header.new 4096 1 2).encode.length = 512 := by
  simp only [Header.encode, Header.new, Header.SIGNATURE, List.length_append, length_toLe,
    List.length_replicate, List.length_cons, List.length_nil]

/-- The node behind the header leaves the header as it is. -/
theorem readAt_imageWith (hn : n.Valid) :
    (imageWith n).readAt 0 512 = (Header.new 4096 1 2).encode := by
  have hlen := Node.length_encode hn
  have hfirst : load (store (store (fun _ => 0) 0 (Header.new 4096 1 2).encode) 512 n.encode) 0 512 =
      load (store (fun _ => 0) 0 (Header.new 4096 1 2).encode) 0 512 := by
    apply load_store_disjoint
    omega
  have hs := load_store_same (fun _ => 0) 0 (Header.new 4096 1 2).encode
  rw [length_header] at hs
  exact hfirst.trans hs

theorem openDisk_imageWith (hn : n.Valid) : openDisk (imageWith n) = .ok (opened n) := by
  have hread := readAt_imageWith hn
  have hvalid : (Header.decode ((imageWith n).readAt 0 512)).valid = true := by
    rw [hread]
    decide
  rw [openDisk_of_valid hvalid, hread]
  rfl

theorem opened_nodeRead (hn : n.Valid) : (opened n).nodeRead 1 = n := by
  have hwrite : opened n = FileSystem.nodeWrite ⟨Disk.writeAt ⟨4096, fun _ => 0⟩ 0
      (Header.new 4096 1 2).encode, 0, (0, Header.decode (Header.new 4096 1 2).encode)⟩ 1 n := rfl
  rw [hwrite, nodeRead_self (Node.length_encode hn) rfl, Node.decode_encode hn]

/-- On an image that has a header, and any bytes in its other blocks, all walks end exactly if no
`next` pointer leads into a cycle. -/
theorem walks_end_iff (disk : Disk) (fs : FileSystem) : openDisk disk = .ok fs →
    (WalksEnd fs ↔ Grounded fs) := by
  intro _
  constructor
  · exact grounded_of_walksEnd
  · intro h
    constructor
    case childNodes =>
      intro p
      obtain ⟨cs, hc⟩ := h p
      exact childNodes_terminates hc
    case findNode =>
      intro name p
      obtain ⟨cs, hc⟩ := h p
      exact findNode_terminates name hc
    case pathNodes => exact pathNodes_terminates h
    case nodeExtents =>
      intro p offset len
      obtain ⟨cs, hc⟩ := h p
      exact nodeExtents_terminates hc
    case nodeLen =>
      intro p
      obtain ⟨cs, hc⟩ := h p
      exact nodeLen_terminates hc
    case nodeSetLen =>
      intro p length
      obtain ⟨cs, hc⟩ := h p
      exact nodeSetLen_terminates hc
    case insertBlocks =>
      intro block length p
      obtain ⟨cs, hc⟩ := h p
      exact insertBlocks_terminates hc
    case removeBlocks =>
      intro block length p
      exact removeBlocks_terminates h

/-- No block of an image with an empty root names a next one. -/
theorem next_opened (b : Nat) : ((opened Node.default).nodeRead b).next = 0 := by
  have hlen := Node.length_encode Node.valid_default
  have hplace := place_eq (opened Node.default) b
  have hblock : (opened Node.default).block + b = b := Nat.zero_add b
  rw [hblock] at hplace
  by_cases h0 : b % 2 ^ 55 = 0
  · have hsame : (opened Node.default).place b = (opened Node.default).place 0 := by
      rw [hplace, h0]
      rfl
    have hheader : (opened Node.default).readBlock 0 512 = (Header.new 4096 1 2).encode :=
      readAt_imageWith Node.valid_default
    rw [nodeRead_congr hsame, nodeRead, hheader]
    decide
  · by_cases h1 : b % 2 ^ 55 = 1
    · have hsame : (opened Node.default).place b = (opened Node.default).place 1 := by
        rw [hplace, h1]
        rfl
      rw [nodeRead_congr hsame, opened_nodeRead Node.valid_default]
      rfl
    · have hzero : load (fun _ => (0 : UInt8)) ((opened Node.default).place b) 512 =
          List.replicate 512 0 := by
        rw [load, List.map_const', List.length_range']
      have hfirst : load (store (fun _ => 0) 0 (Header.new 4096 1 2).encode)
          ((opened Node.default).place b) 512 = load (fun _ => 0) ((opened Node.default).place b) 512 := by
        apply load_store_disjoint
        rw [length_header, hplace]
        omega
      have hsecond : load (store (store (fun _ => 0) 0 (Header.new 4096 1 2).encode) 512
          Node.default.encode) ((opened Node.default).place b) 512 =
          load (store (fun _ => 0) 0 (Header.new 4096 1 2).encode) ((opened Node.default).place b) 512 := by
        apply load_store_disjoint
        rw [hlen, hplace]
        omega
      have hread : (opened Node.default).readBlock b 512 = List.replicate 512 0 :=
        hsecond.trans (hfirst.trans hzero)
      rw [nodeRead, hread, Node.decode, List.drop_replicate, List.take_replicate]
      rfl

theorem walks_end_iff_fresh : WalksEnd (opened Node.default) := by
  apply (walks_end_iff _ _ (openDisk_imageWith Node.valid_default)).mpr
  intro b
  by_cases h0 : b = 0
  · exact ⟨[], h0⟩
  · exact ⟨[b], rfl, h0, next_opened b⟩

/-- A root that is its own successor is never read to its end. -/
theorem root_behind_itself : openDisk (imageWith { Node.default with next := 1 }) =
      .ok (opened { Node.default with next := 1 }) ∧
    ¬ WalksEnd (opened { Node.default with next := 1 }) := by
  have hone : 1 < 2 ^ 64 := by norm_num
  have hv : Node.Valid { Node.default with next := 1 } :=
    Node.Valid.setNext (n := Node.default) (b := 1) Node.valid_default hone
  refine ⟨openDisk_imageWith hv, ?_⟩
  intro h
  obtain ⟨cs, hc⟩ := grounded_of_walksEnd h 1
  have hnext : ((opened { Node.default with next := 1 }).nodeRead 1).next = 1 := by
    rw [opened_nodeRead hv]
  induction cs with
  | nil => cases hc
  | cons c cs ih =>
    obtain ⟨rfl, -, ht⟩ := hc
    apply ih
    rw [hnext] at ht
    exact ht

end Origel.RedoxFs
