import Origel.Lib.Run
import Origel.RedoxFs.Transfer

/-! Runs of file system calls from a fresh disk, and what one call can do. -/
namespace Origel.RedoxFs

open Origel.Lib FileSystem

variable {fs fs' : FileSystem} {b c d p t mode offset len : Nat} {cs : List Nat} {l l' : Layout}
  {buf : List UInt8} {name : String} {err : Option Errno}

/-- The blocks met from `b` on along `next`. -/
def chainFrom (fs : FileSystem) : Nat → Nat → List Nat
  | 0, _ => []
  | k + 1, b => if b = 0 then [] else b :: chainFrom fs k (fs.nodeAt b).next

def chainOf (fs : FileSystem) (b : Nat) : List Nat := chainFrom fs fs.fuel b

/-- The files and directories that hang on the root. -/
inductive Reach (fs : FileSystem) : Nat → Prop
  | root : Reach fs fs.header.2.root
  | child {d b : Nat} (hd : Reach fs d) (hdir : (fs.nodeAt d).isDir = true)
      (hb : b ∈ children fs (chainOf fs d)) : Reach fs b

/-- The calls that change a file system. The last is the rewriting of a node by which the scheme
sets an owner and permissions. -/
inductive Op where
  | createNode (mode : Nat) (name : String) (parent : Nat)
  | removeNode (mode : Nat) (name : String) (parent : Nat)
  | writeNode (block offset : Nat) (buf : List UInt8)
  | nodeSetLen (block len : Nat)
  | setAttr (block perm uid gid : Nat)

/-- The type bits of a mode with other permissions. -/
def withPerm (mode perm : Nat) : Nat := (mode &&& Node.MODE_TYPE) ||| (perm &&& Node.MODE_PERM)

def Node.setAttr (n : Node) (perm uid gid : Nat) : Node :=
  { n with mode := withPerm n.mode perm, uid := uid, gid := gid }

namespace Op

def run : Op → FsM Unit
  | createNode mode name parent => do
    let _ ← RedoxFs.createNode mode name parent
  | removeNode mode name parent => RedoxFs.removeNode mode name parent
  | writeNode block offset buf => do
    let _ ← RedoxFs.writeNode block offset buf
  | nodeSetLen block len => RedoxFs.nodeSetLen block len
  | setAttr block perm uid gid => do
    let n ← node block
    let _ ← writeAt block (n.2.setAttr perm uid gid).encode

/-- What every caller sees to: names are made in directories of the tree and bytes written to its
files; numbers have their machine types. -/
def Legal (fs : FileSystem) : Op → Prop
  | createNode mode _ parent =>
    Reach fs parent ∧ (fs.nodeAt parent).isDir = true ∧ mode < 2 ^ 16
  | removeNode _ _ parent => Reach fs parent ∧ (fs.nodeAt parent).isDir = true
  | writeNode block offset buf =>
    Reach fs block ∧ (fs.nodeAt block).isDir = false ∧ offset < 2 ^ 64 ∧ buf.length < 2 ^ 64
  | nodeSetLen block len => Reach fs block ∧ (fs.nodeAt block).isDir = false ∧ len < 2 ^ 64
  | setAttr block _ uid gid => Reach fs block ∧ uid < 2 ^ 32 ∧ gid < 2 ^ 32

end Op

/-- A call that comes back, with an error number or without. -/
inductive Returns {α : Type} (x : FsM α) (fs : FileSystem) : Option Errno → FileSystem → Prop
  | ok {a : α} {fs' : FileSystem} (h : x fs = .ok a fs') : Returns x fs none fs'
  | error {e : Errno} {fs' : FileSystem} (h : x fs = .error (.errno e) fs') :
      Returns x fs (some e) fs'

/-- One call that meets `P`. -/
def Op.Step (P : FileSystem → Op → Prop) (fs : FileSystem) (op : Op) (fs' : FileSystem) : Prop :=
  op.Legal fs ∧ P fs op ∧ ∃ err, Returns op.run fs err fs'

/-- The states that calls meeting `P` lead to from a fresh file system. -/
def Reachable (P : FileSystem → Op → Prop) (fs : FileSystem) : Prop :=
  ∃ disk fs₀ ops, disk.size < 2 ^ 64 ∧ create disk = .ok fs₀ ∧ Run (Op.Step P) fs₀ ops fs

/-- What a fresh file system has and every call keeps, every reachable state has. -/
theorem Reachable.invariant {P : FileSystem → Op → Prop} {I : FileSystem → Prop}
    (h : Reachable P fs) (hcreate : ∀ disk fs, disk.size < 2 ^ 64 → create disk = .ok fs → I fs)
    (hstep : ∀ fs op fs' err, op.Legal fs → P fs op → Returns op.run fs err fs' → I fs → I fs') :
    I fs := by
  obtain ⟨disk, fs₀, ops, hsize, hc, hrun⟩ := h
  refine hrun.invariant (fun s op s' hs hI => ?_) (hcreate disk fs₀ hsize hc)
  obtain ⟨hl, hP, err, hr⟩ := hs
  exact hstep s op s' err hl hP hr hI

/-- The entry `name` of `d` is `b`, and `remove_node` goes through with it. -/
def Removes (fs : FileSystem) (mode : Nat) (name : String) (d b : Nat) : Prop :=
  lookup fs name (children fs (chainOf fs d)) = some b ∧
    (fs.nodeAt b).mode &&& Node.MODE_TYPE = mode ∧
    ((fs.nodeAt b).isDir = true → children fs (chainOf fs b) = [])

/-- The free node never overflows and no length wraps around. -/
def Safe (fs : FileSystem) : Op → Prop
  | .removeNode mode name d => ∀ b, Removes fs mode name d b → Room fs (chainOf fs d) b
  | .writeNode t offset buf =>
    missing fs (chainOf fs t) (wrap64 (offset + buf.length)) + 511 < 2 ^ 64
  | _ => True

theorem chainFrom_eq {k : Nat} (h : Chain fs.nodeAt b cs) (hk : cs.length < k) :
    chainFrom fs k b = cs := by
  induction cs generalizing k b with
  | nil =>
    obtain ⟨k, rfl⟩ := Nat.exists_eq_add_one_of_ne_zero (by omega : k ≠ 0)
    have h0 : b = 0 := h
    rw [chainFrom, if_pos h0]
  | cons c cs ih =>
    obtain ⟨k, rfl⟩ := Nat.exists_eq_add_one_of_ne_zero (by omega : k ≠ 0)
    obtain ⟨rfl, h0, hrest⟩ := h
    rw [List.length_cons] at hk
    rw [chainFrom, if_neg h0, ih hrest (by omega)]

theorem Op.setAttr_run {perm uid gid : Nat} (h : fs.Within b) : (Op.setAttr b perm uid gid).run fs =
    .ok () (fs.writeNodeAt b ((fs.nodeAt b).setAttr perm uid gid)) := by
  rw [Op.run, bind_ok (node_run h), bind_ok (writeAt_node h _)]
  rfl

namespace Inv

theorem chainOf_eq (h : Inv fs l) (hp : l.chain p ≠ []) : chainOf fs p = l.chain p :=
  chainFrom_eq (h.object p hp).chain (h.fuel p)

theorem reach (h : Inv fs l) (hb : Reach fs b) : l.chain b ≠ [] := by
  induction hb with
  | root =>
    rw [h.base.root]
    exact h.rootChain
  | @child d b _ hdir hb ih =>
    rw [h.chainOf_eq ih, h.children_eq hdir, ← entries_of_dir hdir] at hb
    exact (h.entryHead d b hb).1

theorem reach_root (h : Inv fs l) : Reach fs 1 := by
  rw [← h.base.root]
  exact .root

theorem reach_entry (h : Inv fs l) (hd : Reach fs d) (hb : b ∈ entries fs l d) : Reach fs b := by
  have hdir : (fs.nodeAt d).isDir = true := by
    by_contra hno
    rw [entries, if_neg hno] at hb
    cases hb
  refine .child hd hdir ?_
  rw [h.chainOf_eq (h.reach hd), h.children_eq hdir, ← entries_of_dir hdir]
  exact hb

/-- Another node of the same kind, with the same successor and extents, takes a block's place. -/
theorem setNode {n : Node} (h : Inv fs l) (hb : l.chain b ≠ []) (hv : n.Valid)
    (hnext : n.next = (fs.nodeAt b).next) (hext : n.extents = (fs.nodeAt b).extents)
    (hdir : n.isDir = (fs.nodeAt b).isDir) : Inv (fs.writeNodeAt b n) l := by
  have hbb := h.head_mem hb
  have ha : Agree (· ∈ l.chain b) fs (fs.writeNodeAt b n) := Agree.writeNodeAt hv hbb
  have hself : (fs.writeNodeAt b n).nodeAt b = n := by
    rw [nodeAt_writeNodeAt hv, Function.update_self]
  have hother : ∀ c, c ≠ b → (fs.writeNodeAt b n).nodeAt c = fs.nodeAt c := by
    intro c hc
    rw [nodeAt_writeNodeAt hv, Function.update_of_ne hc]
  generalize fs.writeNodeAt b n = fs' at *
  have hnexts : ∀ c ∈ l.chain b, (fs'.nodeAt c).next = (fs.nodeAt c).next := by
    intro c _
    by_cases hc : c = b
    · rw [hc, hself, hnext]
    · rw [hother c hc]
  have hexts : ∀ c ∈ l.chain b, (fs'.nodeAt c).extents = (fs.nodeAt c).extents := by
    intro c _
    by_cases hc : c = b
    · rw [hc, hself, hext]
    · rw [hother c hc]
  have hlist := listing_congr hexts
  have ho := h.object b hb
  cases hd : (fs.nodeAt b).isDir with
  | false =>
    refine h.rewriteFile l.held hb hd ha hnexts (by rw [hself, hdir, hd]) (fun c hc e he => ?_) ?_
    · rw [hexts c hc] at he
      exact ho.fits c hc e he
    · rw [hlist]
  | true =>
    refine h.rewriteDir [] hb hd ha hnexts (by rw [hself, hdir, hd]) (fun c hc e he => ?_)
      List.nodup_nil (by simp) ?_
    · rw [hexts c hc] at he
      exact ⟨ho.fits c hc e he, ho.aligned hd c hc e he⟩
    · rw [hlist]
      exact List.Subperm.refl _

end Inv

theorem withPerm_lt (mode perm : Nat) : withPerm mode perm < 2 ^ 16 := by
  apply Nat.or_lt_two_pow
  · exact Nat.lt_of_le_of_lt Nat.and_le_right (by decide)
  · exact Nat.lt_of_le_of_lt Nat.and_le_right (by decide)

theorem withPerm_type (mode perm : Nat) :
    withPerm mode perm &&& Node.MODE_TYPE = mode &&& Node.MODE_TYPE := by
  have h1 : Node.MODE_TYPE &&& Node.MODE_TYPE = Node.MODE_TYPE := by decide
  have h2 : Node.MODE_PERM &&& Node.MODE_TYPE = 0 := by decide
  rw [withPerm, Nat.and_or_distrib_right, Nat.and_assoc, Nat.and_assoc, h1, h2, Nat.and_zero,
    Nat.or_zero]

theorem Node.isDir_setAttr (n : Node) (perm uid gid : Nat) :
    (n.setAttr perm uid gid).isDir = n.isDir := by
  rw [Node.isDir, Node.isDir, Node.setAttr, withPerm_type]

theorem Node.valid_setAttr {n : Node} {perm uid gid : Nat} (h : n.Valid) (hu : uid < 2 ^ 32)
    (hg : gid < 2 ^ 32) : (n.setAttr perm uid gid).Valid :=
  ⟨withPerm_lt .., hu, hg, h.name, h.parent, h.next, h.count, h.extents⟩

/-- The layout of a fresh file system: nothing but the root. -/
def freshLayout : Layout := ⟨fun b => if b = 1 then [1] else [], []⟩

theorem bytes_setBlock {x : Nat} (hb : fs.block = 0) (hx : 512 * b + buf.length ≤ x) :
    (fs.setBlock b buf).disk.bytes x = fs.disk.bytes x := by
  rw [setBlock_eq hb]
  exact store_of_ge hx

/-- What `create` leaves on the disk. -/
theorem create_spec {disk : Disk} (hsize : disk.size < 2 ^ 64) (h : create disk = .ok fs) :
    4 * 512 ≤ disk.size ∧ fs.block = 0 ∧ fs.header.2.root = 1 ∧ fs.header.2.free = 2 ∧
      fs.disk.size = disk.size ∧
      fs.nodeAt 1 = Node.new (Node.MODE_DIR ||| 0o755) "root" 0 ∧
      fs.nodeAt 2 = { Node.new Node.MODE_FILE "free" 0 with
        extents := ⟨4, disk.size - 4 * 512⟩ :: List.replicate 14 Extent.default } ∧
      ∀ x, 512 * 3 ≤ x → fs.disk.bytes x = disk.bytes x := by
  unfold create at h
  by_cases hs : 4 * 512 ≤ disk.size
  · rw [if_pos hs] at h
    have hroot : (Node.new (Node.MODE_DIR ||| 0o755) "root" 0).Valid :=
      Node.valid_new _ (by decide) (by decide)
    have hfree : Node.Valid { Node.new Node.MODE_FILE "free" 0 with
        extents := ⟨4, disk.size - 4 * 512⟩ :: List.replicate 14 Extent.default } := by
      refine (Node.valid_new _ (by decide) (by decide)).setExtents ⟨rfl, ?_⟩
      intro e he
      rcases List.mem_cons.mp he with rfl | he
      · exact ⟨show (4 : Nat) < 2 ^ 64 by omega, show disk.size - 4 * 512 < 2 ^ 64 by omega⟩
      · rw [List.eq_of_mem_replicate he]
        decide
    generalize Node.new (Node.MODE_DIR ||| 0o755) "root" 0 = root at *
    generalize ({ Node.new Node.MODE_FILE "free" 0 with
        extents := ⟨4, disk.size - 4 * 512⟩ :: List.replicate 14 Extent.default } : Node) = free at *
    generalize hh : Header.new disk.size 1 2 = header at *
    have hl : header.encode.length = 512 := by
      rw [← hh]
      simp only [Header.encode, Header.new, List.length_append, length_toLe, List.length_replicate]
      rfl
    have hfs : fs = ((FileSystem.mk disk 0 (0, header)).writeNodeAt 2 free |>.writeNodeAt 1 root
        |>.setBlock 0 header.encode) := by
      cases h
      rfl
    have hnode : ∀ b, 1 ≤ b → fs.nodeAt b =
        (((FileSystem.mk disk 0 (0, header)).writeNodeAt 2 free).writeNodeAt 1 root).nodeAt b := by
      intro b hb
      rw [hfs, nodeAt_eq, nodeAt_eq, sector_setBlock (by rw [hl]; omega)]
    have hbytes : ∀ x, 512 * 3 ≤ x → fs.disk.bytes x = disk.bytes x := by
      intro x hx
      rw [hfs, bytes_setBlock rfl (by rw [hl]; omega), writeNodeAt,
        bytes_setBlock rfl (by rw [Node.length_encode hroot]; omega), writeNodeAt,
        bytes_setBlock rfl (by rw [Node.length_encode hfree]; omega)]
    refine ⟨hs, by rw [hfs]; rfl, ?_, ?_, by rw [hfs]; rfl, ?_, ?_, hbytes⟩
    · rw [hfs, ← hh]
      rfl
    · rw [hfs, ← hh]
      rfl
    · rw [hnode 1 (by omega), nodeAt_writeNodeAt hroot, Function.update_self]
    · rw [hnode 2 (by omega), nodeAt_writeNodeAt hroot, Function.update_of_ne (by omega),
        nodeAt_writeNodeAt hfree, Function.update_self]
  · rw [if_neg hs] at h
    cases h

theorem own_fresh (hd : (fs.nodeAt 1).isDir = true) (p : Nat) :
    own fs freshLayout (.object p) = freshLayout.chain p := by
  by_cases hp : p = 1
  · rw [hp, own_of_dir hd]
  · have hnil : freshLayout.chain p = [] := if_neg hp
    rw [own, hnil, listing_nil, ite_self, List.append_nil]

theorem entries_fresh (he : ∀ e ∈ (fs.nodeAt 1).extents, e = Extent.default) (p : Nat) :
    entries fs freshLayout p = [] := by
  have hlist : listing fs (freshLayout.chain p) = [] := by
    by_cases hp : p = 1
    · have h1 : freshLayout.chain p = [1] := if_pos hp
      rw [h1, listing_cons, listing_nil, List.append_nil]
      exact List.flatMap_eq_nil_iff.mpr fun e hm => by rw [he e hm]; rfl
    · have hnil : freshLayout.chain p = [] := if_neg hp
      rw [hnil, listing_nil]
  rw [entries, hlist, ite_self]

theorem mem_chain_fresh {p : Nat} (hb : b ∈ freshLayout.chain p) : b = 1 ∧ p = 1 := by
  by_cases hp : p = 1
  · have hc : freshLayout.chain p = [1] := if_pos hp
    rw [hc] at hb
    exact ⟨List.mem_singleton.mp hb, hp⟩
  · have hc : freshLayout.chain p = [] := if_neg hp
    rw [hc] at hb
    cases hb

theorem base_fresh {disk : Disk} (hsize : disk.size < 2 ^ 64) (h : create disk = .ok fs) : Base fs := by
  obtain ⟨hs, hblock, hroot, hfree, hsz, -, h2, -⟩ := create_spec hsize h
  refine ⟨hblock, hroot, hfree, by omega, ?_, ?_⟩
  · rw [h2]
    rfl
  · rw [h2, hsz]
    intro e he
    rcases List.mem_cons.mp he with rfl | he
    · exact ⟨by dsimp only; omega, fun _ => Nat.le_refl 4⟩
    · rw [List.eq_of_mem_replicate he]
      exact Extent.fits_default _

theorem object_fresh (h1 : fs.nodeAt 1 = Node.new (Node.MODE_DIR ||| 0o755) "root" 0) :
    Object fs 1 [1] := by
  have hext : ∀ c ∈ [1], ∀ e ∈ (fs.nodeAt c).extents, e = Extent.default := by
    intro c hc e he
    rw [List.mem_singleton.mp hc, h1] at he
    exact Node.extents_new he
  refine ⟨⟨rfl, by omega, ?_⟩, fun c hc e he => ?_, fun _ c hc e he => ?_⟩
  · rw [h1]
    rfl
  · rw [hext c hc e he]
    exact Extent.fits_default _
  · rw [hext c hc e he]
    exact Nat.dvd_zero 512

/-- The root has block 1, and free blocks start at 4. -/
def freshOwner (b : Nat) : Owner := if b = 1 then .object 1 else if 4 ≤ b then .free else .reserved

theorem owner_fresh (hbase : Base fs) (hd : (fs.nodeAt 1).isDir = true) {o : Owner}
    (hb : b ∈ own fs freshLayout o) : o = freshOwner b := by
  cases o with
  | reserved =>
    have hres : b = 0 ∨ b = 2 ∨ b = 3 := by simpa [own] using hb
    rw [freshOwner, if_neg (by omega), if_neg (by omega)]
  | free =>
    rw [own_free, hbase.freeNode] at hb
    obtain ⟨e, he, hbe⟩ := List.mem_flatMap.mp hb
    have hlow := ((hbase.fits e he).mem_span hbe).1
    rw [freshOwner, if_neg (by omega), if_pos hlow]
  | held => cases hb
  | object p =>
    rw [own_fresh hd] at hb
    obtain ⟨rfl, rfl⟩ := mem_chain_fresh hb
    rfl

theorem exclusive_fresh {disk : Disk} (hsize : disk.size < 2 ^ 64) (h : create disk = .ok fs)
    (hd : (fs.nodeAt 1).isDir = true) : Exclusive (own fs freshLayout) := by
  have hbase := base_fresh hsize h
  obtain ⟨-, -, -, -, -, -, h2, -⟩ := create_spec hsize h
  refine ⟨fun o => ?_, fun o o' b hb hb' => ?_⟩
  · cases o with
    | reserved =>
      rw [own]
      decide
    | free =>
      have hspan : own fs freshLayout .free = (⟨4, disk.size - 4 * 512⟩ : Extent).span := by
        rw [own_free, hbase.freeNode, h2]
        exact List.append_nil _
      rw [hspan]
      exact List.nodup_range'
    | held => exact List.nodup_nil
    | object p =>
      rw [own_fresh hd]
      by_cases hp : p = 1
      · have hc : freshLayout.chain p = [1] := if_pos hp
        rw [hc]
        exact List.nodup_singleton 1
      · have hc : freshLayout.chain p = [] := if_neg hp
        rw [hc]
        exact List.nodup_nil
  · rw [owner_fresh hbase hd hb, owner_fresh hbase hd hb']

/-- A fresh file system is well laid out. -/
theorem create_inv {disk : Disk} (hsize : disk.size < 2 ^ 64) (h : create disk = .ok fs) :
    Inv fs freshLayout := by
  have hbase := base_fresh hsize h
  obtain ⟨hs, -, -, -, hsz, h1, -⟩ := create_spec hsize h
  have hdir : (fs.nodeAt 1).isDir = true := by
    rw [h1]
    decide
  have hentries : ∀ p, entries fs freshLayout p = [] := by
    apply entries_fresh
    rw [h1]
    exact fun e he => Node.extents_new he
  constructor
  case base => exact hbase
  case object =>
    intro p hp
    obtain ⟨b, hb⟩ := List.exists_mem_of_ne_nil _ hp
    obtain ⟨-, rfl⟩ := mem_chain_fresh hb
    exact object_fresh h1
  case rootChain => exact List.cons_ne_nil 1 []
  case rootDir => exact hdir
  case inside =>
    intro o ho b hb
    have howner := owner_fresh hbase hdir hb
    have hlow : b < 4 := by
      by_contra hge
      rw [freshOwner, if_neg (by omega), if_pos (by omega)] at howner
      exact ho howner
    omega
  case exclusive => exact exclusive_fresh hsize h hdir
  case listed =>
    constructor
    · intro p
      rw [hentries]
      exact List.nodup_nil
    · intro p q b hb
      rw [hentries] at hb
      cases hb
  case entryHead =>
    intro p b hb
    rw [hentries] at hb
    cases hb

/-- A blank disk. -/
def blankDisk (blocks : Nat) : Disk := ⟨512 * blocks, fun _ => 0⟩

theorem create_ok {disk : Disk} (hs : 4 * 512 ≤ disk.size) : ∃ fs, create disk = .ok fs :=
  ⟨_, if_pos hs⟩

/-- A fresh file system gives out its first free blocks. -/
theorem takeExtent_fresh {disk : Disk} {n k : Nat} (hd : disk.size = 512 * n) (hn : 4 + k ≤ n)
    (hsize : 512 * n < 2 ^ 64) (hc : create disk = .ok fs) : takeExtent k fs.freeNode.extents =
      some (4, ⟨4 + k, 512 * (n - 4 - k)⟩ :: List.replicate 14 Extent.default) := by
  rw [← hd] at hsize
  obtain ⟨-, -, -, -, -, -, h2, -⟩ := create_spec hsize hc
  have hlen : disk.size - 4 * 512 = 512 * (n - 4) := by omega
  rw [(create_inv hsize hc).base.freeNode, h2, hlen, takeExtent, if_pos (by dsimp only; omega)]
  have hrest : 512 * (n - 4) - 512 * k = 512 * (n - 4 - k) := by omega
  rw [hrest]

end Origel.RedoxFs
