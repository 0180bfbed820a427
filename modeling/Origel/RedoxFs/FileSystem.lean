import Origel.RedoxFs.Node

/-! The file system operations over a disk. The recursions along `next` chains carry a fuel of one
more than the number of sectors: a chain without repetition is shorter, so fuel runs out only where
the source recurses for ever. -/
namespace Origel.RedoxFs

open Origel.Lib

structure FileSystem where
  disk : Disk
  block : Nat
  header : Nat × Header

/-- A failing operation keeps what it has already written. -/
abbrev FsM := EStateM Fault FileSystem

namespace FileSystem

def fuel (fs : FileSystem) : Nat := fs.disk.size / 512 + 1

def readBlock (fs : FileSystem) (block n : Nat) : List UInt8 :=
  fs.disk.readAt (wrap64 (fs.block + block)) n

def writeBlock (fs : FileSystem) (block : Nat) (buffer : List UInt8) : FileSystem :=
  { fs with disk := fs.disk.writeAt (wrap64 (fs.block + block)) buffer }

end FileSystem

open FileSystem

/-- `FileSystem::create` -/
def create (disk : Disk) : Except Fault FileSystem :=
  let size := disk.size
  if 4 * 512 ≤ size then
    let free := { Node.new Node.MODE_FILE "free" 0 with
      extents := ⟨4, size - 4 * 512⟩ :: List.replicate 14 Extent.default }
    let disk := disk.writeAt 2 free.encode
    let root := Node.new (Node.MODE_DIR ||| 0o755) "root" 0
    let disk := disk.writeAt 1 root.encode
    let header := Header.new size 1 2
    let disk := disk.writeAt 0 header.encode
    .ok ⟨disk, 0, (0, header)⟩
  else
    .error (.errno .ENOSPC)

def readAt (block n : Nat) : FsM (List UInt8) := do
  return (← get).readBlock block n

def writeAt (block : Nat) (buffer : List UInt8) : FsM Nat :=
  modifyGet fun fs => (buffer.length, fs.writeBlock block buffer)

def node (block : Nat) : FsM (Nat × Node) := do
  return (block, Node.decode (← readAt block 512))

/-- The search of `allocate`: the first extent that is long enough gives its front. -/
def takeExtent (length : Nat) : List Extent → Option (Nat × List Extent)
  | [] => none
  | e :: es =>
    if e.length / 512 ≥ length then
      some (e.block, ⟨e.block + length, e.length - 512 * length⟩ :: es)
    else
      (takeExtent length es).map fun r => (r.1, e :: r.2)

def allocate (length : Nat) : FsM Nat := do
  let freeBlock := (← get).header.2.free
  let free ← node freeBlock
  match takeExtent length free.2.extents with
  | some (block, extents) =>
    let _ ← writeAt free.1 { free.2 with extents := extents }.encode
    return block
  | none => throw (.errno .ENOSPC)

/-- The search of `insert_blocks`: the first extent that is empty, or that the blocks touch. The sums
that it stores wrap when they are encoded. -/
def insertExtent (block length : Nat) : List Extent → Option (List Extent)
  | [] => none
  | e :: es =>
    if e.length = 0 then
      some (⟨block, length⟩ :: es)
    else if length % 512 = 0 ∧ e.block = wrap64 (block + length / 512) then
      some (⟨block, e.length + length⟩ :: es)
    else if e.length % 512 = 0 ∧ wrap64 (e.block + e.length / 512) = block then
      some (⟨e.block, e.length + length⟩ :: es)
    else
      (insertExtent block length es).map (e :: ·)

def insertBlocksAux : Nat → Nat → Nat → Nat → FsM Unit
  | 0, _, _, _ => throw .crash
  | fuel + 1, block, length, parentBlock => do
    if parentBlock = 0 then
      throw (.errno .ENOSPC)
    let parent ← node parentBlock
    match insertExtent block length parent.2.extents with
    | some extents =>
      let _ ← writeAt parent.1 { parent.2 with extents := extents }.encode
      return ()
    | none =>
      if parent.2.next = 0 then
        -- `parent` was read before `allocate` wrote the free node
        let next ← allocate 1
        let _ ← writeAt parent.1 { parent.2 with next := next }.encode
        let _ ← writeAt next Node.default.encode
        insertBlocksAux fuel block length next
      else
        insertBlocksAux fuel block length parent.2.next

def insertBlocks (block length parentBlock : Nat) : FsM Unit := do
  insertBlocksAux (← get).fuel block length parentBlock

/-- `length` is in bytes here, in sectors in `allocate`. -/
def deallocate (block length : Nat) : FsM Unit := do
  insertBlocks block length (← get).header.2.free

/-- The blocks the directory loops visit: those of size 512 or more. -/
def childBlocks (n : Node) : List Nat :=
  n.extents.flatMap fun e => (e.blocks.filter fun p => 512 ≤ p.2).map Prod.fst

def childNodesAux : Nat → Nat → FsM (List (Nat × Node))
  | 0, _ => throw .crash
  | fuel + 1, parentBlock => do
    if parentBlock = 0 then
      return []
    let parent ← node parentBlock
    let children ← (childBlocks parent.2).mapM node
    return children ++ (← childNodesAux fuel parent.2.next)

def childNodes (parentBlock : Nat) : FsM (List (Nat × Node)) := do
  childNodesAux (← get).fuel parentBlock

/-- The two inner loops of `find_node`. -/
def findChild (name : String) : List Nat → FsM (Option (Nat × Node))
  | [] => return none
  | block :: blocks => do
    let child ← node block
    if child.2.nameStr = some name then
      return some child
    else
      findChild name blocks

def findNodeAux (name : String) : Nat → Nat → FsM (Nat × Node)
  | 0, _ => throw .crash
  | fuel + 1, parentBlock => do
    if parentBlock = 0 then
      throw (.errno .ENOENT)
    let parent ← node parentBlock
    match ← findChild name (childBlocks parent.2) with
    | some child => return child
    | none => findNodeAux name fuel parent.2.next

def findNode (name : String) (parentBlock : Nat) : FsM (Nat × Node) := do
  findNodeAux name (← get).fuel parentBlock

/-- `path.split('/')` -/
def splitPath (path : String) : List String := (path.toList.splitOn '/').map String.ofList

/-- The loop of `path_nodes`, with the nodes met so far and the outcome side by side: a failed
lookup leaves the resolved nodes in the caller's vector. -/
def walkPath : List String → Nat × Node → List (Nat × Node) →
    FsM (List (Nat × Node) × Except Errno (Nat × Node))
  | [], last, nodes => return (nodes, .ok last)
  | part :: parts, last, nodes =>
    if part.isEmpty then
      walkPath parts last nodes
    else fun fs =>
      match findNode part last.1 fs with
      | .ok child fs => walkPath parts child (nodes ++ [last]) fs
      | .error (.errno e) fs => .ok (nodes ++ [last], .error e) fs
      | .error .crash fs => .error .crash fs

/-- `path_nodes`: the vector `nodes` after the call, and its result. -/
def pathNodes (path : String) : FsM (List (Nat × Node) × Except Errno (Nat × Node)) := do
  let root ← node (← get).header.2.root
  walkPath (splitPath path) root []

def createNode (mode : Nat) (name : String) (parentBlock : Nat) : FsM (Nat × Node) := fun fs =>
  match findNode name parentBlock fs with
  | .ok _ fs => .error (.errno .EEXIST) fs
  | .error .crash fs => .error .crash fs
  | .error (.errno _) fs => (do
    let block ← allocate 1
    let child := Node.new mode name parentBlock
    let _ ← writeAt block child.encode
    insertBlocks block 512 parentBlock
    return (block, child) : FsM (Nat × Node)) fs

/-- The search of `remove_blocks`: the first extent around the blocks keeps its left part, and the
right part is handed out if both are left. -/
def removeExtent (block length : Nat) : List Extent → Option (List Extent × Option Extent)
  | [] => none
  | e :: es =>
    let stop := wrap64 (block + length)
    let extentStop := wrap64 (e.block + e.length / 512)
    if block ≥ e.block ∧ stop ≤ extentStop then
      let left : Extent := ⟨e.block, wrap64 (512 * (block - e.block))⟩
      let right : Extent := ⟨stop, wrap64 (512 * (extentStop - stop))⟩
      if left.length > 0 then
        some (left :: es, if right.length > 0 then some right else none)
      else if right.length > 0 then
        some (right :: es, none)
      else
        some (Extent.default :: es, none)
    else
      (removeExtent block length es).map fun r => (e :: r.1, r.2)

def removeBlocksAux : Nat → Nat → Nat → Nat → FsM Unit
  | 0, _, _, _ => throw .crash
  | fuel + 1, block, length, parentBlock => do
    if parentBlock = 0 then
      throw (.errno .ENOENT)
    let parent ← node parentBlock
    match removeExtent block length parent.2.extents with
    | some (extents, replaceOption) =>
      let _ ← writeAt parent.1 { parent.2 with extents := extents }.encode
      match replaceOption with
      | some replace => insertBlocks replace.block replace.length parentBlock
      | none => pure ()
      deallocate block 512
    | none => removeBlocksAux fuel block length parent.2.next

def removeBlocks (block length parentBlock : Nat) : FsM Unit := do
  removeBlocksAux (← get).fuel block length parentBlock

def removeNode (mode : Nat) (name : String) (parentBlock : Nat) : FsM Unit := do
  let child ← findNode name parentBlock
  if child.2.mode &&& Node.MODE_TYPE = mode then
    if child.2.isDir then
      let children ← childNodes child.1
      if !children.isEmpty then
        throw (.errno .ENOTEMPTY)
    removeBlocks child.1 1 parentBlock
    let _ ← writeAt child.1 Node.default.encode
    return ()
  else if child.2.isDir then
    throw (.errno .EISDIR)
  else
    throw (.errno .ENOTDIR)

/-- The loop of `node_ensure_len`: whether an extent changed, the extents, and the length left. -/
def ensureExtents : Nat → List Extent → Bool × List Extent × Nat
  | length, [] => (false, [], length)
  | length, e :: es =>
    if e.length ≥ length then
      (false, e :: es, 0)
    else
      let allocated := 512 * (wrap64 (e.length + 511) / 512)
      if allocated ≥ length then
        (true, { e with length := length } :: es, 0)
      else
        let rest := ensureExtents (length - allocated) es
        (true, { e with length := allocated } :: rest.2.1, rest.2.2)

def nodeEnsureLenAux : Nat → Nat → Nat → FsM Unit
  | 0, _, _ => throw .crash
  | fuel + 1, block, length => do
    if block = 0 then
      throw (.errno .ENOENT)
    let n ← node block
    let (changed, extents, length) := ensureExtents length n.2.extents
    if changed then
      let _ ← writeAt n.1 { n.2 with extents := extents }.encode
    if length > 0 then
      if n.2.next > 0 then
        nodeEnsureLenAux fuel n.2.next length
      else
        let newBlock ← allocate (wrap64 (length + 511) / 512)
        insertBlocks newBlock length block
    else
      return ()

def nodeEnsureLen (block length : Nat) : FsM Unit := do
  nodeEnsureLenAux (← get).fuel block length

/-- The loop of `node_set_len`. -/
def truncateExtents : Nat → List Extent → Bool × List Extent × Nat
  | length, [] => (false, [], length)
  | length, e :: es =>
    if e.length > length then
      let rest := truncateExtents 0 es
      (true, { e with length := length } :: rest.2.1, rest.2.2)
    else
      let rest := truncateExtents (length - e.length) es
      (rest.1, e :: rest.2.1, rest.2.2)

def nodeSetLenAux : Nat → Nat → Nat → FsM Unit
  | 0, _, _ => throw .crash
  | fuel + 1, block, length => do
    if block = 0 then
      throw (.errno .ENOENT)
    let n ← node block
    let (changed, extents, length) := truncateExtents length n.2.extents
    if changed then
      let _ ← writeAt n.1 { n.2 with extents := extents }.encode
    if n.2.next > 0 then
      nodeSetLenAux fuel n.2.next length
    else
      return ()

def nodeSetLen (block length : Nat) : FsM Unit := do
  nodeSetLenAux (← get).fuel block length

/-- The inner loop of `node_extents` over the sectors of one extent: the sectors still to skip, the
bytes still wanted, and the extent to push. -/
def pushBlocks : List (Nat × Nat) → Nat → Nat → Extent → Nat × Nat × Extent
  | [], offset, len, push => (offset, len, push)
  | (block, size) :: blocks, offset, len, push =>
    if offset = 0 then
      let push := if push.block = 0 then { push with block := block } else push
      if len ≥ size then
        pushBlocks blocks 0 (len - size) { push with length := push.length + size }
      else if len > 0 then
        (0, 0, { push with length := push.length + len })
      else
        (0, len, push)
    else
      pushBlocks blocks (offset - 1) len push

/-- The outer loop of `node_extents`. -/
def pushExtents : List Extent → Nat → Nat → List Extent → Nat × Nat × List Extent
  | [], offset, len, extents => (offset, len, extents)
  | e :: es, offset, len, extents =>
    let (offset, len, push) := pushBlocks e.blocks offset len Extent.default
    let extents := if push.length > 0 then extents ++ [push] else extents
    if len = 0 then (offset, len, extents) else pushExtents es offset len extents

def nodeExtentsAux : Nat → Nat → Nat → Nat → List Extent → FsM (List Extent)
  | 0, _, _, _, _ => throw .crash
  | fuel + 1, block, offset, len, extents => do
    if block = 0 then
      return extents
    let n ← node block
    let (offset, len, extents) := pushExtents n.2.extents offset len extents
    if len > 0 then
      nodeExtentsAux fuel n.2.next offset len extents
    else
      return extents

def nodeExtents (block offset len : Nat) : FsM (List Extent) := do
  nodeExtentsAux (← get).fuel block offset len []

/-- `src` copied over `buf` from `i` on, as far as both reach. -/
def copyAt (buf : List UInt8) (i : Nat) (src : List UInt8) : List UInt8 :=
  overlay buf i (src.take (buf.length - i))

/-- What `read_node` carries from one extent to the next. -/
structure Progress where
  buf : List UInt8
  i : Nat
  byteOffset : Nat

/-- One partial sector of `read_node`: `sector[from..to]` into `buf[i..]`. A range that ends before
it starts is a failed slice. -/
def readSector (block start stop : Nat) (p : Progress) : FsM Progress := do
  let sector ← readAt block 512
  if stop < start then
    throw .crash
  let src := (sector.take stop).drop start
  return { p with buf := copyAt p.buf p.i src, i := p.i + min src.length (p.buf.length - p.i) }

/-- The body of `read_node`'s loop. -/
def readExtent (e : Extent) (p : Progress) : FsM Progress := do
  let mut p := p
  let mut block := e.block
  let mut length := e.length
  if p.byteOffset > 0 ∧ length > 0 then
    let sectorSize := min 512 length
    p ← readSector block p.byteOffset sectorSize p
    block := block + 1
    length := length - sectorSize
    p := { p with byteOffset := 0 }
  let lengthAligned := 512 * (min length (p.buf.length - p.i) / 512)
  if lengthAligned > 0 then
    let bytes ← readAt block lengthAligned
    p := { p with buf := copyAt p.buf p.i bytes, i := p.i + lengthAligned }
    block := block + lengthAligned / 512
    length := length - lengthAligned
  if length > 0 then
    let sectorSize := min 512 length
    p ← readSector block 0 sectorSize p
    block := block + 1
    length := length - sectorSize
  if length ≠ 0 ∨ block ≠ e.block + (e.length + 511) / 512 then
    throw .crash
  return p

/-- The buffer after the call and the count returned. -/
def readNode (block offset : Nat) (buf : List UInt8) : FsM (List UInt8 × Nat) := do
  let blockOffset := offset / 512
  let byteOffset := offset % 512
  let extents ← nodeExtents block blockOffset (byteOffset + buf.length)
  let p ← extents.foldlM (fun p e => readExtent e p) ⟨buf, 0, byteOffset⟩
  return (p.buf, p.i)

/-- One partial sector of `write_node`: read, `buf[i..]` copied over `sector[start..stop]`,
written back. -/
def writeSector (block start stop : Nat) (p : Progress) : FsM Progress := do
  let sector ← readAt block 512
  if stop < start then
    throw .crash
  let src := (p.buf.drop p.i).take (stop - start)
  let _ ← writeAt block (overlay sector start src)
  return { p with i := p.i + src.length }

/-- The body of `write_node`'s loop. -/
def writeExtent (e : Extent) (p : Progress) : FsM Progress := do
  let mut p := p
  let mut block := e.block
  let mut length := e.length
  if p.byteOffset > 0 ∧ length > 0 then
    let sectorSize := min 512 length
    p ← writeSector block p.byteOffset sectorSize p
    block := block + 1
    length := length - sectorSize
    p := { p with byteOffset := 0 }
  let lengthAligned := 512 * (min length (p.buf.length - p.i) / 512)
  if lengthAligned > 0 then
    let _ ← writeAt block ((p.buf.drop p.i).take lengthAligned)
    p := { p with i := p.i + lengthAligned }
    block := block + lengthAligned / 512
    length := length - lengthAligned
  if length > 0 then
    let sectorSize := min 512 length
    p ← writeSector block 0 sectorSize p
    block := block + 1
    length := length - sectorSize
  if length ≠ 0 ∨ block ≠ e.block + (e.length + 511) / 512 then
    throw .crash
  return p

def writeNode (block offset : Nat) (buf : List UInt8) : FsM Nat := do
  let blockOffset := offset / 512
  let byteOffset := offset % 512
  nodeEnsureLen block (wrap64 (512 * blockOffset + (byteOffset + buf.length)))
  let extents ← nodeExtents block blockOffset (byteOffset + buf.length)
  let p ← extents.foldlM (fun p e => writeExtent e p) ⟨buf, 0, byteOffset⟩
  return p.i

def nodeLenAux : Nat → Nat → FsM Nat
  | 0, _ => throw .crash
  | fuel + 1, block => do
    if block = 0 then
      throw (.errno .ENOENT)
    let n ← node block
    let size := (n.2.extents.map Extent.length).sum
    if n.2.next > 0 then
      return size + (← nodeLenAux fuel n.2.next)
    else
      return size

def nodeLen (block : Nat) : FsM Nat := do
  nodeLenAux (← get).fuel block

end Origel.RedoxFs
