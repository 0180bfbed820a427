import Origel.Lib.Casts
import Origel.Numbers
import Origel.RedoxFs.FileSystem

/-! The scheme daemon: open resources and the requests on them. -/
namespace Origel.RedoxFs

open Origel.Lib

structure DirResource where
  path : String
  block : Nat
  data : List UInt8
  seek : Nat

structure FileResource where
  path : String
  block : Nat
  flags : Nat
  seek : Nat

structure Stat where
  mode : Nat
  uid : Nat
  gid : Nat
  size : Nat
  deriving DecidableEq

/-- Both resources answer `stat` from the node of their block. -/
def statBlock (block : Nat) : FsM Stat := do
  let n ← node block
  return ⟨n.2.mode, n.2.uid, n.2.gid, ← nodeLen block⟩

/-- The common loop of `path` and of the buffer reads: as much of `src` as the buffer takes. -/
def fill (buf src : List UInt8) : List UInt8 × Nat :=
  (copyAt buf 0 src, min buf.length src.length)

/-- The position both resources seek to in something of the given size. -/
def seekTarget (size pos offset whence : Nat) : Except Errno Nat :=
  if whence = SEEK_SET then
    .ok (asU64 (min 0 (max (asI64 size) (asI64 offset))))
  else if whence = SEEK_CUR then
    .ok (asU64 (min 0 (max (asI64 size) (asI64 (asI64 pos + asI64 offset)))))
  else if whence = SEEK_END then
    .ok (asU64 (min 0 (max (asI64 size) (asI64 (asI64 size + asI64 offset)))))
  else
    .error .EINVAL

namespace DirResource

def new (path : String) (block : Nat) (data : List UInt8) : DirResource := ⟨path, block, data, 0⟩

def dup (r : DirResource) (_buf : List UInt8) : Except Errno DirResource := .ok r

def read (r : DirResource) (buf : List UInt8) : DirResource × List UInt8 × Nat :=
  let filled := fill buf (r.data.drop r.seek)
  ({ r with seek := r.seek + filled.2 }, filled)

def lseek (r : DirResource) (offset whence : Nat) : Except Errno (DirResource × Nat) := do
  let pos ← seekTarget r.data.length r.seek offset whence
  return ({ r with seek := pos }, pos)

end DirResource

namespace FileResource

def new (path : String) (block flags : Nat) : FileResource := ⟨path, block, flags, 0⟩

/-- `b"exec"` -/
def EXEC : List UInt8 := [101, 120, 101, 99]

def dup (r : FileResource) (buf : List UInt8) : Except Errno FileResource :=
  if buf = EXEC ∧ r.flags &&& O_CLOEXEC = O_CLOEXEC then .error .EBADF else .ok r

def canRead (r : FileResource) : Bool :=
  r.flags &&& O_ACCMODE = O_RDWR ∨ r.flags &&& O_ACCMODE = O_RDONLY

def canWrite (r : FileResource) : Bool :=
  r.flags &&& O_ACCMODE = O_RDWR ∨ r.flags &&& O_ACCMODE = O_WRONLY

def read (r : FileResource) (buf : List UInt8) : FsM (FileResource × List UInt8 × Nat) := do
  if r.canRead then
    let (buf, count) ← readNode r.block r.seek buf
    return ({ r with seek := r.seek + count }, buf, count)
  else
    throw (.errno .EBADF)

def write (r : FileResource) (buf : List UInt8) : FsM (FileResource × Nat) := do
  if r.canWrite then
    let count ← writeNode r.block r.seek buf
    return ({ r with seek := r.seek + count }, count)
  else
    throw (.errno .EBADF)

def lseek (r : FileResource) (offset whence : Nat) : FsM (FileResource × Nat) := do
  let size ← nodeLen r.block
  match seekTarget size r.seek offset whence with
  | .ok pos => return ({ r with seek := pos }, pos)
  | .error e => throw (.errno e)

def fcntl (r : FileResource) (cmd arg : Nat) : Except Errno (FileResource × Nat) :=
  if cmd = F_GETFL then .ok (r, r.flags)
  -- `arg & !O_ACCMODE`
  else if cmd = F_SETFL then .ok ({ r with flags := arg ^^^ (arg &&& O_ACCMODE) }, 0)
  else .error .EINVAL

def truncate (r : FileResource) (len : Nat) : FsM Nat := do
  if r.canWrite then
    nodeSetLen r.block len
    return 0
  else
    throw (.errno .EBADF)

end FileResource

inductive Resource where
  | dir (r : DirResource)
  | file (r : FileResource)

namespace Resource

def block : Resource → Nat
  | dir r => r.block
  | file r => r.block

def path : Resource → String
  | dir r => r.path
  | file r => r.path

def dup : Resource → List UInt8 → Except Errno Resource
  | dir r, buf => (r.dup buf).map dir
  | file r, buf => (r.dup buf).map file

def read : Resource → List UInt8 → FsM (Resource × List UInt8 × Nat)
  | dir r, buf => return (dir (r.read buf).1, (r.read buf).2)
  | file r, buf => do
    let (r, reply) ← r.read buf
    return (file r, reply)

def write : Resource → List UInt8 → FsM (Resource × Nat)
  | dir _, _ => throw (.errno .EBADF)
  | file r, buf => do
    let (r, count) ← r.write buf
    return (file r, count)

def lseek : Resource → Nat → Nat → FsM (Resource × Nat)
  | dir r, offset, whence =>
    match r.lseek offset whence with
    | .ok (r, pos) => return (dir r, pos)
    | .error e => throw (.errno e)
  | file r, offset, whence => do
    let (r, pos) ← r.lseek offset whence
    return (file r, pos)

def fcntl : Resource → Nat → Nat → Except Errno (Resource × Nat)
  | dir _, _, _ => .error .EBADF
  | file r, cmd, arg => (r.fcntl cmd arg).map fun p => (file p.1, p.2)

def stat (r : Resource) : FsM Stat := statBlock r.block

def sync : Resource → Except Errno Nat
  | dir _ => .error .EBADF
  | file _ => .ok 0

def truncate : Resource → Nat → FsM Nat
  | dir _, _ => throw (.errno .EBADF)
  | file r, len => r.truncate len

end Resource

structure FileScheme where
  name : String
  fs : FileSystem
  nextId : Nat
  files : Nat → Option Resource

abbrev SchemeM := EStateM Fault FileScheme

namespace FileScheme

def new (name : String) (fs : FileSystem) : FileScheme := ⟨name, fs, 1, fun _ => none⟩

/-- A file system operation inside a request. -/
def onFs {α : Type} (x : FsM α) : SchemeM α := fun s =>
  match x s.fs with
  | .ok a fs => .ok a { s with fs := fs }
  | .error e fs => .error e { s with fs := fs }

def fail {α : Type} (e : Errno) : SchemeM α := throw (.errno e)

def lift {α : Type} : Except Errno α → SchemeM α
  | .ok a => return a
  | .error e => fail e

/-- `str::from_utf8(url).unwrap_or("").trim_matches('/')` -/
def urlPath (url : List UInt8) : String :=
  let trim := fun l : List Char => l.dropWhile (· = '/')
  String.ofList (trim (trim ((fromUtf8 url).getD "").toList).reverse).reverse

/-- The loop over the resolved nodes that begins `open`, `chmod`, `rmdir` and `unlink`. -/
def checkPath (uid gid : Nat) : List (Nat × Node) → SchemeM Unit
  | [] => return ()
  | n :: ns => do
    if !n.2.permission uid gid Node.MODE_EXEC then
      fail .EACCES
    if !n.2.isDir then
      fail .ENOTDIR
    checkPath uid gid ns

/-- The names of a directory's children, one to a line. -/
def dirData : List (Nat × Node) → List UInt8 → List UInt8
  | [], data => data
  | child :: children, data =>
    match child.2.nameStr with
    | some name =>
      dirData children ((if data.isEmpty then data else data ++ [10]) ++ utf8 name)
    | none => dirData children data

def openDir (path : String) (n : Nat × Node) (flags uid gid : Nat) : SchemeM Resource := do
  if flags &&& O_STAT ≠ O_STAT ∧ flags &&& O_DIRECTORY ≠ O_DIRECTORY then
    fail .EISDIR
  if flags &&& O_ACCMODE = O_RDONLY then
    if !n.2.permission uid gid Node.MODE_READ then
      fail .EACCES
    let children ← onFs (childNodes n.1)
    return .dir (DirResource.new path n.1 (dirData children []))
  else if flags &&& O_STAT = O_STAT then
    return .dir (DirResource.new path n.1 [])
  else
    fail .EACCES

/-- The two access checks that `open` makes on an existing and on a created file. -/
def checkAccess (n : Node) (flags uid gid : Nat) : SchemeM Unit := do
  if (flags &&& O_ACCMODE = O_RDONLY ∨ flags &&& O_ACCMODE = O_RDWR) ∧
      !n.permission uid gid Node.MODE_READ then
    fail .EACCES
  if (flags &&& O_ACCMODE = O_WRONLY ∨ flags &&& O_ACCMODE = O_RDWR) ∧
      !n.permission uid gid Node.MODE_WRITE then
    fail .EACCES

def openFile (path : String) (n : Nat × Node) (flags uid gid : Nat) : SchemeM Resource := do
  if flags &&& O_DIRECTORY = O_DIRECTORY then
    fail .ENOTDIR
  checkAccess n.2 flags uid gid
  if flags &&& O_TRUNC = O_TRUNC then
    if !n.2.permission uid gid Node.MODE_WRITE then
      fail .EACCES
    onFs (nodeSetLen n.1 0)
  return .file (FileResource.new path n.1 flags)

/-- The last non-empty part of the path. -/
def lastPart (path : String) : String :=
  ((splitPath path).filter fun part => !part.isEmpty).getLast?.getD ""

/-- The branch of `open` that creates what the path does not resolve to. -/
def openCreate (path : String) (nodes : List (Nat × Node)) (flags uid gid : Nat) :
    SchemeM Resource := do
  if (lastPart path).isEmpty then
    fail .EPERM
  match nodes.getLast? with
  | none => fail .EPERM
  | some parent =>
    if !parent.2.permission uid gid Node.MODE_WRITE then
      fail .EACCES
    let dir := flags &&& O_DIRECTORY = O_DIRECTORY
    let mode := (if dir then Node.MODE_DIR else Node.MODE_FILE) |||
      (flags % 2 ^ 16 &&& Node.MODE_PERM)
    let n ← onFs (createNode mode (lastPart path) parent.1)
    let n := (n.1, { n.2 with uid := uid, gid := gid })
    let _ ← onFs (writeAt n.1 n.2.encode)
    checkAccess n.2 flags uid gid
    if dir then
      return .dir (DirResource.new path n.1 [])
    else
      return .file (FileResource.new path n.1 flags)

/-- `next_id.fetch_add(1)` and the insertion under the number it had. -/
def addFile (r : Resource) : SchemeM Nat :=
  modifyGet fun s => (s.nextId,
    { s with nextId := wrap64 (s.nextId + 1), files := Function.update s.files s.nextId (some r) })

/-- `open` -/
def openUrl (url : List UInt8) (flags uid gid : Nat) : SchemeM Nat := do
  let path := urlPath url
  let (nodes, nodeResult) ← onFs (pathNodes path)
  checkPath uid gid nodes
  let resource ← match nodeResult with
    | .ok n =>
      if flags &&& (O_CREAT ||| O_EXCL) = O_CREAT ||| O_EXCL then
        fail .EEXIST
      else if n.2.isDir then
        openDir path n flags uid gid
      else
        openFile path n flags uid gid
    | .error err =>
      if err = .ENOENT ∧ flags &&& O_CREAT = O_CREAT then
        openCreate path nodes flags uid gid
      else
        fail err
  addFile resource

def chmod (url : List UInt8) (mode uid gid : Nat) : SchemeM Nat := do
  let (nodes, nodeResult) ← onFs (pathNodes (urlPath url))
  checkPath uid gid nodes
  let n ← lift nodeResult
  if n.2.uid = uid ∨ uid = 0 then
    -- `mode & !MODE_PERM` keeps the type bits
    let n := (n.1, { n.2 with
      mode := (n.2.mode &&& Node.MODE_TYPE) ||| (mode &&& Node.MODE_PERM) })
    let _ ← onFs (writeAt n.1 n.2.encode)
    return 0
  else
    fail .EPERM

/-- The common shape of `rmdir` and `unlink`: `wantDir` says which of the two kinds is removed, and
`wrong` is the error for the other. -/
def removeUrl (wantDir : Bool) (mode : Nat) (wrong : Errno) (url : List UInt8) (uid gid : Nat) :
    SchemeM Nat := do
  let (nodes, nodeResult) ← onFs (pathNodes (urlPath url))
  let child ← lift nodeResult
  checkPath uid gid nodes
  match nodes.getLast? with
  | none => fail .EPERM
  | some parent =>
    if !parent.2.permission uid gid Node.MODE_WRITE then
      fail .EACCES
    if child.2.isDir = wantDir then
      if !child.2.permission uid gid Node.MODE_WRITE then
        fail .EACCES
      match child.2.nameStr with
      | some name =>
        onFs (removeNode mode name parent.1)
        return 0
      | none => fail .ENOENT
    else
      fail wrong

def rmdir (url : List UInt8) (uid gid : Nat) : SchemeM Nat :=
  removeUrl true Node.MODE_DIR .ENOTDIR url uid gid

def unlink (url : List UInt8) (uid gid : Nat) : SchemeM Nat :=
  removeUrl false Node.MODE_FILE .EISDIR url uid gid

/-- The resource behind a handle. -/
def file (id : Nat) : SchemeM Resource := do
  match (← get).files id with
  | some r => return r
  | none => fail .EBADF

def setFile (id : Nat) (r : Resource) : SchemeM Unit :=
  modify fun s => { s with files := Function.update s.files id (some r) }

def dup (id : Nat) (buf : List UInt8) : SchemeM Nat := do
  let old ← file id
  addFile (← lift (old.dup buf))

def read (id : Nat) (buf : List UInt8) : SchemeM (List UInt8 × Nat) := do
  let (r, reply) ← onFs ((← file id).read buf)
  setFile id r
  return reply

def write (id : Nat) (buf : List UInt8) : SchemeM Nat := do
  let (r, count) ← onFs ((← file id).write buf)
  setFile id r
  return count

def lseek (id pos whence : Nat) : SchemeM Nat := do
  let (r, target) ← onFs ((← file id).lseek pos whence)
  setFile id r
  return target

def fcntl (id cmd arg : Nat) : SchemeM Nat := do
  let (r, reply) ← lift ((← file id).fcntl cmd arg)
  setFile id r
  return reply

def fpath (id : Nat) (buf : List UInt8) : SchemeM (List UInt8 × Nat) := do
  let r ← file id
  return fill buf (utf8 (← get).name ++ [58, 47] ++ utf8 r.path)

def fstat (id : Nat) : SchemeM Stat := do
  onFs (← file id).stat

structure StatVfs where
  bsize : Nat
  blocks : Nat
  bfree : Nat
  bavail : Nat
  deriving DecidableEq

def fstatvfs (id : Nat) : SchemeM StatVfs := do
  let _ ← file id
  let header := (← get).fs.header.2
  let freeSize ← onFs (nodeLen header.free)
  return ⟨512, header.size / 512, freeSize / 512, freeSize / 512⟩

def fsync (id : Nat) : SchemeM Nat := do
  lift (← file id).sync

def ftruncate (id len : Nat) : SchemeM Nat := do
  onFs ((← file id).truncate len)

def close (id : Nat) : SchemeM Nat := do
  let _ ← file id
  modify fun s => { s with files := Function.update s.files id none }
  return 0

end FileScheme

end Origel.RedoxFs
