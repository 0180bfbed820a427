import Origel.Lib.Store

/-! The on-disk records of RedoxFS and the disk that holds them. Fields are `Nat`; a record is cut
to its field widths when it is encoded. -/
namespace Origel.RedoxFs

open Origel.Lib

/-- The error numbers the file system and its scheme return. -/
inductive Errno where
  | EPERM | ENOENT | EIO | EBADF | EACCES | EEXIST | ENOTDIR | EISDIR | EINVAL | ENOSPC | ENOTEMPTY
  deriving DecidableEq, Repr

/-- An operation ends early with an error number, or takes the process down: a failed slice or
assertion, or a recursion along a cyclic `next` chain. -/
inductive Fault where
  | errno (e : Errno)
  | crash
  deriving DecidableEq, Repr

/-- 64-bit arithmetic wraps: the daemons are built with `--release`. -/
def wrap64 (n : Nat) : Nat := n % 2 ^ 64

theorem wrap64_of_lt {n : Nat} (h : n < 2 ^ 64) : wrap64 n = n := Nat.mod_eq_of_lt h

/-- A disk that transfers whole buffers without error. -/
structure Disk where
  size : Nat
  bytes : Nat → UInt8

namespace Disk

def readAt (d : Disk) (block n : Nat) : List UInt8 := load d.bytes (wrap64 (512 * block)) n

def writeAt (d : Disk) (block : Nat) (buffer : List UInt8) : Disk :=
  { d with bytes := store d.bytes (wrap64 (512 * block)) buffer }

end Disk

structure Extent where
  block : Nat
  length : Nat
  deriving DecidableEq, Repr

namespace Extent

def default : Extent := ⟨0, 0⟩

/-- `BlockIter`: the sectors of the extent, each with the bytes it holds. -/
def blocks (e : Extent) : List (Nat × Nat) :=
  (List.range (wrap64 (e.length + 511) / 512)).map fun i =>
    (wrap64 (e.block + i), min 512 (e.length - 512 * i))

end Extent

structure Header where
  signature : List UInt8
  version : Nat
  uuid : List UInt8
  size : Nat
  root : Nat
  free : Nat

namespace Header

/-- `b"RedoxFS\0"` -/
def SIGNATURE : List UInt8 := [82, 101, 100, 111, 120, 70, 83, 0]

def VERSION : Nat := 1

def new (size root free : Nat) : Header :=
  ⟨SIGNATURE, VERSION, List.replicate 16 0, size, root, free⟩

def encode (h : Header) : List UInt8 :=
  h.signature ++ toLe 8 h.version ++ h.uuid ++ toLe 8 h.size ++ toLe 8 h.root ++ toLe 8 h.free ++
    List.replicate 456 0

end Header

/-- The bytes of a string. -/
def utf8 (s : String) : List UInt8 := s.toByteArray.data.toList

/-- `str::from_utf8` -/
def fromUtf8 (bs : List UInt8) : Option String := String.fromUTF8? ⟨bs.toArray⟩

theorem fromUtf8_eq_some {bs : List UInt8} {s : String} : fromUtf8 bs = some s ↔ bs = utf8 s := by
  constructor
  · intro h
    unfold fromUtf8 String.fromUTF8? at h
    split at h
    · cases h
      simp [utf8, String.fromUTF8]
    · cases h
  · rintro rfl
    have hb : (⟨(utf8 s).toArray⟩ : ByteArray) = s.toByteArray := by simp [utf8]
    rw [fromUtf8, hb, String.fromUTF8?, dif_pos s.isValidUTF8]
    rfl

theorem utf8_injective : Function.Injective utf8 := by
  intro s t h
  have hs := fromUtf8_eq_some.mpr (rfl : utf8 s = utf8 s)
  rw [h, fromUtf8_eq_some.mpr rfl] at hs
  exact (Option.some.inj hs).symm

/-- A file or folder node. -/
structure Node where
  mode : Nat
  uid : Nat
  gid : Nat
  name : List UInt8
  parent : Nat
  next : Nat
  extents : List Extent
  deriving DecidableEq, Repr

namespace Node

def MODE_TYPE : Nat := 0xF000
def MODE_FILE : Nat := 0x8000
def MODE_DIR : Nat := 0x4000
def MODE_PERM : Nat := 0x0FFF
def MODE_EXEC : Nat := 0o1
def MODE_WRITE : Nat := 0o2
def MODE_READ : Nat := 0o4

def default : Node :=
  ⟨0, 0, 0, List.replicate 246 0, 0, 0, List.replicate 15 Extent.default⟩

def new (mode : Nat) (name : String) (parent : Nat) : Node :=
  ⟨mode, 0, 0, (utf8 name ++ List.replicate 246 0).take 246, parent, 0,
    List.replicate 15 Extent.default⟩

/-- `Node::name`: the bytes up to the first zero, if they are valid UTF-8. -/
def nameStr (n : Node) : Option String := fromUtf8 (n.name.takeWhile (· ≠ 0))

def isDir (n : Node) : Bool := n.mode &&& MODE_TYPE = MODE_DIR

def permission (n : Node) (uid gid op : Nat) : Bool :=
  let perm := n.mode &&& 0o7
  let perm := if n.uid = uid then perm ||| ((n.mode >>> 6) &&& 0o7) else perm
  let perm := if n.gid = gid ∨ gid = 0 then perm ||| ((n.mode >>> 3) &&& 0o7) else perm
  let perm := if uid = 0 then perm ||| 0o7 else perm
  perm &&& op = op

theorem isDir_congr {n n' : Node} (h : n'.mode = n.mode) : n'.isDir = n.isDir := by
  unfold isDir
  rw [h]

/-- The `repr(packed)` layout, 512 bytes without padding. -/
def encode (n : Node) : List UInt8 :=
  toLe 2 n.mode ++ (toLe 4 n.uid ++ (toLe 4 n.gid ++ (n.name ++ (toLe 8 n.parent ++ (toLe 8 n.next ++
    n.extents.flatMap fun e => toLe 8 e.block ++ toLe 8 e.length)))))

def decodeExtents : Nat → List UInt8 → List Extent
  | 0, _ => []
  | k + 1, bs =>
    ⟨ofLe (bs.take 8), ofLe ((bs.drop 8).take 8)⟩ :: decodeExtents k (bs.drop 16)

def decode (bs : List UInt8) : Node where
  mode := ofLe (bs.take 2)
  uid := ofLe ((bs.drop 2).take 4)
  gid := ofLe ((bs.drop 6).take 4)
  name := (bs.drop 10).take 246
  parent := ofLe ((bs.drop 256).take 8)
  next := ofLe ((bs.drop 264).take 8)
  extents := decodeExtents 15 (bs.drop 272)

/-- Every field fits its place in the layout. -/
structure Valid (n : Node) : Prop where
  mode : n.mode < 2 ^ 16
  uid : n.uid < 2 ^ 32
  gid : n.gid < 2 ^ 32
  name : n.name.length = 246
  parent : n.parent < 2 ^ 64
  next : n.next < 2 ^ 64
  count : n.extents.length = 15
  extents : ∀ e ∈ n.extents, e.block < 2 ^ 64 ∧ e.length < 2 ^ 64

theorem length_encodeExtents (es : List Extent) :
    (es.flatMap fun e => toLe 8 e.block ++ toLe 8 e.length).length = 16 * es.length := by
  induction es with
  | nil => rfl
  | cons e es ih => simp [ih]; omega

theorem length_encode {n : Node} (h : n.Valid) : n.encode.length = 512 := by
  simp only [encode, List.length_append, length_toLe, length_encodeExtents, h.name, h.count]

@[simp] theorem length_decodeExtents (k : Nat) (bs : List UInt8) :
    (decodeExtents k bs).length = k := by
  induction k generalizing bs with
  | zero => rfl
  | succ k ih => simp [decodeExtents, ih]

theorem decodeExtents_encode (es : List Extent)
    (h : ∀ e ∈ es, e.block < 2 ^ 64 ∧ e.length < 2 ^ 64) :
    decodeExtents es.length (es.flatMap fun e => toLe 8 e.block ++ toLe 8 e.length) = es := by
  induction es with
  | nil => rfl
  | cons e es ih =>
    have he := h e (by simp)
    have hr := ih fun x hx => h x (by simp [hx])
    simp only [List.length_cons, List.flatMap_cons, decodeExtents]
    generalize hrest : (es.flatMap fun e => toLe 8 e.block ++ toLe 8 e.length) = rest at hr
    have hb : ofLe (toLe 8 e.block) = e.block := ofLe_toLe (by simpa using he.1)
    have hl : ofLe (toLe 8 e.length) = e.length := ofLe_toLe (by simpa using he.2)
    have h1 : (toLe 8 e.block ++ toLe 8 e.length ++ rest).take 8 = toLe 8 e.block := by
      rw [List.append_assoc, List.take_append_of_le_length (by simp), List.take_of_length_le (by simp)]
    have h2 : (toLe 8 e.block ++ toLe 8 e.length ++ rest).drop 8 = toLe 8 e.length ++ rest := by
      rw [List.append_assoc, List.drop_append_of_le_length (by simp), List.drop_of_length_le (by simp)]
      rfl
    have h3 : (toLe 8 e.length ++ rest).take 8 = toLe 8 e.length := by
      rw [List.take_append_of_le_length (by simp), List.take_of_length_le (by simp)]
    have h4 : (toLe 8 e.block ++ toLe 8 e.length ++ rest).drop 16 = rest := by
      rw [List.drop_append_of_le_length (by simp), List.drop_of_length_le (by simp)]
      rfl
    rw [h1, h2, h3, h4, hb, hl, hr]

/-- What is written as a node is read back as that node. -/
theorem decode_encode {n : Node} (h : n.Valid) : decode n.encode = n := by
  have hm : ofLe (toLe 2 n.mode) = n.mode := ofLe_toLe (by simpa using h.mode)
  have hu : ofLe (toLe 4 n.uid) = n.uid := ofLe_toLe (by simpa using h.uid)
  have hg : ofLe (toLe 4 n.gid) = n.gid := ofLe_toLe (by simpa using h.gid)
  have hp : ofLe (toLe 8 n.parent) = n.parent := ofLe_toLe (by simpa using h.parent)
  have hn : ofLe (toLe 8 n.next) = n.next := ofLe_toLe (by simpa using h.next)
  have hx := decodeExtents_encode n.extents h.extents
  rw [h.count] at hx
  have hname := h.name
  obtain ⟨mode, uid, gid, name, parent, next, extents⟩ := n
  simp only [decode, encode] at *
  simp [List.drop_append, List.drop_of_length_le, hname, hm, hu, hg, hp, hn, hx]

theorem encodeExtents_decode (k : Nat) (bs : List UInt8) (h : bs.length = 16 * k) :
    ((decodeExtents k bs).flatMap fun e => toLe 8 e.block ++ toLe 8 e.length) = bs := by
  induction k generalizing bs with
  | zero => simp [decodeExtents, List.eq_nil_of_length_eq_zero h]
  | succ k ih =>
    have h1 := toLe_ofLe (bs.take 8)
    have h2 := toLe_ofLe ((bs.drop 8).take 8)
    have l1 : (bs.take 8).length = 8 := by simp; omega
    have l2 : ((bs.drop 8).take 8).length = 8 := by simp; omega
    rw [l1] at h1
    rw [l2] at h2
    simp only [decodeExtents, List.flatMap_cons, h1, h2]
    have h3 : bs.drop 16 = (bs.drop 8).drop 8 := by rw [List.drop_drop]
    rw [ih _ (by simp; omega), List.append_assoc, h3, List.take_append_drop, List.take_append_drop]

/-- A sector read as a node and written back is the same sector. -/
theorem encode_decode {bs : List UInt8} (h : bs.length = 512) : (decode bs).encode = bs := by
  have field : ∀ a k, a + k ≤ 512 → toLe k (ofLe ((bs.drop a).take k)) = (bs.drop a).take k := by
    intro a k hak
    have hl : ((bs.drop a).take k).length = k := by simp; omega
    simpa [hl] using toLe_ofLe ((bs.drop a).take k)
  have e1 := field 0 2 (by omega)
  rw [List.drop_zero] at e1
  simp only [decode, encode, e1, field 2 4 (by omega), field 6 4 (by omega), field 256 8 (by omega),
    field 264 8 (by omega)]
  rw [encodeExtents_decode 15 _ (by simp [h])]
  have step : ∀ a b c, a + b = c → (bs.drop a).take b ++ bs.drop c = bs.drop a := by
    intro a b c hc
    rw [← hc, ← List.drop_drop, List.take_append_drop]
  rw [step 264 8 272 rfl, step 256 8 264 rfl, step 10 246 256 rfl, step 6 4 10 rfl,
    step 2 4 6 rfl, List.take_append_drop]

theorem valid_decodeExtents (k : Nat) (bs : List UInt8) :
    ∀ e ∈ decodeExtents k bs, e.block < 2 ^ 64 ∧ e.length < 2 ^ 64 := by
  have bound : ∀ cs : List UInt8, ofLe (cs.take 8) < 2 ^ 64 := by
    intro cs
    have h := ofLe_lt (cs.take 8)
    have hp : 256 ^ (cs.take 8).length ≤ 256 ^ 8 := Nat.pow_le_pow_right (by omega) (by simp)
    have : (256 : Nat) ^ 8 = 2 ^ 64 := by norm_num
    omega
  induction k generalizing bs with
  | zero => simp [decodeExtents]
  | succ k ih =>
    intro e he
    simp only [decodeExtents, List.mem_cons] at he
    rcases he with rfl | he
    · exact ⟨bound bs, bound (bs.drop 8)⟩
    · exact ih _ e he

/-- No invalid node comes off the disk. -/
theorem valid_decode {bs : List UInt8} (h : bs.length = 512) : (decode bs).Valid := by
  have bound : ∀ (a k : Nat), ofLe ((bs.drop a).take k) < 256 ^ k := by
    intro a k
    have h := ofLe_lt ((bs.drop a).take k)
    have hp : 256 ^ ((bs.drop a).take k).length ≤ 256 ^ k :=
      Nat.pow_le_pow_right (by omega) (by simp)
    omega
  have mode := bound 0 2
  rw [List.drop_zero] at mode
  exact ⟨mode, bound 2 4, bound 6 4, by simp [decode, h], bound 256 8, bound 264 8,
    by simp [decode], valid_decodeExtents 15 _⟩

theorem eq_default_of_mem {e : Extent} (h : e ∈ List.replicate 15 Extent.default) :
    e = ⟨0, 0⟩ := List.eq_of_mem_replicate h

theorem valid_default : default.Valid where
  mode := by decide
  uid := by decide
  gid := by decide
  name := List.length_replicate
  parent := by decide
  next := by decide
  count := List.length_replicate
  extents := by
    intro e he
    rw [eq_default_of_mem he]
    decide

theorem valid_new {mode parent : Nat} (name : String) (hm : mode < 2 ^ 16) (hp : parent < 2 ^ 64) :
    (new mode name parent).Valid where
  mode := hm
  uid := Nat.two_pow_pos 32
  gid := Nat.two_pow_pos 32
  name := by simp [new, -List.reduceReplicate]
  parent := hp
  next := Nat.two_pow_pos 64
  count := List.length_replicate
  extents := by
    intro e he
    rw [eq_default_of_mem he]
    decide

/-- A name of at most 246 bytes without a zero byte is stored whole. -/
theorem nameStr_new {mode parent : Nat} {name : String} (hl : (utf8 name).length ≤ 246)
    (h0 : 0 ∉ utf8 name) : (new mode name parent).nameStr = some name := by
  rw [nameStr, fromUtf8_eq_some, new, List.take_append, List.take_of_length_le hl]
  have hall : ∀ b ∈ utf8 name, decide (b ≠ 0) = true := by
    intro b hb
    exact decide_eq_true fun h => h0 (h ▸ hb)
  rw [List.takeWhile_append_of_pos hall, List.take_replicate, List.takeWhile_replicate]
  simp

/-- No node can carry a name with a zero byte or more than 246 bytes. -/
theorem nameStr_fits {n : Node} {name : String} (hn : n.name.length = 246)
    (h : n.nameStr = some name) : (utf8 name).length ≤ 246 ∧ 0 ∉ utf8 name := by
  rw [nameStr, fromUtf8_eq_some] at h
  rw [← h]
  constructor
  · rw [← hn]
    exact (List.takeWhile_sublist _).length_le
  · intro hb
    have hall : (n.name.takeWhile fun b => decide (b ≠ 0)).all fun b => decide (b ≠ 0) :=
      List.all_takeWhile
    simpa using List.all_eq_true.mp hall 0 hb

end Node

end Origel.RedoxFs
