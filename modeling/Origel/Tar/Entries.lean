import Origel.Tar.Archive

/-! The entries that the headers of an archive tell of. -/
namespace Origel.Tar

namespace Header

/-- The bytes that `read_all` has read into a header -/
def ofBytes (bytes : List UInt8) : Header := if h : bytes.length = 512 then ⟨bytes, h⟩ else newOld

end Header

/-- `EntryFields` -/
structure Entry where
  longPathname : Option (List UInt8)
  longLinkname : Option (List UInt8)
  paxExtensions : Option (List UInt8)
  header : Header
  size : Nat
  data : List EntryIo

/-- A long name is the whole content of its entry, up to a nul byte behind it. -/
def Entry.pathBytes (e : Entry) : List UInt8 :=
  match e.longPathname with
  | some bytes => if bytes.getLast? = some 0 then bytes.dropLast else bytes
  | none => e.header.pathBytes

/-- `EntriesFields` -/
structure Entries where
  archive : Archive
  next : Nat
  done : Bool
  raw : Bool

/-- `(size + 511) & !(512 - 1)` -/
def roundUp (size : Nat) : Nat := (size + 511) / 512 * 512

/-- The sparse headers that follow a GNU header, or lie in it -/
def sparseBlocks (count : Nat) (bytes : List UInt8) : List (List UInt8) :=
  (List.range count).map fun i => (bytes.drop (24 * i)).take 24

/-- The closure `add_block`, with `cur`, `remaining` and `data` -/
def addBlock (size : Nat) (s : Nat × Nat × List EntryIo) (block : List UInt8) :
    Except String (Nat × Nat × List EntryIo) := do
  let (cur, remaining, data) := s
  if block.headD 0 = 0 ∨ (block.drop 12).headD 0 = 0 then .ok s
  else
    let off ← octalFrom (block.take 12)
    let len ← octalFrom (block.drop 12)
    if (size - remaining) % 512 ≠ 0 then
      .error "previous block in sparse file was not aligned to 512-byte boundary"
    else if off < cur then .error "out of order or overlapping sparse blocks"
    else
      let data := if cur < off then data ++ [.pad (off - cur)] else data
      if off + len ≥ 2 ^ 64 then .error "more bytes listed in sparse file than u64 can hold"
      else if remaining < len then .error "sparse file consumed more data than the header listed"
      else .ok (off + len, remaining - len, data ++ [.data len])

namespace Entries

def nextEntryRaw (e : Entries) : Except String (Option Entry × Entries) := do
  let a ← e.archive.skip (e.next - e.archive.pos)
  let (bytes, a) ← a.readAll 512
  let next := e.next + 512
  if bytes.all (· = 0) then
    let (bytes, a) ← a.readAll 512
    if bytes.all (· = 0) then .ok (none, { e with archive := a, next := next + 512 })
    else .error "found block of 0s not followed by a second block of 0s"
  else
    let header := Header.ofBytes bytes
    let cksum ← header.cksum
    if header.checkSum ≠ cksum then .error "archive header checksum mismatch"
    else
      let size ← header.entrySize
      .ok (some ⟨none, none, none, header, size, [.data size]⟩,
        { e with archive := a, next := next + roundUp size })

/-- `while ext.is_extended()`: a block of sparse headers follows, and may say that one more does. -/
def extended (size : Nat) (s : Nat × Nat × List EntryIo) (e : Entries) :
    Except String ((Nat × Nat × List EntryIo) × Entries) :=
  match _hread : e.archive.readAll 512 with
  | .error why => .error why
  | .ok (ext, a) =>
    match (sparseBlocks 21 ext).foldlM (addBlock size) s with
    | .error why => .error why
    | .ok s =>
      let e := { e with archive := a, next := e.next + 512 }
      if (ext.drop 504).headD 0 = 1 then extended size s e else .ok (s, e)
termination_by e.archive.input.length - e.archive.pos
decreasing_by
  have hle := Archive.le_of_readAll _hread (by decide)
  rw [Archive.readAll_ok hle] at _hread
  cases _hread
  dsimp only
  omega

def parseSparseHeader (entry : Entry) (e : Entries) : Except String (Entry × Entries) :=
  if entry.header.entryType ≠ .gnuSparse then .ok (entry, e)
  else if ¬entry.header.isGnu then .error "sparse entry type listed but not GNU header"
  else do
    let s ← (sparseBlocks 4 (entry.header.bytes.drop 386)).foldlM (addBlock entry.size) (0, entry.size, [])
    let ((cur, remaining, data), e) ←
      if entry.header.get .isextended = [1] then extended entry.size s e else .ok (s, e)
    let realSize ← octalFrom (entry.header.get .realsize)
    if cur ≠ realSize then .error "mismatch in sparse file chunks and size in header"
    else if remaining > 0 then .error "mismatch in sparse file chunks and entry size in header"
    else .ok ({ entry with data, size := cur }, e)

/-- The loop of `next_entry`: entries that describe the one behind them, at most one of each kind -/
def describe (longname longlink pax : Option (List UInt8)) (processed : Nat) (e : Entries) :
    Except String (Option Entry × Entries) :=
  match e.nextEntryRaw with
  | .error why => .error why
  | .ok (none, e) =>
    if processed > 0 then
      .error "members found describing a future member but no future member found"
    else .ok (none, e)
  | .ok (some entry, e) =>
    let whole := readToEnd entry.data e.archive
    let e' := { e with archive := whole.2 }
    if entry.header.isGnu ∧ entry.header.entryType = .gnuLongName then
      if longname.isSome then .error "two long name entries describing the same member"
      else describe (some whole.1) longlink pax (processed + 1) e'
    else if entry.header.isGnu ∧ entry.header.entryType = .gnuLongLink then
      if longlink.isSome then .error "two long name entries describing the same member"
      else describe longname (some whole.1) pax (processed + 1) e'
    else if entry.header.isUstar ∧ entry.header.entryType = .xHeader then
      if pax.isSome then .error "two pax extensions entries describing the same member"
      else describe longname longlink (some whole.1) (processed + 1) e'
    else do
      let (entry, e) ← parseSparseHeader
        { entry with longPathname := longname, longLinkname := longlink, paxExtensions := pax } e
      .ok (some entry, e)
termination_by longname.isNone.toNat + longlink.isNone.toNat + pax.isNone.toNat
decreasing_by
  all_goals
    simp_all

def nextEntry (e : Entries) : Except String (Option Entry × Entries) :=
  if e.raw then e.nextEntryRaw else describe none none none 0 e

end Entries

end Origel.Tar
