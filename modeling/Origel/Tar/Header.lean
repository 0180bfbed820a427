import Mathlib.Data.List.Basic
import Mathlib.Algebra.GroupWithZero.Nat
import Origel.Lib.Splice
import Origel.Coreutils.TailLines
import Origel.Coreutils.Cut

/-! The headers of a tar archive: fields of a block of 512 bytes. -/
namespace Origel.Tar

open Origel.Lib Origel.RedoxFs

/-- Where a field is in a header. -/
structure Field where
  offset : Nat
  size : Nat
  within : offset + size ≤ 512 := by decide

namespace Field

def name : Field := { offset := 0, size := 100 }
def mode : Field := { offset := 100, size := 8 }
def uid : Field := { offset := 108, size := 8 }
def gid : Field := { offset := 116, size := 8 }
def size' : Field := { offset := 124, size := 12 }
def mtime : Field := { offset := 136, size := 12 }
def cksum : Field := { offset := 148, size := 8 }
def linkflag : Field := { offset := 156, size := 1 }
def magic : Field := { offset := 257, size := 6 }
def version : Field := { offset := 263, size := 2 }
def devMajor : Field := { offset := 329, size := 8 }
def devMinor : Field := { offset := 337, size := 8 }
/-- Of a ustar header -/
def namePrefix : Field := { offset := 345, size := 155 }
/-- Of a GNU header -/
def isextended : Field := { offset := 482, size := 1 }
/-- Of a GNU header -/
def realsize : Field := { offset := 483, size := 12 }

/-- The fields have no byte in common. -/
def Apart (f g : Field) : Prop := f.offset + f.size ≤ g.offset ∨ g.offset + g.size ≤ f.offset

instance (f g : Field) : Decidable (f.Apart g) := inferInstanceAs (Decidable (_ ∨ _))

end Field

inductive EntryType where
  | regular
  | link
  | symlink
  | char
  | block
  | directory
  | fifo
  | continuous
  | gnuLongName
  | gnuLongLink
  | gnuSparse
  | xGlobalHeader
  | xHeader
  | nonexhaustive (b : UInt8)
  deriving DecidableEq, Repr

namespace EntryType

/-- `EntryType::new` -/
def new (byte : UInt8) : EntryType :=
  if byte = 0 ∨ byte = 0x30 then regular
  else if byte = 0x31 then link
  else if byte = 0x32 then symlink
  else if byte = 0x33 then char
  else if byte = 0x34 then block
  else if byte = 0x35 then directory
  else if byte = 0x36 then fifo
  else if byte = 0x37 then continuous
  else if byte = 0x78 then xHeader
  else if byte = 0x67 then xGlobalHeader
  else if byte = 0x4c then gnuLongName
  else if byte = 0x4b then gnuLongLink
  else if byte = 0x53 then gnuSparse
  else nonexhaustive byte

def asByte : EntryType → UInt8
  | regular => 0x30
  | link => 0x31
  | symlink => 0x32
  | char => 0x33
  | block => 0x34
  | directory => 0x35
  | fifo => 0x36
  | continuous => 0x37
  | xHeader => 0x78
  | xGlobalHeader => 0x67
  | gnuLongName => 0x4c
  | gnuLongLink => 0x4b
  | gnuSparse => 0x53
  | nonexhaustive b => b

end EntryType

/-- A header -/
structure Header where
  bytes : List UInt8
  length_bytes : bytes.length = 512
  deriving DecidableEq

/-- `slice` up to a nul byte -/
def truncate (slice : List UInt8) : List UInt8 := slice.takeWhile (· ≠ 0)

/-- The last digits of a number, from the last one on: those of `format!("{:o}", val)` backwards, and
behind them `repeat(b'0')` -/
def octalDigits : Nat → Nat → List UInt8
  | 0, _ => []
  | n + 1, val => UInt8.ofNat (0x30 + val % 8) :: octalDigits n (val / 8)

/-- The digits go in front of the last byte, which stays. -/
def octalInto (dst : List UInt8) (val : Nat) : List UInt8 :=
  (octalDigits (dst.length - 1) val).reverse ++ dst.drop (dst.length - 1)

def octalFrom (slice : List UInt8) : Except String Nat :=
  match fromUtf8 (truncate slice) with
  | none => .error "numeric field did not have utf-8 text"
  | some num =>
    match Net.fromStrRadix (2 ^ 64) 8 (Coreutils.trim num.toList) with
    | some n => .ok n
    | none => .error "numeric field was not a number"

/-- `for (slot, val) in slot.iter_mut().zip(bytes.iter().chain(Some(&0)))` -/
def copyInto (slot bytes : List UInt8) : Except String (List UInt8) :=
  if bytes.length > slot.length then .error "provided value is too long"
  else if 0 ∈ bytes then .error "provided value contains a nul byte"
  else .ok ((bytes ++ [0]).take slot.length ++ slot.drop (bytes.length + 1))

/-- The parts between the slashes of a path, but those that are empty or `.`: `path.components()` without
`RootDir` and `CurDir` -/
def components (path : List UInt8) : List (List UInt8) :=
  (segments 0x2f path).filter fun c => c ≠ [] ∧ c ≠ [0x2e]

/-- `copy`, with what is written of a slot and what is left of it -/
def advance (s : List UInt8 × List UInt8) (bytes : List UInt8) : Except String (List UInt8 × List UInt8) :=
  match copyInto s.2 bytes with
  | .error why => .error why
  | .ok slot => .ok (s.1 ++ slot.take bytes.length, slot.drop bytes.length)

/-- The loop of `copy_path_into`: whether it wrote anything, and the slot -/
def copyComponents (isLinkName : Bool) :
    Bool → List UInt8 × List UInt8 → List (List UInt8) → Except String Bool × List UInt8 × List UInt8
  | emitted, s, [] => (.ok emitted, s)
  | emitted, s, c :: cs =>
    if c = [0x2e, 0x2e] ∧ ¬isLinkName then (.error "paths in archives must not have `..`", s)
    else
      match if emitted then advance s [0x2f] else .ok s with
      | .error why => (.error why, s)
      | .ok s =>
        match advance s c with
        | .error why => (.error why, s)
        | .ok s => copyComponents isLinkName true s cs

/-- The slot is written as far as it goes, also where the path is not taken. -/
def copyPathInto (slot path : List UInt8) (isLinkName : Bool) : Except String Unit × List UInt8 :=
  if path.head? = some 0x2f then (.error "paths in archives must be relative", slot)
  else
    match copyComponents isLinkName false ([], slot) (components path) with
    | (.error why, s) => (.error why, s.1 ++ s.2)
    | (.ok emitted, s) =>
      if ¬emitted then (.error "paths in archives must have at least one component", s.1 ++ s.2)
      else if path.getLast? = some 0x2f then
        match advance s [0x2f] with
        | .error why => (.error why, s.1 ++ s.2)
        | .ok s => (.ok (), s.1 ++ s.2)
      else (.ok (), s.1 ++ s.2)

namespace Header

def get (h : Header) (f : Field) : List UInt8 := (h.bytes.drop f.offset).take f.size

/-- A field is overwritten by one of its size. -/
@[irreducible] def put (h : Header) (f : Field) (v : List UInt8) : Header :=
  if hv : v.length = f.size then
    ⟨splice h.bytes f.offset v, by
      have hwithin := f.within
      rw [splice_length (by rw [h.length_bytes]; omega), h.length_bytes]⟩
  else h

/-- `Header::new_old` -/
def newOld : Header := ⟨List.replicate 512 0, List.length_replicate⟩

def newGnu : Header :=
  (newOld.put .magic [0x75, 0x73, 0x74, 0x61, 0x72, 0x20]).put .version [0x20, 0]

def isUstar (h : Header) : Bool :=
  h.get .magic = [0x75, 0x73, 0x74, 0x61, 0x72, 0] ∧ h.get .version = [0x30, 0x30]

def isGnu (h : Header) : Bool :=
  h.get .magic = [0x75, 0x73, 0x74, 0x61, 0x72, 0x20] ∧ h.get .version = [0x20, 0]

def setOctal (h : Header) (f : Field) (val : Nat) : Header := h.put f (octalInto (h.get f) val)

def entrySize (h : Header) : Except String Nat := octalFrom (h.get .size')
def setSize (h : Header) (size : Nat) : Header := h.setOctal .size' size
def setMode (h : Header) (mode : Nat) : Header := h.setOctal .mode mode
def setUid (h : Header) (uid : Nat) : Header := h.setOctal .uid uid
def setGid (h : Header) (gid : Nat) : Header := h.setOctal .gid gid
def setMtime (h : Header) (mtime : Nat) : Header := h.setOctal .mtime mtime

def entryType (h : Header) : EntryType := .new ((h.get .linkflag).headD 0)
def setEntryType (h : Header) (ty : EntryType) : Header := h.put .linkflag [ty.asByte]

/-- `path_bytes`, for both kinds of headers -/
def pathBytes (h : Header) : List UInt8 :=
  if h.isUstar then
    if (h.get .namePrefix).head? = some 0 ∧ 0x5c ∉ h.get .name then truncate (h.get .name)
    else
      let start := truncate (h.get .namePrefix)
      (if start ≠ [] then start ++ [0x2f] else []) ++ truncate (h.get .name)
  else truncate (h.get .name)

/-- `set_path`, of a header that is none of the ustar format -/
def setPath (h : Header) (path : List UInt8) : Except String Unit × Header :=
  let r := copyPathInto (h.get .name) path false
  (r.1, h.put .name r.2)

/-- What `set_metadata` takes from a file of some length, or from a directory -/
def setMetadata (h : Header) (isDir : Bool) (len : Nat) : Header :=
  let h := (h.setMode (if isDir then 0x4000 else 0x8000)).setEntryType (if isDir then .directory else .regular)
  let h := h.setSize (if isDir then 0 else len)
  let h := if h.isUstar then (h.setOctal .devMajor 0).setOctal .devMinor 0 else h
  if h.isGnu then (h.setOctal .devMajor 0).setOctal .devMinor 0 else h

/-- `header.bytes.iter().fold(0, |a, b| a + (*b as u32))` -/
def sum (bytes : List UInt8) : Nat := (bytes.map UInt8.toNat).sum

def cksum (h : Header) : Except String Nat := (octalFrom (h.get .cksum)).map (· % 2 ^ 32)

def setCksum (h : Header) : Header :=
  let blank := h.put .cksum (List.replicate 8 0x20)
  blank.setOctal .cksum (sum blank.bytes)

/-- What `next_entry_raw` compares with `cksum` -/
def checkSum (h : Header) : Nat := sum (h.bytes.take 148 ++ h.bytes.drop 156) + 8 * 32

end Header

variable {h h' : Header} {f g : Field} {v slot bytes : List UInt8} {cs : List Char} {n val i : Nat}
  {b : UInt8}

section Octal

/-- Characters of one byte are read as they are. -/
theorem fromUtf8_ascii (h : ∀ c ∈ cs, c.toNat < 128) :
    fromUtf8 (cs.map fun c => UInt8.ofNat c.toNat) = some (String.ofList cs) := by
  rw [fromUtf8_eq_some]
  induction cs with
  | nil => rfl
  | cons c cs ih =>
    have hc : c.val.toNat ≤ 127 := Nat.le_of_lt_succ (h c List.mem_cons_self)
    rw [Coreutils.Tail.utf8_cons, List.map_cons, ih fun d hd => h d (List.mem_cons_of_mem c hd),
      String.utf8EncodeChar, if_pos hc]
    rfl

/-- The characters of the digits -/
def octalChars : Nat → Nat → List Char
  | 0, _ => []
  | n + 1, val => Char.ofNat (0x30 + val % 8) :: octalChars n (val / 8)

theorem lt_eight {d : Nat} (h : d < 8) :
    d = 0 ∨ d = 1 ∨ d = 2 ∨ d = 3 ∨ d = 4 ∨ d = 5 ∨ d = 6 ∨ d = 7 := by omega

theorem octalChar_cases (val : Nat) (P : Char → Prop)
    (h : P '0' ∧ P '1' ∧ P '2' ∧ P '3' ∧ P '4' ∧ P '5' ∧ P '6' ∧ P '7') :
    P (Char.ofNat (0x30 + val % 8)) := by
  obtain ⟨h0, h1, h2, h3, h4, h5, h6, h7⟩ := h
  have hlt : val % 8 < 8 := Nat.mod_lt _ (by decide)
  generalize val % 8 = d at hlt
  rcases lt_eight hlt with rfl | rfl | rfl | rfl | rfl | rfl | rfl | rfl <;> assumption

theorem forall_octalChars (P : Char → Prop)
    (h : P '0' ∧ P '1' ∧ P '2' ∧ P '3' ∧ P '4' ∧ P '5' ∧ P '6' ∧ P '7') (n val : Nat) :
    ∀ c ∈ octalChars n val, P c := by
  induction n generalizing val with
  | zero => rintro c ⟨⟩
  | succ n ih =>
    intro c hc
    rcases List.mem_cons.mp hc with rfl | hc
    · exact octalChar_cases val P h
    · exact ih _ c hc

theorem octalDigits_eq (n val : Nat) :
    octalDigits n val = (octalChars n val).map fun c => UInt8.ofNat c.toNat := by
  induction n generalizing val with
  | zero => rfl
  | succ n ih =>
    rw [octalDigits, octalChars, List.map_cons, ih]
    congr 1
    have hlt : val % 8 < 8 := Nat.mod_lt _ (by decide)
    generalize val % 8 = d at hlt
    rcases lt_eight hlt with rfl | rfl | rfl | rfl | rfl | rfl | rfl | rfl <;> rfl

@[simp] theorem length_octalDigits (n val : Nat) : (octalDigits n val).length = n := by
  induction n generalizing val with
  | zero => rfl
  | succ n ih => rw [octalDigits, List.length_cons, ih]

theorem length_octalInto (slot : List UInt8) (val : Nat) : (octalInto slot val).length = slot.length := by
  rw [octalInto, List.length_append, List.length_reverse, length_octalDigits, List.length_drop]
  omega

/-- The digits are read as the number that they have room for. -/
theorem foldlM_octalChars (n val : Nat) :
    (octalChars n val).reverse.foldlM (fun n c => (Net.toDigit 8 c).map (8 * n + ·)) 0 =
      some (val % 8 ^ n) := by
  induction n generalizing val with
  | zero =>
    rw [Nat.pow_zero, Nat.mod_one]
    rfl
  | succ n ih =>
    have hdigit : Net.toDigit 8 (Char.ofNat (0x30 + val % 8)) = some (val % 8) := by
      have hlt : val % 8 < 8 := Nat.mod_lt _ (by decide)
      generalize val % 8 = d at hlt
      rcases lt_eight hlt with rfl | rfl | rfl | rfl | rfl | rfl | rfl | rfl <;> rfl
    rw [octalChars, List.reverse_cons, List.foldlM_append, ih, Option.bind_eq_bind, Option.bind_some,
      List.foldlM_cons, hdigit, Nat.pow_succ, Nat.mul_comm (8 ^ n), Nat.mod_mul, Nat.add_comm (val % 8)]
    rfl

theorem fromStrRadix_octalChars (hn : 0 < n) (hfits : 8 ^ n ≤ 2 ^ 64) (val : Nat) :
    Net.fromStrRadix (2 ^ 64) 8 (octalChars n val).reverse = some (val % 8 ^ n) := by
  have hlt : val % 8 ^ n < 2 ^ 64 := Nat.lt_of_lt_of_le (Nat.mod_lt _ (Nat.pow_pos (by decide))) hfits
  have hne : (octalChars n val).reverse ≠ [] := by
    cases n with
    | zero => cases hn
    | succ n => simp [octalChars]
  have hplus : ∀ c ∈ (octalChars n val).reverse, c ≠ '+' := by
    intro c hc
    exact forall_octalChars (· ≠ '+') (by decide) n val c (List.mem_reverse.mp hc)
  have hfold := foldlM_octalChars n val
  cases hdigits : (octalChars n val).reverse with
  | nil => exact absurd hdigits hne
  | cons c cs =>
    rw [hdigits] at hfold
    unfold Net.fromStrRadix
    split
    · rename_i heq
      cases heq
      exact absurd rfl (hplus '+' (by rw [hdigits]; exact List.mem_cons_self))
    · simp only [Option.bind_eq_bind, Option.bind_some, List.isEmpty_cons, Bool.false_eq_true, if_false]
      rw [hfold, Option.bind_some, if_pos hlt]

theorem trim_octalChars {tail : List Char} (htail : tail = [] ∨ tail = [' ']) (n val : Nat) :
    Coreutils.trim ((octalChars n val).reverse ++ tail) = (octalChars n val).reverse := by
  have hspace : ∀ c ∈ octalChars n val, ¬Coreutils.isWhitespace c = true :=
    forall_octalChars (¬Coreutils.isWhitespace · = true) (by decide) n val
  have hkeep : ∀ cs : List Char, (∀ c ∈ cs, ¬Coreutils.isWhitespace c = true) →
      cs.dropWhile Coreutils.isWhitespace = cs := by
    intro cs hcs
    cases cs with
    | nil => rfl
    | cons c cs => exact List.dropWhile_cons_of_neg (hcs c List.mem_cons_self)
  have hback : (tail.reverse ++ octalChars n val).dropWhile Coreutils.isWhitespace = octalChars n val := by
    rcases htail with rfl | rfl
    · exact hkeep _ hspace
    · rw [List.reverse_singleton, List.singleton_append, List.dropWhile_cons_of_pos (by decide), hkeep _ hspace]
  rw [Coreutils.trim]
  cases hdigits : (octalChars n val).reverse with
  | nil =>
    rw [List.reverse_eq_nil_iff] at hdigits
    rcases htail with rfl | rfl <;> rfl
  | cons c cs =>
    have hc : ¬Coreutils.isWhitespace c = true := by
      refine hspace c (List.mem_reverse.mp ?_)
      rw [hdigits]
      exact List.mem_cons_self
    rw [List.cons_append, List.dropWhile_cons_of_neg hc, ← List.cons_append, ← hdigits,
      List.reverse_append, List.reverse_reverse, hback]

/-- A number field is read as the number that it has room for, when it ends in a nul byte or a blank. -/
theorem octalFrom_octalInto (hlength : slot.length = n + 1) (hn : 0 < n) (hfits : 8 ^ n ≤ 2 ^ 64)
    (hlast : slot.drop n = [0] ∨ slot.drop n = [0x20]) (val : Nat) :
    octalFrom (octalInto slot val) = .ok (val % 8 ^ n) := by
  have hdigits : ∀ d ∈ (octalDigits n val).reverse, d ≠ 0 := by
    intro d hd
    rw [List.mem_reverse, octalDigits_eq] at hd
    obtain ⟨c, hc, rfl⟩ := List.mem_map.mp hd
    exact forall_octalChars (fun c => UInt8.ofNat c.toNat ≠ 0) (by decide) n val c hc
  obtain ⟨tail, htail, hbytes⟩ : ∃ tail : List Char, (tail = [] ∨ tail = [' ']) ∧
      truncate (octalInto slot val) =
        ((octalChars n val).reverse ++ tail).map fun c => UInt8.ofNat c.toNat := by
    rw [octalInto, hlength, Nat.add_sub_cancel, truncate, octalDigits_eq, ← List.map_reverse]
    rw [octalDigits_eq, ← List.map_reverse] at hdigits
    rcases hlast with hlast | hlast
    · refine ⟨[], .inl rfl, ?_⟩
      rw [hlast, List.append_nil, List.takeWhile_append_of_pos (fun d hd => decide_eq_true (hdigits d hd))]
      exact List.append_nil _
    · refine ⟨[' '], .inr rfl, ?_⟩
      rw [hlast, List.takeWhile_append_of_pos (fun d hd => decide_eq_true (hdigits d hd)), List.map_append]
      rfl
  have hascii : ∀ c ∈ (octalChars n val).reverse ++ tail, c.toNat < 128 := by
    intro c hc
    rcases List.mem_append.mp hc with hc | hc
    · exact forall_octalChars (·.toNat < 128) (by decide) n val c (List.mem_reverse.mp hc)
    · rcases htail with rfl | rfl
      · cases hc
      · rw [List.mem_singleton.mp hc]
        decide
  rw [octalFrom, hbytes, fromUtf8_ascii hascii]
  dsimp only
  rw [String.toList_ofList, trim_octalChars htail, fromStrRadix_octalChars hn hfits]

end Octal

namespace Header

theorem length_get (h : Header) (f : Field) : (h.get f).length = f.size := by
  have hwithin := f.within
  rw [get, List.length_take, List.length_drop, h.length_bytes]
  omega

theorem bytes_put (hv : v.length = f.size) : (h.put f v).bytes = splice h.bytes f.offset v := by
  rw [put, dif_pos hv]

theorem get_put (hv : v.length = f.size) : (h.put f v).get f = v := by
  have hwithin := f.within
  have hlength := h.length_bytes
  rw [get, bytes_put hv, splice, List.append_assoc, List.drop_left' (List.length_take_of_le (by omega)),
    ← hv, List.take_left]

theorem get_put_of_apart (hfg : f.Apart g) (v : List UInt8) : (h.put f v).get g = h.get g := by
  by_cases hv : v.length = f.size
  · have hf := f.within
    have hg := g.within
    have hlength := h.length_bytes
    rw [get, get, bytes_put hv]
    apply List.ext_getElem?
    intro j
    rw [List.getElem?_take, List.getElem?_take, List.getElem?_drop, List.getElem?_drop,
      splice_getElem? (by omega)]
    split
    · rw [if_neg]
      rcases hfg with hfg | hfg <;> omega
    · rfl
  · rw [put, dif_neg hv]

theorem get_newOld (f : Field) : newOld.get f = List.replicate f.size 0 := by
  have hwithin := f.within
  rw [get, newOld, List.drop_replicate, List.take_replicate]
  congr 1
  omega

theorem get_newGnu (hmagic : Field.magic.Apart f) (hversion : Field.version.Apart f) :
    newGnu.get f = List.replicate f.size 0 := by
  rw [newGnu, get_put_of_apart hversion, get_put_of_apart hmagic, get_newOld]

theorem get_setOctal_of_apart (hfg : f.Apart g) (val : Nat) : (h.setOctal f val).get g = h.get g :=
  get_put_of_apart hfg _

/-- What is written to a number field is read from it. -/
theorem octalFrom_setOctal (hsize : f.size = n + 1) (hn : 0 < n) (hfits : 8 ^ n ≤ 2 ^ 64)
    (hlast : (h.get f).drop n = [0] ∨ (h.get f).drop n = [0x20]) (val : Nat) :
    octalFrom ((h.setOctal f val).get f) = .ok (val % 8 ^ n) := by
  rw [setOctal, get_put (by rw [length_octalInto, length_get])]
  exact octalFrom_octalInto (by rw [length_get, hsize]) hn hfits hlast val

theorem sum_append (as bs : List UInt8) : sum (as ++ bs) = sum as + sum bs := by
  rw [sum, List.map_append, List.sum_append]
  rfl

theorem sum_le (bytes : List UInt8) : sum bytes ≤ 255 * bytes.length := by
  induction bytes with
  | nil => exact Nat.le_refl 0
  | cons b bytes ih =>
    have hb := b.toNat_lt
    show b.toNat + sum bytes ≤ _
    rw [List.length_cons]
    omega

/-- The reader takes the header: its checksum is that of its bytes. -/
def Sealed (h : Header) : Prop := h.cksum = .ok h.checkSum

/-- A header is what is in front of its checksum, the checksum and what is behind it. -/
theorem bytes_eq (h : Header) : h.bytes = h.bytes.take 148 ++ h.get .cksum ++ h.bytes.drop 156 := by
  have hsplit : h.bytes.drop 148 = (h.bytes.drop 148).take 8 ++ (h.bytes.drop 148).drop 8 :=
    (List.take_append_drop 8 _).symm
  rw [List.drop_drop] at hsplit
  rw [List.append_assoc]
  calc h.bytes = h.bytes.take 148 ++ h.bytes.drop 148 := (List.take_append_drop 148 _).symm
    _ = _ := by rw [hsplit]; rfl

theorem put_cksum_frame (hv : v.length = 8) :
    (h.put .cksum v).bytes.take 148 = h.bytes.take 148 ∧
      (h.put .cksum v).bytes.drop 156 = h.bytes.drop 156 := by
  have hlength := h.length_bytes
  have htake : (h.bytes.take 148).length = 148 := List.length_take_of_le (by omega)
  rw [bytes_put hv, splice, hv]
  refine ⟨?_, ?_⟩
  · rw [List.append_assoc]
    exact List.take_left' htake
  · exact List.drop_left' (by rw [List.length_append, hv]; exact congrArg (· + 8) htake)

theorem checkSum_put_cksum (hv : v.length = 8) : (h.put .cksum v).checkSum = h.checkSum := by
  rw [checkSum, (put_cksum_frame hv).1, (put_cksum_frame hv).2]
  rfl

theorem checkSum_lt (h : Header) : h.checkSum < 8 ^ 7 := by
  have hlength := h.length_bytes
  have hle := sum_le (h.bytes.take 148 ++ h.bytes.drop 156)
  rw [List.length_append, List.length_take, List.length_drop] at hle
  rw [checkSum]
  omega

/-- A header with a checksum set is taken. -/
theorem sealed_setCksum (h : Header) : h.setCksum.Sealed := by
  have hblank : (List.replicate 8 (0x20 : UInt8)).length = Field.cksum.size := rfl
  have hsum : sum (h.put .cksum (List.replicate 8 0x20)).bytes = h.checkSum := by
    rw [bytes_eq (h.put .cksum _), (put_cksum_frame hblank).1, (put_cksum_frame hblank).2, get_put hblank,
      sum_append, sum_append, checkSum, sum_append]
    simp only [show sum (List.replicate 8 0x20) = 8 * 32 from rfl]
    omega
  have hread : octalFrom (h.setCksum.get .cksum) = .ok (h.checkSum % 8 ^ 7) := by
    rw [← hsum]
    exact octalFrom_setOctal rfl (by decide) (by decide) (.inr (by rw [get_put hblank]; rfl)) _
  have hlt := h.checkSum_lt
  have hsame : h.setCksum.checkSum = h.checkSum := by
    rw [setCksum, setOctal, checkSum_put_cksum (by rw [length_octalInto, length_get]; rfl),
      checkSum_put_cksum hblank]
  rw [Sealed, cksum, hread, hsame, Nat.mod_eq_of_lt hlt]
  show Except.ok (h.checkSum % 2 ^ 32) = _
  rw [Nat.mod_eq_of_lt (Nat.lt_trans hlt (by decide))]

theorem get_setCksum_of_apart (hf : Field.cksum.Apart f) : h.setCksum.get f = h.get f := by
  rw [setCksum, get_setOctal_of_apart hf, get_put_of_apart hf]

/-- The length of data is read from the field for it, unless it has too many digits. -/
theorem entrySize_setCksum_setSize (hlast : (h.get .size').drop 11 = [0]) (hn : n < 8 ^ 11) :
    (h.setSize n).setCksum.entrySize = .ok n := by
  have happart : Field.cksum.Apart .size' := by decide
  have hsize : octalFrom ((h.setSize n).get .size') = .ok (n % 8 ^ 11) :=
    octalFrom_setOctal (n := 11) rfl (by decide) (by decide) (.inl hlast) n
  rw [Nat.mod_eq_of_lt hn] at hsize
  rw [entrySize, get_setCksum_of_apart happart, hsize]

theorem sum_set (hi : i < bytes.length) : sum (bytes.set i b) + bytes[i].toNat = sum bytes + b.toNat := by
  induction bytes generalizing i with
  | nil => cases hi
  | cons c bytes ih =>
    cases i with
    | zero =>
      show b.toNat + sum bytes + c.toNat = c.toNat + sum bytes + b.toNat
      omega
    | succ i =>
      have hlt : i < bytes.length := Nat.lt_of_succ_lt_succ hi
      have hih := ih hlt
      show c.toNat + sum (bytes.set i b) + bytes[i].toNat = c.toNat + sum bytes + b.toNat
      omega

/-- Bytes outside of the checksum do not change it. -/
theorem get_cksum_of_set (hout : i < 148 ∨ 156 ≤ i) (hb : h'.bytes = h.bytes.set i b) :
    h'.get .cksum = h.get .cksum := by
  apply List.ext_getElem?
  intro j
  rw [get, get, hb, List.getElem?_take, List.getElem?_take, List.getElem?_drop, List.getElem?_drop]
  split
  · rename_i hj
    refine List.getElem?_set_ne ?_
    change j < 8 at hj
    change i ≠ 148 + j
    omega
  · rfl

/-- With one byte changed outside of its checksum, a header is not taken any more. -/
theorem not_sealed_of_set (hsealed : h.Sealed) (hi : i < 512) (hout : i < 148 ∨ 156 ≤ i)
    (hb : h'.bytes = h.bytes.set i b) (hne : h'.bytes ≠ h.bytes) : ¬h'.Sealed := by
  have hlength := h.length_bytes
  have hget := get_cksum_of_set hout hb
  have hsum := sum_set (b := b) (show i < h.bytes.length by omega)
  have hsplit : ∀ k : Header, sum k.bytes = k.checkSum - 8 * 32 + sum (k.get .cksum) := by
    intro k
    rw [bytes_eq k, sum_append, sum_append, checkSum, sum_append]
    omega
  have hle : ∀ k : Header, 8 * 32 ≤ k.checkSum := fun k => Nat.le_add_left _ _
  intro hsealed'
  rw [Sealed, cksum, hget] at hsealed'
  rw [Sealed, cksum] at hsealed
  have heq : h'.checkSum = h.checkSum := Except.ok.inj (hsealed'.symm.trans hsealed)
  rw [← hb, hsplit h', hsplit h, hget, heq] at hsum
  have hbyte : h.bytes[i] = b := UInt8.toNat_inj.mp (by omega)
  rw [hb, ← hbyte, List.set_getElem_self] at hne
  exact hne rfl

end Header

end Origel.Tar
