import Origel.Lib.Run
import Origel.Tar.Entries

/-! What is written to an archive is what is read from it. -/
namespace Origel.Tar

open Origel.Lib

structure Builder where
  finished : Bool
  obj : List UInt8

/-- `append`: a header, the data, and zeros up to the next block -/
def append (dst : List UInt8) (header : Header) (data : List UInt8) : List UInt8 :=
  let remaining := 512 - data.length % 512
  let dst := dst ++ header.bytes ++ data
  if remaining < 512 then dst ++ List.replicate remaining 0 else dst

namespace Builder

def new : Builder := ⟨false, []⟩

def append (b : Builder) (header : Header) (data : List UInt8) : Builder :=
  { b with obj := Tar.append b.obj header data }

def finish (b : Builder) : Builder :=
  if b.finished then b else ⟨true, b.obj ++ List.replicate 1024 0⟩

def intoInner (b : Builder) : List UInt8 := b.finish.obj

end Builder

/-- A header with the data it is for. -/
structure Member where
  header : Header
  data : List UInt8

namespace Member

/-- Data under a header, with its length and then the checksum set -/
def complete (header : Header) (data : List UInt8) : Member := ⟨(header.setSize data.length).setCksum, data⟩

/-- What `append` asks for: the `size` field is the length of the data, and the checksum has been set. -/
structure Fits (m : Member) : Prop where
  sealed : m.header.Sealed
  size : m.header.entrySize = .ok m.data.length

end Member

/-- An archive of these members -/
def build (ms : List Member) : List UInt8 :=
  (ms.foldl (fun b m => b.append m.header m.data) Builder.new).intoInner

/-- The zeros behind data of a length -/
def padding (n : Nat) : List UInt8 := List.replicate (roundUp n - n) 0

def Member.written (m : Member) : List UInt8 := m.header.bytes ++ m.data ++ padding m.data.length

variable {a a' : Archive} {as bs rest gap : List UInt8} {m : Member} {ms : List Member} {e e' : Entries}
  {n : Nat}

/-- The length of data is written to the field for it, unless it has too many digits. -/
theorem Member.fits_complete {header : Header} {data : List UInt8} (hlast : (header.get .size').drop 11 = [0])
    (hdata : data.length < 8 ^ 11) : (Member.complete header data).Fits := by
  have hsealed := Header.sealed_setCksum (header.setSize data.length)
  have hsize := Header.entrySize_setCksum_setSize hlast hdata
  generalize hheader : (header.setSize data.length).setCksum = h at hsealed hsize
  have heq : Member.complete header data = ⟨h, data⟩ := by
    rw [← hheader]
    rfl
  rw [heq]
  exact ⟨hsealed, hsize⟩

theorem le_roundUp (n : Nat) : n ≤ roundUp n := by
  rw [roundUp]
  omega

theorem append_eq (dst : List UInt8) (m : Member) : append dst m.header m.data = dst ++ m.written := by
  rw [append, Member.written, padding]
  split
  · rename_i h
    have hremaining : roundUp m.data.length - m.data.length = 512 - m.data.length % 512 := by
      rw [roundUp]
      omega
    rw [hremaining]
    simp only [List.append_assoc]
  · rename_i h
    have hremaining : roundUp m.data.length - m.data.length = 0 := by
      rw [roundUp]
      omega
    rw [hremaining, List.replicate_zero, List.append_nil, List.append_assoc]

theorem build_eq (ms : List Member) : build ms = ms.flatMap Member.written ++ List.replicate 1024 0 := by
  have hfold : ∀ b : Builder, ms.foldl (fun b m => b.append m.header m.data) b =
      { b with obj := b.obj ++ ms.flatMap Member.written } := by
    induction ms with
    | nil => exact fun b => by simp
    | cons m ms ih =>
      intro b
      rw [List.foldl_cons, ih, Builder.append, append_eq, List.flatMap_cons, List.append_assoc]
  rw [build, hfold]
  rfl

namespace Header

theorem ofBytes_bytes (h : Header) : ofBytes h.bytes = h := dif_pos h.length_bytes

/-- The checksum of a header is not left blank. -/
theorem Sealed.not_blank {h : Header} (hs : h.Sealed) : ¬∀ b ∈ h.get .cksum, b = 0 := by
  intro hall
  have hget : h.get .cksum = List.replicate 8 0 := List.eq_replicate_iff.mpr ⟨h.length_get _, hall⟩
  rw [Sealed, cksum, hget] at hs
  have hnone : octalFrom (List.replicate 8 0) = .error "numeric field was not a number" := by
    have hempty : RedoxFs.fromUtf8 (truncate (List.replicate 8 0)) = some "" := RedoxFs.fromUtf8_eq_some.mpr rfl
    rw [octalFrom, hempty]
    rfl
  rw [hnone] at hs
  cases hs

theorem zero_of_mem_get {h : Header} {f : Field} (hzero : h.bytes.all (· = 0) = true) : ∀ b ∈ h.get f, b = 0 :=
  fun b hb => of_decide_eq_true (List.all_eq_true.mp hzero b (List.mem_of_mem_drop (List.mem_of_mem_take hb)))

/-- A block of zeros is no header. -/
theorem Sealed.not_zero {h : Header} (hs : h.Sealed) : ¬h.bytes.all (· = 0) = true :=
  fun hzero => hs.not_blank (zero_of_mem_get hzero)

end Header

namespace Archive

/-- These bytes are still to come. -/
structure At (a : Archive) (bytes : List UInt8) : Prop where
  drop : a.input.drop a.pos = bytes
  le : a.pos ≤ a.input.length

def advance (a : Archive) (n : Nat) : Archive := { a with pos := a.pos + n }

theorem At.length (h : a.At bs) : a.input.length = a.pos + bs.length := by
  have hle := h.le
  have hlength := congrArg List.length h.drop
  rw [List.length_drop] at hlength
  omega

theorem At.advance (h : a.At (as ++ bs)) : (a.advance as.length).At bs := by
  have hlength := h.length
  rw [List.length_append] at hlength
  refine ⟨?_, ?_⟩
  · show a.input.drop (a.pos + as.length) = bs
    rw [← List.drop_drop, h.drop, List.drop_left]
  · show a.pos + as.length ≤ a.input.length
    omega

theorem At.readAll (h : a.At (as ++ bs)) (hn : as.length = n) : a.readAll n = .ok (as, a.advance n) := by
  have hlength := h.length
  rw [List.length_append] at hlength
  rw [readAll_ok (by omega), h.drop, ← hn, List.take_left]
  rfl

theorem At.skip (h : a.At (as ++ bs)) (hn : as.length = n) : a.skip n = .ok (a.advance n) := by
  have hlength := h.length
  rw [List.length_append] at hlength
  rw [skip_ok (by omega)]
  rfl

end Archive

namespace Entries

/-- The next header is behind a gap. -/
structure At (e : Entries) (gap rest : List UInt8) : Prop where
  archive : e.archive.At (gap ++ rest)
  next : e.next = e.archive.pos + gap.length

theorem At.skip (h : e.At gap rest) :
    e.archive.skip (e.next - e.archive.pos) = .ok (e.archive.advance gap.length) := by
  rw [h.next, Nat.add_sub_cancel_left]
  exact h.archive.skip rfl

/-- From `e`, the reader has come to the data of an entry. -/
structure Comes (e e' : Entries) (data rest : List UInt8) : Prop where
  archive : e'.archive.At (data ++ (padding data.length ++ rest))
  next : e'.next = e'.archive.pos + roundUp data.length
  done : e'.done = e.done
  raw : e'.raw = e.raw

/-- Behind the data that is read, the next header is not far. -/
theorem Comes.at {data : List UInt8} (h : Comes e e' data rest) :
    (Entries.At { e' with archive := e'.archive.advance data.length } (padding data.length) rest) := by
  refine ⟨h.archive.advance, ?_⟩
  have hle := le_roundUp data.length
  show e'.next = e'.archive.pos + data.length + _
  rw [h.next, padding, List.length_replicate]
  omega

/-- A member that is written next is read next. -/
theorem nextEntryRaw_member (h : e.At gap (m.written ++ rest)) (hfits : m.Fits) :
    ∃ e', e.nextEntryRaw = .ok (some ⟨none, none, none, m.header, m.data.length, [.data m.data.length]⟩, e') ∧
      Comes e e' m.data rest := by
  have hskip := h.archive.advance
  rw [Member.written, List.append_assoc, List.append_assoc] at hskip
  have hread := hskip.readAll m.header.length_bytes
  have hat := hskip.advance
  rw [m.header.length_bytes] at hat
  refine ⟨⟨(e.archive.advance gap.length).advance 512, e.next + 512 + roundUp m.data.length, e.done, e.raw⟩,
    ?_, hat, ?_, rfl, rfl⟩
  · rw [nextEntryRaw, h.skip]
    show (Except.bind ((e.archive.advance gap.length).readAll 512) _) = _
    rw [hread]
    show (if m.header.bytes.all (· = 0) = true then _ else _) = _
    have hsealed : m.header.cksum = .ok m.header.checkSum := hfits.sealed
    rw [if_neg hfits.sealed.not_zero, Header.ofBytes_bytes, hsealed]
    show (if m.header.checkSum ≠ m.header.checkSum then _ else _) = _
    rw [if_neg (not_not_intro rfl), hfits.size]
    rfl
  · show e.next + 512 + roundUp m.data.length = e.archive.pos + gap.length + 512 + roundUp m.data.length
    rw [h.next]

/-- The two blocks of zeros end the archive. -/
theorem nextEntryRaw_end (h : e.At gap (List.replicate 1024 0 ++ rest)) :
    ∃ e', e.nextEntryRaw = .ok (none, e') ∧ e'.done = e.done ∧ e'.raw = e.raw := by
  have hzeros : List.replicate 1024 (0 : UInt8) = List.replicate 512 0 ++ List.replicate 512 0 := by
    rw [List.replicate_append_replicate]
  have hall : (List.replicate 512 (0 : UInt8)).all (· = 0) = true :=
    List.all_eq_true.mpr fun b hb => decide_eq_true (List.eq_of_mem_replicate hb)
  have hlength : (List.replicate 512 (0 : UInt8)).length = 512 := List.length_replicate
  have hskip := h.archive.advance
  rw [hzeros, List.append_assoc] at hskip
  generalize List.replicate 512 (0 : UInt8) = zeros at hskip hall hlength
  have hread := hskip.readAll hlength
  have hat := hskip.advance
  rw [hlength] at hat
  have hread' := hat.readAll hlength
  refine ⟨⟨((e.archive.advance gap.length).advance 512).advance 512, e.next + 512 + 512, e.done, e.raw⟩, ?_, rfl, rfl⟩
  rw [nextEntryRaw, h.skip]
  show (Except.bind ((e.archive.advance gap.length).readAll 512) _) = _
  rw [hread]
  show (if zeros.all (· = 0) = true then _ else _) = _
  rw [if_pos hall]
  show (Except.bind (((e.archive.advance gap.length).advance 512).readAll 512) _) = _
  rw [hread']
  show (if zeros.all (· = 0) = true then _ else _) = _
  rw [if_pos hall]

/-- A header that was taken, and has one byte changed since outside of its checksum, ends the reading with
an error. -/
theorem damaged_header_refused {e : Entries} {gap rest : List UInt8} {h h' : Header} {i : Nat} {b : UInt8}
    (hat : e.At gap (h'.bytes ++ rest)) (hsealed : h.Sealed) (hi : i < 512) (hout : i < 148 ∨ 156 ≤ i)
    (hb : h'.bytes = h.bytes.set i b) (hne : h'.bytes ≠ h.bytes) : ∃ why, e.nextEntryRaw = .error why := by
  have hread := hat.archive.advance.readAll h'.length_bytes
  have hnot := Header.not_sealed_of_set hsealed hi hout hb hne
  have hzero : ¬h'.bytes.all (· = 0) = true := by
    intro hzero
    refine hsealed.not_blank ?_
    rw [← Header.get_cksum_of_set hout hb]
    exact Header.zero_of_mem_get hzero
  rw [nextEntryRaw, hat.skip]
  show ∃ why, (Except.bind ((e.archive.advance gap.length).readAll 512) _) = .error why
  rw [hread]
  show ∃ why, (if h'.bytes.all (· = 0) = true then _ else _) = Except.error why
  rw [if_neg hzero, Header.ofBytes_bytes]
  cases hcksum : h'.cksum with
  | error why => exact ⟨why, rfl⟩
  | ok c =>
    have hmismatch : h'.checkSum ≠ c := by
      rintro rfl
      exact hnot hcksum
    refine ⟨"archive header checksum mismatch", ?_⟩
    show (if h'.checkSum ≠ c then _ else _) = _
    rw [if_pos hmismatch]

/-- A blank header with its checksum set, and then with the first byte of its name changed -/
theorem renamed_header_refused : ∃ why, (⟨⟨Header.newGnu.setCksum.bytes.set 0 0x78 ++ [], fun _ => 0, 0⟩, 0, false,
    true⟩ : Entries).nextEntryRaw = .error why := by
  have hlength : (Header.newGnu.setCksum.bytes.set 0 0x78).length = 512 := by
    rw [List.length_set, Header.length_bytes]
  have hat : Entries.At ⟨⟨Header.newGnu.setCksum.bytes.set 0 0x78 ++ [], fun _ => 0, 0⟩, 0, false, true⟩ []
      ((⟨_, hlength⟩ : Header).bytes ++ []) := ⟨⟨rfl, Nat.zero_le _⟩, rfl⟩
  have hne : Header.newGnu.setCksum.bytes.set 0 0x78 ≠ Header.newGnu.setCksum.bytes := by decide +kernel
  exact damaged_header_refused hat (Header.sealed_setCksum .newGnu) (by decide) (by decide) rfl hne

end Entries

end Origel.Tar
