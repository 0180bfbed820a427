import Origel.Tar.Reading

/-! Files that are put into an archive, and come out of it under their paths. -/
namespace Origel.Tar

open Origel.Lib Origel.RedoxFs

inductive Outcome where
  | ok
  | error (why : String)
  | panic
  deriving DecidableEq, Repr

/-- `header2` of `append_fs`: what follows is the path of the next entry. -/
def longLink (path : List UInt8) : Header :=
  let h := Header.newGnu
  let h := h.put .name (utf8 "././@LongLink" ++ (h.get .name).drop 13)
  let h := (((h.setMode 0o644).setUid 0).setGid 0).setMtime 0
  ((h.setSize (path.length + 1)).setEntryType .gnuLongName).setCksum

/-- `append_fs`, with what is written to `dst` in any case. The path is cut where it has no room in the
header, which panics within a character. -/
def appendFs (dst path : List UInt8) (isDir : Bool) (len : Nat) (read : List UInt8) : Outcome × List UInt8 :=
  let finish (dst : List UInt8) (header : Header) : Outcome × List UInt8 :=
    (.ok, append dst (header.setMetadata isDir len).setCksum read)
  match Header.newGnu.setPath path with
  | (.ok _, header) => finish dst header
  | (.error why, header) =>
    if path.length < 100 then (.error why, dst)
    else
      -- `io::repeat(0).take(0)` adds nothing to the path
      let dst := append dst (longLink path) path
      if (fromUtf8 (path.take 100)).isNone then (.panic, dst)
      else
        match header.setPath (path.take 100) with
        | (.ok _, header) => finish dst header
        | (.error why, _) => (.error why, dst)

/-- A file or a directory as `append_path` finds it -/
structure File where
  path : List UInt8
  isDir : Bool
  data : List UInt8

namespace File

/-- What is read of it: nothing of a directory -/
def contents (f : File) : List UInt8 := if f.isDir then [] else f.data

/-- `append_path` -/
def appendPath (dst : List UInt8) (f : File) : Outcome × List UInt8 :=
  appendFs dst f.path f.isDir f.data.length f.contents

/-- The `append_path` of all files, up to the first that fails -/
def appendAll : List UInt8 → List File → Outcome × List UInt8
  | dst, [] => (.ok, dst)
  | dst, f :: fs =>
    match f.appendPath dst with
    | (.ok, dst) => appendAll dst fs
    | r => r

end File

/-- The parts of a path again, with a slash behind them where the path has one -/
def normal (path : List UInt8) : List UInt8 :=
  List.intercalate [0x2f] (components path) ++ if path.getLast? = some 0x2f then [0x2f] else []

variable {s s' : List UInt8 × List UInt8} {slot bytes path text : List UInt8} {cs : List (List UInt8)}
  {n len : Nat} {h : Header} {isDir : Bool}

section Slot

/-- The text has been written to a slot of some size, and ends there or with a nul byte. -/
structure Written (n : Nat) (text : List UInt8) (s : List UInt8 × List UInt8) : Prop where
  done : s.1 = text
  noNul : 0 ∉ text
  length : s.1.length + s.2.length = n
  ends : text ≠ [] → s.2.head? = none ∨ s.2.head? = some 0

theorem Written.truncate (h : Written n text s) (hne : text ≠ []) : truncate (s.1 ++ s.2) = text := by
  have hkeep : ∀ b ∈ s.1, decide (b ≠ 0) = true := by
    intro b hb
    refine decide_eq_true ?_
    rintro rfl
    exact h.noNul (h.done ▸ hb)
  rw [Tar.truncate, List.takeWhile_append_of_pos hkeep, h.done]
  have hrest : s.2.takeWhile (· ≠ 0) = [] := by
    rcases h.ends hne with hnone | hzero
    · rw [List.head?_eq_none_iff.mp hnone]
      rfl
    · obtain ⟨rest, hrest⟩ := List.head?_eq_some_iff.mp hzero
      rw [hrest]
      rfl
  rw [hrest, List.append_nil]

theorem Written.advance (h : Written n text s) (hs : advance s bytes = .ok s') :
    Written n (text ++ bytes) s' := by
  obtain ⟨done, slot⟩ := s
  rw [Tar.advance, copyInto] at hs
  dsimp only at hs
  split at hs
  · rename_i heq
    cases hs
  · rename_i heq
    split at heq
    · cases heq
    · rename_i hlength
      split at heq
      · cases heq
      · rename_i hnul
        cases heq
        cases hs
        have htake : ((bytes ++ [0]).take slot.length ++ slot.drop (bytes.length + 1)).take bytes.length = bytes := by
          rw [List.take_append_of_le_length, List.take_take, Nat.min_eq_left (by omega), List.take_left]
          rw [List.length_take, List.length_append, List.length_singleton]
          omega
        have hdrop : ((bytes ++ [0]).take slot.length ++ slot.drop (bytes.length + 1)).drop bytes.length =
            [(0 : UInt8)].take (slot.length - bytes.length) ++ slot.drop (bytes.length + 1) := by
          rw [List.drop_append_of_le_length, List.drop_take, List.drop_left]
          rw [List.length_take, List.length_append, List.length_singleton]
          omega
        rw [htake, hdrop]
        have htext : done = text := h.done
        have htotal : done.length + slot.length = n := h.length
        refine ⟨congrArg (· ++ bytes) htext, ?_, ?_, ?_⟩
        · rw [List.mem_append, not_or]
          exact ⟨h.noNul, hnul⟩
        · simp only [List.length_append, List.length_take, List.length_drop, List.length_singleton]
          omega
        · intro _
          by_cases hroom : slot.length = bytes.length
          · left
            rw [hroom, Nat.sub_self, List.drop_of_length_le (by omega)]
            rfl
          · right
            rw [List.take_of_length_le (by rw [List.length_singleton]; omega)]
            rfl

theorem intercalate_cons (c : List UInt8) (cs : List (List UInt8)) :
    List.intercalate [0x2f] (c :: cs) = c ++ cs.flatMap (0x2f :: ·) := by
  induction cs generalizing c with
  | nil => rw [List.intercalate_singleton, List.flatMap_nil, List.append_nil]
  | cons d cs ih => rw [List.intercalate_cons_cons, ih, List.flatMap_cons, List.append_assoc]; rfl

/-- The parts are written, each behind a slash but the first. -/
theorem Written.copyComponents {isLinkName : Bool} (h : Written n text s) {emitted result : Bool}
    (hs : copyComponents isLinkName emitted s cs = (.ok result, s')) :
    Written n (text ++ if emitted then cs.flatMap (0x2f :: ·) else List.intercalate [0x2f] cs) s' ∧
      (result = false → emitted = false ∧ cs = []) := by
  induction cs generalizing text s emitted with
  | nil =>
    cases hs
    refine ⟨?_, fun he => ⟨he, rfl⟩⟩
    cases result <;> simpa using h
  | cons c cs ih =>
    rw [Tar.copyComponents] at hs
    split at hs
    · cases hs
    · cases emitted with
      | true =>
        rw [if_pos rfl] at hs
        cases hslash : Tar.advance s [0x2f] with
        | error why =>
          rw [hslash] at hs
          cases hs
        | ok s₁ =>
          rw [hslash] at hs
          dsimp only at hs
          cases hpart : Tar.advance s₁ c with
          | error why =>
            rw [hpart] at hs
            cases hs
          | ok s₂ =>
            rw [hpart] at hs
            obtain ⟨hwritten, hresult⟩ := ih ((h.advance hslash).advance hpart) hs
            refine ⟨?_, fun hf => absurd (hresult hf).1 Bool.noConfusion⟩
            rw [if_pos rfl] at hwritten ⊢
            rw [List.flatMap_cons]
            simpa only [List.append_assoc, List.singleton_append, List.cons_append, List.nil_append] using hwritten
      | false =>
        rw [if_neg Bool.false_ne_true] at hs
        dsimp only at hs
        cases hpart : Tar.advance s c with
        | error why =>
          rw [hpart] at hs
          cases hs
        | ok s₂ =>
          rw [hpart] at hs
          obtain ⟨hwritten, hresult⟩ := ih (h.advance hpart) hs
          refine ⟨?_, fun hf => absurd (hresult hf).1 Bool.noConfusion⟩
          rw [if_pos rfl] at hwritten
          rw [if_neg Bool.false_ne_true]
          rw [intercalate_cons, ← List.append_assoc]
          exact hwritten

/-- A path that is taken is written in its normal form. -/
theorem copyPathInto_ok {isLinkName : Bool} (hs : copyPathInto slot path isLinkName = (.ok (), bytes)) :
    bytes.length = slot.length ∧ truncate bytes = normal path := by
  have hstart : Written slot.length [] (([], slot) : List UInt8 × List UInt8) :=
    ⟨rfl, List.not_mem_nil, Nat.zero_add _, fun h => absurd rfl h⟩
  rw [copyPathInto] at hs
  split at hs
  · cases hs
  · cases hparts : Tar.copyComponents isLinkName false ([], slot) (components path) with
    | mk result s =>
      rw [hparts] at hs
      cases result with
      | error why => cases hs
      | ok emitted =>
        dsimp only at hs
        split at hs
        · cases hs
        · rename_i hemitted
          obtain ⟨hwritten, -⟩ := hstart.copyComponents hparts
          rw [if_neg Bool.false_ne_true, List.nil_append] at hwritten
          have hne : List.intercalate [0x2f] (components path) ≠ [] := by
            cases hcs : components path with
            | nil =>
              rw [hcs] at hparts
              cases hparts
              exact absurd Bool.false_ne_true hemitted
            | cons c cs =>
              have hc : c ∈ components path := by
                rw [hcs]
                exact List.mem_cons_self
              rw [components, List.mem_filter, decide_eq_true_eq] at hc
              rw [intercalate_cons]
              exact List.append_ne_nil_of_left_ne_nil hc.2.1 _
          split at hs
          · rename_i hslash
            cases hadvance : Tar.advance s [0x2f] with
            | error why =>
              rw [hadvance] at hs
              cases hs
            | ok s' =>
              rw [hadvance] at hs
              cases hs
              have hall := hwritten.advance hadvance
              rw [normal, if_pos hslash]
              exact ⟨by rw [List.length_append]; exact hall.length,
                hall.truncate (List.append_ne_nil_of_left_ne_nil hne _)⟩
          · rename_i hslash
            cases hs
            rw [normal, if_neg hslash, List.append_nil]
            exact ⟨by rw [List.length_append]; exact hwritten.length, hwritten.truncate hne⟩

end Slot

section Headers

variable {h' : Header} {f : Field}

/-- A header of the GNU format -/
structure Gnu (h : Header) : Prop where
  magic : h.get .magic = [0x75, 0x73, 0x74, 0x61, 0x72, 0x20]
  version : h.get .version = [0x20, 0]

namespace Gnu

theorem new : Gnu .newGnu := by
  refine ⟨?_, ?_⟩
  · rw [Header.newGnu, Header.get_put_of_apart (by decide), Header.get_put rfl]
  · rw [Header.newGnu, Header.get_put rfl]

theorem isGnu (h : Gnu h') : h'.isGnu = true := decide_eq_true ⟨h.magic, h.version⟩

theorem not_isUstar (h : Gnu h') : h'.isUstar = false := by
  refine decide_eq_false fun hboth => ?_
  rw [h.magic] at hboth
  exact absurd hboth.1 (by decide)

theorem put (h : Gnu h') (hmagic : f.Apart .magic) (hversion : f.Apart .version) (v : List UInt8) :
    Gnu (h'.put f v) := by
  refine ⟨?_, ?_⟩
  · rw [Header.get_put_of_apart hmagic, h.magic]
  · rw [Header.get_put_of_apart hversion, h.version]

theorem setOctal (h : Gnu h') (hmagic : f.Apart .magic) (hversion : f.Apart .version) (val : Nat) :
    Gnu (h'.setOctal f val) := h.put hmagic hversion _

theorem setCksum (h : Gnu h') : Gnu h'.setCksum :=
  (h.put (by decide) (by decide) _).setOctal (by decide) (by decide) _

/-- The fields that `set_metadata` writes in any case -/
theorem setFields (h : Gnu h') (mode size : Nat) (ty : EntryType) :
    Gnu (((h'.setMode mode).setEntryType ty).setSize size) :=
  ((h.setOctal (by decide) (by decide) _).put (by decide) (by decide) _).setOctal (by decide) (by decide) _

theorem setPath (h : Gnu h') (path : List UInt8) : Gnu (h'.setPath path).2 := h.put (by decide) (by decide) _

theorem setMetadata (h : Gnu h') (isDir : Bool) (len : Nat) : h'.setMetadata isDir len =
    ((((h'.setMode (if isDir then 0x4000 else 0x8000)).setEntryType
      (if isDir then .directory else .regular)).setSize (if isDir then 0 else len)).setOctal .devMajor 0).setOctal
      .devMinor 0 := by
  rw [Header.setMetadata]
  have hg := h.setFields (if isDir then 0x4000 else 0x8000) (if isDir then 0 else len)
    (if isDir then .directory else .regular)
  rw [hg.not_isUstar, if_neg Bool.false_ne_true, hg.isGnu, if_pos rfl]

end Gnu

/-- The header of a file or directory, once it is complete -/
structure Complete (header : Header) (isDir : Bool) (len : Nat) (path : List UInt8) : Prop where
  gnu : Gnu header
  taken : header.Sealed
  size : header.entrySize = .ok (if isDir then 0 else len)
  entryType : header.entryType = if isDir then .directory else .regular
  path : header.pathBytes = path

theorem Gnu.complete (h : Gnu h') (hblank : (h'.get .size').drop 11 = [0]) (hlen : len < 8 ^ 11)
    (hname : truncate (h'.get .name) = path) :
    Complete (h'.setMetadata isDir len).setCksum isDir len path := by
  have hgnu : Gnu (h'.setMetadata isDir len).setCksum := by
    rw [h.setMetadata]
    exact (((h.setFields _ _ _).setOctal (by decide) (by decide) _).setOctal (by decide) (by decide) _).setCksum
  refine ⟨hgnu, Header.sealed_setCksum _, ?_, ?_, ?_⟩
  · have hsize : (if isDir then 0 else len) < 8 ^ 11 := by
      split
      · decide
      · exact hlen
    have hread := Header.octalFrom_setOctal (h := (h'.setMode (if isDir then 0x4000 else 0x8000)).setEntryType
      (if isDir then .directory else .regular)) (f := .size') (n := 11) rfl (by decide) (by decide)
      (.inl (by rw [Header.setEntryType, Header.get_put_of_apart (by decide), Header.setMode,
        Header.get_setOctal_of_apart (by decide), hblank])) (if isDir then 0 else len)
    rw [Nat.mod_eq_of_lt hsize] at hread
    rw [Header.entrySize, Header.get_setCksum_of_apart (by decide), h.setMetadata,
      Header.get_setOctal_of_apart (by decide), Header.get_setOctal_of_apart (by decide), Header.setSize, hread]
  · rw [Header.entryType, Header.get_setCksum_of_apart (by decide), h.setMetadata,
      Header.get_setOctal_of_apart (by decide), Header.get_setOctal_of_apart (by decide), Header.setSize,
      Header.get_setOctal_of_apart (by decide), Header.setEntryType, Header.get_put rfl]
    cases isDir <;> rfl
  · rw [Header.pathBytes, hgnu.not_isUstar, if_neg Bool.false_ne_true, Header.get_setCksum_of_apart (by decide),
      h.setMetadata, Header.get_setOctal_of_apart (by decide), Header.get_setOctal_of_apart (by decide),
      Header.setSize, Header.get_setOctal_of_apart (by decide), Header.setEntryType,
      Header.get_put_of_apart (by decide), Header.setMode, Header.get_setOctal_of_apart (by decide), hname]

end Headers

section Long

variable {dst dst' gap rest : List UInt8} {e : Entries} {f : File} {fs : List File} {m : Member}

/-- The entry in front of one whose path does not fit, as it is read: with a nul byte behind the path -/
def longMember (path : List UInt8) : Member := ⟨longLink path, path ++ [0]⟩

theorem longLink_gnu (path : List UInt8) : Gnu (longLink path) := by
  rw [longLink]
  exact ((((((Gnu.new.put (by decide) (by decide) _).setOctal (by decide) (by decide) _).setOctal
    (by decide) (by decide) _).setOctal (by decide) (by decide) _).setOctal (by decide) (by decide) _).setOctal
    (by decide) (by decide) _).put (by decide) (by decide) _ |>.setCksum

theorem longLink_entryType (path : List UInt8) : (longLink path).entryType = .gnuLongName := by
  rw [Header.entryType, longLink, Header.get_setCksum_of_apart (by decide), Header.setEntryType, Header.get_put rfl]
  rfl

theorem longMember_fits (hlen : path.length + 1 < 8 ^ 11) : (longMember path).Fits := by
  refine ⟨Header.sealed_setCksum _, ?_⟩
  have hread := Header.octalFrom_setOctal
    (h := ((((Header.newGnu.put .name (utf8 "././@LongLink" ++ (Header.newGnu.get .name).drop 13)).setMode
      0o644).setUid 0).setGid 0).setMtime 0) (f := .size') (n := 11) rfl (by decide) (by decide)
    (.inl (by
      rw [Header.setMtime, Header.get_setOctal_of_apart (by decide), Header.setGid,
        Header.get_setOctal_of_apart (by decide), Header.setUid, Header.get_setOctal_of_apart (by decide),
        Header.setMode, Header.get_setOctal_of_apart (by decide), Header.get_put_of_apart (by decide),
        Header.get_newGnu (by decide) (by decide)]
      rfl)) (path.length + 1)
  rw [Nat.mod_eq_of_lt hlen] at hread
  rw [longMember, List.length_append, List.length_singleton, Header.entrySize, longLink,
    Header.get_setCksum_of_apart (by decide), Header.setEntryType, Header.get_put_of_apart (by decide),
    Header.setSize, hread]

/-- Where the path does not end a block, there is a nul byte behind it. -/
theorem longMember_written (hlen : path.length % 512 ≠ 0) :
    (longMember path).written = (⟨longLink path, path⟩ : Member).written := by
  have hpad : padding path.length = [0] ++ padding (path.length + 1) := by
    rw [padding, padding, ← List.replicate_one, List.replicate_append_replicate]
    congr 1
    rw [roundUp, roundUp]
    omega
  rw [longMember, Member.written, Member.written, hpad, List.length_append, List.length_singleton]
  simp only [List.append_assoc]

/-- An entry that describes no other one is given, with what is known of it. -/
theorem describe_member (longname : Option (List UInt8)) (processed : Nat) {isDir : Bool} {len : Nat} (hat : e.At gap (m.written ++ rest)) (hfits : m.Fits)
    (hcomplete : Complete m.header isDir len path) : ∃ entry e',
    e.describe longname none none processed = .ok (some entry, e') ∧ entry.longPathname = longname ∧
      entry.header = m.header ∧ entry.size = m.data.length ∧ entry.data = [.data m.data.length] ∧
      Entries.Comes e e' m.data rest := by
  obtain ⟨e', hnext, hcomes⟩ := Entries.nextEntryRaw_member hat hfits
  have htype : m.header.entryType ≠ .gnuLongName ∧ m.header.entryType ≠ .gnuLongLink ∧
      m.header.entryType ≠ .gnuSparse := by
    rw [hcomplete.entryType]
    cases isDir <;> exact ⟨by rintro ⟨⟩, by rintro ⟨⟩, by rintro ⟨⟩⟩
  refine ⟨⟨longname, none, none, m.header, m.data.length, [.data m.data.length]⟩, e', ?_, rfl, rfl, rfl, rfl, hcomes⟩
  rw [Entries.describe, hnext]
  dsimp only
  rw [if_neg fun h => htype.1 h.2, if_neg fun h => htype.2.1 h.2, hcomplete.gnu.not_isUstar,
    if_neg fun h => Bool.false_ne_true h.1, Entries.parseSparseHeader, if_pos htype.2.2]
  rfl

/-- A long path comes with the entry behind it. -/
theorem describe_long {isDir : Bool} {len : Nat} {name : List UInt8}
    (hat : e.At gap ((longMember path).written ++ (m.written ++ rest))) (hlen : path.length + 1 < 8 ^ 11)
    (hfits : m.Fits) (hcomplete : Complete m.header isDir len name) : ∃ entry e',
    e.describe none none none 0 = .ok (some entry, e') ∧ entry.longPathname = some (path ++ [0]) ∧
      entry.header = m.header ∧ entry.size = m.data.length ∧ entry.data = [.data m.data.length] ∧
      Entries.Comes e e' m.data rest := by
  obtain ⟨e₁, hnext, hcomes⟩ := Entries.nextEntryRaw_member hat (longMember_fits hlen)
  have hthere : e₁.archive.pos + EntryIo.stored [.data (path ++ [0]).length] ≤ e₁.archive.input.length := by
    have hlength := hcomes.archive.length
    rw [List.length_append] at hlength
    show e₁.archive.pos + ((path ++ [0]).length + 0) ≤ _
    rw [hlength]
    exact Nat.add_le_add_left (Nat.le_add_right _ _) _
  have hread := readToEnd_eq hthere
  have hcontent : EntryIo.content e₁.archive.input e₁.archive.pos [.data (path ++ [0]).length] = path ++ [0] := by
    rw [EntryIo.content, EntryIo.content, List.append_nil, hcomes.archive.drop]
    exact List.take_left
  rw [hcontent] at hread
  obtain ⟨entry, e₂, hdescribe, h1, h2, h3, h4, h5⟩ :=
    describe_member (some (path ++ [0])) 1 hcomes.at hfits hcomplete
  refine ⟨entry, e₂, ?_, h1, h2, h3, h4, h5.archive, h5.next, h5.done.trans hcomes.done, h5.raw.trans hcomes.raw⟩
  rw [Entries.describe, hnext]
  dsimp only
  rw [if_pos ⟨(longLink_gnu path).isGnu, longLink_entryType path⟩, Option.isSome_none, if_neg Bool.false_ne_true,
    show (longMember path).data = path ++ [0] from rfl, hread]
  exact hdescribe

namespace File

/-- Whether the path has no room in the header -/
def isLong (f : File) : Bool :=
  match (Header.newGnu.setPath f.path).1 with
  | .ok _ => false
  | .error _ => true

/-- The path that the entry of a file is read with -/
def readPath (f : File) : List UInt8 := if f.isLong then f.path else normal f.path

/-- The header that the file gets in the end -/
def header (f : File) : Header :=
  let h := (Header.newGnu.setPath f.path).2
  ((if f.isLong then (h.setPath (f.path.take 100)).2 else h).setMetadata f.isDir f.data.length).setCksum

def member (f : File) : Member := ⟨f.header, f.contents⟩

/-- The entry of a file, with all that is written for it -/
def item (f : File) : Item :=
  ⟨f.readPath, f.header, f.contents, (if f.isLong then (longMember f.path).written else []) ++ f.member.written⟩

/-- A long path does not end a block, and its length has few enough digits. -/
def Fits (f : File) : Prop :=
  f.data.length < 8 ^ 11 ∧ (f.isLong → f.path.length % 512 ≠ 0 ∧ f.path.length + 1 < 8 ^ 11)

/-- How a file gets into an archive: with its path in the header, or behind an entry with the path. -/
theorem appendPath_cases (h : f.appendPath dst = (.ok, dst')) :
    f.isLong = false ∧ (Header.newGnu.setPath f.path).1 = .ok () ∧ dst' = dst ++ f.member.written ∨
      f.isLong = true ∧ dst' = append dst (longLink f.path) f.path ++ f.member.written := by
  obtain ⟨⟨result, first⟩, hpath⟩ : ∃ r, Header.newGnu.setPath f.path = r := ⟨_, rfl⟩
  have hmember : ∀ (dst : List UInt8) (header : Header), f.header = (header.setMetadata f.isDir f.data.length).setCksum →
      append dst (header.setMetadata f.isDir f.data.length).setCksum f.contents = dst ++ f.member.written := by
    intro dst header heq
    rw [← heq]
    exact append_eq dst f.member
  rw [appendPath, appendFs, hpath] at h
  cases result with
  | ok u =>
    have hlong : f.isLong = false := by rw [isLong, hpath]
    have hheader : f.header = (first.setMetadata f.isDir f.data.length).setCksum := by
      rw [header, hlong, if_neg Bool.false_ne_true, hpath]
    refine .inl ⟨hlong, by rw [hpath], ?_⟩
    rw [← hmember dst first hheader]
    exact (congrArg Prod.snd h).symm
  | error why =>
    have hlong : f.isLong = true := by rw [isLong, hpath]
    dsimp only at h
    split at h
    · cases h
    · split at h
      · cases h
      · split at h
        · rename_i second hcut
          have hheader : f.header = (second.setMetadata f.isDir f.data.length).setCksum := by
            rw [header, hlong, if_pos rfl, hpath, hcut]
          refine .inr ⟨hlong, ?_⟩
          rw [← hmember _ second hheader]
          exact (congrArg Prod.snd h).symm
        · cases h

theorem appendPath_ok (h : f.appendPath dst = (.ok, dst')) (hfits : f.Fits) : dst' = dst ++ f.item.written := by
  rcases appendPath_cases h with ⟨hlong, -, rfl⟩ | ⟨hlong, rfl⟩
  · rw [item, hlong, if_neg Bool.false_ne_true, List.nil_append]
  · have hwritten := append_eq dst ⟨longLink f.path, f.path⟩
    rw [← longMember_written (hfits.2 hlong).1] at hwritten
    rw [item, hlong, if_pos rfl, ← List.append_assoc]
    exact congrArg (· ++ f.member.written) hwritten

theorem header_complete (hfits : f.Fits) :
    ∃ name, Complete f.header f.isDir f.data.length name ∧
      ((Header.newGnu.setPath f.path).1 = .ok () → f.isLong = false → name = normal f.path) := by
  have hblank : ∀ {h : Header} {bytes}, (h.get .size').drop 11 = [0] → ((h.put .name bytes).get .size').drop 11 = [0] := by
    intro h bytes hh
    rw [Header.get_put_of_apart (by decide), hh]
  have hnew : (Header.newGnu.get .size').drop 11 = [0] := by
    rw [Header.get_newGnu (by decide) (by decide)]
    rfl
  cases hlong : f.isLong with
  | false =>
    have hheader : f.header = ((Header.newGnu.setPath f.path).2.setMetadata f.isDir f.data.length).setCksum := by
      rw [header, hlong, if_neg Bool.false_ne_true]
    rw [hheader]
    refine ⟨_, (Gnu.new.setPath f.path).complete (hblank hnew) hfits.1 rfl, fun hok _ => ?_⟩
    obtain ⟨⟨result, bytes⟩, hcopy⟩ : ∃ r, copyPathInto (Header.newGnu.get .name) f.path false = r := ⟨_, rfl⟩
    rw [Header.setPath, hcopy] at hok ⊢
    cases hok
    obtain ⟨hlength, htruncate⟩ := copyPathInto_ok hcopy
    rw [Header.length_get] at hlength
    rw [Header.get_put hlength, htruncate]
  | true =>
    have hheader : f.header = (((Header.newGnu.setPath f.path).2.setPath (f.path.take 100)).2.setMetadata f.isDir
        f.data.length).setCksum := by
      rw [header, hlong, if_pos rfl]
    rw [hheader]
    exact ⟨_, ((Gnu.new.setPath f.path).setPath _).complete (hblank (hblank hnew)) hfits.1 rfl,
      fun _ hfalse => absurd hfalse Bool.noConfusion⟩

theorem readable (h : f.appendPath dst = (.ok, dst')) (hfits : f.Fits) : f.item.Readable false := by
  obtain ⟨name, hcomplete, hname⟩ := header_complete hfits
  have hmember : f.member.Fits := by
    refine ⟨hcomplete.taken, ?_⟩
    rw [member, hcomplete.size, contents]
    cases f.isDir <;> rfl
  intro e gap rest hraw hat
  rw [Entries.nextEntry, if_neg (by rw [hraw]; exact Bool.false_ne_true)]
  rcases appendPath_cases h with ⟨hlong, hok, -⟩ | ⟨hlong, -⟩
  · rw [item, hlong, if_neg Bool.false_ne_true, List.nil_append] at hat
    obtain ⟨entry, e', hdescribe, hpathname, hheader, hsize, hdata, hcomes⟩ :=
      describe_member none 0 hat hmember hcomplete
    refine ⟨entry, e', hdescribe, ?_, hheader, hsize, hdata, hcomes⟩
    rw [Entry.pathBytes, hpathname, hheader]
    show f.header.pathBytes = f.readPath
    rw [hcomplete.path, hname hok hlong, readPath, hlong, if_neg Bool.false_ne_true]
  · rw [item, hlong, if_pos rfl, List.append_assoc] at hat
    obtain ⟨entry, e', hdescribe, hpathname, hheader, hsize, hdata, hcomes⟩ :=
      describe_long hat (hfits.2 hlong).2 hmember hcomplete
    refine ⟨entry, e', hdescribe, ?_, hheader, hsize, hdata, hcomes⟩
    rw [Entry.pathBytes, hpathname]
    show (if (f.path ++ [0]).getLast? = some 0 then (f.path ++ [0]).dropLast else f.path ++ [0]) = f.readPath
    rw [List.getLast?_concat, if_pos rfl, List.dropLast_concat, readPath, hlong, if_pos rfl]

theorem appendAll_ok (h : appendAll dst fs = (.ok, dst')) (hfits : ∀ f ∈ fs, f.Fits) :
    dst' = dst ++ (fs.map item).flatMap Item.written ∧ ∀ f ∈ fs, f.item.Readable false := by
  induction fs generalizing dst with
  | nil =>
    cases h
    exact ⟨(List.append_nil _).symm, by rintro f ⟨⟩⟩
  | cons f fs ih =>
    rw [appendAll] at h
    cases hone : f.appendPath dst with
    | mk result mid =>
      rw [hone] at h
      cases result with
      | ok =>
        have hf := hfits f List.mem_cons_self
        obtain ⟨heq, hall⟩ := ih h fun g hg => hfits g (List.mem_cons_of_mem f hg)
        refine ⟨?_, ?_⟩
        · rw [heq, appendPath_ok hone hf, List.map_cons, List.flatMap_cons, List.append_assoc]
        · intro g hg
          rcases List.mem_cons.mp hg with rfl | hg
          · exact readable hone hf
          · exact hall g hg
      | error why => cases h
      | panic => cases h

end File

/-- Files and directories that have all been put into an archive come out of it in their order, each under its
path, with its kind and its data, whatever each read of the archive gives, and whatever is read of a file
before the next. A path that has no room in a header must not end a block. -/
theorem files_come_back {fs : List File} {dst : List UInt8} {labels : List (Act × Shown)} {r : Reader}
    (happend : File.appendAll [] fs = (.ok, dst)) (hfits : ∀ f ∈ fs, f.Fits) (trailing : List UInt8)
    (chunk : Nat → Nat)
    (hrun : Run Reader.Step (.start ((⟨false, dst⟩ : Builder).intoInner ++ trailing) chunk false) labels r) :
    ∃ is : List Item, List.Forall₂ (fun f i => i.path = f.readPath ∧ i.data = f.contents ∧
      i.header.entryType = if f.isDir then .directory else .regular) fs is ∧
      ∃ t, Run Tape.Step ⟨[], is⟩ labels t := by
  obtain ⟨rfl, hread⟩ := File.appendAll_ok happend hfits
  refine ⟨fs.map File.item, ?_, ?_⟩
  · rw [List.forall₂_map_right_iff, List.forall₂_same]
    intro f hf
    obtain ⟨name, hcomplete, -⟩ := File.header_complete (hfits f hf)
    exact ⟨rfl, rfl, hcomplete.entryType⟩
  · have hwritten : (⟨false, [] ++ (fs.map File.item).flatMap Item.written⟩ : Builder).intoInner ++ trailing =
        written (fs.map File.item) trailing := by
      rw [written, ← List.append_assoc, List.nil_append]
      rfl
    rw [hwritten] at hrun
    refine reader_follows_tape ?_ chunk hrun
    intro i hi
    obtain ⟨f, hf, rfl⟩ := List.mem_map.mp hi
    exact hread f hf

/-- A file with a short name and three bytes -/
def letter : File := ⟨[0x61], false, [1, 2, 3]⟩

theorem letter_path : (Header.newGnu.setPath letter.path).1 = .ok () := by
  rw [Header.setPath, Header.get_newGnu (by decide) (by decide)]
  rfl

theorem letter_appended : File.appendAll [] [letter] = (.ok, (File.appendAll [] [letter]).2) := by
  obtain ⟨⟨result, header⟩, hpath⟩ : ∃ r, Header.newGnu.setPath letter.path = r := ⟨_, rfl⟩
  have hok : result = .ok () := (congrArg Prod.fst hpath).symm.trans letter_path
  rw [File.appendAll, File.appendPath, appendFs, hpath, hok]
  rfl

/-- The file goes into an archive, and the first entry is asked for. -/
theorem letter_comes_back : ∃ is : List Item, List.Forall₂ (fun f i => i.path = File.readPath f ∧
    i.data = f.contents ∧ i.header.entryType = if f.isDir then .directory else .regular) [letter] is ∧
    ∃ t, Run Tape.Step ⟨[], is⟩ [(.next, ((Reader.start ((⟨false, (File.appendAll [] [letter]).2⟩ :
      Builder).intoInner ++ []) (fun _ => 0) false).act .next).1)] t := by
  refine files_come_back letter_appended ?_ [] (fun _ => 0) (.cons (Reader.step_act _ _) .nil)
  intro f hf
  rw [List.mem_singleton.mp hf]
  have hlong : letter.isLong = false := by rw [File.isLong, letter_path]
  exact ⟨by decide, fun h => absurd (hlong.symm.trans h) Bool.noConfusion⟩

end Long

end Origel.Tar
