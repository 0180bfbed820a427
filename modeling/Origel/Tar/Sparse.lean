import Origel.Tar.Builder

/-! Sparse files: blocks of the archive at their places, and zeros between them. -/
namespace Origel.Tar

/-- The offset and the length that a sparse header tells of, unless it is empty. -/
def blockOf (block : List UInt8) : Option (Nat × Nat) :=
  if block.headD 0 = 0 ∨ (block.drop 12).headD 0 = 0 then none
  else
    match octalFrom (block.take 12), octalFrom (block.drop 12) with
    | .ok off, .ok len => some (off, len)
    | _, _ => none

/-- Blocks that follow one another, the first not in front of `cur`. -/
def Ordered : Nat → List (Nat × Nat) → Prop
  | _, [] => True
  | cur, (off, len) :: blocks => cur ≤ off ∧ Ordered (off + len) blocks

/-- Where the last block stops. -/
def stop : Nat → List (Nat × Nat) → Nat
  | cur, [] => cur
  | _, (off, len) :: blocks => stop (off + len) blocks

/-- The bytes that the blocks hold. -/
def held (blocks : List (Nat × Nat)) : Nat := (blocks.map Prod.snd).sum

/-- A sparse file as it is meant: each block at its offset, with the bytes that are next, and zeros between
the blocks. -/
def expand : Nat → List UInt8 → List (Nat × Nat) → List UInt8
  | _, _, [] => []
  | cur, bytes, (off, len) :: blocks =>
    List.replicate (off - cur) 0 ++ bytes.take len ++ expand (off + len) (bytes.drop len) blocks

/-- The parts that these blocks are read as. -/
def parts : Nat → List (Nat × Nat) → List EntryIo
  | _, [] => []
  | cur, (off, len) :: blocks =>
    (if cur < off then [.pad (off - cur)] else []) ++ .data len :: parts (off + len) blocks

variable {size cur remaining off len : Nat} {data : List EntryIo} {s s' : Nat × Nat × List EntryIo}
  {block : List UInt8} {heads : List (List UInt8)} {blocks more : List (Nat × Nat)} {input : List UInt8}
  {pos : Nat} {entry entry' : Entry} {e e' : Entries}

/-- From `s` to `s'` these blocks have been added. -/
structure Added (s : Nat × Nat × List EntryIo) (blocks : List (Nat × Nat))
    (s' : Nat × Nat × List EntryIo) : Prop where
  cur : s'.1 = stop s.1 blocks
  remaining : s'.2.1 + held blocks = s.2.1
  data : s'.2.2 = s.2.2 ++ parts s.1 blocks
  ordered : Ordered s.1 blocks

theorem Added.refl (s : Nat × Nat × List EntryIo) : Added s [] s :=
  ⟨rfl, rfl, (List.append_nil _).symm, trivial⟩

theorem held_cons (b : Nat × Nat) (blocks : List (Nat × Nat)) : held (b :: blocks) = b.2 + held blocks :=
  List.sum_cons

theorem stop_append (cur : Nat) (blocks more : List (Nat × Nat)) :
    stop cur (blocks ++ more) = stop (stop cur blocks) more := by
  induction blocks generalizing cur with
  | nil => rfl
  | cons b blocks ih => exact ih _

theorem parts_append (cur : Nat) (blocks more : List (Nat × Nat)) :
    parts cur (blocks ++ more) = parts cur blocks ++ parts (stop cur blocks) more := by
  induction blocks generalizing cur with
  | nil => rfl
  | cons b blocks ih => simp only [List.cons_append, parts, stop, ih, List.append_assoc]

theorem ordered_append (h : Ordered cur blocks) (h' : Ordered (stop cur blocks) more) :
    Ordered cur (blocks ++ more) := by
  induction blocks generalizing cur with
  | nil => exact h'
  | cons b blocks ih => exact ⟨h.1, ih h.2 h'⟩

theorem Added.trans {s'' : Nat × Nat × List EntryIo} (h : Added s blocks s') (h' : Added s' more s'') :
    Added s (blocks ++ more) s'' := by
  have hcur := h.cur
  refine ⟨?_, ?_, ?_, ?_⟩
  · rw [h'.cur, hcur, stop_append]
  · have hheld : held (blocks ++ more) = held blocks + held more := by
      rw [held, List.map_append, List.sum_append]
      rfl
    have hfirst := h.remaining
    have hsecond := h'.remaining
    omega
  · rw [h'.data, h.data, hcur, parts_append, List.append_assoc]
  · exact ordered_append h.ordered (hcur ▸ h'.ordered)

/-- What the parts of one block are behind others. -/
theorem append_parts (data : List EntryIo) (cur off len : Nat) : data ++ parts cur [(off, len)] =
    (if cur < off then data ++ [.pad (off - cur)] else data) ++ [.data len] := by
  rw [parts, parts]
  split
  · rw [List.append_assoc]
  · rfl

theorem addBlock_ok (h : addBlock size s block = .ok s') : Added s (blockOf block).toList s' := by
  obtain ⟨cur, remaining, data⟩ := s
  rw [addBlock] at h
  rw [blockOf]
  split at h
  · rename_i hempty
    cases h
    rw [if_pos hempty]
    exact .refl _
  · rename_i hempty
    rw [if_neg hempty]
    cases hoff : octalFrom (block.take 12) with
    | error why =>
      rw [hoff] at h
      cases h
    | ok off =>
      cases hlen : octalFrom (block.drop 12) with
      | error why =>
        rw [hoff, hlen] at h
        cases h
      | ok len =>
        rw [hoff, hlen] at h
        simp only [bind, Except.bind] at h
        split at h
        · cases h
        · split at h
          · cases h
          · rename_i hcur
            split at h
            · cases h
            · split at h
              · cases h
              · rename_i hremaining
                cases h
                refine ⟨rfl, ?_, ?_, ⟨by omega, trivial⟩⟩
                · exact Nat.sub_add_cancel (Nat.le_of_not_lt hremaining)
                · exact (append_parts data cur off len).symm

theorem foldlM_addBlock (h : heads.foldlM (addBlock size) s = .ok s') :
    Added s (heads.filterMap blockOf) s' := by
  induction heads generalizing s with
  | nil =>
    cases h
    exact .refl _
  | cons head heads ih =>
    rw [List.foldlM_cons] at h
    cases hone : addBlock size s head with
    | error why =>
      rw [hone] at h
      cases h
    | ok t =>
      rw [hone] at h
      have hrest := (addBlock_ok hone).trans (ih h)
      cases hblock : blockOf head with
      | none => rwa [List.filterMap_cons_none hblock, ← List.nil_append (List.filterMap _ _), ← Option.toList_none, ← hblock]
      | some b => rwa [List.filterMap_cons_some hblock, ← List.singleton_append, ← Option.toList_some, ← hblock]

/-- The parts are read as the file that is meant. -/
theorem content_parts (cur pos : Nat) (blocks : List (Nat × Nat)) :
    EntryIo.content input pos (parts cur blocks) = expand cur (input.drop pos) blocks := by
  induction blocks generalizing cur pos with
  | nil => rfl
  | cons b blocks ih =>
    obtain ⟨off, len⟩ := b
    rw [parts, expand, List.drop_drop, ← ih]
    by_cases hcur : cur < off
    · rw [if_pos hcur, List.append_assoc]
      rfl
    · rw [if_neg hcur, Nat.sub_eq_zero_of_le (Nat.le_of_not_lt hcur)]
      rfl

theorem stored_parts (cur : Nat) (blocks : List (Nat × Nat)) : EntryIo.stored (parts cur blocks) = held blocks := by
  induction blocks generalizing cur with
  | nil => rfl
  | cons b blocks ih =>
    obtain ⟨off, len⟩ := b
    rw [parts, held_cons, ← ih (off + len)]
    split <;> rfl

theorem length_expand (h : Ordered cur blocks) {bytes : List UInt8} (hheld : held blocks ≤ bytes.length) :
    cur + (expand cur bytes blocks).length = stop cur blocks := by
  induction blocks generalizing cur bytes with
  | nil => rfl
  | cons b blocks ih =>
    obtain ⟨off, len⟩ := b
    rw [held_cons] at hheld
    have hrest := @ih (off + len) h.2 (bytes.drop len) (by rw [List.length_drop]; dsimp only at hheld; omega)
    have hle := h.1
    rw [expand, stop, ← hrest, List.length_append, List.length_append, List.length_replicate,
      List.length_take_of_le (by dsimp only at hheld; omega)]
    omega

/-- A header that says so is followed by one more, until one does not. -/
def Continued : Prop → List (List UInt8) → Prop
  | more, [] => ¬more
  | more, ext :: exts => more ∧ Continued ((ext.drop 504).headD 0 = 1) exts

/-- These blocks of the archive have been read, and the entries are behind them. -/
structure Behind (e : Entries) (exts : List (List UInt8)) (e' : Entries) : Prop where
  whole : ∀ ext ∈ exts, ext.length = 512
  blocks : exts.flatten = (e.archive.input.drop e.archive.pos).take (512 * exts.length)
  archive : e'.archive = e.archive.advance (512 * exts.length)
  next : e'.next = e.next + 512 * exts.length

theorem extended_ok (h : e.extended size s = .ok (s', e')) : ∃ exts, Behind e exts e' ∧
    (∀ {more : Prop}, more → Continued more exts) ∧ Added s ((exts.flatMap (sparseBlocks 21)).filterMap blockOf) s' := by
  generalize hm : e.archive.input.length - e.archive.pos = m
  induction m using Nat.strong_induction_on generalizing s e with
  | _ m ih =>
    rw [Entries.extended] at h
    split at h
    · cases h
    · rename_i ext a hread
      have hle := Archive.le_of_readAll hread (by decide)
      rw [Archive.readAll_ok hle] at hread
      cases hread
      have hone : ((e.archive.input.drop e.archive.pos).take 512).length = 512 := by
        rw [List.length_take, List.length_drop]
        omega
      split at h
      · cases h
      · rename_i t hblocks
        have hadded := foldlM_addBlock hblocks
        dsimp only at h
        split at h
        · rename_i hmore
          obtain ⟨exts, hbehind, hcontinued, hrest⟩ := ih _ (by dsimp only; omega) h rfl
          refine ⟨(e.archive.input.drop e.archive.pos).take 512 :: exts, ⟨?_, ?_, ?_, ?_⟩,
            fun h => ⟨h, hcontinued hmore⟩, ?_⟩
          · exact List.forall_mem_cons.mpr ⟨hone, hbehind.whole⟩
          · have hsplit := List.take_add (l := e.archive.input.drop e.archive.pos) (i := 512)
              (j := 512 * exts.length)
            rw [List.drop_drop] at hsplit
            rw [List.flatten_cons, hbehind.blocks, List.length_cons, Nat.mul_add, Nat.add_comm (512 * exts.length)]
            exact hsplit.symm
          · rw [hbehind.archive]
            simp only [Archive.advance, List.length_cons]
            congr 1
            omega
          · rw [hbehind.next, List.length_cons]
            dsimp only
            omega
          · rw [List.flatMap_cons, List.filterMap_append]
            exact hadded.trans hrest
        · rename_i hmore
          cases h
          refine ⟨[(e.archive.input.drop e.archive.pos).take 512],
            ⟨List.forall_mem_singleton.mpr hone, ?_, rfl, rfl⟩, fun h => ⟨h, hmore⟩, ?_⟩
          · rw [List.flatten_singleton]
            rfl
          · rw [List.flatMap_singleton]
            exact hadded

/-- What a sparse entry that is taken has to tell: the blocks of its header and of the ones that follow it as
long as each says so, which hold its `size`, and reach to its `realsize`. -/
structure Described (entry : Entry) (e : Entries) (blocks : List (Nat × Nat)) (entry' : Entry)
    (e' : Entries) : Prop where
  behind : ∃ exts, Behind e exts e' ∧ Continued (entry.header.get .isextended = [1]) exts ∧ blocks =
    (sparseBlocks 4 (entry.header.bytes.drop 386) ++ exts.flatMap (sparseBlocks 21)).filterMap blockOf
  ordered : Ordered 0 blocks
  held : held blocks = entry.size
  stop : stop 0 blocks = entry'.size
  realSize : octalFrom (entry.header.get .realsize) = .ok entry'.size
  data : entry'.data = parts 0 blocks

theorem parseSparseHeader_ok (h : e.parseSparseHeader entry = .ok (entry', e'))
    (hsparse : entry.header.entryType = .gnuSparse) : ∃ blocks, Described entry e blocks entry' e' := by
  rw [Entries.parseSparseHeader, if_neg (not_not_intro hsparse)] at h
  split at h
  · cases h
  · cases hblocks : (sparseBlocks 4 (entry.header.bytes.drop 386)).foldlM (addBlock entry.size)
      (0, entry.size, []) with
    | error why =>
      rw [hblocks] at h
      cases h
    | ok s =>
      rw [hblocks] at h
      have hadded := foldlM_addBlock hblocks
      -- the blocks that follow the header, if there are any
      obtain ⟨exts, s', e₁, hbehind, hcontinued, hall, hrest⟩ : ∃ exts s' e₁, Behind e exts e₁ ∧
          Continued (entry.header.get .isextended = [1]) exts ∧ Added (0, entry.size, []) ((sparseBlocks 4 (entry.header.bytes.drop 386) ++
            exts.flatMap (sparseBlocks 21)).filterMap blockOf) s' ∧
          (octalFrom (entry.header.get .realsize)).bind (fun realSize =>
            if s'.1 ≠ realSize then .error "mismatch in sparse file chunks and size in header"
            else if s'.2.1 > 0 then .error "mismatch in sparse file chunks and entry size in header"
            else .ok ({ entry with data := s'.2.2, size := s'.1 }, e₁)) = .ok (entry', e') := by
        by_cases hext : entry.header.get .isextended = [1]
        · cases hmore : e.extended entry.size s with
          | error why =>
            simp only [bind, Except.bind, if_pos hext, hmore] at h
            cases h
          | ok r =>
            simp only [bind, Except.bind, if_pos hext, hmore] at h
            obtain ⟨exts, hbehind, hcontinued, hmore'⟩ := extended_ok hmore
            refine ⟨exts, r.1, r.2, hbehind, hcontinued hext, ?_, h⟩
            rw [List.filterMap_append]
            exact hadded.trans hmore'
        · simp only [bind, Except.bind, if_neg hext] at h
          refine ⟨[], s, e, ⟨fun _ h => absurd h List.not_mem_nil, rfl, rfl, rfl⟩, hext, ?_, h⟩
          rw [List.flatMap_nil, List.append_nil]
          exact hadded
      cases hreal : octalFrom (entry.header.get .realsize) with
      | error why =>
        rw [hreal] at hrest
        cases hrest
      | ok realSize =>
        rw [hreal] at hrest
        dsimp only [Except.bind] at hrest
        split at hrest
        · cases hrest
        · rename_i hcur
          split at hrest
          · cases hrest
          · rename_i hremaining
            cases hrest
            have hheld := hall.remaining
            refine ⟨_, ⟨exts, hbehind, hcontinued, rfl⟩, hall.ordered, ?_, hall.cur.symm, ?_, hall.data⟩
            · dsimp only at hheld
              omega
            · rw [hreal, not_not.mp hcur]

/-- A sparse entry that is taken is read as the file that its blocks tell of, which has the size that it
says. It takes the bytes of its own from the archive, and the next header is found behind them. -/
theorem sparse_file {entry entry' : Entry} {e e' : Entries} (h : e.parseSparseHeader entry = .ok (entry', e'))
    (hsparse : entry.header.entryType = .gnuSparse) (hnext : e.next = e.archive.pos + roundUp entry.size)
    (hthere : e'.archive.pos + entry.size ≤ e'.archive.input.length) : ∃ blocks,
    Described entry e blocks entry' e' ∧
      readToEnd entry'.data e'.archive = (expand 0 (e'.archive.input.drop e'.archive.pos) blocks,
        e'.archive.advance entry.size) ∧
      (expand 0 (e'.archive.input.drop e'.archive.pos) blocks).length = entry'.size ∧
      e'.next = e'.archive.pos + roundUp entry.size := by
  obtain ⟨blocks, hd⟩ := parseSparseHeader_ok h hsparse
  obtain ⟨exts, hbehind, -, -⟩ := hd.behind
  have hstored : EntryIo.stored entry'.data = entry.size := by rw [hd.data, stored_parts, hd.held]
  refine ⟨blocks, hd, ?_, ?_, ?_⟩
  · rw [readToEnd_eq (by rw [hstored]; exact hthere), hstored, hd.data, content_parts]
    rfl
  · have hlength : held blocks ≤ (e'.archive.input.drop e'.archive.pos).length := by
      rw [hd.held, List.length_drop]
      omega
    have hall := length_expand hd.ordered hlength
    rwa [Nat.zero_add, hd.stop] at hall
  · rw [hbehind.next, hbehind.archive, hnext]
    simp only [Archive.advance]
    omega

/-- A sparse header for two bytes behind four zeros -/
def hole : Header :=
  ((Header.newGnu.setEntryType .gnuSparse).put { offset := 386, size := 24 }
    (octalInto (List.replicate 12 0) 4 ++ octalInto (List.replicate 12 0) 2)).setOctal .realsize 6

def holed : Entry := ⟨none, none, none, hole, 2, [.data 2]⟩

/-- The two bytes -/
def behindHole : Entries := ⟨⟨[7, 9], fun _ => 0, 0⟩, 512, false, false⟩

theorem hole_taken : behindHole.parseSparseHeader holed =
    .ok ({ holed with data := [.pad 4, .data 2], size := 6 }, behindHole) := by
  have hsparse : holed.header.entryType = .gnuSparse := by decide +kernel
  have hgnu : ¬¬holed.header.isGnu = true := by decide +kernel
  have hext : ¬holed.header.get .isextended = [1] := by decide +kernel
  have hblocks : (sparseBlocks 4 (holed.header.bytes.drop 386)).foldlM (addBlock holed.size)
      (0, holed.size, []) = .ok (6, 0, [.pad 4, .data 2]) := by decide +kernel
  have hreal : octalFrom (holed.header.get .realsize) = .ok 6 := by decide +kernel
  rw [Entries.parseSparseHeader, if_neg (not_not_intro hsparse), if_neg hgnu, hblocks]
  simp only [bind, Except.bind, if_neg hext, hreal]
  rfl

theorem hole_read : ∃ blocks, Described holed behindHole blocks
    { holed with data := [.pad 4, .data 2], size := 6 } behindHole ∧
      readToEnd [.pad 4, .data 2] behindHole.archive = (expand 0 [7, 9] blocks, behindHole.archive.advance 2) ∧
      (expand 0 [7, 9] blocks).length = 6 ∧ behindHole.next = behindHole.archive.pos + roundUp 2 :=
  sparse_file hole_taken (by decide +kernel) rfl (by decide)

end Origel.Tar
