import Mathlib.Data.List.Basic
import Mathlib.Algebra.Order.Group.Nat
import Origel.Lib.Run

/-! The text of the editor, and where its cursor goes. -/
namespace Origel.Smith

open Origel.Lib

/-- How the rope divides a text into lines. All but the last end with a line ending. -/
structure Breaks where
  lines : List Char → List (List Char)
  flatten_lines : ∀ text, (lines text).flatten = text
  lines_ne_nil : ∀ text, lines text ≠ []
  ne_nil_of_mem : ∀ text, ∀ line ∈ (lines text).dropLast, line ≠ []

/-- The index of the character that a line starts with. -/
def start (lines : List (List Char)) (i : Nat) : Nat := (lines.take i).flatten.length

/-- The line that a character is in. The position behind the text is in the last one. -/
def lineAt : List (List Char) → Nat → Nat
  | [], _ => 0
  | [_], _ => 0
  | line :: next :: lines, pos =>
    if pos < line.length then 0 else lineAt (next :: lines) (pos - line.length) + 1

/-- Subtraction of `usize`, that fails where it would underflow. -/
def checkedSub (a b : Nat) : Option Nat := if b ≤ a then some (a - b) else none

/-! The rope. Where it would panic there is no result. -/

namespace Breaks

def lineEndingCount (B : Breaks) (text : List Char) : Nat := (B.lines text).length - 1

def charIndexToLineIndex (B : Breaks) (text : List Char) (pos : Nat) : Option Nat :=
  if pos ≤ text.length then some (lineAt (B.lines text) pos) else none

def lineIndexToCharIndex (B : Breaks) (text : List Char) (line : Nat) : Option Nat :=
  if line ≤ B.lineEndingCount text then some (start (B.lines text) line) else none

/-- `line_iter().nth(line).unwrap().char_count()` -/
def lineSize (B : Breaks) (text : List Char) (line : Nat) : Option Nat :=
  (B.lines text)[line]?.map List.length

end Breaks

def insertText (text s : List Char) (pos : Nat) : Option (List Char) :=
  if pos ≤ text.length then some (text.take pos ++ s ++ text.drop pos) else none

def removeText (text : List Char) (first stop : Nat) : Option (List Char) :=
  if first ≤ stop ∧ stop ≤ text.length then some (text.take first ++ text.drop stop) else none

inductive Movement where
  | up | down | left | right | lineStart | lineEnd
  | pageUp (up : Nat)
  | pageDown (down : Nat)
  deriving DecidableEq, Repr

/-- The name of its file is kept beside it. -/
structure Text where
  pos : Nat
  text : List Char
  deriving DecidableEq, Repr

namespace Text

def empty : Text := ⟨0, ['\n']⟩

/-- `content` is what is read from the file, if it exists. -/
def openFile : Option (List Char) → Text
  | some buf => ⟨0, if buf = [] then ['\n'] else buf⟩
  | none => empty

section Rope

variable (B : Breaks)

def line (t : Text) : Option Nat := B.charIndexToLineIndex t.text t.pos

def lineCount (t : Text) : Nat := B.lineEndingCount t.text

def len (t : Text) : Nat := t.text.length

def col (t : Text) : Option Nat := do
  let line ← t.line B
  let first ← B.lineIndexToCharIndex t.text line
  checkedSub t.pos first

def step (t : Text) : Movement → Option Text
  | .up => do
    let line ← t.line B
    if line > 0 then
      let prev_line ← B.lineIndexToCharIndex t.text (line - 1)
      let prev_line_size ← B.lineSize t.text (line - 1)
      let col ← t.col B
      let last ← checkedSub prev_line_size 1
      some { t with pos := prev_line + min col last }
    else some t
  | .down => do
    let line ← t.line B
    let last_line ← checkedSub (t.lineCount B) 1
    if line < last_line then
      let next_line ← B.lineIndexToCharIndex t.text (line + 1)
      let next_line_size ← B.lineSize t.text (line + 1)
      let col ← t.col B
      let last ← checkedSub next_line_size 1
      some { t with pos := next_line + min col last }
    else some t
  | .pageUp up => do
    let line ← t.line B
    let target_line := if line < up then 0 else line - up
    let pos ← B.lineIndexToCharIndex t.text target_line
    some { t with pos }
  | .pageDown down => do
    let line ← t.line B
    let below ← checkedSub (t.lineCount B) line
    let target_line ← if below < down then checkedSub (t.lineCount B) 1 else some (line + down)
    let pos ← B.lineIndexToCharIndex t.text target_line
    some { t with pos }
  | .left => some (if t.pos > 0 then { t with pos := t.pos - 1 } else t)
  | .right => do
    let last ← checkedSub t.len 1
    some (if t.pos < last then { t with pos := t.pos + 1 } else t)
  | .lineStart => do
    let line ← t.line B
    let curr_line ← B.lineIndexToCharIndex t.text line
    some { t with pos := curr_line }
  | .lineEnd => do
    let line ← t.line B
    let curr_line ← B.lineIndexToCharIndex t.text line
    let curr_line_size ← B.lineSize t.text line
    let pos ← checkedSub (curr_line + curr_line_size) 1
    some { t with pos }

def moveAt (t : Text) (line col : Nat) : Option Text := do
  let last_line ← checkedSub (t.lineCount B) 1
  let line := min line last_line
  let size ← B.lineSize t.text line
  let last ← checkedSub size 1
  let first ← B.lineIndexToCharIndex t.text line
  some { t with pos := first + min col last }

end Rope

def insert (t : Text) (c : Char) : Option Text := do
  let text ← insertText t.text [c] t.pos
  some { t with text, pos := t.pos + 1 }

def insertForward (t : Text) (c : Char) : Option Text := do
  let text ← insertText t.text [c] t.pos
  some { t with text }

def delete (t : Text) : Option (Text × Option Char) :=
  if t.pos = 0 then some (t, none)
  else do
    let pos := t.pos - 1
    let ch ← t.text[pos]?
    let text ← removeText t.text pos (pos + 1)
    some ({ t with pos, text }, some ch)

def deleteForward (t : Text) : Option (Text × Option Char) := do
  let last ← checkedSub t.len 1
  if t.pos < last then
    let ch ← t.text[t.pos]?
    let text ← removeText t.text t.pos (t.pos + 1)
    some ({ t with text }, some ch)
  else some (t, none)

def moveTo (t : Text) (pos : Nat) : Option Text := if pos < t.len then some { t with pos } else none

end Text

/-- The calls that change a text or move its cursor. -/
inductive Edit where
  | step (mov : Movement)
  | moveTo (pos : Nat)
  | moveAt (line col : Nat)
  | insert (c : Char)
  | insertForward (c : Char)
  | delete
  | deleteForward
  deriving DecidableEq, Repr

def Text.edit (B : Breaks) (t : Text) : Edit → Option Text
  | .step mov => t.step B mov
  | .moveTo pos => t.moveTo pos
  | .moveAt line col => t.moveAt B line col
  | .insert c => t.insert c
  | .insertForward c => t.insertForward c
  | .delete => t.delete.map Prod.fst
  | .deleteForward => t.deleteForward.map Prod.fst

section Lines

variable {lines : List (List Char)} {l : List Char} {i pos : Nat}

theorem start_cons_succ : start (l :: lines) (i + 1) = l.length + start lines i := by
  rw [start, List.take_succ_cons, List.flatten_cons, List.length_append]
  rfl

/-- A line ends where the next one starts. -/
theorem start_succ (h : lines[i]? = some l) : start lines (i + 1) = start lines i + l.length := by
  induction lines generalizing i with
  | nil => cases h
  | cons first lines ih =>
    cases i with
    | zero =>
      cases h
      rw [start_cons_succ]
      exact Nat.add_comm ..
    | succ i =>
      rw [List.getElem?_cons_succ] at h
      rw [start_cons_succ, ih h, start_cons_succ, Nat.add_assoc]

theorem start_le (lines : List (List Char)) (i : Nat) :
    start lines i ≤ lines.flatten.length := by
  induction lines generalizing i with
  | nil =>
    rw [start, List.take_nil]
  | cons first lines ih =>
    cases i with
    | zero => exact Nat.zero_le _
    | succ i =>
      rw [start_cons_succ, List.flatten_cons, List.length_append]
      exact Nat.add_le_add_left (ih i) _

/-- A character is in its line. -/
theorem lineAt_spec (h : pos < lines.flatten.length) :
    ∃ l, lines[lineAt lines pos]? = some l ∧ start lines (lineAt lines pos) ≤ pos ∧
      pos < start lines (lineAt lines pos) + l.length := by
  induction lines, pos using lineAt.induct with
  | case1 => exact absurd h (Nat.not_lt_zero _)
  | case2 line pos =>
    rw [List.flatten_cons, List.flatten_nil, List.append_nil] at h
    exact ⟨line, rfl, Nat.zero_le _, by rwa [lineAt, start, List.take_zero, List.flatten_nil,
      List.length_nil, Nat.zero_add]⟩
  | case3 line next lines pos hin =>
    rw [lineAt, if_pos hin]
    refine ⟨line, rfl, Nat.zero_le _, ?_⟩
    exact hin.trans_le (Nat.le_add_left ..)
  | case4 line next lines pos hout ih =>
    rw [List.flatten_cons, List.length_append] at h
    obtain ⟨l, hl, hle, hlt⟩ := ih (by omega)
    rw [lineAt, if_neg hout]
    refine ⟨l, hl, ?_, ?_⟩
    · rw [start_cons_succ]
      omega
    · rw [start_cons_succ]
      omega

end Lines

/-- The cursor is on a character. -/
def Text.Good (t : Text) : Prop := t.pos < t.text.length

/-- The text ends with a line ending. -/
def Breaks.Closed (B : Breaks) (text : List Char) : Prop :=
  start (B.lines text) (B.lineEndingCount text) = text.length

section Steps

variable {B : Breaks} {t t' : Text} {L i k : Nat} {l : List Char} {c : Char}

theorem checkedSub_of_le {a b : Nat} (h : b ≤ a) : checkedSub a b = some (a - b) := if_pos h

theorem checkedSub_of_lt {a b : Nat} (h : a < b) : checkedSub a b = none := if_neg (by omega)

theorem lineIndex_of_le (h : i ≤ t.lineCount B) :
    B.lineIndexToCharIndex t.text i = some (start (B.lines t.text) i) := if_pos h

theorem length_lines (B : Breaks) (text : List Char) :
    (B.lines text).length = B.lineEndingCount text + 1 :=
  (Nat.sub_add_cancel (List.length_pos_of_ne_nil (B.lines_ne_nil text))).symm

/-- The lines in front of the last one are not empty. -/
theorem full_line (h : i < t.lineCount B) :
    ∃ l, (B.lines t.text)[i]? = some l ∧ B.lineSize t.text i = some l.length ∧ 1 ≤ l.length := by
  have hlen := length_lines B t.text
  have hlt : i < (B.lines t.text).length := by
    unfold Text.lineCount at h
    omega
  have hmem : (B.lines t.text)[i] ∈ (B.lines t.text).dropLast := by
    rw [← List.getElem_dropLast (by rw [List.length_dropLast]; exact h)]
    exact List.getElem_mem _
  have hline := List.getElem?_eq_getElem hlt
  refine ⟨_, hline, ?_, List.length_pos_of_ne_nil (B.ne_nil_of_mem _ _ hmem)⟩
  unfold Breaks.lineSize
  rw [hline]
  rfl

/-- The characters of a line are characters of the text. -/
theorem lt_length (hl : (B.lines t.text)[i]? = some l) (hk : k < l.length) :
    start (B.lines t.text) i + k < t.text.length := by
  have hstart := start_le (B.lines t.text) (i + 1)
  rw [start_succ hl, B.flatten_lines] at hstart
  omega

/-- The line `L` that the cursor is in. -/
structure Text.At (B : Breaks) (t : Text) (L : Nat) (l : List Char) : Prop where
  line : t.line B = some L
  mem : (B.lines t.text)[L]? = some l
  start_le : start (B.lines t.text) L ≤ t.pos
  lt_end : t.pos < start (B.lines t.text) L + l.length

theorem at_of_good (h : t.Good) : ∃ L l, t.At B L l := by
  have hpos : t.pos < (B.lines t.text).flatten.length := by
    rw [B.flatten_lines]
    exact h
  obtain ⟨l, hl, hle, hlt⟩ := lineAt_spec hpos
  exact ⟨_, l, if_pos (Nat.le_of_lt h), hl, hle, hlt⟩

theorem Text.At.le_count (h : t.At B L l) : L ≤ t.lineCount B := by
  obtain ⟨hlt, -⟩ := List.getElem?_eq_some_iff.mp h.mem
  rw [length_lines] at hlt
  exact Nat.le_of_lt_succ hlt

theorem Text.At.first (h : t.At B L l) :
    B.lineIndexToCharIndex t.text L = some (start (B.lines t.text) L) := lineIndex_of_le h.le_count

theorem Text.At.col (h : t.At B L l) : t.col B = some (t.pos - start (B.lines t.text) L) := by
  show (t.line B).bind (fun line => (B.lineIndexToCharIndex t.text line).bind fun first =>
    checkedSub t.pos first) = _
  rw [h.line, Option.bind_some, h.first, Option.bind_some]
  exact checkedSub_of_le h.start_le

theorem Text.At.size (h : t.At B L l) : B.lineSize t.text L = some l.length := by
  unfold Breaks.lineSize
  rw [h.mem]
  rfl

/-- In a text that does not end with a line ending the last line is not empty. -/
theorem start_count_lt : start (B.lines t.text) (t.lineCount B) < t.text.length ↔
    ¬ B.Closed t.text := by
  have hle := start_le (B.lines t.text) (t.lineCount B)
  rw [B.flatten_lines] at hle
  exact ⟨fun hlt heq => Nat.ne_of_lt hlt heq, fun hne => Nat.lt_of_le_of_ne hle hne⟩

/-- A call that succeeds and leaves the cursor on a character. -/
def Lands (result : Option Text) : Prop := ∃ t', result = some t' ∧ t'.Good

theorem lands_some : Lands (some t') ↔ t'.Good :=
  ⟨fun ⟨_, heq, h⟩ => Option.some.inj heq ▸ h, fun h => ⟨t', rfl, h⟩⟩

instance : DecidablePred Lands
  | some t => decidable_of_iff (t.pos < t.text.length) lands_some.symm
  | none => .isFalse fun ⟨_, h, _⟩ => nomatch h

theorem not_lands_none : ¬ Lands none := fun ⟨_, h, _⟩ => nomatch h

theorem up_lands (h : t.Good) : Lands (t.step B .up) := by
  obtain ⟨L, l, hat⟩ := at_of_good (B := B) h
  simp only [Text.step, hat.line, hat.col, Option.bind_eq_bind, Option.bind_some]
  split
  · have hcount := hat.le_count
    obtain ⟨prev, hprev, hsize, hpos⟩ := full_line (B := B) (t := t) (i := L - 1) (by omega)
    simp only [lineIndex_of_le (B := B) (t := t) (i := L - 1) (by omega), hsize,
      checkedSub_of_le hpos, Option.bind_some]
    exact lands_some.mpr (lt_length hprev (by omega))
  · exact lands_some.mpr h

theorem down_lands (h : t.Good) : Lands (t.step B .down) ↔ 1 ≤ t.lineCount B := by
  obtain ⟨L, l, hat⟩ := at_of_good (B := B) h
  simp only [Text.step, hat.line, hat.col, Option.bind_eq_bind, Option.bind_some]
  by_cases hcount : 1 ≤ t.lineCount B
  · simp only [checkedSub_of_le hcount, Option.bind_some, hcount, iff_true]
    split
    · obtain ⟨next, hnext, hsize, hpos⟩ := full_line (B := B) (t := t) (i := L + 1) (by omega)
      simp only [lineIndex_of_le (B := B) (t := t) (i := L + 1) (by omega), hsize,
        checkedSub_of_le hpos, Option.bind_some]
      exact lands_some.mpr (lt_length hnext (by omega))
    · exact lands_some.mpr h
  · rw [checkedSub_of_lt (by omega)]
    exact iff_of_false not_lands_none hcount

theorem pageUp_lands (h : t.Good) (up : Nat) : Lands (t.step B (.pageUp up)) := by
  obtain ⟨L, l, hat⟩ := at_of_good (B := B) h
  have hcount := hat.le_count
  have htarget : (if L < up then 0 else L - up) ≤ L := by split <;> omega
  simp only [Text.step, hat.line, Option.bind_eq_bind, Option.bind_some,
    lineIndex_of_le (htarget.trans hcount)]
  apply lands_some.mpr
  show start _ _ < t.text.length
  generalize (if L < up then 0 else L - up) = i at htarget
  obtain rfl | hlt := Nat.eq_or_lt_of_le htarget
  · exact hat.start_le.trans_lt h
  · obtain ⟨l', hl', -, hpos⟩ := full_line (B := B) (t := t) (i := i) (by omega)
    exact lt_length hl' hpos

/-- The page ends behind the text if it is as long as the rest of the lines. -/
theorem pageDown_lands (hat : t.At B L l) (down : Nat) :
    Lands (t.step B (.pageDown down)) ↔
      (t.lineCount B - L < down → 1 ≤ t.lineCount B) ∧
        (L + down = t.lineCount B → ¬ B.Closed t.text) := by
  have hcount := hat.le_count
  simp only [Text.step, hat.line, Option.bind_eq_bind, Option.bind_some, checkedSub_of_le hcount]
  by_cases hfar : t.lineCount B - L < down
  · rw [if_pos hfar]
    by_cases hone : 1 ≤ t.lineCount B
    · obtain ⟨l', hl', -, hpos⟩ := full_line (B := B) (t := t) (i := t.lineCount B - 1) (by omega)
      simp only [checkedSub_of_le hone, Option.bind_some,
        lineIndex_of_le (B := B) (t := t) (i := t.lineCount B - 1) (by omega)]
      exact iff_of_true (lands_some.mpr (lt_length hl' hpos)) ⟨fun _ => hone, by omega⟩
    · rw [checkedSub_of_lt (by omega)]
      exact iff_of_false not_lands_none fun hc => hone (hc.1 hfar)
  · have htarget : L + down ≤ t.lineCount B := by omega
    simp only [if_neg hfar, Option.bind_some, lineIndex_of_le htarget]
    rw [lands_some]
    show start _ _ < t.text.length ↔ _
    obtain heq | hlt := Nat.eq_or_lt_of_le htarget
    · rw [heq, start_count_lt]
      exact ⟨fun hopen => ⟨fun hlt => absurd hlt hfar, fun _ => hopen⟩, fun hc => hc.2 rfl⟩
    · obtain ⟨l', hl', -, hpos⟩ := full_line (B := B) (t := t) hlt
      exact iff_of_true (lt_length hl' hpos)
        ⟨fun hlt' => absurd hlt' hfar, fun heq => absurd heq (Nat.ne_of_lt hlt)⟩

theorem left_lands (h : t.Good) : Lands (t.step B .left) := by
  have hpos : t.pos < t.text.length := h
  apply lands_some.mpr
  split
  · exact (Nat.sub_le t.pos 1).trans_lt hpos
  · exact h

theorem right_lands (h : t.Good) : Lands (t.step B .right) := by
  have hpos : t.pos < t.text.length := h
  have hlen : 1 ≤ t.len := Nat.one_le_of_lt hpos
  simp only [Text.step, checkedSub_of_le hlen, Option.bind_eq_bind, Option.bind_some]
  apply lands_some.mpr
  split
  · rename_i hlt
    exact Nat.add_lt_of_lt_sub hlt
  · exact h

theorem lineStart_lands (h : t.Good) : Lands (t.step B .lineStart) := by
  obtain ⟨L, l, hat⟩ := at_of_good (B := B) h
  simp only [Text.step, hat.line, hat.first, Option.bind_eq_bind, Option.bind_some]
  exact lands_some.mpr (hat.start_le.trans_lt h)

theorem lineEnd_lands (h : t.Good) : Lands (t.step B .lineEnd) := by
  obtain ⟨L, l, hat⟩ := at_of_good (B := B) h
  have hle := hat.start_le
  have hlt := hat.lt_end
  have hone : 1 ≤ start (B.lines t.text) L + l.length := by omega
  simp only [Text.step, hat.line, hat.first, hat.size, checkedSub_of_le hone, Option.bind_eq_bind,
    Option.bind_some]
  apply lands_some.mpr
  show start (B.lines t.text) L + l.length - 1 < t.text.length
  rw [Nat.add_sub_assoc (by omega)]
  exact lt_length hat.mem (by omega)

theorem moveAt_lands (line col : Nat) : Lands (t.moveAt B line col) ↔ 1 ≤ t.lineCount B := by
  unfold Text.moveAt
  by_cases hcount : 1 ≤ t.lineCount B
  · have hin : min line (t.lineCount B - 1) < t.lineCount B := by omega
    obtain ⟨l, hl, hsize, hpos⟩ := full_line hin
    simp only [checkedSub_of_le hcount, hsize, checkedSub_of_le hpos, lineIndex_of_le hin.le,
      Option.bind_eq_bind, Option.bind_some]
    exact iff_of_true (lands_some.mpr (lt_length hl (by omega))) hcount
  · rw [checkedSub_of_lt (by omega)]
    exact iff_of_false not_lands_none hcount

theorem insert_eq (h : t.Good) :
    t.insert c = some ⟨t.pos + 1, t.text.take t.pos ++ [c] ++ t.text.drop t.pos⟩ := by
  unfold Text.insert insertText
  rw [if_pos (Nat.le_of_lt h)]
  rfl

theorem insertForward_eq (h : t.Good) :
    t.insertForward c = some ⟨t.pos, t.text.take t.pos ++ [c] ++ t.text.drop t.pos⟩ := by
  unfold Text.insertForward insertText
  rw [if_pos (Nat.le_of_lt h)]
  rfl

theorem length_inserted (h : t.Good) :
    (t.text.take t.pos ++ [c] ++ t.text.drop t.pos).length = t.text.length + 1 := by
  have hpos : t.pos < t.text.length := h
  rw [List.length_append, List.length_append, List.length_take, List.length_drop]
  simp only [List.length_singleton]
  omega

theorem length_removed {text : List Char} {pos : Nat} (h : pos < text.length) :
    (text.take pos ++ text.drop (pos + 1)).length = text.length - 1 := by
  rw [List.length_append, List.length_take, List.length_drop]
  omega

theorem delete_eq (h : t.Good) (hpos : t.pos ≠ 0) :
    ∃ ch, t.text[t.pos - 1]? = some ch ∧ t.delete =
      some (⟨t.pos - 1, t.text.take (t.pos - 1) ++ t.text.drop (t.pos - 1 + 1)⟩, some ch) := by
  have hlt : t.pos < t.text.length := h
  have hch := List.getElem?_eq_getElem (l := t.text) (i := t.pos - 1) (by omega)
  refine ⟨_, hch, ?_⟩
  unfold Text.delete removeText
  simp only [if_neg hpos, hch, Option.bind_eq_bind, Option.bind_some]
  rw [if_pos (by omega)]
  rfl

theorem deleteForward_eq (h : t.pos + 1 < t.text.length) :
    ∃ ch, t.text[t.pos]? = some ch ∧ t.deleteForward =
      some (⟨t.pos, t.text.take t.pos ++ t.text.drop (t.pos + 1)⟩, some ch) := by
  have hch := List.getElem?_eq_getElem (l := t.text) (i := t.pos) (by omega)
  have hlen : 1 ≤ t.len := by unfold Text.len; omega
  refine ⟨_, hch, ?_⟩
  unfold Text.deleteForward removeText
  simp only [checkedSub_of_le hlen, Option.bind_eq_bind, Option.bind_some]
  rw [if_pos (by unfold Text.len; omega), hch]
  simp only [Option.bind_some]
  rw [if_pos (by omega)]
  rfl

/-- The last character is not deleted. -/
theorem deleteForward_last (h : t.Good) (hlast : ¬ t.pos + 1 < t.text.length) :
    t.deleteForward = some (t, none) := by
  have hlt : t.pos < t.text.length := h
  have hlen : 1 ≤ t.len := Nat.one_le_of_lt hlt
  unfold Text.deleteForward
  simp only [checkedSub_of_le hlen, Option.bind_eq_bind, Option.bind_some]
  rw [if_neg (by unfold Text.len; omega)]

theorem delete_first (hpos : t.pos = 0) : t.delete = some (t, none) := if_pos hpos

theorem delete_lands (h : t.Good) : Lands (t.delete.map Prod.fst) := by
  by_cases hpos : t.pos = 0
  · rw [delete_first hpos]
    exact lands_some.mpr h
  · obtain ⟨ch, -, heq⟩ := delete_eq h hpos
    have hlt : t.pos < t.text.length := h
    rw [heq]
    apply lands_some.mpr
    show t.pos - 1 < (t.text.take (t.pos - 1) ++ t.text.drop (t.pos - 1 + 1)).length
    rw [length_removed (by omega)]
    omega

theorem deleteForward_lands (h : t.Good) : Lands (t.deleteForward.map Prod.fst) := by
  by_cases hlast : t.pos + 1 < t.text.length
  · obtain ⟨ch, -, heq⟩ := deleteForward_eq hlast
    rw [heq]
    apply lands_some.mpr
    show t.pos < (t.text.take t.pos ++ t.text.drop (t.pos + 1)).length
    rw [length_removed h]
    omega
  · rw [deleteForward_last h hlast]
    exact lands_some.mpr h

end Steps

/-- The condition on a call: there is a line ending where the lines are counted, and a page down does
not go just behind the last line. -/
def Text.Allows (B : Breaks) (t : Text) : Edit → Prop
  | .step .down => 1 ≤ t.lineCount B
  | .step (.pageDown down) =>
    (t.lineCount B - (t.line B).getD 0 < down → 1 ≤ t.lineCount B) ∧
      ((t.line B).getD 0 + down = t.lineCount B → ¬ B.Closed t.text)
  | .moveTo pos => pos < t.len
  | .moveAt _ _ => 1 ≤ t.lineCount B
  | _ => True

theorem edit_lands {B : Breaks} {t : Text} (h : t.Good) (e : Edit) :
    Lands (t.edit B e) ↔ t.Allows B e := by
  cases e with
  | step mov =>
    cases mov with
    | up => exact iff_of_true (up_lands h) trivial
    | down => exact down_lands h
    | left => exact iff_of_true (left_lands (B := B) h) trivial
    | right => exact iff_of_true (right_lands (B := B) h) trivial
    | lineStart => exact iff_of_true (lineStart_lands h) trivial
    | lineEnd => exact iff_of_true (lineEnd_lands h) trivial
    | pageUp up => exact iff_of_true (pageUp_lands h up) trivial
    | pageDown down =>
      obtain ⟨L, l, hat⟩ := at_of_good (B := B) h
      show _ ↔ (_ - (t.line B).getD 0 < _ → _) ∧ ((t.line B).getD 0 + _ = _ → _)
      rw [hat.line]
      exact pageDown_lands hat down
  | moveTo pos =>
    show Lands (if pos < t.len then _ else _) ↔ pos < t.len
    by_cases hpos : pos < t.len
    · rw [if_pos hpos]
      exact iff_of_true (lands_some.mpr hpos) hpos
    · rw [if_neg hpos]
      exact iff_of_false not_lands_none hpos
  | moveAt line col => exact moveAt_lands line col
  | insert c =>
    refine iff_of_true ?_ trivial
    show Lands (t.insert c)
    rw [insert_eq h, lands_some]
    show t.pos + 1 < (t.text.take t.pos ++ [c] ++ t.text.drop t.pos).length
    rw [length_inserted h]
    exact Nat.succ_lt_succ h
  | insertForward c =>
    refine iff_of_true ?_ trivial
    show Lands (t.insertForward c)
    rw [insertForward_eq h, lands_some]
    show t.pos < (t.text.take t.pos ++ [c] ++ t.text.drop t.pos).length
    rw [length_inserted h]
    exact Nat.lt_succ_of_lt h
  | delete => exact iff_of_true (delete_lands h) trivial
  | deleteForward => exact iff_of_true (deleteForward_lands h) trivial

/-- A run of calls. After a call that panics there is no text. -/
def Text.next (B : Breaks) (t : Option Text) (e : Edit) : Option Text := t.bind (·.edit B e)

/-- In every run the text is not empty, the cursor is on a character and no call panics, just if each
call is allowed. -/
theorem cursor_on_character (B : Breaks) (content : Option (List Char))
    (edits : List Edit) :
    Throughout (Text.next B) Lands (some (Text.openFile content)) edits ↔
      Each (Text.next B) (fun t e => ∀ t', t = some t' → t'.Allows B e)
        (some (Text.openFile content)) edits := by
  have hopen : (Text.openFile content).Good := by
    unfold Text.Good Text.openFile
    cases content with
    | none => exact Nat.zero_lt_one
    | some buf =>
      dsimp only
      split
      · exact Nat.zero_lt_one
      · exact List.length_pos_of_ne_nil ‹_›
  apply throughout_iff_each
  · rintro _ e ⟨t, rfl, ht⟩ hc
    exact (edit_lands ht e).mpr (hc t rfl)
  · rintro _ e ⟨t, rfl, ht⟩ hc hnext
    apply hc
    intro t' ht'
    cases ht'
    exact (edit_lands ht e).mp hnext
  · exact lands_some.mpr hopen

/-- The lines of a text whose only line ending is `'\n'`. -/
def newlineLines : List Char → List (List Char)
  | [] => [[]]
  | c :: cs =>
    if c = '\n' then [c] :: newlineLines cs
    else
      match newlineLines cs with
      | [] => [[c]]
      | line :: lines => (c :: line) :: lines

theorem newlineLines_ne_nil (text : List Char) : newlineLines text ≠ [] := by
  cases text with
  | nil => exact List.cons_ne_nil _ _
  | cons c cs =>
    unfold newlineLines
    split
    · exact List.cons_ne_nil _ _
    · split
      · exact List.cons_ne_nil _ _
      · exact List.cons_ne_nil _ _

theorem flatten_newlineLines (text : List Char) : (newlineLines text).flatten = text := by
  induction text with
  | nil => rfl
  | cons c cs ih =>
    unfold newlineLines
    split
    · rw [List.flatten_cons, ih]
      rfl
    · split
      · exact absurd ‹_› (newlineLines_ne_nil cs)
      · rename_i line lines hlines
        rw [hlines] at ih
        rw [List.flatten_cons, List.cons_append, ← List.flatten_cons, ih]

theorem newlineLines_full (text : List Char) : ∀ line ∈ (newlineLines text).dropLast, line ≠ [] := by
  induction text with
  | nil => exact fun line hline => absurd hline List.not_mem_nil
  | cons c cs ih =>
    unfold newlineLines
    split
    · rw [List.dropLast_cons_of_ne_nil (newlineLines_ne_nil cs)]
      intro line hline
      obtain rfl | hmem := List.mem_cons.mp hline
      · exact List.cons_ne_nil _ _
      · exact ih line hmem
    · split
      · exact fun line hline => absurd hline List.not_mem_nil
      · rename_i first lines hlines
        rw [hlines] at ih
        intro line hline
        cases lines with
        | nil => exact absurd hline List.not_mem_nil
        | cons next lines =>
          obtain rfl | hmem := List.mem_cons.mp hline
          · exact List.cons_ne_nil _ _
          · exact ih line (List.mem_cons_of_mem _ hmem)

def Breaks.newline : Breaks where
  lines := newlineLines
  flatten_lines := flatten_newlineLines
  lines_ne_nil := newlineLines_ne_nil
  ne_nil_of_mem := newlineLines_full

/-- A file without a line ending has no line to go down from, and a page that is as long as the text
ends behind it. -/
theorem no_line_below :
    ¬ Throughout (Text.next .newline) Lands (some (Text.openFile (some ['b']))) [.step .down] ∧
    ¬ Throughout (Text.next .newline) Lands (some (Text.openFile (some ['\n'])))
      [.step (.pageDown 1)] :=
  ⟨fun h => absurd h.last (by decide), fun h => absurd h.last (by decide)⟩

end Origel.Smith
