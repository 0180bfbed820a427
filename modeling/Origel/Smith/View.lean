import Origel.Smith.Record

/-! The view of the editor onto its text, and the commands. -/
namespace Origel.Smith

open Origel.Lib

/-- Addition of `u16`, that fails where it would overflow. -/
def checkedAdd16 (a b : Nat) : Option Nat := if a + b < 65536 then some (a + b) else none

/-- `as u16` -/
def asU16 (n : Nat) : Nat := n % 65536

structure View where
  message : Option (List Char)
  isPrompt : Bool
  lineOffset : Nat
  deriving DecidableEq, Repr

/-- `rows` is the height of the terminal. -/
def linesHeight (rows : Nat) : Nat := max rows 2 - 2

def lineNumberWidth (lineCount : Nat) : Nat := asU16 (Nat.toDigits 10 lineCount).length

def TAB_LENGTH : Nat := 4

def SCROLL_FACTOR : Nat := 2

/-- How many characters end in front of the column that was clicked on. -/
def clickedCol (visual_col : Nat) : Nat → List Char → Nat
  | _, [] => 0
  | state, x :: xs =>
    let state := state + if x = '\t' then TAB_LENGTH else 1
    if state ≤ visual_col then clickedCol visual_col state xs + 1 else 0

namespace View

def new : View := ⟨none, false, 0⟩

def setMessage (v : View) (message : List Char) : View :=
  { v with isPrompt := false, message := some message }

def prompt (v : View) (prompt message : List Char) : View :=
  { v with isPrompt := true, message := some (prompt ++ message) }

def quiet (v : View) : View := { v with isPrompt := false, message := none }

def centerView (rows : Nat) (v : View) (line : Nat) : View :=
  { v with lineOffset := asU16 (line - linesHeight rows / 2) }

def adjustView (rows : Nat) (v : View) (line : Nat) : Option View :=
  let line := asU16 line
  if line < v.lineOffset then some { v with lineOffset := line }
  else do
    let next ← checkedAdd16 line 1
    let stop ← checkedAdd16 v.lineOffset (linesHeight rows)
    if next ≥ stop then
      let lineOffset ← checkedSub next (linesHeight rows)
      some { v with lineOffset }
    else some v

def scrollView (v : View) (offset : Int) (lineCount : Nat) : View :=
  { v with lineOffset := (min (max (v.lineOffset + offset) 0) (lineCount - 1 : Int) % 65536).toNat }

/-- The line and column of a click. A row above the first one is cast to a line beyond the last. -/
def translateCoordinates (B : Breaks) (v : View) (t : Text) (x y : Nat) : Option (Nat × Nat) := do
  let last_line ← checkedSub (t.lineCount B) 1
  let row : Int := y + v.lineOffset - 1
  let line := if 0 ≤ row then min row.toNat last_line else last_line
  let visual_col := (x - lineNumberWidth (t.lineCount B) - 2 : Int).toNat
  let chars ← (B.lines t.text)[line]?
  some (line, clickedCol visual_col 0 chars)

/-- The lines that are painted, with their numbers. What is cut off at the right is not left out. -/
def paintLines (B : Breaks) (rows : Nat) (v : View) (t : Text) : Option (List (Nat × List Char)) := do
  let _ ← B.lineIndexToCharIndex t.text v.lineOffset
  let below ← checkedSub (t.lineCount B) v.lineOffset
  (List.range (min (linesHeight rows) below)).mapM fun y => do
    let chars ← (B.lines t.text)[y + v.lineOffset]?
    some (1 + (y + v.lineOffset), chars.takeWhile (· ≠ '\n'))

end View

/-- The events of the terminal that the editor looks at. -/
inductive Event where
  | ctrl (c : Char)
  | char (c : Char)
  | esc | up | down | left | right | pageUp | pageDown | home | «end» | backspace | delete
  | press (x y : Nat)
  | wheelDown | wheelUp
  | hold (x y : Nat)
  | release (x y : Nat)
  | other
  deriving DecidableEq, Repr

/-- What comes in: an event, what the clipboard holds, and the error that saving ends with, if any. -/
structure Input where
  event : Event
  clipboard : List Char
  saveError : Option (List Char)
  deriving DecidableEq, Repr

inductive State where
  | insert
  | message
  | prompt (prompt message : List Char)
  | exit
  | select (origin : Nat)
  | selected
  deriving DecidableEq, Repr

/-- The text with its history, selection and name, the view of it, and the state of the commands. -/
structure Editor where
  recorded : Recorded
  sel : Option (Nat × Nat)
  name : List Char
  view : View
  state : State
  deriving DecidableEq, Repr

namespace Editor

variable (B : Breaks) (rows : Nat)

def new (content : Text) (name : List Char) : Editor := ⟨.new content, none, name, .new, .insert⟩

def content (ed : Editor) : Text := ed.recorded.content

/-- The commands that end with `view.adjust_view(content.line())`. -/
def adjusted (ed : Editor) (recorded : Option Recorded) : Option Editor := do
  let recorded ← recorded
  let line ← recorded.content.line B
  let view ← ed.view.adjustView rows line
  some { ed with recorded, view }

/-- Those that end with `view.center_view(content.line())`. -/
def centered (ed : Editor) (recorded : Option Recorded) : Option Editor := do
  let recorded ← recorded
  let line ← recorded.content.line B
  some { ed with recorded, view := ed.view.centerView rows line }

def changed (ed : Editor) (recorded : Option Recorded) : Option Editor := do
  let recorded ← recorded
  some { ed with recorded }

/-- `move_at` where the mouse is. -/
def movedAt (ed : Editor) (x y : Nat) : Option Editor := do
  let (line, col) ← ed.view.translateCoordinates B ed.content x y
  ed.changed (ed.recorded.edit B (.moveAt line col))

/-- Every character of the clipboard is inserted. -/
def paste (ed : Editor) (clipboard : List Char) : Option Recorded :=
  clipboard.foldlM (fun r c => r.edit B (.insert c)) ed.recorded

def treatInsertEvent (ed : Editor) (clipboard : List Char) : Event → Option Editor
  | .ctrl 'q' | .esc => some { ed with state := .exit }
  | .ctrl 's' =>
    let prompt := "Save to: ".toList
    some { ed with view := ed.view.prompt prompt ed.name, state := .prompt prompt ed.name }
  | .press x y => do
    let ed ← ed.movedAt B x y
    some { ed with state := .select ed.content.pos }
  | .wheelDown =>
    some { ed with view := ed.view.scrollView SCROLL_FACTOR (ed.content.lineCount B) }
  | .wheelUp =>
    some { ed with view := ed.view.scrollView (-SCROLL_FACTOR) (ed.content.lineCount B) }
  | .ctrl 'z' => ed.changed ed.recorded.undo
  | .ctrl 'y' => ed.changed ed.recorded.redo
  | .ctrl 'v' => ed.changed (ed.paste B clipboard)
  | .up => ed.adjusted B rows (ed.recorded.edit B (.step .up))
  | .down => ed.adjusted B rows (ed.recorded.edit B (.step .down))
  | .left => ed.adjusted B rows (ed.recorded.edit B (.step .left))
  | .right => ed.adjusted B rows (ed.recorded.edit B (.step .right))
  | .pageUp => ed.centered B rows (ed.recorded.edit B (.step (.pageUp (linesHeight rows))))
  | .pageDown => ed.centered B rows (ed.recorded.edit B (.step (.pageDown (linesHeight rows))))
  | .home => ed.changed (ed.recorded.edit B (.step .lineStart))
  | .end => ed.changed (ed.recorded.edit B (.step .lineEnd))
  | .backspace => ed.adjusted B rows (ed.recorded.edit B .delete)
  | .delete => ed.adjusted B rows (ed.recorded.edit B .deleteForward)
  | .char c => ed.adjusted B rows (ed.recorded.edit B (.insert c))
  | _ => some ed

def treatMessageEvent (ed : Editor) (clipboard : List Char) (event : Event) : Option Editor :=
  treatInsertEvent B rows { ed with view := ed.view.quiet, state := .insert } clipboard event

def treatPromptEvent (ed : Editor) (prompt message : List Char) (saveError : Option (List Char)) :
    Event → Option Editor
  | .char c =>
    if c = '\n' then
      match saveError with
      | some msg => some { ed with view := ed.view.setMessage msg, state := .message }
      | none =>
        some { ed with
          name := message
          view := ed.view.setMessage ("Saved file ".toList ++ message)
          state := .message }
    else
      let message := message ++ [c]
      some { ed with view := ed.view.prompt prompt message, state := .prompt prompt message }
  | .backspace | .delete =>
    let message := message.dropLast
    some { ed with view := ed.view.prompt prompt message, state := .prompt prompt message }
  | .ctrl c => if c = 'q' then some { ed with state := .exit } else some ed
  | .esc => some { ed with view := ed.view.quiet, state := .insert }
  | _ => some ed

def deleteSel (ed : Editor) : Option Recorded := do
  let (beg, stop) ← ed.sel
  let last ← checkedSub ed.content.len 1
  let stop := min (stop + 1) last
  let recorded ← ed.recorded.edit B (.moveTo stop)
  (List.range (stop - beg)).foldlM (fun r _ => r.edit B .delete) recorded

/-- The length of the selection, that is copied to the clipboard. -/
def selected (ed : Editor) : Option Nat := do
  let (beg, stop) ← ed.sel
  let len ← checkedSub stop beg
  some (len + 1)

def treatSelectedEvent (ed : Editor) (clipboard : List Char) : Event → Option Editor
  | .ctrl 'c' => do
    let _ ← ed.selected
    some { ed with sel := none, state := .insert }
  | .ctrl 'x' => do
    let _ ← ed.selected
    let ed ← ed.adjusted B rows (ed.deleteSel B)
    some { ed with sel := none, state := .insert }
  | .backspace | .delete => do
    let ed ← ed.adjusted B rows (ed.deleteSel B)
    some { ed with sel := none, state := .insert }
  | event => treatInsertEvent B rows { ed with sel := none, state := .insert } clipboard event

/-- From where the mouse was pressed to where it is. -/
def selectTo (ed : Editor) (origin : Nat) : Editor :=
  { ed with sel := some (min origin ed.content.pos, max origin ed.content.pos) }

def treatSelectEvent (ed : Editor) (origin : Nat) : Event → Option Editor
  | .hold x y => do
    let ed ← ed.movedAt B x y
    some (ed.selectTo origin)
  | .release x y => do
    let ed ← ed.movedAt B x y
    if origin ≠ ed.content.pos then some { ed.selectTo origin with state := .selected }
    else some { ed with state := .insert }
  | _ => some ed

/-- After `Exit` no event is treated. -/
def treatEvent (ed : Editor) (input : Input) : Option Editor :=
  match ed.state with
  | .insert => ed.treatInsertEvent B rows input.clipboard input.event
  | .prompt prompt message => ed.treatPromptEvent prompt message input.saveError input.event
  | .message => ed.treatMessageEvent B rows input.clipboard input.event
  | .select origin => ed.treatSelectEvent B origin input.event
  | .selected => ed.treatSelectedEvent B rows input.clipboard input.event
  | .exit => some ed

/-- The loop over the events. After a panic there is no editor. -/
def next (ed : Option Editor) (input : Input) : Option Editor :=
  ed.bind fun ed => ed.treatEvent B rows input

/-- The edits whose command ends with `adjust_view`. -/
def moving : Event → Option Edit
  | .up => some (.step .up)
  | .down => some (.step .down)
  | .left => some (.step .left)
  | .right => some (.step .right)
  | .backspace => some .delete
  | .delete => some .deleteForward
  | .char c => some (.insert c)
  | _ => none

/-- What the command of an event does before it calls `adjust_view`, if it does so. -/
def adjusting (ed : Editor) (event : Event) : Option (Option Recorded) :=
  match ed.state with
  | .insert | .message => (moving event).map (ed.recorded.edit B)
  | .selected =>
    if event = .ctrl 'x' ∨ event = .backspace ∨ event = .delete then some (ed.deleteSel B)
    else (moving event).map (ed.recorded.edit B)
  | _ => none

/-- What is painted does not fail. -/
def Draws (ed : Editor) : Prop :=
  ed.view.lineOffset + 1 ≤ ed.content.lineCount B ∧ (ed.view.paintLines B rows ed.content).isSome

/-- The line of the cursor is in the view. -/
def InView (ed : Editor) : Prop :=
  ∃ line, ed.content.line B = some line ∧ ed.view.lineOffset ≤ line ∧
    line < ed.view.lineOffset + linesHeight rows

end Editor

/-- The text that is left without the characters of an insertion that has led to it. -/
def Action.without (a : Action) (t : Text) : List Char :=
  match a with
  | .insert s => t.text.take (t.pos - s.length) ++ t.text.drop t.pos
  | .insertForward s => t.text.take t.pos ++ t.text.drop (t.pos + s.length)
  | _ => t.text

namespace Editor

variable (B : Breaks) (rows : Nat)

/-- The numbers of lines that `adjust_view` computes with are `u16`. -/
def Fits (ed : Editor) (line : Nat) : Prop :=
  line < 65536 ∧ (ed.view.lineOffset ≤ line →
    line + 1 < 65536 ∧ ed.view.lineOffset + linesHeight rows < 65536)

/-- The command takes an edit back, or does it again. -/
def replayed (ed : Editor) (event : Event) : Option Action :=
  if event = .ctrl 'z' then ed.recorded.history.head?
  else if event = .ctrl 'y' then ed.recorded.undone.head?.map Action.invert
  else none

/-- The state in which the commands of `treat_insert_event` are treated. -/
def Inserts (ed : Editor) (event : Event) : Prop :=
  ed.state = .insert ∨ ed.state = .message ∨
    ed.state = .selected ∧ ¬ (event = .ctrl 'x' ∨ event = .backspace ∨ event = .delete)

/-- The condition on an event: the lines that `adjust_view` is given fit, an undo or redo that takes
characters out leaves lines that are further down than the view is scrolled, and a page down does
not go just behind the last line. -/
structure Harmless (ed : Editor) (event : Event) : Prop where
  fits : ∀ line ∈ (ed.adjusting B event).join.bind fun r => r.content.line B, ed.Fits rows line
  lines : ed.Inserts event → ∀ a ∈ ed.replayed event,
    ed.view.lineOffset < B.lineEndingCount (a.without ed.content)
  page : ed.Inserts event → event = .pageDown →
    (ed.content.line B).getD 0 + linesHeight rows ≠ ed.content.lineCount B

instance (ed : Editor) (line : Nat) : Decidable (ed.Fits rows line) := instDecidableAnd

instance (ed : Editor) (event : Event) : Decidable (ed.Inserts event) := instDecidableOr

instance (ed : Editor) : DecidablePred (ed.Harmless B rows) := fun event =>
  decidable_of_iff
    ((∀ line ∈ (ed.adjusting B event).join.bind fun r => r.content.line B, ed.Fits rows line) ∧
      (ed.Inserts event → ∀ a ∈ ed.replayed event,
        ed.view.lineOffset < B.lineEndingCount (a.without ed.content)) ∧
      (ed.Inserts event → event = .pageDown →
        (ed.content.line B).getD 0 + linesHeight rows ≠ ed.content.lineCount B))
    ⟨fun ⟨fits, lines, page⟩ => ⟨fits, lines, page⟩, fun h => ⟨h.fits, h.lines, h.page⟩⟩

variable {B rows} in
theorem Harmless.fits_of {ed : Editor} {event : Event} {r : Recorded} (h : ed.Harmless B rows event)
    (hr : ed.adjusting B event = some (some r)) :
    ∀ line, r.content.line B = some line → ed.Fits rows line := by
  intro line hline
  apply h.fits
  rw [hr]
  exact hline

end Editor

/-- Lines of a text whose end is told by its last character, and that do not get fewer by characters
that are put in. -/
structure LineEndings extends Breaks where
  final : Char → Bool
  closed_iff : ∀ text c, toBreaks.Closed (text ++ [c]) ↔ final c = true
  grows : ∀ pre s post,
    toBreaks.lineEndingCount (pre ++ post) ≤ toBreaks.lineEndingCount (pre ++ s ++ post)

section Texts

variable {L : LineEndings} {B : Breaks} {t t' : Text} {a : Action} {e : Edit} {c : Char}
  {s text : List Char}

theorem last_append_drop {pre : List Char} {n : Nat} (h : n < text.length) :
    (pre ++ text.drop n).getLast? = text.getLast? := by
  have hdrop : (text.drop n).getLast? = text.getLast? := by
    rw [List.getLast?_drop, if_neg (by omega)]
  have hlast := List.getLast?_eq_some_getLast (List.ne_nil_of_length_pos (Nat.zero_lt_of_lt h))
  rw [List.getLast?_append, hdrop, hlast]
  rfl

/-- An edit of a text with the cursor on a character leaves the last character. -/
theorem edit_last (h : t.Good) (he : t.edit B e = some t') :
    t'.text.getLast? = t.text.getLast? := by
  have hpos : t.pos < t.text.length := h
  cases e with
  | step mov => rw [step_moves mov t' he]
  | moveTo pos => rw [moveTo_moves pos t' he]
  | moveAt line col => rw [moveAt_moves line col t' he]
  | insert c =>
    cases (insert_eq h).symm.trans he
    exact last_append_drop hpos
  | insertForward c =>
    cases (insertForward_eq h).symm.trans he
    exact last_append_drop hpos
  | delete =>
    obtain ⟨⟨t₁, c⟩, hdel, rfl⟩ := Option.map_eq_some_iff.mp he
    by_cases hzero : t.pos = 0
    · cases (delete_first hzero).symm.trans hdel
      rfl
    · obtain ⟨ch, -, heq⟩ := delete_eq h hzero
      cases heq.symm.trans hdel
      exact last_append_drop (by omega)
  | deleteForward =>
    obtain ⟨⟨t₁, c⟩, hdel, rfl⟩ := Option.map_eq_some_iff.mp he
    by_cases hlast : t.pos + 1 < t.text.length
    · obtain ⟨ch, -, heq⟩ := deleteForward_eq hlast
      cases heq.symm.trans hdel
      exact last_append_drop hlast
    · cases (deleteForward_last h hlast).symm.trans hdel
      rfl

/-- The cursor is on a character, and the last character is the one of `t`. -/
structure Text.Keeps (t t' : Text) : Prop where
  good : t'.Good
  last : t'.text.getLast? = t.text.getLast?

theorem edit_keeps (h : t.Good) (ha : t.Allows B e) (he : t.edit B e = some t') : t.Keeps t' := by
  obtain ⟨t₁, ht₁, hgood⟩ := (edit_lands h e).mpr ha
  cases he.symm.trans ht₁
  exact ⟨hgood, edit_last h he⟩

theorem foldlM_keeps {f : Text → Char → Option Text}
    (hf : ∀ t c t', t.Good → f t c = some t' → t.Keeps t') (h : t.Good)
    (hs : s.foldlM f t = some t') : t.Keeps t' := by
  induction s generalizing t with
  | nil =>
    cases hs
    exact ⟨h, rfl⟩
  | cons c s ih =>
    obtain ⟨t₁, hone, hrest⟩ := Option.bind_eq_some_iff.mp (List.foldlM_cons.symm.trans hs)
    have hkeeps := hf t c t₁ h hone
    have hall := ih hkeeps.good hrest
    exact ⟨hall.good, hall.last.trans hkeeps.last⟩

theorem apply_keeps (h : t.Good) (ha : a.apply t = some t') : t.Keeps t' := by
  cases a with
  | insert s => exact foldlM_keeps (fun t c t' h he => edit_keeps (B := .newline) (e := .insert c) h trivial he) h ha
  | insertForward s =>
    exact foldlM_keeps
      (fun t c t' h he => edit_keeps (B := .newline) (e := .insertForward c) h trivial he) h ha
  | delete s =>
    exact foldlM_keeps (fun t c t' h he => edit_keeps (B := .newline) (e := .delete) h trivial he) h ha
  | deleteForward s =>
    exact foldlM_keeps
      (fun t c t' h he => edit_keeps (B := .newline) (e := .deleteForward) h trivial he) h ha
  | move rel =>
    obtain ⟨heq, hlt, -⟩ := apply_move.mp ha
    rw [heq]
    exact ⟨hlt, rfl⟩

theorem Text.Keeps.closed (hk : t.Keeps t') (hc : L.Closed t.text) : L.Closed t'.text := by
  have hne : t'.text ≠ [] := List.ne_nil_of_length_pos (Nat.zero_lt_of_lt hk.good)
  have hlast' := List.getLast?_eq_some_getLast hne
  have hlast := hk.last.symm.trans hlast'
  obtain ⟨init', htext'⟩ := List.getLast?_eq_some_iff.mp hlast'
  obtain ⟨init, htext⟩ := List.getLast?_eq_some_iff.mp hlast
  rw [htext, L.closed_iff] at hc
  rw [htext', L.closed_iff]
  exact hc

theorem one_le_count (h : t.Good) (hc : B.Closed t.text) : 1 ≤ t.lineCount B := by
  by_contra hzero
  have hcount : B.lineEndingCount t.text = 0 := Nat.eq_zero_of_not_pos hzero
  rw [Breaks.Closed, hcount] at hc
  exact absurd (hc ▸ Nat.zero_le t.pos : t.text.length ≤ t.pos) (Nat.not_le_of_lt h)

/-- In a text that ends with a line ending the cursor is in one of the lines that are counted. -/
theorem line_lt_count (h : t.Good) (hc : B.Closed t.text) :
    ∃ line, t.line B = some line ∧ line < t.lineCount B := by
  obtain ⟨line, l, hat⟩ := at_of_good (B := B) h
  refine ⟨line, hat.line, Nat.lt_of_le_of_ne hat.le_count ?_⟩
  rintro rfl
  have hle := hat.start_le
  rw [show start (B.lines t.text) (t.lineCount B) = t.text.length from hc] at hle
  exact absurd h (Nat.not_lt_of_le hle)

theorem insert_all (h : t.Good) (hs : (Action.insert s).apply t = some t') :
    t' = ⟨t.pos + s.length, t.text.take t.pos ++ s ++ t.text.drop t.pos⟩ := by
  induction s generalizing t with
  | nil =>
    cases hs
    rw [List.append_nil, List.take_append_drop]
    rfl
  | cons c s ih =>
    obtain ⟨t₁, hone, hrest⟩ := Option.bind_eq_some_iff.mp (List.foldlM_cons.symm.trans hs)
    have hgood := (edit_keeps (B := .newline) (e := .insert c) h trivial hone).good
    have hall := ih hgood hrest
    cases (insert_eq h).symm.trans hone
    have hpos : (t.text.take t.pos ++ [c]).length = t.pos + 1 := by
      rw [List.length_append, List.length_take_of_le (Nat.le_of_lt h), List.length_singleton]
    rw [hall]
    dsimp only
    rw [List.take_left' hpos, List.drop_left' hpos, List.length_cons, List.append_assoc _ [c] s,
      List.singleton_append, Nat.add_right_comm, Nat.add_assoc]

theorem insertForward_all (h : t.Good) (hs : (Action.insertForward s).apply t = some t') :
    t' = ⟨t.pos, t.text.take t.pos ++ s.reverse ++ t.text.drop t.pos⟩ := by
  induction s generalizing t with
  | nil =>
    cases hs
    rw [List.reverse_nil, List.append_nil, List.take_append_drop]
  | cons c s ih =>
    obtain ⟨t₁, hone, hrest⟩ := Option.bind_eq_some_iff.mp (List.foldlM_cons.symm.trans hs)
    have hgood := (edit_keeps (B := .newline) (e := .insertForward c) h trivial hone).good
    have hall := ih hgood hrest
    cases (insertForward_eq h).symm.trans hone
    have hpos : (t.text.take t.pos).length = t.pos := List.length_take_of_le (Nat.le_of_lt h)
    rw [hall]
    dsimp only
    rw [List.append_assoc _ [c], List.take_left' hpos, List.drop_left' hpos, List.reverse_cons,
      List.append_assoc, List.append_assoc, List.append_assoc]

/-- What an action has put in is taken out again by its inverse; any other inverse does not make
lines fewer. -/
theorem lines_left {n : Nat} (h : a.Leads t t') (hgood : t.Good) (hgood' : t'.Good)
    (hn : n < L.lineEndingCount (a.without t')) : n < t.lineCount L.toBreaks := by
  have hlen : (t.text.take t.pos).length = t.pos := List.length_take_of_le (Nat.le_of_lt hgood)
  cases a with
  | insert s =>
    have hall := insert_all hgood h.apply
    have hboth : (t.text.take t.pos ++ s).length = t.pos + s.length := by
      rw [List.length_append, hlen]
    have hleft : (Action.insert s).without t' = t.text := by
      rw [hall]
      show List.take (t.pos + s.length - s.length) _ ++ List.drop (t.pos + s.length) _ = _
      rw [Nat.add_sub_cancel, List.drop_left' hboth, List.append_assoc, List.take_left' hlen,
        List.take_append_drop]
    rw [hleft] at hn
    exact hn
  | insertForward s =>
    have hall := insertForward_all hgood h.apply
    have hboth : (t.text.take t.pos ++ s.reverse).length = t.pos + s.length := by
      rw [List.length_append, hlen, List.length_reverse]
    have hleft : (Action.insertForward s).without t' = t.text := by
      rw [hall]
      show List.take t.pos _ ++ List.drop (t.pos + s.length) _ = _
      rw [List.drop_left' hboth, List.append_assoc, List.take_left' hlen, List.take_append_drop]
    rw [hleft] at hn
    exact hn
  | delete s =>
    have hall := insert_all hgood' h.invert
    have hgrows := L.grows (t'.text.take t'.pos) s (t'.text.drop t'.pos)
    rw [List.take_append_drop] at hgrows
    rw [hall]
    exact Nat.lt_of_lt_of_le hn hgrows
  | deleteForward s =>
    have hall := insertForward_all hgood' h.invert
    have hgrows := L.grows (t'.text.take t'.pos) s.reverse (t'.text.drop t'.pos)
    rw [List.take_append_drop] at hgrows
    rw [hall]
    exact Nat.lt_of_lt_of_le hn hgrows
  | move rel =>
    obtain ⟨heq, -⟩ := apply_move.mp h.invert
    rw [heq]
    exact hn

end Texts

/-- The history remembers all texts that it leads to, and the text ends with a line ending. -/
structure Sound (B : Breaks) (r : Recorded) : Prop where
  remembers : ∃ first g, Remembers first r g
  closed : B.Closed r.content.text

section Records

variable {L : LineEndings} {B : Breaks} {r r' : Recorded} {act a b : Action} {e : Edit} {t : Text}
  {n : Nat}

theorem Sound.good (h : Sound B r) : r.content.Good := by
  obtain ⟨first, g, hr⟩ := h.remembers
  exact hr.good

theorem join_some (h : a.kind = b.kind) : ∃ c, a.join b = some c := by
  cases a <;> cases b <;> first | exact ⟨_, rfl⟩ | cases h

theorem record_some (r : Recorded) (act : Action) : ∃ r', r.record act = some r' := by
  unfold Recorded.record Recorded.push
  cases r.history with
  | nil => exact ⟨_, rfl⟩
  | cons a rest =>
    dsimp only
    split
    · obtain ⟨c, hc⟩ := join_some ‹_›
      rw [hc]
      exact ⟨_, rfl⟩
    · exact ⟨_, rfl⟩

/-- Where the text allows an edit, it is recorded. -/
theorem edit_some (he : r.content.edit B e = some t) : ∃ r', r.edit B e = some r' ∧ r'.content = t := by
  have hmoved : ∃ r', r.moved (some t) = some r' ∧ r'.content = t := by
    obtain ⟨r', hr'⟩ := record_some { r with content := t } (.move (t.pos - r.content.pos))
    exact ⟨r', hr', (record_cases hr').1⟩
  have hdeleted : ∀ {result : Option (Text × Option Char)} (act : List Char → Action),
      result.map Prod.fst = some t → ∃ r', r.deleted act result = some r' ∧ r'.content = t := by
    intro result act hresult
    obtain ⟨⟨t₁, c⟩, rfl, rfl⟩ := Option.map_eq_some_iff.mp hresult
    cases c with
    | none => exact ⟨_, rfl, rfl⟩
    | some c =>
      obtain ⟨r', hr'⟩ := record_some { r with content := t₁ } (act [c])
      exact ⟨r', hr', (record_cases hr').1⟩
  cases e with
  | step mov =>
    show ∃ r', r.moved (r.content.step B mov) = some r' ∧ _
    rw [show r.content.step B mov = some t from he]
    exact hmoved
  | moveTo pos =>
    show ∃ r', r.moved (r.content.moveTo pos) = some r' ∧ _
    rw [show r.content.moveTo pos = some t from he]
    exact hmoved
  | moveAt line col =>
    show ∃ r', r.moved (r.content.moveAt B line col) = some r' ∧ _
    rw [show r.content.moveAt B line col = some t from he]
    exact hmoved
  | insert c =>
    obtain ⟨r', hr'⟩ := record_some r (.insert [c])
    refine ⟨{ r' with content := t }, ?_, rfl⟩
    show (r.record _).bind _ = _
    rw [hr', Option.bind_some, (record_cases hr').1, show r.content.insert c = some t from he]
    rfl
  | insertForward c =>
    obtain ⟨r', hr'⟩ := record_some r (.insertForward [c])
    refine ⟨{ r' with content := t }, ?_, rfl⟩
    show (r.record _).bind _ = _
    rw [hr', Option.bind_some, (record_cases hr').1, show r.content.insertForward c = some t from he]
    rfl
  | delete => exact hdeleted .delete he
  | deleteForward => exact hdeleted .deleteForward he

theorem edit_sound (h : Sound L.toBreaks r) (ha : r.content.Allows L.toBreaks e) :
    ∃ r', r.edit L.toBreaks e = some r' ∧ Sound L.toBreaks r' ∧
      r.content.edit L.toBreaks e = some r'.content := by
  obtain ⟨first, g, hr⟩ := h.remembers
  obtain ⟨t, ht, hgood⟩ := (edit_lands hr.good e).mpr ha
  obtain ⟨r', he, rfl⟩ := edit_some ht
  exact ⟨r', he, ⟨⟨first, _, hr.edit he hgood⟩, (edit_keeps hr.good ha ht).closed h.closed⟩, ht⟩

/-- Undo leaves the lines that are there without the last insertion. -/
theorem undo_sound (h : Sound L.toBreaks r) (hn : n < r.content.lineCount L.toBreaks)
    (hlines : ∀ a, r.history.head? = some a → n < L.lineEndingCount (a.without r.content)) :
    ∃ r', r.undo = some r' ∧ Sound L.toBreaks r' ∧ n < r'.content.lineCount L.toBreaks := by
  obtain ⟨first, g, hr⟩ := h.remembers
  obtain ⟨r', hundo, hr', -⟩ := hr.undo
  refine ⟨r', hundo, ?_⟩
  obtain ⟨content, history, undone⟩ := r
  cases history with
  | nil =>
    cases hundo
    exact ⟨h, hn⟩
  | cons a history =>
    have hbehind := hr.behind
    obtain ⟨done, ahead⟩ := g
    cases done with
    | nil => exact hbehind.elim
    | cons group done =>
      obtain ⟨-, hleads, hbefore, -⟩ := hbehind
      obtain ⟨t, ht, heq⟩ := Option.bind_eq_some_iff.mp hundo
      cases hleads.invert.symm.trans ht
      cases heq
      exact ⟨⟨⟨first, _, hr'⟩, (apply_keeps hr.good ht).closed h.closed⟩,
        lines_left hleads hbefore hr.good (hlines a rfl)⟩

theorem invert_invert (a : Action) : a.invert.invert = a := by
  cases a with
  | move rel => exact congrArg Action.move (Int.neg_neg rel)
  | _ => rfl

theorem redo_sound (h : Sound L.toBreaks r) (hn : n < r.content.lineCount L.toBreaks)
    (hlines : ∀ a, r.undone.head? = some a → n < L.lineEndingCount (a.invert.without r.content)) :
    ∃ r', r.redo = some r' ∧ Sound L.toBreaks r' ∧ n < r'.content.lineCount L.toBreaks := by
  obtain ⟨first, g, hr⟩ := h.remembers
  obtain ⟨r', hredo, hr'⟩ := hr.redo
  refine ⟨r', hredo, ?_⟩
  obtain ⟨content, history, undone⟩ := r
  cases undone with
  | nil =>
    cases hredo
    exact ⟨h, hn⟩
  | cons a undone =>
    have hahead := hr.ahead
    obtain ⟨done, ahead⟩ := g
    cases ahead with
    | nil => exact hahead.elim
    | cons group ahead =>
      obtain ⟨-, -, t', hleads, hgood', -⟩ := hahead
      obtain ⟨t, ht, heq⟩ := Option.bind_eq_some_iff.mp hredo
      cases hleads.apply.symm.trans ht
      cases heq
      have hback : a.invert.Leads t' content := ⟨hleads.invert, (invert_invert a).symm ▸ hleads.apply⟩
      exact ⟨⟨⟨first, _, hr'⟩, (apply_keeps hr.good ht).closed h.closed⟩,
        lines_left hback hgood' hr.good (hlines a rfl)⟩

end Records

end Origel.Smith
