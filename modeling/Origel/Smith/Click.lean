import Origel.Smith.View

/-! Where the cursor is drawn, and what a click there moves it to. -/
namespace Origel.Smith

/-- The cells that a character takes -/
def cells (x : Char) : Nat := if x = '\t' then TAB_LENGTH else 1

namespace View

variable (B : Breaks) (v : View) (t : Text)

def cursorPos : Option (Nat × Nat) := do
  let line ← t.line B
  let y ← checkedSub line v.lineOffset
  let visual_col ← t.col B
  let chars ← (B.lines t.text)[line]?
  let column := ((chars.map cells).take visual_col).foldl (· + ·) 0
  some (lineNumberWidth (t.lineCount B) + 1 + column, y)

/-- What `paint_cursor` sends to the terminal where there is no prompt -/
def cursorCell : Option (Nat × Nat) := do
  let (a, b) ← v.cursorPos B t
  let x ← checkedAdd16 1 (asU16 a)
  let y ← checkedAdd16 1 (asU16 b)
  some (x, y)

/-- One of the lines that are painted -/
def Shows (rows line : Nat) : Prop :=
  v.lineOffset ≤ line ∧
    line < v.lineOffset + min (linesHeight rows) (t.lineCount B - v.lineOffset)

end View

/-- The cells that characters take, of which a tab is four -/
def visualWidth (chars : List Char) : Nat := chars.length + 3 * chars.count '\t'

section Columns

variable {x : Char} {chars : List Char} {state visual col extra : Nat}

theorem visualWidth_cons (x : Char) (chars : List Char) :
    visualWidth (x :: chars) = cells x + visualWidth chars := by
  rw [visualWidth, visualWidth, cells, List.length_cons]
  split
  · rename_i htab
    rw [htab, List.count_cons_self, TAB_LENGTH]
    omega
  · rename_i hother
    rw [List.count_cons_of_ne hother]
    omega

theorem foldl_cells (chars : List Char) (col state : Nat) :
    ((chars.map cells).take col).foldl (· + ·) state = state + visualWidth (chars.take col) := by
  induction chars generalizing col state with
  | nil => simp [visualWidth]
  | cons x chars ih =>
    cases col with
    | zero => simp [visualWidth]
    | succ col =>
      rw [List.map_cons, List.take_succ_cons, List.foldl_cons, ih, List.take_succ_cons, visualWidth_cons]
      exact Nat.add_assoc ..

theorem cells_pos (x : Char) : 0 < cells x := by
  rw [cells]
  split
  · exact Nat.zero_lt_succ _
  · exact Nat.zero_lt_one

/-- Every cell of a character is clicked as its column. -/
theorem clickedCol_cell (hx : chars[col]? = some x) (hextra : extra < cells x) :
    clickedCol (state + visualWidth (chars.take col) + extra) state chars = col := by
  induction chars generalizing col state with
  | nil => cases hx
  | cons head chars ih =>
    cases col with
    | zero =>
      cases hx
      rw [clickedCol]
      apply if_neg
      change ¬ state + cells x ≤ state + 0 + extra
      omega
    | succ col =>
      rw [List.take_succ_cons, visualWidth_cons, ← Nat.add_assoc, clickedCol]
      change (if state + cells head ≤ _ then clickedCol _ (state + cells head) chars + 1 else 0) = _
      rw [if_pos (by omega), ih hx]

/-- A cell in front of a column is clicked as a column in front of it. -/
theorem clickedCol_lt (hstate : state ≤ visual) (hbefore : visual < state + visualWidth (chars.take col)) :
    clickedCol visual state chars < col := by
  induction chars generalizing col state with
  | nil =>
    rw [List.take_nil] at hbefore
    exact absurd hbefore (Nat.not_lt.mpr hstate)
  | cons head chars ih =>
    cases col with
    | zero => exact absurd hbefore (Nat.not_lt.mpr hstate)
    | succ col =>
      rw [List.take_succ_cons, visualWidth_cons, ← Nat.add_assoc] at hbefore
      rw [clickedCol]
      change (if state + cells head ≤ visual then clickedCol _ (state + cells head) chars + 1 else 0) < _
      split
      · rename_i hnext
        exact Nat.succ_lt_succ (ih hnext hbefore)
      · exact Nat.zero_lt_succ col

end Columns

section Clicks

variable {B : Breaks} {v : View} {t : Text} {rows line col : Nat} {l : List Char}

/-- A click in a line that is shown is taken for one in that line. -/
theorem translateCoordinates_shown (hat : t.At B line l) (hshown : v.Shows B t rows line) (x : Nat) :
    v.translateCoordinates B t x (1 + (line - v.lineOffset)) =
      some (line, clickedCol (x - (lineNumberWidth (t.lineCount B) + 2)) 0 l) := by
  obtain ⟨hfrom, hto⟩ := hshown
  have hlast : checkedSub (t.lineCount B) 1 = some (t.lineCount B - 1) := checkedSub_of_le (by omega)
  have hrow : ((1 + (line - v.lineOffset) : Nat) : Int) + v.lineOffset - 1 = line := by omega
  have hcol : ((x : Int) - lineNumberWidth (t.lineCount B) - 2).toNat =
      x - (lineNumberWidth (t.lineCount B) + 2) := by omega
  have hmin : min line (t.lineCount B - 1) = line := by omega
  simp only [View.translateCoordinates, hlast, Option.bind_eq_bind, Option.bind_some, hrow, hcol,
    Int.natCast_nonneg, if_true, Int.toNat_natCast, hmin, hat.mem]

theorem cursorPos_at (hat : t.At B line l) (hcol : t.col B = some col)
    (hshown : v.Shows B t rows line) :
    v.cursorPos B t =
      some (lineNumberWidth (t.lineCount B) + 1 + visualWidth (l.take col), line - v.lineOffset) := by
  simp only [View.cursorPos, hat.line, hcol, hat.mem, checkedSub_of_le hshown.1, Option.bind_eq_bind,
    Option.bind_some, foldl_cells, Nat.zero_add]

/-- Every cell of a character that is shown is clicked as its line and column. -/
theorem cell_clicked {x : Char} {extra : Nat} (hat : t.At B line l) (hshown : v.Shows B t rows line)
    (hx : l[col]? = some x) (hextra : extra < cells x) :
    v.translateCoordinates B t
      (1 + (lineNumberWidth (t.lineCount B) + 1 + visualWidth (l.take col)) + extra)
      (1 + (line - v.lineOffset)) = some (line, col) := by
  have hcells : 1 + (lineNumberWidth (t.lineCount B) + 1 + visualWidth (l.take col)) + extra -
      (lineNumberWidth (t.lineCount B) + 2) = 0 + visualWidth (l.take col) + extra := by omega
  rw [translateCoordinates_shown hat hshown, hcells, clickedCol_cell hx hextra]

theorem Text.At.char_at (hat : t.At B line l) (hcol : t.col B = some col) : ∃ x, l[col]? = some x := by
  cases hcol.symm.trans hat.col
  have hstart := hat.start_le
  have hend := hat.lt_end
  exact ⟨_, List.getElem?_eq_getElem (by omega)⟩

theorem lineNumberWidth_le {lineCount : Nat} (h : lineCount < 2 ^ 64) : lineNumberWidth lineCount ≤ 20 := by
  have hdigits : (Nat.toDigits 10 lineCount).length ≤ 20 :=
    (Nat.length_toDigits_le_iff (by decide) (by decide)).mpr (by omega)
  exact (Nat.mod_le _ _).trans hdigits

/-- A cell that is drawn and clicked is the one of the cursor where no number is cut off. -/
theorem drawn_stays_iff (hat : t.At B line l) (hcol : t.col B = some col) (hrows : rows < 65536)
    (hcount : t.lineCount B < 2 ^ 64) (hshown : v.Shows B t rows line) :
    (∃ x y, v.cursorCell B t = some (x, y) ∧
        v.translateCoordinates B t x y = some (line, col)) ↔
      lineNumberWidth (t.lineCount B) + 1 + visualWidth (l.take col) < 65535 := by
  have hmargin := lineNumberWidth_le hcount
  have hbelow : line - v.lineOffset < 65534 := by
    have hto := hshown.2
    rw [linesHeight] at hto
    omega
  have hy : asU16 (line - v.lineOffset) = line - v.lineOffset := Nat.mod_eq_of_lt (by omega)
  have hrow : checkedAdd16 1 (line - v.lineOffset) = some (1 + (line - v.lineOffset)) :=
    if_pos (by omega)
  have hcell : v.cursorCell B t =
      (checkedAdd16 1 (asU16 (lineNumberWidth (t.lineCount B) + 1 + visualWidth (l.take col)))).bind
        fun x => some (x, 1 + (line - v.lineOffset)) := by
    simp only [View.cursorCell, cursorPos_at hat hcol hshown, Option.bind_eq_bind, Option.bind_some, hy,
      hrow]
  constructor
  · intro ⟨x', y, hdrawn, hback⟩
    by_contra hfar
    rw [hcell] at hdrawn
    obtain ⟨x'', hadd, hpair⟩ := Option.bind_eq_some_iff.mp hdrawn
    cases hpair
    rw [translateCoordinates_shown hat hshown] at hback
    rw [checkedAdd16] at hadd
    split at hadd
    · cases hadd
      have hcut : asU16 (lineNumberWidth (t.lineCount B) + 1 + visualWidth (l.take col)) =
          (lineNumberWidth (t.lineCount B) + 1 + visualWidth (l.take col)) % 65536 := rfl
      have hsame : clickedCol _ 0 l = col := congrArg Prod.snd (Option.some.inj hback)
      refine absurd hsame (Nat.ne_of_lt (clickedCol_lt (Nat.zero_le _) ?_))
      omega
    · cases hadd
  · intro hnear
    obtain ⟨x, hx⟩ := hat.char_at hcol
    refine ⟨1 + (lineNumberWidth (t.lineCount B) + 1 + visualWidth (l.take col)),
      1 + (line - v.lineOffset), ?_, ?_⟩
    · rw [hcell, asU16, Nat.mod_eq_of_lt (by omega), checkedAdd16, if_pos (by omega)]
      rfl
    · have hclicked := cell_clicked hat hshown hx (cells_pos x)
      rwa [Nat.add_zero] at hclicked

/-- Where the cursor is drawn in a cell that the terminal can tell, a click there leaves it where it is,
and elsewhere a click moves it back; the four cells of a tab are its column. -/
theorem click_stays_iff (hgood : t.Good) (hline : t.line B = some line) (hcol : t.col B = some col)
    (hl : (B.lines t.text)[line]? = some l) (hrows : rows < 65536) (hcount : t.lineCount B < 2 ^ 64)
    (hshown : v.Shows B t rows line) :
    ((∃ x y, v.cursorCell B t = some (x, y) ∧
        v.translateCoordinates B t x y = some (line, col)) ↔
      lineNumberWidth (t.lineCount B) + 1 + visualWidth (l.take col) < 65535) ∧
    (l[col]? = some '\t' → ∀ extra < 4, v.translateCoordinates B t
      (1 + (lineNumberWidth (t.lineCount B) + 1 + visualWidth (l.take col)) + extra)
      (1 + (line - v.lineOffset)) = some (line, col)) := by
  obtain ⟨line', l', hat⟩ := at_of_good (B := B) hgood
  cases hline.symm.trans hat.line
  cases hl.symm.trans hat.mem
  exact ⟨drawn_stays_iff hat hcol hrows hcount hshown,
    fun htab extra hextra => cell_clicked hat hshown htab hextra⟩

end Clicks

/-- The cursor behind a tab -/
def behindTab : Text := ⟨1, ['\t', 'a', '\n']⟩

theorem click_stays_iff_behind_tab :
    ∃ x y, View.new.cursorCell .newline behindTab = some (x, y) ∧
      View.new.translateCoordinates .newline behindTab x y = some (0, 1) := by
  have hgood : behindTab.Good := by
    change 1 < 3
    decide
  have hshown : View.new.Shows .newline behindTab 24 0 := ⟨Nat.zero_le _, by decide⟩
  exact (click_stays_iff hgood (by decide) (by decide) (by rfl) (by decide) (by decide) hshown).1.mpr
    (by decide)

theorem newlineLines_single (n : Nat) :
    newlineLines (List.replicate n 'a' ++ ['\n']) = [List.replicate n 'a' ++ ['\n'], []] := by
  induction n with
  | zero => rfl
  | succ n ih =>
    rw [List.replicate_succ, List.cons_append, newlineLines, if_neg (by decide), ih]

/-- A line of so many characters, with the cursor at its end -/
def longLine (n : Nat) : Text := ⟨n, List.replicate n 'a' ++ ['\n']⟩

theorem longLine_at (n : Nat) : (longLine n).At .newline 0 (List.replicate n 'a' ++ ['\n']) := by
  have hlines : Breaks.newline.lines (longLine n).text = [List.replicate n 'a' ++ ['\n'], []] :=
    newlineLines_single n
  have hlen : (List.replicate n 'a' ++ ['\n']).length = n + 1 := by simp
  have hstart : start (Breaks.newline.lines (longLine n).text) 0 = 0 := rfl
  refine ⟨?_, by rw [hlines]; rfl, by omega, ?_⟩
  · change (if n ≤ (List.replicate n 'a' ++ ['\n']).length then
      some (lineAt (Breaks.newline.lines (longLine n).text) n) else none) = some 0
    rw [if_pos (by omega), hlines, lineAt, if_pos (by omega)]
  · change n < _ + _
    omega

theorem longLine_lineCount (n : Nat) : (longLine n).lineCount .newline = 1 := by
  change (newlineLines _).length - 1 = 1
  rw [longLine, newlineLines_single]
  rfl

/-- The cursor at the end of a line that is too long is drawn at its start, and a click there moves it. -/
theorem long_line_moves :
    (longLine 65536).line .newline = some 0 ∧ (longLine 65536).col .newline = some 65536 ∧
      ¬ ∃ x y, View.new.cursorCell .newline (longLine 65536) = some (x, y) ∧
        View.new.translateCoordinates .newline (longLine 65536) x y = some (0, 65536) := by
  have hat := longLine_at 65536
  have hcol : (longLine 65536).col .newline = some 65536 := hat.col
  have hcount := longLine_lineCount 65536
  refine ⟨hat.line, hcol, fun hstays => ?_⟩
  have hshown : View.new.Shows .newline (longLine 65536) 24 0 :=
    ⟨Nat.zero_le _, by rw [hcount]; decide⟩
  have hnear := (drawn_stays_iff hat hcol (by decide) (by rw [hcount]; decide) hshown).mp hstays
  rw [List.take_left' (by rw [List.length_replicate]), visualWidth, List.length_replicate] at hnear
  omega

end Origel.Smith
