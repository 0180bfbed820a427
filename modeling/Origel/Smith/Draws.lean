import Origel.Lib.Lines
import Origel.Smith.View

/-! Every state of the editor can be painted, and the commands that adjust the view show the cursor. -/
namespace Origel.Smith

open Origel.Lib

variable {L : LineEndings} {rows : Nat} {ed ed' : Editor} {r : Recorded} {e : Edit}

namespace Editor

/-- The view starts at a line of the text. -/
structure Steady (L : LineEndings) (ed : Editor) : Prop where
  sound : Sound L.toBreaks ed.recorded
  view : ed.view.lineOffset < ed.content.lineCount L.toBreaks

/-- A selection that is finished goes from its start to its end. -/
structure Inv (L : LineEndings) (ed : Editor) : Prop extends Steady L ed where
  sel : ed.state = .selected → ∃ beg stop, ed.sel = some (beg, stop) ∧ beg ≤ stop

/-- A line that is not too large is in the view that is adjusted to it. -/
theorem adjustView_spec {v : View} {line : Nat} (hrows : 3 ≤ rows) (hline : line < 65536)
    (hfit : v.lineOffset ≤ line → line + 1 < 65536 ∧ v.lineOffset + linesHeight rows < 65536) :
    ∃ v', v.adjustView rows line = some v' ∧ v'.lineOffset ≤ line ∧
      line < v'.lineOffset + linesHeight rows := by
  have hheight : 1 ≤ linesHeight rows := by
    unfold linesHeight
    omega
  have hcast : asU16 line = line := Nat.mod_eq_of_lt hline
  unfold View.adjustView
  rw [hcast]
  dsimp only
  split
  · exact ⟨_, rfl, le_refl line, by dsimp only; omega⟩
  · rename_i hbelow
    obtain ⟨hnext, hstop⟩ := hfit (by omega)
    have hadd : checkedAdd16 line 1 = some (line + 1) := if_pos hnext
    have hadd' : checkedAdd16 v.lineOffset (linesHeight rows) =
        some (v.lineOffset + linesHeight rows) := if_pos hstop
    rw [hadd, hadd']
    simp only [Option.bind_eq_bind, Option.bind_some]
    split
    · have hsub : checkedSub (line + 1) (linesHeight rows) = some (line + 1 - linesHeight rows) :=
        checkedSub_of_le (by omega)
      rw [hsub]
      exact ⟨_, rfl, by dsimp only; omega, by dsimp only; omega⟩
    · exact ⟨_, rfl, by omega, by omega⟩

theorem adjusted_spec (hrows : 3 ≤ rows) (hr : Sound L.toBreaks r)
    (hfits : ∀ line, r.content.line L.toBreaks = some line → ed.Fits rows line) :
    ∃ ed', ed.adjusted L.toBreaks rows (some r) = some ed' ∧ Steady L ed' ∧
      ed'.InView L.toBreaks rows ∧ ed'.state = ed.state := by
  obtain ⟨line, hline, hcount⟩ := line_lt_count hr.good hr.closed
  obtain ⟨hsmall, hfit⟩ := hfits line hline
  obtain ⟨v, hv, hle, hlt⟩ := adjustView_spec hrows hsmall hfit
  refine ⟨{ ed with recorded := r, view := v }, ?_, ⟨hr, hle.trans_lt hcount⟩,
    ⟨line, hline, hle, hlt⟩, rfl⟩
  unfold adjusted
  simp only [Option.bind_eq_bind, Option.bind_some, hline, hv]

/-- The view is put where the line of the cursor is, or further up. -/
theorem centered_spec (hr : Sound L.toBreaks r) :
    ∃ ed', ed.centered L.toBreaks rows (some r) = some ed' ∧ Steady L ed' ∧ ed'.state = ed.state := by
  obtain ⟨line, hline, hcount⟩ := line_lt_count hr.good hr.closed
  refine ⟨{ ed with recorded := r, view := ed.view.centerView rows line }, ?_, ⟨hr, ?_⟩, rfl⟩
  · unfold centered
    simp only [Option.bind_eq_bind, Option.bind_some, hline]
  · show asU16 (line - linesHeight rows / 2) < _
    have hmod : asU16 (line - linesHeight rows / 2) ≤ line :=
      (Nat.mod_le ..).trans (Nat.sub_le ..)
    exact hmod.trans_lt hcount

theorem changed_spec (hr : Sound L.toBreaks r)
    (hview : ed.view.lineOffset < r.content.lineCount L.toBreaks) :
    ∃ ed', ed.changed (some r) = some ed' ∧ Steady L ed' ∧ ed'.state = ed.state :=
  ⟨{ ed with recorded := r }, rfl, ⟨hr, hview⟩, rfl⟩

theorem scrolled_steady (h : Steady L ed) (offset : Int) :
    Steady L { ed with view := ed.view.scrollView offset (ed.content.lineCount L.toBreaks) } := by
  refine ⟨h.sound, ?_⟩
  have hcount := one_le_count h.sound.good h.sound.closed
  show (min (max (ed.view.lineOffset + offset) 0) (ed.content.lineCount L.toBreaks - 1 : Int) %
    65536).toNat < ed.content.lineCount L.toBreaks
  unfold content at hcount ⊢
  omega

/-- A movement leaves the lines as they are. -/
theorem move_spec (h : Steady L ed) (ha : ed.content.Allows L.toBreaks e)
    (hmoves : ∀ t, ed.content.edit L.toBreaks e = some t → t.text = ed.content.text) :
    ∃ r, ed.recorded.edit L.toBreaks e = some r ∧ Sound L.toBreaks r ∧
      ed.view.lineOffset < r.content.lineCount L.toBreaks := by
  obtain ⟨r, he, hr, ht⟩ := edit_sound h.sound ha
  refine ⟨r, he, hr, ?_⟩
  rw [Text.lineCount, hmoves _ ht]
  exact h.view

theorem movedAt_spec (h : Steady L ed) (x y : Nat) :
    ∃ ed', ed.movedAt L.toBreaks x y = some ed' ∧ Steady L ed' ∧ ed'.state = ed.state := by
  have hcount := one_le_count h.sound.good h.sound.closed
  have htranslate : ∃ line col,
      ed.view.translateCoordinates L.toBreaks ed.content x y = some (line, col) := by
    unfold View.translateCoordinates
    have hlast : checkedSub (ed.content.lineCount L.toBreaks) 1 =
        some (ed.content.lineCount L.toBreaks - 1) := checkedSub_of_le hcount
    rw [hlast]
    simp only [Option.bind_eq_bind, Option.bind_some]
    have hline : (if (0 : Int) ≤ y + ed.view.lineOffset - 1 then
        min ((y + ed.view.lineOffset - 1 : Int)).toNat (ed.content.lineCount L.toBreaks - 1)
        else ed.content.lineCount L.toBreaks - 1) < ed.content.lineCount L.toBreaks := by
      have hpos : 1 ≤ ed.content.lineCount L.toBreaks := hcount
      split <;> omega
    obtain ⟨l, hl, -⟩ := full_line hline
    rw [hl]
    exact ⟨_, _, rfl⟩
  obtain ⟨line, col, htranslate⟩ := htranslate
  obtain ⟨r, he, hr, hview⟩ := move_spec (e := .moveAt line col) h hcount
    fun t ht => by rw [moveAt_moves line col t ht]
  unfold movedAt
  rw [htranslate]
  simp only [Option.bind_eq_bind, Option.bind_some]
  rw [he]
  exact changed_spec hr hview

/-- A loop of edits that are allowed. -/
theorem foldlM_sound {α : Type*} {l : List α} {f : Recorded → α → Option Recorded}
    {P : Recorded → Prop} (hf : ∀ r a, P r → ∃ r', f r a = some r' ∧ P r') (h : P r) :
    ∃ r', l.foldlM f r = some r' ∧ P r' := by
  induction l generalizing r with
  | nil => exact ⟨r, rfl, h⟩
  | cons a l ih =>
    obtain ⟨r₁, hone, h₁⟩ := hf r a h
    obtain ⟨r', hall, h'⟩ := ih h₁
    refine ⟨r', ?_, h'⟩
    rw [List.foldlM_cons, hone]
    exact hall

theorem paste_spec (h : Steady L ed) (clipboard : List Char) :
    ∃ r, ed.paste L.toBreaks clipboard = some r ∧ Sound L.toBreaks r ∧
      ed.view.lineOffset < r.content.lineCount L.toBreaks := by
  apply foldlM_sound (P := fun r => Sound L.toBreaks r ∧
    ed.view.lineOffset < r.content.lineCount L.toBreaks)
  · rintro r c ⟨hr, hview⟩
    obtain ⟨r', he, hr', ht⟩ := edit_sound (e := .insert c) hr trivial
    refine ⟨r', he, hr', hview.trans_le ?_⟩
    have hgrows := L.grows (r.content.text.take r.content.pos) [c]
      (r.content.text.drop r.content.pos)
    rw [List.take_append_drop] at hgrows
    rw [← Option.some.inj ((insert_eq hr.good).symm.trans ht)]
    exact hgrows
  · exact ⟨h.sound, h.view⟩

theorem deleteSel_spec {beg stop : Nat} (h : Steady L ed) (hsel : ed.sel = some (beg, stop)) :
    ∃ r, ed.deleteSel L.toBreaks = some r ∧ Sound L.toBreaks r := by
  have hgood : ed.content.pos < ed.content.len := h.sound.good
  have hlen : checkedSub ed.content.len 1 = some (ed.content.len - 1) := checkedSub_of_le (by omega)
  obtain ⟨r₁, he, hr₁, -⟩ := edit_sound (e := .moveTo (min (stop + 1) (ed.content.len - 1))) h.sound
    (show min (stop + 1) (ed.content.len - 1) < ed.content.len by omega)
  unfold deleteSel
  rw [hsel, hlen]
  simp only [Option.bind_eq_bind, Option.bind_some, he]
  apply foldlM_sound (P := Sound L.toBreaks)
  · intro r _ hr
    obtain ⟨r', he', hr', -⟩ := edit_sound (e := .delete) hr trivial
    exact ⟨r', he', hr'⟩
  · exact hr₁

/-- What a command of `treat_insert_event` leads to. -/
structure Treated (L : LineEndings) (rows : Nat) (event : Event) (ed' : Editor) : Prop
    extends Steady L ed' where
  state : ed'.state ≠ .selected
  shown : (moving event).isSome → ed'.InView L.toBreaks rows

/-- A command that adjusts the view. -/
theorem adjusted_treated {event : Event} (hrows : 3 ≤ rows) (h : Steady L ed)
    (hstate : ed.state = .insert) (ha : ed.content.Allows L.toBreaks e)
    (hfits : ∀ r, ed.recorded.edit L.toBreaks e = some r →
      ∀ line, r.content.line L.toBreaks = some line → ed.Fits rows line) :
    ∃ ed', ed.adjusted L.toBreaks rows (ed.recorded.edit L.toBreaks e) = some ed' ∧
      Treated L rows event ed' := by
  obtain ⟨r, he, hr, -⟩ := edit_sound h.sound ha
  obtain ⟨ed', hadjusted, hsteady, hview, hstate'⟩ := adjusted_spec hrows hr (hfits r he)
  rw [he]
  refine ⟨ed', hadjusted, hsteady, ?_, fun _ => hview⟩
  rw [hstate', hstate]
  exact State.noConfusion

theorem insert_event (hrows : 3 ≤ rows) (h : Steady L ed) (hstate : ed.state = .insert)
    (event : Event) (clipboard : List Char)
    (hfits : ∀ e, moving event = some e → ∀ r, ed.recorded.edit L.toBreaks e = some r →
      ∀ line, r.content.line L.toBreaks = some line → ed.Fits rows line)
    (hlines : ∀ a, ed.replayed event = some a →
      ed.view.lineOffset < L.lineEndingCount (a.without ed.content))
    (hpage : event = .pageDown →
      (ed.content.line L.toBreaks).getD 0 + linesHeight rows ≠ ed.content.lineCount L.toBreaks) :
    ∃ ed', ed.treatInsertEvent L.toBreaks rows clipboard event = some ed' ∧
      Treated L rows event ed' := by
  have hsame : (moving event).isSome = false → ∀ {o : Option Editor},
      (∃ ed', o = some ed' ∧ Steady L ed' ∧ ed'.state = ed.state) →
        ∃ ed', o = some ed' ∧ Treated L rows event ed' := by
    rintro hmoving o ⟨ed', ho, hsteady, hstate'⟩
    refine ⟨ed', ho, hsteady, ?_, fun hm => absurd (hmoving.symm.trans hm) Bool.false_ne_true⟩
    rw [hstate', hstate]
    exact State.noConfusion
  have hcount := one_le_count h.sound.good h.sound.closed
  unfold treatInsertEvent
  split
  · exact ⟨_, rfl, ⟨h.sound, h.view⟩, State.noConfusion, nofun⟩
  · exact ⟨_, rfl, ⟨h.sound, h.view⟩, State.noConfusion, nofun⟩
  · exact ⟨_, rfl, ⟨h.sound, h.view⟩, State.noConfusion, nofun⟩
  · rename_i x y
    obtain ⟨ed', hmoved, hsteady, -⟩ := movedAt_spec h x y
    refine ⟨{ ed' with state := .select ed'.content.pos }, ?_, ⟨hsteady.sound, hsteady.view⟩,
      State.noConfusion, nofun⟩
    rw [hmoved]
    rfl
  · exact hsame rfl ⟨_, rfl, scrolled_steady h _, rfl⟩
  · exact hsame rfl ⟨_, rfl, scrolled_steady h _, rfl⟩
  · obtain ⟨r, hundo, hr, hview⟩ := undo_sound h.sound h.view hlines
    rw [hundo]
    exact hsame rfl (changed_spec hr hview)
  · obtain ⟨r, hredo, hr, hview⟩ := redo_sound h.sound h.view fun a ha =>
      hlines a.invert (congrArg (Option.map Action.invert) ha)
    rw [hredo]
    exact hsame rfl (changed_spec hr hview)
  · obtain ⟨r, hpaste, hr, hview⟩ := paste_spec h clipboard
    rw [hpaste]
    exact hsame rfl (changed_spec hr hview)
  · exact adjusted_treated hrows h hstate trivial (hfits _ rfl)
  · exact adjusted_treated hrows h hstate hcount (hfits _ rfl)
  · exact adjusted_treated hrows h hstate trivial (hfits _ rfl)
  · exact adjusted_treated hrows h hstate trivial (hfits _ rfl)
  · obtain ⟨r, he, hr, -⟩ := edit_sound (e := .step (.pageUp (linesHeight rows))) h.sound trivial
    rw [he]
    exact hsame rfl (centered_spec hr)
  · obtain ⟨r, he, hr, -⟩ := edit_sound (e := .step (.pageDown (linesHeight rows))) h.sound
      ⟨fun _ => hcount, fun heq => absurd heq (hpage rfl)⟩
    rw [he]
    exact hsame rfl (centered_spec hr)
  · obtain ⟨r, he, hr, hview⟩ := move_spec (e := .step .lineStart) h trivial
      fun t ht => by rw [step_moves .lineStart t ht]
    rw [he]
    exact hsame rfl (changed_spec hr hview)
  · obtain ⟨r, he, hr, hview⟩ := move_spec (e := .step .lineEnd) h trivial
      fun t ht => by rw [step_moves .lineEnd t ht]
    rw [he]
    exact hsame rfl (changed_spec hr hview)
  · exact adjusted_treated hrows h hstate trivial (hfits _ rfl)
  · exact adjusted_treated hrows h hstate trivial (hfits _ rfl)
  · exact adjusted_treated hrows h hstate trivial (hfits _ rfl)
  · refine ⟨ed, rfl, h, by rw [hstate]; exact State.noConfusion, ?_⟩
    intro hm
    unfold moving at hm
    split at hm
    all_goals first
      | exact (Bool.false_ne_true hm).elim
      | contradiction
      | exact (‹∀ c : Char, Event.char _ = Event.char c → False› _ rfl).elim

theorem select_event (h : Inv L ed) {origin : Nat} (hstate : ed.state = .select origin)
    (event : Event) :
    ∃ ed', ed.treatSelectEvent L.toBreaks origin event = some ed' ∧ Inv L ed' := by
  unfold treatSelectEvent
  split
  · rename_i x y
    obtain ⟨ed', hmoved, hsteady, hsame⟩ := movedAt_spec h.toSteady x y
    refine ⟨ed'.selectTo origin, ?_, ⟨hsteady.sound, hsteady.view⟩, ?_⟩
    · rw [hmoved]
      rfl
    · intro hselected
      exact nomatch (hsame.trans hstate).symm.trans hselected
  · rename_i x y
    obtain ⟨ed', hmoved, hsteady, -⟩ := movedAt_spec h.toSteady x y
    rw [hmoved]
    simp only [Option.bind_eq_bind, Option.bind_some]
    split
    · exact ⟨_, rfl, ⟨hsteady.sound, hsteady.view⟩, fun _ => ⟨_, _, rfl, min_le_max⟩⟩
    · exact ⟨_, rfl, ⟨hsteady.sound, hsteady.view⟩, nofun⟩
  · exact ⟨ed, rfl, h⟩

theorem prompt_event (h : Inv L ed) (prompt message : List Char) (saveError : Option (List Char))
    (event : Event) :
    ∃ ed', ed.treatPromptEvent prompt message saveError event = some ed' ∧ Inv L ed' := by
  cases event with
  | char c =>
    by_cases hc : c = '\n'
    · subst hc
      cases saveError with
      | some msg => exact ⟨_, rfl, ⟨h.sound, h.view⟩, nofun⟩
      | none => exact ⟨_, rfl, ⟨h.sound, h.view⟩, nofun⟩
    · exact ⟨_, if_neg hc, ⟨h.sound, h.view⟩, nofun⟩
  | ctrl c =>
    by_cases hc : c = 'q'
    · exact ⟨_, if_pos hc, ⟨h.sound, h.view⟩, nofun⟩
    · exact ⟨ed, if_neg hc, h⟩
  | esc => exact ⟨_, rfl, ⟨h.sound, h.view⟩, nofun⟩
  | backspace => exact ⟨_, rfl, ⟨h.sound, h.view⟩, nofun⟩
  | delete => exact ⟨_, rfl, ⟨h.sound, h.view⟩, nofun⟩
  | _ => exact ⟨ed, rfl, h⟩

/-- A selection is deleted or left, and what is typed then goes to the text. -/
theorem selected_event (hrows : 3 ≤ rows) (h : Inv L ed) (hstate : ed.state = .selected)
    (clipboard : List Char) (event : Event) (hc : ed.Harmless L.toBreaks rows event) :
    ∃ ed', ed.treatSelectedEvent L.toBreaks rows clipboard event = some ed' ∧ Inv L ed' ∧
      ((ed.adjusting L.toBreaks event).isSome → ed'.InView L.toBreaks rows) := by
  obtain ⟨beg, stop, hsel, hle⟩ := h.sel hstate
  have hselected : ed.selected = some (stop - beg + 1) := by
    unfold selected
    rw [hsel]
    simp only [Option.bind_eq_bind, Option.bind_some, checkedSub_of_le hle]
  have hdeleted : ed.adjusting L.toBreaks event = some (ed.deleteSel L.toBreaks) →
      ∃ ed', ed.adjusted L.toBreaks rows (ed.deleteSel L.toBreaks) = some ed' ∧ Steady L ed' ∧
        ed'.InView L.toBreaks rows := by
    intro hadjusting
    obtain ⟨r, hdelete, hr⟩ := deleteSel_spec h.toSteady hsel
    rw [hdelete] at hadjusting ⊢
    obtain ⟨ed', hadjusted, hsteady, hview, -⟩ := adjusted_spec hrows hr (hc.fits_of hadjusting)
    exact ⟨ed', hadjusted, hsteady, hview⟩
  have hadjusting : event = .ctrl 'x' ∨ event = .backspace ∨ event = .delete →
      ed.adjusting L.toBreaks event = some (ed.deleteSel L.toBreaks) := by
    intro hevent
    unfold adjusting
    rw [hstate]
    exact if_pos hevent
  unfold treatSelectedEvent
  split
  · refine ⟨{ ed with sel := none, state := .insert }, ?_, ⟨⟨h.sound, h.view⟩, nofun⟩, ?_⟩
    · rw [hselected]
      rfl
    · intro hadjusts
      unfold adjusting at hadjusts
      rw [hstate] at hadjusts
      exact (Bool.false_ne_true hadjusts).elim
  · obtain ⟨ed', hadjusted, hsteady, hview⟩ := hdeleted (hadjusting (Or.inl rfl))
    refine ⟨{ ed' with sel := none, state := .insert }, ?_, ⟨⟨hsteady.sound, hsteady.view⟩, nofun⟩,
      fun _ => hview⟩
    rw [hselected, hadjusted]
    rfl
  · obtain ⟨ed', hadjusted, hsteady, hview⟩ := hdeleted (hadjusting (Or.inr (Or.inl rfl)))
    refine ⟨{ ed' with sel := none, state := .insert }, ?_, ⟨⟨hsteady.sound, hsteady.view⟩, nofun⟩,
      fun _ => hview⟩
    rw [hadjusted]
    rfl
  · obtain ⟨ed', hadjusted, hsteady, hview⟩ := hdeleted (hadjusting (Or.inr (Or.inr rfl)))
    refine ⟨{ ed' with sel := none, state := .insert }, ?_, ⟨⟨hsteady.sound, hsteady.view⟩, nofun⟩,
      fun _ => hview⟩
    rw [hadjusted]
    rfl
  · rename_i hcut hbackspace hdelete
    have hother : ¬ (event = .ctrl 'x' ∨ event = .backspace ∨ event = .delete) := by
      rintro (heq | heq | heq)
      · exact hcut heq
      · exact hbackspace heq
      · exact hdelete heq
    have hmoving : ed.adjusting L.toBreaks event =
        (moving event).map (ed.recorded.edit L.toBreaks) := by
      unfold adjusting
      rw [hstate]
      exact if_neg hother
    have hinserts : ed.Inserts event := Or.inr (Or.inr ⟨hstate, hother⟩)
    let ed₀ : Editor := { ed with sel := none, state := .insert }
    have hsteady₀ : Steady L ed₀ := ⟨h.sound, h.view⟩
    obtain ⟨ed', htreated, hnew⟩ := insert_event hrows hsteady₀ rfl event clipboard
      (fun e he r hr => hc.fits_of (by rw [hmoving, he, Option.map_some, hr]))
      (hc.lines hinserts) (hc.page hinserts)
    refine ⟨ed', htreated, ⟨hnew.toSteady, fun hs => absurd hs hnew.state⟩, ?_⟩
    rw [hmoving, Option.isSome_map]
    exact hnew.shown

/-- No event panics; the view starts at a line of the text after it, and shows the cursor if it has
been adjusted. -/
theorem treat_event (hrows : 3 ≤ rows) (h : Inv L ed) (input : Input)
    (hc : ed.Harmless L.toBreaks rows input.event) :
    ∃ ed', ed.treatEvent L.toBreaks rows input = some ed' ∧ Inv L ed' ∧
      ((ed.adjusting L.toBreaks input.event).isSome → ed'.InView L.toBreaks rows) := by
  have hinsert : ∀ ed₀ : Editor, ed₀.state = .insert → ed₀.recorded = ed.recorded →
      ed₀.view.lineOffset = ed.view.lineOffset → ed.Inserts input.event →
      ed.adjusting L.toBreaks input.event =
        (moving input.event).map (ed.recorded.edit L.toBreaks) →
      ∃ ed', ed₀.treatInsertEvent L.toBreaks rows input.clipboard input.event = some ed' ∧
        Inv L ed' ∧ ((ed.adjusting L.toBreaks input.event).isSome → ed'.InView L.toBreaks rows) := by
    intro ed₀ hstate hrecorded hoffset hinserts hmoving
    have hcontent : ed₀.content = ed.content := congrArg Recorded.content hrecorded
    have hsteady₀ : Steady L ed₀ := ⟨hrecorded ▸ h.sound, by rw [hoffset, hcontent]; exact h.view⟩
    obtain ⟨ed', htreated, hnew⟩ := insert_event hrows hsteady₀ hstate input.event input.clipboard
      (fun e he r hr line hline => by
        rw [hrecorded] at hr
        have hfits := hc.fits_of (by rw [hmoving, he, Option.map_some, hr]) line hline
        unfold Fits at hfits ⊢
        rw [hoffset]
        exact hfits)
      (by rw [hoffset, hcontent, replayed, hrecorded]; exact hc.lines hinserts)
      (by rw [hcontent]; exact hc.page hinserts)
    refine ⟨ed', htreated, ⟨hnew.toSteady, fun hs => absurd hs hnew.state⟩, ?_⟩
    rw [hmoving, Option.isSome_map]
    exact hnew.shown
  have hquiet : ∀ {o : Option Editor}, ed.adjusting L.toBreaks input.event = none →
      (∃ ed', o = some ed' ∧ Inv L ed') → ∃ ed', o = some ed' ∧ Inv L ed' ∧
        ((ed.adjusting L.toBreaks input.event).isSome → ed'.InView L.toBreaks rows) := by
    rintro o hnone ⟨ed', ho, hinv⟩
    refine ⟨ed', ho, hinv, ?_⟩
    rw [hnone]
    exact nofun
  unfold treatEvent
  cases hstate : ed.state with
  | insert =>
    exact hinsert ed hstate rfl rfl (Or.inl hstate) (by unfold adjusting; rw [hstate])
  | message =>
    exact hinsert _ rfl rfl rfl (Or.inr (Or.inl hstate)) (by unfold adjusting; rw [hstate])
  | prompt prompt message =>
    exact hquiet (by unfold adjusting; rw [hstate]) (prompt_event h _ _ _ _)
  | select origin =>
    exact hquiet (by unfold adjusting; rw [hstate]) (select_event h hstate _)
  | selected => exact selected_event hrows h hstate _ _ hc
  | exit => exact hquiet (by unfold adjusting; rw [hstate]) ⟨ed, rfl, h⟩

theorem isSome_mapM {α β : Type*} {f : α → Option β} {l : List α} (h : ∀ a ∈ l, (f a).isSome) :
    (l.mapM f).isSome := by
  cases l with
  | nil => rfl
  | cons a l =>
    obtain ⟨b, -⟩ := Option.isSome_iff_exists.mp (h a List.mem_cons_self)
    have : Nonempty β := ⟨b⟩
    choose! g hg using fun x (hx : x ∈ a :: l) => Option.isSome_iff_exists.mp (h x hx)
    rw [mapM_some hg]
    rfl

/-- The lines that are looked up are there. -/
theorem Steady.draws (h : Steady L ed) : ed.Draws L.toBreaks rows := by
  have hview : ed.view.lineOffset < ed.content.lineCount L.toBreaks := h.view
  refine ⟨hview, ?_⟩
  unfold View.paintLines
  rw [lineIndex_of_le hview.le, checkedSub_of_le hview.le]
  simp only [Option.bind_eq_bind, Option.bind_some]
  apply isSome_mapM
  intro y hy
  have hlt := List.mem_range.mp hy
  obtain ⟨l, hl, -⟩ := full_line (B := L.toBreaks) (t := ed.content) (i := y + ed.view.lineOffset)
    (by omega)
  rw [hl]
  rfl

/-- In a terminal of three rows at least, every state of the editor can be painted, and after each
command that adjusts the view the cursor is in it; if the events are harmless. -/
theorem view_follows (L : LineEndings) (rows : Nat) (hrows : 3 ≤ rows) (text name : List Char)
    (htext : text ≠ []) (hclosed : L.Closed text) (inputs : List Input)
    (hc : Each (next L.toBreaks rows)
      (fun ed input => ∀ ed' ∈ ed, ed'.Harmless L.toBreaks rows input.event)
      (some (new ⟨0, text⟩ name)) inputs) :
    Throughout (next L.toBreaks rows) (fun ed => ∃ ed', ed = some ed' ∧ ed'.Draws L.toBreaks rows)
      (some (new ⟨0, text⟩ name)) inputs ∧
    Each (next L.toBreaks rows) (fun ed input => ∃ ed₁ ed₂, ed = some ed₁ ∧
        next L.toBreaks rows ed input = some ed₂ ∧
        ((ed₁.adjusting L.toBreaks input.event).isSome → ed₂.InView L.toBreaks rows))
      (some (new ⟨0, text⟩ name)) inputs := by
  let I : Option Editor → Prop := fun ed => ∃ ed', ed = some ed' ∧ Inv L ed'
  have hgood : Text.Good ⟨0, text⟩ := List.length_pos_of_ne_nil htext
  have hfirst : I (some (new ⟨0, text⟩ name)) := by
    refine ⟨_, rfl, ⟨⟨⟨⟨0, text⟩, .new, hgood, rfl, trivial⟩, hclosed⟩, ?_⟩, nofun⟩
    exact one_le_count hgood hclosed
  have hstep : ∀ ed input, I ed →
      (∀ ed' ∈ ed, ed'.Harmless L.toBreaks rows input.event) →
      I (next L.toBreaks rows ed input) := by
    rintro _ input ⟨ed, rfl, hinv⟩ hharmless
    obtain ⟨ed', htreated, hinv', -⟩ := treat_event hrows hinv input (hharmless ed rfl)
    exact ⟨ed', htreated, hinv'⟩
  refine ⟨throughout_of_each hstep ?_ hfirst hc, each_of_each hstep ?_ hfirst hc⟩
  · rintro _ ⟨ed, rfl, hinv⟩
    exact ⟨ed, rfl, hinv.draws⟩
  · rintro _ input ⟨ed, rfl, hinv⟩ hharmless
    obtain ⟨ed', htreated, -, hview⟩ := treat_event hrows hinv input (hharmless ed rfl)
    exact ⟨ed, ed', rfl, htreated, hview⟩

end Editor

theorem length_newlineLines (text : List Char) :
    (newlineLines text).length = text.count '\n' + 1 := by
  induction text with
  | nil => rfl
  | cons c cs ih =>
    unfold newlineLines
    split
    · rename_i hc
      rw [hc, List.count_cons_self, List.length_cons, ih]
    · rename_i hc
      rw [List.count_cons_of_ne hc]
      split
      · exact absurd ‹_› (newlineLines_ne_nil cs)
      · rename_i line lines hlines
        rw [hlines] at ih
        exact ih

/-- The last line is empty if there is a newline in front of it. -/
theorem getLast?_newlineLines (text : List Char) (c : Char) :
    (newlineLines (text ++ [c])).getLast? = some [] ↔ c = '\n' := by
  induction text with
  | nil =>
    show (newlineLines [c]).getLast? = some [] ↔ _
    unfold newlineLines
    split
    · rename_i hc
      exact iff_of_true rfl hc
    · rename_i hc
      refine iff_of_false (fun h => ?_) hc
      cases Option.some.inj h
  | cons d ds ih =>
    rw [List.cons_append]
    have hne := newlineLines_ne_nil (ds ++ [c])
    unfold newlineLines
    split
    · rw [List.getLast?_cons_of_ne_nil hne]
      exact ih
    · split
      · exact absurd ‹_› hne
      · rename_i line lines hlines
        rw [hlines] at ih
        cases lines with
        | nil =>
          have hline : line = ds ++ [c] := by
            have hflatten := flatten_newlineLines (ds ++ [c])
            rw [hlines, List.flatten_cons, List.flatten_nil, List.append_nil] at hflatten
            exact hflatten
          have hnot : c ≠ '\n' := by
            intro hc
            have hempty := Option.some.inj (ih.mpr hc)
            rw [hline] at hempty
            exact absurd hempty (List.append_ne_nil_of_right_ne_nil _ (List.cons_ne_nil _ _))
          exact iff_of_false (fun h => nomatch Option.some.inj h) hnot
        | cons next lines =>
          rw [List.getLast?_cons_of_ne_nil (List.cons_ne_nil _ _)] at ih ⊢
          exact ih

theorem closed_newline (text : List Char) (c : Char) :
    Breaks.newline.Closed (text ++ [c]) ↔ (c == '\n') = true := by
  rw [beq_iff_eq, ← getLast?_newlineLines text c, List.getLast?_eq_getElem?]
  let lines := newlineLines (text ++ [c])
  let count := Breaks.newline.lineEndingCount (text ++ [c])
  have hlen : lines.length = count + 1 := length_lines .newline (text ++ [c])
  have hl : lines[count]? = some lines[count] := List.getElem?_eq_getElem (by omega)
  have hend : start lines (count + 1) = start lines count + lines[count].length := start_succ hl
  have hall : start lines (count + 1) = (text ++ [c]).length := by
    rw [start, ← hlen, List.take_length, flatten_newlineLines]
  show start lines count = (text ++ [c]).length ↔ lines[count]? = some []
  rw [hl, Option.some.injEq, ← List.length_eq_zero_iff]
  omega

def LineEndings.newline : LineEndings where
  toBreaks := .newline
  final := (· == '\n')
  closed_iff := closed_newline
  grows pre s post := by
    show (newlineLines _).length - 1 ≤ (newlineLines _).length - 1
    rw [length_newlineLines, length_newlineLines, List.count_append, List.count_append,
      List.count_append]
    omega

namespace Editor

def key (event : Event) : Input := ⟨event, [], none⟩

/-- Lines are typed, left, taken back and selected, in a terminal of four rows. -/
theorem view_follows_abc :
    let inputs := [key (.char 'a'), key (.char '\n'), key (.char 'b'), key .up, key .wheelDown,
      key (.ctrl 'z'), key .pageUp, key .pageDown, key (.press 4 1), key (.hold 4 2),
      key (.release 5 2), key .delete, key (.ctrl 'z'), key (.ctrl 's'), key (.char '\n'), key .left]
    let first := some (new ⟨0, "x\ny\nz\n".toList⟩ "f".toList)
    Throughout (next .newline 4) (fun ed => ∃ ed', ed = some ed' ∧ ed'.Draws .newline 4) first inputs ∧
    Each (next .newline 4) (fun ed input => ∃ ed₁ ed₂, ed = some ed₁ ∧
        next .newline 4 ed input = some ed₂ ∧
        ((ed₁.adjusting .newline input.event).isSome → ed₂.InView .newline 4))
      first inputs :=
  view_follows .newline 4 (by decide) _ _ (by decide)
    ((closed_newline ['x', '\n', 'y', '\n', 'z'] '\n').mpr rfl) _ (by decide +kernel)

/-- Three line ends are typed in a terminal of three rows, and taken back. -/
theorem undo_leaves_view_behind :
    let inputs := [key (.char '\n'), key (.char '\n'), key (.char '\n'), key (.ctrl 'z')]
    ¬ Throughout (next .newline 3) (fun ed => ∃ ed', ed = some ed' ∧ ed'.Draws .newline 3)
      (some (new ⟨0, ['\n']⟩ [])) inputs := by
  intro inputs h
  obtain ⟨ed', hed, hdraws, -⟩ := h.last
  have hbehind : (inputs.foldl (next .newline 3) (some (new ⟨0, ['\n']⟩ []))).map
      (fun ed => (ed.view.lineOffset, ed.content.lineCount .newline)) = some (3, 1) := by
    decide +kernel
  rw [hed] at hbehind
  obtain ⟨hoffset, hcount⟩ := Prod.mk.inj (Option.some.inj hbehind)
  omega

end Editor

end Origel.Smith
