import Mathlib.Data.List.Basic
import Origel.Smith.Text

/-! The history of a text, by which edits are undone and redone. -/
namespace Origel.Smith

open Origel.Lib

inductive Action where
  | insert (s : List Char)
  | insertForward (s : List Char)
  | delete (s : List Char)
  | move (rel : Int)
  | deleteForward (s : List Char)
  deriving DecidableEq, Repr

inductive Kind where
  | insert | insertForward | delete | move | deleteForward
  deriving DecidableEq, Repr

namespace Action

/-- What `eq` looks at. -/
def kind : Action → Kind
  | .insert _ => .insert
  | .insertForward _ => .insertForward
  | .delete _ => .delete
  | .move _ => .move
  | .deleteForward _ => .deleteForward

/-- A position below zero is beyond every text when it is cast to `usize`. -/
def apply (content : Text) : Action → Option Text
  | .insert s => s.foldlM Text.insert content
  | .delete s => s.foldlM (fun content _ => content.delete.map Prod.fst) content
  | .move rel =>
    let new_position := rel + content.pos
    if 0 ≤ new_position then content.moveTo new_position.toNat else none
  | .deleteForward s => s.foldlM (fun content _ => content.deleteForward.map Prod.fst) content
  | .insertForward s => s.foldlM Text.insertForward content

def invert : Action → Action
  | .insert s => .delete s
  | .delete s => .insert s
  | .move rel => .move (-rel)
  | .insertForward s => .deleteForward s
  | .deleteForward s => .insertForward s

/-- It panics for actions that are not alike. -/
def join : Action → Action → Option Action
  | .insert s, .insert act => some (.insert (s ++ act))
  | .insertForward s, .insertForward act => some (.insertForward (s ++ act))
  | .delete s, .delete act => some (.delete (act ++ s))
  | .deleteForward s, .deleteForward act => some (.deleteForward (act ++ s))
  | .move rel, .move act => some (.move (rel + act))
  | _, _ => none

end Action

/-- `history` and `undone` start with the most recent action. Their limits are not reached. -/
structure Recorded where
  content : Text
  history : List Action
  undone : List Action
  deriving DecidableEq, Repr

namespace Recorded

def new (content : Text) : Recorded := ⟨content, [], []⟩

/-- Similar actions are joined together. -/
def push (history : List Action) (act : Action) : Option (List Action) :=
  match history with
  | a :: rest => if a.kind = act.kind then (a.join act).map (· :: rest) else some (act :: history)
  | [] => some [act]

def record (r : Recorded) (act : Action) : Option Recorded := do
  let history ← push r.history act
  some { r with history, undone := [] }

def undo (r : Recorded) : Option Recorded :=
  match r.history with
  | [] => some r
  | a :: history => do
    let content ← a.invert.apply r.content
    some ⟨content, history, a :: r.undone⟩

def redo (r : Recorded) : Option Recorded :=
  match r.undone with
  | [] => some r
  | a :: undone => do
    let content ← a.apply r.content
    some ⟨content, a :: r.history, undone⟩

/-- A movement is recorded by how far it goes. -/
def moved (r : Recorded) (content : Option Text) : Option Recorded := do
  let content ← content
  record { r with content } (.move (content.pos - r.content.pos))

/-- A deletion is recorded if there was a character to delete. -/
def deleted (r : Recorded) (act : List Char → Action) (result : Option (Text × Option Char)) :
    Option Recorded := do
  let (content, c) ← result
  match c with
  | some c => record { r with content } (act [c])
  | none => some { r with content }

def edit (B : Breaks) (r : Recorded) : Edit → Option Recorded
  | .step mov => r.moved (r.content.step B mov)
  | .moveTo pos => r.moved (r.content.moveTo pos)
  | .moveAt line col => r.moved (r.content.moveAt B line col)
  | .insert c => do
    let r ← r.record (.insert [c])
    let content ← r.content.insert c
    some { r with content }
  | .insertForward c => do
    let r ← r.record (.insertForward [c])
    let content ← r.content.insertForward c
    some { r with content }
  | .delete => r.deleted .delete r.content.delete
  | .deleteForward => r.deleted .deleteForward r.content.deleteForward

end Recorded

inductive Op where
  | edit (e : Edit)
  | undo
  | redo
  deriving DecidableEq, Repr

def Recorded.exec (B : Breaks) (r : Recorded) : Op → Option Recorded
  | .edit e => r.edit B e
  | .undo => r.undo
  | .redo => r.redo

/-! What the history is to remember: groups of edits of one kind that follow each other. -/

/-- The text and position before the first edit of a group. -/
structure Group where
  kind : Kind
  before : Text
  deriving DecidableEq, Repr

structure Groups where
  done : List Group
  ahead : List Group
  deriving DecidableEq, Repr

/-- The kind of an edit that is recorded. A deletion without a character to delete is not. -/
def recordedKind (t : Text) : Edit → Option Kind
  | .step _ | .moveTo _ | .moveAt _ _ => some .move
  | .insert _ => some .insert
  | .insertForward _ => some .insertForward
  | .delete => if t.pos = 0 then none else some .delete
  | .deleteForward => if t.pos + 1 < t.len then some .deleteForward else none

namespace Groups

def new : Groups := ⟨[], []⟩

/-- An edit of the kind of the last group belongs to that group. -/
def add (g : Groups) (t : Text) (kind : Kind) : Groups :=
  match g.done with
  | group :: _ => if group.kind = kind then ⟨g.done, []⟩ else ⟨⟨kind, t⟩ :: g.done, []⟩
  | [] => ⟨[⟨kind, t⟩], []⟩

def next (g : Groups) (t : Text) : Op → Groups
  | .edit e => (recordedKind t e).elim g (g.add t)
  | .undo =>
    match g.done with
    | [] => g
    | group :: done => ⟨done, group :: g.ahead⟩
  | .redo =>
    match g.ahead with
    | [] => g
    | group :: ahead => ⟨group :: g.done, ahead⟩

end Groups

/-- A run, with the groups that it makes. After a call that panics there is no editor. -/
structure Session where
  recorded : Option Recorded
  groups : Groups

namespace Session

def new (content : Text) : Session := ⟨some (.new content), .new⟩

def next (B : Breaks) (s : Session) (op : Op) : Session :=
  match s.recorded with
  | some r => ⟨r.exec B op, s.groups.next r.content op⟩
  | none => s

/-- An edit does not panic, and the cursor stays below the length of the text. -/
def EditLands (B : Breaks) (s : Session) : Op → Prop
  | .edit e => ∀ r, s.recorded = some r → Lands ((r.edit B e).map Recorded.content)
  | _ => True

end Session

instance (B : Breaks) (s : Session) : DecidablePred (s.EditLands B)
  | .edit e =>
    match hr : s.recorded with
    | some r => decidable_of_iff (Lands ((r.edit B e).map Recorded.content))
        ⟨fun h _ hr' => Option.some.inj (hr.symm.trans hr') ▸ h, fun h => h r hr⟩
    | none => .isTrue fun _ hr' => nomatch hr.symm.trans hr'
  | .undo | .redo => .isTrue trivial

/-- As many calls of `undo`. -/
def undoAll : Nat → Recorded → Option Recorded
  | 0, r => some r
  | n + 1, r => r.undo.bind (undoAll n)

/-- Undo and redo of `r` are exact: `first` is what the run has started with. -/
structure Exact (B : Breaks) (first : Text) (r : Recorded) (g : Groups) : Prop where
  /-- Undo goes back to before the last group, and redo undoes that. -/
  undo : ∀ group done, g.done = group :: done →
    ∃ r', r.undo = some r' ∧ r'.content = group.before ∧ r'.redo = some r
  nothing : g.done = [] → r.history = []
  /-- Undone until the history is empty. -/
  all : ∃ r', undoAll r.history.length r = some r' ∧ r'.history = [] ∧ r'.content = first
  redo : ∃ r', r.redo = some r'
  /-- What is recorded empties the redo list. -/
  record : ∀ e kind r', recordedKind r.content e = some kind → r.edit B e = some r' → r'.undone = []

/-- The action leads from one text to the other, and its inverse leads back. -/
structure Action.Leads (a : Action) (t t' : Text) : Prop where
  apply : a.apply t = some t'
  invert : a.invert.apply t' = some t

section Actions

variable {B : Breaks} {t t' t'' : Text} {a b : Action} {c : Char} {s s' : List Char}

/-- A loop that does not look at the characters only counts them. -/
theorem foldlM_count {f : Text → Option Text} (h : s.length = s'.length) :
    s.foldlM (fun t _ => f t) t = s'.foldlM (fun t _ => f t) t := by
  induction s generalizing s' t with
  | nil => rw [List.eq_nil_of_length_eq_zero h.symm]
  | cons c s ih =>
    cases s' with
    | nil => cases h
    | cons c' s' =>
      have htail : ∀ t, s.foldlM (fun t _ => f t) t = s'.foldlM (fun t _ => f t) t :=
        fun t => ih (Nat.succ.inj h)
      rw [List.foldlM_cons, List.foldlM_cons]
      congr 1
      exact funext htail

theorem foldlM_both {f : Text → Char → Option Text} (h : s.foldlM f t = some t')
    (h' : s'.foldlM f t' = some t'') : (s ++ s').foldlM f t = some t'' := by
  rw [List.foldlM_append, h]
  exact h'

theorem foldlM_both_count {f : Text → Option Text} (h : s.foldlM (fun t _ => f t) t = some t')
    (h' : s'.foldlM (fun t _ => f t) t' = some t'') :
    (s' ++ s).foldlM (fun t _ => f t) t = some t'' := by
  have hswap : (s' ++ s).length = (s ++ s').length := by
    rw [List.length_append, List.length_append, Nat.add_comm]
  rw [foldlM_count hswap]
  exact foldlM_both h h'

theorem apply_move {rel : Int} : (Action.move rel).apply t = some t' ↔
    t' = { t with pos := t'.pos } ∧ t'.pos < t.len ∧ rel = t'.pos - t.pos := by
  unfold Action.apply Text.moveTo
  dsimp only
  constructor
  · intro h
    split at h
    · split at h
      · cases h
        refine ⟨rfl, ‹_›, ?_⟩
        dsimp only
        omega
      · cases h
    · cases h
  · rintro ⟨heq, hlt, rfl⟩
    rw [if_pos (by omega)]
    have hpos : (t'.pos - t.pos + t.pos : Int).toNat = t'.pos := by omega
    rw [hpos, if_pos hlt, ← heq]

/-- Two actions of one kind are joined to one that leads all the way. -/
theorem join_leads (h : a.Leads t t') (h' : b.Leads t' t'') (hkind : a.kind = b.kind) :
    ∃ c, a.join b = some c ∧ c.kind = a.kind ∧ c.Leads t t'' := by
  obtain ⟨hdo, hback⟩ := h
  obtain ⟨hdo', hback'⟩ := h'
  cases a with
  | insert s =>
    cases b with
    | insert act => exact ⟨_, rfl, rfl, foldlM_both hdo hdo', foldlM_both_count hback' hback⟩
    | _ => cases hkind
  | insertForward s =>
    cases b with
    | insertForward act => exact ⟨_, rfl, rfl, foldlM_both hdo hdo', foldlM_both_count hback' hback⟩
    | _ => cases hkind
  | delete s =>
    cases b with
    | delete act => exact ⟨_, rfl, rfl, foldlM_both_count hdo hdo', foldlM_both hback' hback⟩
    | _ => cases hkind
  | deleteForward s =>
    cases b with
    | deleteForward act => exact ⟨_, rfl, rfl, foldlM_both_count hdo hdo', foldlM_both hback' hback⟩
    | _ => cases hkind
  | move rel =>
    cases b with
    | move act =>
      obtain ⟨heq, -, hrel⟩ := apply_move.mp hdo
      obtain ⟨heq', hlt', hrel'⟩ := apply_move.mp hdo'
      obtain ⟨hback_eq, hback_lt, -⟩ := apply_move.mp hback
      refine ⟨_, rfl, rfl, apply_move.mpr ⟨?_, ?_, by omega⟩, apply_move.mpr ⟨?_, ?_, by omega⟩⟩
      · rw [heq', heq]
      · rw [heq] at hlt'
        exact hlt'
      · rw [heq', heq]
      · rw [heq'] at *
        rw [heq] at hback_lt ⊢
        exact hback_lt
    | _ => cases hkind

/-- A movement changes nothing but the position. -/
def Moves (t : Text) (result : Option Text) : Prop :=
  ∀ t', result = some t' → t' = { t with pos := t'.pos }

theorem moves_some {pos : Nat} : Moves t (some { t with pos }) := by
  rintro _ ⟨rfl⟩
  rfl

theorem moves_self : Moves t (some t) := moves_some

theorem moves_bind {α : Type*} {o : Option α} {f : α → Option Text} (h : ∀ a, Moves t (f a)) :
    Moves t (o.bind f) := by
  intro t' ht'
  obtain ⟨a, -, ha⟩ := Option.bind_eq_some_iff.mp ht'
  exact h a t' ha

theorem step_moves (mov : Movement) : Moves t (t.step B mov) := by
  cases mov with
  | up =>
    refine moves_bind fun _ => ?_
    split
    · exact moves_bind fun _ => moves_bind fun _ => moves_bind fun _ => moves_bind fun _ => moves_some
    · exact moves_self
  | down =>
    refine moves_bind fun _ => moves_bind fun _ => ?_
    split
    · exact moves_bind fun _ => moves_bind fun _ => moves_bind fun _ => moves_bind fun _ => moves_some
    · exact moves_self
  | left =>
    show Moves t (some _)
    split
    · exact moves_some
    · exact moves_self
  | right =>
    refine moves_bind fun _ => ?_
    split
    · exact moves_some
    · exact moves_self
  | lineStart => exact moves_bind fun _ => moves_bind fun _ => moves_some
  | lineEnd =>
    exact moves_bind fun _ => moves_bind fun _ => moves_bind fun _ => moves_bind fun _ => moves_some
  | pageUp up => exact moves_bind fun _ => moves_bind fun _ => moves_some
  | pageDown down =>
    refine moves_bind fun _ => moves_bind fun _ => ?_
    dsimp only
    split
    · exact moves_bind fun _ => moves_bind fun _ => moves_some
    · exact moves_bind fun _ => moves_bind fun _ => moves_some

theorem moveTo_moves (pos : Nat) : Moves t (t.moveTo pos) := by
  unfold Text.moveTo
  split
  · exact moves_some
  · intro _ h
    cases h

theorem moveAt_moves (line col : Nat) : Moves t (t.moveAt B line col) :=
  moves_bind fun _ => moves_bind fun _ => moves_bind fun _ => moves_bind fun _ => moves_some

theorem move_leads (h : t.Good) (h' : t'.Good) (heq : t' = { t with pos := t'.pos }) :
    (Action.move (t'.pos - t.pos)).Leads t t' := by
  have hlen : t'.text = t.text := by rw [heq]
  refine ⟨apply_move.mpr ⟨heq, ?_, rfl⟩, apply_move.mpr ⟨?_, ?_, by omega⟩⟩
  · show t'.pos < t.text.length
    rw [← hlen]
    exact h'
  · rw [heq]
  · show t.pos < t'.text.length
    rw [hlen]
    exact h

theorem take_append_pos {r : List Char} (h : t.pos ≤ t.text.length) :
    (t.text.take t.pos ++ r).take t.pos = t.text.take t.pos := by
  have hlen : (t.text.take t.pos).length = t.pos := List.length_take_of_le h
  rw [List.take_append_of_le_length hlen.ge, List.take_take, min_self]

theorem drop_append_pos {r : List Char} (h : t.pos ≤ t.text.length) (n : Nat) :
    (t.text.take t.pos ++ r).drop (t.pos + n) = r.drop n := by
  have hlen : (t.text.take t.pos).length = t.pos := List.length_take_of_le h
  rw [← List.drop_drop, List.drop_left' hlen]

theorem insert_leads (h : t.Good) (hins : t.insert c = some t') : (Action.insert [c]).Leads t t' := by
  have hpos : t.pos < t.text.length := h
  refine ⟨by rw [Action.apply, List.foldlM_cons, hins]; rfl, ?_⟩
  rw [insert_eq h] at hins
  cases hins
  have hlen := length_inserted (c := c) h
  have hgood : Text.Good ⟨t.pos + 1, t.text.take t.pos ++ [c] ++ t.text.drop t.pos⟩ := by
    show t.pos + 1 < _
    rw [hlen]
    omega
  obtain ⟨ch, -, hdel⟩ := delete_eq hgood (Nat.succ_ne_zero _)
  show (Text.delete _).map Prod.fst >>= _ = some t
  rw [hdel]
  show some (Text.mk _ _) = some t
  congr 1
  rw [Text.mk.injEq]
  refine ⟨rfl, ?_⟩
  simp only [Nat.add_sub_cancel, List.append_assoc]
  rw [take_append_pos hpos.le, drop_append_pos hpos.le]
  exact List.take_append_drop ..

theorem insertForward_leads (h : t.Good) (hins : t.insertForward c = some t') :
    (Action.insertForward [c]).Leads t t' := by
  have hpos : t.pos < t.text.length := h
  refine ⟨by rw [Action.apply, List.foldlM_cons, hins]; rfl, ?_⟩
  rw [insertForward_eq h] at hins
  cases hins
  have hlen := length_inserted (c := c) h
  obtain ⟨ch, -, hdel⟩ := deleteForward_eq
    (t := ⟨t.pos, t.text.take t.pos ++ [c] ++ t.text.drop t.pos⟩)
    (by show t.pos + 1 < _; rw [hlen]; omega)
  show (Text.deleteForward _).map Prod.fst >>= _ = some t
  rw [hdel]
  show some (Text.mk _ _) = some t
  congr 1
  rw [Text.mk.injEq]
  refine ⟨rfl, ?_⟩
  simp only [List.append_assoc]
  rw [take_append_pos hpos.le, drop_append_pos hpos.le]
  exact List.take_append_drop ..

/-- A character that is taken out and put back. -/
theorem take_cons_drop {text : List Char} {pos : Nat} (h : text[pos]? = some c) :
    text.take pos ++ [c] ++ text.drop (pos + 1) = text := by
  obtain ⟨hlt, hc⟩ := List.getElem?_eq_some_iff.mp h
  rw [List.append_assoc, ← hc, List.singleton_append, ← List.drop_eq_getElem_cons hlt,
    List.take_append_drop]

theorem delete_leads (h : t.Good) (hdel : t.delete = some (t', some c)) :
    (Action.delete [c]).Leads t t' := by
  have hlt : t.pos < t.text.length := h
  refine ⟨by rw [Action.apply, List.foldlM_cons, hdel]; rfl, ?_⟩
  have hpos : t.pos ≠ 0 := by
    intro hzero
    rw [delete_first hzero] at hdel
    cases hdel
  obtain ⟨ch, hch, heq⟩ := delete_eq h hpos
  rw [heq] at hdel
  cases hdel
  have hgood : Text.Good
      ⟨t.pos - 1, t.text.take (t.pos - 1) ++ t.text.drop (t.pos - 1 + 1)⟩ := by
    show t.pos - 1 < _
    rw [length_removed (by omega)]
    omega
  show Text.insert _ c >>= _ = some t
  rw [insert_eq hgood]
  show some (Text.mk _ _) = some t
  congr 1
  rw [Text.mk.injEq]
  refine ⟨Nat.sub_add_cancel (Nat.pos_of_ne_zero hpos), ?_⟩
  have hput := take_cons_drop hch
  have htake := take_append_pos (t := ⟨t.pos - 1, t.text⟩)
    (r := t.text.drop (t.pos - 1 + 1)) (show t.pos - 1 ≤ t.text.length by omega)
  have hdrop := drop_append_pos (t := ⟨t.pos - 1, t.text⟩)
    (r := t.text.drop (t.pos - 1 + 1)) (show t.pos - 1 ≤ t.text.length by omega) 0
  dsimp only at htake hdrop ⊢
  rw [Nat.add_zero, List.drop_zero] at hdrop
  rw [htake, hdrop]
  exact hput

theorem deleteForward_leads (h : t.Good) (hdel : t.deleteForward = some (t', some c)) :
    (Action.deleteForward [c]).Leads t t' := by
  have hlt : t.pos < t.text.length := h
  refine ⟨by rw [Action.apply, List.foldlM_cons, hdel]; rfl, ?_⟩
  have hlast : t.pos + 1 < t.text.length := by
    by_contra hlast
    rw [deleteForward_last h hlast] at hdel
    cases hdel
  obtain ⟨ch, hch, heq⟩ := deleteForward_eq hlast
  rw [heq] at hdel
  cases hdel
  have hgood : Text.Good ⟨t.pos, t.text.take t.pos ++ t.text.drop (t.pos + 1)⟩ := by
    show t.pos < _
    rw [length_removed hlt]
    omega
  show Text.insertForward _ c >>= _ = some t
  rw [insertForward_eq hgood]
  show some (Text.mk _ _) = some t
  congr 1
  rw [Text.mk.injEq]
  refine ⟨rfl, ?_⟩
  have hdrop := drop_append_pos (r := t.text.drop (t.pos + 1)) hlt.le 0
  dsimp only
  rw [Nat.add_zero, List.drop_zero] at hdrop
  rw [take_append_pos hlt.le, hdrop]
  exact take_cons_drop hch

end Actions

/-- The actions lead back over the groups to the text `first`. -/
def Behind (first : Text) : Text → List Action → List Group → Prop
  | t, [], [] => t = first
  | t, a :: history, group :: done =>
    a.kind = group.kind ∧ a.Leads group.before t ∧ group.before.Good ∧
      Behind first group.before history done
  | _, _, _ => False

/-- The actions that are undone lead on. -/
def Ahead : Text → List Action → List Group → Prop
  | _, [], [] => True
  | t, a :: undone, group :: ahead =>
    a.kind = group.kind ∧ group.before = t ∧ ∃ t', a.Leads t t' ∧ t'.Good ∧ Ahead t' undone ahead
  | _, _, _ => False

/-- The two lists of actions lead from the text to all that were before a group. -/
structure Remembers (first : Text) (r : Recorded) (g : Groups) : Prop where
  good : r.content.Good
  behind : Behind first r.content r.history g.done
  ahead : Ahead r.content r.undone g.ahead

section Runs

variable {B : Breaks} {first : Text} {r r' : Recorded} {g : Groups} {act : Action} {e : Edit}
  {op : Op}

/-- What `record` makes of the history. -/
theorem record_cases (h : r.record act = some r') :
    r'.content = r.content ∧ r'.undone = [] ∧
    ((r.history = [] ∧ r'.history = [act]) ∨
      ∃ a rest, r.history = a :: rest ∧
        ((a.kind = act.kind ∧ ∃ b, a.join act = some b ∧ r'.history = b :: rest) ∨
          (a.kind ≠ act.kind ∧ r'.history = act :: a :: rest))) := by
  obtain ⟨history, hhistory, heq⟩ := Option.bind_eq_some_iff.mp h
  cases heq
  refine ⟨rfl, rfl, ?_⟩
  unfold Recorded.push at hhistory
  cases hr : r.history with
  | nil =>
    rw [hr] at hhistory
    cases hhistory
    exact Or.inl ⟨rfl, rfl⟩
  | cons a rest =>
    rw [hr] at hhistory
    refine Or.inr ⟨a, rest, rfl, ?_⟩
    dsimp only at hhistory
    split at hhistory
    · rename_i hkind
      obtain ⟨b, hb, rfl⟩ := Option.map_eq_some_iff.mp hhistory
      exact Or.inl ⟨hkind, b, hb, rfl⟩
    · rename_i hkind
      cases hhistory
      exact Or.inr ⟨hkind, rfl⟩

/-- What is recorded does not depend on the text. -/
theorem record_content {t : Text} (h : r.record act = some r') :
    ({ r with content := t } : Recorded).record act = some { r' with content := t } := by
  obtain ⟨history, hhistory, heq⟩ := Option.bind_eq_some_iff.mp h
  cases heq
  exact Option.bind_eq_some_iff.mpr ⟨history, hhistory, rfl⟩

/-- An edit records the action that it is, or does nothing. -/
theorem edit_records (h : r.content.Good) (he : r.edit B e = some r') :
    (recordedKind r.content e = none ∧ r' = r) ∨
    ∃ act, recordedKind r.content e = some act.kind ∧
      ({ r with content := r'.content } : Recorded).record act = some r' ∧
      (r'.content.Good → act.Leads r.content r'.content) := by
  have hmoved : ∀ {o : Option Text}, Moves r.content o → r.moved o = some r' →
      ∃ act, Kind.move = act.kind ∧
        ({ r with content := r'.content } : Recorded).record act = some r' ∧
        (r'.content.Good → act.Leads r.content r'.content) := by
    intro o hmoves ho
    obtain ⟨t, rfl, hrecord⟩ := Option.bind_eq_some_iff.mp ho
    obtain ⟨hcontent, -⟩ := record_cases hrecord
    rw [hcontent]
    exact ⟨_, rfl, hrecord, fun h' => move_leads h h' (hmoves t rfl)⟩
  cases e with
  | step mov =>
    obtain ⟨act, hkind, hrest⟩ := hmoved (step_moves mov) he
    exact Or.inr ⟨act, congrArg some hkind, hrest⟩
  | moveTo pos =>
    obtain ⟨act, hkind, hrest⟩ := hmoved (moveTo_moves pos) he
    exact Or.inr ⟨act, congrArg some hkind, hrest⟩
  | moveAt line col =>
    obtain ⟨act, hkind, hrest⟩ := hmoved (moveAt_moves line col) he
    exact Or.inr ⟨act, congrArg some hkind, hrest⟩
  | insert c =>
    obtain ⟨r₁, hrecord, hrest⟩ := Option.bind_eq_some_iff.mp he
    obtain ⟨t, hins, heq⟩ := Option.bind_eq_some_iff.mp hrest
    cases heq
    obtain ⟨hcontent, -⟩ := record_cases hrecord
    rw [hcontent] at hins
    exact Or.inr ⟨.insert [c], rfl, record_content hrecord, fun _ => insert_leads h hins⟩
  | insertForward c =>
    obtain ⟨r₁, hrecord, hrest⟩ := Option.bind_eq_some_iff.mp he
    obtain ⟨t, hins, heq⟩ := Option.bind_eq_some_iff.mp hrest
    cases heq
    obtain ⟨hcontent, -⟩ := record_cases hrecord
    rw [hcontent] at hins
    exact Or.inr ⟨.insertForward [c], rfl, record_content hrecord,
      fun _ => insertForward_leads h hins⟩
  | delete =>
    obtain ⟨⟨t, c⟩, hdel, hrecord⟩ := Option.bind_eq_some_iff.mp he
    by_cases hpos : r.content.pos = 0
    · rw [delete_first hpos] at hdel
      cases hdel
      cases hrecord
      exact Or.inl ⟨if_pos hpos, rfl⟩
    · obtain ⟨ch, -, heq⟩ := delete_eq h hpos
      obtain rfl : c = some ch := by
        rw [heq] at hdel
        exact (Prod.ext_iff.mp (Option.some.inj hdel)).2.symm
      obtain ⟨hcontent, -⟩ := record_cases hrecord
      rw [hcontent]
      exact Or.inr ⟨.delete [ch], if_neg hpos, hrecord, fun _ => delete_leads h hdel⟩
  | deleteForward =>
    obtain ⟨⟨t, c⟩, hdel, hrecord⟩ := Option.bind_eq_some_iff.mp he
    by_cases hlast : r.content.pos + 1 < r.content.text.length
    · obtain ⟨ch, -, heq⟩ := deleteForward_eq hlast
      obtain rfl : c = some ch := by
        rw [heq] at hdel
        exact (Prod.ext_iff.mp (Option.some.inj hdel)).2.symm
      obtain ⟨hcontent, -⟩ := record_cases hrecord
      rw [hcontent]
      exact Or.inr ⟨.deleteForward [ch], if_pos hlast, hrecord, fun _ => deleteForward_leads h hdel⟩
    · rw [deleteForward_last h hlast] at hdel
      cases hdel
      cases hrecord
      exact Or.inl ⟨if_neg hlast, rfl⟩

theorem Remembers.edit (h : Remembers first r g) (he : r.edit B e = some r')
    (h' : r'.content.Good) : Remembers first r' (g.next r.content (.edit e)) := by
  obtain ⟨hkind, rfl⟩ | ⟨act, hkind, hrecord, hleads⟩ := edit_records h.good he
  · rw [Groups.next, hkind]
    exact h
  · rw [Groups.next, hkind]
    obtain ⟨-, hundone, hhistory⟩ := record_cases hrecord
    have hbehind := h.behind
    have hnew := hleads h'
    show Remembers first r' (g.add r.content act.kind)
    unfold Groups.add
    obtain ⟨hnil, hone⟩ | ⟨a, rest, hcons, hlast⟩ := hhistory
    · rw [show r.history = [] from hnil] at hbehind
      cases hdone : g.done with
      | nil =>
        rw [hdone] at hbehind
        refine ⟨h', ?_, by rw [hundone]; trivial⟩
        rw [hone]
        exact ⟨rfl, hnew, h.good, hbehind⟩
      | cons group done =>
        rw [hdone] at hbehind
        exact hbehind.elim
    · rw [show r.history = a :: rest from hcons] at hbehind
      cases hdone : g.done with
      | nil =>
        rw [hdone] at hbehind
        exact hbehind.elim
      | cons group done =>
        rw [hdone] at hbehind
        obtain ⟨hgroup, hold, hgood, hrest⟩ := hbehind
        dsimp only
        obtain ⟨hsame, b, hjoin, hhistory⟩ | ⟨hdiff, hhistory⟩ := hlast
        · obtain ⟨c, hc, hckind, hcleads⟩ := join_leads hold hnew hsame
          rw [hjoin] at hc
          cases hc
          rw [if_pos (hgroup.symm.trans hsame)]
          refine ⟨h', ?_, by rw [hundone]; trivial⟩
          rw [hhistory]
          exact ⟨hckind.trans hgroup, hcleads, hgood, hrest⟩
        · rw [if_neg fun heq => hdiff (hgroup.trans heq)]
          refine ⟨h', ?_, by rw [hundone]; trivial⟩
          rw [hhistory]
          exact ⟨rfl, hnew, h.good, hgroup, hold, hgood, hrest⟩

/-- Undo takes the last group back. -/
theorem Remembers.undo (h : Remembers first r g) :
    ∃ r', r.undo = some r' ∧ Remembers first r' (g.next r.content .undo) ∧
      (∀ group done, g.done = group :: done → r'.content = group.before ∧ r'.redo = some r) ∧
      r'.history.length = r.history.length - 1 := by
  obtain ⟨hgood, hbehind, hahead⟩ := h
  obtain ⟨content, history, undone⟩ := r
  obtain ⟨done, ahead⟩ := g
  cases history with
  | nil =>
    cases done with
    | nil =>
      refine ⟨⟨content, [], undone⟩, rfl, ⟨hgood, hbehind, hahead⟩, ?_, rfl⟩
      exact fun group done hdone => nomatch hdone
    | cons group done => exact hbehind.elim
  | cons a history =>
    cases done with
    | nil => exact hbehind.elim
    | cons group done =>
      obtain ⟨hkind, hleads, hbefore, hrest⟩ := hbehind
      refine ⟨⟨group.before, history, a :: undone⟩, ?_, ?_, ?_, rfl⟩
      · show (a.invert.apply content).bind _ = _
        rw [hleads.invert]
        rfl
      · exact ⟨hbefore, hrest, hkind, rfl, content, hleads, hgood, hahead⟩
      · rintro group' done' ⟨rfl, rfl⟩
        refine ⟨rfl, ?_⟩
        show (a.apply group.before).bind _ = _
        rw [hleads.apply]
        rfl

theorem Remembers.redo (h : Remembers first r g) :
    ∃ r', r.redo = some r' ∧ Remembers first r' (g.next r.content .redo) := by
  obtain ⟨hgood, hbehind, hahead⟩ := h
  obtain ⟨content, history, undone⟩ := r
  obtain ⟨done, ahead⟩ := g
  cases undone with
  | nil =>
    cases ahead with
    | nil => exact ⟨_, rfl, hgood, hbehind, hahead⟩
    | cons group ahead => exact hahead.elim
  | cons a undone =>
    cases ahead with
    | nil => exact hahead.elim
    | cons group ahead =>
      obtain ⟨hkind, hbefore, t', hleads, hgood', hrest⟩ := hahead
      refine ⟨⟨t', a :: history, undone⟩, ?_, hgood', ⟨hkind, ?_, ?_, ?_⟩, hrest⟩
      · show (a.apply content).bind _ = _
        rw [hleads.apply]
        rfl
      · rw [hbefore]
        exact hleads
      · rw [hbefore]
        exact hgood
      · rw [hbefore]
        exact hbehind

theorem Remembers.undoAll (h : Remembers first r g) :
    ∃ r', Smith.undoAll r.history.length r = some r' ∧ r'.history = [] ∧ r'.content = first := by
  generalize hn : r.history.length = n
  induction n generalizing r g with
  | zero =>
    have hbehind := h.behind
    have hnil := List.eq_nil_of_length_eq_zero hn
    rw [hnil] at hbehind
    refine ⟨r, rfl, hnil, ?_⟩
    cases hdone : g.done with
    | nil =>
      rw [hdone] at hbehind
      exact hbehind
    | cons group done =>
      rw [hdone] at hbehind
      exact hbehind.elim
  | succ n ih =>
    obtain ⟨r₁, hundo, hremembers, -, hlen⟩ := h.undo
    obtain ⟨r', hall, hrest⟩ := ih hremembers (by rw [hlen, hn]; rfl)
    refine ⟨r', ?_, hrest⟩
    rw [Smith.undoAll, hundo]
    exact hall

theorem Remembers.exact (h : Remembers first r g) : Exact B first r g := by
  obtain ⟨r₁, hundo, -, hback, -⟩ := h.undo
  obtain ⟨r₂, hredo, -⟩ := h.redo
  refine ⟨?_, ?_, h.undoAll, ⟨r₂, hredo⟩, ?_⟩
  · intro group done hdone
    exact ⟨r₁, hundo, hback group done hdone⟩
  · intro hdone
    have hbehind := h.behind
    rw [hdone] at hbehind
    cases hhistory : r.history with
    | nil => rfl
    | cons a history =>
      rw [hhistory] at hbehind
      exact hbehind.elim
  · intro e kind r' hkind he
    obtain ⟨hnone, -⟩ | ⟨act, -, hrecord, -⟩ := edit_records h.good he
    · rw [hnone] at hkind
      cases hkind
    · exact (record_cases hrecord).2.1

/-- In every run whose edits do not panic and keep the cursor below the length of the text, undo and
redo are exact. -/
theorem undo_redo_exact (B : Breaks) (content : Text) (ops : List Op) (hgood : content.Good)
    (h : Each (Session.next B) (Session.EditLands B) (.new content) ops) :
    Throughout (Session.next B) (fun s => ∃ r, s.recorded = some r ∧ Exact B content r s.groups)
      (.new content) ops := by
  apply throughout_of_each (I := fun s => ∃ r, s.recorded = some r ∧ Remembers content r s.groups)
    (C := Session.EditLands B)
  · rintro ⟨-, g⟩ op ⟨r, rfl, hr⟩ hop
    cases op with
    | edit e =>
      obtain ⟨t, ht, hgood'⟩ := hop r rfl
      obtain ⟨r', he, rfl⟩ := Option.map_eq_some_iff.mp ht
      exact ⟨r', he, hr.edit he hgood'⟩
    | undo =>
      obtain ⟨r', hundo, hr', -⟩ := hr.undo
      exact ⟨r', hundo, hr'⟩
    | redo =>
      obtain ⟨r', hredo, hr'⟩ := hr.redo
      exact ⟨r', hredo, hr'⟩
  · rintro s ⟨r, hr, hremembers⟩
    exact ⟨r, hr, hremembers.exact⟩
  · exact ⟨_, rfl, hgood, rfl, trivial⟩
  · exact h

/-- Groups of all kinds are undone and redone, and one goes on after an undo. -/
theorem undo_redo_exact_ab :
    let ops : List Op := [.edit (.insert 'a'), .edit (.insert 'b'), .edit (.step .left), .undo, .undo,
      .redo, .edit (.insert 'c'), .edit .delete, .edit (.step .lineStart), .edit .deleteForward,
      .edit (.insertForward 'd'), .undo, .undo, .redo]
    Throughout (Session.next .newline)
      (fun s => ∃ r, s.recorded = some r ∧ Exact .newline .empty r s.groups) (.new .empty) ops :=
  undo_redo_exact .newline .empty _ (by unfold Text.Good; decide) (by decide)

/-- An undo with nothing recorded does nothing, and the redo right after it brings back the edit
that an undo before it took away. -/
theorem redo_after_idle_undo :
    let ops : List Op := [.edit (.insert 'a'), .undo]
    Each (Session.next .newline) (Session.EditLands .newline) (.new .empty)
        (ops ++ [.undo, .redo]) ∧
      ∃ r r', (ops.foldl (Session.next .newline) (.new .empty)).recorded = some r ∧
        r.undo = some r ∧ r.redo = some r' ∧ r'.content ≠ r.content :=
  ⟨by decide, ⟨.empty, [], [.insert ['a']]⟩, ⟨⟨1, ['a', '\n']⟩, [.insert ['a']], []⟩,
    by decide, by decide, by decide, by decide⟩

end Runs

end Origel.Smith
