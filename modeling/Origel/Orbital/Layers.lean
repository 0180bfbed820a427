import Origel.Orbital.Drawing

/-! The windows as layers over each other: where a window is not, it leaves what is under it. -/
namespace Origel.Orbital

open Origel.Lib

namespace Window

variable {w : Window} {o : Outside} {focused : Bool} {px py : Int} {old : UInt32}

/-- Some part of the window, its title bar or its picture, has the point. -/
def Touches (w : Window) (px py : Int) : Prop :=
  (∃ r, w.titleRect = some r ∧ r.Has px py) ∨ ∃ r, w.rect = some r ∧ r.Has px py

theorem act_of_not_touches (h : ¬ w.Touches px py) : w.act o focused px py old = old := by
  unfold act
  split
  next bar r ht hr =>
    have hbar : ¬ bar.Has px py := fun hin => h (.inl ⟨bar, ht, hin⟩)
    have hrect : ¬ r.Has px py := fun hin => h (.inr ⟨r, hr, hin⟩)
    rw [Image.pasted, Rect.paint_of_not_has hrect]
    exact Rect.paint_of_not_has hbar
  · rfl

/-- A title bar is told by its place, its width and its text. -/
theorem titleAct_congr {w' : Window} {bar : Rect} (hx : w'.x = w.x) (hw : w'.width = w.width)
    (ht : w'.title = w.title) : w'.titleAct o bar focused = w.titleAct o bar focused := by
  have hexit : w'.exitLeft = w.exitLeft := by rw [exitLeft, exitLeft, hx, hw]
  have hchars : ∀ cs x px py old,
      charsAct o w' bar focused cs x px py old = charsAct o w bar focused cs x px py old := by
    intro cs
    induction cs with
    | nil => exact fun _ _ _ _ => rfl
    | cons c cs ih =>
      intro x px py old
      rw [charsAct, charsAct, hx, hexit, ih]
  unfold titleAct
  simp only [hchars, hx, hexit, hw, ht]

/-- A window is told by its places, its title and its picture. -/
theorem act_congr {w' : Window} (hx : w'.x = w.x) (hy : w'.y = w.y) (hi : w'.image = w.image)
    (ht : w'.title = w.title) : w'.act o focused = w.act o focused := by
  have hw : w'.width = w.width := by rw [width, width, hi]
  have hh : w'.height = w.height := by rw [height, height, hi]
  have hbar : w'.titleRect = w.titleRect := by rw [titleRect, titleRect, hx, hy, hw, ht]
  have hrect : w'.rect = w.rect := by rw [rect, rect, hx, hy, hw, hh]
  unfold act
  rw [hbar, hrect, hi]
  simp only [titleAct_congr hx hw ht]

/-- What can be seen of a window -/
def plain (w : Window) : Window := { w with async := false, events := [], history := ⟨[], []⟩ }

@[simp] theorem plain_event (e : Event) : (w.event e).plain = w.plain := rfl

theorem act_plain : w.plain.act o focused = w.act o focused := act_congr rfl rfl rfl rfl

theorem touches_plain : w.plain.Touches px py ↔ w.Touches px py := Iff.rfl

/-- Beside its picture a window that is written to looks as before. -/
theorem act_write {r : Rect} (buf : List UInt8) (hr : w.rect = some r) (hnot : ¬ r.Has px py) :
    (w.write buf).1.act o focused px py old = w.act o focused px py old := by
  have hrect : (w.write buf).1.rect = some r := hr
  have hbar : (w.write buf).1.titleRect = w.titleRect := rfl
  have htitle : ∀ bar, (w.write buf).1.titleAct o bar focused = w.titleAct o bar focused :=
    fun _ => titleAct_congr rfl rfl rfl
  unfold act
  rw [hrect, hbar, hr]
  cases w.titleRect with
  | none => rfl
  | some bar =>
    dsimp only
    rw [htitle, Image.pasted, Image.pasted, Rect.paint_of_not_has hnot, Rect.paint_of_not_has hnot]

end Window

namespace OrbitalScheme

variable {o : Outside} {s s' : OrbitalScheme} {px py : Int} {old : UInt32} {id : Nat} {w : Window}
  {focused : Bool} {ids : List Nat}

/-- What can be seen of the window with an id -/
def look (s : OrbitalScheme) (id : Nat) : Option Window := (s.windows.get id).map Window.plain

theorem look_of_get (h : s.windows.get id = some w) : s.look id = some w.plain := by
  rw [look, h]
  rfl

/-- What the window with an id does to what is under it. -/
def layer (o : Outside) (s : OrbitalScheme) (focused : Bool) (id : Nat) : Act := fun px py old =>
  match s.look id with
  | some w => w.act o focused px py old
  | none => old

/-- The windows of a list without the focus, from the last to the first -/
def under (o : Outside) (s : OrbitalScheme) (ids : List Nat) : Act := fun px py old =>
  ids.foldr (fun id old => s.layer o false id px py old) old

/-- The window with an id has the point. -/
def Touched (s : OrbitalScheme) (id : Nat) (px py : Int) : Prop :=
  ∃ w, s.look id = some w ∧ w.Touches px py

/-- The window in front has the point. -/
def FrontTouched (s : OrbitalScheme) (px py : Int) : Prop :=
  ∃ id ∈ s.order.head?, s.Touched id px py

theorem layer_of_not_touched (h : ¬ s.Touched id px py) :
    s.layer o focused id px py old = old := by
  unfold layer
  split
  next w hw => exact Window.act_of_not_touches fun ht => h ⟨w, hw, ht⟩
  · rfl

theorem layer_congr (h : s'.look id = s.look id) : s'.layer o focused id = s.layer o focused id := by
  unfold layer
  rw [h]

theorem touched_congr (h : s'.look id = s.look id) : s'.Touched id px py ↔ s.Touched id px py := by
  unfold Touched
  rw [h]

theorem windowAct_eq (i : Nat) : s.windowAct o (id, i) = s.layer o (i = 0) id := by
  funext px py old
  unfold windowAct layer look
  cases s.windows.get id with
  | none => rfl
  | some w => exact (congrArg (fun act : Act => act px py old) Window.act_plain).symm

/-- Windows behind the first have not the focus. -/
theorem foldr_behind (ids : List Nat) (i : Nat) :
    (ids.zipIdx (i + 1)).foldr (fun e old => s.windowAct o e px py old) old =
      s.under o ids px py old := by
  induction ids generalizing i with
  | nil => rfl
  | cons id ids ih =>
    rw [List.zipIdx_cons, List.foldr_cons, ih, windowAct_eq]
    rfl

theorem windowsAct_cons {rest : List Nat} (h : s.order = id :: rest) :
    s.windowsAct o px py old = s.layer o true id px py (s.under o rest px py old) := by
  rw [windowsAct, List.foldl_reverse, h, List.zipIdx_cons, List.foldr_cons, foldr_behind,
    windowAct_eq]
  rfl

theorem windowsAct_nil (h : s.order = []) : s.windowsAct o px py old = old := by
  rw [windowsAct, h]
  rfl

/-- Beside the window in front it does not matter which window has the focus. -/
theorem windowsAct_of_not_front (h : ¬ s.FrontTouched px py) :
    s.windowsAct o px py old = s.under o s.order px py old := by
  cases horder : s.order with
  | nil => exact windowsAct_nil horder
  | cons id rest =>
    have hid : ¬ s.Touched id px py := fun ht => h ⟨id, by rw [horder]; rfl, ht⟩
    rw [windowsAct_cons horder, layer_of_not_touched hid]
    exact (layer_of_not_touched hid).symm

theorem under_congr (h : ∀ id ∈ ids, s'.layer o false id px py = s.layer o false id px py) :
    s'.under o ids px py old = s.under o ids px py old := by
  induction ids with
  | nil => rfl
  | cons id ids ih =>
    have hrest := ih fun j hj => h j (List.mem_cons_of_mem id hj)
    show s'.layer o false id px py (s'.under o ids px py old) = _
    rw [h id (List.mem_cons_self ..), hrest]
    rfl

theorem under_append (ids ids' : List Nat) :
    s.under o (ids ++ ids') px py old = s.under o ids px py (s.under o ids' px py old) :=
  List.foldr_append

theorem under_cons_of_not_touched (h : ¬ s.Touched id px py) (ids : List Nat) :
    s.under o (id :: ids) px py old = s.under o ids px py old := layer_of_not_touched h

/-- A window that has not the point can be left out. -/
theorem under_eraseIdx {k : Nat} (hk : ids[k]? = some id) (h : ¬ s.Touched id px py) :
    s.under o (ids.eraseIdx k) px py old = s.under o ids px py old := by
  induction ids generalizing k with
  | nil => cases hk
  | cons j ids ih =>
    cases k with
    | zero =>
      cases hk
      exact (under_cons_of_not_touched h ids).symm
    | succ k => exact congrArg (s.layer o false j px py) (ih hk)

theorem under_filter (h : ¬ s.Touched id px py) (ids : List Nat) :
    s.under o (ids.filter (· ≠ id)) px py old = s.under o ids px py old := by
  induction ids with
  | nil => rfl
  | cons j ids ih =>
    by_cases hj : j = id
    · subst hj
      rw [List.filter_cons_of_neg (by simp), ih, under_cons_of_not_touched h]
    · rw [List.filter_cons_of_pos (by simpa using hj)]
      exact congrArg (s.layer o false j px py) ih

end OrbitalScheme

end Origel.Orbital
