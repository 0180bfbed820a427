import Origel.Orbital.Layers
import Origel.Orbital.Steady

/-! What is scheduled to be drawn again when windows change, so that nothing stale stays on the
screen. -/
namespace Origel.Orbital

open Origel.Lib

variable {box : Box} {px py : Int}

/-- Some rectangle of those scheduled has the point. -/
def Covers (redraws : List Rect) (px py : Int) : Prop := ∃ r ∈ redraws, r.Has px py

/-- In a box everything can be scheduled, and nothing scheduled gets lost. -/
theorem schedule_spec {redraws : List Rect} {request : Rect} (hr : ∀ r ∈ redraws, r.In box)
    (hq : request.In box) : ∃ redraws', schedule redraws request = some redraws' ∧
      (∀ r ∈ redraws', r.In box) ∧
      ∀ px py, Covers redraws px py ∨ request.Has px py → Covers redraws' px py := by
  induction redraws with
  | nil =>
    refine ⟨[request], rfl, ?_, ?_⟩
    · intro r hr
      cases List.mem_singleton.mp hr
      exact hq
    · rintro px py (⟨r, hr, _⟩ | hin)
      · cases hr
      · exact ⟨request, List.mem_singleton_self request, hin⟩
  | cons rect redraws ih =>
    have hrect := hr rect (List.mem_cons_self ..)
    have hrest := fun r hm => hr r (List.mem_cons_of_mem rect hm)
    obtain ⟨c, hc, hcb, hcovers⟩ := Rect.container_of_in hrect hq
    obtain ⟨redraws', hs, hb, hcovers'⟩ := ih hrest
    unfold schedule
    rw [hc]
    simp only [Option.bind_eq_bind, Option.bind_some]
    split
    · refine ⟨_, rfl, ?_, ?_⟩
      · intro r hm
        rcases List.mem_cons.mp hm with rfl | hm
        · exact hcb
        · exact hrest r hm
      · rintro px py (⟨r, hm, hin⟩ | hin)
        · rcases List.mem_cons.mp hm with rfl | hm
          · exact ⟨c, List.mem_cons_self .., hcovers px py (.inl hin)⟩
          · exact ⟨r, List.mem_cons_of_mem c hm, hin⟩
        · exact ⟨c, List.mem_cons_self .., hcovers px py (.inr hin)⟩
    · rw [hs]
      refine ⟨_, rfl, ?_, ?_⟩
      · intro r hm
        rcases List.mem_cons.mp hm with rfl | hm
        · exact hrect
        · exact hb r hm
      · have hlater : ∀ px py, Covers redraws' px py → Covers (rect :: redraws') px py :=
          fun px py ⟨r, hm, hin⟩ => ⟨r, List.mem_cons_of_mem rect hm, hin⟩
        rintro px py (⟨r, hm, hin⟩ | hin)
        · rcases List.mem_cons.mp hm with rfl | hm
          · exact ⟨r, List.mem_cons_self .., hin⟩
          · exact hlater px py (hcovers' px py (.inl ⟨r, hm, hin⟩))
        · exact hlater px py (hcovers' px py (.inr hin))

/-- A window at another place -/
def Window.moved (w : Window) (dx dy : Int) : Window :=
  { w with x := i32 (w.x + dx), y := i32 (w.y + dy) }

namespace OrbitalScheme

variable {o : Outside} {s s' s'' : OrbitalScheme} {id : Nat} {w : Window} {D D' : Int → Int → Prop}

/-- All that is drawn but the windows is the same. -/
structure Frame (s s' : OrbitalScheme) : Prop where
  image : s'.image = s.image
  background : s'.background = s.background
  cursor : s'.cursor = s.cursor
  cursorX : s'.cursorX = s.cursorX
  cursorY : s'.cursorY = s.cursorY

theorem Frame.refl : Frame s s := ⟨rfl, rfl, rfl, rfl, rfl⟩

theorem Frame.trans (h : Frame s s') (h' : Frame s' s'') : Frame s s'' :=
  ⟨h'.image.trans h.image, h'.background.trans h.background, h'.cursor.trans h.cursor,
    h'.cursorX.trans h.cursorX, h'.cursorY.trans h.cursorY⟩

theorem Frame.backgroundRect (h : Frame s s') : s'.backgroundRect = s.backgroundRect := by
  unfold OrbitalScheme.backgroundRect
  rw [h.image, h.background]

theorem Frame.cursorRect (h : Frame s s') : s'.cursorRect = s.cursorRect := by
  unfold OrbitalScheme.cursorRect
  rw [h.cursor, h.cursorX, h.cursorY]

theorem Frame.screenRect (h : Frame s s') : s'.screenRect = s.screenRect := by
  unfold OrbitalScheme.screenRect
  rw [h.image]

theorem Frame.composed (h : Frame s s')
    (hw : ∀ old, s'.windowsAct o px py old = s.windowsAct o px py old) :
    s'.composed o px py = s.composed o px py := by
  unfold OrbitalScheme.composed cursorAct backgroundAct
  rw [h.backgroundRect, h.cursorRect, h.background, h.cursor, hw]

/-- All pictures have their pixels, and what is scheduled and drawn lies in the box. -/
structure Ready (s : OrbitalScheme) (box : Box) : Prop where
  sized : s.Sized
  inBox : s.InBox box

/-- What is scheduled has grown by `D`, and the windows look as before. -/
structure Scheduled (box : Box) (s s' : OrbitalScheme) (D : Int → Int → Prop) : Prop where
  frame : Frame s s'
  order : s'.order = s.order
  look : ∀ id, s'.look id = s.look id
  inBox : ∀ r ∈ s'.redraws, r.In box
  old : ∀ px py, Covers s.redraws px py → Covers s'.redraws px py
  new : ∀ px py, D px py → Covers s'.redraws px py

/-- Windows that look the same are as large and lie at the same place. -/
theorem get_of_look {w' : Window} (h : s'.look id = s.look id) (hw : s'.windows.get id = some w') :
    ∃ w, s.windows.get id = some w ∧ w'.plain = w.plain := by
  rw [look_of_get hw] at h
  obtain ⟨w, hw, hp⟩ := Option.map_eq_some_iff.mp h.symm
  exact ⟨w, hw, hp.symm⟩

theorem Sized.of_look (hs : s.Sized) (hf : Frame s s') (hl : ∀ id, s'.look id = s.look id) :
    s'.Sized := by
  constructor
  · rw [hf.image]
    exact hs.image
  · rw [hf.image]
    exact hs.display
  · rw [hf.background]
    exact hs.background
  · rw [hf.cursor]
    exact hs.cursor
  · intro id w' hw'
    obtain ⟨w, hw, hp⟩ := get_of_look (hl id) hw'
    have himage : w'.image = w.image := by
      show w'.plain.image = w.plain.image
      rw [hp]
    rw [himage]
    exact hs.windows id w hw

theorem InBox.of_look (hb : s.InBox box) (hf : Frame s s') (hl : ∀ id, s'.look id = s.look id)
    (hr : ∀ r ∈ s'.redraws, r.In box) : s'.InBox box := by
  constructor
  · exact hr
  · rw [hf.screenRect]
    exact hb.screen
  · rw [hf.backgroundRect]
    exact hb.background
  · rw [hf.cursorRect]
    exact hb.cursor
  · intro id w' hw'
    obtain ⟨w, hw, hp⟩ := get_of_look (hl id) hw'
    have hin := hb.windows id w hw
    constructor
    · have htitle : w'.titleRect = w.titleRect := by
        show w'.plain.titleRect = w.plain.titleRect
        rw [hp]
      rw [htitle]
      exact hin.title
    · have hrect : w'.rect = w.rect := by
        show w'.plain.rect = w.plain.rect
        rw [hp]
      rw [hrect]
      exact hin.rect

theorem Scheduled.ready (h : Scheduled box s s' D) (hr : s.Ready box) : s'.Ready box :=
  ⟨hr.sized.of_look h.frame h.look, hr.inBox.of_look h.frame h.look h.inBox⟩

theorem Scheduled.trans (h : Scheduled box s s' D) (h' : Scheduled box s' s'' D') :
    Scheduled box s s'' fun px py => D px py ∨ D' px py := by
  constructor
  · exact h.frame.trans h'.frame
  · exact h'.order.trans h.order
  · exact fun id => (h'.look id).trans (h.look id)
  · exact h'.inBox
  · exact fun px py hc => h'.old px py (h.old px py hc)
  · rintro px py (hd | hd)
    · exact h'.old px py (h.new px py hd)
    · exact h'.new px py hd

theorem Scheduled.mono (h : Scheduled box s s' D) (hd : ∀ px py, D' px py → D px py) :
    Scheduled box s s' D' :=
  ⟨h.frame, h.order, h.look, h.inBox, h.old, fun px py hp => h.new px py (hd px py hp)⟩

/-- What is neither drawn nor scheduled has changed. -/
theorem Scheduled.of_same (hr : s.Ready box) (hf : Frame s s') (ho : s'.order = s.order)
    (hw : s'.windows = s.windows) (hd : s'.redraws = s.redraws) :
    Scheduled box s s' fun _ _ => False := by
  constructor
  · exact hf
  · exact ho
  · intro id
    rw [OrbitalScheme.look, OrbitalScheme.look, hw]
  · rw [hd]
    exact hr.inBox.redraws
  · intro px py hc
    rw [hd]
    exact hc
  · exact fun _ _ h => h.elim

/-- An event at a window does not show. -/
theorem look_modify_event (id k : Nat) (e : Event) :
    (s.modify id (·.event e)).look k = s.look k := by
  unfold look
  by_cases hk : k = id
  · subst hk
    have hg : (s.modify k (·.event e)).windows.get k = _ := SortedMap.get_modify_self
    rw [hg, Option.map_map]
    rfl
  · have hg : (s.modify id (·.event e)).windows.get k = _ := SortedMap.get_modify_of_ne hk
    rw [hg]

theorem scheduled_event (hr : s.Ready box) (id : Nat) (e : Event) :
    Scheduled box s (s.modify id (·.event e)) fun _ _ => False :=
  ⟨⟨rfl, rfl, rfl, rfl, rfl⟩, rfl, fun k => look_modify_event id k e, hr.inBox.redraws, fun _ _ h => h,
    fun _ _ h => h.elim⟩

/-- A rectangle in the box is scheduled. -/
theorem scheduled_request (hr : s.Ready box) {request : Rect} (hq : request.In box) :
    ∃ redraws, schedule s.redraws request = some redraws ∧
      Scheduled box s { s with redraws := redraws } request.Has := by
  obtain ⟨redraws, hs, hb, hcovers⟩ := schedule_spec hr.inBox.redraws hq
  refine ⟨redraws, hs, ⟨rfl, rfl, rfl, rfl, rfl⟩, rfl, fun _ => rfl, hb, ?_, ?_⟩
  · exact fun px py h => hcovers px py (.inl h)
  · exact fun px py h => hcovers px py (.inr h)

/-- A window in the box is scheduled whole. -/
theorem damage_spec (hr : s.Ready box) (hw : w.image.Sized) (hb : w.InBox box) :
    ∃ s', s.damage w = some s' ∧ Scheduled box s s' w.Touches := by
  obtain ⟨bar, ht⟩ := Window.titleRect_of_sized hw
  obtain ⟨r, hrect, _⟩ := Window.rect_of_sized hw
  obtain ⟨redraws, hs, h⟩ := scheduled_request hr (hb.title bar ht)
  obtain ⟨redraws', hs', h'⟩ := scheduled_request (h.ready hr) (hb.rect r hrect)
  refine ⟨{ s with redraws := redraws' }, ?_, ?_⟩
  · unfold damage
    rw [ht, hrect]
    simp only [Option.bind_eq_bind, Option.bind_some, hs]
    rw [hs']
    rfl
  · apply (h.trans h').mono
    rintro px py (⟨r', hr', hin⟩ | ⟨r', hr', hin⟩)
    · rw [ht] at hr'
      cases hr'
      exact .inl hin
    · rw [hrect] at hr'
      cases hr'
      exact .inr hin

theorem damageAt_spec (hr : s.Ready box) (id : Nat) :
    ∃ s', s.damageAt id = some s' ∧ Scheduled box s s' (s.Touched id) := by
  unfold damageAt
  cases hw : s.windows.get id with
  | none =>
    refine ⟨s, rfl, (Scheduled.of_same hr .refl rfl rfl rfl).mono ?_⟩
    rintro px py ⟨w, hl, _⟩
    rw [look, hw] at hl
    cases hl
  | some w =>
    obtain ⟨s', hs, h⟩ := damage_spec hr (hr.sized.windows id w hw) (hr.inBox.windows id w hw)
    refine ⟨s', hs, h.mono ?_⟩
    rintro px py ⟨w', hl, ht⟩
    rw [look_of_get hw] at hl
    cases hl
    exact Window.touches_plain.mp ht

theorem damageFront_spec (hr : s.Ready box) :
    ∃ s', s.damageFront = some s' ∧ Scheduled box s s' s.FrontTouched := by
  unfold damageFront
  cases ho : s.order with
  | nil =>
    refine ⟨s, rfl, (Scheduled.of_same hr .refl rfl rfl rfl).mono ?_⟩
    rintro px py ⟨id, hid, _⟩
    rw [ho] at hid
    cases hid
  | cons id rest =>
    obtain ⟨s', hs, h⟩ := damageAt_spec hr id
    refine ⟨s', hs, h.mono ?_⟩
    rintro px py ⟨id', hid, ht⟩
    rw [ho] at hid
    cases hid
    exact ht

theorem refocus_spec (o : Outside) (hr : s.Ready box) (id : Nat) (focused : Bool) :
    ∃ s', s.refocus o id focused = some s' ∧ Scheduled box s s' (s.Touched id) := by
  obtain ⟨t, ht, h⟩ := damageAt_spec hr id
  refine ⟨t.modify id (·.event (o.focusEvent focused)), Option.bind_eq_some_iff.mpr ⟨t, ht, rfl⟩, ?_⟩
  exact (h.trans (scheduled_event (h.ready hr) id _)).mono fun px py hd => .inl hd

theorem refocusFront_spec (o : Outside) (hr : s.Ready box) (focused : Bool) :
    ∃ s', s.refocusFront o focused = some s' ∧ Scheduled box s s' s.FrontTouched := by
  unfold refocusFront
  cases ho : s.order with
  | nil =>
    refine ⟨s, rfl, (Scheduled.of_same hr .refl rfl rfl rfl).mono ?_⟩
    rintro px py ⟨id, hid, _⟩
    rw [ho] at hid
    cases hid
  | cons id rest =>
    obtain ⟨s', hs, h⟩ := refocus_spec o hr id focused
    refine ⟨s', hs, h.mono ?_⟩
    rintro px py ⟨id', hid, ht⟩
    rw [ho] at hid
    cases hid
    exact ht

/-- What is not as it should be on the screen is scheduled, and the order lists every window once. -/
structure Tidy (o : Outside) (s : OrbitalScheme) : Prop where
  damage : ∀ px py, s.image.Has px py → s.image.pixel px py ≠ s.composed o px py →
    Covers s.redraws px py
  nodup : s.order.Nodup
  keys : ∀ id, id ∈ s.order ↔ (s.look id).isSome

theorem Tidy.of_composed (ht : s.Tidy o) (hi : s'.image = s.image)
    (hold : ∀ px py, Covers s.redraws px py → Covers s'.redraws px py)
    (hc : ∀ px py, ¬ Covers s'.redraws px py → s'.composed o px py = s.composed o px py)
    (hn : s'.order.Nodup) (hk : ∀ id, id ∈ s'.order ↔ (s'.look id).isSome) : s'.Tidy o := by
  refine ⟨?_, hn, hk⟩
  intro px py hp hne
  by_contra hnot
  rw [hc px py hnot, hi] at hne
  rw [hi] at hp
  exact hnot (hold px py (ht.damage px py hp hne))

/-- The step keeps the pictures whole, and leaves nothing stale that is not scheduled. -/
def Repairs (o : Outside) (s s' : OrbitalScheme) : Prop := s'.Sized ∧ (s.Tidy o → s'.Tidy o)

theorem Repairs.trans (h : Repairs o s s') (h' : Repairs o s' s'') : Repairs o s s'' :=
  ⟨h'.1, fun ht => h'.2 (h.2 ht)⟩

theorem windowsAct_congr (ho : s'.order = s.order)
    (hl : ∀ focused id old, s'.layer o focused id px py old = s.layer o focused id px py old)
    (old : UInt32) : s'.windowsAct o px py old = s.windowsAct o px py old := by
  cases h : s.order with
  | nil => rw [windowsAct_nil h, windowsAct_nil (ho.trans h)]
  | cons id rest =>
    rw [windowsAct_cons h, windowsAct_cons (ho.trans h), hl, under_congr fun k _ => funext (hl _ k)]

/-- Where the windows look as before in the same order, only what is scheduled changes. -/
theorem repairs_of_scheduled (hr : s.Ready box) (h : Scheduled box s s' D) : Repairs o s s' := by
  refine ⟨(h.ready hr).sized, ?_⟩
  intro ht
  apply ht.of_composed h.frame.image h.old
  · intro px py _
    apply h.frame.composed
    apply windowsAct_congr h.order
    intro focused id old
    rw [layer_congr (h.look id)]
  · rw [h.order]
    exact ht.nodup
  · intro id
    rw [h.order, h.look]
    exact ht.keys id

/-- Where windows change places in the order, it is enough to schedule those that were in front,
are in front, or pass others. -/
theorem repairs_of_reorder (hr : s'.Ready box) (hf : Frame s s') (hl : ∀ id, s'.look id = s.look id)
    (hold : ∀ px py, Covers s.redraws px py → Covers s'.redraws px py)
    (hp : s'.order.Perm s.order)
    (hu : ∀ px py old, ¬ Covers s'.redraws px py → ¬ s.FrontTouched px py ∧ ¬ s'.FrontTouched px py ∧
      s.under o s'.order px py old = s.under o s.order px py old) : Repairs o s s' := by
  refine ⟨hr.sized, ?_⟩
  intro ht
  apply ht.of_composed hf.image hold
  · intro px py hnot
    apply hf.composed
    intro old
    obtain ⟨hfront, hfront', hunder⟩ := hu px py old hnot
    rw [windowsAct_of_not_front hfront, windowsAct_of_not_front hfront', ← hunder]
    apply under_congr
    intro id _
    rw [layer_congr (hl id)]
  · exact hp.nodup_iff.mpr ht.nodup
  · intro id
    rw [hp.mem_iff, hl]
    exact ht.keys id

theorem winTab_spec (o : Outside) (hr : s.Ready box) :
    ∃ s', s.winTab o = some s' ∧ Repairs o s s' := by
  have hself : Repairs o s s := ⟨hr.sized, fun ht => ht⟩
  unfold winTab
  split
  next id next rest horder =>
    obtain ⟨t, ht, h⟩ := refocus_spec o hr id false
    let u := { t with order := next :: rest ++ [id] }
    have hur : u.Ready box :=
      ⟨(h.ready hr).sized.of_look ⟨rfl, rfl, rfl, rfl, rfl⟩ fun _ => rfl,
        (h.ready hr).inBox.of_look ⟨rfl, rfl, rfl, rfl, rfl⟩ (fun _ => rfl) h.inBox⟩
    obtain ⟨v, hv, h'⟩ := refocusFront_spec o hur true
    refine ⟨v, Option.bind_eq_some_iff.mpr ⟨t, ht, hv⟩, ?_⟩
    have hframe : Frame t u := ⟨rfl, rfl, rfl, rfl, rfl⟩
    have hlook : ∀ k, v.look k = s.look k := fun k => (h'.look k).trans (h.look k)
    have horder' : v.order = next :: rest ++ [id] := h'.order
    apply repairs_of_reorder (h'.ready hur) (h.frame.trans (hframe.trans h'.frame)) hlook
    · exact fun px py hc => h'.old px py (h.old px py hc)
    · rw [horder', horder]
      exact List.perm_append_singleton id (next :: rest)
    · intro px py old hnot
      have hid : ¬ s.Touched id px py := fun htouch => hnot (h'.old px py (h.new px py htouch))
      refine ⟨?_, ?_, ?_⟩
      · rintro ⟨k, hk, htouch⟩
        rw [horder] at hk
        cases hk
        exact hid htouch
      · rintro ⟨k, hk, htouch⟩
        rw [h'.order] at hk
        exact hnot (h'.new px py ⟨k, hk, (touched_congr (h'.look k)).mp htouch⟩)
      · rw [horder', horder, under_append, under_cons_of_not_touched hid,
          under_cons_of_not_touched hid]
        rfl
  · exact ⟨s, rfl, hself⟩

theorem keyEvent_spec (o : Outside) (hr : s.Ready box) (e : Event) :
    ∃ s', s.keyEvent o e = some s' ∧ Repairs o s s' := by
  have hself : Repairs o s s := ⟨hr.sized, fun ht => ht⟩
  have hevent : ∀ id e, Repairs o s (s.modify id (·.event e)) :=
    fun id e => repairs_of_scheduled hr (scheduled_event hr id e)
  unfold keyEvent
  split
  · exact ⟨_, rfl, repairs_of_scheduled hr
      (.of_same hr ⟨rfl, rfl, rfl, rfl, rfl⟩ rfl rfl rfl)⟩
  · split
    · split
      · split
        · split
          · exact ⟨_, rfl, hevent _ _⟩
          · exact ⟨s, rfl, hself⟩
        · exact ⟨s, rfl, hself⟩
      · split
        · split
          · exact winTab_spec o hr
          · exact ⟨s, rfl, hself⟩
        · exact ⟨s, rfl, hself⟩
    · split
      · exact ⟨_, rfl, hevent _ _⟩
      · exact ⟨s, rfl, hself⟩

theorem raise_spec (o : Outside) (hr : s.Ready box) (focus : Nat) :
    ∃ s', s.raise o focus = some s' ∧ Repairs o s s' := by
  obtain ⟨t, ht, h⟩ := refocusFront_spec o hr false
  unfold raise
  simp only [Option.bind_eq_bind, ht, Option.bind_some, Option.pure_def]
  cases hfocus : t.order[focus]? with
  | none => exact ⟨t, rfl, repairs_of_scheduled hr h⟩
  | some id =>
    let u := { t with order := t.order.eraseIdx focus }
    have hur : u.Ready box :=
      ⟨(h.ready hr).sized.of_look ⟨rfl, rfl, rfl, rfl, rfl⟩ fun _ => rfl,
        (h.ready hr).inBox.of_look ⟨rfl, rfl, rfl, rfl, rfl⟩ (fun _ => rfl) h.inBox⟩
    obtain ⟨v, hv, h'⟩ := refocus_spec o hur id true
    refine ⟨{ v with order := id :: v.order }, Option.bind_eq_some_iff.mpr ⟨v, hv, rfl⟩, ?_⟩
    have hframe : Frame t u := ⟨rfl, rfl, rfl, rfl, rfl⟩
    have hframe' : Frame v { v with order := id :: v.order } := ⟨rfl, rfl, rfl, rfl, rfl⟩
    have hvr := h'.ready hur
    have hlook : ∀ k, v.look k = s.look k := fun k => (h'.look k).trans (h.look k)
    have horder' : v.order = s.order.eraseIdx focus := by
      rw [h'.order, ← h.order]
    rw [h.order] at hfocus
    have hready : Ready { v with order := id :: v.order } box :=
      ⟨hvr.sized.of_look hframe' fun _ => rfl, hvr.inBox.of_look hframe' (fun _ => rfl) h'.inBox⟩
    apply repairs_of_reorder hready
      (h.frame.trans (hframe.trans (h'.frame.trans hframe'))) hlook
    · exact fun px py hc => h'.old px py (h.old px py hc)
    · obtain ⟨hlt, hget⟩ := List.getElem?_eq_some_iff.mp hfocus
      show (id :: v.order).Perm s.order
      rw [horder', ← hget]
      exact List.getElem_cons_eraseIdx_perm hlt
    · intro px py old hnot
      have hid : ¬ s.Touched id px py := by
        intro htouch
        exact hnot (h'.new px py ((touched_congr (h.look id)).mpr htouch))
      refine ⟨?_, ?_, ?_⟩
      · exact fun hfront => hnot (h'.old px py (h.new px py hfront))
      · rintro ⟨k, hk, htouch⟩
        cases hk
        exact hid ((touched_congr (hlook id)).mp htouch)
      · show s.under o (id :: v.order) px py old = _
        rw [horder', under_cons_of_not_touched hid, under_eraseIdx hfocus hid]

/-- The place of the cursor after an event -/
def movedCursor (s : OrbitalScheme) (e : Event) : Option Rect :=
  Rect.new (i32 e.a) (i32 e.b) s.cursor.w s.cursor.h

/-- The server with the cursor where an event says. -/
def pointed (s : OrbitalScheme) (e : Event) (redraws : List Rect) : OrbitalScheme :=
  { s with cursorX := i32 e.a, cursorY := i32 e.b, redraws := redraws }

theorem cursorAct_of_not_has {r : Rect} {px py : Int} {old : UInt32} (hc : s.cursorRect = some r)
    (h : ¬ r.Has px py) : s.cursorAct px py old = old := by
  unfold cursorAct
  rw [hc]
  exact Rect.paint_of_not_has h

theorem Ready.pointed {e : Event} {redraws : List Rect} (hr : s.Ready box)
    (hb : ∀ r ∈ redraws, r.In box) (hnew : ∀ r, s.movedCursor e = some r → r.In box) :
    (s.pointed e redraws).Ready box := by
  constructor
  · exact ⟨hr.sized.image, hr.sized.display, hr.sized.background, hr.sized.cursor, hr.sized.windows⟩
  · exact ⟨hb, hr.inBox.screen, hr.inBox.background, hnew, hr.inBox.windows⟩

/-- It is enough to schedule where the cursor was and where it is. -/
theorem Tidy.pointed {e : Event} {redraws : List Rect} {r r' : Rect} (ht : s.Tidy o)
    (hc : s.cursorRect = some r) (hm : s.movedCursor e = some r')
    (hcovers : ∀ px py, Covers s.redraws px py ∨ r.Has px py ∨ r'.Has px py → Covers redraws px py) :
    (s.pointed e redraws).Tidy o := by
  have hc' : (s.pointed e redraws).cursorRect = some r' := hm
  refine ht.of_composed rfl ?_ ?_ ht.nodup ht.keys
  · exact fun px py h => hcovers px py (.inl h)
  · intro px py hnot
    have hold : ¬ r.Has px py := fun hin => hnot (hcovers px py (.inr (.inl hin)))
    have hnew : ¬ r'.Has px py := fun hin => hnot (hcovers px py (.inr (.inr hin)))
    rw [composed, composed, cursorAct_of_not_has hc hold, cursorAct_of_not_has hc' hnew]
    rfl

theorem moveCursor_spec (o : Outside) (hr : s.Ready box) (e : Event)
    (hnew : ∀ r, s.movedCursor e = some r → r.In box) : ∃ redraws,
      s.moveCursor e = some (s.pointed e redraws) ∧ (s.pointed e redraws).Ready box ∧
        Repairs o s (s.pointed e redraws) := by
  unfold moveCursor
  split
  next =>
    have hw := hr.sized.cursor.w_nonneg
    have hh := hr.sized.cursor.h_nonneg
    have hcursor : s.cursorRect = some _ := Rect.new_of_nonneg hw hh
    have hmoved : s.movedCursor e = some _ := Rect.new_of_nonneg hw hh
    obtain ⟨redraws, hs, h⟩ := scheduled_request hr (hr.inBox.cursor _ hcursor)
    obtain ⟨redraws', hs', hb, hcovers⟩ := schedule_spec h.inBox (hnew _ hmoved)
    have hready := hr.pointed hb hnew
    have hcursor' : cursorRect { s with cursorX := i32 e.a, cursorY := i32 e.b } = some _ := hmoved
    refine ⟨redraws', ?_, hready, hready.sized, ?_⟩
    · rw [hcursor]
      simp only [Option.bind_eq_bind, Option.bind_some, hs, hcursor', hs']
      rfl
    · intro ht
      apply ht.pointed hcursor hmoved
      rintro px py (hc | hin | hin)
      · exact hcovers px py (.inl (h.old px py hc))
      · exact hcovers px py (.inl (h.new px py hin))
      · exact hcovers px py (.inr hin)
  next hsame =>
    rw [not_or, not_ne_iff, not_ne_iff] at hsame
    have hself : s.pointed e s.redraws = s := by
      rw [pointed, hsame.1, hsame.2]
    refine ⟨s.redraws, ?_⟩
    rw [hself]
    exact ⟨rfl, hr, hr.sized, fun ht => ht⟩

theorem look_replace_self {w' : Window} (hw : s.windows.get id = some w) :
    (s.modify id fun _ => w').look id = some w'.plain := by
  have hg : (s.modify id fun _ => w').windows.get id = _ := SortedMap.get_modify_self
  rw [look, hg, hw]
  rfl

theorem look_replace_of_ne {f : Window → Window} {k : Nat} (hk : k ≠ id) :
    (s.modify id f).look k = s.look k := by
  have hg : (s.modify id f).windows.get k = _ := SortedMap.get_modify_of_ne hk
  rw [look, look, hg]

theorem Ready.replace {w' : Window} (hr : s.Ready box) (hs : w'.image.Sized) (hb : w'.InBox box) :
    (s.modify id fun _ => w').Ready box := by
  have hget : ∀ k v, (s.modify id fun _ => w').windows.get k = some v →
      v = w' ∨ s.windows.get k = some v := by
    intro k v hv
    by_cases hk : k = id
    · subst hk
      have hv := (SortedMap.get_modify_self (m := s.windows)).symm.trans hv
      obtain ⟨_, _, hv⟩ := Option.map_eq_some_iff.mp hv
      exact .inl hv.symm
    · exact .inr ((SortedMap.get_modify_of_ne hk).symm.trans hv)
  constructor
  · refine ⟨hr.sized.image, hr.sized.display, hr.sized.background, hr.sized.cursor, ?_⟩
    intro k v hv
    rcases hget k v hv with rfl | hv
    · exact hs
    · exact hr.sized.windows k v hv
  · refine ⟨hr.inBox.redraws, hr.inBox.screen, hr.inBox.background, hr.inBox.cursor, ?_⟩
    intro k v hv
    rcases hget k v hv with rfl | hv
    · exact hb
    · exact hr.inBox.windows k v hv

/-- A window in front that changes is scheduled as it was and as it is. -/
theorem repairs_of_replace {t u v : OrbitalScheme} {rest : List Nat} {w' : Window}
    (ho : s.order = id :: rest) (hw : s.windows.get id = some w) (hr : v.Ready box)
    (h : Scheduled box s t w.Touches) (hu : u.look id = some w'.plain)
    (hl : ∀ k, k ≠ id → u.look k = s.look k) (hf : Frame t u) (hd : u.redraws = t.redraws)
    (hou : u.order = s.order) (h' : Scheduled box u v w'.Touches) : Repairs o s v := by
  refine ⟨hr.sized, ?_⟩
  intro ht
  have hold : ∀ px py, Covers t.redraws px py → Covers v.redraws px py :=
    fun px py hc => h'.old px py (hd ▸ hc)
  have horder : v.order = s.order := h'.order.trans hou
  have hlook : ∀ k, k ≠ id → v.look k = s.look k := fun k hk => (h'.look k).trans (hl k hk)
  have hlook' : v.look id = some w'.plain := (h'.look id).trans hu
  apply ht.of_composed
  · exact h'.frame.image.trans (hf.image.trans h.frame.image)
  · exact fun px py hc => hold px py (h.old px py hc)
  · intro px py hnot
    have hbefore : ¬ s.Touched id px py := by
      rintro ⟨w₀, hw₀, htouch⟩
      rw [look_of_get hw] at hw₀
      cases hw₀
      exact hnot (hold px py (h.new px py (Window.touches_plain.mp htouch)))
    have hafter : ¬ v.Touched id px py := by
      rintro ⟨w₀, hw₀, htouch⟩
      rw [hlook'] at hw₀
      cases hw₀
      exact hnot (h'.new px py (Window.touches_plain.mp htouch))
    apply (h.frame.trans (hf.trans h'.frame)).composed
    apply windowsAct_congr horder
    intro focused k old
    by_cases hk : k = id
    · subst hk
      rw [layer_of_not_touched hbefore, layer_of_not_touched hafter]
    · rw [layer_congr (hlook k hk)]
  · rw [horder]
    exact ht.nodup
  · intro k
    rw [horder, ht.keys k]
    by_cases hk : k = id
    · subst hk
      rw [hlook', look_of_get hw]
      simp
    · rw [hlook k hk]

theorem drag_spec (o : Outside) (hr : s.Ready box) (e : Event)
    (hm : ∀ id ∈ s.order.head?, ∀ w, s.windows.get id = some w →
      (w.moved (i32 (s.cursorX - s.dragX)) (i32 (s.cursorY - s.dragY))).InBox box) :
    ∃ s', s.drag e = some s' ∧ Repairs o s s' := by
  have hself : Repairs o s s := ⟨hr.sized, fun ht => ht⟩
  have hdropped : Repairs o s { s with dragging := false } :=
    repairs_of_scheduled hr (.of_same hr ⟨rfl, rfl, rfl, rfl, rfl⟩ rfl rfl rfl)
  unfold drag
  split
  · split
    next id rest horder =>
      split
      next w hw =>
        split
        · have hws := hr.sized.windows id w hw
          have hmb := hm id (by rw [horder]; rfl) w hw
          obtain ⟨t, ht, h⟩ := damage_spec hr hws (hr.inBox.windows id w hw)
          obtain ⟨redraws, rfl⟩ := damage_eq ht
          let w' := w.moved (i32 (s.cursorX - s.dragX)) (i32 (s.cursorY - s.dragY))
          let t : OrbitalScheme := { s with redraws := redraws }
          let u : OrbitalScheme :=
            { t.modify id fun _ => w' with dragX := s.cursorX, dragY := s.cursorY }
          have hmodified : (t.modify id fun _ => w').Ready box := (h.ready hr).replace hws hmb
          have hur : u.Ready box :=
            ⟨hmodified.sized.of_look ⟨rfl, rfl, rfl, rfl, rfl⟩ fun _ => rfl,
              hmodified.inBox.of_look ⟨rfl, rfl, rfl, rfl, rfl⟩ (fun _ => rfl) h.inBox⟩
          obtain ⟨v, hv, h'⟩ := damage_spec hur (w := w') hws hmb
          refine ⟨v, Option.bind_eq_some_iff.mpr ⟨t, ht, hv⟩, ?_⟩
          have hu : u.look id = some w'.plain := look_replace_self (s := t) hw
          have hother : ∀ k, k ≠ id → u.look k = s.look k :=
            fun k hk => look_replace_of_ne (s := t) hk
          exact repairs_of_replace (u := u) horder hw (h'.ready hur) h hu hother
            ⟨rfl, rfl, rfl, rfl, rfl⟩ rfl rfl h'
        · exact ⟨s, rfl, hself⟩
      · exact ⟨_, rfl, hdropped⟩
    · exact ⟨_, rfl, hdropped⟩
  · exact ⟨_, rfl, hdropped⟩

/-- A press tells a window of it, or begins to drag one. -/
theorem press_spec (o : Outside) (hr : s.Ready box) (e : Event) (ids : List Nat) (i : Nat) :
    ∃ s' focus, s.press o e ids i = some (s', focus) ∧
      Scheduled box s s' fun _ _ => False := by
  have hself : Scheduled box s s fun _ _ => False := .of_same hr .refl rfl rfl rfl
  induction ids generalizing i with
  | nil => exact ⟨s, 0, rfl, hself⟩
  | cons id ids ih =>
    unfold press
    cases hw : s.windows.get id with
    | none => exact ih (i + 1)
    | some w =>
      obtain ⟨bar, hbar⟩ := Window.titleRect_of_sized (hr.sized.windows id w hw)
      obtain ⟨r, hrect, _⟩ := Window.rect_of_sized (hr.sized.windows id w hw)
      dsimp only
      rw [hrect, hbar]
      simp only [Option.bind_eq_bind, Option.bind_some, Option.pure_def]
      split
      · exact ⟨_, _, rfl, scheduled_event hr id _⟩
      · split
        · split
          · split
            · exact ⟨_, _, rfl, scheduled_event hr id _⟩
            · exact ⟨_, _, rfl, .of_same hr ⟨rfl, rfl, rfl, rfl, rfl⟩ rfl rfl rfl⟩
          · exact ⟨s, 0, rfl, hself⟩
        · exact ih (i + 1)

/-- The rectangles that a mouse event brings lie in the box: where the cursor is, and where the window
is that it drags. -/
structure MouseInBox (s : OrbitalScheme) (e : Event) (box : Box) : Prop where
  cursor : ∀ r, s.movedCursor e = some r → r.In box
  dragged : s.dragging = true → ∀ id ∈ s.order.head?, ∀ w, s.windows.get id = some w →
    (w.moved (i32 (i32 e.a - s.dragX)) (i32 (i32 e.b - s.dragY))).InBox box

theorem mouseEvent_spec (o : Outside) (hr : s.Ready box) (e : Event) (hm : s.MouseInBox e box) :
    ∃ s', s.mouseEvent o e = some s' ∧ Repairs o s s' := by
  obtain ⟨redraws, ht, hready, hrepairs⟩ := moveCursor_spec o hr e hm.cursor
  unfold mouseEvent
  simp only [Option.bind_eq_bind, ht, Option.bind_some, Option.pure_def]
  split
  next hd =>
    obtain ⟨s', hs, hrepairs'⟩ := drag_spec o hready e (hm.dragged hd)
    exact ⟨s', hs, hrepairs.trans hrepairs'⟩
  · obtain ⟨u, focus, hu, h⟩ := press_spec o hready e (s.pointed e redraws).order 0
    rw [hu]
    simp only [Option.bind_some]
    have hpressed : Repairs o s u := hrepairs.trans (repairs_of_scheduled hready h)
    split
    · obtain ⟨s', hs, hrepairs'⟩ := raise_spec o (h.ready hready) focus
      exact ⟨s', hs, hpressed.trans hrepairs'⟩
    · exact ⟨u, rfl, hpressed⟩

theorem event_spec (o : Outside) (hr : s.Ready box) (e : Event)
    (hm : e.code = o.EVENT_MOUSE → s.MouseInBox e box) :
    ∃ s', s.event o e = some s' ∧ Repairs o s s' := by
  unfold event
  split
  · exact keyEvent_spec o hr e
  · split
    next hcode => exact mouseEvent_spec o hr e (hm hcode)
    · exact ⟨s, rfl, hr.sized, fun ht => ht⟩

end OrbitalScheme

end Origel.Orbital
