import Origel.Orbital.Damage
import Origel.Orbital.Reads

/-! The window server over whole runs: that no client crashes it, and that what is displayed is what
the windows and the cursor show. -/
namespace Origel.Orbital

open Origel.Lib Origel.Daemon
open Origel.Kernel.UserScheme (Packet)
open Origel.RedoxFs (fromUtf8)

variable {box : Box}

theorem parseI32_lt {s : List Char} {z : Int} (h : parseI32 s = some z) : z < 2 ^ 31 := by
  unfold parseI32 at h
  split at h
  · cases h
  · obtain ⟨n, _, rfl⟩ := Option.map_eq_some_iff.mp h
    omega
  · obtain ⟨n, hn, rfl⟩ := Option.map_eq_some_iff.mp h
    have := Origel.Net.parseUnsigned_lt hn
    omega

namespace OrbitalScheme

variable {o : Outside} {s s' : OrbitalScheme} {id : Nat}

theorem parseUrl_lt (path : List Char) : (parseUrl path).w < 2 ^ 31 ∧ (parseUrl path).h < 2 ^ 31 := by
  have hnumber : ∀ part, (parseI32 part).getD 0 < 2 ^ 31 := by
    intro part
    cases h : parseI32 part with
    | none => decide
    | some z => exact parseI32_lt h
  exact ⟨hnumber _, hnumber _⟩

/-- The window that a url asks for has a size, and lies in the box. -/
structure OpenInBox (o : Outside) (s : OrbitalScheme) (url : Url) (box : Box) : Prop where
  w_nonneg : 0 ≤ url.w
  h_nonneg : 0 ≤ url.h
  small : url.w * url.h < 2 ^ 31
  places : ∀ w, Window.new o (s.place url).2.1 (s.place url).2.2 url.w url.h url.title url.async =
    some w → w.InBox box

instance (url : Url) : Decidable (s.OpenInBox o url box) :=
  decidable_of_iff (0 ≤ url.w ∧ 0 ≤ url.h ∧ url.w * url.h < 2 ^ 31 ∧
      ∀ w ∈ Window.new o (s.place url).2.1 (s.place url).2.2 url.w url.h url.title url.async,
        w.InBox box)
    ⟨fun h => ⟨h.1, h.2.1, h.2.2.1, h.2.2.2⟩, fun h => ⟨h.w_nonneg, h.h_nonneg, h.small, h.places⟩⟩

/-- A window of a size that an `i32` counts has all its pixels. -/
theorem new_sized (o : Outside) {w h : Int} (x y : Int) (title : List Char) (async : Bool) (hw : 0 ≤ w) (hh : 0 ≤ h)
    (hwlt : w < 2 ^ 31) (hhlt : h < 2 ^ 31) (hsmall : w * h < 2 ^ 31) :
    ∃ window, Window.new o x y w h title async = some window ∧ window.image.Sized := by
  have hnonneg : 0 ≤ w * h := Int.mul_nonneg hw hh
  have hlen : asU64 w * asU64 h % 2 ^ 64 = (w * h).toNat := by
    rw [asU64_of_nonneg hw (by omega), asU64_of_nonneg hh (by omega), ← Int.toNat_mul hw hh]
    exact Nat.mod_eq_of_lt (by omega)
  have hsized : Image.Sized ⟨w, h, (w * h).toNat, fun _ => o.rgb 0 0 0⟩ :=
    ⟨hw, hh, hwlt, hhlt, rfl, hsmall⟩
  have himage : Image.new (o.rgb 0 0 0) w h = some ⟨w, h, (w * h).toNat, fun _ => o.rgb 0 0 0⟩ := by
    unfold Image.new
    dsimp only
    rw [hlen, if_pos (by omega)]
  refine ⟨⟨x, y, async, _, title, [], ⟨[], []⟩⟩, ?_, hsized⟩
  rw [Window.new, himage]
  rfl

theorem place_ready (hr : s.Ready box) (url : Url) : (s.place url).1.Ready box ∧
    Frame s (s.place url).1 ∧ (s.place url).1.order = s.order ∧
    (∀ id, (s.place url).1.look id = s.look id) ∧ (s.place url).1.redraws = s.redraws := by
  obtain ⟨nextId, nextX, nextY, hplace⟩ := place_eq (s := s) url
  rw [hplace]
  refine ⟨⟨?_, ?_⟩, ⟨rfl, rfl, rfl, rfl, rfl⟩, rfl, fun _ => rfl, rfl⟩
  · exact ⟨hr.sized.image, hr.sized.display, hr.sized.background, hr.sized.cursor, hr.sized.windows⟩
  · exact ⟨hr.inBox.redraws, hr.inBox.screen, hr.inBox.background, hr.inBox.cursor,
      hr.inBox.windows⟩

theorem look_insert_self {window : Window} {order : List Nat} :
    look { s with order := order, windows := s.windows.insert id window } id = some window.plain := by
  have hg : (s.windows.insert id window).get id = _ := SortedMap.get_insert_self
  rw [look, hg]
  rfl

theorem look_insert_of_ne {window : Window} {order : List Nat} {k : Nat} (hk : k ≠ id) :
    look { s with order := order, windows := s.windows.insert id window } k = s.look k := by
  have hg : (s.windows.insert id window).get k = _ := SortedMap.get_insert_of_ne hk
  rw [look, look, hg]

theorem frontTouched_congr {px py : Int} (ho : s'.order = s.order)
    (hl : ∀ id, s'.look id = s.look id) : s'.FrontTouched px py ↔ s.FrontTouched px py := by
  unfold FrontTouched
  rw [ho]
  constructor
  · rintro ⟨id, hid, ht⟩
    exact ⟨id, hid, (touched_congr (hl id)).mp ht⟩
  · rintro ⟨id, hid, ht⟩
    exact ⟨id, hid, (touched_congr (hl id)).mpr ht⟩

/-- A window put in front with an id that is not in use, where it and the window that was in front
are scheduled. -/
theorem Tidy.insert {window : Window} (ht : s.Tidy o) (hfresh : s.look id = none) (hf : Frame s s')
    (ho : s'.order = s.order) (hl : ∀ id, s'.look id = s.look id)
    (hold : ∀ px py, Covers s.redraws px py → Covers s'.redraws px py)
    (hnew : ∀ px py, s.FrontTouched px py ∨ window.Touches px py → Covers s'.redraws px py) :
    Tidy o { s' with order := id :: s'.order, windows := s'.windows.insert id window } := by
  have hid : id ∉ s.order := by
    intro hmem
    have hsome := (ht.keys id).mp hmem
    rw [hfresh] at hsome
    cases hsome
  have hself : look
      { s' with order := id :: s'.order, windows := s'.windows.insert id window } id =
      some window.plain := look_insert_self
  have hother : ∀ k, k ≠ id → look
      { s' with order := id :: s'.order, windows := s'.windows.insert id window } k = s.look k :=
    fun k hk => (look_insert_of_ne hk).trans (hl k)
  apply ht.of_composed
  · exact hf.image
  · exact hold
  · intro px py hnot
    have hframe : Frame s { s' with
        order := id :: s'.order, windows := s'.windows.insert id window } :=
      ⟨hf.image, hf.background, hf.cursor, hf.cursorX, hf.cursorY⟩
    apply hframe.composed
    intro old
    have hfront : ¬ s.FrontTouched px py := fun h => hnot (hnew px py (.inl h))
    have htouch : ¬ Touched
        { s' with order := id :: s'.order, windows := s'.windows.insert id window } id px py := by
      rintro ⟨w, hw, hin⟩
      rw [hself] at hw
      cases hw
      exact hnot (hnew px py (.inr (Window.touches_plain.mp hin)))
    rw [windowsAct_cons rfl, layer_of_not_touched htouch, windowsAct_of_not_front hfront, ← ho]
    apply under_congr
    intro k hk
    have hne : k ≠ id := by
      rintro rfl
      rw [ho] at hk
      exact hid hk
    rw [layer_congr (hother k hne)]
  · show (id :: s'.order).Nodup
    rw [ho]
    exact List.nodup_cons.mpr ⟨hid, ht.nodup⟩
  · intro k
    show k ∈ id :: s'.order ↔ _
    have hmem : k ∈ s'.order ↔ k ∈ s.order := by rw [ho]
    rw [List.mem_cons, hmem]
    by_cases hk : k = id
    · subst hk
      rw [hself]
      simp
    · rw [hother k hk, ht.keys k]
      simp [hk]

/-- A new window is put in front, over the one that was there. -/
theorem openUrl_spec (o : Outside) (hr : s.Ready box) (url : List UInt8) (flags uid gid : Nat)
    (hin : ∀ path, fromUtf8 url = some path → s.OpenInBox o (parseUrl path.toList) box) :
    ∃ done, s.openUrl o url flags uid gid = some done ∧ done.state.Sized ∧
      (s.look (asU64 s.nextId) = none → s.Tidy o → done.state.Tidy o) := by
  unfold openUrl
  cases hpath : fromUtf8 url with
  | none => exact ⟨_, rfl, hr.sized, fun _ ht => ht⟩
  | some path =>
    have hopen := hin path hpath
    obtain ⟨hwlt, hhlt⟩ := parseUrl_lt path.toList
    obtain ⟨window, hnew, hsized⟩ := new_sized o (s.place (parseUrl path.toList)).2.1
      (s.place (parseUrl path.toList)).2.2 (parseUrl path.toList).title
      (parseUrl path.toList).async hopen.w_nonneg hopen.h_nonneg hwlt hhlt hopen.small
    obtain ⟨hplaced, hframe, horder, hlook, hredraws⟩ := place_ready hr (parseUrl path.toList)
    obtain ⟨t, ht, h⟩ := damageFront_spec hplaced
    obtain ⟨u, hu, h'⟩ := damage_spec (h.ready hplaced) hsized (hopen.places window hnew)
    let v : OrbitalScheme := { u with
      order := asU64 s.nextId :: u.order
      windows := u.windows.insert (asU64 s.nextId) window }
    refine ⟨succeed v (asU64 s.nextId), ?_, ?_, ?_⟩
    · simp only [Option.bind_eq_bind, ht, Option.bind_some, hnew, hu]
      rfl
    · have hus := (h'.ready (h.ready hplaced)).sized
      refine ⟨hus.image, hus.display, hus.background, hus.cursor, ?_⟩
      intro k w hw
      by_cases hk : k = asU64 s.nextId
      · subst hk
        cases SortedMap.get_insert_self.symm.trans hw
        exact hsized
      · exact hus.windows k w ((SortedMap.get_insert_of_ne hk).symm.trans hw)
    · intro hfresh htidy
      have hlook' : ∀ k, u.look k = s.look k :=
        fun k => (h'.look k).trans ((h.look k).trans (hlook k))
      apply htidy.insert hfresh (hframe.trans (h.frame.trans h'.frame))
        (h'.order.trans (h.order.trans horder)) hlook'
      · exact fun px py hc => h'.old px py (h.old px py (by rwa [hredraws]))
      · rintro px py (hfront | htouch)
        · exact h'.old px py (h.new px py ((frontTouched_congr horder hlook).mpr hfront))
        · exact h'.new px py htouch

/-- A window that is written to is scheduled where its picture is. -/
theorem write_spec (o : Outside) (hr : s.Ready box) (id : Nat) (buf : List UInt8) :
    ∃ done, s.write id buf = some done ∧ Repairs o s done.state := by
  unfold write
  cases hw : s.windows.get id with
  | none => exact ⟨_, rfl, hr.sized, fun ht => ht⟩
  | some w =>
    have hws := hr.sized.windows id w hw
    obtain ⟨r, hrect, _⟩ := Window.rect_of_sized hws
    obtain ⟨redraws, hs, h⟩ := scheduled_request hr ((hr.inBox.windows id w hw).rect r hrect)
    dsimp only
    rw [hrect]
    simp only [Option.bind_eq_bind, Option.bind_some, hs]
    let t : OrbitalScheme := { s with redraws := redraws }
    let u : OrbitalScheme := t.modify id fun w => (w.write buf).1
    have hself : u.windows.get id = some (w.write buf).1 := by
      have hg : u.windows.get id = _ := SortedMap.get_modify_self
      rw [hg]
      show (s.windows.get id).map _ = _
      rw [hw]
      rfl
    have hother : ∀ k, k ≠ id → u.windows.get k = s.windows.get k :=
      fun k hk => SortedMap.get_modify_of_ne hk
    refine ⟨_, rfl, ?_, ?_⟩
    · refine ⟨hr.sized.image, hr.sized.display, hr.sized.background, hr.sized.cursor, ?_⟩
      intro k v hv
      by_cases hk : k = id
      · subst hk
        cases hself.symm.trans hv
        exact ⟨hws.w_nonneg, hws.h_nonneg, hws.w_lt, hws.h_lt, hws.len, hws.small⟩
      · exact hr.sized.windows k v ((hother k hk).symm.trans hv)
    · intro ht
      apply ht.of_composed
      · rfl
      · exact h.old
      · intro px py hnot
        have hin : ¬ r.Has px py := fun hin => hnot (h.new px py hin)
        have hframe : Frame s u := ⟨rfl, rfl, rfl, rfl, rfl⟩
        apply hframe.composed
        apply windowsAct_congr
        · rfl
        intro focused k old
        by_cases hk : k = id
        · subst hk
          unfold layer
          rw [look_of_get hself, look_of_get hw]
          dsimp only
          rw [Window.act_plain, Window.act_plain]
          exact Window.act_write buf hrect hin
        · rw [layer_congr]
          rw [look, look, hother k hk]
      · exact ht.nodup
      · intro k
        show k ∈ s.order ↔ (u.look k).isSome
        rw [ht.keys k]
        by_cases hk : k = id
        · subst hk
          rw [look_of_get hself, look_of_get hw]
          simp
        · rw [look, look, hother k hk]

theorem fsync_spec (o : Outside) (hr : s.Ready box) (id : Nat) :
    ∃ done, s.fsync id = some done ∧ Repairs o s done.state := by
  unfold fsync
  cases hw : s.windows.get id with
  | none => exact ⟨_, rfl, hr.sized, fun ht => ht⟩
  | some w =>
    obtain ⟨r, hrect, _⟩ := Window.rect_of_sized (hr.sized.windows id w hw)
    obtain ⟨redraws, hs, h⟩ := scheduled_request hr ((hr.inBox.windows id w hw).rect r hrect)
    dsimp only
    rw [hrect]
    simp only [Option.bind_eq_bind, Option.bind_some, hs]
    exact ⟨_, rfl, repairs_of_scheduled hr h⟩

/-- The window with an id is gone from the order. -/
def without (s : OrbitalScheme) (id : Nat) : OrbitalScheme :=
  { s with order := s.order.filter (· ≠ id) }

theorem Ready.without (hr : s.Ready box) (id : Nat) : (s.without id).Ready box :=
  ⟨hr.sized.of_look ⟨rfl, rfl, rfl, rfl, rfl⟩ fun _ => rfl,
    hr.inBox.of_look ⟨rfl, rfl, rfl, rfl, rfl⟩ (fun _ => rfl) hr.inBox.redraws⟩

theorem without_of_not_open (ht : s.Tidy o) (hw : s.windows.get id = none) : s.without id = s := by
  have horder : s.order.filter (· ≠ id) = s.order := by
    apply List.filter_eq_self.mpr
    intro k hk
    have hsome := (ht.keys k).mp hk
    rw [decide_eq_true_eq]
    rintro rfl
    rw [look, hw] at hsome
    cases hsome
  rw [OrbitalScheme.without, horder]

/-- The window in front is the one that goes, or stays in front. -/
theorem front_without {px py : Int} (hid : ¬ s.Touched id px py)
    (hfront : ¬ (s.without id).FrontTouched px py) : ¬ s.FrontTouched px py := by
  rintro ⟨k, hk, htouch⟩
  by_cases hne : k = id
  · subst hne
    exact hid htouch
  · apply hfront
    refine ⟨k, ?_, htouch⟩
    cases horder : s.order with
    | nil =>
      rw [horder] at hk
      cases hk
    | cons j rest =>
      rw [horder] at hk
      cases hk
      rw [OrbitalScheme.without, horder, List.filter_cons_of_pos (by simpa using hne)]
      rfl

/-- A window that is closed, where it and the window then in front are scheduled. -/
theorem Tidy.remove {t u : OrbitalScheme} {w : Window} (ht : s.Tidy o)
    (hw : s.windows.get id = some w) (h : Scheduled box (s.without id) t (s.without id).FrontTouched)
    (h' : Scheduled box { t with windows := t.windows.remove id } u w.Touches)
    (hwindows : t.windows = s.windows) : u.Tidy o := by
  have hself : u.look id = none := by
    rw [h'.look id, look]
    show ((t.windows.remove id).get id).map _ = none
    rw [SortedMap.get_remove_self]
    rfl
  have hother : ∀ k, k ≠ id → u.look k = s.look k := by
    intro k hk
    rw [h'.look k, look, look]
    show ((t.windows.remove id).get k).map _ = _
    rw [SortedMap.get_remove_of_ne hk, hwindows]
  have horder : u.order = s.order.filter (· ≠ id) := h'.order.trans h.order
  have hframe : Frame t { t with windows := t.windows.remove id } := ⟨rfl, rfl, rfl, rfl, rfl⟩
  have hframe' : Frame s (s.without id) := ⟨rfl, rfl, rfl, rfl, rfl⟩
  have hall := hframe'.trans (h.frame.trans (hframe.trans h'.frame))
  apply ht.of_composed hall.image
  · exact fun px py hc => h'.old px py (h.old px py hc)
  · intro px py hnot
    apply hall.composed
    intro old
    have hfront : ¬ (s.without id).FrontTouched px py :=
      fun hin => hnot (h'.old px py (h.new px py hin))
    have hid : ¬ s.Touched id px py := by
      rintro ⟨w₀, hw₀, hin⟩
      rw [look_of_get hw] at hw₀
      cases hw₀
      exact hnot (h'.new px py (Window.touches_plain.mp hin))
    have hne : ∀ k ∈ s.order.filter (· ≠ id), k ≠ id := fun k hk => by
      simpa using (List.mem_filter.mp hk).2
    have hfront' : ¬ u.FrontTouched px py := by
      rintro ⟨k, hk, htouch⟩
      rw [horder] at hk
      have hmem := hne k (List.mem_of_mem_head? hk)
      exact hfront ⟨k, hk, (touched_congr (hother k hmem)).mp htouch⟩
    rw [windowsAct_of_not_front hfront', windowsAct_of_not_front (front_without hid hfront), horder,
      ← under_filter hid s.order]
    apply under_congr
    intro k hk
    rw [layer_congr (hother k (hne k hk))]
  · rw [horder]
    exact ht.nodup.filter _
  · intro k
    rw [horder, List.mem_filter]
    by_cases hk : k = id
    · subst hk
      rw [hself]
      simp
    · rw [hother k hk, ht.keys k]
      simp [hk]

theorem close_spec (o : Outside) (hr : s.Ready box) (id : Nat) :
    ∃ done, s.close id = some done ∧ Repairs o s done.state := by
  have hwr := hr.without id
  obtain ⟨t, ht, h⟩ := damageFront_spec hwr
  have htr := h.ready hwr
  have hwindows : t.windows = s.windows := by
    obtain ⟨redraws, rfl⟩ := damageFront_eq ht
    rfl
  unfold close
  rw [show damageFront { s with order := s.order.filter (· ≠ id) } = some t from ht]
  simp only [Option.bind_eq_bind, Option.bind_some, hwindows]
  cases hw : s.windows.get id with
  | none =>
    refine ⟨_, rfl, htr.sized, ?_⟩
    intro htidy
    rw [without_of_not_open htidy hw] at h
    exact (repairs_of_scheduled hr h).2 htidy
  | some w =>
    let v : OrbitalScheme := { t with windows := s.windows.remove id }
    have hvr : v.Ready box := by
      have hget : ∀ k v', v.windows.get k = some v' → s.windows.get k = some v' := by
        intro k v' hv'
        by_cases hk : k = id
        · subst hk
          cases SortedMap.get_remove_self.symm.trans hv'
        · exact (SortedMap.get_remove_of_ne hk).symm.trans hv'
      refine ⟨⟨htr.sized.image, htr.sized.display, htr.sized.background, htr.sized.cursor, ?_⟩,
        htr.inBox.redraws, htr.inBox.screen, htr.inBox.background, htr.inBox.cursor, ?_⟩
      · exact fun k v' hv' => hr.sized.windows k v' (hget k v' hv')
      · exact fun k v' hv' => hr.inBox.windows k v' (hget k v' hv')
    obtain ⟨u, hu, h'⟩ := damage_spec hvr (hr.sized.windows id w hw) (hr.inBox.windows id w hw)
    dsimp only
    rw [show damage { t with windows := s.windows.remove id } w = some u from hu]
    refine ⟨_, rfl, (h'.ready hvr).sized, ?_⟩
    intro htidy
    have hv : v = { t with windows := t.windows.remove id } := by rw [hwindows]
    rw [hv] at h'
    exact htidy.remove hw h h' hwindows

/-- Colours of `rgb` cover what is under them. -/
def Opaque (o : Outside) : Prop := 255 ≤ alpha (baseColor o)

/-- After a redraw the screen shows what is composed. -/
theorem redraw_tidy (hr : s.Ready box) :
    ∃ s', s.redraw o = some s' ∧ s'.Sized ∧ (Opaque o → s.Tidy o → s'.Tidy o ∧
      ∀ px py, s'.image.Has px py → s'.image.pixel px py = s'.composed o px py) := by
  obtain ⟨image, hredraw, hsame, hpix⟩ := redraw_spec o hr.sized hr.inBox
  let s' : OrbitalScheme := { s with image := image, redraws := [] }
  have hcomposed : ∀ px py, s'.composed o px py = s.composed o px py := by
    intro px py
    have hbackground : s'.backgroundRect = s.backgroundRect := by
      show Rect.new (i32 (image.w.tdiv 2 - _)) (i32 (image.h.tdiv 2 - _)) _ _ = _
      rw [hsame.1, hsame.2.1]
      rfl
    unfold composed backgroundAct
    rw [hbackground]
    rfl
  refine ⟨s', hredraw, ⟨hsame.sized hr.sized.image, ?_, hr.sized.background, hr.sized.cursor,
    hr.sized.windows⟩, ?_⟩
  · show image.w * image.h * 4 < 2 ^ 31
    rw [hsame.1, hsame.2.1]
    exact hr.sized.display
  · intro ho ht
    have hall : ∀ px py, s'.image.Has px py → s'.image.pixel px py = s'.composed o px py := by
      intro px py hp
      have hp : s.image.Has px py := by
        rw [Image.Has, ← hsame.1, ← hsame.2.1]
        exact hp
      rw [hcomposed]
      obtain ⟨hin, hout⟩ := hpix px py hp
      by_cases hc : ∃ r ∈ s.redraws, r.Has px py
      · obtain ⟨old, hold⟩ := hin hc
        have hmix : mix (baseColor o) old = baseColor o := if_pos ho
        rw [show s'.image.pixel px py = _ from hold, drawnAct, hmix]
        rfl
      · have hkept : s'.image.pixel px py = s.image.pixel px py :=
          hout fun r hr hhas => hc ⟨r, hr, hhas⟩
        rw [hkept]
        by_contra hne
        exact hc (ht.damage px py hp hne)
    refine ⟨⟨?_, ht.nodup, ht.keys⟩, hall⟩
    intro px py hp hne
    exact (hne (hall px py hp)).elim

theorem repairs_guarded {f : OrbitalScheme → Option (Done OrbitalScheme)}
    (h : ∃ done, f s = some done ∧ Repairs o s done.state) :
    ∃ s', (guarded f (some s)).state = some s' ∧ Repairs o s s' := by
  obtain ⟨done, hf, hrepairs⟩ := h
  refine ⟨done.state, ?_, hrepairs⟩
  unfold guarded
  rw [Option.bind_some, hf]

theorem read_spec (o : Outside) (hr : s.Ready box) (id len : Nat) :
    Repairs o s (s.read o id len).state := by
  unfold read
  cases hw : s.windows.get id with
  | none => exact ⟨hr.sized, fun ht => ht⟩
  | some w =>
    have hplain : ∀ w : Window, (w.read o len).1.plain = w.plain := by
      intro w
      unfold Window.read
      split <;> rfl
    apply repairs_of_scheduled (D := fun _ _ => False) hr
    refine ⟨⟨rfl, rfl, rfl, rfl, rfl⟩, rfl, ?_, hr.inBox.redraws, fun _ _ h => h, fun _ _ h => h.elim⟩
    intro k
    by_cases hk : k = id
    · subst hk
      have hg : (s.modify k fun w => (w.read o len).1).windows.get k = _ := SortedMap.get_modify_self
      rw [look, look, hg, Option.map_map]
      congr 1
      funext w
      exact hplain w
    · exact look_replace_of_ne hk

/-- A request that is not an `open` with an id in use leaves nothing stale. -/
theorem handle_spec (o : Outside) (hr : s.Ready box) (memory : Nat → UInt8) (p : Packet)
    (hin : p.a = SYS_OPEN → ∀ path, fromUtf8 (load memory p.b p.c) = some path →
      s.OpenInBox o (parseUrl path.toList) box) :
    ∃ s', ((scheme o).handle memory (some s) p).state = some s' ∧ s'.Sized ∧
      ((p.a = SYS_OPEN → s.look (asU64 s.nextId) = none) → s.Tidy o → s'.Tidy o) := by
  have hself : Repairs o s s := ⟨hr.sized, fun ht => ht⟩
  have hrepairs : (∃ s', ((scheme o).handle memory (some s) p).state = some s' ∧ Repairs o s s') →
      ∃ s', ((scheme o).handle memory (some s) p).state = some s' ∧ s'.Sized ∧
        ((p.a = SYS_OPEN → s.look (asU64 s.nextId) = none) → s.Tidy o → s'.Tidy o) :=
    fun ⟨s', hs, h⟩ => ⟨s', hs, h.1, fun _ => h.2⟩
  have hfail : ∀ errno, ∃ s', (fail (some s) errno).state = some s' ∧ Repairs o s s' :=
    fun _ => ⟨s, rfl, hself⟩
  cases hm : method p.a with
  | none =>
    apply hrepairs
    rw [SchemeMut.handle, hm]
    exact hfail _
  | some m =>
    by_cases hopen : m = .openUrl
    · subst hopen
      have ha := eq_open_of_method hm
      obtain ⟨done, hf, hsized, htidy⟩ :=
        openUrl_spec o hr (load memory p.b p.c) p.d p.uid p.gid (hin ha)
      refine ⟨done.state, ?_, hsized, fun hfresh => htidy (hfresh ha)⟩
      rw [SchemeMut.handle, hm]
      show (guarded (openUrl o · (load memory p.b p.c) p.d p.uid p.gid) (some s)).state = _
      unfold guarded
      rw [Option.bind_some, hf]
    · apply hrepairs
      rw [SchemeMut.handle, hm]
      cases m with
      | openUrl => exact (hopen rfl).elim
      | read => exact repairs_guarded ⟨_, rfl, read_spec o hr p.b p.d⟩
      | write => exact repairs_guarded (write_spec o hr p.b _)
      | fsync => exact repairs_guarded (fsync_spec o hr p.b)
      | close => exact repairs_guarded (close_spec o hr p.b)
      | fevent =>
        apply repairs_guarded
        refine ⟨_, rfl, ?_⟩
        unfold fevent
        split <;> exact hself
      | fmap =>
        apply repairs_guarded
        refine ⟨_, rfl, ?_⟩
        unfold fmap
        split <;> exact hself
      | fpath =>
        apply repairs_guarded
        refine ⟨_, rfl, ?_⟩
        unfold fpath
        split <;> exact hself
      | fstat =>
        dsimp only
        split <;> exact hfail _
      | fstatvfs =>
        dsimp only
        split <;> exact hfail _
      | _ => exact hfail _

/-- What the two loops do with the server. -/
inductive Op where
  | redraw
  | event (e : Event)
  | request (memory : Nat → UInt8) (p : Packet)

def op (o : Outside) (s : OrbitalScheme) : Op → Option OrbitalScheme
  | .redraw => s.redraw o
  | .event e => s.event o e
  | .request memory p => ((scheme o).handle memory (some s) p).state

/-- A step of a server that may have panicked -/
def next (o : Outside) (s : Option OrbitalScheme) (i : Op) : Option OrbitalScheme :=
  s.bind fun s => s.op o i

/-- All rectangles of the step, those it finds and those it brings, lie in one part of the plane
where no coordinates overflow, and a new window has a size. -/
def Fits (o : Outside) (s : OrbitalScheme) : Op → Prop
  | .redraw => ∃ box, s.InBox box
  | .event e => ∃ box, s.InBox box ∧ (e.code = o.EVENT_MOUSE → s.MouseInBox e box)
  | .request memory p => ∃ box, s.InBox box ∧ (p.a = SYS_OPEN →
      ∀ path, fromUtf8 (load memory p.b p.c) = some path → s.OpenInBox o (parseUrl path.toList) box)

/-- An `open` does not take an id that is in use. -/
def FreshId (s : OrbitalScheme) : Op → Prop
  | .request _ p => p.a = SYS_OPEN → s.look (asU64 s.nextId) = none
  | _ => True

theorem op_spec (o : Outside) (hs : s.Sized) {i : Op} (hf : s.Fits o i) :
    ∃ s', s.op o i = some s' ∧ s'.Sized ∧
      (Opaque o → s.FreshId i → s.Tidy o → s'.Tidy o) := by
  cases i with
  | redraw =>
    obtain ⟨box, hb⟩ := hf
    obtain ⟨s', hredraw, hsized, htidy⟩ := redraw_tidy (o := o) ⟨hs, hb⟩
    exact ⟨s', hredraw, hsized, fun ho _ ht => (htidy ho ht).1⟩
  | event e =>
    obtain ⟨box, hb, hm⟩ := hf
    obtain ⟨s', hevent, hrepairs⟩ := event_spec o ⟨hs, hb⟩ e hm
    exact ⟨s', hevent, hrepairs.1, fun _ _ => hrepairs.2⟩
  | request memory p =>
    obtain ⟨box, hb, hin⟩ := hf
    obtain ⟨s', hhandle, hsized, htidy⟩ := handle_spec o ⟨hs, hb⟩ memory p hin
    exact ⟨s', hhandle, hsized, fun _ => htidy⟩

theorem new_spec {image background cursor : Image} (hi : image.Sized)
    (hd : image.w * image.h * 4 < 2 ^ 31) (hb : background.Sized) (hc : cursor.Sized) :
    ∃ s, new image background cursor = some s ∧ s.Sized ∧ s.Tidy o := by
  have hscreen : Rect.new 0 0 image.w image.h = some _ := Rect.new_of_nonneg hi.w_nonneg hi.h_nonneg
  refine ⟨_, Option.bind_eq_some_iff.mpr ⟨_, hscreen, rfl⟩, ⟨hi, hd, hb, hc, nofun⟩, ?_, ?_, ?_⟩
  · intro px py hp _
    exact ⟨_, List.mem_singleton_self _, (screen_has hi).mpr hp⟩
  · exact List.nodup_nil
  · intro id
    exact ⟨nofun, nofun⟩

/-- The step meets `C` if there is a server to take it. -/
def Meets (C : OrbitalScheme → Op → Prop) : Option OrbitalScheme → Op → Prop
  | some s, i => C s i
  | none, _ => True

/-- No client crashes the window server: every assertion holds, and every row of an image that is
taken is there, in every run whose rectangles fit. -/
theorem never_panics (o : Outside) (image background cursor : Image) (hi : image.Sized)
    (hd : image.w * image.h * 4 < 2 ^ 31) (hb : background.Sized) (hc : cursor.Sized)
    (ops : List Op) (h : Each (next o) (Meets (Fits o)) (new image background cursor) ops) :
    Throughout (next o) (· ≠ none) (new image background cursor) ops := by
  apply throughout_of_each (I := fun s => ∃ s', s = some s' ∧ s'.Sized) ?_ ?_ ?_ h
  · rintro _ i ⟨s, rfl, hs⟩ hf
    obtain ⟨s', hop, hsized, _⟩ := op_spec o hs hf
    exact ⟨s', hop, hsized⟩
  · rintro _ ⟨s, rfl, _⟩
    exact nofun
  · obtain ⟨s, hnew, hs, _⟩ := new_spec (o := o) hi hd hb hc
    exact ⟨s, hnew, hs⟩

theorem meets_of_forall {C : OrbitalScheme → Op → Prop} {s : Option OrbitalScheme} {i : Op}
    (h : ∀ s' ∈ s, C s' i) : Meets C s i := by
  cases s with
  | none => trivial
  | some s => exact h s rfl

/-- A client opens a window and the screen is drawn. -/
theorem open_window_is_drawn :
    let url := Origel.RedoxFs.utf8 "/2/0/4/1/t"
    let ops : List Op := [
      .request (fun a => url.getD a 0) ⟨1, 1, 0, 0, SYS_OPEN, 0, url.length, 0⟩, .redraw]
    let screen : Image := ⟨8, 2, 16, fun _ => 0⟩
    Throughout (next Server.plain) (· ≠ none) (new screen Server.nothing Server.nothing) ops := by
  intro url ops screen
  have hempty : Server.nothing.Sized := by constructor <;> decide
  let box : Box := ⟨-100, -100, 100, 100, by decide, by decide, by decide, by decide, by decide,
    by decide⟩
  apply never_panics Server.plain screen _ _ (by constructor <;> decide) (by decide) hempty hempty
  have hin : ∀ s' ∈ next Server.plain (new screen Server.nothing Server.nothing) ops[0],
      s'.InBox box := by decide +kernel
  refine ⟨⟨box, by decide, ?_⟩, meets_of_forall fun s' hs' => ⟨box, hin s' hs'⟩, trivial⟩
  intro _ path hpath
  have hurl : (fromUtf8 (load (fun a => url.getD a 0) 0 url.length)).map
      (fun path => parseUrl path.toList) = some ⟨false, 2, 0, 4, 1, ['t']⟩ := by decide +kernel
  have hpath : fromUtf8 (load (fun a => url.getD a 0) 0 url.length) = some path := hpath
  rw [hpath] at hurl
  have hurl : parseUrl path.toList = ⟨false, 2, 0, 4, 1, ['t']⟩ := Option.some.inj hurl
  rw [hurl]
  decide +kernel

/-- A url with a negative size: `Image::new` asks for a buffer of more bytes than there can be, and
panics. -/
theorem negative_size_panics :
    let url := Origel.RedoxFs.utf8 "/0/0/-1/1/"
    let ops : List Op := [
      .request (fun a => url.getD a 0) ⟨1, 1, 0, 0, SYS_OPEN, 0, url.length, 0⟩]
    let screen : Image := ⟨8, 2, 16, fun _ => 0⟩
    ¬ Throughout (next Server.plain) (· ≠ none) (new screen Server.nothing Server.nothing) ops := by
  intro url ops screen h
  have hnone : (next Server.plain (new screen Server.nothing Server.nothing) ops[0]).isNone = true := by
    decide +kernel
  exact h.2 (Option.isNone_iff_eq_none.mp hnone)

/-- There is a server; what is not as composed on the screen is scheduled, so that nothing is stale
where nothing is scheduled; and the order lists every window once. -/
def Complete (o : Outside) (s : Option OrbitalScheme) : Prop := ∃ s', s = some s' ∧ s'.Tidy o ∧
  (s'.redraws = [] → ∀ px py, s'.image.Has px py → s'.image.pixel px py = s'.composed o px py)

theorem complete_of_tidy (ht : s.Tidy o) : Complete o (some s) := by
  refine ⟨s, rfl, ht, ?_⟩
  intro hempty px py hp
  by_contra hne
  obtain ⟨r, hr, _⟩ := ht.damage px py hp hne
  rw [hempty] at hr
  cases hr

/-- Damage tracking is complete: in every run whose rectangles fit and whose ids are fresh. -/
theorem damage_complete (o : Outside) (ho : Opaque o) (image background cursor : Image)
    (hi : image.Sized) (hd : image.w * image.h * 4 < 2 ^ 31) (hb : background.Sized)
    (hc : cursor.Sized) (ops : List Op)
    (h : Each (next o) (Meets fun s i => s.Fits o i ∧ s.FreshId i) (new image background cursor) ops) :
    Throughout (next o) (Complete o) (new image background cursor) ops := by
  apply throughout_of_each (I := fun s => ∃ s', s = some s' ∧ s'.Sized ∧ s'.Tidy o) ?_ ?_ ?_ h
  · rintro _ i ⟨s, rfl, hs, ht⟩ ⟨hf, hfresh⟩
    obtain ⟨s', hop, hsized, htidy⟩ := op_spec o hs hf
    exact ⟨s', hop, hsized, htidy ho hfresh ht⟩
  · rintro _ ⟨s, rfl, _, ht⟩
    exact complete_of_tidy ht
  · exact new_spec hi hd hb hc

/-- A window is opened, drawn and closed. -/
theorem window_comes_and_goes :
    let url := Origel.RedoxFs.utf8 "/2/0/4/1/t"
    let ops : List Op := [
      .request (fun a => url.getD a 0) ⟨1, 1, 0, 0, SYS_OPEN, 0, url.length, 0⟩, .redraw,
      .request (fun _ => 0) ⟨2, 1, 0, 0, SYS_CLOSE, 1, 0, 0⟩]
    let screen : Image := ⟨8, 2, 16, fun _ => 0⟩
    Throughout (next Server.plain) (Complete Server.plain)
      (new screen Server.nothing Server.nothing) ops := by
  intro url ops screen
  have hempty : Server.nothing.Sized := by constructor <;> decide
  let box : Box := ⟨-100, -100, 100, 100, by decide, by decide, by decide, by decide, by decide,
    by decide⟩
  apply damage_complete Server.plain (by unfold Opaque; decide) screen _ _
    (by constructor <;> decide) (by decide) hempty hempty
  refine ⟨⟨⟨box, by decide, ?_⟩, fun _ => rfl⟩, ?_, ?_, trivial⟩
  · intro _ path hpath
    have hurl : (fromUtf8 (load (fun a => url.getD a 0) 0 url.length)).map
        (fun path => parseUrl path.toList) = some ⟨false, 2, 0, 4, 1, ['t']⟩ := by decide +kernel
    have hpath : fromUtf8 (load (fun a => url.getD a 0) 0 url.length) = some path := hpath
    rw [hpath] at hurl
    have hurl : parseUrl path.toList = ⟨false, 2, 0, 4, 1, ['t']⟩ := Option.some.inj hurl
    rw [hurl]
    decide +kernel
  · have hin : ∀ s' ∈ next Server.plain (new screen Server.nothing Server.nothing) ops[0],
        s'.InBox box := by decide +kernel
    exact meets_of_forall fun s' hs' => ⟨⟨box, hin s' hs'⟩, trivial⟩
  · have hin : ∀ s' ∈ next Server.plain
        (next Server.plain (new screen Server.nothing Server.nothing) ops[0]) ops[1],
        s'.InBox box := by decide +kernel
    have hother : SYS_CLOSE ≠ SYS_OPEN := by decide
    exact meets_of_forall fun s' hs' =>
      ⟨⟨box, hin s' hs', fun ha => (hother ha).elim⟩, fun ha => (hother ha).elim⟩

/-- A window far to the left, and a cursor that moves to the right: the difference of their
coordinates overflows, and what the cursor has left on the screen is not drawn again. -/
theorem far_window_stops_redraw :
    let url := Origel.RedoxFs.utf8 "/-2147483643/0/10/1/"
    let ops : List Op := [.redraw,
      .request (fun a => url.getD a 0) ⟨1, 1, 0, 0, SYS_OPEN, 0, url.length, 0⟩, .redraw,
      .event ⟨2, 50, 0, 0⟩, .redraw]
    let screen : Image := ⟨64, 1, 64, fun _ => 0⟩
    let cursor : Image := ⟨1, 1, 1, fun _ => 0xFFFFFFFF⟩
    ((ops.take 4).foldl (next Server.plain) (new screen Server.nothing cursor)).isSome = true ∧
      ¬ Throughout (next Server.plain) (Complete Server.plain)
        (new screen Server.nothing cursor) ops := by
  intro url ops screen cursor
  refine ⟨by decide +kernel, ?_⟩
  intro h
  have hnone : (ops.foldl (next Server.plain) (new screen Server.nothing cursor)).isNone = true := by
    decide +kernel
  obtain ⟨s, hs, _⟩ := h.last
  rw [hs] at hnone
  cases hnone

end OrbitalScheme

end Origel.Orbital
