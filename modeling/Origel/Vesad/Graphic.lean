import Origel.Kernel.Seeks
import Origel.Lib.Run
import Origel.Orbital.Window
import Origel.Vesad.Display

/-! Graphic screens, and windows, as memory that is mapped, sought in and written. -/
namespace Origel.Vesad

open Kernel.Seeks Lib

namespace GraphicScreen

/-- `map`, where the offscreen pixels begin at `start` -/
def map (g : GraphicScreen) (start offset size : Nat) : Except Errno Nat :=
  if (offset + size) % 2 ^ 64 ≤ g.display.size * 4 then .ok ((start + offset) % 2 ^ 64)
  else .error .EINVAL

/-- `seek`: what is returned is in bytes, the position in pixels. -/
def seekBy (g : GraphicScreen) (pos whence : Nat) : Except Errno (Nat × GraphicScreen) :=
  (seekWithin g.display.size g.seek (pos / 4) whence).map fun seek => (seek * 4, { g with seek })

end GraphicScreen

/-- A graphic screen, and the memory that is shown -/
structure Shown where
  screen : GraphicScreen
  onscreen : Buffer

inductive GraphicCall where
  | seek (pos whence : UInt64)
  | write (buf : List UInt8) (sync : Bool)

namespace Shown

variable (s : Shown)

def next : GraphicCall → Shown
  | .seek pos whence =>
    match s.screen.seekBy pos.toNat whence.toNat with
    | .error _ => s
    | .ok (_, screen) => { s with screen }
  | .write buf sync =>
    let (screen, onscreen) := s.screen.write s.onscreen buf sync
    ⟨screen, onscreen⟩

/-- The position is in the buffer, or behind its last pixel. -/
def Within (size : Nat) : Prop := s.screen.display.size = size ∧ s.screen.seek ≤ size

/-- What is copied is in the bytes that were given and in both buffers, and nothing else changes. -/
def CopiesInside : GraphicCall → Prop
  | .seek _ _ => True
  | .write buf sync =>
    s.screen.writeSize buf * 4 ≤ buf.length ∧
      s.screen.seek + s.screen.writeSize buf ≤ s.screen.display.size ∧
      ∀ p, p < s.screen.seek ∨ s.screen.seek + s.screen.writeSize buf ≤ p →
        (s.next (.write buf sync)).screen.display.offscreen p = s.screen.display.offscreen p ∧
          (s.next (.write buf sync)).onscreen p = s.onscreen p

/-- Where a seek counts from, in pixels -/
def base (whence : UInt64) : Option Nat :=
  if whence.toNat = SEEK_SET then some 0
  else if whence.toNat = SEEK_CUR then some s.screen.seek
  else if whence.toNat = SEEK_END then some s.screen.display.size
  else none

/-- A seek goes to the pixel that lies so many bytes on or back, as far as the buffer goes. -/
def SeeksRight : GraphicCall → Prop
  | .seek pos whence => ∀ base ∈ s.base whence, (s.next (.seek pos whence)).screen.seek =
      clamp s.screen.display.size ((4 * base + asI64 pos.toNat) / 4)
  | .write _ _ => True

/-- The offset is not negative, or there is no pixel to go back to. -/
def Forward : GraphicCall → Prop
  | .seek pos whence => s.base whence ≠ none → pos.toNat < 2 ^ 63 ∨ s.screen.display.size = 0
  | .write _ _ => True

end Shown

/-- A mapping that is granted is at its offset, and does not go over the end of the buffer. -/
def MapsInside {ε : Type*} (result : Except ε Nat) (start offset size bytes : Nat) : Prop :=
  ∀ address, result = .ok address → address = start + offset ∧ offset + size ≤ bytes

section Graphic

variable {s : Shown} {size bytes start seek base : Nat}

/-- The sum that is compared with the size of the buffer is not below it only because it has wrapped
around. -/
theorem mapsInside_iff {ε : Type*} {err : ε} (offset length : UInt64) (hstart : start + bytes < 2 ^ 64) :
    MapsInside (if (offset.toNat + length.toNat) % 2 ^ 64 ≤ bytes then
        Except.ok ((start + offset.toNat) % 2 ^ 64) else .error err)
      start offset.toNat length.toNat bytes ↔
      offset.toNat + length.toNat < 2 ^ 64 ∨ bytes < (offset.toNat + length.toNat) % 2 ^ 64 := by
  have hoffset := offset.toNat_lt
  have hlength := length.toNat_lt
  constructor
  · intro h
    by_contra hwrap
    rw [if_pos (by omega)] at h
    have hend := (h _ rfl).2
    omega
  · intro hsum address haddress
    split at haddress
    · cases haddress
      omega
    · cases haddress

theorem seekBy_within {g g' : GraphicScreen} {pos whence n : Nat}
    (h : g.seekBy pos whence = .ok (n, g')) (hsize : g.display.size * 4 < 2 ^ 63)
    (hseek : g.seek ≤ g.display.size) (hpos : pos < 2 ^ 64) :
    g'.display = g.display ∧ g'.seek ≤ g.display.size := by
  rw [GraphicScreen.seekBy, seekWithin_eq (by omega) hseek
    (fun _ => by rw [asI64_of_lt (by omega)]; omega)
    (fun _ => by rw [asI64_of_lt (by omega)]; omega)] at h
  cases ht : target g.display.size g.seek (pos / 4) whence with
  | none =>
    rw [ht] at h
    cases h
  | some p =>
    rw [ht] at h
    cases h
    exact ⟨rfl, target_le ht⟩

theorem write_screen (g : GraphicScreen) (onscreen : Buffer) (buf : List UInt8) (sync : Bool) :
    (g.write onscreen buf sync).1.seek = g.seek ∧
      (g.write onscreen buf sync).1.display.size = g.display.size := by
  rw [GraphicScreen.write]
  split <;> exact ⟨rfl, rfl⟩

theorem Within.next (hsize : size * 4 < 2 ^ 63) (h : s.Within size) (c : GraphicCall) :
    (s.next c).Within size := by
  obtain ⟨rfl, hseek⟩ := h
  cases c with
  | seek pos whence =>
    cases hby : s.screen.seekBy pos.toNat whence.toNat with
    | error err =>
      simp only [Shown.next, hby]
      exact ⟨rfl, hseek⟩
    | ok result =>
      obtain ⟨hdisplay, hseek'⟩ := seekBy_within hby hsize hseek pos.toNat_lt
      simp only [Shown.next, hby]
      exact ⟨congrArg Display.size hdisplay, hseek'⟩
  | write buf sync =>
    obtain ⟨hsame, hdisplay⟩ := write_screen s.screen s.onscreen buf sync
    exact ⟨hdisplay, hsame ▸ hseek⟩

theorem fill_outside {g : GraphicScreen} {buf : List UInt8} {b : Buffer} {p : Nat}
    (hp : p < g.seek ∨ g.seek + g.writeSize buf ≤ p) : g.fill buf b p = b p := by
  rw [GraphicScreen.fill, Buffer.span_outside hp]

theorem copies_inside (h : s.Within size) (c : GraphicCall) : s.CopiesInside c := by
  obtain ⟨rfl, hseek⟩ := h
  cases c with
  | seek pos whence => trivial
  | write buf sync =>
    have hcount : s.screen.writeSize buf ≤ buf.length / 4 := Nat.min_le_right _ _
    have hroom : s.screen.writeSize buf ≤ s.screen.display.size - s.screen.seek := Nat.min_le_left _ _
    refine ⟨by omega, by omega, fun p hp => ?_⟩
    simp only [Shown.next, GraphicScreen.write]
    split
    · refine ⟨fill_outside hp, ?_⟩
      cases sync with
      | false => rfl
      | true => exact fill_outside hp
    · exact ⟨rfl, rfl⟩

/-- Of a negative offset a quarter of its unsigned encoding is added, which is behind every buffer. -/
theorem clamp_quarter_iff (hsize : size * 4 < 2 ^ 63) (hbase : base ≤ size) (pos : UInt64) :
    clamp size ((base : Int) + (pos.toNat / 4 : Nat)) =
        clamp size ((4 * (base : Int) + asI64 pos.toNat) / 4) ↔
      pos.toNat < 2 ^ 63 ∨ size = 0 := by
  have hpos := pos.toNat_lt
  by_cases hsign : pos.toNat < 2 ^ 63
  · rw [asI64_of_lt hsign]
    have hquarter : (base : Int) + (pos.toNat / 4 : Nat) = (4 * (base : Int) + pos.toNat) / 4 := by omega
    rw [hquarter]
    exact ⟨fun _ => .inl hsign, fun _ => rfl⟩
  · have hnegative : asI64 pos.toNat = pos.toNat - 2 ^ 64 := by
      rw [asI64, Int.bmod_def]
      split <;> omega
    rw [hnegative, clamp, clamp]
    omega

theorem seeksRight_iff (hsize : size * 4 < 2 ^ 63) (h : s.Within size) (c : GraphicCall) :
    s.SeeksRight c ↔ s.Forward c := by
  obtain ⟨rfl, hseek⟩ := h
  cases c with
  | write buf sync => exact Iff.rfl
  | seek pos whence =>
    have hpos := pos.toNat_lt
    have hquarter : asI64 (pos.toNat / 4 : Nat) = (pos.toNat / 4 : Nat) := asI64_of_lt (by omega)
    have hby := congrArg (Except.map fun seek => (seek * 4, { s.screen with seek }))
      (@seekWithin_eq _ _ (pos.toNat / 4) whence.toNat (by omega) hseek
        (fun _ => by rw [hquarter]; omega) (fun _ => by rw [hquarter]; omega))
    rw [← GraphicScreen.seekBy] at hby
    have hbase : ∀ base ∈ s.base whence, base ≤ s.screen.display.size ∧
        (s.next (.seek pos whence)).screen.seek =
          clamp s.screen.display.size ((base : Int) + (pos.toNat / 4 : Nat)) := by
      intro base hbase
      simp only [Shown.next, hby, target, hquarter]
      rw [Shown.base] at hbase
      split at hbase
      · rename_i hw
        cases hbase
        refine ⟨Nat.zero_le _, ?_⟩
        simp only [if_pos hw, Except.map, clamp]
        omega
      · rename_i hset
        split at hbase
        · rename_i hw
          cases hbase
          refine ⟨hseek, ?_⟩
          simp only [if_neg hset, if_pos hw, Except.map]
        · rename_i hcur
          split at hbase
          · rename_i hw
            cases hbase
            refine ⟨Nat.le_refl _, ?_⟩
            simp only [if_neg hset, if_neg hcur, if_pos hw, Except.map]
          · cases hbase
    rw [Shown.SeeksRight, Shown.Forward]
    cases hb : s.base whence with
    | none => simp
    | some base =>
      obtain ⟨hle, hnext⟩ := hbase base hb
      simp only [Option.mem_some_iff, forall_eq', hnext, ne_eq, reduceCtorEq, not_false_eq_true,
        true_implies]
      exact clamp_quarter_iff hsize hle pos

/-- What a screen and a window map is inside of their pixels where no sum wraps around below the end; in
every run of seeks and writes the position and what is copied stay inside, and the seeks go where they
are to go where no offset is negative. -/
theorem pixels_inside_iff (g : GraphicScreen) (start : Nat) (o : Orbital.Outside) (id : Nat)
    (w : Orbital.Window) (offset length : UInt64) (display : Display) (onscreen : Buffer)
    (calls : List GraphicCall) (hscreen : start + g.display.size * 4 < 2 ^ 64)
    (hwindow : o.pixels id + w.image.len * 4 < 2 ^ 64) (hsize : display.size * 4 < 2 ^ 63) :
    (MapsInside (g.map start offset.toNat length.toNat) start offset.toNat length.toNat
        (g.display.size * 4) ↔
      offset.toNat + length.toNat < 2 ^ 64 ∨
        g.display.size * 4 < (offset.toNat + length.toNat) % 2 ^ 64) ∧
    (MapsInside (w.map o id offset.toNat length.toNat) (o.pixels id) offset.toNat length.toNat
        (w.image.len * 4) ↔
      offset.toNat + length.toNat < 2 ^ 64 ∨
        w.image.len * 4 < (offset.toNat + length.toNat) % 2 ^ 64) ∧
    Throughout Shown.next (fun s => s.Within display.size) ⟨.new display, onscreen⟩ calls ∧
    Each Shown.next Shown.CopiesInside ⟨.new display, onscreen⟩ calls ∧
    (Each Shown.next Shown.SeeksRight ⟨.new display, onscreen⟩ calls ↔
      Each Shown.next Shown.Forward ⟨.new display, onscreen⟩ calls) := by
  have hnext := fun (s : Shown) (c : GraphicCall) (h : s.Within display.size) => Within.next hsize h c
  have hnew : Shown.Within ⟨.new display, onscreen⟩ display.size := ⟨rfl, Nat.zero_le _⟩
  refine ⟨mapsInside_iff offset length hscreen, mapsInside_iff offset length hwindow,
    throughout_of_step hnext hnew, each_of_step hnext (fun s c h => copies_inside h c) hnew, ?_⟩
  constructor
  · exact each_of_each (fun s c h _ => hnext s c h) (fun s c h => (seeksRight_iff hsize h c).mp) hnew
  · exact each_of_each (fun s c h _ => hnext s c h) (fun s c h => (seeksRight_iff hsize h c).mpr) hnew

end Graphic

/-- A screen of two pixels -/
def twoPixels : GraphicScreen := .new (.new 2 1 fun _ => 0)

theorem pixels_inside_iff_two :
    (MapsInside (twoPixels.map 4096 4 4) 4096 4 4 8 ↔ 4 + 4 < 2 ^ 64 ∨ 8 < (4 + 4) % 2 ^ 64) ∧
      Each Shown.next Shown.SeeksRight ⟨twoPixels, fun _ => 0⟩ [.seek 4 0, .seek 4 1] := by
  obtain ⟨hmap, -, -, -, hseeks⟩ := pixels_inside_iff twoPixels 4096
    ⟨0, 0, 0, 0, fun _ _ _ => 0, fun _ => ⟨0, 0, 0, 0⟩, ⟨0, 0, 0, 0⟩, 0, fun _ => [], [], fun _ => 4096⟩ 0
    ⟨0, 0, true, ⟨2, 1, 2, fun _ => 0⟩, [], [], ⟨[], []⟩⟩ 4 4 (.new 2 1 fun _ => 0) (fun _ => 0) [.seek 4 0, .seek 4 1]
    (by decide) (by decide) (by decide)
  exact ⟨hmap, hseeks.mpr ⟨fun _ => .inl (by decide), fun _ => .inl (by decide), trivial⟩⟩

/-- A sum that wraps around is taken for one inside, and a step back goes to the end. -/
theorem step_back_wraps :
    ¬ MapsInside (twoPixels.map 4096 (2 ^ 64 - 4) 4) 4096 (2 ^ 64 - 4) 4 8 ∧
      ¬ Each Shown.next Shown.SeeksRight ⟨twoPixels, fun _ => 0⟩ [.seek 4 0, .seek (-4) 1] := by
  constructor
  · intro h
    exact absurd (h 4092 (by rfl)).2 (by decide)
  · intro h
    exact absurd (h.2.1 1 (by rfl)) (by decide)

end Origel.Vesad
