import Origel.Lib.Table
import Origel.Vesad.Display

/-! The `display:` scheme, whose screens share one framebuffer. -/
namespace Origel.Vesad

open Origel.Lib

variable {κ : Type*} (R : Ransid κ) (FONT : List UInt8) (decode : List UInt8 → List Event)

inductive Errno where
  | EACCES | EBADF | EINVAL | ENOENT
  deriving DecidableEq, Repr

inductive Screen (κ : Type*) where
  | text (screen : TextScreen κ)
  | graphic (screen : GraphicScreen)

namespace Screen

def display : Screen κ → Display
  | .text t => t.display
  | .graphic g => g.display

/-- The rows that wait to be copied. A graphic screen has none. -/
def changed : Screen κ → List Nat
  | .text t => t.changed
  | .graphic _ => []

def write (screen : Screen κ) (onscreen : Buffer) (buf : List UInt8) (sync : Bool) :
    Screen κ × Buffer :=
  match screen with
  | .text t => let (t, onscreen) := t.write R FONT onscreen buf sync; (.text t, onscreen)
  | .graphic g => let (g, onscreen) := g.write onscreen buf sync; (.graphic g, onscreen)

def sync (screen : Screen κ) (onscreen : Buffer) : Screen κ × Buffer :=
  match screen with
  | .text t => let (t, onscreen) := t.sync onscreen; (.text t, onscreen)
  | .graphic g => let (g, onscreen) := g.sync onscreen; (.graphic g, onscreen)

def redraw (screen : Screen κ) (onscreen : Buffer) : Screen κ × Buffer :=
  match screen with
  | .text t => let (t, onscreen) := t.redraw onscreen; (.text t, onscreen)
  | .graphic g => let (g, onscreen) := g.redraw onscreen; (.graphic g, onscreen)

/-- What `input` keeps of an event. What it echoes is written after that. -/
def queue (event : Event) : Screen κ → Screen κ
  | .text t => .text { t with keys := (TextScreen.input (R.rawMode t.console) t.keys event).1 }
  | .graphic g => .graphic (g.takeEvent event)

def echoes (event : Event) : Screen κ → List (List UInt8)
  | .text t => (TextScreen.input (R.rawMode t.console) t.keys event).2
  | .graphic _ => []

/-- An event takes 24 bytes. -/
def read (len : Nat) : Screen κ → Screen κ
  | .text t => .text { t with keys := (TextScreen.read t.keys len).1 }
  | .graphic g => .graphic (g.read (len / 24)).1

def readSize (len : Nat) : Screen κ → Nat
  | .text t => (TextScreen.read t.keys len).2.length
  | .graphic g => (g.read (len / 24)).2.length * 24

def writeSize (buf : List UInt8) : Screen κ → Nat
  | .text _ => buf.length
  | .graphic g => g.writeSize buf * 4

def seekTo (pos whence : Nat) : Screen κ → Option Nat
  | .text _ => some 0
  | .graphic g => (g.seekTo pos whence).map (· * 4)

def seek (pos whence : Nat) : Screen κ → Screen κ
  | .text t => .text t
  | .graphic g => .graphic { g with seek := (g.seekTo pos whence).getD g.seek }

end Screen

structure DisplayScheme (κ : Type*) where
  active : Nat
  screens : Table (Screen κ)
  onscreen : Buffer

/-- A call that the scheme makes into one of its screens, or that a text screen makes of its own
`write`. Between two calls the scheme looks at its state, and changes nothing. -/
inductive Call where
  | activate (id : Nat)
  | switch (id : Nat)
  | write (id : Nat) (buf : List UInt8)
  | sync (id : Nat)
  | input (event : Event)
  | echo (buf : List UInt8)
  | read (id len : Nat)
  | seek (id pos whence : Nat)

inductive Request where
  | open (path : List Char) (uid : Nat)
  | fsync (id : Nat)
  | read (id len : Nat)
  | write (id : Nat) (buf : List UInt8)
  | seek (id pos whence : Nat)

/-- `parse::<usize>` -/
def parseUsize (s : List Char) : Option Nat :=
  let digits := match s with
    | '+' :: rest => rest
    | _ => s
  if digits = [] then none
  else digits.foldl (fun n c => n.bind fun n =>
    if c.isDigit ∧ n * 10 + (c.toNat - '0'.toNat) < 2 ^ 64 then some (n * 10 + (c.toNat - '0'.toNat))
    else none) (some 0)

/-- `trim_matches('/')` -/
def trimSlashes (s : List Char) : List Char :=
  ((s.dropWhile (· = '/')).reverse.dropWhile (· = '/')).reverse

/-- The screen that a function key switches to. -/
def newActive : Event → Option Nat
  | .key event =>
    if 0x3B ≤ event.scancode ∧ event.scancode ≤ 0x44 then some (event.scancode - 0x3A)
    else if event.scancode = 0x57 then some 11
    else if event.scancode = 0x58 then some 12
    else none
  | _ => none

namespace DisplayScheme

/-- The screens of `spec` get the numbers from one on. Memory that is allocated and the framebuffer
are cleared. -/
def new (width height : Nat) (onscreen : Buffer) (memory : Nat → Buffer) (spec : List Bool) :
    DisplayScheme κ where
  active := 1
  screens := (Table.empty 1).insertAll (spec.mapIdx fun i screen_type =>
    let display := Display.new width height (memory (i + 1))
    if screen_type then .graphic (.new display) else .text (.new R display))
  onscreen := onscreen.clear (width * height)

/-- A method called on the screen `id`, if there is one. -/
def call (s : DisplayScheme κ) (id : Nat) (method : Screen κ → Buffer → Screen κ × Buffer) :
    DisplayScheme κ :=
  match s.screens.entry id with
  | some screen =>
    let (screen, onscreen) := method screen s.onscreen
    { s with screens := s.screens.modify id fun _ => screen, onscreen }
  | none => s

def exec (s : DisplayScheme κ) : Call → DisplayScheme κ
  | .activate id => { s with active := id }
  | .switch id => { s.call id Screen.redraw with active := id }
  | .write id buf => s.call id fun screen onscreen => screen.write R FONT onscreen buf (id == s.active)
  | .sync id => if id = s.active then s.call id Screen.sync else s
  | .input event => s.call s.active fun screen onscreen => (screen.queue R event, onscreen)
  | .echo buf => s.call s.active fun screen onscreen => screen.write R FONT onscreen buf true
  | .read id len => s.call id fun screen onscreen => (screen.read len, onscreen)
  | .seek id pos whence => s.call id fun screen onscreen => (screen.seek pos whence, onscreen)

/-- A path that is not UTF-8 is the empty one here. -/
def «open» (s : DisplayScheme κ) (path : List Char) (uid : Nat) : List Call × Except Errno Nat :=
  if path = "input".toList then ([], if uid = 0 then .ok 0 else .error .EACCES)
  else
    let parts := (trimSlashes path).splitOn '/'
    let id := (parseUsize (parts.headD [])).getD 0
    if (s.screens.entry id).isSome then
      (parts.tail.filterMap fun cmd =>
        if cmd = "activate".toList then some (.activate id) else none, .ok id)
    else ([], .error .ENOENT)

def fsync (s : DisplayScheme κ) (id : Nat) : List Call × Except Errno Nat :=
  if (s.screens.entry id).isSome then ([.sync id], .ok 0) else ([], .error .EBADF)

def read (s : DisplayScheme κ) (id len : Nat) : List Call × Except Errno Nat :=
  match s.screens.entry id with
  | some screen => ([.read id len], .ok (screen.readSize len))
  | none => ([], .error .EBADF)

def seek (s : DisplayScheme κ) (id pos whence : Nat) : List Call × Except Errno Nat :=
  match s.screens.entry id with
  | some screen =>
    ([.seek id pos whence], (screen.seekTo pos whence).elim (.error .EINVAL) .ok)
  | none => ([], .error .EBADF)

/-- `self.active = new_active; screen.redraw()` -/
def switchTo (s : DisplayScheme κ) (new_active : Nat) : List Call :=
  if (s.screens.entry new_active).isSome then [.switch new_active] else []

def onEvent (s : DisplayScheme κ) (event : Event) : List Call :=
  match newActive event with
  | some new_active => s.switchTo new_active
  | none =>
    match s.screens.entry s.active with
    | some screen => .input event :: (screen.echoes R event).map .echo
    | none => []

def onEvents (s : DisplayScheme κ) : List Event → List Call
  | [] => []
  | event :: events =>
    let calls := s.onEvent R event
    calls ++ onEvents (calls.foldl (exec R FONT) s) events

def write (s : DisplayScheme κ) (id : Nat) (buf : List UInt8) : List Call × Except Errno Nat :=
  if id = 0 then
    if buf.length = 1 ∧ 0xF4 ≤ (buf.headD 0).toNat then
      (s.switchTo ((buf.headD 0).toNat - 0xF4 + 1), .ok 1)
    else (s.onEvents R FONT (decode buf), .ok ((decode buf).length * 24))
  else
    match s.screens.entry id with
    | some screen => ([.write id buf], .ok (screen.writeSize buf))
    | none => ([], .error .EBADF)

/-- The requests of clients. Those left out change nothing that is modelled. -/
def handle (s : DisplayScheme κ) : Request → List Call × Except Errno Nat
  | .open path uid => s.open path uid
  | .fsync id => s.fsync id
  | .read id len => s.read id len
  | .write id buf => s.write R FONT decode id buf
  | .seek id pos whence => s.seek id pos whence

/-- All calls into screens that the requests make, one after the other. -/
def calls (s : DisplayScheme κ) : List Request → List Call
  | [] => []
  | request :: requests =>
    let now := (s.handle R FONT decode request).1
    now ++ calls (now.foldl (exec R FONT) s) requests

/-- Where the framebuffer differs from the active screen, the row of text waits to be copied. -/
def Visible (s : DisplayScheme κ) : Prop :=
  ∀ screen, s.screens.entry s.active = some screen → ∀ p < screen.display.size,
    s.onscreen p ≠ screen.display.offscreen p → screen.display.textRow p ∈ screen.changed

/-- What is new in the framebuffer is from the screen that is active now. If that is another screen
than before, the framebuffer shows all of it. -/
structure Painted (s s' : DisplayScheme κ) : Prop where
  source : ∀ p, s'.onscreen p ≠ s.onscreen p → ∃ screen, s'.screens.entry s'.active = some screen ∧
    s'.onscreen p = screen.display.offscreen p
  shown : s'.active ≠ s.active → ∀ screen, s'.screens.entry s'.active = some screen →
    ∀ p < screen.display.size, s'.onscreen p = screen.display.offscreen p

/-- Nothing that is written to the active screen moves pixels below its last whole row of text. -/
def SettledWrite (s : DisplayScheme κ) (buf : List UInt8) : Prop :=
  match s.screens.entry s.active with
  | some (.text t) => Settled R t buf
  | _ => True

/-- The condition on a call: no `open` makes another screen active, and what is written to the
active screen does not scroll it if its height is not in whole rows of text. -/
def Harmless (s : DisplayScheme κ) : Call → Prop
  | .activate id => id = s.active
  | .write id buf => id = s.active → s.SettledWrite R buf
  | .echo buf => s.SettledWrite R buf
  | _ => True

end DisplayScheme

section Screens

variable {R FONT} {screen : Screen κ} {onscreen : Buffer} {buf : List UInt8} {p : Nat}

/-- `Visible` of one screen that is active. -/
def Shows (screen : Screen κ) (onscreen : Buffer) : Prop :=
  ∀ p < screen.display.size, onscreen p ≠ screen.display.offscreen p →
    screen.display.textRow p ∈ screen.changed

/-- What a method has changed in the framebuffer is from the buffer of its screen. -/
def Sources (onscreen : Buffer) (after : Screen κ × Buffer) : Prop :=
  ∀ p, after.2 p ≠ onscreen p → after.2 p = after.1.display.offscreen p

theorem shows_of_marks {t t' : TextScreen κ} (h : Shows (.text t) onscreen) (hm : Marks t t') :
    Shows (.text t') onscreen := by
  intro p hp hne
  show t'.display.textRow p ∈ t'.changed
  have hsize : p < t.display.size := hm.size ▸ hp
  rw [hm.textRow]
  by_cases hsame : t'.display.offscreen p = t.display.offscreen p
  · apply hm.listed
    apply h p hsize
    show onscreen p ≠ t.display.offscreen p
    rw [← hsame]
    exact hne
  · exact hm.drawn p hsize hsame

theorem text_sync_shows {t : TextScreen κ} (h : Shows (.text t) onscreen) :
    Shows (.text (t.sync onscreen).1) (t.sync onscreen).2 := by
  intro p hp hne
  exfalso
  apply hne
  show t.display.syncRows t.changed onscreen p = t.display.offscreen p
  by_cases hrow : t.display.textRow p ∈ t.changed
  · exact Display.syncRows_listed hp hrow
  · obtain hold | hnew := Display.syncRows_either (d := t.display) (p := p) t.changed onscreen
    · rw [hold]
      by_contra hdiff
      exact hrow (h p hp hdiff)
    · exact hnew

theorem text_sync_sources (t : TextScreen κ) :
    ∀ p, (t.sync onscreen).2 p ≠ onscreen p → (t.sync onscreen).2 p = t.display.offscreen p :=
  fun _ hne => (Display.syncRows_either t.changed onscreen).resolve_left hne

theorem write_shows (h : Shows screen onscreen)
    (hs : ∀ t, screen = .text t → Settled R t buf) :
    Shows (screen.write R FONT onscreen buf true).1 (screen.write R FONT onscreen buf true).2 := by
  cases screen with
  | text t =>
    have hrender : Shows (.text (t.render R FONT buf)) onscreen :=
      shows_of_marks h (render_marks (hs t rfl))
    unfold Screen.write TextScreen.write
    dsimp only
    split
    · exact text_sync_shows hrender
    · exact hrender
  | graphic g =>
    unfold Screen.write GraphicScreen.write
    dsimp only
    split
    · intro p hp hne
      exact h p hp fun heq => hne (GraphicScreen.fill_congr heq)
    · exact h

theorem write_sources :
    Sources onscreen (screen.write R FONT onscreen buf true) := by
  intro p hne
  cases screen with
  | text t =>
    unfold Screen.write TextScreen.write at hne ⊢
    dsimp only at hne ⊢
    split at hne
    · rename_i hraw
      rw [if_pos hraw]
      exact text_sync_sources _ p hne
    · exact absurd rfl hne
  | graphic g =>
    unfold Screen.write GraphicScreen.write at hne ⊢
    dsimp only at hne ⊢
    split at hne
    · rename_i hroom
      rw [if_pos hroom]
      exact GraphicScreen.fill_eq _ hne
    · exact absurd rfl hne

theorem write_quiet : (screen.write R FONT onscreen buf false).2 = onscreen := by
  cases screen with
  | text t =>
    unfold Screen.write TextScreen.write
    dsimp only
    rw [if_neg (fun h => Bool.false_ne_true h.2)]
  | graphic g =>
    unfold Screen.write GraphicScreen.write
    dsimp only
    split <;> rfl

theorem redraw_all (hp : p < (screen.redraw onscreen).1.display.size) :
    (screen.redraw onscreen).2 p = (screen.redraw onscreen).1.display.offscreen p := by
  cases screen with
  | text t => exact Display.sync_all hp
  | graphic g => exact Display.sync_all hp

theorem redraw_sources : Sources onscreen (screen.redraw onscreen) := by
  intro p hne
  cases screen with
  | text t => exact Display.sync_either.resolve_left hne
  | graphic g => exact Display.sync_either.resolve_left hne

theorem sync_shows (h : Shows screen onscreen) :
    Shows (screen.sync onscreen).1 (screen.sync onscreen).2 := by
  cases screen with
  | text t => exact text_sync_shows h
  | graphic g => exact fun p hp hne => absurd (Display.sync_all hp) hne

theorem sync_sources : Sources onscreen (screen.sync onscreen) := by
  intro p hne
  cases screen with
  | text t => exact text_sync_sources t p hne
  | graphic g => exact Display.sync_either.resolve_left hne

end Screens

namespace DisplayScheme

variable {R FONT decode} {s : DisplayScheme κ} {id : Nat}
  {method : Screen κ → Buffer → Screen κ × Buffer}

theorem call_active : (s.call id method).active = s.active := by
  unfold call
  split <;> rfl

/-- What a call makes of the framebuffer and of the screen that is active. -/
theorem call_cases (s : DisplayScheme κ) (id : Nat) (method : Screen κ → Buffer → Screen κ × Buffer) :
    (s.screens.entry id = none ∧ s.call id method = s) ∨
    ∃ screen, s.screens.entry id = some screen ∧
      (s.call id method).onscreen = (method screen s.onscreen).2 ∧
      (s.call id method).screens.entry id = some (method screen s.onscreen).1 ∧
      ∀ k ≠ id, (s.call id method).screens.entry k = s.screens.entry k := by
  unfold call
  cases h : s.screens.entry id with
  | none => exact Or.inl ⟨rfl, rfl⟩
  | some screen =>
    refine Or.inr ⟨screen, rfl, rfl, ?_, ?_⟩
    · rw [Table.entry_modify_self, h]
      rfl
    · exact fun k hk => Table.entry_modify_of_ne hk

/-- The screen that is active keeps showing, and other screens leave the framebuffer alone. -/
theorem call_visible (hv : s.Visible)
    (hself : id = s.active → ∀ screen, s.screens.entry id = some screen → Shows screen s.onscreen →
      Shows (method screen s.onscreen).1 (method screen s.onscreen).2)
    (hother : id ≠ s.active → ∀ screen, (method screen s.onscreen).2 = s.onscreen) :
    (s.call id method).Visible := by
  obtain ⟨-, hsame⟩ | ⟨screen, hscreen, honscreen, hentry, hrest⟩ := call_cases s id method
  · rw [hsame]
    exact hv
  · intro now hnow
    rw [call_active] at hnow
    rw [honscreen]
    by_cases hid : id = s.active
    · rw [← hid, hentry] at hnow
      cases hnow
      exact hself hid screen hscreen (hv screen (hid ▸ hscreen))
    · rw [hrest _ (Ne.symm hid)] at hnow
      rw [hother hid]
      exact hv now hnow

theorem call_painted
    (hself : id = s.active → ∀ screen, Sources s.onscreen (method screen s.onscreen))
    (hother : id ≠ s.active → ∀ screen, (method screen s.onscreen).2 = s.onscreen) :
    Painted s (s.call id method) := by
  refine ⟨?_, fun h => absurd call_active h⟩
  intro p hne
  obtain ⟨-, hsame⟩ | ⟨screen, hscreen, honscreen, hentry, hrest⟩ := call_cases s id method
  · rw [hsame] at hne
    exact absurd rfl hne
  · rw [honscreen] at hne ⊢
    by_cases hid : id = s.active
    · rw [call_active, ← hid]
      exact ⟨_, hentry, hself hid screen p hne⟩
    · rw [hother hid] at hne
      exact absurd rfl hne

theorem switch_shown {screen : Screen κ} {p : Nat}
    (h : (s.call id Screen.redraw).screens.entry id = some screen) (hp : p < screen.display.size) :
    (s.call id Screen.redraw).onscreen p = screen.display.offscreen p := by
  obtain ⟨hnone, hsame⟩ | ⟨old, -, honscreen, hentry, -⟩ := call_cases s id Screen.redraw
  · rw [hsame, hnone] at h
    cases h
  · rw [hentry] at h
    cases h
    rw [honscreen]
    exact redraw_all hp

/-- Every call that meets the condition keeps the framebuffer in line with the active screen. -/
theorem visible_step (s : DisplayScheme κ) (call : Call) (hv : s.Visible)
    (hc : s.Harmless R call) : (s.exec R FONT call).Visible := by
  have hsettled : ∀ {buf : List UInt8}, s.SettledWrite R buf → ∀ screen,
      s.screens.entry s.active = some screen → ∀ t, screen = .text t → Settled R t buf := by
    intro buf h screen hscreen t ht
    unfold SettledWrite at h
    rw [hscreen, ht] at h
    exact h
  cases call with
  | activate id =>
    have hid : id = s.active := hc
    show Visible { s with active := id }
    rw [hid]
    exact hv
  | switch id =>
    intro screen hscreen p hp hne
    exact absurd (switch_shown hscreen hp) hne
  | write id buf =>
    apply call_visible hv
    · intro hid screen hscreen hshows
      rw [hid, beq_self_eq_true]
      exact write_shows hshows (hsettled (hc hid) screen (hid ▸ hscreen))
    · intro hid screen
      rw [beq_false_of_ne hid]
      exact write_quiet
  | sync id =>
    unfold exec
    dsimp only
    split
    · rename_i hid
      exact call_visible hv (fun _ _ _ => sync_shows) fun hne => absurd hid hne
    · exact hv
  | input event =>
    refine call_visible hv (fun _ screen _ hshows => ?_) fun _ _ => rfl
    cases screen with
    | text t => exact hshows
    | graphic g =>
      intro p
      have hdisplay : (g.takeEvent event).display = g.display := by
        unfold GraphicScreen.takeEvent
        split <;> rfl
      show p < (g.takeEvent event).display.size → _ ≠ (g.takeEvent event).display.offscreen p → _
      rw [hdisplay]
      exact fun hp hne => absurd (hshows p hp hne) List.not_mem_nil
  | echo buf =>
    apply call_visible hv
    · intro _ screen hscreen hshows
      exact write_shows hshows (hsettled hc screen hscreen)
    · exact fun hne => absurd rfl hne
  | read id len =>
    refine call_visible hv (fun _ screen _ hshows => ?_) fun _ _ => rfl
    cases screen with
    | text t => exact hshows
    | graphic g => exact hshows
  | seek id pos whence =>
    refine call_visible hv (fun _ screen _ hshows => ?_) fun _ _ => rfl
    cases screen with
    | text t => exact hshows
    | graphic g => exact hshows

/-- No call copies anything else than the active screen. -/
theorem painted_step (s : DisplayScheme κ) (call : Call) (hc : s.Harmless R call) :
    Painted s (s.exec R FONT call) := by
  have hquiet : ∀ {f : Screen κ → Screen κ} {screen : Screen κ},
      Sources s.onscreen ((f screen, s.onscreen) : Screen κ × Buffer) := fun _ hne => absurd rfl hne
  cases call with
  | activate id => exact ⟨fun _ hne => absurd rfl hne, fun hne => absurd hc hne⟩
  | switch id =>
    refine ⟨?_, fun _ screen hscreen p hp => switch_shown hscreen hp⟩
    intro p hne
    obtain ⟨-, hsame⟩ | ⟨old, -, honscreen, hentry, -⟩ := call_cases s id Screen.redraw
    · have hne' : (s.call id Screen.redraw).onscreen p ≠ s.onscreen p := hne
      rw [hsame] at hne'
      exact absurd rfl hne'
    · refine ⟨_, hentry, ?_⟩
      show (s.call id Screen.redraw).onscreen p = _
      have hne' : (s.call id Screen.redraw).onscreen p ≠ s.onscreen p := hne
      rw [honscreen] at hne' ⊢
      exact redraw_sources p hne'
  | write id buf =>
    show Painted s (s.call id fun screen onscreen => screen.write R FONT onscreen buf (id == s.active))
    apply call_painted
    · intro hid screen
      rw [hid, beq_self_eq_true]
      exact write_sources
    · intro hid screen
      rw [beq_false_of_ne hid]
      exact write_quiet
  | sync id =>
    unfold exec
    dsimp only
    split
    · rename_i hid
      exact call_painted (fun _ _ => sync_sources) fun hne => absurd hid hne
    · exact ⟨fun _ hne => absurd rfl hne, fun hne => absurd rfl hne⟩
  | input event =>
    show Painted s (s.call s.active fun screen onscreen => (screen.queue R event, onscreen))
    exact call_painted (fun _ _ => hquiet) fun _ _ => rfl
  | echo buf =>
    show Painted s (s.call s.active fun screen onscreen => screen.write R FONT onscreen buf true)
    exact call_painted (fun _ _ => write_sources) fun hne => absurd rfl hne
  | read id len => exact call_painted (fun _ _ => hquiet) fun _ _ => rfl
  | seek id pos whence => exact call_painted (fun _ _ => hquiet) fun _ _ => rfl

/-- Both kinds of memory are cleared, except for the last pixel of an odd number. -/
theorem visible_new {width height : Nat} {onscreen : Buffer} {memory : Nat → Buffer}
    {spec : List Bool} (heven : width * height % 2 = 0) :
    (new R width height onscreen memory spec).Visible := by
  intro screen hscreen p hp hne
  exfalso
  apply hne
  have hdisplay : ∃ b : Buffer, screen.display = Display.new width height b := by
    unfold new at hscreen
    dsimp only at hscreen
    rw [Table.entry_insertAll_of_ge _ (le_refl 1), List.getElem?_mapIdx] at hscreen
    obtain ⟨screen_type, -, hmade⟩ := Option.map_eq_some_iff.mp hscreen
    rw [← hmade]
    split
    · exact ⟨_, rfl⟩
    · exact ⟨_, rfl⟩
  obtain ⟨b, hb⟩ := hdisplay
  rw [hb] at hp ⊢
  have hin : p < 0 + 2 * (width * height / 2) := by
    rw [Nat.zero_add, Nat.mul_div_cancel' (Nat.dvd_of_mod_eq_zero heven)]
    exact hp
  calc onscreen.clear (width * height) p = 0 := Buffer.span_inside (Nat.zero_le p) hin
    _ = b.clear (width * height) p :=
      (Buffer.span_inside (f := fun _ _ => 0) (Nat.zero_le p) hin).symm

instance (s : DisplayScheme κ) (buf : List UInt8) : Decidable (s.SettledWrite R buf) := by
  unfold SettledWrite
  split
  · infer_instance
  · infer_instance

instance (s : DisplayScheme κ) : DecidablePred (s.Harmless R)
  | .activate _ => inferInstanceAs (Decidable (_ = _))
  | .write .. => inferInstanceAs (Decidable (_ → _))
  | .echo _ => inferInstanceAs (Decidable (s.SettledWrite R _))
  | .switch _ | .sync _ | .input _ | .read .. | .seek .. => .isTrue trivial

/-- Whatever the clients ask for, the framebuffer is only written from the active screen, and differs
from it only in rows of text that wait to be copied; if the number of pixels is even, no `open` makes
another screen active, and the active screen does not scroll while its height is not in whole rows
of text. -/
theorem framebuffer_follows (width height : Nat) (onscreen : Buffer) (memory : Nat → Buffer)
    (spec : List Bool) (requests : List Request) (heven : width * height % 2 = 0)
    (hc : Each (exec R FONT) (Harmless R) (new R width height onscreen memory spec)
      ((new R width height onscreen memory spec).calls R FONT decode requests)) :
    Throughout (exec R FONT) Visible (new R width height onscreen memory spec)
      ((new R width height onscreen memory spec).calls R FONT decode requests) ∧
    Each (exec R FONT) (fun s call => Painted s (s.exec R FONT call))
      (new R width height onscreen memory spec)
      ((new R width height onscreen memory spec).calls R FONT decode requests) :=
  ⟨throughout_of_each visible_step (fun _ h => h) (visible_new heven) hc,
    each_of_each (I := fun _ => True) (fun _ _ _ _ => trivial) (fun s call _ h => painted_step s call h) trivial hc⟩

/-- A console of one line, that takes bytes which are printed. -/
structure Line where
  w : Nat
  h : Nat
  x : Nat

def Line.ransid : Ransid Line where
  new w h := ⟨w, h, 0⟩
  write line buf :=
    ({ line with x := line.x + buf.length },
      buf.mapIdx fun i b => .char (line.x + i) 0 (Char.ofNat b.toNat) 0xFFFFFF)
  rawMode _ := false
  cursor _ := true
  x := Line.x
  y _ := 0
  w := Line.w
  h := Line.h

/-- A text and a graphic screen of two cells. -/
def small : DisplayScheme Line := new Line.ransid 16 16 (fun _ => 0) (fun _ _ => 0) [false, true]

/-- Both screens are written to, and the second one is shown. -/
theorem framebuffer_follows_small :
    let calls := small.calls Line.ransid [] (fun _ => []) [.write 1 [0x61], .write 2 [1, 0, 0, 0],
      .write 0 [0xF5], .open "2/activate".toList 0, .write 2 [7, 0, 0, 0], .fsync 2]
    Throughout (exec Line.ransid []) Visible small calls ∧
      Each (exec Line.ransid []) (fun s call => Painted s (s.exec Line.ransid [] call)) small calls :=
  framebuffer_follows 16 16 (fun _ => 0) (fun _ _ => 0) [false, true] _
    (by decide) (by decide +kernel)

/-- A screen that `open` makes active is not drawn. -/
theorem activate_without_redraw :
    let s := new Line.ransid 2 1 (fun _ => 0) (fun _ _ => 0) [true, true]
    let calls := s.calls Line.ransid [] (fun _ => []) [.write 2 [1, 0, 0, 0],
      .open "2/activate".toList 0]
    ¬ Throughout (exec Line.ransid []) Visible s calls := by
  intro s calls h
  have hlast : (calls.foldl (exec Line.ransid []) s).active = 2 := by decide +kernel
  have hv := h.last
  obtain ⟨g, hg, hsize, hpixel⟩ : ∃ g, (calls.foldl (exec Line.ransid []) s).screens.entry 2 =
      some (.graphic g) ∧ 0 < g.display.size ∧
      (calls.foldl (exec Line.ransid []) s).onscreen 0 ≠ g.display.offscreen 0 :=
    ⟨_, rfl, by decide +kernel, by decide +kernel⟩
  exact absurd (hv (.graphic g) (hlast ▸ hg) 0 hsize hpixel) List.not_mem_nil

end DisplayScheme

end Origel.Vesad
