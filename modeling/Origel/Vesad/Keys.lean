import Origel.Lib.Run

/-! The line discipline of the console driver, and the copy of it in the graphical terminal. -/
namespace Origel.Vesad

open Origel.Lib

structure KeyEvent where
  character : Char
  scancode : Nat
  pressed : Bool
  deriving DecidableEq, Repr

/-- An event of the input device, as far as a screen looks into it. -/
inductive Event where
  | key (event : KeyEvent)
  | mouse (x y : Int)
  | other
  deriving DecidableEq, Repr

/-- `c as u8` -/
def asByte (c : Char) : UInt8 := UInt8.ofNat c.toNat

/-- The bytes that a key which goes down puts into `buf`. -/
def keyBytes (ctrl : Bool) (event : KeyEvent) : List UInt8 :=
  match event.scancode with
  | 0x47 => [0x1B, 0x5B, 0x48]
  | 0x48 => [0x1B, 0x5B, 0x41]
  | 0x49 => [0x1B, 0x5B, 0x35, 0x7E]
  | 0x4B => [0x1B, 0x5B, 0x44]
  | 0x4D => [0x1B, 0x5B, 0x43]
  | 0x4F => [0x1B, 0x5B, 0x46]
  | 0x50 => [0x1B, 0x5B, 0x42]
  | 0x51 => [0x1B, 0x5B, 0x36, 0x7E]
  | 0x52 => [0x1B, 0x5B, 0x32, 0x7E]
  | 0x53 => [0x1B, 0x5B, 0x33, 0x7E]
  | _ =>
    let c := event.character
    if c.toNat = 0 then []
    else if ctrl ∧ 'A' ≤ c ∧ c ≤ 'Z' then [asByte c - asByte 'A' + 1]
    else if ctrl ∧ 'a' ≤ c ∧ c ≤ 'z' then [asByte c - asByte 'a' + 1]
    else [asByte c]

/-- What an event makes of the state of the control key, and the bytes it types. -/
def typed (ctrl : Bool) : Event → Bool × List UInt8
  | .key event =>
    if event.scancode = 0x1D then (event.pressed, [])
    else if event.pressed then (ctrl, keyBytes ctrl event)
    else (ctrl, [])
  | _ => (ctrl, [])

/-- The fields of a `TextScreen` and of a `Console` that hold what is typed. -/
structure Keys where
  ctrl : Bool
  input : List UInt8
  endOfInput : Bool
  cooked : List UInt8
  deriving DecidableEq, Repr

def Keys.new : Keys := ⟨false, [], false, []⟩

/-- One byte that is typed outside of raw mode, in the console driver, with what it echoes. -/
def TextScreen.cook (k : Keys) (b : UInt8) : Keys × List (List UInt8) :=
  if b = 0x03 then ({ k with endOfInput := true }, [[0x5E, 0x43, 0x0A]])
  else if b = 0x08 ∨ b = 0x7F then
    if k.cooked = [] then (k, []) else ({ k with cooked := k.cooked.dropLast }, [[0x08]])
  else if b = 0x1B then (k, [[0x5E, 0x5B]])
  else if b = 0x0A ∨ b = 0x0D then
    ({ k with input := k.input ++ (k.cooked ++ [b]), cooked := [] }, [[0x0A]])
  else ({ k with cooked := k.cooked ++ [b] }, [[b]])

/-- The same in the graphical terminal. -/
def Console.cook (k : Keys) (b : UInt8) : Keys × List (List UInt8) :=
  if b = 0x03 then ({ k with endOfInput := true }, [[0x5E, 0x43, 0x0A]])
  else if b = 0x08 ∨ b = 0x7F then
    if k.cooked = [] then (k, []) else ({ k with cooked := k.cooked.dropLast }, [[0x08]])
  else if b = 0x0A ∨ b = 0x0D then
    ({ k with input := k.input ++ (k.cooked ++ [b]), cooked := [] }, [[0x0A]])
  else ({ k with cooked := k.cooked ++ [b] }, [[b]])

/-- The loop over the bytes of an event. -/
def cookAll (cook : Keys → UInt8 → Keys × List (List UInt8)) (k : Keys) :
    List UInt8 → Keys × List (List UInt8)
  | [] => (k, [])
  | b :: bs =>
    let (k, echo) := cook k b
    let (k, echoes) := cookAll cook k bs
    (k, echo ++ echoes)

/-- `input`, with all that it echoes. The mode is looked at once for all bytes of the event. -/
def input (cook : Keys → UInt8 → Keys × List (List UInt8)) (raw : Bool) (k : Keys) (event : Event) :
    Keys × List (List UInt8) :=
  let (ctrl, buf) := typed k.ctrl event
  let k := { k with ctrl := ctrl }
  if raw then ({ k with input := k.input ++ buf }, []) else cookAll cook k buf

def TextScreen.input := Vesad.input TextScreen.cook

def Console.input := Vesad.input Console.cook

/-- `TextScreen::read` into a buffer of `len` bytes. -/
def TextScreen.read (k : Keys) (len : Nat) : Keys × List UInt8 :=
  let bytes := k.input.take len
  let k := { k with input := k.input.drop len }
  (if bytes = [] then { k with endOfInput := false } else k, bytes)

/-- The terminal reads all that its window has queued for the shell. -/
def Console.drain (k : Keys) : Keys × List UInt8 := ({ k with input := [] }, k.input)

/-- What can happen to either: a key, a read, and a switch of the mode by the bytes that are written
to the screen. -/
inductive Action where
  | event (event : Event)
  | read (len : Nat)
  | switch (raw : Bool)

/-- A screen or window with the mode it is in, and the bytes that reads have taken. -/
structure Terminal where
  keys : Keys
  raw : Bool
  delivered : List UInt8
  deriving DecidableEq, Repr

namespace Terminal

def new : Terminal := ⟨.new, false, []⟩

/-- The bytes queued and those delivered. -/
def passed (t : Terminal) : List UInt8 := t.delivered ++ t.keys.input

end Terminal

def TextScreen.step (t : Terminal) : Action → Terminal
  | .event event => { t with keys := (TextScreen.input t.raw t.keys event).1 }
  | .read len =>
    let (keys, bytes) := TextScreen.read t.keys len
    { t with keys, delivered := t.delivered ++ bytes }
  | .switch raw => { t with raw }

def Console.step (t : Terminal) : Action → Terminal
  | .event event => { t with keys := (Console.input t.raw t.keys event).1 }
  | .read _ =>
    let (keys, bytes) := Console.drain t.keys
    { t with keys, delivered := t.delivered ++ bytes }
  | .switch raw => { t with raw }

/-- What is typed and not erased: the bytes that stay, and those of the line that is not finished.
Each byte comes behind all that were typed before it. -/
structure Kept where
  settled : List UInt8
  line : List UInt8

namespace Kept

/-- A byte that is typed. Outside of raw mode those in `signals` are not kept. -/
def type (signals : List UInt8) (raw : Bool) (kept : Kept) (b : UInt8) : Kept :=
  if raw then ⟨kept.settled ++ kept.line ++ [b], []⟩
  else if b ∈ signals then kept
  else if b = 0x08 ∨ b = 0x7F then { kept with line := kept.line.dropLast }
  else if b = 0x0A ∨ b = 0x0D then ⟨kept.settled ++ kept.line ++ [b], []⟩
  else { kept with line := kept.line ++ [b] }

/-- What a run types, from the state of the control key and the mode on. -/
def run (signals : List UInt8) : Bool → Bool → Kept → List Action → Kept
  | _, _, kept, [] => kept
  | ctrl, raw, kept, .event event :: acts =>
    let (ctrl, buf) := typed ctrl event
    run signals ctrl raw (buf.foldl (type signals raw) kept) acts
  | ctrl, raw, kept, .read _ :: acts => run signals ctrl raw kept acts
  | ctrl, _, kept, .switch raw :: acts => run signals ctrl raw kept acts

end Kept

/-- No byte is typed in raw mode while a line is not finished. -/
def Orderly (t : Terminal) : Action → Prop
  | .event event => t.raw = true → (typed t.keys.ctrl event).2 ≠ [] → t.keys.cooked = []
  | _ => True

instance (t : Terminal) : DecidablePred (Orderly t)
  | .event _ => inferInstanceAs (Decidable (_ → _ → _))
  | .read _ => .isTrue trivial
  | .switch _ => .isTrue trivial

/-- No escape is typed outside of raw mode. -/
def NoEscape (t : Terminal) : Action → Prop
  | .event event => t.raw = false → 0x1B ∉ (typed t.keys.ctrl event).2
  | _ => True

instance (t : Terminal) : DecidablePred (NoEscape t)
  | .event _ => inferInstanceAs (Decidable (_ → _))
  | .read _ => .isTrue trivial
  | .switch _ => .isTrue trivial

variable {k k' : Keys} {kept : Kept} {b : UInt8} {buf delivered : List UInt8}
  {signals : List UInt8} {cook : Keys → UInt8 → Keys × List (List UInt8)} {t : Terminal}
  {acts : List Action}

/-- The queues hold what is kept and not delivered yet. -/
structure Follows (delivered : List UInt8) (k : Keys) (kept : Kept) : Prop where
  settled : delivered ++ k.input = kept.settled
  line : k.cooked = kept.line

/-- Outside of raw mode a byte does to the queues what it does to the bytes that are kept. -/
def Disciplined (cook : Keys → UInt8 → Keys × List (List UInt8)) (signals : List UInt8) : Prop :=
  ∀ delivered k kept b, Follows delivered k kept →
    Follows delivered (cook k b).1 (kept.type signals false b) ∧ (cook k b).1.ctrl = k.ctrl

theorem follows_erase (h : Follows delivered k kept) :
    Follows delivered { k with cooked := k.cooked.dropLast }
      { kept with line := kept.line.dropLast } := ⟨h.settled, by rw [← h.line]⟩

theorem follows_finish (h : Follows delivered k kept) :
    Follows delivered { k with input := k.input ++ (k.cooked ++ [b]), cooked := [] }
      ⟨kept.settled ++ kept.line ++ [b], []⟩ := by
  refine ⟨?_, rfl⟩
  show delivered ++ (k.input ++ (k.cooked ++ [b])) = kept.settled ++ kept.line ++ [b]
  rw [← h.settled, ← h.line, List.append_assoc, List.append_assoc]

theorem follows_more (h : Follows delivered k kept) :
    Follows delivered { k with cooked := k.cooked ++ [b] }
      { kept with line := kept.line ++ [b] } := ⟨h.settled, by rw [← h.line]⟩

theorem console_disciplined : Disciplined Console.cook [0x03] := by
  intro delivered k kept b h
  unfold Console.cook Kept.type
  simp only [Bool.false_eq_true, if_false, List.mem_singleton]
  split
  · exact ⟨⟨h.settled, h.line⟩, rfl⟩
  · split
    · split
      · rename_i hnil
        have herase := follows_erase h
        rw [hnil, List.dropLast_nil] at herase
        exact ⟨⟨h.settled, hnil.trans herase.line⟩, rfl⟩
      · exact ⟨follows_erase h, rfl⟩
    · split
      · exact ⟨follows_finish h, rfl⟩
      · exact ⟨follows_more h, rfl⟩

/-- The copies differ in one byte. -/
theorem cook_eq (hb : b ≠ 0x1B) : TextScreen.cook k b = Console.cook k b := by
  unfold TextScreen.cook Console.cook
  rw [if_neg hb]

theorem text_disciplined : Disciplined TextScreen.cook [0x03, 0x1B] := by
  intro delivered k kept b h
  by_cases hb : b = 0x1B
  · subst hb
    exact ⟨h, rfl⟩
  · have htype : kept.type [0x03, 0x1B] false b = kept.type [0x03] false b := by
      unfold Kept.type
      simp only [Bool.false_eq_true, if_false, List.mem_cons, List.not_mem_nil, or_false, hb]
    rw [cook_eq hb, htype]
    exact console_disciplined delivered k kept b h

theorem cookAll_follows (hc : Disciplined cook signals) (h : Follows delivered k kept) :
    Follows delivered (cookAll cook k buf).1 (buf.foldl (Kept.type signals false) kept) ∧
      (cookAll cook k buf).1.ctrl = k.ctrl := by
  induction buf generalizing k kept with
  | nil => exact ⟨h, rfl⟩
  | cons b buf ih =>
    obtain ⟨hone, hctrl⟩ := hc delivered k kept b h
    obtain ⟨hall, hctrl'⟩ := ih hone
    exact ⟨hall, hctrl'.trans hctrl⟩

/-- Raw bytes are typed behind the ones before if no line is unfinished. -/
theorem foldl_raw (hline : kept.line = []) :
    buf.foldl (Kept.type signals true) kept = ⟨kept.settled ++ buf, []⟩ := by
  induction buf generalizing kept with
  | nil =>
    rw [List.foldl_nil, List.append_nil, ← hline]
  | cons b buf ih =>
    have hstep : kept.type signals true b = ⟨kept.settled ++ [b], []⟩ := by
      rw [Kept.type, if_pos rfl, hline, List.append_nil]
    rw [List.foldl_cons, hstep, ih rfl, List.append_assoc]
    rfl

theorem input_follows (hc : Disciplined cook signals) {raw : Bool} (event : Event)
    (h : Follows delivered k kept)
    (ho : raw = true → (typed k.ctrl event).2 ≠ [] → k.cooked = []) :
    Follows delivered (input cook raw k event).1
        ((typed k.ctrl event).2.foldl (Kept.type signals raw) kept) ∧
      (input cook raw k event).1.ctrl = (typed k.ctrl event).1 := by
  unfold input
  cases raw with
  | false => exact cookAll_follows hc ⟨h.settled, h.line⟩
  | true =>
    refine ⟨?_, rfl⟩
    by_cases hnil : (typed k.ctrl event).2 = []
    · rw [hnil]
      refine ⟨?_, h.line⟩
      show delivered ++ (k.input ++ (typed k.ctrl event).2) = kept.settled
      rw [hnil, List.append_nil]
      exact h.settled
    · have hcooked := ho rfl hnil
      rw [foldl_raw (h.line.symm.trans hcooked)]
      refine ⟨?_, hcooked⟩
      show delivered ++ (k.input ++ (typed k.ctrl event).2) = kept.settled ++ _
      rw [← h.settled, List.append_assoc]

/-- In an orderly run the queues hold what is kept and not delivered yet. -/
theorem text_run (h : Follows t.delivered t.keys kept)
    (ho : Each TextScreen.step Orderly t acts) :
    Follows (acts.foldl TextScreen.step t).delivered (acts.foldl TextScreen.step t).keys
      (Kept.run [0x03, 0x1B] t.keys.ctrl t.raw kept acts) := by
  induction acts generalizing t kept with
  | nil => exact h
  | cons act acts ih =>
    cases act with
    | event event =>
      obtain ⟨hnext, hctrl⟩ := input_follows text_disciplined event h ho.1
      have hrest := ih hnext ho.2
      have hctrl' : (TextScreen.step t (.event event)).keys.ctrl = (typed t.keys.ctrl event).1 := hctrl
      rw [hctrl'] at hrest
      exact hrest
    | switch raw => exact ih h ho.2
    | read len =>
      have hread : Follows (TextScreen.step t (.read len)).delivered
          (TextScreen.step t (.read len)).keys kept := by
        unfold TextScreen.step TextScreen.read
        dsimp only
        split
        · refine ⟨?_, h.line⟩
          rw [← h.settled]
          show t.delivered ++ t.keys.input.take len ++ t.keys.input.drop len = _
          rw [List.append_assoc, List.take_append_drop]
        · refine ⟨?_, h.line⟩
          rw [← h.settled]
          show t.delivered ++ t.keys.input.take len ++ t.keys.input.drop len = _
          rw [List.append_assoc, List.take_append_drop]
      have hctrl : (TextScreen.step t (.read len)).keys.ctrl = t.keys.ctrl := by
        unfold TextScreen.step TextScreen.read
        dsimp only
        split <;> rfl
      have hrest := ih hread ho.2
      rw [hctrl] at hrest
      exact hrest

theorem console_run (h : Follows t.delivered t.keys kept)
    (ho : Each Console.step Orderly t acts) :
    Follows (acts.foldl Console.step t).delivered (acts.foldl Console.step t).keys
      (Kept.run [0x03] t.keys.ctrl t.raw kept acts) := by
  induction acts generalizing t kept with
  | nil => exact h
  | cons act acts ih =>
    cases act with
    | event event =>
      obtain ⟨hnext, hctrl⟩ := input_follows console_disciplined event h ho.1
      have hrest := ih hnext ho.2
      have hctrl' : (Console.step t (.event event)).keys.ctrl = (typed t.keys.ctrl event).1 := hctrl
      rw [hctrl'] at hrest
      exact hrest
    | switch raw => exact ih h ho.2
    | read len =>
      have hread : Follows (Console.step t (.read len)).delivered
          (Console.step t (.read len)).keys kept :=
        ⟨(List.append_nil _).trans h.settled, h.line⟩
      exact ih hread ho.2

/-- Both have queued the same bytes, read or not. -/
structure Alike (t t' : Terminal) : Prop where
  ctrl : t.keys.ctrl = t'.keys.ctrl
  raw : t.raw = t'.raw
  passed : t.passed = t'.passed
  cooked : t.keys.cooked = t'.keys.cooked

/-- Two states of the queues that differ in what has been read. -/
structure Shifted (delivered delivered' : List UInt8) (k k' : Keys) : Prop where
  passed : delivered ++ k.input = delivered' ++ k'.input
  cooked : k.cooked = k'.cooked
  ctrl : k.ctrl = k'.ctrl

theorem cook_shifted {delivered' : List UInt8} (h : Shifted delivered delivered' k k') :
    Shifted delivered delivered' (Console.cook k b).1 (Console.cook k' b).1 := by
  unfold Console.cook
  rw [h.cooked]
  split
  · exact ⟨h.passed, rfl, h.ctrl⟩
  · split
    · split
      · exact h
      · exact ⟨h.passed, rfl, h.ctrl⟩
    · split
      · refine ⟨?_, rfl, h.ctrl⟩
        show delivered ++ (k.input ++ (k'.cooked ++ [b])) = delivered' ++ (k'.input ++ (k'.cooked ++ [b]))
        rw [← List.append_assoc, h.passed, List.append_assoc]
      · exact ⟨h.passed, rfl, h.ctrl⟩

theorem cookAll_shifted {delivered' : List UInt8} (h : Shifted delivered delivered' k k')
    (hb : 0x1B ∉ buf) :
    Shifted delivered delivered' (cookAll TextScreen.cook k buf).1 (cookAll Console.cook k' buf).1 := by
  induction buf generalizing k k' with
  | nil => exact h
  | cons b buf ih =>
    have hne : b ≠ 0x1B := fun heq => hb (heq ▸ List.mem_cons_self)
    have hcook := cook_shifted (b := b) h
    rw [← cook_eq (k := k) hne] at hcook
    exact ih hcook fun hmem => hb (List.mem_cons_of_mem b hmem)

theorem alike_step {t' : Terminal} (h : Alike t t') (act : Action) (hno : NoEscape t act) :
    Alike (TextScreen.step t act) (Console.step t' act) := by
  have hshift : Shifted t.delivered t'.delivered t.keys t'.keys := ⟨h.passed, h.cooked, h.ctrl⟩
  cases act with
  | event event =>
    have htyped : typed t.keys.ctrl event = typed t'.keys.ctrl event := by rw [h.ctrl]
    have hinput : Shifted t.delivered t'.delivered (TextScreen.input t.raw t.keys event).1
        (Console.input t'.raw t'.keys event).1 := by
      unfold TextScreen.input Console.input Vesad.input
      rw [← h.raw, ← htyped]
      cases hraw : t.raw with
      | false => exact cookAll_shifted ⟨h.passed, h.cooked, rfl⟩ (hno hraw)
      | true =>
        refine ⟨?_, h.cooked, rfl⟩
        show t.delivered ++ (t.keys.input ++ _) = t'.delivered ++ (t'.keys.input ++ _)
        rw [← List.append_assoc, hshift.passed, List.append_assoc]
    exact ⟨hinput.ctrl, h.raw, hinput.passed, hinput.cooked⟩
  | switch raw => exact ⟨h.ctrl, rfl, h.passed, h.cooked⟩
  | read len =>
    have hpassed : ∀ k : Keys, k.input = t.keys.input.drop len →
        t.delivered ++ t.keys.input.take len ++ k.input =
          t'.delivered ++ t'.keys.input ++ [] := by
      intro k hk
      rw [hk, List.append_assoc, List.take_append_drop, List.append_nil]
      exact h.passed
    unfold TextScreen.step TextScreen.read
    dsimp only
    split
    · exact ⟨h.ctrl, h.raw, hpassed _ rfl, h.cooked⟩
    · exact ⟨h.ctrl, h.raw, hpassed _ rfl, h.cooked⟩

theorem alike_run {t' : Terminal} (h : Alike t t') (hno : Each TextScreen.step NoEscape t acts) :
    Alike (acts.foldl TextScreen.step t) (acts.foldl Console.step t') := by
  induction acts generalizing t t' with
  | nil => exact h
  | cons act acts ih => exact ih (alike_step h act hno.1) hno.2

/-- What has been delivered and is queued is what was typed and not erased, in order, and the line
that is not finished is not delivered. Control-C is not kept, and the console driver does not keep
the escape byte either. Where none is typed, the two copies queue the same. -/
theorem one_line_discipline (acts : List Action) :
    (Each TextScreen.step Orderly .new acts →
      (acts.foldl TextScreen.step .new).passed =
        (Kept.run [0x03, 0x1B] false false ⟨[], []⟩ acts).settled ∧
      (acts.foldl TextScreen.step .new).keys.cooked =
        (Kept.run [0x03, 0x1B] false false ⟨[], []⟩ acts).line) ∧
    (Each Console.step Orderly .new acts →
      (acts.foldl Console.step .new).passed =
        (Kept.run [0x03] false false ⟨[], []⟩ acts).settled ∧
      (acts.foldl Console.step .new).keys.cooked =
        (Kept.run [0x03] false false ⟨[], []⟩ acts).line) ∧
    (Each TextScreen.step NoEscape .new acts →
      (acts.foldl TextScreen.step .new).passed = (acts.foldl Console.step .new).passed ∧
      (acts.foldl TextScreen.step .new).keys.cooked =
        (acts.foldl Console.step .new).keys.cooked) := by
  refine ⟨?_, ?_, ?_⟩
  · intro ho
    have h : Follows (acts.foldl TextScreen.step .new).delivered (acts.foldl TextScreen.step .new).keys
        (Kept.run [0x03, 0x1B] false false ⟨[], []⟩ acts) := text_run ⟨rfl, rfl⟩ ho
    exact ⟨h.settled, h.line⟩
  · intro ho
    have h : Follows (acts.foldl Console.step .new).delivered (acts.foldl Console.step .new).keys
        (Kept.run [0x03] false false ⟨[], []⟩ acts) := console_run ⟨rfl, rfl⟩ ho
    exact ⟨h.settled, h.line⟩
  · intro hno
    have h := alike_run ⟨rfl, rfl, rfl, rfl⟩ hno
    exact ⟨h.passed, h.cooked⟩

/-- A key that goes down. -/
def press (c : Char) : Action := .event (.key ⟨c, 0, true⟩)

def controlDown : Action := .event (.key ⟨'\x00', 0x1D, true⟩)

/-- A line with an erased byte, read in two parts, and a byte typed in raw mode. -/
theorem one_line_discipline_hi :
    let acts := [press 'h', press 'o', press '\x08', press 'i', .read 5, press '\n', .read 1,
      .switch true, press 'q'];
    ((acts.foldl TextScreen.step .new).passed = [0x68, 0x69, 0x0A, 0x71] ∧
      (acts.foldl TextScreen.step .new).keys.cooked = []) ∧
    (acts.foldl TextScreen.step .new).passed = (acts.foldl Console.step .new).passed := by
  intro acts
  have h := one_line_discipline acts
  have hrun : (Kept.run [0x03, 0x1B] false false ⟨[], []⟩ acts).settled = [0x68, 0x69, 0x0A, 0x71] ∧
      (Kept.run [0x03, 0x1B] false false ⟨[], []⟩ acts).line = [] := by decide
  have htext := h.1 (by decide)
  rw [hrun.1, hrun.2] at htext
  exact ⟨htext, (h.2.2 (by decide)).1⟩

/-- Control-C is typed and not erased, but not queued. An escape is queued by one copy only. A byte
typed in raw mode comes before one that was typed earlier, in a line that is not finished. -/
theorem line_disciplines_differ :
    (let acts := [press 'a', controlDown, press 'c', press '\n'];
      (acts.foldl TextScreen.step .new).passed ++ (acts.foldl TextScreen.step .new).keys.cooked ≠
        (Kept.run [] false false ⟨[], []⟩ acts).settled ++
          (Kept.run [] false false ⟨[], []⟩ acts).line) ∧
    (let acts := [press '\x1B', press '\n'];
      (acts.foldl TextScreen.step .new).passed = [0x0A] ∧
        (acts.foldl Console.step .new).passed = [0x1B, 0x0A]) ∧
    (let acts := [press 'a', .switch true, press 'b', .switch false, press '\n'];
      (acts.foldl TextScreen.step .new).passed = [0x62, 0x61, 0x0A] ∧
        (Kept.run [] false false ⟨[], []⟩ acts).settled = [0x61, 0x62, 0x0A]) := by
  decide

end Origel.Vesad
