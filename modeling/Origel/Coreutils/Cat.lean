import Origel.Lib.Lines

/-! The loop of `cat` over the bytes of its input. -/
namespace Origel.Coreutils

/-- The flags of a `Program` -/
structure Program where
  number : Bool
  numberNonblank : Bool
  showEnds : Bool
  showTabs : Bool
  showNonprinting : Bool
  squeezeBlank : Bool
  deriving DecidableEq, Repr

namespace Program

def new : Program := ⟨false, false, false, false, false, false⟩

/-- What `initialize` does for a letter behind one dash. It ends the program, with none, for `h` and for
letters that are no option. -/
def readLetter (cat : Program) : Char → Option Program
  | 'A' => some { cat with showNonprinting := true, showEnds := true, showTabs := true }
  | 'b' => some { cat with numberNonblank := true, number := false }
  | 'e' => some { cat with showNonprinting := true, showEnds := true }
  | 'E' => some { cat with showEnds := true }
  | 'n' => some { cat with number := true, numberNonblank := false }
  | 's' => some { cat with squeezeBlank := true }
  | 't' => some { cat with showNonprinting := true, showTabs := true }
  | 'T' => some { cat with showTabs := true }
  | 'v' => some { cat with showNonprinting := true }
  | _ => none

/-- What `initialize` does for the name of a long option -/
def readLong (cat : Program) (argument : List Char) : Option Program :=
  if argument = "--show-all".toList then cat.readLetter 'A'
  else if argument = "--number-nonblank".toList then cat.readLetter 'b'
  else if argument = "--show-ends".toList then cat.readLetter 'E'
  else if argument = "--number".toList then cat.readLetter 'n'
  else if argument = "--squeeze-blank".toList then cat.readLetter 's'
  else if argument = "--show-tabs".toList then cat.readLetter 'T'
  else if argument = "--show-nonprinting".toList then cat.readLetter 'v'
  else none

/-- `initialize`: the flags and the paths -/
def initializeArgs (cat : Program) (paths : List (List Char)) :
    List (List Char) → Option (Program × List (List Char))
  | [] => some (cat, paths)
  | argument :: arguments =>
    match argument with
    | '-' :: '-' :: _ => (cat.readLong argument).bind (initializeArgs · paths arguments)
    | '-' :: c :: letters => ((c :: letters).foldlM readLetter cat).bind (initializeArgs · paths arguments)
    | _ => initializeArgs cat (paths ++ [argument]) arguments

variable (p : Program)

def flagsEnabled : Bool :=
  p.number || p.numberNonblank || p.showEnds || p.showTabs || p.squeezeBlank || p.showNonprinting

/-- The variables of `cat`, the counter of lines and what has been written -/
structure State where
  characterCount : Nat
  lastLineWasBlank : Bool
  lineCount : Nat
  stdout : List UInt8

namespace State

variable (s : State)

def write (buf : List UInt8) : State := { s with stdout := s.stdout ++ buf }

/-- `push_caret` -/
def pushCaret (notation' : UInt8) : State := (s.write [0x5e]).write [notation']

end State

/-- `count_character` -/
def countCharacter (s : State) : State :=
  if p.number || p.numberNonblank then { s with characterCount := s.characterCount + 1 } else s

/-- `to_string` of a number -/
def digits (n : Nat) : List UInt8 := (Nat.toDigits 10 n).map fun c => c.val.toUInt8

/-- The number of a line as it is written -/
def numberText (n : Nat) : List UInt8 := List.replicate 5 0x20 ++ digits n ++ [0x20, 0x20]

/-- What is written in front of a byte -/
def stepNumber (s : State) (byte : UInt8) : State :=
  if p.number && s.characterCount == 0 || s.characterCount == 0 && p.numberNonblank && byte != 0x0a then
    { s.write (numberText s.lineCount) with lineCount := s.lineCount + 1 }
  else s

/-- The end of a line as it is written -/
def lineEnd : List UInt8 := if p.showEnds then [0x24, 0x0a] else [0x0a]

/-- The branch of the loop for a newline -/
def stepNewline (s : State) : State :=
  if s.characterCount = 0 then
    if p.squeezeBlank && s.lastLineWasBlank then s
    else { s.write p.lineEnd with lastLineWasBlank := true }
  else { s.write p.lineEnd with lastLineWasBlank := false, characterCount := 0 }

/-- The other branches -/
def stepByte (s : State) (byte : UInt8) : State :=
  if byte ≤ 8 ∨ 11 ≤ byte ∧ byte ≤ 31 then
    if p.showNonprinting then p.countCharacter (s.pushCaret (byte + 64)) else s
  else if byte = 9 then
    p.countCharacter (if p.showTabs then s.pushCaret 0x49 else s.write [byte])
  else if 32 ≤ byte ∧ byte ≤ 126 then p.countCharacter (s.write [byte])
  else if byte = 127 then
    if p.showNonprinting then p.countCharacter (s.pushCaret 0x3f) else s
  else if 128 ≤ byte ∧ byte ≤ 159 then
    if p.showNonprinting then p.countCharacter ((s.write [0x4d, 0x2d, 0x5e]).write [byte - 64])
    else p.countCharacter (s.write [byte])
  else if p.showNonprinting then p.countCharacter ((s.write [0x4d, 0x2d]).write [byte - 128])
  else p.countCharacter (s.write [byte])

/-- The body of the loop -/
def step (s : State) (byte : UInt8) : State :=
  let s := p.stepNumber s byte
  if byte = 0x0a then p.stepNewline s else p.stepByte s byte

/-- `cat` -/
def cat (file : List UInt8) (lineCount : Nat) : State := file.foldl p.step ⟨0, false, lineCount, []⟩

/-- `and_execute` without paths: what is written for the standard input -/
def andExecute (stdin : List UInt8) : List UInt8 :=
  if p.flagsEnabled then (p.cat stdin 0).stdout else stdin

end Program

end Origel.Coreutils
