import Origel.Ion.Braces
import Origel.Ion.Text
import Origel.Ion.Variables
import Origel.Lib.Loop

/-! The words of a string, and `expand_string`, which expands it word by word. -/
namespace Origel.Ion

open Origel.Lib

inductive ExpandErr where
  | UnmatchedBraces (id : Nat)
  | InnerBracesNotImplemented
  deriving DecidableEq, Repr

inductive WordToken where
  | Normal (text : List Char)
  | Tilde (text : List Char)
  | Brace (text : List Char) (containsVariables : Bool)
  | Variable (text : List Char) (quoted : Bool)
  deriving DecidableEq, Repr

/-- The bits of `flags` of a `WordIterator` -/
structure WordFlags where
  whitespace : Bool
  singleQuote : Bool
  doubleQuote : Bool
  prevWasVar : Bool
  braces : Bool
  hasVariables : Bool
  tilde : Bool
  openBrace : Bool
  deriving DecidableEq, Repr

namespace WordFlags

def quoted (f : WordFlags) : Bool := f.singleQuote || f.doubleQuote

/-- `flags &= 255 ^ (BRACES + TILDE + VARIABLES + PREV_WAS_VAR + OPEN_BRACE)` -/
def fresh (f : WordFlags) : WordFlags :=
  { f with
    braces := false
    tilde := false
    hasVariables := false
    prevWasVar := false
    openBrace := false }

/-- The token that a blank, or the end, makes of a text. -/
def token (f : WordFlags) (text : List Char) : WordToken :=
  if f.braces then .Brace text f.hasVariables
  else if f.hasVariables then .Variable text f.doubleQuote
  else if f.tilde then .Tilde text
  else .Normal text

end WordFlags

structure WordIterator where
  data : List Char
  read : Nat
  flags : WordFlags
  deriving DecidableEq, Repr

/-- What `next` gives, and the iterator that it leaves; none where it panics. -/
abbrev Next := Option (Option (Except ExpandErr WordToken) × WordIterator)

namespace WordIterator

def new (data : List Char) : WordIterator :=
  ⟨data, 0, ⟨false, false, false, false, false, false, false, false⟩⟩

/-- `collect_whitespaces`, over the characters from `read` on -/
def collectWhitespaces (w : WordIterator) (start : Nat) : List Char → Nat → Next
  | [], read =>
    if start ≠ read then do
      let text ← slice w.data start read
      some (some (.ok (.Normal text)), { w with read := read })
    else some (none, { w with read := read })
  | character :: chars, read =>
    if character ≠ ' ' then do
      let text ← slice w.data start read
      some (some (.ok (.Normal text)), { w with read := read })
    else collectWhitespaces w start chars (read + 1)

def collectAtSingleQuote (flags : WordFlags) (text : List Char) : WordToken :=
  if flags.singleQuote then .Normal text else flags.token text

def collectAtDoubleQuote (flags : WordFlags) (text : List Char) : WordToken :=
  if flags.singleQuote then
    if flags.hasVariables then .Variable text flags.doubleQuote else .Normal text
  else flags.token text

def collectAtEnd (data : List Char) (flags : WordFlags) (start read openBraceId : Nat) : Next :=
  let w : WordIterator := ⟨data, read, flags⟩
  if flags.openBrace then some (some (.error (.UnmatchedBraces openBraceId)), w)
  else if start = read then some (none, w)
  else do
    let text ← slice data start read
    some (some (.ok (flags.token text)), w)

/-- The loop of `next`, over the characters from `read` on -/
def scan (data : List Char) : List Char → Nat → Nat → Nat → Option Char → Bool → WordFlags → Next
  | [], start, read, openBraceId, _, _, flags => collectAtEnd data flags start read openBraceId
  | character :: chars, start, read, openBraceId, breakChar, backslash, flags =>
    if backslash then
      scan data chars start (read + 1) openBraceId breakChar false
        (if character = '$' then { flags with hasVariables := true } else flags)
    else if character = '\\' then
      scan data chars start (read + 1) openBraceId breakChar true { flags with prevWasVar := false }
    else if character = '\'' ∧ !flags.doubleQuote then
      let quote := { flags with singleQuote := !flags.singleQuote }
      if start ≠ read then do
        let text ← slice data start read
        some (some (.ok (collectAtSingleQuote flags text)), ⟨data, read + 1, quote⟩)
      else scan data chars (start + 1) (read + 1) openBraceId breakChar false quote
    else if character = '"' ∧ !flags.singleQuote then
      let quote := { flags with doubleQuote := !flags.doubleQuote }
      if start ≠ read then do
        let text ← slice data start read
        some (some (.ok (collectAtDoubleQuote flags text)), ⟨data, read + 1, quote⟩)
      else scan data chars (start + 1) (read + 1) openBraceId breakChar false quote
    else if character = '{' ∧ !flags.quoted then
      let flags := if flags.prevWasVar then flags else { flags with braces := true }
      if flags.openBrace then
        some (some (.error .InnerBracesNotImplemented), ⟨data, read, flags⟩)
      else
        scan data chars start (read + 1) read breakChar false { flags with openBrace := true }
    else if character = '}' ∧ !flags.quoted then
      if !flags.openBrace then some (some (.error (.UnmatchedBraces read)), ⟨data, read, flags⟩)
      else
        scan data chars start (read + 1) openBraceId breakChar false
          { flags with openBrace := false }
    else if !flags.singleQuote ∧ character = '(' ∧ flags.prevWasVar then
      scan data chars start (read + 1) openBraceId (some ')') false { flags with prevWasVar := false }
    else if !flags.singleQuote ∧ character = '$' then
      scan data chars start (read + 1) openBraceId breakChar false
        { flags with hasVariables := true, prevWasVar := true }
    else if !flags.quoted ∧ character = '~' ∧ start = read then
      scan data chars start (read + 1) openBraceId breakChar false
        { flags with tilde := true, prevWasVar := false }
    else if character = ' ' ∧ breakChar = none then do
      let text ← slice data start read
      some (some (.ok (flags.token text)), ⟨data, read, { flags with whitespace := true }⟩)
    else if breakChar = some character then
      scan data chars start (read + 1) openBraceId none false flags
    else
      scan data chars start (read + 1) openBraceId breakChar false { flags with prevWasVar := false }

def next (w : WordIterator) : Next :=
  let chars := w.data.drop w.read
  if w.flags.whitespace then
    collectWhitespaces { w with flags := { w.flags with whitespace := false } } w.read chars w.read
  else scan w.data chars w.read w.read 0 none false w.flags.fresh

end WordIterator

/-- The functions that `expand_string` is given, and the `Permutator` of another crate. -/
structure Expanders where
  expandTilde : List Char → Option (List Char)
  expandVariable : List Char → Bool → Option (List Char)
  expandCommand : List Char → Bool → Option (List Char)
  permutator : List (List (List Char)) → List (List (List Char))

namespace Expanders

variable (e : Expanders)

/-- What a word puts into the output; none where that panics. -/
def expandWord : WordToken → Option (List Char)
  | .Normal text => some text
  | .Tilde text => some ((e.expandTilde text).getD text)
  | .Variable text quoted =>
    some (expandVariables (e.expandVariable · quoted) (e.expandCommand · quoted) text)
  | .Brace text containsVariables =>
    if containsVariables then
      expandBraces e.permutator (expandVariables (e.expandVariable · false) (e.expandCommand · false) text)
    else expandBraces e.permutator text

/-- A round of the loop of `expand_string`, or what it returns; none where it panics. -/
def round (s : List Char × WordIterator) :
    Option (Except ExpandErr (List Char)) ⊕ (List Char × WordIterator) :=
  match s.2.next with
  | none => .inl none
  | some (none, _) => .inl (some (.ok s.1))
  | some (some (.error cause), _) => .inl (some (.error cause))
  | some (some (.ok word), iterator) =>
    match e.expandWord word with
    | none => .inl none
    | some text => .inr (s.1 ++ text, iterator)

/-- `expand_string` ends with this. -/
def Expands (original : List Char) (result : Option (Except ExpandErr (List Char))) : Prop :=
  Yields e.round ([], WordIterator.new original) result

end Expanders

end Origel.Ion
