import Origel.Ion.Text

/-! Braces of a word, which stand for all combinations of their alternatives. -/
namespace Origel.Ion

inductive BraceToken where
  | Normal (text : List Char)
  | Expander
  deriving DecidableEq, Repr

/-- What the loop of `expand_braces` has come to. -/
structure Braces where
  tokens : List BraceToken
  expanders : List (List (List Char))
  currentExpander : List (List Char)
  start : Nat
  expanderFound : Bool
  backslash : Bool
  deriving DecidableEq, Repr

namespace Braces

def new : Braces := ⟨[], [], [], 0, false, false⟩

/-- The body of the loop, for the character with number `id` -/
def step (input : List Char) (b : Braces) (id : Nat) (character : Char) : Option Braces :=
  if b.backslash then some { b with backslash := false }
  else if character = '\\' then some { b with backslash := true }
  else if b.expanderFound then
    if character = '}' then do
      let text ← slice input b.start id
      some { b with
        expanderFound := false
        start := id + 1
        tokens := b.tokens ++ [.Expander]
        expanders := b.expanders ++ [b.currentExpander ++ [text]]
        currentExpander := [] }
    else if character = ',' then do
      let text ← slice input b.start id
      some { b with currentExpander := b.currentExpander ++ [text], start := id + 1 }
    else some b
  else if character = '{' then
    if id ≠ b.start then do
      let text ← slice input b.start id
      some { b with
        expanderFound := true, tokens := b.tokens ++ [.Normal text], start := id + 1 }
    else some { b with expanderFound := true, start := id + 1 }
  else some b

/-- The loop over `input.chars().enumerate()` -/
def scan (input : List Char) (b : Braces) : List Char → Nat → Option Braces
  | [], _ => some b
  | character :: chars, id => (b.step input id character).bind (scan input · chars (id + 1))

end Braces

/-- `escape_string` -/
def escapeString : Bool → List Char → List Char
  | _, [] => []
  | true, character :: chars =>
    (if character = '{' ∨ character = '}' ∨ character = ',' then [character] else ['\\', character]) ++
      escapeString false chars
  | false, character :: chars =>
    if character = '\\' then escapeString true chars else character :: escapeString false chars

/-- The tokens with the elements of a permutation in turn; none where there are too few. -/
def fill : List BraceToken → List (List Char) → Option (List Char)
  | [], _ => some []
  | .Normal text :: tokens, elements => (fill tokens elements).map (escapeString false text ++ ·)
  | .Expander :: _, [] => none
  | .Expander :: tokens, element :: elements =>
    (fill tokens elements).map (escapeString false element ++ ·)

/-- The loop over what is left of the permutations -/
def fillRest (tokens : List BraceToken) : List (List (List Char)) → Option (List Char)
  | [] => some []
  | permutation :: permutations => do
    let text ← fill tokens permutation
    let rest ← fillRest tokens permutations
    some (' ' :: text ++ rest)

/-- `permutator` gives what `Permutator` does, one after the other. -/
def multipleBraceExpand (permutator : List (List (List Char)) → List (List (List Char)))
    (expanders : List (List (List Char))) (tokens : List BraceToken) : Option (List Char) :=
  match permutator expanders with
  | [] => none
  | permutation :: permutations => do
    let text ← fill tokens permutation
    let rest ← fillRest tokens permutations
    some (text ++ rest)

/-- The tokens with one element for every expander -/
def fillWith (tokens : List BraceToken) (element : List Char) : List Char :=
  tokens.flatMap fun
    | .Normal text => escapeString false text
    | .Expander => escapeString false element

def singleBraceExpand (elements : List (List Char)) (tokens : List BraceToken) :
    Option (List Char) := do
  let text ← fill tokens elements
  -- the iterator is where the expanders of the first loop have left it
  let rest := (elements.drop (tokens.count .Expander)).flatMap fun element =>
    ' ' :: fillWith tokens element
  some (text ++ rest)

/-- What `expand_braces` puts into its output; none where it panics. -/
def expandBraces (permutator : List (List (List Char)) → List (List (List Char)))
    (input : List Char) : Option (List Char) := do
  let b ← Braces.new.scan input input 0
  let tokens ←
    if b.start ≠ bytes input then do
      let text ← sliceFrom input b.start
      some (b.tokens ++ [.Normal text])
    else some b.tokens
  if 1 < b.expanders.length then multipleBraceExpand permutator b.expanders tokens
  else match b.expanders with
    | [elements] => singleBraceExpand elements tokens
    | _ => some []

end Origel.Ion
