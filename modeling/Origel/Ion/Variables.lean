import Origel.Ion.Text

/-! Variables and commands within a word. -/
namespace Origel.Ion

inductive VariableToken where
  | Normal (data : List Char)
  | Variable (name : List Char)
  | Command (command : List Char)
  deriving DecidableEq, Repr

/-- The bits of `flags` of a `VariableIterator` -/
structure VariableFlags where
  back : Bool
  bracedVar : Bool
  parensVar : Bool
  varFound : Bool
  deriving DecidableEq, Repr

/-- The characters that a backslash is dropped before. -/
def escapable (character : Char) : Bool :=
  character ∈ ['{', '}', '(', ')', '$', ' ', ':', ',', '@', '#']

/-- The tokens of a `VariableIterator`, over the characters from `read` on -/
def variableTokens (data : List Char) :
    List Char → Nat → List Char → VariableFlags → List VariableToken
  | [], _, buffer, flags =>
    if buffer = [] then []
    else if flags.varFound then [.Variable buffer]
    else [.Normal buffer]
  | character :: chars, read, buffer, flags =>
    let next := variableTokens data chars (read + 1)
    -- a bracket opens right behind a `$` that is not escaped
    let opens := read + 1 < 3 ∨ data[read - 1]? = some '$' ∧ data[read - 2]? ≠ some '\\'
    if character = '\\' then
      next (if flags.back then buffer ++ [character] else buffer) { flags with back := !flags.back }
    else if flags.back then
      next (buffer ++ (if escapable character then [character] else ['\\', character]))
        { flags with back := false }
    else if flags.bracedVar then
      if character = '}' then .Variable buffer :: next [] { flags with bracedVar := false }
      else next (buffer ++ [character]) flags
    else if flags.parensVar then
      if character = ')' then .Command buffer :: next [] { flags with parensVar := false }
      else next (buffer ++ [character]) flags
    else if flags.varFound then
      if character = '{' then
        if opens then next buffer { flags with bracedVar := true, varFound := false }
        else .Variable buffer :: next [character] { flags with varFound := false }
      else if character = '(' then
        if opens then next buffer { flags with parensVar := true, varFound := false }
        else .Variable buffer :: next [character] { flags with varFound := false }
      else if character = '$' then .Variable buffer :: next [] flags
      else if character ∈ [' ', ':', ',', '@', '#', '}', ')'] then
        .Variable buffer :: next [character] { flags with varFound := false }
      else next (buffer ++ [character]) flags
    else if character = '$' then
      if buffer = [] then next buffer { flags with varFound := true }
      else .Normal buffer :: next [] { flags with varFound := true }
    else next (buffer ++ [character]) flags

/-- `VariableIterator::new` -/
def variablesOf (data : List Char) : List VariableToken :=
  variableTokens data data 0 [] ⟨false, false, false, false⟩

/-- What a token puts into the output. -/
def VariableToken.expand (expandVariable expandCommand : List Char → Option (List Char)) :
    VariableToken → List Char
  | .Normal data => data
  | .Variable name => (expandVariable name).getD []
  | .Command command => (expandCommand command).getD []

/-- What `variables::expand` puts into its output. -/
def expandVariables (expandVariable expandCommand : List Char → Option (List Char))
    (input : List Char) : List Char :=
  (variablesOf input).flatMap fun token => token.expand expandVariable expandCommand

end Origel.Ion
