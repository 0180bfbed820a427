import Mathlib.Algebra.Order.Group.Nat
import Mathlib.Data.List.Induction
import Mathlib.Data.List.Perm.Basic
import Mathlib.Data.List.TakeWhile
import Mathlib.Logic.Function.Basic

/-! The parser of the arguments of a command: flags, options and what is left. -/
namespace Origel.Coreutils

inductive Param where
  | short (c : Char)
  | long (name : List Char)
  deriving DecidableEq, Repr

/-- The value of an option is in a cell that its short and its long name share. -/
inductive Value where
  | flag (value : Bool) (occurrences : Nat)
  | opt (cell occurrences : Nat) (found : Bool)
  deriving DecidableEq, Repr

structure ArgParser where
  params : Param → Option Value
  cells : Nat → List Char
  /-- The number of cells -/
  allocated : Nat
  invalid : List Param
  args : List (List Char)

namespace ArgParser

def new : ArgParser := ⟨fun _ => none, fun _ => [], 0, [], []⟩

/-- What the builder methods have in common -/
def add (p : ArgParser) (short long : List Char) (value : Value) : ArgParser :=
  let params := match short with
    | [] => p.params
    | c :: _ => Function.update p.params (.short c) (some value)
  { p with params := if long = [] then params else Function.update params (.long long) (some value) }

def addFlag (p : ArgParser) (short long : List Char) : ArgParser := p.add short long (.flag false 0)

def addOptDefault (p : ArgParser) (short long default : List Char) : ArgParser :=
  { p.add short long (.opt p.allocated 0 false) with
    cells := Function.update p.cells p.allocated default
    allocated := p.allocated + 1 }

def addOpt (p : ArgParser) (short long : List Char) : ArgParser := p.addOptDefault short long []

/-- The entry of a name -/
def set (p : ArgParser) (name : Param) (value : Value) : ArgParser :=
  { p with params := Function.update p.params name (some value) }

def store (p : ArgParser) (cell : Nat) (value : List Char) : ArgParser :=
  { p with cells := Function.update p.cells cell value }

def reject (p : ArgParser) (name : Param) : ArgParser := { p with invalid := p.invalid ++ [name] }

/-- The argument behind two dashes -/
def readLong (p : ArgParser) (arg : List Char) : ArgParser :=
  if '=' ∈ arg then
    let lhs := arg.takeWhile (· ≠ '=')
    let rhs := (arg.dropWhile (· ≠ '=')).tail
    match p.params (.long lhs) with
    | some (.opt cell occurrences _) =>
      (p.set (.long lhs) (.opt cell (if p.cells cell = [] then 1 else occurrences + 1) true)).store cell rhs
    | _ => p.reject (.long lhs)
  else
    match p.params (.long arg) with
    | some (.flag _ occurrences) => p.set (.long arg) (.flag true (occurrences + 1))
    | some (.opt cell occurrences _) => p.set (.long arg) (.opt cell (occurrences + 1) true)
    | none => p.reject (.long arg)

/-- The characters behind one dash. An option that they end with awaits the next argument. -/
def readShort (p : ArgParser) : List Char → ArgParser × Option (Char × Nat × Nat)
  | [] => (p, none)
  | ch :: rest =>
    match p.params (.short ch) with
    | some (.flag _ occurrences) => (p.set (.short ch) (.flag true (occurrences + 1))).readShort rest
    | some (.opt cell occurrences _) =>
      if rest ≠ [] then ((p.store cell rest).set (.short ch) (.opt cell occurrences true), none)
      else (p, some (ch, cell, occurrences))
    | none => (p.reject (.short ch)).readShort rest

/-- The loop of `parse`, that does not begin with the name of the command -/
def parse (p : ArgParser) : List (List Char) → ArgParser
  | [] => p
  | arg :: args =>
    match arg with
    | ['-', '-'] => { p with args := p.args ++ args }
    | '-' :: '-' :: arg => (p.readLong arg).parse args
    | '-' :: chars =>
      match p.readShort chars with
      | (p, none) => p.parse args
      | (p, some (ch, cell, occurrences)) =>
        match args with
        | [] => p.store cell []
        | a :: args => ((p.store cell a).set (.short ch) (.opt cell occurrences true)).parse args
    | _ => { p with args := p.args ++ [arg] }.parse args

def count (p : ArgParser) (name : Param) : Nat :=
  match p.params name with
  | some (.flag _ occurrences) => occurrences
  | some (.opt _ occurrences _) => occurrences
  | none => 0

def found (p : ArgParser) (name : Param) : Bool :=
  match p.params name with
  | some (.flag value _) => value
  | some (.opt _ _ found) => found
  | none => false

def getOpt (p : ArgParser) (name : Param) : Option (List Char) :=
  match p.params name with
  | some (.opt cell _ _) => some (p.cells cell)
  | _ => none

end ArgParser

end Origel.Coreutils
