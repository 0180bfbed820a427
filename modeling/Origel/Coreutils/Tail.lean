import Origel.Coreutils.Arguments
import Origel.Coreutils.Cut
import Origel.Lib.Lines
import Origel.RedoxFs.Node

/-! `tail`: its options, what it keeps of an input, and what it prints for each of them. -/
namespace Origel.Coreutils.Tail

open Origel.Lib
open Origel.RedoxFs (fromUtf8 utf8)

variable {α : Type*}

/-- What there is to read -/
structure Inputs where
  stdin : List UInt8
  files : List Char → Option (List UInt8)

/-- How the program ends -/
inductive Outcome where
  | manual
  | invalid (params : List Param)
  /-- With an error -/
  | failed
  | done (stdout : List UInt8)
  deriving DecidableEq

/-- An error ends the program. -/
def Outcome.ofPrinted : Option (List UInt8) → Outcome
  | none => .failed
  | some stdout => .done stdout

/-- The end of a line that is read may have a carriage return in it. -/
def chomp (line : List UInt8) : List UInt8 := if line.getLast? = some 0x0d then line.dropLast else line

def checkUtf8 (line : List UInt8) : Option (List UInt8) := (fromUtf8 line).map fun _ => line

/-- `BufRead::lines`, which ends with an error where a line is not valid -/
def readLines (input : List UInt8) : Option (List (List UInt8)) :=
  ((fullLines 0x0a input).mapM checkUtf8).bind fun lines =>
    (checkUtf8 (lastPart 0x0a input)).map fun rest => lines.map chomp ++ if rest = [] then [] else [rest]

/-- The loops with a deque -/
def window (num : Nat) (items : List α) : List α :=
  items.foldl (fun deque item =>
    let deque := deque ++ [item]
    if deque.length > num then deque.tail else deque) []

/-- `tail` -/
def tail (parser : ArgParser) (skip : Bool) (num : Nat) (input : List UInt8) : Option (List UInt8) :=
  if parser.found (.short 'n') || parser.found (.long "lines".toList) then
    (readLines input).map fun lines =>
      (if skip then lines.drop num else window num lines).flatMap (· ++ [0x0a])
  else if parser.found (.short 'c') || parser.found (.long "bytes".toList) then
    some (if skip then input.drop num else window num input)
  else some []

/-- The parser of `main` -/
def parser : ArgParser :=
  ((ArgParser.new.addOptDefault "n".toList "lines".toList "10".toList).addOpt "c".toList
    "bytes".toList).addFlag "h".toList "help".toList

/-- `opt` of a name, and `clear` of its value -/
def clear (parser : ArgParser) (name : Param) : ArgParser :=
  match parser.params name with
  | some (.opt cell _ _) => parser.store cell []
  | _ => parser

/-- The number of lines or bytes, and whether a `+` is in front of it -/
def readNumber (num : List Char) : Option (Bool × Nat) :=
  match parseUsize (num.dropWhile (· = '+')) with
  | .ok n => some (num.head? = some '+', n)
  | _ => none

/-- What is printed in front of one file of several. The text of `writeln` is that of another crate. -/
def header (writeln : List UInt8 → List UInt8) (path : List Char) : List UInt8 :=
  utf8 "==> " ++ utf8 (String.ofList path) ++ writeln (utf8 " <==")

/-- The main part of `main`: what is printed for the standard input, for a file or for several -/
def printEach (writeln : List UInt8 → List UInt8) (inputs : Inputs)
    (print : List UInt8 → Option (List UInt8)) : List (List Char) → Option (List UInt8)
  | [] => print inputs.stdin
  | [path] => (inputs.files path).bind print
  | paths => (paths.mapM fun path =>
      (inputs.files path).bind fun file => (print file).map (header writeln path ++ ·)).map List.flatten

/-- `main` with these arguments -/
def main (writeln : List UInt8 → List UInt8) (inputs : Inputs) (arguments : List (List Char)) : Outcome :=
  let parser := parser.parse arguments
  if parser.found (.short 'h') || parser.found (.long "help".toList) then .manual
  else
    let parser := if parser.found (.short 'c') || parser.found (.long "bytes".toList) then
        clear parser (.long "lines".toList)
      else parser
    if parser.invalid ≠ [] then .invalid parser.invalid
    else
      match (parser.getOpt (.long "lines".toList)).or (parser.getOpt (.long "bytes".toList)) with
      | none => .failed
      | some num =>
        match readNumber num with
        | none => .failed
        | some (skip, num) => .ofPrinted (printEach writeln inputs (tail parser skip num) parser.args)

end Origel.Coreutils.Tail
