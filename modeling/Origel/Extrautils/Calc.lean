import Mathlib.Data.List.Basic

/-! The parser of the calculator. -/
namespace Origel.Calc

inductive Token where
  | Plus
  | Minus
  | Divide
  | Multiply
  | Exponent
  | OpenParen
  | CloseParen
  | Number (text : List Char)
  deriving DecidableEq, Repr

def Token.toStr : Token → String
  | Plus => "Plus"
  | Minus => "Minus"
  | Divide => "Divide"
  | Multiply => "Multiply"
  | Exponent => "Exponent"
  | OpenParen => "OpenParen"
  | CloseParen => "CloseParen"
  | Number _ => "Number"

inductive ParseError where
  | InvalidNumber (text : List Char)
  | UnexpectedToken (found expected : String)
  | UnexpectedEndOfInput
  | OtherError (text : String)
  deriving DecidableEq, Repr

/-- Numbers and what is calculated with them -/
structure Arithmetic (α : Type*) where
  parse : List Char → Option α
  toText : α → List Char
  add : α → α → α
  sub : α → α → α
  mul : α → α → α
  div : α → α → α
  powf : α → α → α
  minusOne : α
  isZero : α → Bool

structure IntermediateResult (α : Type*) where
  value : α
  tokensRead : Nat
  deriving DecidableEq, Repr

/-- What a parser comes to; none where it panics -/
abbrev Parsed (α : Type*) := Option (Except ParseError (IntermediateResult α))

/-- `try!` -/
def Parsed.bind {α : Type*} (p : Parsed α) (f : IntermediateResult α → Parsed α) : Parsed α :=
  match p with
  | none => none
  | some (.error e) => some (.error e)
  | some (.ok r) => f r

def unexpected {α : Type*} (token : Token) (expected : String) : Parsed α :=
  some (.error (.UnexpectedToken token.toStr expected))

/-- `&token_list[start..]` -/
def sliceFrom (ts : List Token) (start : Nat) : Option { rest : List Token // rest.length = ts.length - start } :=
  if start ≤ ts.length then some ⟨ts.drop start, List.length_drop⟩ else none

section Parser

variable {α : Type*} (x : Arithmetic α)

def parseNumber (text : List Char) (k : α → IntermediateResult α) : Parsed α :=
  match x.parse text with
  | none => some (.error (.InvalidNumber text))
  | some n => some (.ok (k n))

def divideByZero : ParseError := .OtherError "Divide by zero error"

def noCloseParen : ParseError := .OtherError "no matching close parenthesis found."

mutual

/-- Addition and subtraction -/
def eExpr (ts : List Token) : Parsed α := (tExpr ts).bind fun t1 => eLoop ts t1
termination_by (ts.length, 6, 0)

def eLoop (ts : List Token) (t1 : IntermediateResult α) : Parsed α :=
  if _h : t1.tokensRead < ts.length then
    match ts[t1.tokensRead]? with
    | none => none
    | some .Plus =>
      match sliceFrom ts (t1.tokensRead + 1) with
      | none => none
      | some rest => (tExpr rest.1).bind fun t2 =>
        eLoop ts ⟨x.add t1.value t2.value, t1.tokensRead + (t2.tokensRead + 1)⟩
    | some .Minus =>
      match sliceFrom ts (t1.tokensRead + 1) with
      | none => none
      | some rest => (tExpr rest.1).bind fun t2 =>
        eLoop ts ⟨x.sub t1.value t2.value, t1.tokensRead + (t2.tokensRead + 1)⟩
    | some (.Number n) => some (.error (.UnexpectedToken (String.ofList n) "operator"))
    | some _ => some (.ok t1)
  else some (.ok t1)
termination_by (ts.length, 5, ts.length - t1.tokensRead)
decreasing_by
  all_goals
    simp only [Prod.lex_def, true_and]
    try have := rest.2
    omega

/-- Multiplication and division -/
def tExpr (ts : List Token) : Parsed α := (fExpr ts).bind fun f1 => tLoop ts f1
termination_by (ts.length, 4, 0)

def tLoop (ts : List Token) (f1 : IntermediateResult α) : Parsed α :=
  if _h : f1.tokensRead < ts.length then
    match ts[f1.tokensRead]? with
    | none => none
    | some .Multiply =>
      match sliceFrom ts (f1.tokensRead + 1) with
      | none => none
      | some rest => (fExpr rest.1).bind fun f2 =>
        tLoop ts ⟨x.mul f1.value f2.value, f1.tokensRead + (f2.tokensRead + 1)⟩
    | some .Divide =>
      match sliceFrom ts (f1.tokensRead + 1) with
      | none => none
      | some rest => (fExpr rest.1).bind fun f2 =>
        if x.isZero f2.value then some (.error divideByZero)
        else tLoop ts ⟨x.div f1.value f2.value, f1.tokensRead + (f2.tokensRead + 1)⟩
    | some (.Number n) => some (.error (.UnexpectedToken (String.ofList n) "operator"))
    | some _ => some (.ok f1)
  else some (.ok f1)
termination_by (ts.length, 3, ts.length - f1.tokensRead)
decreasing_by
  all_goals
    simp only [Prod.lex_def, true_and]
    try have := rest.2
    omega

/-- Exponentiation -/
def fExpr (ts : List Token) : Parsed α := (gExpr ts).bind fun g1 => fLoop ts g1
termination_by (ts.length, 2, 0)

def fLoop (ts : List Token) (g1 : IntermediateResult α) : Parsed α :=
  if _h : g1.tokensRead < ts.length then
    match ts[g1.tokensRead]? with
    | none => none
    | some .Exponent =>
      match sliceFrom ts (g1.tokensRead + 1) with
      | none => none
      | some rest => (fExpr rest.1).bind fun f =>
        fLoop ts ⟨x.powf g1.value f.value, g1.tokensRead + (f.tokensRead + 1)⟩
    | some (.Number n) => some (.error (.UnexpectedToken (String.ofList n) "operator"))
    | some _ => some (.ok g1)
  else some (.ok g1)
termination_by (ts.length, 1, ts.length - g1.tokensRead)
decreasing_by
  all_goals
    simp only [Prod.lex_def, true_and]
    try have := rest.2
    omega

/-- Numbers and parenthesized expressions -/
def gExpr (ts : List Token) : Parsed α :=
  if _h : ts = [] then some (.error .UnexpectedEndOfInput)
  else
    match ts[0]? with
    | none => none
    | some (Token.Number n) => parseNumber x n fun num => ⟨num, 1⟩
    | some .Minus =>
      if 1 < ts.length then
        match ts[1]? with
        | none => none
        | some (Token.Number n) => parseNumber x n fun num => ⟨x.mul x.minusOne num, 2⟩
        | some token => unexpected token "number"
      else some (.error .UnexpectedEndOfInput)
    | some .OpenParen =>
      match sliceFrom ts 1 with
      | none => none
      | some rest => (eExpr rest.1).bind fun ir =>
        let closeParen := ir.tokensRead + 1
        if closeParen < ts.length then
          match ts[closeParen]? with
          | none => none
          | some .CloseParen => some (.ok ⟨ir.value, closeParen + 1⟩)
          | some token => unexpected token ")"
        else some (.error noCloseParen)
    | some token => unexpected token "number"
termination_by (ts.length, 0, 0)
decreasing_by
  simp only [Prod.lex_def]
  have := rest.2
  have := List.length_pos_iff.mpr _h
  omega

end

def parse (tokens : List Token) : Option (Except ParseError (List Char)) :=
  (eExpr x tokens).map fun answer => answer.map fun answer => x.toText answer.value

end Parser

end Origel.Calc
