import Origel.Net.Socket

/-! The selection of positions of `cut`: its list, and what is taken by it. -/
namespace Origel.Coreutils

/-- `char::is_whitespace` -/
def isWhitespace (c : Char) : Bool :=
  (9 ≤ c.toNat ∧ c.toNat ≤ 13) ∨ c.toNat ∈ [0x20, 0x85, 0xA0, 0x1680, 0x2028, 0x2029, 0x202F, 0x205F, 0x3000] ∨
    (0x2000 ≤ c.toNat ∧ c.toNat ≤ 0x200A)

def trim (s : List Char) : List Char :=
  ((s.dropWhile isWhitespace).reverse.dropWhile isWhitespace).reverse

/-- The results of `usize::from_str` that are told apart -/
inductive Parsed where
  | ok (n : Nat)
  | empty
  | other
  deriving DecidableEq, Repr

def parseUsize (s : List Char) : Parsed :=
  if s = [] then .empty
  else
    match Net.parseUnsigned (2 ^ 64) s with
    | some n => .ok n
    | none => .other

structure Selection where
  selected : List Bool
  /-- The selection continues after the range covered by `selected`. -/
  toEol : Bool
  deriving DecidableEq, Repr

/-- `resize`, that panics where the bytes are more than an `isize` can tell -/
def resize (v : List Bool) (len : Nat) : Option (List Bool) :=
  if len < 2 ^ 63 then some (v ++ List.replicate (len - v.length) false) else none

/-- The array is extended if necessary. -/
def extend (v : List Bool) (len : Nat) : Option (List Bool) :=
  if len > v.length then resize v len else some v

/-- `index - 1`, with or without a check for overflow -/
def pred (checked : Bool) (index : Nat) : Option Nat :=
  if index = 0 then if checked then none else some (2 ^ 64 - 1) else some (index - 1)

/-- Set an element to true, extending the array if necessary. -/
def toggle (v : List Bool) (index : Nat) : Option (List Bool) := do
  let v ← extend v ((index + 1) % 2 ^ 64)
  if index < v.length then some (v.set index true) else none

/-- Set a range to true, extending the array if necessary. -/
def fill (v : List Bool) (first stop : Nat) : Option (List Bool) := do
  let v ← extend v stop
  some (v.mapIdx fun i b => if first ≤ i ∧ i < stop then true else b)

/-- What a part of the list is matched as -/
inductive Matched where
  | single (index : Nat)
  | openBegin (stop : Nat)
  | openEnd (first : Nat)
  | range (first stop : Nat)
  deriving DecidableEq, Repr

/-- The numbers between the dashes of a part. Those behind the second are not looked at. -/
def matchPart (part : List Char) : Option Matched :=
  let subparts := (part.splitOn '-').map fun x => parseUsize (trim x)
  match (subparts[0]? : Option Parsed), (subparts[1]? : Option Parsed) with
  | some (.ok index), none => some (.single index)
  | some .empty, some (.ok stop) => some (.openBegin stop)
  | some (.ok first), some .empty => some (.openEnd first)
  | some (.ok first), some (.ok stop) => some (.range first stop)
  | _, _ => none

namespace Selection

/-- A part of the list. Where the program would panic there is no selection. -/
def read (checked : Bool) (s : Selection) : Matched → Option Selection
  | .single index => do
    let selected ← toggle s.selected (← pred checked index)
    some { s with selected }
  | .openBegin stop => do
    let selected ← fill s.selected 0 stop
    some { s with selected }
  | .openEnd first => do
    let selected ← toggle s.selected (← pred checked first)
    some { s with selected, toEol := true }
  | .range first stop => do
    let selected ← fill s.selected (← pred checked first) stop
    some { s with selected }

/-- The loop over the parts. The error is the part that is illegal. -/
def readParts (checked : Bool) (s : Selection) : List (List Char) → Option (Except (List Char) Selection)
  | [] => some (.ok s)
  | part :: parts =>
    match matchPart part with
    | none => some (.error part)
    | some matched => do
      let s ← s.read checked matched
      s.readParts checked parts

def fromStr (checked : Bool) (list : List Char) : Option (Except (List Char) Selection) :=
  readParts checked ⟨[], false⟩ (list.splitOnP fun c => c = ',' ∨ c = ' ')

end Selection

structure SelectFromIter (α : Type*) where
  values : List α
  selected : List Bool
  toEol : Bool
  consumed : Bool

namespace SelectFromIter

variable {α : Type*}

/-- The loop over both iterators -/
def loop (toEol : Bool) : List α → List Bool → Option (α × SelectFromIter α)
  | [], _ => none
  | v :: values, true :: selected => some (v, ⟨values, selected, toEol, false⟩)
  | v :: values, [] => if toEol then some (v, ⟨values, [], toEol, true⟩) else none
  | _ :: values, false :: selected => loop toEol values selected

def next (it : SelectFromIter α) : Option (α × SelectFromIter α) :=
  if it.consumed then
    match it.values with
    | [] => none
    | v :: values => some (v, { it with values })
  else loop it.toEol it.values it.selected

theorem loop_length {toEol : Bool} {values : List α} {selected : List Bool} {v : α} {it : SelectFromIter α}
    (h : loop toEol values selected = some (v, it)) : it.values.length < values.length := by
  fun_induction loop toEol values selected with
  | case1 => cases h
  | case2 =>
    cases h
    exact Nat.lt_succ_self _
  | case3 =>
    cases h
    exact Nat.lt_succ_self _
  | case4 => cases h
  | case5 v' values selected ih => exact Nat.lt_succ_of_lt (ih h)

theorem next_length {it it' : SelectFromIter α} {v : α} (h : it.next = some (v, it')) :
    it'.values.length < it.values.length := by
  unfold next at h
  split at h
  · split at h
    · cases h
    · rename_i hvalues
      cases h
      rw [hvalues]
      exact Nat.lt_succ_self _
  · exact loop_length h

/-- The values of the iterator -/
def collect (it : SelectFromIter α) : List α :=
  match h : it.next with
  | none => []
  | some (v, it') =>
    have := next_length h
    v :: it'.collect
termination_by it.values.length

end SelectFromIter

def Selection.selectFrom {α : Type*} (s : Selection) (values : List α) : SelectFromIter α :=
  ⟨values, s.selected, s.toEol, false⟩

end Origel.Coreutils
