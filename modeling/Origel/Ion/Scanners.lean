import Origel.Ion.Pipelines

/-! The quotes of a command, as the two scanners of `peg.rs` read them. -/
namespace Origel.Ion

variable {f g : QuoteFlags} {x : Char} {s : List Char}

namespace QuoteFlags

/-- A separator acts here. -/
def unquoted (f : QuoteFlags) : Bool := f.valid && !f.backslash

@[simp] theorem unquoted_none : QuoteFlags.none.unquoted = true := rfl

end QuoteFlags

namespace PipelineIterator

/-- The flags behind a character of a command -/
def quote (flags : QuoteFlags) (character : Char) : QuoteFlags :=
  if flags.backslash then { flags with backslash := false }
  else if character = '\\' then { flags with backslash := true }
  else if character = '\'' ∧ !(flags.processTwo || flags.doubleQuote) then
    { flags with singleQuote := !flags.singleQuote }
  else if character = '"' ∧ !(flags.processTwo || flags.singleQuote) then
    { flags with doubleQuote := !flags.doubleQuote }
  else if character = '$' ∧ flags.valid then { flags with processOne := true }
  else if character = '(' ∧ flags.isProcessOne then
    { flags with processOne := false, processTwo := true }
  else if character = ')' ∧ flags.isProcessTwo then { flags with processTwo := false }
  else flags.leaveProcess

end PipelineIterator

/-- The quotes that have been ordinary characters where they were read, and a `$` behind which there
have only been quotes and escaped characters -/
structure Ordinary where
  oddSingle : Bool
  oddDouble : Bool
  afterDollar : Bool
  deriving DecidableEq, Repr

namespace Ordinary

def none : Ordinary := ⟨false, false, false⟩

/-- A quote is ordinary within the other quotes and in a substitution. -/
def read (o : Ordinary) (flags : QuoteFlags) (character : Char) : Ordinary :=
  if flags.backslash ∨ character = '\\' then o
  else if character = '\'' then
    { o with oddSingle := o.oddSingle ^^ (flags.processTwo || flags.doubleQuote) }
  else if character = '"' then
    { o with oddDouble := o.oddDouble ^^ (flags.processTwo || flags.singleQuote) }
  else { o with afterDollar := character = '$' && flags.valid }

def even (o : Ordinary) : Bool := !o.oddSingle && !o.oddDouble && !o.afterDollar

end Ordinary

/-- A character that begins a redirection where it acts. -/
def redirects (x : Char) : Prop := x = '>' ∨ x = '<'

instance : DecidablePred redirects := fun x => inferInstanceAs (Decidable (x = '>' ∨ x = '<'))

/-- Up to the first redirection, both scanners take the same characters for quoted. -/
def Same (f g : QuoteFlags) : List Char → Prop
  | [] => True
  | x :: s => f.unquoted = g.unquoted ∧
    (¬(redirects x ∧ g.unquoted) → Same (PipelineIterator.quote f x) (Collector.quote g x) s)

/-- Wherever the text is not quoted, up to the first redirection, ordinary quotes have been read in
pairs only, and there is no `$` behind which there have only been quotes. -/
def Even (f : QuoteFlags) (o : Ordinary) : List Char → Prop
  | [] => True
  | x :: s => (f.unquoted → o.even) ∧
    (¬(redirects x ∧ f.unquoted) → Even (PipelineIterator.quote f x) (o.read f x) s)

instance decidableEven : (f : QuoteFlags) → (o : Ordinary) → (s : List Char) → Decidable (Even f o s)
  | _, _, [] => inferInstanceAs (Decidable True)
  | f, o, x :: s =>
    have := decidableEven (PipelineIterator.quote f x) (o.read f x) s
    inferInstanceAs (Decidable (_ ∧ (_ → _)))

/-- The flags of the two scanners, while what differs is within a quoted piece -/
inductive Agree : QuoteFlags → QuoteFlags → Ordinary → Prop
  | outside (back one : Bool) :
    Agree ⟨back, false, false, one, false⟩ ⟨back, false, false, one, false⟩ ⟨false, false, one⟩
  | single (back one x y : Bool) (h : one → !x ∧ y) :
    Agree ⟨back, true, false, one, false⟩ ⟨back, true, x, y, false⟩ ⟨false, x, y⟩
  | double (back one x y : Bool) (h : one → !x ∧ y) :
    Agree ⟨back, false, true, one, false⟩ ⟨back, x, true, y, false⟩ ⟨x, false, y⟩
  | process (back x y : Bool) :
    Agree ⟨back, false, false, false, true⟩ ⟨back, x, y, false, true⟩ ⟨x, y, false⟩

/-- A quoted piece has ended for the one scanner and goes on for the other. -/
structure Broken (f g : QuoteFlags) (o : Ordinary) : Prop where
  outside : f.unquoted = true
  inside : g.unquoted = false
  odd : o.even = false

namespace Agree

variable {o : Ordinary}

theorem unquoted (h : Agree f g o) : f.unquoted = g.unquoted := by
  cases h with
  | outside back one => rfl
  | single back one x y h => rfl
  | double back one x y h => simp [QuoteFlags.unquoted, QuoteFlags.valid]
  | process back x y => simp [QuoteFlags.unquoted, QuoteFlags.valid]

theorem even (h : Agree f g o) (hf : f.unquoted) : o.even := by
  cases h with
  | outside back one =>
    cases one with
    | false => rfl
    | true => exact hf
  | single back one x y h => cases hf
  | double back one x y h => cases hf
  | process back x y => simp [QuoteFlags.unquoted, QuoteFlags.valid] at hf

/-- A character that no flag but those of a substitution takes notice of -/
def Plain (x : Char) : Prop :=
  x ≠ '\\' ∧ x ≠ '\'' ∧ x ≠ '"' ∧ x ≠ '$' ∧ x ≠ '(' ∧ x ≠ ')'

theorem plain_or (x : Char) : Plain x ∨
    x = '\\' ∨ x = '\'' ∨ x = '"' ∨ x = '$' ∨ x = '(' ∨ x = ')' := by
  unfold Plain
  tauto

theorem quote_plain (hx : Plain x) (hf : f.backslash = false) :
    PipelineIterator.quote f x = f.leaveProcess := by
  obtain ⟨hback, hsingle, hdouble, hdollar, hopen, hclose⟩ := hx
  simp [PipelineIterator.quote, hf, hback, hsingle, hdouble, hdollar, hopen, hclose]

theorem quote_plain' (hx : Plain x) (hg : g.backslash = false) :
    Collector.quote g x = g.leaveProcess := by
  obtain ⟨hback, hsingle, hdouble, hdollar, hopen, hclose⟩ := hx
  simp [Collector.quote, hg, hback, hsingle, hdouble, hdollar, hopen, hclose]

theorem read_plain (hx : Plain x) (hf : f.backslash = false) :
    o.read f x = { o with afterDollar := false } := by
  obtain ⟨hback, hsingle, hdouble, hdollar, -, -⟩ := hx
  simp [Ordinary.read, hf, hback, hsingle, hdouble, hdollar]

/-- What the two scanners make of a character, and what is known of the ordinary quotes -/
def Next (f g : QuoteFlags) (o : Ordinary) (x : Char) : Prop :=
  Agree (PipelineIterator.quote f x) (Collector.quote g x) (o.read f x) ∨
    Broken (PipelineIterator.quote f x) (Collector.quote g x) (o.read f x)

theorem next_outside (one : Bool) :
    Next ⟨false, false, false, one, false⟩ ⟨false, false, false, one, false⟩ ⟨false, false, one⟩ x := by
  rcases plain_or x with hx | rfl | rfl | rfl | rfl | rfl | rfl
  · left
    rw [quote_plain hx rfl, quote_plain' hx rfl, read_plain hx rfl]
    exact .outside false false
  · exact .inl (.outside true one)
  · cases one with
    | false => exact .inl (.single false false false false nofun)
    | true => exact .inl (.single false true false true fun _ => ⟨rfl, rfl⟩)
  · cases one with
    | false => exact .inl (.double false false false false nofun)
    | true => exact .inl (.double false true false true fun _ => ⟨rfl, rfl⟩)
  · cases one with
    | false => exact .inl (.outside false true)
    | true => exact .inl (.outside false false)
  · cases one with
    | false => exact .inl (.outside false false)
    | true => exact .inl (.process false false false)
  · cases one <;> exact .inl (.outside false false)

theorem next_single {one y z : Bool} (h : one → !y ∧ z) :
    Next ⟨false, true, false, one, false⟩ ⟨false, true, y, z, false⟩ ⟨false, y, z⟩ x := by
  rcases plain_or x with hx | rfl | rfl | rfl | rfl | rfl | rfl
  · left
    rw [quote_plain hx rfl, quote_plain' hx rfl, read_plain hx rfl]
    exact .single false false y false nofun
  · exact .inl (.single true one y z h)
  · -- the piece ends, and with it both scanners agree or they do not
    cases one with
    | false =>
      cases y with
      | false =>
        cases z with
        | false => exact .inl (.outside false false)
        | true => exact .inr ⟨rfl, rfl, rfl⟩
      | true => exact .inr ⟨rfl, rfl, rfl⟩
    | true =>
      obtain ⟨hy, hz⟩ := h rfl
      cases y with
      | true => cases hy
      | false =>
        cases z with
        | true => exact .inl (.outside false true)
        | false => cases hz
  · cases y <;> exact .inl (.single false false _ z nofun)
  · cases y <;> cases z <;> exact .inl (.single false false _ false nofun)
  · cases y <;> cases z <;> exact .inl (.single false false _ false nofun)
  · cases y <;> cases z <;> exact .inl (.single false false _ false nofun)

theorem next_double {one y z : Bool} (h : one → !y ∧ z) :
    Next ⟨false, false, true, one, false⟩ ⟨false, y, true, z, false⟩ ⟨y, false, z⟩ x := by
  rcases plain_or x with hx | rfl | rfl | rfl | rfl | rfl | rfl
  · left
    rw [quote_plain hx rfl, quote_plain' hx rfl, read_plain hx rfl]
    exact .double false false y false nofun
  · exact .inl (.double true one y z h)
  · cases y <;> exact .inl (.double false false _ z nofun)
  · -- as for the single quotes
    cases one with
    | false =>
      cases y with
      | false =>
        cases z with
        | false => exact .inl (.outside false false)
        | true => exact .inr ⟨rfl, rfl, rfl⟩
      | true => exact .inr ⟨rfl, rfl, rfl⟩
    | true =>
      obtain ⟨hy, hz⟩ := h rfl
      cases y with
      | true => cases hy
      | false =>
        cases z with
        | true => exact .inl (.outside false true)
        | false => cases hz
  · cases y <;> cases z <;> exact .inl (.double false false _ false nofun)
  · cases y <;> cases z <;> exact .inl (.double false false _ false nofun)
  · cases y <;> cases z <;> exact .inl (.double false false _ false nofun)

theorem next_process (y z : Bool) :
    Next ⟨false, false, false, false, true⟩ ⟨false, y, z, false, true⟩ ⟨y, z, false⟩ x := by
  rcases plain_or x with hx | rfl | rfl | rfl | rfl | rfl | rfl
  · left
    rw [quote_plain hx rfl, quote_plain' hx rfl, read_plain hx rfl]
    exact .process false y z
  · exact .inl (.process true y z)
  · cases y <;> exact .inl (.process false _ z)
  · cases z <;> exact .inl (.process false y _)
  · cases y <;> cases z <;> exact .inl (.process false _ _)
  · cases y <;> cases z <;> exact .inl (.process false _ _)
  · -- the substitution ends for the one scanner, and for the other without open quotes
    cases y with
    | false =>
      cases z with
      | false => exact .inl (.outside false false)
      | true => exact .inr ⟨rfl, rfl, rfl⟩
    | true => cases z <;> exact .inr ⟨rfl, rfl, rfl⟩

theorem next (h : Agree f g o) (x : Char) : Next f g o x := by
  cases h with
  | outside back one =>
    cases back with
    | false => exact next_outside one
    | true => exact .inl (.outside false one)
  | single back one y z h =>
    cases back with
    | false => exact next_single h
    | true => exact .inl (.single false one y z h)
  | double back one y z h =>
    cases back with
    | false => exact next_double h
    | true => exact .inl (.double false one y z h)
  | process back y z =>
    cases back with
    | false => exact next_process y z
    | true => exact .inl (.process false y z)

end Agree

/-- The scanners agree on a text exactly where its ordinary quotes are even. -/
theorem same_iff_even {o : Ordinary} (h : Agree f g o) : Same f g s ↔ Even f o s := by
  induction s generalizing f g o with
  | nil => exact Iff.rfl
  | cons x s ih =>
    rw [Same, Even, h.unquoted]
    have heven : (g.unquoted → o.even) ↔ True := iff_true_intro fun hg => h.even (h.unquoted.trans hg)
    rw [heven, eq_self_iff_true]
    refine and_congr_right fun _ => imp_congr_right fun _ => ?_
    rcases h.next x with hnext | hbroken
    · exact ih hnext
    · cases s with
      | nil => exact Iff.rfl
      | cons y s =>
        constructor
        · intro hsame
          have hunquoted := hsame.1
          rw [hbroken.outside, hbroken.inside] at hunquoted
          cases hunquoted
        · intro heven
          have hodd := heven.1 hbroken.outside
          rw [hbroken.odd] at hodd
          cases hodd

end Origel.Ion
