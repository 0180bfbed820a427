import Origel.Ion.Inserted

/-! Texts, variables and commands, as they are written and as they are recovered. -/
namespace Origel.Ion

/-- The characters that a text is written with a backslash before. -/
def reserved (c : Char) : Bool := c = '\\' ∨ escapable c

/-- A character of a text, as it is written -/
def written (c : Char) : List Char := if reserved c then ['\\', c] else [c]

/-- What stands around the name of a variable, or around a command. -/
inductive Bracket where
  | brace
  | paren
  deriving DecidableEq, Repr

namespace Bracket

def opening : Bracket → Char
  | brace => '{'
  | paren => '('

def closing : Bracket → Char
  | brace => '}'
  | paren => ')'

def token : Bracket → List Char → VariableToken
  | brace => .Variable
  | paren => .Command

def flags : Bracket → VariableFlags
  | brace => bracedFlags
  | paren => ⟨false, false, true, false⟩

def forbidden : Bracket → Char → Bool
  | brace => reserved
  | paren => fun c => c ∈ ['(', ')', '\\']

end Bracket

structure Inner (b : Bracket) where
  text : List Char
  nonempty : text ≠ []
  allowed : ∀ c ∈ text, !b.forbidden c

inductive Segment where
  | literal (text : List Char)
  | bracketed (b : Bracket) (inner : Inner b)

namespace Segment

def source : Segment → List Char
  | literal text => text.flatMap written
  | bracketed b inner => '$' :: b.opening :: inner.text ++ [b.closing]

/-- What the segment stands for. -/
def value (expandVariable expandCommand : List Char → Option (List Char)) : Segment → List Char
  | literal text => text
  | bracketed .brace inner => (expandVariable inner.text).getD []
  | bracketed .paren inner => (expandCommand inner.text).getD []

/-- No bracket opens right behind a backslash, where `before` stands before the segments. -/
def Opened : List Char → List Segment → Prop
  | _, [] => True
  | before, literal text :: rest => Opened (before ++ (literal text).source) rest
  | before, bracketed b inner :: rest =>
    before.getLast? ≠ some '\\' ∧ Opened (before ++ (bracketed b inner).source) rest

instance decidableOpened : ∀ before, DecidablePred (Opened before)
  | _, [] => inferInstanceAs (Decidable True)
  | before, literal text :: rest => decidableOpened (before ++ (literal text).source) rest
  | before, bracketed b inner :: rest =>
    have := decidableOpened (before ++ (bracketed b inner).source) rest
    inferInstanceAs (Decidable (_ ∧ _))

end Segment

section Recovered

variable {data chars before buffer : List Char} {read : Nat} {b : Bracket} {e : Expanders}
  {segments : List Segment}

theorem variableTokens_written (c : Char) :
    variableTokens data (written c ++ chars) read buffer plainFlags =
      variableTokens data chars (read + (written c).length) (buffer ++ [c]) plainFlags := by
  by_cases hr : reserved c
  · rw [written, if_pos hr]
    by_cases hback : c = '\\'
    · subst c
      simp [variableTokens]
    · have hescapable : escapable c := by simpa [reserved, hback] using hr
      simp [variableTokens, hback, hescapable]
  · have hback : c ≠ '\\' := by
      rintro rfl
      exact hr rfl
    have hdollar : c ≠ '$' := by
      rintro rfl
      exact hr rfl
    rw [written, if_neg hr]
    simp [variableTokens, hback, hdollar]

theorem variableTokens_literal (text : List Char) :
    variableTokens data (text.flatMap written ++ chars) read buffer plainFlags =
      variableTokens data chars (read + (text.flatMap written).length) (buffer ++ text) plainFlags := by
  induction text generalizing read buffer with
  | nil => simp
  | cons c text ih =>
    rw [List.flatMap_cons, List.append_assoc, variableTokens_written, ih]
    simp [Nat.add_assoc]

/-- Between the brackets nothing but the closing one acts. -/
theorem variableTokens_inside {c : Char} (hc : !b.forbidden c) :
    variableTokens data (c :: chars) read buffer b.flags =
      variableTokens data chars (read + 1) (buffer ++ [c]) b.flags := by
  have hne : ∀ d, b.forbidden d = true → c ≠ d := by
    rintro d hd rfl
    simp [hd] at hc
  cases b with
  | brace => simp [variableTokens, Bracket.flags, hne '\\' rfl, hne '}' rfl]
  | paren => simp [variableTokens, Bracket.flags, hne '\\' rfl, hne ')' rfl]

theorem variableTokens_inner {s : List Char} (hs : ∀ c ∈ s, !b.forbidden c) :
    variableTokens data (s ++ b.closing :: chars) read buffer b.flags =
      b.token (buffer ++ s) :: variableTokens data chars (read + s.length + 1) [] plainFlags := by
  induction s generalizing read buffer with
  | nil => cases b <;> simp [variableTokens, Bracket.flags, Bracket.closing, Bracket.token]
  | cons c s ih =>
    rw [List.cons_append, variableTokens_inside (hs c List.mem_cons_self),
      ih fun d hd => hs d (List.mem_cons_of_mem c hd)]
    simp [Nat.add_assoc, Nat.add_comm 1]

/-- The scanner looks back at what was written before the `$`, whatever that meant. -/
theorem variableTokens_opening (hdata : data = before ++ '$' :: b.opening :: chars) :
    variableTokens data (b.opening :: chars) (before.length + 1) [] varFlags =
      if before.getLast? = some '\\' then
        .Variable [] :: variableTokens data chars (before.length + 2) [b.opening] plainFlags
      else variableTokens data chars (before.length + 2) [] b.flags := by
  have hdollar : data[before.length]? = some '$' := by simp [hdata]
  rcases List.eq_nil_or_concat before with rfl | ⟨s, c, rfl⟩
  · cases b <;> simp [variableTokens, Bracket.opening, Bracket.flags]
  · rw [List.concat_eq_append] at *
    have hlast : data[(s ++ [c]).length - 1]? = some c := by simp [hdata]
    by_cases hc : c = '\\'
    · have hlong : (s.length + 1 + 1 + 1 < 3) = False := eq_false (by omega)
      subst hc hdata
      cases b <;> simp [variableTokens, Bracket.opening, hlong]
    · cases b <;> simp_all [variableTokens, Bracket.opening, Bracket.flags]

theorem Inner.expand_token (inner : Inner b) :
    (b.token inner.text).expand (e.expandVariable · false) (e.expandCommand · false) =
      (Segment.bracketed b inner).value (e.expandVariable · false) (e.expandCommand · false) := by
  cases b <;> rfl

theorem expanded_bracketed (inner : Inner b)
    (hdata : data = before ++ (Segment.bracketed b inner).source ++ chars)
    (hlast : before.getLast? ≠ some '\\') :
    expanded e (variableTokens data ((Segment.bracketed b inner).source ++ chars) before.length buffer
        plainFlags) =
      buffer ++ (Segment.bracketed b inner).value (e.expandVariable · false) (e.expandCommand · false) ++
        expanded e (variableTokens data chars
          (before ++ (Segment.bracketed b inner).source).length [] plainFlags) := by
  have hsource : (Segment.bracketed b inner).source ++ chars =
      '$' :: b.opening :: (inner.text ++ b.closing :: chars) := by
    simp [Segment.source]
  have hlength : (before ++ (Segment.bracketed b inner).source).length =
      before.length + 2 + inner.text.length + 1 := by
    simp only [Segment.source, List.length_append, List.length_cons, List.length_nil]
    omega
  rw [List.append_assoc, hsource] at hdata
  rw [hsource, variableTokens_dollar, variableTokens_opening hdata, if_neg hlast,
    variableTokens_inner inner.allowed, hlength, List.nil_append, expanded, List.flatMap_cons,
    inner.expand_token, List.append_assoc]
  rfl

/-- Where every bracket opens, all that was written is recovered. -/
theorem expanded_opened (hopened : Segment.Opened before segments)
    (hdata : data = before ++ segments.flatMap Segment.source) :
    expanded e (variableTokens data (segments.flatMap Segment.source) before.length buffer plainFlags) =
      buffer ++ segments.flatMap
        (Segment.value (e.expandVariable · false) (e.expandCommand · false)) := by
  induction segments generalizing before buffer with
  | nil =>
    by_cases hbuffer : buffer = []
    · simp [variableTokens, hbuffer, expanded]
    · simp [variableTokens, hbuffer, expanded, VariableToken.expand]
  | cons s segments ih =>
    simp only [List.flatMap_cons] at *
    cases s with
    | literal text =>
      have hrest := @ih (before ++ (Segment.literal text).source) (buffer ++ text) hopened
        (by rw [hdata, List.append_assoc])
      rw [List.length_append] at hrest
      rw [Segment.source, variableTokens_literal, ← Segment.source, hrest, List.append_assoc]
      rfl
    | bracketed b inner =>
      rw [expanded_bracketed inner (by rw [hdata, List.append_assoc]) hopened.1,
        ih hopened.2 (by rw [hdata, List.append_assoc]), List.append_assoc, List.nil_append]

/-- What is in the buffer is put out first. -/
theorem expanded_buffer (back : Bool) :
    ∃ rest, expanded e (variableTokens data chars read buffer ⟨back, false, false, false⟩) =
      buffer ++ rest := by
  induction chars generalizing read buffer back with
  | nil =>
    by_cases hbuffer : buffer = []
    · exact ⟨[], by simp [variableTokens, hbuffer, expanded]⟩
    · exact ⟨[], by simp [variableTokens, hbuffer, expanded, VariableToken.expand]⟩
  | cons c chars ih =>
    have hgrow : ∀ more : List Char,
        ∃ rest, expanded e (variableTokens data chars (read + 1) (buffer ++ more)
          ⟨false, false, false, false⟩) = buffer ++ rest := by
      intro more
      obtain ⟨rest, hrest⟩ := @ih (buffer ++ more) (read + 1) false
      exact ⟨more ++ rest, by rw [hrest, List.append_assoc]⟩
    by_cases hback : c = '\\'
    · subst c
      cases back with
      | false => simpa [variableTokens] using @ih buffer (read + 1) true
      | true => simpa [variableTokens] using hgrow ['\\']
    · cases back with
      | true =>
        simpa [variableTokens, hback] using hgrow (if escapable c then [c] else ['\\', c])
      | false =>
        by_cases hdollar : c = '$'
        · subst c
          exact ⟨_, variableTokens_dollar⟩
        · simpa [variableTokens, hback, hdollar] using hgrow [c]

/-- The empty name has no value, every other one and every command has this one. -/
def tester : Expanders :=
  ⟨fun _ => none, fun name _ => if name = [] then none else some ['a'], fun _ _ => some ['a'], product⟩

theorem tester_value (inner : Inner b) :
    (Segment.bracketed b inner).value (tester.expandVariable · false) (tester.expandCommand · false) =
      ['a'] := by
  cases b with
  | brace => simp [Segment.value, tester, inner.nonempty]
  | paren => rfl

/-- The first bracket that does not open is put out itself. -/
theorem expanded_not_opened (hopened : ¬Segment.Opened before segments)
    (hdata : data = before ++ segments.flatMap Segment.source) :
    expanded tester (variableTokens data (segments.flatMap Segment.source) before.length buffer
        plainFlags) ≠
      buffer ++ segments.flatMap
        (Segment.value (tester.expandVariable · false) (tester.expandCommand · false)) := by
  induction segments generalizing before buffer with
  | nil => exact absurd trivial hopened
  | cons s segments ih =>
    simp only [List.flatMap_cons] at *
    cases s with
    | literal text =>
      have hrest := @ih (before ++ (Segment.literal text).source) (buffer ++ text) hopened
        (by rw [hdata, List.append_assoc])
      rw [List.length_append] at hrest
      rw [Segment.source, variableTokens_literal, ← Segment.source, ← List.append_assoc]
      exact hrest
    | bracketed b inner =>
      by_cases hlast : before.getLast? = some '\\'
      · have hsource : (Segment.bracketed b inner).source ++ segments.flatMap Segment.source =
            '$' :: b.opening :: (inner.text ++ b.closing :: segments.flatMap Segment.source) := by
          simp [Segment.source]
        rw [hsource] at hdata ⊢
        obtain ⟨rest, hrest⟩ := @expanded_buffer data
          (inner.text ++ b.closing :: segments.flatMap Segment.source) [b.opening] (before.length + 2)
          tester false
        rw [variableTokens_dollar, variableTokens_opening hdata, if_pos hlast, tester_value]
        intro heq
        have hcons := List.append_cancel_left heq
        have hempty : expanded tester (.Variable [] :: variableTokens data
            (inner.text ++ b.closing :: segments.flatMap Segment.source) (before.length + 2)
            [b.opening] plainFlags) = b.opening :: rest := hrest
        rw [hempty, List.singleton_append] at hcons
        have hhead := (List.cons.inj hcons).1
        cases b <;> exact absurd hhead (by decide)
      · rw [expanded_bracketed inner (by rw [hdata, List.append_assoc]) hlast, ← List.append_assoc]
        intro heq
        apply ih (fun hrest => hopened ⟨hlast, hrest⟩) (by rw [hdata, List.append_assoc])
        exact List.append_cancel_left heq

end Recovered

/-- What was written is recovered, whatever the values are, where no bracket opens right behind a
backslash. -/
theorem recovered_iff (segments : List Segment) :
    (∀ expandVariable expandCommand : List Char → Option (List Char),
      expandVariables expandVariable expandCommand (segments.flatMap Segment.source) =
        segments.flatMap (Segment.value expandVariable expandCommand)) ↔
    Segment.Opened [] segments := by
  constructor
  · intro h
    by_contra hopened
    exact expanded_not_opened hopened rfl (h _ _)
  · intro hopened expandVariable expandCommand
    exact @expanded_opened _ [] []
      ⟨fun _ => none, fun name _ => expandVariable name, fun command _ => expandCommand command, product⟩
      segments hopened rfl

/-- A text that ends in a backslash, and a variable -/
theorem backslash_before_variable :
    ¬∀ (segments : List Segment) (expandVariable expandCommand : List Char → Option (List Char)),
      expandVariables expandVariable expandCommand (segments.flatMap Segment.source) =
        segments.flatMap (Segment.value expandVariable expandCommand) := by
  intro h
  exact absurd (h
    [.literal ['\\'], .bracketed .brace ⟨['A'], by decide, List.forall_mem_singleton.mpr (by decide)⟩]
    (fun _ => some ['v']) fun _ => none) (by decide)

end Origel.Ion
