import Origel.Ion.Product

/-! Variables in words with braces: where their values stay as they are. -/
namespace Origel.Ion

open Origel.Lib

/-- `Variables::is_valid_variable_character`, of ASCII characters -/
def isValidVariableCharacter (c : Char) : Bool := c.isAlphanum ∨ c = '_' ∨ c = '?'

structure Name where
  text : List Char
  nonempty : text ≠ []
  valid : ∀ c ∈ text, isValidVariableCharacter c

/-- A piece of a word: a character, one with a backslash before it, or a variable -/
inductive Piece where
  | char (c : Char)
  | pair (c : Char)
  | bare (name : Name)
  | braced (name : Name)

namespace Piece

def source : Piece → List Char
  | char c => [c]
  | pair c => ['\\', c]
  | bare name => '$' :: name.text
  | braced name => '$' :: '{' :: name.text ++ ['}']

/-- What a piece stands for. -/
def value (e : Expanders) : Piece → List Char
  | char c => [c]
  | pair c => [c]
  | bare name => (e.expandVariable name.text false).getD []
  | braced name => (e.expandVariable name.text false).getD []

def isVariable : Piece → Bool
  | char _ => false
  | pair _ => false
  | bare _ => true
  | braced _ => true

def isBraced : Piece → Bool
  | braced _ => true
  | _ => false

/-- The piece is written as the shell reads it, in a group or not. -/
def Written (inside : Bool) : Piece → Prop
  | char c => c ∉ ['\\', '\'', '"', '{', '}', '$', ' '] ∧ (inside → c ≠ ',')
  | pair c => special c
  | bare _ => True
  | braced _ => True

instance (inside : Bool) (p : Piece) : Decidable (p.Written inside) := by
  cases p <;> unfold Written <;> infer_instance

/-- The name of a variable ends before these pieces. -/
def EndsName : List Piece → Prop
  | [] => True
  | char c :: _ => c ∈ [' ', ':', ',', '@', '#', '}', ')', '{', '(']
  | pair _ :: _ => False
  | bare _ :: _ => True
  | braced _ :: _ => True

instance : DecidablePred EndsName := by
  intro pieces
  unfold EndsName
  split <;> infer_instance

/-- Every variable without braces ends where its name does. -/
def Separated : List Piece → Prop
  | [] => True
  | bare _ :: rest => EndsName rest ∧ Separated rest
  | _ :: rest => Separated rest

instance decidableSeparated : DecidablePred Separated
  | [] => inferInstanceAs (Decidable True)
  | bare _ :: rest =>
    have := decidableSeparated rest
    inferInstanceAs (Decidable (_ ∧ _))
  | char _ :: rest => decidableSeparated rest
  | pair _ :: rest => decidableSeparated rest
  | braced _ :: rest => decidableSeparated rest

end Piece

/-- Text as the braces read it: a backslash belongs to the next character. -/
def atoms : List Char → List Atom
  | [] => []
  | ['\\'] => [.char '\\']
  | '\\' :: c :: s => .pair c :: atoms s
  | c :: s => .char c :: atoms s

/-- Nothing of the text acts, and it keeps its backslashes. -/
def Stays (inside : Bool) (s : List Char) : Prop :=
  ∀ a ∈ atoms s, a.Inert inside ∧ a.meaning = a.source

instance (inside : Bool) (s : List Char) : Decidable (Stays inside s) :=
  inferInstanceAs (Decidable (∀ a ∈ atoms s, _))

namespace Word

def HasVariables (w : Word Piece) : Prop := ∃ p ∈ w.flat .char, p.isVariable

/-- The word as the shell reads it. -/
structure Written (w : Word Piece) : Prop where
  all : w.All (Piece.Written true) (Piece.Written false)
  separated : Piece.Separated (w.flat .char)

/-- What the variables, and the characters that have lost their backslashes, put into the word stays
as it is. -/
structure Kept (e : Expanders) (w : Word Piece) : Prop where
  all : w.All (fun p => Stays true (p.value e)) fun p => Stays false (p.value e)
  ascii : w.AsciiGroups (Piece.value e)

/-- Where the shell gives all combinations. -/
structure Sound (e : Expanders) (w : Word Piece) : Prop where
  ascii : Ascii (w.source Piece.source)
  braced : w.All (fun p => ¬p.isBraced) fun _ => True
  kept : w.HasVariables → w.Kept e

end Word

section Insertion

variable {data chars : List Char} {read : Nat} {buffer : List Char} {name : Name}
  {pieces : List Piece} {e : Expanders}

/-- No variable is open. -/
abbrev plainFlags : VariableFlags := ⟨false, false, false, false⟩

abbrev varFlags : VariableFlags := ⟨false, false, false, true⟩

abbrev bracedFlags : VariableFlags := ⟨false, true, false, false⟩

theorem ne_of_valid {c d : Char} (hc : isValidVariableCharacter c) (hd : !isValidVariableCharacter d) :
    c ≠ d := by
  rintro rfl
  simp [hc] at hd

/-- A character of a name is read on, with braces or without. -/
theorem variableTokens_valid {c : Char} (hc : isValidVariableCharacter c) {flags : VariableFlags}
    (hflags : flags = varFlags ∨ flags = bracedFlags) :
    variableTokens data (c :: chars) read buffer flags =
      variableTokens data chars (read + 1) (buffer ++ [c]) flags := by
  have hne := fun d => @ne_of_valid c d hc
  have hends : c ∉ [' ', ':', ',', '@', '#', '}', ')'] := by
    intro hmem
    simp only [List.mem_cons, List.not_mem_nil, or_false] at hmem
    rcases hmem with h | h | h | h | h | h | h <;> exact hne _ rfl h
  rcases hflags with rfl | rfl
  · simp only [variableTokens, hne '\\' rfl, hne '{' rfl, hne '(' rfl, hne '$' rfl, hends, if_false,
      if_true, Bool.false_eq_true]
  · simp only [variableTokens, hne '\\' rfl, hne '}' rfl, if_false, if_true, Bool.false_eq_true]

theorem variableTokens_name {s : List Char} (hs : ∀ c ∈ s, isValidVariableCharacter c)
    {flags : VariableFlags} (hflags : flags = varFlags ∨ flags = bracedFlags) :
    variableTokens data (s ++ chars) read buffer flags =
      variableTokens data chars (read + s.length) (buffer ++ s) flags := by
  induction s generalizing read buffer with
  | nil => simp
  | cons c s ih =>
    rw [List.cons_append, variableTokens_valid (hs c List.mem_cons_self) hflags,
      ih fun d hd => hs d (List.mem_cons_of_mem c hd)]
    simp [Nat.add_assoc, Nat.add_comm 1]

/-- A variable without braces ends with the pieces that follow, which are then read as ever. -/
theorem variableTokens_ends (hends : Piece.EndsName pieces) (hbuffer : buffer ≠ [])
    (hread : 2 ≤ read) (hlast : data[read - 1]? ≠ some '$') :
    variableTokens data (pieces.flatMap Piece.source) read buffer varFlags =
      .Variable buffer :: variableTokens data (pieces.flatMap Piece.source) read [] plainFlags := by
  have hnot : ¬(read + 1 < 3) := by omega
  cases pieces with
  | nil => simp [variableTokens, hbuffer]
  | cons p pieces =>
    cases p with
    | char c =>
      simp only [Piece.EndsName, List.mem_cons, List.not_mem_nil, or_false] at hends
      rcases hends with rfl | rfl | rfl | rfl | rfl | rfl | rfl | rfl | rfl <;>
        simp [Piece.source, variableTokens, hnot, hlast]
    | pair c => exact hends.elim
    | bare name => simp [Piece.source, variableTokens]
    | braced name => simp [Piece.source, variableTokens]

/-- The text that the tokens put out. -/
def expanded (e : Expanders) (tokens : List VariableToken) : List Char :=
  tokens.flatMap fun token => token.expand (e.expandVariable · false) (e.expandCommand · false)

/-- What has been read before a `$` is put out before the variable. -/
theorem variableTokens_dollar :
    expanded e (variableTokens data ('$' :: chars) read buffer plainFlags) =
      buffer ++ expanded e (variableTokens data chars (read + 1) [] varFlags) := by
  by_cases hbuffer : buffer = []
  · simp [variableTokens, hbuffer]
  · simp [variableTokens, hbuffer, expanded, VariableToken.expand]

/-- The piece is read as it is written, outside a group or as one of the characters that make it. -/
def Piece.Reads : Piece → Prop
  | char c => c ≠ '\\' ∧ c ≠ '$'
  | pair c => special c
  | bare _ => True
  | braced _ => True

variable {pre : List Char}

theorem Name.eq_concat (name : Name) :
    ∃ s c, name.text = s ++ [c] ∧ isValidVariableCharacter c := by
  rcases List.eq_nil_or_concat name.text with h | ⟨s, c, h⟩
  · exact absurd h name.nonempty
  · rw [List.concat_eq_append] at h
    refine ⟨s, c, h, name.valid c ?_⟩
    rw [h]
    exact List.mem_append_right s List.mem_cons_self

theorem expanded_bare (hdata : data = pre ++ '$' :: name.text ++ chars)
    (hchars : chars = pieces.flatMap Piece.source) (hends : Piece.EndsName pieces) :
    expanded e (variableTokens data ('$' :: name.text ++ chars) pre.length buffer plainFlags) =
      buffer ++ (Piece.bare name).value e ++
        expanded e (variableTokens data chars (pre.length + 1 + name.text.length) [] plainFlags) := by
  obtain ⟨s, c, hname, hc⟩ := name.eq_concat
  have hlast : data[pre.length + 1 + name.text.length - 1]? ≠ some '$' := by
    have hget : data[(pre ++ '$' :: s).length]? = some c := by
      rw [hdata, hname]
      simp
    have hindex : pre.length + 1 + name.text.length - 1 = (pre ++ '$' :: s).length := by
      rw [hname]
      simp only [List.length_append, List.length_cons, List.length_nil]
      omega
    rw [hindex, hget]
    simpa using ne_of_valid hc rfl
  have hpos := List.length_pos_iff.mpr name.nonempty
  rw [List.cons_append, variableTokens_dollar, variableTokens_name name.valid (.inl rfl), hchars,
    List.nil_append, variableTokens_ends hends name.nonempty (by omega) hlast, List.append_assoc]
  rfl

theorem expanded_braced (hdata : data = pre ++ '$' :: '{' :: name.text ++ '}' :: chars)
    (hlast : pre.getLast? ≠ some '\\') :
    expanded e (variableTokens data ('$' :: '{' :: name.text ++ '}' :: chars) pre.length buffer plainFlags) =
      buffer ++ (Piece.braced name).value e ++
        expanded e (variableTokens data chars (pre.length + 2 + name.text.length + 1) [] plainFlags) := by
  have hopens : pre.length + 2 < 3 ∨ data[pre.length]? = some '$' ∧ data[pre.length - 1]? ≠ some '\\' := by
    rcases List.eq_nil_or_concat pre with rfl | ⟨s, c, rfl⟩
    · exact .inl (by decide)
    · refine .inr ⟨?_, ?_⟩
      · rw [hdata]
        simp
      · rw [hdata]
        simpa using hlast
  have hopen : variableTokens data ('{' :: (name.text ++ '}' :: chars)) (pre.length + 1) [] varFlags =
      variableTokens data (name.text ++ '}' :: chars) (pre.length + 2) [] bracedFlags := by
    simp [variableTokens, hopens]
  rw [List.cons_append, List.cons_append, variableTokens_dollar, hopen,
    variableTokens_name name.valid (.inr rfl)]
  simp [variableTokens, expanded, VariableToken.expand, Piece.value]

/-- The variables are replaced by their values, and the other pieces lose their backslashes. -/
theorem expanded_pieces (hreads : ∀ p ∈ pieces, p.Reads) (hsep : Piece.Separated pieces)
    (hdata : data = pre ++ pieces.flatMap Piece.source) (hlast : pre.getLast? ≠ some '\\') :
    expanded e (variableTokens data (pieces.flatMap Piece.source) pre.length buffer plainFlags) =
      buffer ++ pieces.flatMap (Piece.value e) := by
  induction pieces generalizing pre buffer with
  | nil =>
    by_cases hbuffer : buffer = []
    · simp [variableTokens, hbuffer, expanded]
    · simp [variableTokens, hbuffer, expanded, VariableToken.expand]
  | cons p pieces ih =>
    have hp := hreads p List.mem_cons_self
    have hrest := fun q hq => hreads q (List.mem_cons_of_mem p hq)
    cases p with
    | char c =>
      obtain ⟨hback, hvar⟩ := hp
      have hread := @ih (buffer ++ [c]) (pre ++ [c]) hrest hsep (by rw [hdata]; simp [Piece.source])
        (by simpa using hback)
      rw [List.length_append] at hread
      simpa [Piece.source, Piece.value, variableTokens, hback, hvar] using hread
    | pair c =>
      have hspecial : special c := hp
      have hescapable : escapable c := by
        simp only [special, decide_eq_true_eq] at hspecial
        rcases hspecial with rfl | rfl | rfl <;> decide
      have hback : c ≠ '\\' := by
        rintro rfl
        exact absurd hspecial (by decide)
      have hread := @ih (buffer ++ [c]) (pre ++ ['\\', c]) hrest hsep
        (by rw [hdata]; simp [Piece.source]) (by simpa using hback)
      rw [List.length_append] at hread
      simpa [Piece.source, Piece.value, variableTokens, hback, hescapable] using hread
    | bare name =>
      obtain ⟨s, c, hname, hc⟩ := name.eq_concat
      have hend : (pre ++ '$' :: name.text).getLast? ≠ some '\\' := by
        have hpre : pre ++ '$' :: name.text = pre ++ '$' :: s ++ [c] := by
          rw [hname]
          simp
        rw [hpre, List.getLast?_concat]
        simpa using @ne_of_valid c '\\' hc rfl
      have hread := @ih [] (pre ++ '$' :: name.text) hrest hsep.2 (by rw [hdata]; simp [Piece.source])
        hend
      have hlength : (pre ++ '$' :: name.text).length = pre.length + 1 + name.text.length := by
        rw [List.length_append, List.length_cons]
        omega
      rw [List.flatMap_cons, Piece.source,
        expanded_bare (by rw [hdata]; simp [Piece.source]) rfl hsep.1, ← hlength, hread]
      simp
    | braced name =>
      have hread := @ih [] (pre ++ '$' :: '{' :: name.text ++ ['}']) hrest hsep
        (by rw [hdata]; simp [Piece.source]) (by rw [List.getLast?_concat]; decide)
      have hlength : (pre ++ '$' :: '{' :: name.text ++ ['}']).length =
          pre.length + 2 + name.text.length + 1 := by
        simp only [List.length_append, List.length_cons, List.length_nil]
        omega
      have hsource : (Piece.braced name :: pieces).flatMap Piece.source =
          '$' :: '{' :: name.text ++ '}' :: pieces.flatMap Piece.source := by
        simp [Piece.source]
      rw [hsource] at hdata ⊢
      rw [expanded_braced (by rw [hdata]; simp) hlast, ← hlength, hread]
      simp

end Insertion

section Words

variable {data chars s : List Char} {read id : Nat} {braces hasVars tilde isOpen prevWasVar : Bool}
  {name : Name} {p : Piece} {pieces : List Piece}

/-- Nothing is quoted, and no variable has just begun. -/
abbrev wordFlags (braces hasVars tilde isOpen : Bool) : WordFlags :=
  ⟨false, false, false, false, braces, hasVars, tilde, isOpen⟩

open WordIterator

theorem scan_valid {c : Char} (hc : isValidVariableCharacter c) :
    scan data (c :: chars) 0 read id none false ⟨false, false, false, prevWasVar, braces, hasVars, tilde, isOpen⟩ =
      scan data chars 0 (read + 1) id none false (wordFlags braces hasVars tilde isOpen) := by
  have hne := fun d => @ne_of_valid c d hc
  simp [scan, WordFlags.quoted, hne '\\' rfl, hne '\'' rfl, hne '"' rfl, hne '{' rfl, hne '}' rfl,
    hne '(' rfl, hne '$' rfl, hne '~' rfl, hne ' ' rfl]

theorem scan_valids (hs : ∀ c ∈ s, isValidVariableCharacter c) :
    scan data (s ++ chars) 0 read id none false (wordFlags braces hasVars tilde isOpen) =
      scan data chars 0 (read + s.length) id none false (wordFlags braces hasVars tilde isOpen) := by
  induction s generalizing read with
  | nil => rfl
  | cons c s ih =>
    rw [List.cons_append, scan_valid (hs c List.mem_cons_self),
      ih fun d hd => hs d (List.mem_cons_of_mem c hd), List.length_cons]
    congr 1
    omega

/-- Behind its name, nothing is left of a variable's beginning. -/
theorem scan_name :
    scan data (name.text ++ chars) 0 read id none false
        ⟨false, false, false, prevWasVar, braces, hasVars, tilde, isOpen⟩ =
      scan data chars 0 (read + name.text.length) id none false (wordFlags braces hasVars tilde isOpen) := by
  have hvalid := name.valid
  obtain ⟨c, s, hs⟩ := List.exists_cons_of_ne_nil name.nonempty
  rw [hs] at hvalid ⊢
  rw [List.cons_append, scan_valid (hvalid c List.mem_cons_self),
    scan_valids fun d hd => hvalid d (List.mem_cons_of_mem c hd), List.length_cons]
  congr 1
  omega

theorem Piece.Written.outside {inside : Bool} (h : p.Written inside) : p.Written false := by
  cases p with
  | char c => exact ⟨h.1, nofun⟩
  | pair c => exact h
  | bare name => trivial
  | braced name => trivial

/-- A piece is read on, and what is known of the word is whether there is a variable. -/
theorem scan_piece (hp : p.Written false) (hbraced : isOpen → ¬p.isBraced) :
    ∃ tilde' id', scan data (p.source ++ chars) 0 read id none false (wordFlags braces hasVars tilde isOpen) =
      scan data chars 0 (read + p.source.length) id' none false
        (wordFlags braces (hasVars || p.isVariable) tilde' isOpen) := by
  cases p with
  | char c =>
    have hc := hp.1
    simp only [List.mem_cons, List.not_mem_nil, or_false, not_or] at hc
    obtain ⟨hback, hsingle, hdouble, hbegin, hend, hvar, hblank⟩ := hc
    by_cases htilde : c = '~' ∧ 0 = read
    · obtain ⟨rfl, rfl⟩ := htilde
      exact ⟨true, id, by simp [Piece.source, Piece.isVariable, scan, WordFlags.quoted]⟩
    · exact ⟨tilde, id, by
        simp [Piece.source, Piece.isVariable, scan, WordFlags.quoted, hback, hsingle, hdouble, hbegin,
          hend, hvar, hblank, htilde]⟩
  | pair c =>
    have hvar : c ≠ '$' := by
      rintro rfl
      exact absurd hp (by simp [Piece.Written, special])
    exact ⟨tilde, id, by simp [Piece.source, Piece.isVariable, scan, hvar]⟩
  | bare name =>
    refine ⟨tilde, id, ?_⟩
    have hdollar : scan data ('$' :: (name.text ++ chars)) 0 read id none false
        (wordFlags braces hasVars tilde isOpen) =
        scan data (name.text ++ chars) 0 (read + 1) id none false
          ⟨false, false, false, true, braces, true, tilde, isOpen⟩ := by
      simp [scan, WordFlags.quoted]
    rw [Piece.source, List.cons_append, hdollar, scan_name, Piece.isVariable, Bool.or_true,
      List.length_cons]
    congr 1
    omega
  | braced name =>
    have hclosed : isOpen = false := by
      cases isOpen with
      | false => rfl
      | true => exact absurd rfl (hbraced rfl)
    subst hclosed
    refine ⟨tilde, read + 1, ?_⟩
    have hbegin : scan data ('$' :: '{' :: (name.text ++ '}' :: chars)) 0 read id none false
        (wordFlags braces hasVars tilde false) =
        scan data (name.text ++ '}' :: chars) 0 (read + 2) (read + 1) none false
          ⟨false, false, false, true, braces, true, tilde, true⟩ := by
      simp [scan, WordFlags.quoted]
    have hend : scan data ('}' :: chars) 0 (read + 2 + name.text.length) (read + 1) none false
        (wordFlags braces true tilde true) =
        scan data chars 0 (read + 2 + name.text.length + 1) (read + 1) none false
          (wordFlags braces true tilde false) := by
      simp [scan, WordFlags.quoted]
    have hsource : (Piece.braced name).source ++ chars = '$' :: '{' :: (name.text ++ '}' :: chars) := by
      simp [Piece.source]
    have hlength : (Piece.braced name).source.length = 2 + name.text.length + 1 := by
      simp only [Piece.source, List.length_cons, List.length_append, List.length_nil]
      omega
    rw [hsource, hbegin, scan_name, hend, hlength, Piece.isVariable, Bool.or_true, ← Nat.add_assoc,
      ← Nat.add_assoc]

theorem scan_pieces (hpieces : ∀ p ∈ pieces, p.Written false)
    (hbraced : isOpen → ∀ p ∈ pieces, ¬p.isBraced) :
    ∃ tilde' id', scan data (pieces.flatMap Piece.source ++ chars) 0 read id none false
        (wordFlags braces hasVars tilde isOpen) =
      scan data chars 0 (read + (pieces.flatMap Piece.source).length) id' none false
        (wordFlags braces (hasVars || pieces.any Piece.isVariable) tilde' isOpen) := by
  induction pieces generalizing read id hasVars tilde with
  | nil => exact ⟨tilde, id, by simp⟩
  | cons p pieces ih =>
    obtain ⟨t, i, hp⟩ := @scan_piece data (pieces.flatMap Piece.source ++ chars) read id braces hasVars
      tilde isOpen p (hpieces p List.mem_cons_self) fun h => hbraced h p List.mem_cons_self
    obtain ⟨tilde', id', hrest⟩ := @ih (read + p.source.length) i (hasVars || p.isVariable) t
      (fun q h => hpieces q (List.mem_cons_of_mem p h))
      (fun h q hq => hbraced h q (List.mem_cons_of_mem p hq))
    refine ⟨tilde', id', ?_⟩
    rw [List.flatMap_cons, List.append_assoc, hp, hrest, List.length_append, List.any_cons,
      Bool.or_assoc, Nat.add_assoc]

/-- The pieces between the braces of a group -/
def Part.inner (part : Part Piece) : List Piece :=
  part.first ++ part.others.flatMap (.char ',' :: ·)

theorem Part.mem_inner {part : Part Piece} (h : p ∈ part.inner) :
    p = .char ',' ∨ ∃ alternative ∈ part.alternatives, p ∈ alternative := by
  rcases List.mem_append.mp h with h | h
  · exact .inr ⟨part.first, List.mem_cons_self, h⟩
  · obtain ⟨alternative, hmem, hp⟩ := List.mem_flatMap.mp h
    rcases List.mem_cons.mp hp with rfl | hp
    · exact .inl rfl
    · exact .inr ⟨alternative, List.mem_cons_of_mem _ hmem, hp⟩

theorem Part.any_flat (part : Part Piece) :
    (part.flat .char).any Piece.isVariable =
      (part.inner.any Piece.isVariable || part.text.any Piece.isVariable) := by
  simp [Part.flat, Part.inner, Piece.isVariable, Bool.or_assoc]

theorem Part.source_eq (part : Part Piece) :
    part.source Piece.source =
      '{' :: (part.inner.flatMap Piece.source ++ '}' :: part.text.flatMap Piece.source) := by
  simp [Part.source, Part.body, Part.inner, List.flatMap_assoc, Piece.source]

theorem scan_part {part : Part Piece} (hinner : ∀ p ∈ part.inner, p.Written false)
    (hbraced : ∀ p ∈ part.inner, ¬p.isBraced) (htext : ∀ p ∈ part.text, p.Written false) :
    ∃ tilde' id', scan data (part.source Piece.source ++ chars) 0 read id none false
        (wordFlags braces hasVars tilde false) =
      scan data chars 0 (read + (part.source Piece.source).length) id' none false
        (wordFlags true (hasVars || (part.flat .char).any Piece.isVariable) tilde' false) := by
  obtain ⟨t, i, hgroup⟩ := @scan_pieces data ('}' :: (part.text.flatMap Piece.source ++ chars)) (read + 1)
    read true hasVars tilde true part.inner hinner fun _ => hbraced
  obtain ⟨tilde', id', hrest⟩ := @scan_pieces data chars
    (read + 1 + (part.inner.flatMap Piece.source).length + 1) i true
    (hasVars || part.inner.any Piece.isVariable) t false part.text htext nofun
  refine ⟨tilde', id', ?_⟩
  have hbegin : scan data ('{' :: (part.inner.flatMap Piece.source ++
      '}' :: (part.text.flatMap Piece.source ++ chars))) 0 read id none false
        (wordFlags braces hasVars tilde false) =
      scan data (part.inner.flatMap Piece.source ++ '}' :: (part.text.flatMap Piece.source ++ chars)) 0
        (read + 1) read none false (wordFlags true hasVars tilde true) := by
    simp [scan, WordFlags.quoted]
  have hend : scan data ('}' :: (part.text.flatMap Piece.source ++ chars)) 0
      (read + 1 + (part.inner.flatMap Piece.source).length) i none false
        (wordFlags true (hasVars || part.inner.any Piece.isVariable) t true) =
      scan data (part.text.flatMap Piece.source ++ chars) 0
        (read + 1 + (part.inner.flatMap Piece.source).length + 1) i none false
        (wordFlags true (hasVars || part.inner.any Piece.isVariable) t false) := by
    simp [scan, WordFlags.quoted]
  have hsource : part.source Piece.source ++ chars = '{' :: (part.inner.flatMap Piece.source ++
      '}' :: (part.text.flatMap Piece.source ++ chars)) := by
    rw [part.source_eq]
    simp
  have hlength : read + (part.source Piece.source).length = read + 1 +
      (part.inner.flatMap Piece.source).length + 1 + (part.text.flatMap Piece.source).length := by
    rw [part.source_eq]
    simp only [List.length_cons, List.length_append]
    omega
  rw [hsource, hbegin, hgroup, hend, hrest, hlength, part.any_flat, Bool.or_assoc]

theorem scan_parts {parts : List (Part Piece)}
    (hinner : ∀ part ∈ parts, ∀ p ∈ part.inner, p.Written false ∧ ¬p.isBraced)
    (htext : ∀ part ∈ parts, ∀ p ∈ part.text, p.Written false) :
    ∃ tilde' id', scan data (parts.flatMap (Part.source Piece.source) ++ chars) 0 read id none false
        (wordFlags braces hasVars tilde false) =
      scan data chars 0 (read + (parts.flatMap (Part.source Piece.source)).length) id' none false
        (wordFlags (braces || !parts.isEmpty)
          (hasVars || (parts.flatMap (Part.flat .char)).any Piece.isVariable) tilde' false) := by
  induction parts generalizing read id braces hasVars tilde with
  | nil => exact ⟨tilde, id, by simp⟩
  | cons part parts ih =>
    have hpart := hinner part List.mem_cons_self
    obtain ⟨t, i, hfirst⟩ := @scan_part data (parts.flatMap (Part.source Piece.source) ++ chars) read id
      braces hasVars tilde part (fun p h => (hpart p h).1) (fun p h => (hpart p h).2)
      (htext part List.mem_cons_self)
    obtain ⟨tilde', id', hrest⟩ := @ih (read + (part.source Piece.source).length) i true
      (hasVars || (part.flat .char).any Piece.isVariable) t
      (fun q h => hinner q (List.mem_cons_of_mem part h))
      (fun q h => htext q (List.mem_cons_of_mem part h))
    refine ⟨tilde', id', ?_⟩
    rw [List.flatMap_cons, List.append_assoc, hfirst, hrest, List.length_append, List.flatMap_cons,
      List.any_append, Bool.or_assoc, Nat.add_assoc]
    simp

variable {w : Word Piece} {e : Expanders}

theorem Word.source_pos (w : Word Piece) : 0 < (w.source Piece.source).length := by
  obtain ⟨part, parts, hparts⟩ := List.exists_cons_of_ne_nil w.nonempty
  rw [Word.source, hparts, List.flatMap_cons, part.source_eq]
  simp only [List.length_append, List.length_cons]
  omega

/-- The whole word is one token. -/
theorem next_word (hw : w.Written) (hs : w.Sound e) :
    ∃ tilde', (WordIterator.new (w.source Piece.source)).next =
      some (some (.ok (.Brace (w.source Piece.source) ((w.flat .char).any Piece.isVariable))),
        ⟨w.source Piece.source, (w.source Piece.source).length,
          wordFlags true ((w.flat .char).any Piece.isVariable) tilde' false⟩) := by
  have hinner : ∀ part ∈ w.parts, ∀ p ∈ part.inner, p.Written false ∧ ¬p.isBraced := by
    intro part hpart p hp
    rcases part.mem_inner hp with rfl | ⟨alternative, halternative, hp⟩
    · exact ⟨⟨by decide, nofun⟩, by decide⟩
    · exact ⟨((hw.all.parts part hpart).alternatives alternative halternative p hp).outside,
        (hs.braced.parts part hpart).alternatives alternative halternative p hp⟩
  obtain ⟨t, i, hlead⟩ := @scan_pieces (w.source Piece.source)
    (w.parts.flatMap (Part.source Piece.source) ++ []) 0 0 false false false false w.lead hw.all.lead nofun
  obtain ⟨tilde', id', hparts⟩ := @scan_parts (w.source Piece.source) []
    (0 + (w.lead.flatMap Piece.source).length) i false (false || w.lead.any Piece.isVariable) t w.parts hinner
    fun part hpart => (hw.all.parts part hpart).text
  refine ⟨tilde', ?_⟩
  have hnext : (WordIterator.new (w.source Piece.source)).next =
      scan (w.source Piece.source) (w.source Piece.source) 0 0 0 none false
        (wordFlags false false false false) := rfl
  have hsource : w.source Piece.source =
      w.lead.flatMap Piece.source ++ (w.parts.flatMap (Part.source Piece.source) ++ []) := by
    rw [List.append_nil]
    rfl
  have hlength : 0 + (w.lead.flatMap Piece.source).length +
      (w.parts.flatMap (Part.source Piece.source)).length = (w.source Piece.source).length := by
    rw [Nat.zero_add, Word.source, List.length_append]
  have hend : scan (w.source Piece.source) (w.source Piece.source) 0 0 0 none false
      (wordFlags false false false false) =
      scan (w.source Piece.source) [] 0 (w.source Piece.source).length id' none false
        (wordFlags true ((w.flat .char).any Piece.isVariable) tilde' false) := by
    have hnonempty : w.parts.isEmpty = false := List.isEmpty_eq_false_iff.mpr w.nonempty
    have hany : (w.flat .char).any Piece.isVariable = ((false || w.lead.any Piece.isVariable) ||
        (w.parts.flatMap (Part.flat .char)).any Piece.isVariable) := by
      rw [Word.flat, List.any_append, Bool.false_or]
    rw [hlength, hnonempty] at hparts
    rw [hany]
    nth_rewrite 2 [hsource]
    exact hlead.trans hparts
  have hslice : slice (w.source Piece.source) 0 (w.source Piece.source).length =
      some (w.source Piece.source) := by
    have h := slice_ascii (show Ascii [] by decide) hs.ascii [] rfl rfl
    rw [List.nil_append, List.append_nil, List.length_nil, Nat.zero_add] at h
    exact h
  have hpos := w.source_pos
  rw [hnext, hend, scan, collectAtEnd, hslice]
  simp [WordFlags.token, show ¬(0 = (w.source Piece.source).length) by omega]

theorem atoms_source (s : List Char) : (atoms s).flatMap Atom.source = s := by
  induction s using atoms.induct with
  | case1 => rfl
  | case2 => rfl
  | case3 c s ih => simp [atoms, Atom.source, ih]
  | case4 c s hlast hback ih => 
    rw [atoms.eq_4 c s hlast hback, List.flatMap_cons, ih]
    rfl

/-- A piece as the braces read it, if it is not a variable. -/
def Piece.atoms : Piece → List Atom
  | char c => [.char c]
  | pair c => [.pair c]
  | p => Ion.atoms p.source

theorem Piece.atoms_source (p : Piece) : p.atoms.flatMap Atom.source = p.source := by
  cases p with
  | char c => rfl
  | pair c => rfl
  | bare name => exact Ion.atoms_source _
  | braced name => exact Ion.atoms_source _

/-- A piece that is not a variable does not act, and loses its backslash. -/
theorem Piece.Written.atoms {inside : Bool} (h : p.Written inside) (hvar : p.isVariable = false) :
    (∀ a ∈ p.atoms, a.Inert inside) ∧ p.atoms.flatMap Atom.meaning = p.value e := by
  cases p with
  | char c =>
    refine ⟨?_, rfl⟩
    intro a ha
    obtain ⟨hplain, hcomma⟩ := h
    simp only [List.mem_cons, List.not_mem_nil, or_false, not_or] at hplain
    rw [List.mem_singleton.mp ha]
    cases inside with
    | false => exact ⟨hplain.1, hplain.2.2.2.1⟩
    | true => exact ⟨hplain.1, hcomma rfl, hplain.2.2.2.2.1⟩
  | pair c =>
    have hspecial : special c := h
    refine ⟨?_, by simp [Piece.atoms, Atom.meaning, hspecial, Piece.value]⟩
    intro a ha
    rw [List.mem_singleton.mp ha]
    trivial
  | bare name => cases hvar
  | braced name => cases hvar

/-- A word without variables gives all its combinations. -/
theorem expandBraces_constant (hw : w.Written) (hascii : Ascii (w.source Piece.source))
    (hvar : ¬w.HasVariables) :
    expandBraces product (w.source Piece.source) = some (w.combinations (Piece.value e)) := by
  have hsource : (w.bind Piece.atoms).source Atom.source = w.source Piece.source := by
    rw [Word.bind_source]
    simp only [Piece.atoms_source]
  have hplain : w.All (fun p => p.isVariable = false) fun p => p.isVariable = false := by
    apply Word.All.of_flat
    intro p hp
    exact Bool.eq_false_iff.mpr fun h => hvar ⟨p, hp, h⟩
  have hall := hw.all.and hplain
  have hinert : (w.bind Piece.atoms).Inert := by
    apply Word.All.bind
    exact hall.imp (fun p hp => (hp.1.atoms (e := e) hp.2).1) fun p hp => (hp.1.atoms (e := e) hp.2).1
  have hmeaning : (w.bind Piece.atoms).combinations Atom.meaning = w.combinations (Piece.value e) := by
    rw [Word.bind_combinations]
    exact (hall.imp (fun p hp => (hp.1.atoms hp.2).2) fun p hp => (hp.1.atoms hp.2).2).combinations
  have hgroups : (w.bind Piece.atoms).AsciiGroups Atom.source := by
    apply Word.AsciiGroups.of_ascii
    rw [hsource]
    exact hascii
  rw [← hsource, expandBraces_word hinert hgroups, hmeaning]

/-- A word with variables gives all its combinations where they stay as they are. -/
theorem expandBraces_kept (hkept : w.Kept e) :
    expandBraces product (w.source (Piece.value e)) = some (w.combinations (Piece.value e)) := by
  have hsource : (w.bind fun p => atoms (p.value e)).source Atom.source = w.source (Piece.value e) := by
    rw [Word.bind_source]
    simp only [atoms_source]
  have hinert : (w.bind fun p => atoms (p.value e)).Inert := by
    apply Word.All.bind
    exact hkept.all.imp (fun p hp a ha => (hp a ha).1) fun p hp a ha => (hp a ha).1
  have hmeaning : (w.bind fun p => atoms (p.value e)).combinations Atom.meaning =
      w.combinations (Piece.value e) := by
    rw [Word.bind_combinations]
    have hvalue : ∀ {inside : Bool} {p : Piece}, Stays inside (p.value e) →
        (atoms (p.value e)).flatMap Atom.meaning = p.value e := by
      intro inside p hp
      rw [List.flatMap_congr fun a ha => (hp a ha).2, atoms_source]
    exact (hkept.all.imp (fun p => hvalue) fun p => hvalue).combinations
  have hgroups : (w.bind fun p => atoms (p.value e)).AsciiGroups Atom.source := by
    apply Word.AsciiGroups.bind
    simp only [atoms_source]
    exact hkept.ascii
  rw [← hsource, expandBraces_word hinert hgroups, hmeaning]

theorem Piece.Written.reads {inside : Bool} (h : p.Written inside) : p.Reads := by
  cases p with
  | char c =>
    have hplain := h.1
    simp only [List.mem_cons, List.not_mem_nil, or_false, not_or] at hplain
    exact ⟨hplain.1, hplain.2.2.2.2.2.1⟩
  | pair c => exact h
  | bare name => trivial
  | braced name => trivial

/-- What the braces make of the word, after its variables -/
theorem expandWord_brace (hperm : ∀ expanders, e.permutator expanders = product expanders)
    (hw : w.Written) (hs : w.Sound e) :
    e.expandWord (.Brace (w.source Piece.source) ((w.flat .char).any Piece.isVariable)) =
      some (w.combinations (Piece.value e)) := by
  have hpermutator : e.permutator = product := funext hperm
  rw [Expanders.expandWord, hpermutator]
  by_cases hvar : w.HasVariables
  · have hany : (w.flat .char).any Piece.isVariable = true := List.any_eq_true.mpr hvar
    have hreads : ∀ p ∈ w.flat .char, p.Reads := by
      apply (hw.all.imp (fun _ hp => hp.reads) fun _ hp => hp.reads).flat
      intro c hc
      simp only [special, decide_eq_true_eq] at hc
      rcases hc with rfl | rfl | rfl <;> exact ⟨by decide, by decide⟩
    have hexpand : expandVariables (e.expandVariable · false) (e.expandCommand · false)
        (w.source Piece.source) = w.source (Piece.value e) := by
      have h := @expanded_pieces (w.source Piece.source) [] (w.flat .char) e [] hreads hw.separated
        (Word.flat_source (fun _ => rfl) w).symm (by decide)
      rw [Word.flat_source (fun _ => rfl), Word.flat_source (fun _ => rfl)] at h
      exact h
    rw [hany, if_pos rfl, hexpand, expandBraces_kept (hs.kept hvar)]
  · have hany : (w.flat .char).any Piece.isVariable = false := by
      apply List.any_eq_false.mpr
      exact fun p hp h => hvar ⟨p, hp, h⟩
    rw [hany, if_neg (by decide), expandBraces_constant hw hs.ascii hvar]

/-- The shell gives all combinations, in one word. -/
theorem expands_word (hperm : ∀ expanders, e.permutator expanders = product expanders)
    (hw : w.Written) (hs : w.Sound e) (result : Option (Except ExpandErr (List Char))) :
    e.Expands (w.source Piece.source) result ↔ result = some (.ok (w.combinations (Piece.value e))) := by
  obtain ⟨tilde', hnext⟩ := next_word hw hs
  have hagain : Again e.round ([], WordIterator.new (w.source Piece.source))
      (w.combinations (Piece.value e), ⟨w.source Piece.source, (w.source Piece.source).length,
        wordFlags true ((w.flat .char).any Piece.isVariable) tilde' false⟩) := by
    rw [Again, Expanders.round, hnext]
    simp only [expandWord_brace hperm hw hs, List.nil_append]
  rw [Expanders.Expands, yields_iff_of_again hagain]
  apply yields_iff_of_end
  rw [Expanders.round, WordIterator.next, List.drop_length]
  simp [scan, collectAtEnd, WordFlags.fresh]

end Words

/-- Braces stand for the product of their alternatives, on both ways, and so do variables whose values
stay as they are. -/
theorem braces_denote_product (e : Expanders)
    (hperm : ∀ expanders, e.permutator expanders = product expanders) :
    (∀ w : Word Atom, w.Inert → w.AsciiGroups Atom.source →
      expandBraces e.permutator (w.source Atom.source) = some (w.combinations Atom.meaning)) ∧
    (∀ (elements : List (List Char)) (tokens : List BraceToken),
      tokens.count .Expander = 1 → elements ≠ [] →
        singleBraceExpand elements tokens = multipleBraceExpand e.permutator [elements] tokens) ∧
    ∀ w : Word Piece, w.Written → w.Sound e → ∀ result,
      e.Expands (w.source Piece.source) result ↔ result = some (.ok (w.combinations (Piece.value e))) := by
  have hpermutator : e.permutator = product := funext hperm
  refine ⟨?_, ?_, ?_⟩
  · intro w hw hascii
    rw [hpermutator]
    exact expandBraces_word hw hascii
  · intro elements tokens hcount hne
    rw [hpermutator]
    exact singleBraceExpand_eq hcount hne
  · intro w hw hs result
    exact expands_word hperm hw hs result

/-- One variable has this value. -/
def expandersOf (value : String) : Expanders :=
  ⟨fun _ => none, fun _ _ => some value.toList, fun _ _ => none, product⟩

/-- `1{$C,2}` -/
def variableInGroup : Word Piece :=
  ⟨[.char '1'], [⟨[.bare ⟨['C'], by decide, List.forall_mem_singleton.mpr (by decide)⟩], [[.char '2']], []⟩],
    by decide⟩

theorem braces_denote_product_escaped :
    expandBraces product "e\\\x7bsdf\x7b1\\\x7b2,34\x7d".toList = some "e\x7bsdf1\x7b2 e\x7bsdf34".toList ∧
      singleBraceExpand [['a'], ['b']] [.Expander] = multipleBraceExpand product [[['a'], ['b']]] [.Expander] ∧
      (expandersOf "x").Expands "1\x7b$C,2\x7d".toList (some (.ok "1x 12".toList)) :=
  ⟨(braces_denote_product (expandersOf "x") fun _ => rfl).1
      ⟨[.char 'e', .pair '{', .char 's', .char 'd', .char 'f'],
        [⟨[.char '1', .pair '{', .char '2'], [[.char '3', .char '4']], []⟩], by decide⟩
      (by decide) ⟨by decide, by decide⟩,
    (braces_denote_product (expandersOf "x") fun _ => rfl).2.1 _ _ (by decide) (by decide),
    ((braces_denote_product (expandersOf "x") fun _ => rfl).2.2 variableInGroup
      ⟨by decide, by decide⟩ ⟨by decide, by decide, fun _ => ⟨by decide, ⟨by decide, by decide⟩⟩⟩ _).mpr rfl⟩

/-- A comma in a value makes one more alternative. -/
theorem value_read_as_braces :
    ¬∀ (e : Expanders) (w : Word Piece), (∀ expanders, e.permutator expanders = product expanders) →
      w.Written → e.Expands (w.source Piece.source) (some (.ok (w.combinations (Piece.value e)))) := by
  intro h
  have hliteral := h (expandersOf "a,b") variableInGroup (fun _ => rfl) ⟨by decide, by decide⟩
  have hagain : Again (expandersOf "a,b").round
      ([], WordIterator.new (variableInGroup.source Piece.source))
      ("1a 1b 12".toList, ⟨"1\x7b$C,2\x7d".toList, 7, wordFlags true true false false⟩) := by
    rfl
  have hend : (expandersOf "a,b").round
      ("1a 1b 12".toList, ⟨"1\x7b$C,2\x7d".toList, 7, wordFlags true true false false⟩) =
        .inl (some (.ok "1a 1b 12".toList)) := by
    rfl
  rw [Expanders.Expands, yields_iff_of_again hagain, yields_iff_of_end hend] at hliteral
  exact absurd hliteral (by decide)

end Origel.Ion
