import Origel.Ion.Words

/-! Words with groups of alternatives, and the combinations that their braces stand for. -/
namespace Origel.Ion

/-- A character of a word: itself, or with a backslash before it -/
inductive Atom where
  | char (c : Char)
  | pair (c : Char)
  deriving DecidableEq, Repr

/-- The characters that a backslash takes their meaning from. -/
def special (c : Char) : Bool := c = '{' ∨ c = '}' ∨ c = ','

namespace Atom

def source : Atom → List Char
  | char c => [c]
  | pair c => ['\\', c]

/-- What a character stands for; a backslash before one that is not special stands for itself. -/
def meaning : Atom → List Char
  | char c => [c]
  | pair c => if special c then [c] else ['\\', c]

/-- The character does not act where it is, in a group or not. -/
def Inert (inside : Bool) : Atom → Prop
  | char c => c ≠ '\\' ∧ if inside then c ≠ ',' ∧ c ≠ '}' else c ≠ '{'
  | pair _ => True

instance (inside : Bool) (a : Atom) : Decidable (a.Inert inside) := by
  cases a <;> unfold Inert <;> infer_instance

end Atom

/-- A group of alternatives, and the text up to the next one -/
structure Part (α : Type) where
  first : List α
  others : List (List α)
  text : List α

/-- A word with a group at least -/
structure Word (α : Type) where
  lead : List α
  parts : List (Part α)
  nonempty : parts ≠ []

variable {α β : Type}

/-- All ways to take one of each list; those of the first list come in its order, each with all of
the others. -/
def product : List (List β) → List (List β)
  | [] => [[]]
  | as :: rest => as.flatMap fun a => (product rest).map (a :: ·)

/-- Texts joined by single blanks -/
def spaced : List (List Char) → List Char
  | [] => []
  | s :: rest => s ++ rest.flatMap (' ' :: ·)

namespace Part

def alternatives (p : Part α) : List (List α) := p.first :: p.others

/-- What stands in a group: its alternatives between commas -/
def body (source : α → List Char) (p : Part α) : List Char :=
  p.first.flatMap source ++ p.others.flatMap fun alternative => ',' :: alternative.flatMap source

def source (source : α → List Char) (p : Part α) : List Char :=
  '{' :: p.body source ++ '}' :: p.text.flatMap source

def bind (f : α → List β) (p : Part α) : Part β :=
  ⟨p.first.flatMap f, p.others.map (·.flatMap f), p.text.flatMap f⟩

/-- What holds of the characters in the group, and of those behind it -/
structure All (inside outside : α → Prop) (p : Part α) : Prop where
  alternatives : ∀ alternative ∈ p.alternatives, ∀ a ∈ alternative, inside a
  text : ∀ a ∈ p.text, outside a

end Part

instance {inside outside : α → Prop} [DecidablePred inside] [DecidablePred outside] (p : Part α) :
    Decidable (p.All inside outside) :=
  decidable_of_iff ((∀ alternative ∈ p.alternatives, ∀ a ∈ alternative, inside a) ∧
    ∀ a ∈ p.text, outside a) ⟨fun h => ⟨h.1, h.2⟩, fun h => ⟨h.alternatives, h.text⟩⟩

/-- The groups, and the text between them, are ASCII. -/
def AsciiParts (source : α → List Char) : List (Part α) → Prop
  | [] => True
  | [p] => Ascii (p.body source)
  | p :: q :: parts =>
    Ascii (p.body source) ∧ Ascii (p.text.flatMap source) ∧ AsciiParts source (q :: parts)

instance decidableAsciiParts (source : α → List Char) :
    (parts : List (Part α)) → Decidable (AsciiParts source parts)
  | [] => inferInstanceAs (Decidable True)
  | [p] => inferInstanceAs (Decidable (Ascii (p.body source)))
  | p :: q :: parts =>
    have := decidableAsciiParts source (q :: parts)
    inferInstanceAs (Decidable (_ ∧ _ ∧ _))

/-- A lead, and what has been chosen of each group with the text after it -/
def assemble (lead : List Char) (texts choice : List (List Char)) : List Char :=
  lead ++ (List.zipWith (· ++ ·) choice texts).flatten

namespace Word

def source (source : α → List Char) (w : Word α) : List Char :=
  w.lead.flatMap source ++ w.parts.flatMap (Part.source source)

/-- What a word stands for. -/
def combinations (meaning : α → List Char) (w : Word α) : List Char :=
  spaced ((product (w.parts.map fun p => p.alternatives.map (·.flatMap meaning))).map
    (assemble (w.lead.flatMap meaning) (w.parts.map (·.text.flatMap meaning))))

def bind (f : α → List β) (w : Word α) : Word β :=
  ⟨w.lead.flatMap f, w.parts.map (Part.bind f), by simpa using w.nonempty⟩

/-- What holds of the characters in the groups, and of all others -/
structure All (inside outside : α → Prop) (w : Word α) : Prop where
  lead : ∀ a ∈ w.lead, outside a
  parts : ∀ p ∈ w.parts, p.All inside outside

instance {inside outside : α → Prop} [DecidablePred inside] [DecidablePred outside] (w : Word α) :
    Decidable (w.All inside outside) :=
  decidable_of_iff ((∀ a ∈ w.lead, outside a) ∧ ∀ p ∈ w.parts, p.All inside outside)
    ⟨fun h => ⟨h.1, h.2⟩, fun h => ⟨h.lead, h.parts⟩⟩

/-- No character acts where it is. -/
abbrev Inert (w : Word Atom) : Prop := w.All (Atom.Inert true) (Atom.Inert false)

/-- The word is ASCII up to its last group. -/
structure AsciiGroups (source : α → List Char) (w : Word α) : Prop where
  lead : Ascii (w.lead.flatMap source)
  parts : AsciiParts source w.parts

end Word

/-- The characters of a word in turn, with those that make its groups -/
def Part.flat (char : Char → α) (p : Part α) : List α :=
  char '{' :: (p.first ++ p.others.flatMap (char ',' :: ·)) ++ char '}' :: p.text

def Word.flat (char : Char → α) (w : Word α) : List α := w.lead ++ w.parts.flatMap (Part.flat char)

theorem Part.flat_source {char : Char → α} {source : α → List Char} (h : ∀ c, source (char c) = [c])
    (p : Part α) : (p.flat char).flatMap source = p.source source := by
  simp [Part.flat, Part.source, Part.body, h, List.flatMap_assoc]

theorem Word.flat_source {char : Char → α} {source : α → List Char} (h : ∀ c, source (char c) = [c])
    (w : Word α) : (w.flat char).flatMap source = w.source source := by
  simp [Word.flat, Word.source, List.flatMap_assoc, Part.flat_source h]

theorem Part.bind_source {f : α → List β} {source : β → List Char} (p : Part α) :
    (p.bind f).source source = p.source fun a => (f a).flatMap source := by
  simp [Part.bind, Part.source, Part.body, List.flatMap_assoc, List.flatMap_map]

theorem Word.bind_source {f : α → List β} {source : β → List Char} (w : Word α) :
    (w.bind f).source source = w.source fun a => (f a).flatMap source := by
  simp [Word.bind, Word.source, List.flatMap_assoc, List.flatMap_map, Part.bind_source]

theorem Word.All.imp {inside outside inside' outside' : α → Prop} {w : Word α}
    (h : w.All inside outside) (hin : ∀ a, inside a → inside' a) (hout : ∀ a, outside a → outside' a) :
    w.All inside' outside' := by
  refine ⟨fun a ha => hout a (h.lead a ha), fun p hp => ⟨?_, ?_⟩⟩
  · intro alternative halternative a ha
    exact hin a ((h.parts p hp).alternatives alternative halternative a ha)
  · intro a ha
    exact hout a ((h.parts p hp).text a ha)

theorem Word.All.and {inside outside inside' outside' : α → Prop} {w : Word α}
    (h : w.All inside outside) (h' : w.All inside' outside') :
    w.All (fun a => inside a ∧ inside' a) fun a => outside a ∧ outside' a := by
  refine ⟨fun a ha => ⟨h.lead a ha, h'.lead a ha⟩, fun p hp => ⟨?_, ?_⟩⟩
  · intro alternative halternative a ha
    exact ⟨(h.parts p hp).alternatives alternative halternative a ha,
      (h'.parts p hp).alternatives alternative halternative a ha⟩
  · intro a ha
    exact ⟨(h.parts p hp).text a ha, (h'.parts p hp).text a ha⟩

theorem Word.All.of_flat {char : Char → α} {P : α → Prop} {w : Word α}
    (h : ∀ a ∈ w.flat char, P a) : w.All P P := by
  refine ⟨fun a ha => h a (List.mem_append_left _ ha), fun p hp => ⟨?_, ?_⟩⟩
  · intro alternative halternative a ha
    apply h a (List.mem_append_right _ (List.mem_flatMap.mpr ⟨p, hp, ?_⟩))
    rcases List.mem_cons.mp halternative with rfl | hmem
    · simp [Part.flat, ha]
    · simp only [Part.flat, List.mem_append, List.mem_cons, List.mem_flatMap]
      exact .inl (.inr (.inr ⟨alternative, hmem, .inr ha⟩))
  · intro a ha
    apply h a (List.mem_append_right _ (List.mem_flatMap.mpr ⟨p, hp, ?_⟩))
    simp [Part.flat, ha]

theorem Word.All.flat {char : Char → α} {P : α → Prop} {w : Word α} (h : w.All P P)
    (hchar : ∀ c, special c → P (char c)) : ∀ a ∈ w.flat char, P a := by
  intro a ha
  rcases List.mem_append.mp ha with ha | ha
  · exact h.lead a ha
  · obtain ⟨p, hp, ha⟩ := List.mem_flatMap.mp ha
    have hall := h.parts p hp
    simp only [Part.flat, List.mem_append, List.mem_cons, List.mem_flatMap] at ha
    rcases ha with (rfl | ha | ⟨alternative, hmem, rfl | ha⟩) | rfl | ha
    · exact hchar '{' rfl
    · exact hall.alternatives p.first List.mem_cons_self a ha
    · exact hchar ',' rfl
    · exact hall.alternatives alternative (List.mem_cons_of_mem _ hmem) a ha
    · exact hchar '}' rfl
    · exact hall.text a ha

theorem Word.All.bind {inside outside : β → Prop} {f : α → List β} {w : Word α}
    (h : w.All (fun a => ∀ b ∈ f a, inside b) fun a => ∀ b ∈ f a, outside b) :
    (w.bind f).All inside outside := by
  refine ⟨?_, ?_⟩
  · intro b hb
    obtain ⟨a, ha, hb⟩ := List.mem_flatMap.mp hb
    exact h.lead a ha b hb
  · intro q hq
    obtain ⟨p, hp, rfl⟩ := List.mem_map.mp hq
    refine ⟨?_, ?_⟩
    · intro alternative halternative b hb
      obtain ⟨as, has, rfl⟩ : ∃ as ∈ p.alternatives, as.flatMap f = alternative := by
        simpa [Part.bind, Part.alternatives, eq_comm] using halternative
      obtain ⟨a, ha, hb⟩ := List.mem_flatMap.mp hb
      exact (h.parts p hp).alternatives as has a ha b hb
    · intro b hb
      obtain ⟨a, ha, hb⟩ := List.mem_flatMap.mp hb
      exact (h.parts p hp).text a ha b hb

theorem Word.All.combinations {f g : α → List Char} {w : Word α}
    (h : w.All (fun a => f a = g a) fun a => f a = g a) : w.combinations f = w.combinations g := by
  have htexts : w.parts.map (·.text.flatMap f) = w.parts.map (·.text.flatMap g) :=
    List.map_congr_left fun p hp => List.flatMap_congr (h.parts p hp).text
  have halternatives : (w.parts.map fun p => p.alternatives.map (·.flatMap f)) =
      w.parts.map fun p => p.alternatives.map (·.flatMap g) :=
    List.map_congr_left fun p hp =>
      List.map_congr_left fun as has => List.flatMap_congr ((h.parts p hp).alternatives as has)
  rw [Word.combinations, Word.combinations, htexts, halternatives, List.flatMap_congr h.lead]

theorem Word.bind_combinations {f : α → List β} {meaning : β → List Char} (w : Word α) :
    (w.bind f).combinations meaning = w.combinations fun a => (f a).flatMap meaning := by
  simp [Word.bind, Word.combinations, Part.bind, Part.alternatives, List.flatMap_assoc,
    Function.comp_def]

theorem Part.bind_body {f : α → List β} {source : β → List Char} (p : Part α) :
    (p.bind f).body source = p.body fun a => (f a).flatMap source := by
  simp [Part.bind, Part.body, List.flatMap_assoc, List.flatMap_map]

theorem AsciiParts.bind {f : α → List β} {source : β → List Char} {parts : List (Part α)}
    (h : AsciiParts (fun a => (f a).flatMap source) parts) :
    AsciiParts source (parts.map (Part.bind f)) := by
  induction parts with
  | nil => trivial
  | cons p parts ih =>
    cases parts with
    | nil =>
      rw [List.map_singleton, AsciiParts, Part.bind_body]
      exact h
    | cons q parts =>
      obtain ⟨hbody, htext, hrest⟩ := h
      refine ⟨?_, ?_, ih hrest⟩
      · rw [Part.bind_body]
        exact hbody
      · rw [Part.bind, List.flatMap_assoc]
        exact htext

theorem Word.AsciiGroups.bind {f : α → List β} {source : β → List Char} {w : Word α}
    (h : w.AsciiGroups fun a => (f a).flatMap source) : (w.bind f).AsciiGroups source := by
  refine ⟨?_, h.parts.bind⟩
  rw [Word.bind, List.flatMap_assoc]
  exact h.lead

theorem AsciiParts.of_ascii {source : α → List Char} {parts : List (Part α)}
    (h : Ascii (parts.flatMap (Part.source source))) : AsciiParts source parts := by
  induction parts with
  | nil => trivial
  | cons p parts ih =>
    rw [List.flatMap_cons, ascii_append, Part.source, ascii_append, ascii_cons, ascii_cons] at h
    obtain ⟨⟨⟨-, hbody⟩, -, htext⟩, hrest⟩ := h
    cases parts with
    | nil => exact hbody
    | cons q parts => exact ⟨hbody, htext, ih hrest⟩

theorem Word.AsciiGroups.of_ascii {source : α → List Char} {w : Word α} (h : Ascii (w.source source)) :
    w.AsciiGroups source := by
  rw [Word.source, ascii_append] at h
  exact ⟨h.1, .of_ascii h.2⟩

namespace Braces

variable {input pre text rest : List Char} {b : Braces} {id : Nat} {a : Atom} {as : List Atom}

/-- Characters that do not act are read on. -/
theorem scan_atom (h : a.Inert b.expanderFound) (hb : b.backslash = false) :
    b.scan input (a.source ++ rest) id = b.scan input rest (id + a.source.length) := by
  cases a with
  | pair c =>
    simp only [Atom.source, List.cons_append, List.nil_append, scan, step, hb, Bool.false_eq_true,
      if_false, if_true, Option.bind_some, List.length_cons, List.length_nil]
    rw [← hb]
  | char c =>
    obtain ⟨hback, hact⟩ := h
    simp only [Atom.source, List.cons_append, List.nil_append, scan, List.length_singleton]
    unfold step
    rw [hb, if_neg (by simp), if_neg hback]
    cases hfound : b.expanderFound with
    | true =>
      rw [hfound, if_pos rfl] at hact
      rw [if_pos rfl, if_neg hact.2, if_neg hact.1, Option.bind_some]
    | false =>
      rw [hfound, if_neg (by simp)] at hact
      rw [if_neg (by simp), if_neg hact, Option.bind_some]

theorem scan_atoms (h : ∀ a ∈ as, a.Inert b.expanderFound) (hb : b.backslash = false) :
    b.scan input (as.flatMap Atom.source ++ rest) id =
      b.scan input rest (id + (as.flatMap Atom.source).length) := by
  induction as generalizing id with
  | nil => rfl
  | cons a as ih =>
    rw [List.flatMap_cons, List.append_assoc, scan_atom (h a List.mem_cons_self) hb,
      ih fun a ha => h a (List.mem_cons_of_mem _ ha), List.length_append, Nat.add_assoc]

/-- The text of a token, which is left out where it is empty. -/
def normal (text : List Char) : List BraceToken := if text = [] then [] else [.Normal text]

/-- What the lexer makes of a group and the text after it. -/
def tokensOf (parts : List (Part Atom)) : List BraceToken :=
  parts.flatMap fun p => .Expander :: normal (p.text.flatMap Atom.source)

/-- The elements of the groups -/
def elementsOf (parts : List (Part Atom)) : List (List (List Char)) :=
  parts.map fun p => p.alternatives.map (·.flatMap Atom.source)

/-- The tokens that the end of the word leaves. -/
def closed (input : List Char) (b : Braces) : Option (List BraceToken) :=
  if b.start ≠ bytes input then do
    let text ← sliceFrom input b.start
    some (b.tokens ++ [.Normal text])
  else some b.tokens

variable {tokens : List BraceToken} {expanders : List (List (List Char))}
  {current : List (List Char)} {first lead : List Atom} {others : List (List Atom)}
  {parts : List (Part Atom)}

theorem step_close {start : Nat} (hslice : slice input start id = some text) :
    step input ⟨tokens, expanders, current, start, true, false⟩ id '}' =
      some ⟨tokens ++ [.Expander], expanders ++ [current ++ [text]], [], id + 1, false, false⟩ := by
  simp [step, hslice]

theorem step_comma {start : Nat} (hslice : slice input start id = some text) :
    step input ⟨tokens, expanders, current, start, true, false⟩ id ',' =
      some ⟨tokens, expanders, current ++ [text], id + 1, true, false⟩ := by
  simp [step, hslice]

theorem step_open {start : Nat} (hslice : slice input start id = some text)
    (hid : id = start + text.length) :
    step input ⟨tokens, expanders, current, start, false, false⟩ id '{' =
      some ⟨tokens ++ normal text, expanders, current, id + 1, true, false⟩ := by
  by_cases htext : text = []
  · subst htext
    simp [step, normal, hid]
  · have hpos := List.length_pos_iff.mpr htext
    have hne : id ≠ start := by omega
    simp [step, normal, htext, hslice, hne]

/-- A group is read up to its end, by induction on the alternatives that are left. -/
theorem scan_alternatives {stop : Nat} (hfirst : ∀ a ∈ first, a.Inert true)
    (hothers : ∀ alternative ∈ others, ∀ a ∈ alternative, a.Inert true)
    (hascii : Ascii (pre ++ (Part.mk first others []).body Atom.source))
    (hinput : input = pre ++ (Part.mk first others []).body Atom.source ++ '}' :: rest)
    (hid : id = pre.length)
    (hstop : stop = pre.length + ((Part.mk first others []).body Atom.source).length + 1) :
    scan input ⟨tokens, expanders, current, id, true, false⟩
        ((Part.mk first others []).body Atom.source ++ '}' :: rest) id =
      scan input ⟨tokens ++ [.Expander],
          expanders ++ [current ++ (first :: others).map (·.flatMap Atom.source)], [],
          stop, false, false⟩ rest stop := by
  induction others generalizing pre first current id with
  | nil =>
    simp only [Part.body, List.flatMap_nil, List.append_nil] at hascii hinput hstop ⊢
    have hslice : slice input id (id + (first.flatMap Atom.source).length) =
        some (first.flatMap Atom.source) := by
      rw [hinput, hid]
      exact slice_ascii (ascii_append.mp hascii).1 (ascii_append.mp hascii).2 _ rfl rfl
    rw [scan_atoms hfirst rfl, scan, step_close hslice, Option.bind_some, hstop, hid]
    rfl
  | cons next others ih =>
    have hbody : (Part.mk first (next :: others) ([] : List Atom)).body Atom.source =
        first.flatMap Atom.source ++ ',' :: (Part.mk next others []).body Atom.source := by
      simp [Part.body]
    have hpre : pre ++ (first.flatMap Atom.source ++ ',' :: (Part.mk next others []).body Atom.source) =
        pre ++ first.flatMap Atom.source ++ [','] ++ (Part.mk next others []).body Atom.source := by
      simp
    rw [hbody, hpre] at hascii hinput
    rw [hbody] at hstop ⊢
    have hslice : slice input id (id + (first.flatMap Atom.source).length) =
        some (first.flatMap Atom.source) := by
      have hleft := ascii_append.mp (ascii_append.mp (ascii_append.mp hascii).1).1
      rw [hinput, hid, List.append_assoc, List.append_assoc]
      exact slice_ascii hleft.1 hleft.2 _ rfl rfl
    rw [List.append_assoc, scan_atoms hfirst rfl, List.cons_append, scan, step_comma hslice,
      Option.bind_some,
      ih (hothers next List.mem_cons_self)
        (fun alternative h => hothers alternative (List.mem_cons_of_mem next h)) hascii hinput
        (by simp only [List.length_append, List.length_singleton, hid])
        (by simp only [List.length_append, List.length_cons, List.length_nil] at hstop ⊢; omega)]
    simp

theorem scan_group {p : Part Atom} {stop : Nat}
    (hp : ∀ alternative ∈ p.alternatives, ∀ a ∈ alternative, a.Inert true)
    (hascii : Ascii (pre ++ p.body Atom.source))
    (hinput : input = pre ++ p.body Atom.source ++ '}' :: rest) (hid : id = pre.length)
    (hstop : stop = pre.length + (p.body Atom.source).length + 1) :
    scan input ⟨tokens, expanders, [], id, true, false⟩ (p.body Atom.source ++ '}' :: rest) id =
      scan input ⟨tokens ++ [.Expander],
          expanders ++ [p.alternatives.map (·.flatMap Atom.source)], [], stop, false, false⟩
        rest stop :=
  scan_alternatives (hp p.first List.mem_cons_self)
    (fun alternative h => hp alternative (List.mem_cons_of_mem _ h)) hascii hinput hid hstop

/-- The groups that are left are read, and the text that is pending before them. -/
theorem scan_parts (hlead : ∀ a ∈ lead, a.Inert false) (hparts : ∀ p ∈ parts, p.All (Atom.Inert true) (Atom.Inert false))
    (hpre : Ascii pre) (hpending : parts ≠ [] → Ascii (lead.flatMap Atom.source))
    (hascii : AsciiParts Atom.source parts)
    (hinput : input = pre ++ lead.flatMap Atom.source ++ parts.flatMap (Part.source Atom.source))
    (hid : id = pre.length) :
    ∃ b, scan input ⟨tokens, expanders, [], id, false, false⟩
        (lead.flatMap Atom.source ++ parts.flatMap (Part.source Atom.source)) id = some b ∧
      b.expanders = expanders ++ elementsOf parts ∧
      b.closed input = some (tokens ++ normal (lead.flatMap Atom.source) ++ tokensOf parts) := by
  induction parts generalizing pre lead tokens expanders id with
  | nil =>
    rw [scan_atoms hlead rfl]
    refine ⟨_, rfl, (List.append_nil _).symm, ?_⟩
    rw [List.flatMap_nil, List.append_nil] at hinput
    rw [closed, hinput, bytes_append, hid, hpre.bytes_eq, sliceFrom_ascii hpre _ rfl]
    by_cases hempty : lead.flatMap Atom.source = []
    · rw [hempty, if_neg (by simp)]
      simp [normal, tokensOf]
    · have hne : bytes (lead.flatMap Atom.source) ≠ 0 := by
        obtain ⟨c, s, hs⟩ := List.exists_cons_of_ne_nil hempty
        have hpos := c.utf8Size_pos
        rw [hs, bytes_cons]
        omega
      rw [if_pos (show pre.length ≠ pre.length + bytes (lead.flatMap Atom.source) by omega)]
      simp [normal, tokensOf, hempty]
  | cons p parts ih =>
    have hlead' := hpending (List.cons_ne_nil p parts)
    obtain ⟨hbody, htext, hlater⟩ : Ascii (p.body Atom.source) ∧
        (parts ≠ [] → Ascii (p.text.flatMap Atom.source)) ∧ AsciiParts Atom.source parts := by
      cases parts with
      | nil => exact ⟨hascii, fun h => absurd rfl h, trivial⟩
      | cons q parts => exact ⟨hascii.1, fun _ => hascii.2.1, hascii.2.2⟩
    obtain ⟨halternatives, htexts⟩ := hparts p List.mem_cons_self
    have hsource : (p :: parts).flatMap (Part.source Atom.source) =
        '{' :: (p.body Atom.source ++ '}' ::
          (p.text.flatMap Atom.source ++ parts.flatMap (Part.source Atom.source))) := by
      simp [Part.source]
    rw [hsource] at hinput ⊢
    have hslice : slice input id (id + (lead.flatMap Atom.source).length) =
        some (lead.flatMap Atom.source) := by
      rw [hinput, hid]
      exact slice_ascii hpre hlead' _ rfl rfl
    have hopened : Ascii (pre ++ lead.flatMap Atom.source ++ ['{'] ++ p.body Atom.source) :=
      ascii_append.mpr ⟨ascii_append.mpr ⟨ascii_append.mpr ⟨hpre, hlead'⟩, by decide⟩, hbody⟩
    have hclosed := ascii_append.mpr ⟨hopened, show Ascii ['}'] by decide⟩
    have hlength : (pre ++ lead.flatMap Atom.source ++ ['{'] ++ p.body Atom.source ++ ['}']).length =
        (pre ++ lead.flatMap Atom.source ++ ['{']).length + (p.body Atom.source).length + 1 := by
      simp only [List.length_append, List.length_singleton]
    rw [scan_atoms hlead rfl, scan, step_open hslice rfl, Option.bind_some,
      scan_group halternatives hopened (by rw [hinput]; simp)
        (by simp only [List.length_append, List.length_singleton, hid]) hlength]
    obtain ⟨b, hscan, hexpanders, htokens⟩ :=
      @ih _ _ (tokens ++ normal (lead.flatMap Atom.source) ++ [.Expander])
        (expanders ++ [p.alternatives.map (·.flatMap Atom.source)]) _ htexts
        (fun q h => hparts q (List.mem_cons_of_mem p h)) hclosed htext hlater
        (by rw [hinput]; simp) rfl
    refine ⟨b, hscan, ?_, ?_⟩
    · rw [hexpanders, List.append_assoc]
      rfl
    · rw [htokens]
      simp [tokensOf]

end Braces

open Braces

variable {lead : List Char} {texts choice elements : List (List Char)} {tokens : List BraceToken}
  {as : List Atom} {parts : List (Part Atom)}

/-- A text loses the backslashes before its special characters. -/
theorem escapeString_atoms {inside : Bool} (h : ∀ a ∈ as, a.Inert inside) :
    escapeString false (as.flatMap Atom.source) = as.flatMap Atom.meaning := by
  induction as with
  | nil => rfl
  | cons a as ih =>
    have hrest := ih fun a ha => h a (List.mem_cons_of_mem _ ha)
    rw [List.flatMap_cons, List.flatMap_cons, ← hrest]
    cases a with
    | char c => simp [Atom.source, Atom.meaning, escapeString, (h _ List.mem_cons_self).1]
    | pair c => simp [Atom.source, Atom.meaning, escapeString, special]

theorem fill_normal (text : List Char) :
    fill (normal text ++ tokens) choice = (fill tokens choice).map (escapeString false text ++ ·) := by
  unfold normal
  split
  · rename_i htext
    rw [htext, List.nil_append]
    exact Option.map_id'.symm
  · rfl

/-- Every group takes its element of a choice; what is over is not looked at. -/
theorem fill_tokensOf (h : parts.length ≤ choice.length) :
    fill (tokensOf parts) choice = some (assemble []
      (parts.map fun p => escapeString false (p.text.flatMap Atom.source))
      (choice.map (escapeString false))) := by
  induction parts generalizing choice with
  | nil => simp [tokensOf, fill, assemble]
  | cons p parts ih =>
    obtain ⟨element, choice, rfl⟩ := List.exists_cons_of_length_pos (Nat.lt_of_lt_of_le (by simp) h)
    have hrest := ih (Nat.le_of_succ_le_succ h)
    have htokens : tokensOf (p :: parts) =
        .Expander :: (normal (p.text.flatMap Atom.source) ++ tokensOf parts) := rfl
    rw [htokens, fill, fill_normal, hrest]
    simp [assemble]

theorem length_of_mem_product {l : List (List β)} {choice : List β} (h : choice ∈ product l) :
    choice.length = l.length := by
  induction l generalizing choice with
  | nil =>
    rw [List.mem_singleton.mp h]
    rfl
  | cons as l ih =>
    obtain ⟨a, -, hmem⟩ := List.mem_flatMap.mp h
    obtain ⟨rest, hrest, rfl⟩ := List.mem_map.mp hmem
    rw [List.length_cons, List.length_cons, ih hrest]

theorem product_ne_nil {l : List (List β)} (h : ∀ as ∈ l, as ≠ []) : product l ≠ [] := by
  induction l with
  | nil => exact List.cons_ne_nil _ _
  | cons as l ih =>
    obtain ⟨a, rest, rfl⟩ := List.exists_cons_of_ne_nil (h as List.mem_cons_self)
    have hne := ih fun bs hbs => h bs (List.mem_cons_of_mem _ hbs)
    simp [product, hne]

theorem product_map (f : α → β) (l : List (List α)) :
    product (l.map (List.map f)) = (product l).map (List.map f) := by
  induction l with
  | nil => rfl
  | cons as l ih => simp [product, ih, List.flatMap_map, List.map_flatMap, Function.comp_def]

/-- The texts that the permutations fill. -/
theorem fillRest_eq {f : List (List Char) → List Char} {permutations : List (List (List Char))}
    (h : ∀ permutation ∈ permutations, fill tokens permutation = some (f permutation)) :
    fillRest tokens permutations = some (permutations.flatMap fun permutation => ' ' :: f permutation) := by
  induction permutations with
  | nil => rfl
  | cons permutation permutations ih =>
    rw [fillRest, h permutation List.mem_cons_self,
      ih fun other hother => h other (List.mem_cons_of_mem _ hother)]
    rfl

theorem multipleBraceExpand_eq {f : List (List Char) → List Char} {expanders : List (List (List Char))}
    (hne : product expanders ≠ [])
    (h : ∀ permutation ∈ product expanders, fill tokens permutation = some (f permutation)) :
    multipleBraceExpand product expanders tokens = some (spaced ((product expanders).map f)) := by
  unfold multipleBraceExpand
  cases hp : product expanders with
  | nil => exact absurd hp hne
  | cons permutation permutations =>
    rw [hp] at h
    have hrest := fillRest_eq fun other hother => h other (List.mem_cons_of_mem _ hother)
    simp [h permutation List.mem_cons_self, hrest, spaced, List.flatMap_map]

theorem fill_const (h : tokens.count .Expander = 0) (element : List Char) :
    fill tokens choice = some (fillWith tokens element) := by
  induction tokens with
  | nil => rfl
  | cons token tokens ih =>
    cases token with
    | Normal text =>
      rw [fill, ih (by simpa using h)]
      rfl
    | Expander => simp at h

theorem fill_single {element : List Char} (h : tokens.count .Expander = 1) :
    fill tokens (element :: elements) = some (fillWith tokens element) := by
  induction tokens with
  | nil => cases h
  | cons token tokens ih =>
    cases token with
    | Normal text =>
      rw [fill, ih (by simpa using h)]
      rfl
    | Expander =>
      rw [fill, fill_const (by simpa using h)]
      rfl

/-- One group gives the same, whichever of the two functions expands it. -/
theorem singleBraceExpand_eq (h : tokens.count .Expander = 1) (hne : elements ≠ []) :
    singleBraceExpand elements tokens = multipleBraceExpand product [elements] tokens := by
  obtain ⟨element, elements, rfl⟩ := List.exists_cons_of_ne_nil hne
  have hproduct : product [element :: elements] = (element :: elements).map ([·]) := by
    rw [List.map_eq_flatMap]
    rfl
  have hfill : ∀ permutation ∈ product [element :: elements],
      fill tokens permutation = some (fillWith tokens permutation.flatten) := by
    intro permutation hmem
    rw [hproduct] at hmem
    obtain ⟨a, -, rfl⟩ := List.mem_map.mp hmem
    rw [fill_single h, List.flatten_singleton]
  rw [multipleBraceExpand_eq (by simp [hproduct]) hfill, singleBraceExpand, fill_single h, h, hproduct]
  simp [spaced, List.flatMap_map]

theorem count_normal (text : List Char) : (normal text).count .Expander = 0 := by
  unfold normal
  split
  · rfl
  · rfl

theorem count_tokensOf (parts : List (Part Atom)) :
    (tokensOf parts).count .Expander = parts.length := by
  induction parts with
  | nil => rfl
  | cons p parts ih =>
    have htokens : tokensOf (p :: parts) =
        .Expander :: (normal (p.text.flatMap Atom.source) ++ tokensOf parts) := rfl
    rw [htokens, List.count_cons_self, List.count_append, count_normal, ih, Nat.zero_add,
      List.length_cons]

variable {w : Word Atom}

/-- The tokens of a word, with the elements of a choice -/
theorem fill_word (hw : w.Inert) (hchoice : w.parts.length ≤ choice.length) :
    fill (normal (w.lead.flatMap Atom.source) ++ tokensOf w.parts) choice =
      some (assemble (w.lead.flatMap Atom.meaning) (w.parts.map (·.text.flatMap Atom.meaning))
        (choice.map (escapeString false))) := by
  have htexts : w.parts.map (fun p => escapeString false (p.text.flatMap Atom.source)) =
      w.parts.map (·.text.flatMap Atom.meaning) := by
    apply List.map_congr_left
    intro p hp
    exact escapeString_atoms (hw.parts p hp).text
  rw [fill_normal, fill_tokensOf hchoice, htexts, escapeString_atoms hw.lead]
  rfl

theorem elementsOf_ne_nil : ∀ elements ∈ elementsOf parts, elements ≠ [] := by
  intro elements hmem
  obtain ⟨p, -, rfl⟩ := List.mem_map.mp hmem
  exact List.cons_ne_nil _ _

theorem multipleBraceExpand_word (hw : w.Inert) :
    multipleBraceExpand product (elementsOf w.parts)
        (normal (w.lead.flatMap Atom.source) ++ tokensOf w.parts) =
      some (w.combinations Atom.meaning) := by
  have helements : (elementsOf w.parts).map (List.map (escapeString false)) =
      w.parts.map fun p => p.alternatives.map (·.flatMap Atom.meaning) := by
    rw [elementsOf, List.map_map]
    apply List.map_congr_left
    intro p hp
    rw [Function.comp_apply, List.map_map]
    apply List.map_congr_left
    intro alternative halternative
    exact escapeString_atoms ((hw.parts p hp).alternatives alternative halternative)
  have hfill : ∀ permutation ∈ product (elementsOf w.parts),
      fill (normal (w.lead.flatMap Atom.source) ++ tokensOf w.parts) permutation =
        some (assemble (w.lead.flatMap Atom.meaning) (w.parts.map (·.text.flatMap Atom.meaning))
          (permutation.map (escapeString false))) := by
    intro permutation hmem
    apply fill_word hw
    rw [length_of_mem_product hmem]
    exact Nat.le_of_eq (List.length_map _).symm
  rw [multipleBraceExpand_eq (product_ne_nil elementsOf_ne_nil) hfill, Word.combinations, ← helements,
    product_map, List.map_map]
  rfl

/-- The tokens are known when the loop and the end of the word have given them. -/
theorem expandBraces_of_closed {permutator : List (List (List Char)) → List (List (List Char))}
    {input : List Char} {b : Braces} (hscan : Braces.new.scan input input 0 = some b)
    (htokens : b.closed input = some tokens) :
    (1 < b.expanders.length →
      expandBraces permutator input = multipleBraceExpand permutator b.expanders tokens) ∧
    ∀ elements, b.expanders = [elements] →
      expandBraces permutator input = singleBraceExpand elements tokens := by
  unfold closed at htokens
  rw [expandBraces, hscan]
  by_cases hstart : b.start = bytes input
  · obtain rfl : b.tokens = tokens := by simpa [hstart] using htokens
    exact ⟨fun hmany => by simp [hstart, hmany], fun elements hone => by simp [hstart, hone]⟩
  · cases hslice : sliceFrom input b.start with
    | none => simp [hstart, hslice] at htokens
    | some text =>
      obtain rfl : b.tokens ++ [.Normal text] = tokens := by simpa [hstart, hslice] using htokens
      exact ⟨fun hmany => by simp [hstart, hslice, hmany], fun elements hone => by simp [hstart, hslice, hone]⟩

/-- A word gives all its combinations. -/
theorem expandBraces_word (hw : w.Inert) (hascii : w.AsciiGroups Atom.source) :
    expandBraces product (w.source Atom.source) = some (w.combinations Atom.meaning) := by
  obtain ⟨b, hscan, hexpanders, htokens⟩ := @scan_parts (w.source Atom.source) [] 0 [] [] w.lead
    w.parts hw.lead hw.parts (fun _ h => nomatch h) (fun _ => hascii.lead) hascii.parts rfl rfl
  rw [List.nil_append] at hexpanders htokens
  obtain ⟨hmany, hone⟩ := expandBraces_of_closed hscan htokens
  rw [hexpanders] at hmany hone
  by_cases hlen : 1 < (elementsOf w.parts).length
  · exact (hmany hlen).trans (multipleBraceExpand_word hw)
  · obtain ⟨p, hp⟩ : ∃ p, w.parts = [p] := by
      apply List.length_eq_one_iff.mp
      have hpos := List.length_pos_iff.mpr w.nonempty
      rw [elementsOf, List.length_map] at hlen
      omega
    have helements : elementsOf w.parts = [p.alternatives.map (·.flatMap Atom.source)] := by
      rw [hp]
      rfl
    have hcount : (normal (w.lead.flatMap Atom.source) ++ tokensOf w.parts).count .Expander = 1 := by
      rw [List.count_append, count_normal, count_tokensOf, hp]
      rfl
    have hsingle := singleBraceExpand_eq hcount
      (show p.alternatives.map (·.flatMap Atom.source) ≠ [] from List.cons_ne_nil _ _)
    rw [hone _ helements, hsingle, ← helements]
    exact multipleBraceExpand_word hw

end Origel.Ion
