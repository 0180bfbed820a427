import Origel.Coreutils.Selecting
import Origel.Coreutils.Spellings
import Origel.Coreutils.Tail

/-! What the manual of `tail` says of its options, and for which of them and of its inputs it is so. -/
namespace Origel.Coreutils.Tail

open Origel.Lib
open Origel.RedoxFs (fromUtf8 fromUtf8_eq_some utf8)

/-- The names of the options -/
inductive Name where
  | n
  | lines
  | c
  | bytes

def Name.text : Name → List Char
  | n => ['-', 'n']
  | lines => '-' :: '-' :: "lines".toList
  | c => ['-', 'c']
  | bytes => '-' :: '-' :: "bytes".toList

def Name.ofLines : Name → Bool
  | n | lines => true
  | c | bytes => false

/-- An option with its number -/
structure Choice where
  name : Name
  plus : Bool
  number : Numeral

def Choice.text (choice : Choice) : List Char :=
  if choice.plus then '+' :: choice.number.digits else choice.number.digits

/-- The arguments: at most one option among the files -/
def arguments (before : List (List Char)) (choice : Option Choice) (after : List (List Char)) :
    List (List Char) :=
  before ++ (choice.elim [] fun choice => [choice.name.text, choice.text]) ++ after

/-- The lines of an input without their ends -/
def lineTexts (input : List UInt8) : List (List UInt8) :=
  fullLines 0x0a input ++ if lastPart 0x0a input = [] then [] else [lastPart 0x0a input]

/-- All but the first ones, or the last ones -/
def select {α : Type*} (skip : Bool) (num : Nat) (items : List α) : List α :=
  if skip then items.drop num else items.drop (items.length - num)

/-- What the manual says of one input: its lines, each with an end, or its bytes -/
def part (ofLines skip : Bool) (num : Nat) (input : List UInt8) : List UInt8 :=
  if ofLines then (select skip num (lineTexts input)).flatMap (· ++ [0x0a]) else select skip num input

/-- What is asked for of each input: without an option the last ten lines -/
def asked (choice : Option Choice) : List UInt8 → List UInt8 :=
  choice.elim (part true false 10) fun choice => part choice.name.ofLines choice.plus choice.number.value

/-- Whether lines end with a carriage return in front of their ends -/
def returns (input : List UInt8) : List Bool :=
  (fullLines 0x0a input).map (fun line => decide (line.getLast? = some 0x0d)) ++
    if lastPart 0x0a input = [] then [] else [false]

/-- An input without carriage returns at the ends of its lines -/
def dropReturns (input : List UInt8) : List UInt8 :=
  joinLines 0x0a ((fullLines 0x0a input).map chomp) (lastPart 0x0a input)

/-- The inputs that are named -/
def Inputs.named (inputs : Inputs) (paths : List (List Char)) : List (List UInt8) :=
  if paths = [] then [inputs.stdin] else paths.filterMap inputs.files

def Inputs.Valid (inputs : Inputs) : Prop :=
  (fromUtf8 inputs.stdin).isSome ∧ ∀ path file, inputs.files path = some file → (fromUtf8 file).isSome

/-- Where the program prints what is asked for: without an option only where there is nothing to print; with
`-n` where the number fits and no line that is printed ends with a carriage return; with `--lines`, whose
number is taken for a file, where the last ten lines of the files happen to be the same; and else never -/
def Prints (writeln : List UInt8 → List UInt8) (inputs : Inputs) (before after : List (List Char)) :
    Option Choice → Prop
  | none => ∀ input ∈ inputs.named (before ++ after), input = []
  | some ⟨.n, plus, number⟩ => number.value < 2 ^ 64 ∧
    ∀ input ∈ inputs.named (before ++ after), true ∉ select plus number.value (returns input)
  | some ⟨.lines, plus, number⟩ =>
    printEach writeln inputs (fun input => some (part true false 10 (dropReturns input)))
        (before ++ Choice.text ⟨.lines, plus, number⟩ :: after) =
      printEach writeln inputs (fun input => some (part true plus number.value input)) (before ++ after)
  | some ⟨.c, _, _⟩ | some ⟨.bytes, _, _⟩ => False

section Window

variable {α : Type*} {num : Nat} {items : List α}

/-- The deque has the last items of those that were read. -/
theorem window_eq (num : Nat) (items : List α) : window num items = select false num items := by
  induction items using List.reverseRecOn with
  | nil => exact List.drop_nil.symm
  | append_singleton items item ih =>
    have hstep : window num (items ++ [item]) =
        if (window num items ++ [item]).length > num then (window num items ++ [item]).tail
        else window num items ++ [item] := List.foldl_concat _ _ _ _
    have hdrop : window num items ++ [item] = (items ++ [item]).drop (items.length - num) := by
      rw [ih]
      exact (List.drop_append_of_le_length (Nat.sub_le _ _)).symm
    rw [hstep, hdrop, List.tail_drop, List.length_drop, List.length_append, List.length_singleton]
    show _ = (items ++ [item]).drop ((items ++ [item]).length - num)
    rw [List.length_append, List.length_singleton]
    split <;>
    · congr 1
      omega

end Window

section Valid

variable {input : List UInt8}

theorem utf8_cons (c : Char) (cs : List Char) :
    utf8 (String.ofList (c :: cs)) = String.utf8EncodeChar c ++ utf8 (String.ofList cs) := by
  simp [utf8, List.utf8Encode]

theorem ofNat_ne_newline {n : Nat} (h : n % 256 ≠ 10) : (0x0a : UInt8) ≠ UInt8.ofNat n := by
  intro heq
  have hnat := congrArg UInt8.toNat heq
  rw [UInt8.toNat_ofNat'] at hnat
  exact h hnat.symm

/-- The byte of a newline is in no other character. -/
theorem newline_not_mem {c : Char} (hc : c ≠ '\n') : (0x0a : UInt8) ∉ String.utf8EncodeChar c := by
  have hval : c.val.toNat ≠ 10 := fun h => hc (Char.ext (UInt32.toNat_inj.mp h))
  unfold String.utf8EncodeChar
  dsimp only
  split_ifs
  all_goals
    simp only [List.mem_cons, List.not_mem_nil, or_false, not_or]
    repeat' apply And.intro
    all_goals
      apply ofNat_ne_newline
      omega

/-- The lines of a text are texts. -/
theorem segments_utf8 (cs : List Char) : segments 0x0a (utf8 (String.ofList cs)) =
    (segments '\n' cs).map fun line => utf8 (String.ofList line) := by
  induction cs with
  | nil => rfl
  | cons c cs ih =>
    rw [utf8_cons]
    by_cases hc : c = '\n'
    · subst hc
      have hbyte : String.utf8EncodeChar '\n' = [0x0a] := by decide
      rw [hbyte, List.singleton_append, segments_cons_sep, segments_cons_sep, ih]
      rfl
    · obtain ⟨line, lines, hlines⟩ := segments_exists '\n' cs
      rw [hlines] at ih
      rw [segments_append (newline_not_mem hc) ih, segments_cons hc hlines, List.map_cons, utf8_cons]

theorem checkUtf8_line (hvalid : (fromUtf8 input).isSome) {line : List UInt8}
    (hline : line ∈ segments 0x0a input) : checkUtf8 line = some line := by
  obtain ⟨text, htext⟩ := Option.isSome_iff_exists.mp hvalid
  rw [fromUtf8_eq_some.mp htext, ← String.ofList_toList (s := text), segments_utf8] at hline
  obtain ⟨cs, -, rfl⟩ := List.mem_map.mp hline
  rw [checkUtf8, fromUtf8_eq_some.mpr rfl]
  rfl

variable {ls : List (List UInt8)} {rest : List UInt8} {num : Nat}

section Joined

variable (hls : ∀ l ∈ ls, (0x0a : UInt8) ∉ l) (hrest : (0x0a : UInt8) ∉ rest)

include hls hrest

theorem lineTexts_joinLines : lineTexts (joinLines 0x0a ls rest) = ls ++ if rest = [] then [] else [rest] := by
  rw [lineTexts, fullLines_joinLines hls hrest, lastPart_joinLines hls hrest]

theorem returns_joinLines : returns (joinLines 0x0a ls rest) =
    ls.map (fun line => decide (line.getLast? = some 0x0d)) ++ if rest = [] then [] else [false] := by
  rw [returns, fullLines_joinLines hls hrest, lastPart_joinLines hls hrest]

theorem lineTexts_dropReturns : lineTexts (dropReturns (joinLines 0x0a ls rest)) =
    ls.map chomp ++ if rest = [] then [] else [rest] := by
  have hchomp : ∀ l ∈ ls.map chomp, (0x0a : UInt8) ∉ l := by
    intro l hl hmem
    obtain ⟨l, hin, rfl⟩ := List.mem_map.mp hl
    unfold chomp at hmem
    split at hmem
    · exact hls l hin ((List.dropLast_sublist l).mem hmem)
    · exact hls l hin hmem
  rw [dropReturns, fullLines_joinLines hls hrest, lastPart_joinLines hls hrest]
  exact lineTexts_joinLines hchomp hrest

end Joined

/-- The lines that are read are those without carriage returns. -/
theorem readLines_eq (hvalid : (fromUtf8 input).isSome) :
    readLines input = some (lineTexts (dropReturns input)) := by
  obtain ⟨ls, rest, rfl, hls, hrest⟩ := exists_lines 0x0a input
  have hsegments := segments_joinLines hls hrest
  have hfull : ls.mapM checkUtf8 = some (ls.map id) := by
    apply mapM_some
    intro l hl
    exact checkUtf8_line hvalid (hsegments ▸ List.mem_append_left _ hl)
  have hlast : checkUtf8 rest = some rest :=
    checkUtf8_line hvalid (hsegments ▸ List.mem_append_right _ List.mem_cons_self)
  rw [readLines, fullLines_joinLines hls hrest, lastPart_joinLines hls hrest, hfull, hlast, List.map_id,
    lineTexts_dropReturns hls hrest]
  rfl

theorem select_map {α β : Type*} (f : α → β) (skip : Bool) (num : Nat) (l : List α) :
    select skip num (l.map f) = (select skip num l).map f := by
  unfold select
  split
  · exact List.map_drop.symm
  · rw [List.length_map, List.map_drop]

/-- The lines of an input, each with whether a carriage return is dropped of it -/
theorem exists_marked (input : List UInt8) : ∃ marked : List (List UInt8 × Bool),
    lineTexts input = marked.map Prod.fst ∧ returns input = marked.map Prod.snd ∧
    lineTexts (dropReturns input) = marked.map (fun line => if line.2 then line.1.dropLast else line.1) ∧
    ∀ line ∈ marked, line.2 → line.1 ≠ [] := by
  obtain ⟨ls, rest, rfl, hls, hrest⟩ := exists_lines 0x0a input
  refine ⟨ls.map (fun line => (line, decide (line.getLast? = some 0x0d))) ++
    if rest = [] then [] else [(rest, false)], ?_, ?_, ?_, ?_⟩
  · rw [lineTexts_joinLines hls hrest]
    split <;> simp [Function.comp_def]
  · rw [returns_joinLines hls hrest]
    split <;> simp [Function.comp_def]
  · rw [lineTexts_dropReturns hls hrest]
    split <;> simp [Function.comp_def, chomp]
  · intro line hline hmark hnil
    rcases List.mem_append.mp hline with hline | hline
    · obtain ⟨l, -, rfl⟩ := List.mem_map.mp hline
      subst hnil
      simp at hmark
    · split at hline
      · cases hline
      · rw [List.mem_singleton.mp hline] at hmark
        cases hmark

/-- Every carriage return that is dropped makes the lines shorter. -/
theorem length_marked {marked : List (List UInt8 × Bool)} (hmarked : ∀ line ∈ marked, line.2 → line.1 ≠ []) :
    (marked.flatMap fun line => (if line.2 then line.1.dropLast else line.1) ++ [(0x0a : UInt8)]).length +
        (marked.map Prod.snd).count true =
      (marked.flatMap fun line => line.1 ++ [(0x0a : UInt8)]).length := by
  induction marked with
  | nil => rfl
  | cons line marked ih =>
    have hrest := ih fun line' hline' => hmarked line' (List.mem_cons_of_mem line hline')
    obtain ⟨l, mark⟩ := line
    cases mark with
    | false =>
      simp only [List.flatMap_cons, List.length_append, List.map_cons, List.count_cons] at hrest ⊢
      simp only [Bool.false_eq_true, if_false, beq_iff_eq] at hrest ⊢
      omega
    | true =>
      have hpos := List.length_pos_of_ne_nil (hmarked _ List.mem_cons_self rfl)
      simp only [List.flatMap_cons, List.length_append, List.map_cons, List.count_cons,
        if_true, List.length_dropLast, beq_self_eq_true] at hrest hpos ⊢
      omega

theorem mem_select {α : Type*} {skip : Bool} {num : Nat} {l : List α} {a : α} (h : a ∈ select skip num l) :
    a ∈ l := by
  unfold select at h
  split at h <;> exact List.mem_of_mem_drop h

/-- A part without its carriage returns has all of it if there is none at the end of a line in it. -/
theorem part_dropReturns (skip : Bool) (num : Nat) (input : List UInt8) :
    (part true skip num (dropReturns input)).length + (select skip num (returns input)).count true =
      (part true skip num input).length ∧
    ((select skip num (returns input)).count true = 0 →
      part true skip num (dropReturns input) = part true skip num input) := by
  obtain ⟨marked, htexts, hreturns, hdropped, hmarked⟩ := exists_marked input
  have hselected : ∀ line ∈ select skip num marked, line.2 → line.1 ≠ [] := fun line hline =>
    hmarked line (mem_select hline)
  have hpart : part true skip num input =
      (select skip num marked).flatMap fun line => line.1 ++ [0x0a] := by
    rw [part, if_pos rfl, htexts, select_map, List.flatMap_map]
  have hwithout : part true skip num (dropReturns input) =
      (select skip num marked).flatMap fun line => (if line.2 then line.1.dropLast else line.1) ++ [0x0a] := by
    rw [part, if_pos rfl, hdropped, select_map, List.flatMap_map]
  rw [hpart, hwithout, hreturns, select_map]
  refine ⟨length_marked hselected, fun hcount => List.flatMap_congr fun line hline => ?_⟩
  have hno : line.2 = false := by
    by_contra hmark
    have hmem : true ∈ (select skip num marked).map Prod.snd :=
      List.mem_map.mpr ⟨line, hline, Bool.eq_true_of_not_eq_false hmark⟩
    exact List.count_eq_zero.mp hcount hmem
  rw [hno]
  rfl

theorem part_eq_iff (skip : Bool) (num : Nat) (input : List UInt8) :
    part true skip num (dropReturns input) = part true skip num input ↔
      true ∉ select skip num (returns input) := by
  obtain ⟨hlength, hsame⟩ := part_dropReturns skip num input
  constructor
  · intro heq
    rw [heq] at hlength
    exact List.count_eq_zero.mp (Nat.add_left_cancel hlength)
  · intro hno
    exact hsame (List.count_eq_zero.mpr hno)

theorem part_eq_nil (hnum : 0 < num) : part true false num input = [] ↔ input = [] := by
  constructor
  · intro h
    obtain ⟨ls, rest, rfl, hls, hrest⟩ := exists_lines 0x0a input
    rw [part, if_pos rfl, List.flatMap_eq_nil_iff] at h
    have hselect : select false num (lineTexts (joinLines 0x0a ls rest)) = [] := by
      refine List.eq_nil_iff_forall_not_mem.mpr fun line hline => ?_
      exact absurd (h line hline) (List.append_ne_nil_of_right_ne_nil _ (List.cons_ne_nil _ _))
    have hlines : lineTexts (joinLines 0x0a ls rest) = [] := by
      have hdrop : (lineTexts (joinLines 0x0a ls rest)).drop
          ((lineTexts (joinLines 0x0a ls rest)).length - num) = [] := hselect
      rw [List.drop_eq_nil_iff] at hdrop
      exact List.eq_nil_of_length_eq_zero (by omega)
    rw [lineTexts_joinLines hls hrest, List.append_eq_nil_iff] at hlines
    obtain ⟨rfl, hlast⟩ := hlines
    split at hlast
    · assumption
    · cases hlast
  · rintro rfl
    exact List.flatMap_eq_nil_iff.mpr fun line hline => absurd (mem_select hline) List.not_mem_nil

end Valid

section Each

variable {writeln : List UInt8 → List UInt8} {inputs : Inputs} {f g : List UInt8 → List UInt8}
  {paths : List (List Char)}

/-- What is printed for several files -/
theorem printEach_several (hpaths : ∀ path ∈ paths, (inputs.files path).isSome) (hlength : 2 ≤ paths.length) :
    printEach writeln inputs (fun input => some (f input)) paths =
      some (paths.flatMap fun path => header writeln path ++ f ((inputs.files path).getD [])) := by
  obtain ⟨path, path', paths, rfl⟩ : ∃ path path' more, paths = path :: path' :: more := by
    rcases paths with _ | ⟨path, _ | ⟨path', paths⟩⟩
    · cases hlength
    · exact absurd hlength (Nat.not_succ_le_self 1)
    · exact ⟨path, path', paths, rfl⟩
  have hmap := mapM_some (l := path :: path' :: paths)
    (f := fun path => (inputs.files path).bind fun file => (some (f file)).map (header writeln path ++ ·))
    (g := fun path => header writeln path ++ f ((inputs.files path).getD [])) (by
      intro path hpath
      obtain ⟨file, hfile⟩ := Option.isSome_iff_exists.mp (hpaths path hpath)
      rw [hfile]
      rfl)
  exact (congrArg (Option.map List.flatten) hmap).trans (congrArg some List.flatMap_def.symm)

theorem length_flatMap (hle : ∀ input, (f input).length ≤ (g input).length)
    (heq : ∀ input, (f input).length = (g input).length → f input = g input)
    (content : List Char → List UInt8) :
    (paths.flatMap fun path => header writeln path ++ f (content path)).length ≤
      (paths.flatMap fun path => header writeln path ++ g (content path)).length ∧
    ((paths.flatMap fun path => header writeln path ++ f (content path)).length =
      (paths.flatMap fun path => header writeln path ++ g (content path)).length →
      ∀ path ∈ paths, f (content path) = g (content path)) := by
  induction paths with
  | nil => exact ⟨Nat.le_refl 0, fun _ => nofun⟩
  | cons path paths ih =>
    have hpath := hle (content path)
    simp only [List.flatMap_cons, List.length_append]
    refine ⟨by omega, fun hlength => List.forall_mem_cons.mpr ⟨heq _ (by omega), ih.2 (by omega)⟩⟩

/-- Nothing that is shorter is printed in its place where one input has less printed. -/
theorem printEach_eq_iff (hle : ∀ input, (f input).length ≤ (g input).length)
    (heq : ∀ input, (f input).length = (g input).length → f input = g input)
    (hpaths : ∀ path ∈ paths, (inputs.files path).isSome) :
    printEach writeln inputs (fun input => some (f input)) paths =
      printEach writeln inputs (fun input => some (g input)) paths ↔
      ∀ input ∈ inputs.named paths, f input = g input := by
  rcases paths with _ | ⟨path, _ | ⟨path', paths⟩⟩
  · simp [printEach, Inputs.named]
  · obtain ⟨file, hfile⟩ := Option.isSome_iff_exists.mp (hpaths path List.mem_cons_self)
    simp [printEach, Inputs.named, hfile]
  · rw [printEach_several hpaths (Nat.le_add_left 2 _), printEach_several hpaths (Nat.le_add_left 2 _)]
    have hnamed : ∀ input, input ∈ inputs.named (path :: path' :: paths) ↔
        ∃ p ∈ path :: path' :: paths, inputs.files p = some input := by
      intro input
      rw [Inputs.named, if_neg (List.cons_ne_nil _ _), List.mem_filterMap]
    constructor
    · intro hsame input hinput
      obtain ⟨p, hp, hfile⟩ := (hnamed input).mp hinput
      have hall := (length_flatMap hle heq fun p => (inputs.files p).getD []).2
        (congrArg List.length (Option.some.inj hsame)) p hp
      rwa [hfile] at hall
    · intro hall
      refine congrArg some (List.flatMap_congr fun p hp => ?_)
      obtain ⟨file, hfile⟩ := Option.isSome_iff_exists.mp (hpaths p hp)
      rw [hfile, Option.getD_some, hall file ((hnamed file).mpr ⟨p, hp, hfile⟩)]

theorem printEach_congr {print print' : List UInt8 → Option (List UInt8)} (hvalid : inputs.Valid)
    (h : ∀ input, (fromUtf8 input).isSome → print input = print' input) :
    printEach writeln inputs print paths = printEach writeln inputs print' paths := by
  have hbind : ∀ path, (inputs.files path).bind print = (inputs.files path).bind print' := by
    intro path
    cases hfile : inputs.files path with
    | none => rfl
    | some file => exact h file (hvalid.2 path file hfile)
  rcases paths with _ | ⟨path, _ | ⟨path', paths⟩⟩
  · exact h inputs.stdin hvalid.1
  · exact hbind path
  · refine congrArg (Option.map List.flatten) (congrArg (List.mapM · (path :: path' :: paths)) ?_)
    funext path
    cases hfile : inputs.files path with
    | none => rfl
    | some file => exact congrArg (Option.map (header writeln path ++ ·)) (h file (hvalid.2 path file hfile))

theorem printEach_isSome (hpaths : ∀ path ∈ paths, (inputs.files path).isSome) :
    (printEach writeln inputs (fun input => some (f input)) paths).isSome := by
  rcases paths with _ | ⟨path, _ | ⟨path', paths⟩⟩
  · rfl
  · obtain ⟨file, hfile⟩ := Option.isSome_iff_exists.mp (hpaths path List.mem_cons_self)
    rw [printEach, hfile]
    rfl
  · rw [printEach_several hpaths (Nat.le_add_left 2 _)]
    rfl

end Each

section Main

variable {writeln : List UInt8 → List UInt8} {inputs : Inputs} {p : ArgParser} {paths : List (List Char)}
  {skip : Bool} {num : Nat} {input : List UInt8}

theorem parse_paths (h : ∀ path ∈ paths, path.head? ≠ some '-') (rest : List (List Char)) :
    p.parse (paths ++ rest) = { p with args := p.args ++ paths }.parse rest := by
  induction paths generalizing p with
  | nil => rw [List.append_nil, List.nil_append]
  | cons path paths ih =>
    rw [List.cons_append, parse_positional (h path List.mem_cons_self),
      ih fun path' hpath' => h path' (List.mem_cons_of_mem path hpath')]
    simp

/-- With one of the names for lines -/
theorem tail_lines (hfound : p.found (.short 'n') || p.found (.long "lines".toList))
    (hvalid : (fromUtf8 input).isSome) :
    tail p skip num input = some (part true skip num (dropReturns input)) := by
  rw [tail, if_pos hfound, readLines_eq hvalid]
  cases skip
  · rw [Option.map_some, window_eq]
    rfl
  · rfl

theorem readNumber_text (choice : Choice) : readNumber choice.text =
    if choice.number.value < 2 ^ 64 then some (choice.plus, choice.number.value) else none := by
  have hfirst : ∃ c cs, choice.number.digits = c :: cs ∧ c ≠ '+' := by
    obtain ⟨c, cs, hcs⟩ := List.exists_cons_of_ne_nil choice.number.ne_nil
    refine ⟨c, cs, hcs, ?_⟩
    rintro rfl
    exact absurd (choice.number.decimal '+' (hcs ▸ List.mem_cons_self)).1 (by decide)
  obtain ⟨c, cs, hcs, hc⟩ := hfirst
  have hdrop : choice.text.dropWhile (· = '+') = choice.number.digits := by
    unfold Choice.text
    split <;> simp [hcs, hc]
  have hhead : decide (choice.text.head? = some '+') = choice.plus := by
    unfold Choice.text
    cases choice.plus <;> simp [hcs, hc]
  have hparse := parseUsize_numeral choice.number
  rw [trim_eq fun c hc => not_whitespace (choice.number.decimal c hc)] at hparse
  rw [readNumber, hdrop, hparse, hhead]
  by_cases hlt : choice.number.value < 2 ^ 64
  · rw [if_pos hlt, if_pos hlt]
  · rw [if_neg hlt, if_neg hlt]

theorem text_head (choice : Choice) : choice.text.head? ≠ some '-' := by
  have hfirst : ∃ c cs, choice.number.digits = c :: cs ∧ c ≠ '-' := by
    obtain ⟨c, cs, hcs⟩ := List.exists_cons_of_ne_nil choice.number.ne_nil
    refine ⟨c, cs, hcs, ?_⟩
    rintro rfl
    exact absurd (choice.number.decimal '-' (hcs ▸ List.mem_cons_self)).1 (by decide)
  obtain ⟨c, cs, hcs, hc⟩ := hfirst
  unfold Choice.text
  split <;> simp [hcs, hc]

section Parsed

variable {before after : List (List Char)} (hbefore : ∀ path ∈ before, path.head? ≠ some '-')
  (hafter : ∀ path ∈ after, path.head? ≠ some '-')

include hbefore hafter

theorem parse_none : parser.parse (arguments before none after) = { parser with args := before ++ after } := by
  have hall : ∀ path ∈ before ++ after, path.head? ≠ some '-' := fun path hpath =>
    (List.mem_append.mp hpath).elim (hbefore path) (hafter path)
  have hparse := parse_paths (p := parser) hall []
  rw [List.append_nil] at hparse
  rw [arguments, Option.elim_none, List.append_nil, hparse]
  rfl

/-- An argument that follows a long name is a file. -/
theorem parse_long_name {choice : Choice} (name : List Char) (hne : name ≠ [])
    (htext : choice.name.text = '-' :: '-' :: name) :
    parser.parse (arguments before (some choice) after) =
      { ({ parser with args := before } : ArgParser).readLong name with
        args := (({ parser with args := before } : ArgParser).readLong name).args ++ choice.text :: after } := by
  have hrest : ∀ path ∈ choice.text :: after, path.head? ≠ some '-' :=
    List.forall_mem_cons.mpr ⟨text_head choice, hafter⟩
  have hparse := parse_paths (p := ({ parser with args := before } : ArgParser).readLong name) hrest []
  rw [List.append_nil] at hparse
  rw [arguments, Option.elim_some, List.append_assoc, parse_paths hbefore, htext, List.cons_append,
    parse_long hne]
  exact hparse

/-- The argument behind a short name is the value of its option. -/
theorem parse_short_name {cell : Nat} {choice : Choice} (c : Char) (htext : choice.name.text = ['-', c])
    (hname : c = 'n' ∧ cell = 0 ∨ c = 'c' ∧ cell = 1) :
    parser.parse (arguments before (some choice) after) =
      { (parser.store cell choice.text).set (.short c) (.opt cell 0 true) with args := before ++ after } := by
  have hread : ∀ args, ({ parser with args := before } : ArgParser).parse (['-', c] :: choice.text :: args) =
      ({ (parser.store cell choice.text).set (.short c) (.opt cell 0 true) with
        args := before } : ArgParser).parse args := by
    rcases hname with ⟨rfl, rfl⟩ | ⟨rfl, rfl⟩ <;> exact fun _ => rfl
  have hparse := @parse_paths { (parser.store cell choice.text).set (.short c) (.opt cell 0 true) with
    args := before } after hafter []
  rw [List.append_nil] at hparse
  rw [arguments, Option.elim_some, List.append_assoc, parse_paths hbefore, htext]
  exact (hread after).trans hparse

end Parsed

variable {arguments' : List (List Char)}

/-- Without an option for bytes the number is that of the lines. -/
theorem main_eq (text : List Char) (hparse : parser.parse arguments' = p)
    (hhelp : (p.found (.short 'h') || p.found (.long "help".toList)) = false)
    (hbytes : (p.found (.short 'c') || p.found (.long "bytes".toList)) = false) (hinvalid : p.invalid = [])
    (hvalue : p.getOpt (.long "lines".toList) = some text) :
    main writeln inputs arguments' = (readNumber text).elim .failed fun read =>
      .ofPrinted (printEach writeln inputs (tail p read.1 read.2) p.args) := by
  have hno : ¬p.invalid ≠ [] := fun h => h hinvalid
  unfold main
  simp only [hparse, hhelp, hbytes, Bool.false_eq_true, if_false, if_neg hno, hvalue, Option.some_or]
  cases readNumber text <;> rfl

/-- With an option for bytes the number that is read is the one of the lines, which is cleared. -/
theorem main_bytes (hparse : parser.parse arguments' = p)
    (hhelp : (p.found (.short 'h') || p.found (.long "help".toList)) = false)
    (hbytes : (p.found (.short 'c') || p.found (.long "bytes".toList)) = true) (hinvalid : p.invalid = [])
    (hcell : p.cellOf (.long "lines".toList) ≠ none) : main writeln inputs arguments' = .failed := by
  have hclear : (clear p (.long "lines".toList)).invalid = [] ∧
      (clear p (.long "lines".toList)).getOpt (.long "lines".toList) = some [] := by
    obtain ⟨cell, occurrences, found, hparam⟩ : ∃ cell occurrences found,
        p.params (.long "lines".toList) = some (.opt cell occurrences found) := by
      unfold ArgParser.cellOf at hcell
      split at hcell
      next hparam => exact ⟨_, _, _, hparam⟩
      next => exact absurd rfl hcell
    unfold clear
    rw [hparam]
    refine ⟨hinvalid, ?_⟩
    simp only [ArgParser.getOpt, show (p.store cell []).params (.long "lines".toList) = _ from hparam]
    exact congrArg some (Function.update_self ..)
  have hno : ¬(clear p (.long "lines".toList)).invalid ≠ [] := fun h => h hclear.1
  have hnumber : readNumber [] = none := rfl
  unfold main
  simp only [hparse, hhelp, hbytes, Bool.false_eq_true, if_false, if_true, if_neg hno, hclear.2, Option.some_or,
    hnumber]

theorem done_iff {answer : Option (List UInt8)} (printed : Option (List UInt8)) (hanswer : answer.isSome) :
    (∃ out, answer = some out ∧ Outcome.ofPrinted printed = .done out) ↔ printed = answer := by
  obtain ⟨out, rfl⟩ := Option.isSome_iff_exists.mp hanswer
  cases printed with
  | none => simp [Outcome.ofPrinted]
  | some stdout => simp [Outcome.ofPrinted, eq_comm]

end Main

/-- For every input and every argument list with at most one option among files, the program prints what is
asked for just where `Prints` says so. -/
theorem main_prints_iff (writeln : List UInt8 → List UInt8) (inputs : Inputs) (hvalid : inputs.Valid)
    (before : List (List Char)) (choice : Option Choice) (after : List (List Char))
    (hpaths : ∀ path ∈ before ++ after, path.head? ≠ some '-' ∧ (inputs.files path).isSome) :
    (∃ out, printEach writeln inputs (fun input => some (asked choice input)) (before ++ after) = some out ∧
      main writeln inputs (arguments before choice after) = .done out) ↔
      Prints writeln inputs before after choice := by
  have hbefore : ∀ path ∈ before, path.head? ≠ some '-' := fun path hpath =>
    (hpaths path (List.mem_append_left _ hpath)).1
  have hafter : ∀ path ∈ after, path.head? ≠ some '-' := fun path hpath =>
    (hpaths path (List.mem_append_right _ hpath)).1
  have hexists : ∀ path ∈ before ++ after, (inputs.files path).isSome := fun path hpath => (hpaths path hpath).2
  have hten : readNumber "10".toList = some (false, 10) := by decide
  have hanswer := @printEach_isSome writeln inputs (asked choice) _ hexists
  rcases choice with _ | ⟨name, plus, number⟩
  · have hmain := @main_eq writeln inputs _ _ "10".toList (parse_none hbefore hafter) rfl rfl rfl rfl
    rw [hmain, hten, Option.elim_some, done_iff _ hanswer]
    have hnothing : printEach writeln inputs (tail { parser with args := before ++ after } false 10)
        (before ++ after) = printEach writeln inputs (fun _ => some []) (before ++ after) := rfl
    have hshorter := @printEach_eq_iff writeln inputs (fun _ => []) (part true false 10) _
      (fun _ => Nat.zero_le _)
      (fun _ h => (List.eq_nil_of_length_eq_zero h.symm).symm) hexists
    refine (iff_of_eq (congrArg (· = _) hnothing)).trans (hshorter.trans ?_)
    refine forall₂_congr fun input _ => ?_
    rw [eq_comm, part_eq_nil (Nat.zero_lt_succ 9)]
  · generalize hchoice : (⟨name, plus, number⟩ : Choice) = choice at hanswer ⊢
    cases name with
    | n =>
      have hname : choice.name.text = ['-', 'n'] := by
        rw [← hchoice]
        rfl
      have hparse := parse_short_name hbefore hafter 'n' hname (.inl ⟨rfl, rfl⟩)
      have hmain := @main_eq writeln inputs _ _ choice.text hparse rfl rfl rfl rfl
      rw [hmain, readNumber_text, ← hchoice]
      by_cases hlt : number.value < 2 ^ 64
      · rw [if_pos hlt, Option.elim_some, done_iff _ (hchoice ▸ hanswer)]
        subst hchoice
        have hlines : ∀ input, (fromUtf8 input).isSome →
            tail { (parser.store 0 (Choice.text ⟨.n, plus, number⟩)).set (.short 'n') (.opt 0 0 true) with
              args := before ++ after } plus number.value input =
              some (part true plus number.value (dropReturns input)) :=
          fun input hinput => tail_lines rfl hinput
        have hshorter := @printEach_eq_iff writeln inputs
          (fun input => part true plus number.value (dropReturns input)) (part true plus number.value) _
          (fun input => Nat.le.intro (part_dropReturns plus number.value input).1)
          (fun input hlength => (part_dropReturns plus number.value input).2
            (Nat.add_left_cancel ((part_dropReturns plus number.value input).1.trans hlength.symm))) hexists
        refine (iff_of_eq (congrArg (· = _) (printEach_congr hvalid hlines))).trans (hshorter.trans ?_)
        refine (forall₂_congr fun input _ => part_eq_iff plus number.value input).trans ?_
        exact (and_iff_right hlt).symm
      · rw [if_neg hlt]
        exact iff_of_false (by rintro ⟨out, -, hdone⟩; cases hdone) fun h => hlt h.1
    | lines =>
      have hname : choice.name.text = '-' :: '-' :: "lines".toList := by
        rw [← hchoice]
        rfl
      have hparse := parse_long_name hbefore hafter "lines".toList (List.cons_ne_nil _ _) hname
      have hmain := @main_eq writeln inputs _ _ "10".toList hparse rfl rfl rfl rfl
      rw [hmain, hten, Option.elim_some, done_iff _ hanswer, ← hchoice]
      refine iff_of_eq (congrArg (· = _) ?_)
      exact printEach_congr hvalid fun input hinput => tail_lines rfl hinput
    | c =>
      have hname : choice.name.text = ['-', 'c'] := by
        rw [← hchoice]
        rfl
      have hparse := parse_short_name hbefore hafter 'c' hname (.inr ⟨rfl, rfl⟩)
      have hmain := @main_bytes writeln inputs _ _ hparse rfl rfl rfl nofun
      rw [hmain, ← hchoice]
      exact iff_of_false (by rintro ⟨out, -, hdone⟩; cases hdone) id
    | bytes =>
      have hname : choice.name.text = '-' :: '-' :: "bytes".toList := by
        rw [← hchoice]
        rfl
      have hparse := parse_long_name hbefore hafter "bytes".toList (List.cons_ne_nil _ _) hname
      have hmain := @main_bytes writeln inputs _ _ hparse rfl rfl rfl nofun
      rw [hmain, ← hchoice]
      exact iff_of_false (by rintro ⟨out, -, hdone⟩; cases hdone) id

/-- The number 1 -/
def one : Numeral := ⟨['1'], List.cons_ne_nil _ _, List.forall_mem_singleton.mpr (by decide)⟩

/-- With `-n 1` and a line "a" -/
theorem main_prints_iff_n :
    (∃ out, printEach (· ++ [0x0a]) ⟨[0x61, 0x0a], fun _ => none⟩
        (fun input => some (asked (some ⟨.n, false, one⟩) input)) [] = some out ∧
      main (· ++ [0x0a]) ⟨[0x61, 0x0a], fun _ => none⟩
        (arguments [] (some ⟨.n, false, one⟩) []) = .done out) ↔
      Prints (· ++ [0x0a]) ⟨[0x61, 0x0a], fun _ => none⟩ [] []
        (some ⟨.n, false, one⟩) :=
  main_prints_iff _ _ ⟨Option.isSome_iff_exists.mpr ⟨"a\n", fromUtf8_eq_some.mpr (by decide)⟩,
    fun _ _ hfile => absurd hfile.symm (Option.some_ne_none _)⟩ [] _ [] nofun

/-- Without an option nothing is printed of a line "a", and with `-c 1` the program fails. -/
theorem line_not_printed :
    ¬(∃ out, printEach (· ++ [0x0a]) ⟨[0x61, 0x0a], fun _ => none⟩ (fun input => some (asked none input)) [] =
        some out ∧ main (· ++ [0x0a]) ⟨[0x61, 0x0a], fun _ => none⟩ (arguments [] none []) = .done out) ∧
    ¬(∃ out, printEach (· ++ [0x0a]) ⟨[0x61, 0x0a], fun _ => none⟩
        (fun input => some (asked (some ⟨.c, false, one⟩) input)) [] = some out ∧
      main (· ++ [0x0a]) ⟨[0x61, 0x0a], fun _ => none⟩
        (arguments [] (some ⟨.c, false, one⟩) []) = .done out) := by
  constructor
  · rintro ⟨out, hasked, hdone⟩
    obtain rfl := Option.some.inj hasked
    exact absurd hdone (by decide)
  · rintro ⟨out, hasked, hdone⟩
    obtain rfl := Option.some.inj hasked
    exact absurd hdone (by decide)

end Origel.Coreutils.Tail
