import Origel.Coreutils.Arguments

/-! What the arguments of a command mean, however they are spelled. -/
namespace Origel.Coreutils

/-- What is written on a command line -/
inductive Item where
  /-- `-abc` -/
  | flags (names : List Char)
  /-- `--name` -/
  | flag (name : List Char)
  /-- `-x v` -/
  | short (x : Char) (v : List Char)
  /-- `-xv` -/
  | attached (x : Char) (v : List Char)
  /-- `--name=v` -/
  | equals (name v : List Char)
  /-- `--name v` -/
  | separate (name v : List Char)
  | positional (arg : List Char)

namespace Item

def words : Item → List (List Char)
  | flags names => ['-' :: names]
  | flag name => ['-' :: '-' :: name]
  | short x v => [['-', x], v]
  | attached x v => ['-' :: x :: v]
  | equals name v => ['-' :: '-' :: (name ++ '=' :: v)]
  | separate name v => ['-' :: '-' :: name, v]
  | positional arg => [arg]

/-- The names that are written -/
def written : Item → List Param
  | flags names => names.map .short
  | flag name => [.long name]
  | short x _ | attached x _ => [.short x]
  | equals name _ | separate name _ => [.long name]
  | positional _ => []

/-- The value that is written, and the name of its option -/
def assigned : Item → List (Param × List Char)
  | short x v | attached x v => [(.short x, v)]
  | equals name v | separate name v => [(.long name, v)]
  | _ => []

def positionals : Item → List (List Char)
  | positional arg => [arg]
  | _ => []

def isFlags : Item → Bool
  | flags _ | flag _ => true
  | _ => false

end Item

/-- The arguments of a command line. Behind `--`, if it is there, are the rest. -/
def words (line : List Item) (rest : Option (List (List Char))) : List (List Char) :=
  line.flatMap Item.words ++ rest.elim [] fun rest => ['-', '-'] :: rest

def written (line : List Item) : List Param := line.flatMap Item.written

def assigned (line : List Item) : List (Param × List Char) := line.flatMap Item.assigned

def positionals (line : List Item) : List (List Char) := line.flatMap Item.positionals

/-- The value that is left of those assigned to the options of a cell -/
def lastValue (cellOf : Param → Option Nat) (cell : Nat) (value : List Char) :
    List (Param × List Char) → List Char
  | [] => value
  | (n, v) :: as => lastValue cellOf cell (if cellOf n = some cell then v else value) as

/-- The occurrences that are counted of a name: of a long one, and from one again where the value is
empty. -/
def counted (cellOf : Param → Option Nat) (name : Param) (cell : Nat) :
    Nat → List Char → List (Param × List Char) → Nat
  | occurrences, _, [] => occurrences
  | occurrences, value, (n, v) :: as =>
    counted cellOf name cell
      (match n with
      | .short _ => occurrences
      | .long _ => if n = name then if value = [] then 1 else occurrences + 1 else occurrences)
      (if cellOf n = some cell then v else value) as

namespace ArgParser

/-- The cell of the option that has a name -/
def cellOf (p : ArgParser) (name : Param) : Option Nat :=
  match p.params name with
  | some (.opt cell _ _) => some cell
  | _ => none

def isFlag (p : ArgParser) (name : Param) : Bool :=
  match p.params name with
  | some (.flag _ _) => true
  | _ => false

/-- What a command line means for the entry of a name -/
def entry (p : ArgParser) (line : List Item) (name : Param) : Value → Value
  | .flag value occurrences =>
    .flag (value || (written line).contains name) (occurrences + (written line).count name)
  | .opt cell occurrences found =>
    .opt cell (counted p.cellOf name cell occurrences (p.cells cell) (assigned line))
      (found || (written line).contains name)

/-- What a command line means -/
def after (p : ArgParser) (line : List Item) : ArgParser :=
  { p with
    params := fun name => (p.params name).map (p.entry line name)
    cells := fun cell => lastValue p.cellOf cell (p.cells cell) (assigned line)
    args := p.args ++ positionals line }

/-- An item is spelled so that it is read as what it is. -/
def Spells (p : ArgParser) : Item → Prop
  | .flags names => (∀ c ∈ names, p.isFlag (.short c)) ∧ names.head? ≠ some '-'
  | .flag name => p.isFlag (.long name) ∧ name ≠ [] ∧ '=' ∉ name
  | .short x _ => (p.cellOf (.short x)).isSome ∧ x ≠ '-'
  | .attached x v => (p.cellOf (.short x)).isSome ∧ x ≠ '-' ∧ v ≠ []
  | .equals name _ => (p.cellOf (.long name)).isSome ∧ '=' ∉ name
  | .separate _ _ => False
  | .positional arg => arg.head? ≠ some '-'

end ArgParser

section Meaning

variable {p q : ArgParser} {line line' : List Item} {item : Item} {cellOf : Param → Option Nat}
  {name : Param} {cell occurrences : Nat} {value : List Char} {as bs : List (Param × List Char)}

theorem lastValue_append :
    lastValue cellOf cell value (as ++ bs) = lastValue cellOf cell (lastValue cellOf cell value as) bs := by
  induction as generalizing value with
  | nil => rfl
  | cons a as ih => exact ih

theorem counted_append :
    counted cellOf name cell occurrences value (as ++ bs) =
      counted cellOf name cell (counted cellOf name cell occurrences value as)
        (lastValue cellOf cell value as) bs := by
  induction as generalizing occurrences value with
  | nil => rfl
  | cons a as ih => exact ih

/-- What has been read changes no name from a flag to an option, and no cell. -/
@[simp] theorem cellOf_after : (p.after line).cellOf = p.cellOf := by
  funext name
  simp only [ArgParser.cellOf, ArgParser.after]
  cases p.params name with
  | none => rfl
  | some value => cases value <;> rfl

@[simp] theorem isFlag_after : (p.after line).isFlag = p.isFlag := by
  funext name
  simp only [ArgParser.isFlag, ArgParser.after]
  cases p.params name with
  | none => rfl
  | some value => cases value <;> rfl

theorem spells_after : (p.after line).Spells item ↔ p.Spells item := by
  cases item <;> simp only [ArgParser.Spells, cellOf_after, isFlag_after]

theorem after_nil : p.after [] = p := by
  have hparams : (fun name => (p.params name).map (p.entry [] name)) = p.params := by
    funext name
    cases p.params name with
    | none => rfl
    | some value =>
      cases value with
      | flag value occurrences =>
        exact congrArg (fun b => some (Value.flag b occurrences)) (Bool.or_false value)
      | opt cell occurrences found =>
        exact congrArg (fun b => some (Value.opt cell occurrences b)) (Bool.or_false found)
  rw [ArgParser.after, hparams]
  exact congrArg (fun args => { p with args }) (List.append_nil p.args)

theorem after_append : p.after (line ++ line') = (p.after line).after line' := by
  have hwritten : written (line ++ line') = written line ++ written line' := List.flatMap_append
  have hassigned : assigned (line ++ line') = assigned line ++ assigned line' := List.flatMap_append
  have hpositionals : positionals (line ++ line') = positionals line ++ positionals line' :=
    List.flatMap_append
  have hentry : ∀ name value, p.entry (line ++ line') name value =
      (p.after line).entry line' name (p.entry line name value) := by
    intro name value
    cases value with
    | flag value occurrences =>
      simp only [ArgParser.entry, hwritten, List.count_append, List.contains_append, Bool.or_assoc,
        Nat.add_assoc]
    | opt cell occurrences found =>
      simp only [ArgParser.entry, hwritten, hassigned, List.contains_append, Bool.or_assoc,
        counted_append, cellOf_after]
      rfl
  simp only [ArgParser.after, hassigned, hpositionals, lastValue_append, List.append_assoc,
    Option.map_map]
  congr
  · funext name
    apply congrArg (fun f => (p.params name).map f)
    funext value
    exact hentry name value
  · funext cell
    exact congrArg (fun f => lastValue f cell _ (assigned line')) cellOf_after.symm

theorem parse_long {arg : List Char} (h : arg ≠ []) (args : List (List Char)) :
    p.parse (('-' :: '-' :: arg) :: args) = (p.readLong arg).parse args := by
  cases arg with
  | nil => exact absurd rfl h
  | cons c cs => rfl

theorem parse_short {chars : List Char} (h : chars.head? ≠ some '-') (args : List (List Char)) :
    p.parse (('-' :: chars) :: args) =
      match p.readShort chars with
      | (p, none) => p.parse args
      | (p, some (ch, cell, occurrences)) =>
        match args with
        | [] => p.store cell []
        | a :: args => ((p.store cell a).set (.short ch) (.opt cell occurrences true)).parse args := by
  have hone : chars = ['-'] → False := fun hchars => h (congrArg List.head? hchars)
  have htwo : ∀ arg, chars = '-' :: arg → False := fun _ hchars => h (congrArg List.head? hchars)
  exact ArgParser.parse.eq_4 p args chars hone htwo

theorem parse_positional {arg : List Char} (h : arg.head? ≠ some '-') (args : List (List Char)) :
    p.parse (arg :: args) = { p with args := p.args ++ [arg] }.parse args := by
  cases arg with
  | nil => rfl
  | cons c cs =>
    rw [ArgParser.parse]
    all_goals
      intros
      simp_all

/-- The first `=` is the one behind a name that has none. -/
theorem split_equals {n : List Char} (v : List Char) (h : '=' ∉ n) :
    (n ++ '=' :: v).takeWhile (· ≠ '=') = n ∧ ((n ++ '=' :: v).dropWhile (· ≠ '=')).tail = v := by
  have hall : ∀ c ∈ n, decide (c ≠ '=') := fun c hc => decide_eq_true fun heq => h (heq ▸ hc)
  rw [List.takeWhile_append_of_pos hall, List.dropWhile_append_of_pos hall]
  exact ⟨List.append_nil n, rfl⟩

/-- What is read of a line is what it writes, in this order. -/
theorem after_congr (hwritten : written line = written line') (hassigned : assigned line = assigned line')
    (hpositionals : positionals line = positionals line') : p.after line = p.after line' := by
  have hentry : p.entry line = p.entry line' := by
    funext name value
    cases value <;> simp only [ArgParser.entry, hwritten, hassigned]
  simp only [ArgParser.after, hentry, hassigned, hpositionals]

/-- A name that is not written keeps its entry. -/
theorem entry_other (hname : name ∉ written line) (hassigned : ∀ a ∈ assigned line, a.1 ∈ written line) :
    (p.params name).map (p.entry line name) = p.params name := by
  have hcounted : ∀ cell occurrences value (as : List (Param × List Char)), (∀ a ∈ as, a.1 ≠ name) →
      counted p.cellOf name cell occurrences value as = occurrences := by
    intro cell occurrences value as
    induction as generalizing value with
    | nil => exact fun _ => rfl
    | cons a as ih =>
      intro hother
      obtain ⟨n, v⟩ := a
      have hne : n ≠ name := hother _ List.mem_cons_self
      have hrest := ih (if p.cellOf n = some cell then v else value)
        fun a ha => hother a (List.mem_cons_of_mem _ ha)
      cases n with
      | short x => exact hrest
      | long n =>
        rw [counted]
        simp only [if_neg hne]
        exact hrest
  cases p.params name with
  | none => rfl
  | some value =>
    cases value with
    | flag value occurrences =>
      simp [ArgParser.entry, hname, List.count_eq_zero_of_not_mem hname]
    | opt cell occurrences found =>
      have hcount := hcounted cell occurrences (p.cells cell) (assigned line)
        fun a ha heq => hname (heq ▸ hassigned a ha)
      simp [ArgParser.entry, hname, hcount]

theorem set_flag {flagged : Bool} (hentry : p.params name = some (.flag flagged occurrences))
    (hwritten : written line = [name]) (hassigned : assigned line = [])
    (hpositionals : positionals line = []) :
    p.set name (.flag true (occurrences + 1)) = p.after line := by
  have hparams : Function.update p.params name (some (.flag true (occurrences + 1))) =
      fun n => (p.params n).map (p.entry line n) := by
    funext n
    by_cases hn : n = name
    · subst hn
      rw [Function.update_self, hentry]
      simp [ArgParser.entry, hwritten]
    · rw [Function.update_of_ne hn, entry_other]
      · simp [hwritten, hn]
      · simp [hassigned]
  rw [ArgParser.set, hparams, ArgParser.after, hassigned, hpositionals, List.append_nil]
  rfl

theorem set_opt {was : Bool} {v : List Char}
    (hentry : p.params name = some (.opt cell occurrences was))
    (hwritten : written line = [name]) (hassigned : assigned line = [(name, v)])
    (hpositionals : positionals line = []) :
    (p.set name (.opt cell (counted p.cellOf name cell occurrences (p.cells cell) [(name, v)]) true)).store
      cell v = p.after line := by
  have hcell : p.cellOf name = some cell := by rw [ArgParser.cellOf, hentry]
  have hparams : Function.update p.params name (some (.opt cell
      (counted p.cellOf name cell occurrences (p.cells cell) [(name, v)]) true)) =
      fun n => (p.params n).map (p.entry line n) := by
    funext n
    by_cases hn : n = name
    · subst hn
      rw [Function.update_self, hentry]
      simp [ArgParser.entry, hwritten, hassigned]
    · rw [Function.update_of_ne hn, entry_other]
      · simp [hwritten, hn]
      · simp [hassigned, hwritten]
  have hcells : Function.update p.cells cell v =
      fun c => lastValue p.cellOf c (p.cells c) (assigned line) := by
    funext c
    rw [hassigned, lastValue, lastValue, hcell]
    by_cases hc : c = cell
    · rw [hc, Function.update_self, if_pos rfl]
    · rw [Function.update_of_ne hc, if_neg (fun h => hc (Option.some.inj h).symm)]
  rw [ArgParser.store, ArgParser.set, ArgParser.after, hpositionals, List.append_nil, hparams, hcells]

theorem flag_entry (h : p.isFlag name) : ∃ flagged occurrences, p.params name = some (.flag flagged occurrences) := by
  rw [ArgParser.isFlag] at h
  split at h
  · exact ⟨_, _, ‹_›⟩
  · cases h

theorem option_entry (h : p.cellOf name = some cell) :
    ∃ occurrences was, p.params name = some (.opt cell occurrences was) := by
  rw [ArgParser.cellOf] at h
  split at h
  · cases h
    exact ⟨_, _, ‹_›⟩
  · cases h

theorem readShort_flags {names : List Char} (h : ∀ c ∈ names, p.isFlag (.short c)) :
    p.readShort names = (p.after [.flags names], none) := by
  induction names generalizing p with
  | nil =>
    have hnone : p.after [.flags []] = p.after [] := after_congr rfl rfl rfl
    rw [ArgParser.readShort, hnone, after_nil]
  | cons c names ih =>
    obtain ⟨flagged, occurrences, hentry⟩ := flag_entry (h c List.mem_cons_self)
    have hset : p.set (.short c) (.flag true (occurrences + 1)) = p.after [.flags [c]] :=
      set_flag hentry rfl rfl rfl
    have hrest := ih (p := p.after [.flags [c]])
      (by simpa using fun c' hc' => h c' (List.mem_cons_of_mem c hc'))
    rw [ArgParser.readShort, hentry]
    simp only [hset]
    rw [hrest, ← after_append]
    exact congrArg (fun p => (p, none)) (after_congr rfl rfl rfl)

/-- Where it is spelled so, an item is read as what it means. -/
theorem parse_item (h : p.Spells item) (args : List (List Char)) :
    p.parse (item.words ++ args) = (p.after [item]).parse args := by
  cases item with
  | flags names =>
    obtain ⟨hflags, hhead⟩ := h
    change p.parse (('-' :: names) :: args) = _
    rw [parse_short hhead, readShort_flags hflags]
  | flag n =>
    obtain ⟨hflag, hne, hequals⟩ := h
    obtain ⟨flagged, occurrences, hentry⟩ := flag_entry hflag
    have hset : p.set (.long n) (.flag true (occurrences + 1)) = p.after [.flag n] :=
      set_flag hentry rfl rfl rfl
    change p.parse (('-' :: '-' :: n) :: args) = _
    rw [parse_long hne, ArgParser.readLong, if_neg hequals, hentry, ← hset]
  | short x v =>
    obtain ⟨hopt, hdash⟩ := h
    obtain ⟨cell, hcell⟩ := Option.isSome_iff_exists.mp hopt
    obtain ⟨occurrences, was, hentry⟩ := option_entry hcell
    have hset : (p.set (.short x) (.opt cell occurrences true)).store cell v = p.after [.short x v] :=
      set_opt hentry rfl rfl rfl
    change p.parse (['-', x] :: v :: args) = _
    rw [parse_short (by simpa using hdash), ArgParser.readShort, hentry, ← hset]
    rfl
  | attached x v =>
    obtain ⟨hopt, hdash, hv⟩ := h
    obtain ⟨cell, hcell⟩ := Option.isSome_iff_exists.mp hopt
    obtain ⟨occurrences, was, hentry⟩ := option_entry hcell
    have hset : (p.set (.short x) (.opt cell occurrences true)).store cell v = p.after [.attached x v] :=
      set_opt hentry rfl rfl rfl
    change p.parse (('-' :: x :: v) :: args) = _
    rw [parse_short (by simpa using hdash), ArgParser.readShort, hentry, ← hset]
    simp only [if_pos hv]
    rfl
  | equals n v =>
    obtain ⟨hopt, hequals⟩ := h
    obtain ⟨cell, hcell⟩ := Option.isSome_iff_exists.mp hopt
    obtain ⟨occurrences, was, hentry⟩ := option_entry hcell
    obtain ⟨hkey, hvalue⟩ := split_equals v hequals
    have hset : (p.set (.long n) (.opt cell (if p.cells cell = [] then 1 else occurrences + 1) true)).store
        cell v = p.after [.equals n v] := by
      rw [← set_opt hentry rfl rfl rfl, counted, counted]
      simp only [if_true]
    change p.parse (('-' :: '-' :: (n ++ '=' :: v)) :: args) = _
    rw [parse_long (by simp), ArgParser.readLong, if_pos (by simp), ← hset]
    simp only [hkey, hvalue, hentry]
  | separate n v => exact h.elim
  | positional arg =>
    change p.parse (arg :: args) = _
    have hpush : p.after [.positional arg] = { p with args := p.args ++ [arg] } := by
      have hnone : p.after [] = p := after_nil
      calc p.after [.positional arg] = { p.after [] with args := p.args ++ [arg] } := rfl
        _ = { p with args := p.args ++ [arg] } := by rw [hnone]
    rw [parse_positional h, hpush]

theorem parse_items (h : ∀ item ∈ line, p.Spells item) (args : List (List Char)) :
    p.parse (line.flatMap Item.words ++ args) = (p.after line).parse args := by
  induction line generalizing p with
  | nil =>
    rw [after_nil]
    rfl
  | cons item line ih =>
    rw [List.flatMap_cons, List.append_assoc, parse_item (h item List.mem_cons_self),
      ih fun item' hitem => spells_after.mpr (h item' (List.mem_cons_of_mem item hitem)), ← after_append]
    rfl

/-- What is read of the rest is all there. -/
theorem parse_rest (rest : Option (List (List Char))) :
    p.parse (rest.elim [] fun rest => ['-', '-'] :: rest) = { p with args := p.args ++ rest.getD [] } := by
  cases rest with
  | none => exact congrArg (fun args => { p with args }) (List.append_nil p.args).symm
  | some rest => rfl

theorem parse_line (h : ∀ item ∈ line, p.Spells item) (rest : Option (List (List Char))) :
    p.parse (words line rest) =
      { p.after line with args := p.args ++ positionals line ++ rest.getD [] } := by
  rw [words, parse_items h, parse_rest]
  rfl

/-- Flags and the other items can be told apart, and flags assign nothing. -/
theorem written_perm (line : List Item) :
    (written line).Perm (written (line.filter Item.isFlags) ++ written (line.filter (! ·.isFlags))) := by
  induction line with
  | nil => exact .refl _
  | cons item line ih =>
    change (item.written ++ written line).Perm _
    cases hflags : item.isFlags with
    | true =>
      rw [List.filter_cons_of_pos hflags, List.filter_cons_of_neg (by simp [hflags])]
      change List.Perm _ (item.written ++ _ ++ _)
      rw [List.append_assoc]
      exact ih.append_left _
    | false =>
      rw [List.filter_cons_of_neg (by simp [hflags]), List.filter_cons_of_pos (by simp [hflags])]
      exact (ih.append_left item.written).trans (List.perm_append_comm_assoc _ _ _)

theorem assigned_others (line : List Item) : assigned (line.filter (! ·.isFlags)) = assigned line := by
  induction line with
  | nil => rfl
  | cons item line ih =>
    change _ = item.assigned ++ assigned line
    cases item <;> simp_all [Item.isFlags, assigned, Item.assigned]

theorem positionals_others (line : List Item) :
    positionals (line.filter (! ·.isFlags)) = positionals line := by
  induction line with
  | nil => rfl
  | cons item line ih =>
    change _ = item.positionals ++ positionals line
    cases item <;> simp_all [Item.isFlags, positionals, Item.positionals]

/-- In which order and in which groups flags are written makes no difference. -/
theorem after_flags (hothers : line.filter (! ·.isFlags) = line'.filter (! ·.isFlags))
    (hflags : (written (line.filter Item.isFlags)).Perm (written (line'.filter Item.isFlags))) :
    p.after line = p.after line' := by
  have hperm : (written line).Perm (written line') := by
    refine (written_perm line).trans (.trans ?_ (written_perm line').symm)
    rw [hothers]
    exact hflags.append_right _
  have hassigned : assigned line = assigned line' := by
    rw [← assigned_others line, hothers, assigned_others]
  have hpositionals : positionals line = positionals line' := by
    rw [← positionals_others line, hothers, positionals_others]
  have hcontains : ∀ name, (written line).contains name = (written line').contains name := by
    intro name
    rw [List.contains_eq_mem, List.contains_eq_mem]
    exact decide_eq_decide.mpr hperm.mem_iff
  have hentry : p.entry line = p.entry line' := by
    funext name value
    cases value <;> simp only [ArgParser.entry, hcontains, hperm.count_eq, hassigned]
  simp only [ArgParser.after, hentry, hassigned, hpositionals]

/-- A long name is counted from one again where its option is empty, and otherwise counted on. -/
theorem counted_le_and_eq_iff {n : List Char} (hname : name = .long n) :
    counted cellOf name cell 0 value as ≤ (as.map Prod.fst).count name ∧
      (counted cellOf name cell 0 value as = (as.map Prod.fst).count name ↔
        ∀ before v behind, as = before ++ (name, v) :: behind → name ∈ before.map Prod.fst →
          lastValue cellOf cell value before ≠ []) := by
  induction as using List.reverseRecOn with
  | nil => simp [counted]
  | append_singleton as a ih =>
    obtain ⟨hle, hiff⟩ := ih
    obtain ⟨n', v'⟩ := a
    have hsplit : (∀ before v behind, as ++ [(n', v')] = before ++ (name, v) :: behind →
        name ∈ before.map Prod.fst → lastValue cellOf cell value before ≠ []) ↔
        (∀ before v behind, as = before ++ (name, v) :: behind → name ∈ before.map Prod.fst →
          lastValue cellOf cell value before ≠ []) ∧
        (n' = name → name ∈ as.map Prod.fst → lastValue cellOf cell value as ≠ []) := by
      constructor
      · intro h
        refine ⟨fun before v behind heq => h before v (behind ++ [(n', v')]) (by rw [heq]; simp), ?_⟩
        intro heq
        exact h as v' [] (by rw [heq])
      · intro ⟨hfront, hlast⟩ before v behind heq
        rcases List.eq_nil_or_concat behind with rfl | ⟨behind, b, rfl⟩
        · obtain ⟨rfl, hab⟩ := List.append_inj' heq rfl
          cases hab
          exact hlast rfl
        · rw [List.concat_eq_append, ← List.cons_append, ← List.append_assoc] at heq
          obtain ⟨rfl, -⟩ := List.append_inj' heq rfl
          exact hfront before v behind rfl
    have hpos : 0 < (as.map Prod.fst).count name ↔ name ∈ as.map Prod.fst := List.count_pos_iff
    rw [hsplit, ← hiff, counted_append, List.map_append, List.count_append]
    by_cases hn : n' = name
    · subst hn
      subst hname
      rw [counted, counted]
      simp only [if_true, List.map_cons, List.map_nil, List.count_singleton_self, true_implies, ← hpos]
      split
      · rename_i hempty
        rw [hempty]
        simp only [ne_eq, not_true_eq_false, imp_false]
        omega
      · rename_i hfull
        simp only [ne_eq, hfull, not_false_eq_true, implies_true, and_true]
        omega
    · have hsame : counted cellOf name cell (counted cellOf name cell 0 value as)
          (lastValue cellOf cell value as) [(n', v')] = counted cellOf name cell 0 value as := by
        cases n' with
        | short x => rfl
        | long n' =>
          rw [counted, counted]
          simp only [if_neg hn]
      have hnone : List.count name [n'] = 0 := by simp [hn]
      rw [hsame]
      simp only [List.map_cons, List.map_nil, hnone, Nat.add_zero, hn, false_implies, and_true]
      exact hle

/-- Of a short name no assignment is counted. -/
theorem counted_short (x : Char) (cell : Nat) (value : List Char) (as : List (Param × List Char)) :
    counted cellOf (.short x) cell occurrences value as = occurrences := by
  induction as generalizing value with
  | nil => rfl
  | cons a as ih =>
    obtain ⟨n, v⟩ := a
    cases n with
    | short x' => exact ih _
    | long n =>
      rw [counted]
      simp only [reduceCtorEq, if_false]
      exact ih _

end Meaning

end Origel.Coreutils
