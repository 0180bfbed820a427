import Origel.Coreutils.Spellings

/-! The spellings that the parser of arguments reads as what they mean, and what it counts of them. -/
namespace Origel.Coreutils

inductive Declaration where
  | flag (short long : List Char)
  | opt (short long : List Char)
  | optDefault (short long default : List Char)

def ArgParser.declare (p : ArgParser) : Declaration → ArgParser
  | .flag short long => p.addFlag short long
  | .opt short long => p.addOpt short long
  | .optDefault short long default => p.addOptDefault short long default

def declared (ds : List Declaration) : ArgParser := ds.foldl ArgParser.declare .new

namespace ArgParser

/-- The names of an item are declared as what it takes them for. -/
def Declares (p : ArgParser) : Item → Prop
  | .flags names => ∀ c ∈ names, p.isFlag (.short c)
  | .flag name => p.isFlag (.long name)
  | .short x _ | .attached x _ => (p.cellOf (.short x)).isSome
  | .equals name _ | .separate name _ => (p.cellOf (.long name)).isSome
  | .positional _ => True

/-- What is read of a line is what it means: the positional arguments in order and behind them the rest;
of an option the last value, under each of its names, and that it is found under one of them where it is
written; and the flags that are written. -/
structure Means (p : ArgParser) (line : List Item) (rest : Option (List (List Char))) : Prop where
  args : (p.parse (words line rest)).args = positionals line ++ rest.getD []
  value : ∀ name cell, p.cellOf name = some cell → (p.parse (words line rest)).getOpt name =
    some (lastValue p.cellOf cell (p.cells cell) (assigned line))
  option : ∀ cell, (∃ name, p.cellOf name = some cell ∧ (p.parse (words line rest)).found name) ↔
    ∃ name, p.cellOf name = some cell ∧ name ∈ written line
  flag : ∀ name, p.isFlag name → ((p.parse (words line rest)).found name ↔ name ∈ written line)

/-- Of an option the occurrences of its short name are none, and its long name is not written again where
its value is empty. -/
def Counted (p : ArgParser) (line : List Item) (name : Param) : Prop :=
  ∀ cell, p.cellOf name = some cell →
    match name with
    | .short _ => name ∉ written line
    | .long _ => ∀ before v behind, assigned line = before ++ (name, v) :: behind →
        name ∈ before.map Prod.fst → lastValue p.cellOf cell (p.cells cell) before ≠ []

/-- Nothing has been read yet. -/
structure Fresh (p : ArgParser) : Prop where
  args : p.args = []
  found : ∀ name, p.found name = false
  count : ∀ name, p.count name = 0
  named : p.params (.long []) = none
  allocated : ∀ name cell, p.cellOf name = some cell → cell < p.allocated
  long : ∀ n n' cell, p.cellOf (.long n) = some cell → p.cellOf (.long n') = some cell → n = n'

end ArgParser

section Declared

variable {p q : ArgParser} {name : Param} {cell : Nat} {value : Value}

/-- The names that are added are the two that are given. -/
theorem add_params (p : ArgParser) (short long : List Char) (value : Value) (name : Param) :
    (p.add short long value).params name = p.params name ∨
      (p.add short long value).params name = some value ∧ name ≠ .long [] ∧
        ∀ n, name = .long n → n = long := by
  have hshort : ∀ x, Function.update p.params (.short x) (some value) name = p.params name ∨
      Function.update p.params (.short x) (some value) name = some value ∧ name = .short x := by
    intro x
    by_cases hx : name = .short x
    · exact .inr ⟨by rw [hx, Function.update_self], hx⟩
    · exact .inl (Function.update_of_ne hx _ _)
  obtain ⟨params, hadd, hfirst⟩ : ∃ params : Param → Option Value, (p.add short long value).params =
      (if long = [] then params else Function.update params (.long long) (some value)) ∧
      (params name = p.params name ∨ params name = some value ∧ ∃ x, name = .short x) := by
    cases short with
    | nil => exact ⟨p.params, rfl, .inl rfl⟩
    | cons x _ =>
      refine ⟨_, rfl, ?_⟩
      rcases hshort x with hold | ⟨hvalue, hx⟩
      · exact .inl hold
      · exact .inr ⟨hvalue, x, hx⟩
  have hother : params name = p.params name ∨ params name = some value ∧ name ≠ .long [] ∧
      ∀ n, name = .long n → n = long := by
    rcases hfirst with hold | ⟨hvalue, x, rfl⟩
    · exact .inl hold
    · exact .inr ⟨hvalue, by rintro ⟨⟩, by rintro n ⟨⟩⟩
  rw [hadd]
  split
  · exact hother
  · rename_i hlong
    by_cases hn : name = .long long
    · subst hn
      refine .inr ⟨Function.update_self .., ?_, fun n hn => (Param.long.inj hn).symm⟩
      exact fun h => hlong (Param.long.inj h)
    · rw [Function.update_of_ne hn]
      exact hother

theorem fresh_new : ArgParser.new.Fresh := by
  refine ⟨rfl, fun _ => rfl, fun _ => rfl, rfl, ?_, ?_⟩ <;> nofun

/-- A name that is added has not been read. -/
theorem add_unread (h : p.Fresh) (short long : List Char)
    (hvalue : value = .flag false 0 ∨ ∃ cell, value = .opt cell 0 false) :
    (∀ name, (p.add short long value).found name = false) ∧
      (∀ name, (p.add short long value).count name = 0) ∧
      (p.add short long value).params (.long []) = none := by
  refine ⟨fun name => ?_, fun name => ?_, ?_⟩
  · rw [ArgParser.found]
    rcases add_params p short long value name with hold | ⟨hnew, -⟩
    · rw [hold]
      exact h.found name
    · rcases hvalue with rfl | ⟨cell, rfl⟩ <;> rw [hnew]
  · rw [ArgParser.count]
    rcases add_params p short long value name with hold | ⟨hnew, -⟩
    · rw [hold]
      exact h.count name
    · rcases hvalue with rfl | ⟨cell, rfl⟩ <;> rw [hnew]
  · rcases add_params p short long value (.long []) with hold | ⟨-, hne, -⟩
    · exact hold.trans h.named
    · exact absurd rfl hne

theorem addFlag_fresh (h : p.Fresh) (short long : List Char) : (p.addFlag short long).Fresh := by
  have hcell : ∀ name cell, (p.addFlag short long).cellOf name = some cell → p.cellOf name = some cell := by
    intro name cell hcell
    rw [ArgParser.cellOf, ArgParser.addFlag] at hcell
    rcases add_params p short long (.flag false 0) name with hold | ⟨hnew, -⟩
    · rwa [hold] at hcell
    · rw [hnew] at hcell
      cases hcell
  obtain ⟨hfound, hcount, hnamed⟩ := add_unread h short long (.inl rfl)
  refine ⟨h.args, hfound, hcount, hnamed, ?_, ?_⟩
  · exact fun name cell hc => h.allocated name cell (hcell name cell hc)
  · exact fun n n' cell hn hn' => h.long n n' cell (hcell _ _ hn) (hcell _ _ hn')

/-- The cell of an option that is added is a new one. -/
theorem addOptDefault_fresh (h : p.Fresh) (short long default : List Char) :
    (p.addOptDefault short long default).Fresh := by
  have hcell : ∀ name cell, (p.addOptDefault short long default).cellOf name = some cell →
      p.cellOf name = some cell ∨ cell = p.allocated ∧ ∀ n, name = .long n → n = long := by
    intro name cell hcell
    rw [ArgParser.cellOf, ArgParser.addOptDefault] at hcell
    rcases add_params p short long (.opt p.allocated 0 false) name with hold | ⟨hnew, -, hlong⟩
    · rw [hold] at hcell
      exact .inl hcell
    · rw [hnew] at hcell
      cases hcell
      exact .inr ⟨rfl, hlong⟩
  obtain ⟨hfound, hcount, hnamed⟩ := add_unread h short long (.inr ⟨p.allocated, rfl⟩)
  refine ⟨h.args, hfound, hcount, hnamed, ?_, ?_⟩
  · intro name cell hc
    rcases hcell name cell hc with hold | ⟨rfl, -⟩
    · exact Nat.lt_succ_of_lt (h.allocated name cell hold)
    · exact Nat.lt_succ_self _
  · intro n n' cell hn hn'
    rcases hcell _ _ hn with hold | ⟨rfl, hlong⟩
    · rcases hcell _ _ hn' with hold' | ⟨rfl, -⟩
      · exact h.long n n' cell hold hold'
      · exact absurd (h.allocated _ _ hold) (Nat.lt_irrefl _)
    · rcases hcell _ _ hn' with hold' | ⟨-, hlong'⟩
      · exact absurd (h.allocated _ _ hold') (Nat.lt_irrefl _)
      · rw [hlong n rfl, hlong' n' rfl]

theorem declared_fresh (ds : List Declaration) : (declared ds).Fresh := by
  have hall : ∀ p : ArgParser, p.Fresh → (ds.foldl ArgParser.declare p).Fresh := by
    induction ds with
    | nil => exact fun _ h => h
    | cons d ds ih =>
      intro p h
      apply ih
      cases d with
      | flag short long => exact addFlag_fresh h short long
      | opt short long => exact addOptDefault_fresh h short long []
      | optDefault short long default => exact addOptDefault_fresh h short long default
  exact hall .new fresh_new

end Declared

section Lines

variable {p q : ArgParser} {line : List Item} {item : Item} {name : Param} {cell : Nat}
  {rest : Option (List (List Char))}

theorem found_after (hcell : p.cellOf name = some cell) :
    (p.after line).found name ↔ p.found name ∨ name ∈ written line := by
  obtain ⟨occurrences, was, hentry⟩ := option_entry hcell
  simp [ArgParser.found, ArgParser.after, hentry, ArgParser.entry]

theorem getOpt_of_cell (hcell : p.cellOf name = some cell) : p.getOpt name = some (p.cells cell) := by
  obtain ⟨occurrences, was, hentry⟩ := option_entry hcell
  rw [ArgParser.getOpt, hentry]

theorem means_of_spells (hp : p.Fresh) (h : ∀ item ∈ line, p.Spells item)
    (rest : Option (List (List Char))) : p.Means line rest := by
  have hparse := parse_line h rest
  constructor
  · rw [hparse, hp.args]
    rfl
  · intro name cell hcell
    rw [hparse]
    exact getOpt_of_cell (p := p.after line) (by rwa [cellOf_after])
  · intro cell
    rw [hparse]
    apply exists_congr
    intro name
    apply and_congr_right
    intro hcell
    refine (found_after hcell).trans ?_
    rw [hp.found]
    exact ⟨fun h => h.resolve_left Bool.false_ne_true, .inr⟩
  · intro name hflag
    rw [hparse]
    obtain ⟨flagged, occurrences, hentry⟩ := flag_entry hflag
    have hfound := hp.found name
    rw [ArgParser.found, hentry] at hfound
    change flagged = false at hfound
    subst hfound
    have hafter : (p.after line).found name = (written line).contains name := by
      simp [ArgParser.found, ArgParser.after, hentry, ArgParser.entry]
    change (p.after line).found name = true ↔ _
    rw [hafter, List.contains_iff_mem]

/-- What is written of the name of an option is what is assigned to it. -/
theorem count_assigned (h : ∀ item ∈ line, p.Spells item) (hcell : p.cellOf name = some cell) :
    (written line).count name = ((assigned line).map Prod.fst).count name := by
  have hflag : ∀ n, p.isFlag n → n ≠ name := by
    intro n hn heq
    obtain ⟨flagged, occurrences, hentry⟩ := flag_entry hn
    rw [heq] at hentry
    rw [ArgParser.cellOf, hentry] at hcell
    cases hcell
  induction line with
  | nil => rfl
  | cons item line ih =>
    have hrest := ih fun item' hitem => h item' (List.mem_cons_of_mem item hitem)
    have hspells := h item List.mem_cons_self
    change (item.written ++ written line).count name =
      ((item.assigned ++ assigned line).map Prod.fst).count name
    rw [List.count_append, List.map_append, List.count_append, hrest]
    apply congrArg (· + _)
    cases item with
    | flags names =>
      apply List.count_eq_zero_of_not_mem
      intro hmem
      obtain ⟨c, hc, heq⟩ := List.mem_map.mp hmem
      exact hflag _ (hspells.1 c hc) heq
    | flag n =>
      apply List.count_eq_zero_of_not_mem
      intro hmem
      exact hflag _ hspells.1 (List.mem_singleton.mp hmem).symm
    | short x v => rfl
    | attached x v => rfl
    | equals n v => rfl
    | separate n v => rfl
    | positional arg => rfl

theorem count_iff (hp : p.Fresh) (h : ∀ item ∈ line, p.Spells item)
    (hname : p.isFlag name ∨ (p.cellOf name).isSome) :
    (p.parse (words line rest)).count name = (written line).count name ↔ p.Counted line name := by
  have hzero := hp.count name
  rw [parse_line h rest]
  change (p.after line).count name = _ ↔ _
  rcases hname with hflag | hopt
  · obtain ⟨flagged, occurrences, hentry⟩ := flag_entry hflag
    rw [ArgParser.count, hentry] at hzero
    change occurrences = 0 at hzero
    subst hzero
    have hcount : (p.after line).count name = (written line).count name := by
      simp [ArgParser.count, ArgParser.after, hentry, ArgParser.entry]
    have hnone : p.cellOf name = none := by rw [ArgParser.cellOf, hentry]
    refine iff_of_true hcount fun cell hcell => ?_
    rw [hnone] at hcell
    cases hcell
  · obtain ⟨cell, hcell⟩ := Option.isSome_iff_exists.mp hopt
    obtain ⟨occurrences, was, hentry⟩ := option_entry hcell
    rw [ArgParser.count, hentry] at hzero
    change occurrences = 0 at hzero
    subst hzero
    have hcount : (p.after line).count name =
        counted p.cellOf name cell 0 (p.cells cell) (assigned line) := by
      simp [ArgParser.count, ArgParser.after, hentry, ArgParser.entry]
    rw [hcount]
    cases name with
    | short x =>
      rw [counted_short, eq_comm, List.count_eq_zero]
      exact ⟨fun hnone cell' _ => hnone, fun hc => hc cell hcell⟩
    | long n =>
      rw [count_assigned h hcell, (counted_le_and_eq_iff rfl).2]
      constructor
      · intro hfull cell' hcell'
        cases hcell.symm.trans hcell'
        exact hfull
      · exact fun hc => hc cell hcell

end Lines

section Words

variable {p : ArgParser} {name : Param} {cell : Nat} {value : Value} {v arg : List Char}

theorem cellOf_congr {q : ArgParser} (h : q.params name = p.params name) :
    q.cellOf name = p.cellOf name ∧ q.found name = p.found name := by
  rw [ArgParser.cellOf, ArgParser.cellOf, ArgParser.found, ArgParser.found, h]
  exact ⟨rfl, rfl⟩

/-- What is read changes no name from a flag to an option, and no cell of an option. -/
theorem set_cellOf {entry : Value} (h : p.params name = some entry)
    (hsame : ∀ cell, (∃ occurrences found, entry = .opt cell occurrences found) ↔
      ∃ occurrences found, value = .opt cell occurrences found) :
    (p.set name value).cellOf = p.cellOf := by
  funext n
  by_cases hn : n = name
  · subst hn
    have hself : (p.set n value).params n = some value := Function.update_self ..
    rw [ArgParser.cellOf, ArgParser.cellOf, hself, h]
    cases entry with
    | flag flagged occurrences =>
      cases value with
      | flag => rfl
      | opt cell occurrences found =>
        obtain ⟨_, _, heq⟩ := (hsame cell).mpr ⟨_, _, rfl⟩
        cases heq
    | opt cell occurrences found =>
      obtain ⟨_, _, rfl⟩ := (hsame cell).mp ⟨_, _, rfl⟩
      rfl
  · exact (cellOf_congr (Function.update_of_ne hn _ _)).1

theorem takeWhile_of_not_mem (h : '=' ∉ arg) : arg.takeWhile (· ≠ '=') = arg :=
  List.takeWhile_eq_self_iff.mpr fun _ hc => decide_eq_true fun heq => h (heq ▸ hc)

theorem equals_not_mem_key (arg : List Char) : '=' ∉ arg.takeWhile (· ≠ '=') := by
  intro h
  have hne := List.mem_takeWhile_imp h
  exact of_decide_eq_true hne rfl

/-- Behind two dashes only the name in front of the first `=` is read. -/
theorem readLong_params (p : ArgParser) (h : name ≠ .long (arg.takeWhile (· ≠ '='))) :
    (p.readLong arg).params name = p.params name := by
  unfold ArgParser.readLong
  dsimp only
  split
  · split
    · exact Function.update_of_ne h _ _
    · rfl
  · rename_i hequals
    rw [takeWhile_of_not_mem hequals] at h
    split
    · exact Function.update_of_ne h _ _
    · exact Function.update_of_ne h _ _
    · rfl

theorem set_flag_cellOf {flagged : Bool} {occurrences : Nat}
    (h : p.params name = some (.flag flagged occurrences)) :
    (p.set name (.flag true (occurrences + 1))).cellOf = p.cellOf :=
  set_cellOf h fun _ => ⟨nofun, nofun⟩

theorem set_opt_cellOf {occurrences : Nat} {was : Bool} (h : p.params name = some (.opt cell occurrences was))
    (occurrences' : Nat) : (p.set name (.opt cell occurrences' true)).cellOf = p.cellOf := by
  refine set_cellOf h fun c => ⟨?_, ?_⟩
  · rintro ⟨_, _, heq⟩
    cases heq
    exact ⟨_, _, rfl⟩
  · rintro ⟨_, _, heq⟩
    cases heq
    exact ⟨_, _, rfl⟩

theorem readLong_cellOf (p : ArgParser) (arg : List Char) : (p.readLong arg).cellOf = p.cellOf := by
  unfold ArgParser.readLong
  dsimp only
  split
  · split
    · exact set_opt_cellOf ‹_› _
    · rfl
  · split
    · exact set_flag_cellOf ‹_›
    · exact set_opt_cellOf ‹_› _
    · rfl

theorem readLong_args (p : ArgParser) (arg : List Char) : (p.readLong arg).args = p.args := by
  unfold ArgParser.readLong
  dsimp only
  split <;> split <;> rfl

theorem readLong_cells (p : ArgParser) (arg : List Char) (cell : Nat) :
    (p.readLong arg).cells cell = p.cells cell ∨
      '=' ∈ arg ∧ ((p.readLong arg).cells cell).length < arg.length := by
  unfold ArgParser.readLong
  dsimp only
  split
  · rename_i hequals
    split
    · rename_i cell' occurrences was hentry
      by_cases hcell : cell = cell'
      · right
        refine ⟨hequals, ?_⟩
        have hshorter : (arg.dropWhile (· ≠ '=')).tail.length < arg.length := by
          have hle := (List.dropWhile_suffix (l := arg) (· ≠ '=')).length_le
          have hpos := List.length_pos_of_mem hequals
          rw [List.length_tail]
          omega
        rw [hcell]
        change (Function.update p.cells cell' _ cell').length < _
        rwa [Function.update_self]
      · exact .inl (Function.update_of_ne hcell _ _)
    · exact .inl rfl
  · split <;> exact .inl rfl

theorem readShort_args (p : ArgParser) (chars : List Char) : (p.readShort chars).1.args = p.args := by
  induction chars generalizing p with
  | nil => rfl
  | cons ch rest ih =>
    rw [ArgParser.readShort]
    split
    · exact ih _
    · split <;> rfl
    · exact ih _

theorem readShort_cellOf (p : ArgParser) (chars : List Char) :
    (p.readShort chars).1.cellOf = p.cellOf ∧
      ∀ ch cell occurrences, (p.readShort chars).2 = some (ch, cell, occurrences) →
        ∃ was, (p.readShort chars).1.params (.short ch) = some (.opt cell occurrences was) := by
  induction chars generalizing p with
  | nil =>
    refine ⟨rfl, fun ch cell occurrences hawaits => ?_⟩
    cases hawaits
  | cons ch rest ih =>
    rw [ArgParser.readShort]
    split
    · rename_i flagged occurrences hentry
      obtain ⟨hsame, hawaits⟩ := ih (p.set (.short ch) (.flag true (occurrences + 1)))
      exact ⟨hsame.trans (set_flag_cellOf hentry), hawaits⟩
    · rename_i cell occurrences was hentry
      split
      · refine ⟨set_opt_cellOf (p := p.store cell rest) hentry _, fun ch' cell' occurrences' hawaits => ?_⟩
        cases hawaits
      · refine ⟨rfl, fun ch' cell' occurrences' hawaits => ?_⟩
        cases hawaits
        exact ⟨was, hentry⟩
    · exact ih (p.reject (.short ch))

theorem parse_cellOf (p : ArgParser) (args : List (List Char)) : (p.parse args).cellOf = p.cellOf := by
  fun_induction ArgParser.parse p args with
  | case1 p => rfl
  | case2 p args => rfl
  | case3 p args arg _ ih => exact ih.trans (readLong_cellOf p arg)
  | case4 p args chars _ _ q hread ih =>
    have hsame := (readShort_cellOf p chars).1
    rw [hread] at hsame
    exact ih.trans hsame
  | case5 p chars _ _ q ch cell occurrences hread =>
    have hsame := (readShort_cellOf p chars).1
    rw [hread] at hsame
    exact hsame
  | case6 p chars _ _ q ch cell occurrences hread a args ih =>
    obtain ⟨hsame, hawaits⟩ := readShort_cellOf p chars
    rw [hread] at hsame hawaits
    obtain ⟨was, hentry⟩ := hawaits ch cell occurrences rfl
    exact ih.trans ((set_opt_cellOf (p := q.store cell a) hentry occurrences).trans hsame)
  | case7 p arg args _ _ _ ih => exact ih

/-- Behind one dash an option is found with a value that is shorter than what is read. -/
theorem readShort_left (p : ArgParser) (chars : List Char) :
    (∀ cell, (p.readShort chars).1.cells cell = p.cells cell ∨
      ((p.readShort chars).1.cells cell).length < chars.length) ∧
    ∀ name cell, p.cellOf name = some cell → (p.readShort chars).1.found name →
      p.found name ∨ ((p.readShort chars).1.cells cell).length < chars.length := by
  induction chars generalizing p with
  | nil => exact ⟨fun _ => .inl rfl, fun _ _ _ h => .inl h⟩
  | cons ch rest ih =>
    have hlonger : rest.length < (ch :: rest).length := Nat.lt_succ_self _
    rw [ArgParser.readShort]
    split
    · rename_i flagged occurrences hentry
      obtain ⟨hcells, hfound⟩ := ih (p.set (.short ch) (.flag true (occurrences + 1)))
      refine ⟨fun cell => (hcells cell).imp_right hlonger.trans', fun name cell hcell hq => ?_⟩
      have hne : name ≠ .short ch := by
        intro heq
        rw [heq, ArgParser.cellOf, hentry] at hcell
        cases hcell
      obtain ⟨hsame, hsame'⟩ := cellOf_congr (p := p)
        (q := p.set (.short ch) (.flag true (occurrences + 1))) (Function.update_of_ne hne _ _)
      rw [← hsame'] at *
      exact (hfound name cell (hsame.trans hcell) hq).imp_right hlonger.trans'
    · rename_i cell' occurrences was hentry
      split
      · refine ⟨fun cell => ?_, fun name cell hcell hq => ?_⟩
        · by_cases hc : cell = cell'
          · right
            rw [hc]
            change (Function.update p.cells cell' rest cell').length < _
            rwa [Function.update_self]
          · exact .inl (Function.update_of_ne hc _ _)
        · by_cases hne : name = .short ch
          · right
            rw [hne, ArgParser.cellOf, hentry] at hcell
            cases hcell
            change (Function.update p.cells cell' rest cell').length < _
            rwa [Function.update_self]
          · left
            obtain ⟨-, hsame⟩ := cellOf_congr (p := p)
              (q := (p.store cell' rest).set (.short ch) (.opt cell' occurrences true))
              (Function.update_of_ne hne _ _)
            rwa [← hsame]
      · exact ⟨fun _ => .inl rfl, fun _ _ _ h => .inl h⟩
    · obtain ⟨hcells, hfound⟩ := ih (p.reject (.short ch))
      exact ⟨fun cell => (hcells cell).imp_right hlonger.trans',
        fun name cell hcell hq => (hfound name cell hcell hq).imp_right hlonger.trans'⟩

/-- An argument that begins with a dash, at the end of the others -/
theorem parse_dash (p : ArgParser) (cs : List Char) :
    (p.parse ['-' :: cs]).args = p.args ∧
    (∀ cell, (p.parse ['-' :: cs]).cells cell = p.cells cell ∨
      ((p.parse ['-' :: cs]).cells cell).length < cs.length + 1) ∧
    ∀ name cell, p.cellOf name = some cell → (p.parse ['-' :: cs]).found name →
      p.found name ∨ ((p.parse ['-' :: cs]).cells cell).length < cs.length + 1 ∨
        ∃ n, name = .long n ∧ '=' ∉ n := by
  by_cases hdash : cs.head? = some '-'
  · obtain ⟨arg, rfl⟩ : ∃ arg, cs = '-' :: arg := by
      cases cs with
      | nil => cases hdash
      | cons c arg =>
        cases hdash
        exact ⟨arg, rfl⟩
    by_cases harg : arg = []
    · subst harg
      exact ⟨List.append_nil _, fun _ => .inl rfl, fun _ _ _ h => .inl h⟩
    · rw [parse_long harg]
      change (p.readLong arg).args = _ ∧ (∀ cell, (p.readLong arg).cells cell = _ ∨ _) ∧
        ∀ name cell, _ → (p.readLong arg).found name = true → _
      refine ⟨readLong_args p arg, fun cell => ?_, fun name cell hcell hfound => ?_⟩
      · exact (readLong_cells p arg cell).imp_right fun h =>
          h.2.trans (Nat.lt_succ_of_lt (Nat.lt_succ_self _))
      · by_cases hkey : name = .long (arg.takeWhile (· ≠ '='))
        · exact .inr (.inr ⟨_, hkey, equals_not_mem_key arg⟩)
        · left
          rwa [(cellOf_congr (readLong_params p hkey)).2] at hfound
  · obtain ⟨hcells, hfound⟩ := readShort_left p cs
    have hargs := readShort_args p cs
    rw [parse_short hdash]
    split
    · rename_i q hread
      rw [hread] at hcells hfound hargs
      exact ⟨hargs, fun cell => (hcells cell).imp_right Nat.lt_succ_of_lt,
        fun name cell hcell hq => (hfound name cell hcell hq).imp_right fun h => .inl (Nat.lt_succ_of_lt h)⟩
    · rename_i q ch cell' occurrences hread
      rw [hread] at hcells hfound hargs
      have hstore : ∀ cell, (q.store cell' []).cells cell = q.cells cell ∨
          ((q.store cell' []).cells cell).length < cs.length + 1 := by
        intro cell
        by_cases hc : cell = cell'
        · right
          rw [hc]
          change (Function.update q.cells cell' [] cell').length < _
          rw [Function.update_self]
          exact Nat.zero_lt_succ _
        · exact .inl (Function.update_of_ne hc _ _)
      refine ⟨hargs, fun cell => ?_, fun name cell hcell hq => ?_⟩
      · rcases hstore cell with hsame | hshorter
        · change (q.store cell' []).cells cell = _ ∨ ((q.store cell' []).cells cell).length < _
          rw [hsame]
          exact (hcells cell).imp_right Nat.lt_succ_of_lt
        · exact .inr hshorter
      · rcases hfound name cell hcell hq with hwas | hshorter
        · exact .inl hwas
        · rcases hstore cell with hsame | hshorter'
          · right
            left
            change ((q.store cell' []).cells cell).length < _
            rw [hsame]
            exact Nat.lt_succ_of_lt hshorter
          · exact .inr (.inl hshorter')

end Words

section Exact

variable {p : ArgParser} {item : Item} {names n v : List Char} {x : Char} {cell : Nat} {name : Param}

theorem words_single (item : Item) : words [item] none = item.words := by
  simp [words]

/-- Of an argument behind two dashes only the name is found. -/
theorem parse_dashes (p : ArgParser) {arg : List Char} (h : name ≠ .long (arg.takeWhile (· ≠ '='))) :
    (p.parse ['-' :: '-' :: arg]).params name = p.params name := by
  by_cases harg : arg = []
  · rw [harg]
    rfl
  · rw [parse_long harg]
    exact readLong_params p h

theorem not_found_dashes (hp : p.Fresh) {arg : List Char} (h : name ≠ .long (arg.takeWhile (· ≠ '='))) :
    ¬ (p.parse ['-' :: '-' :: arg]).found name := by
  rw [(cellOf_congr (parse_dashes p h)).2, hp.found]
  exact Bool.false_ne_true

/-- An option with an `=` in its name is not the one that is read. -/
theorem ne_key_of_mem (h : '=' ∈ n) (arg : List Char) : n ≠ arg.takeWhile (· ≠ '=') :=
  fun heq => equals_not_mem_key arg (heq ▸ h)

theorem flags_head (hp : p.Fresh) (hd : p.Declares (.flags names)) (hm : p.Means [.flags names] none) :
    names.head? ≠ some '-' := by
  intro hhead
  cases names with
  | nil => cases hhead
  | cons c cs =>
    cases hhead
    have hflag := hm.flag (.short '-') (hd '-' List.mem_cons_self)
    rw [words_single] at hflag
    have hfound : (p.parse ['-' :: '-' :: cs]).found (.short '-') := hflag.mpr List.mem_cons_self
    exact not_found_dashes hp (fun h => Param.noConfusion h) hfound

theorem flag_name (hp : p.Fresh) (hd : p.Declares (.flag n)) (hm : p.Means [.flag n] none) :
    n ≠ [] ∧ '=' ∉ n := by
  constructor
  · intro hempty
    obtain ⟨flagged, occurrences, hentry⟩ := flag_entry hd
    rw [hempty, hp.named] at hentry
    cases hentry
  · intro hequals
    have hflag := hm.flag (.long n) hd
    rw [words_single] at hflag
    exact not_found_dashes hp (fun h => ne_key_of_mem hequals n (Param.long.inj h))
      (hflag.mpr List.mem_cons_self)

theorem short_name (hp : p.Fresh) (hm : p.Means [.short x v] none) : x ≠ '-' := by
  rintro rfl
  have hargs := hm.args
  rw [words_single] at hargs
  change p.args ++ [v] = [] at hargs
  rw [hp.args] at hargs
  cases hargs

/-- The option is found under a name that is read, which is the only long one that it has. -/
theorem found_name (hm : p.Means [item] none) (hwritten : name ∈ item.written)
    (hcell : p.cellOf name = some cell) :
    ∃ name', p.cellOf name' = some cell ∧ (p.parse item.words).found name' := by
  have hoption := (hm.option cell).mpr ⟨name, hcell, by simpa [written] using hwritten⟩
  rwa [words_single] at hoption

theorem equals_name (hp : p.Fresh) (hd : p.Declares (.equals n v)) (hm : p.Means [.equals n v] none) :
    '=' ∉ n := by
  intro hequals
  obtain ⟨cell, hcell⟩ := Option.isSome_iff_exists.mp hd
  obtain ⟨name, hname, hfound⟩ := found_name hm List.mem_cons_self hcell
  refine not_found_dashes hp (fun hkey => ?_) hfound
  rw [hkey] at hname
  exact ne_key_of_mem hequals (n ++ '=' :: v) (hp.long _ _ _ hcell hname)

theorem value_of_means {line : List Item} {rest : Option (List (List Char))} (hm : p.Means line rest)
    (hname : p.cellOf name = some cell) :
    (p.parse (words line rest)).cells cell = lastValue p.cellOf cell (p.cells cell) (assigned line) := by
  have hvalue := hm.value name cell hname
  rw [getOpt_of_cell (by rwa [parse_cellOf])] at hvalue
  exact Option.some.inj hvalue

/-- After another value has been assigned, the option has that one until a new one is read. -/
theorem value_behind {w : List Char} (hequals : '=' ∉ n) (hcell : p.cellOf (.long n) = some cell)
    (hm : p.Means [.equals n w, item] none) (hassigned : item.assigned = [(name, v)])
    (hname : p.cellOf name = some cell) :
    ((p.after [.equals n w]).parse item.words).cells cell = v ∧
      (p.after [.equals n w]).cells cell = w := by
  have hspells : ∀ i ∈ [Item.equals n w], p.Spells i := by
    intro i hi
    cases List.mem_singleton.mp hi
    exact ⟨by rw [hcell]; rfl, hequals⟩
  have hvalue := value_of_means hm hname
  have hwords : words [.equals n w, item] none = [Item.equals n w].flatMap Item.words ++ item.words := by
    simp [words]
  have hboth : assigned [.equals n w, item] = [(.long n, w), (name, v)] := by
    change [(Param.long n, w)] ++ (item.assigned ++ []) = _
    rw [hassigned]
    rfl
  rw [hwords, parse_items hspells, hboth, lastValue, lastValue, if_pos hname] at hvalue
  refine ⟨hvalue, ?_⟩
  change (if p.cellOf (.long n) = some cell then w else _) = w
  rw [if_pos hcell]

/-- Another value than one that is given, and longer -/
theorem ne_of_longer {w : List Char} (h : w = v ++ ['a'] ∨ w.length < v.length) : w ≠ v := by
  rintro rfl
  rcases h with h | h
  · have hlength := congrArg List.length h
    rw [List.length_append] at hlength
    exact absurd hlength (by simp)
  · exact Nat.lt_irrefl _ h

theorem attached_name (hp : p.Fresh) (hcell : p.cellOf (.short x) = some cell)
    (halone : p.Means [.attached x v] none) (hend : p.Means [.attached x v] (some []))
    (hbehind : ∀ n w, '=' ∉ n → p.cellOf (.long n) = some cell →
      p.Means [.equals n w, .attached x v] none) : x ≠ '-' ∧ v ≠ [] := by
  have hx : x ≠ '-' := by
    rintro rfl
    obtain ⟨name, hname, hfound⟩ := found_name halone List.mem_cons_self hcell
    have hkey : name = .long (v.takeWhile (· ≠ '=')) := by
      by_contra hkey
      exact not_found_dashes hp hkey hfound
    rw [hkey] at hname
    have hequals := equals_not_mem_key v
    obtain ⟨hv, hw⟩ := value_behind (w := v ++ ['a']) hequals hname (hbehind _ _ hequals hname) rfl hcell
    generalize p.after [.equals _ _] = q at hv hw
    change (q.parse ['-' :: '-' :: v]).cells cell = v at hv
    refine ne_of_longer ?_ hv
    by_cases hempty : v = []
    · rw [hempty] at hw ⊢
      exact .inl hw
    · rw [parse_long hempty, ← hw]
      exact (readLong_cells q v cell).imp_right And.right
  refine ⟨hx, ?_⟩
  rintro rfl
  obtain ⟨occurrences, was, hentry⟩ := option_entry hcell
  have hvalue := value_of_means hend hcell
  change (p.parse (['-', x] :: [['-', '-']])).cells cell = if p.cellOf (.short x) = some cell then [] else _
    at hvalue
  rw [if_pos hcell, parse_short (by simpa using hx), ArgParser.readShort, hentry] at hvalue
  change Function.update p.cells cell ['-', '-'] cell = [] at hvalue
  rw [Function.update_self] at hvalue
  cases hvalue

theorem not_separate (hp : p.Fresh) (hcell : p.cellOf (.long n) = some cell)
    (halone : p.Means [.separate n v] none)
    (hbehind : ∀ w, '=' ∉ n → p.Means [.equals n w, .separate n v] none) : False := by
  have hne : n ≠ [] := by
    rintro rfl
    obtain ⟨occurrences, was, hentry⟩ := option_entry hcell
    rw [hp.named] at hentry
    cases hentry
  by_cases hdash : v.head? = some '-'
  · obtain ⟨cs, rfl⟩ : ∃ cs, v = '-' :: cs := by
      cases v with
      | nil => cases hdash
      | cons c cs =>
        cases hdash
        exact ⟨cs, rfl⟩
    by_cases hequals : '=' ∈ n
    · obtain ⟨name, hname, hfound⟩ := found_name halone List.mem_cons_self hcell
      have hvalue := value_of_means halone hcell
      rw [words_single] at hvalue
      change (p.parse (('-' :: '-' :: n) :: [_])).found name at hfound
      change (p.parse (('-' :: '-' :: n) :: [_])).cells cell =
        if p.cellOf (.long n) = some cell then '-' :: cs else _ at hvalue
      rw [parse_long hne] at hfound hvalue
      rw [if_pos hcell] at hvalue
      obtain ⟨-, -, hdashed⟩ := parse_dash (p.readLong n) cs
      rcases hdashed name cell (by rwa [readLong_cellOf]) hfound with hwas | hshorter | ⟨n', rfl, hn'⟩
      · have hother : name ≠ .long (n.takeWhile (· ≠ '=')) := by
          rintro rfl
          exact ne_key_of_mem hequals n (hp.long _ _ _ hcell hname)
        rw [(cellOf_congr (readLong_params p hother)).2, hp.found] at hwas
        cases hwas
      · rw [hvalue] at hshorter
        exact Nat.lt_irrefl _ hshorter
      · exact hn' (hp.long _ _ _ hcell hname ▸ hequals)
    · obtain ⟨hv, hw⟩ := value_behind (w := '-' :: cs ++ ['a']) hequals hcell (hbehind _ hequals) rfl hcell
      generalize p.after [.equals _ _] = q at hv hw
      change (q.parse (('-' :: '-' :: n) :: [_])).cells cell = _ at hv
      rw [parse_long hne] at hv
      refine ne_of_longer ?_ hv
      obtain ⟨-, hcells, -⟩ := parse_dash (q.readLong n) cs
      rcases hcells cell with hsame | hshorter
      · left
        rw [hsame, ← hw]
        exact (readLong_cells q n cell).resolve_right fun h => hequals h.1
      · exact .inr hshorter
  · have hargs := halone.args
    rw [words_single] at hargs
    change (p.parse (('-' :: '-' :: n) :: [v])).args = [] at hargs
    rw [parse_long hne, parse_positional hdash] at hargs
    change (p.readLong n).args ++ [v] = [] at hargs
    exact absurd (List.append_eq_nil_iff.mp hargs).2 (List.cons_ne_nil _ _)

theorem positional_head (hp : p.Fresh) {arg : List Char} (hm : p.Means [.positional arg] none) :
    arg.head? ≠ some '-' := by
  intro hhead
  obtain ⟨cs, rfl⟩ : ∃ cs, arg = '-' :: cs := by
    cases arg with
    | nil => cases hhead
    | cons c cs =>
      cases hhead
      exact ⟨cs, rfl⟩
  have hargs := hm.args
  rw [words_single] at hargs
  change (p.parse ['-' :: cs]).args = ['-' :: cs] at hargs
  rw [(parse_dash p cs).1, hp.args] at hargs
  cases hargs

/-- Among others that are read as what they mean an item is so too only where it is spelled so. -/
theorem spells_of_means (hp : p.Fresh) (hd : p.Declares item)
    (hm : ∀ before after rest, (∀ i ∈ before, p.Spells i) → (∀ i ∈ after, p.Spells i) →
      p.Means (before ++ item :: after) rest) : p.Spells item := by
  have halone : ∀ rest, p.Means [item] rest := fun rest => hm [] [] rest nofun nofun
  have hbehind : ∀ n w cell, '=' ∉ n → p.cellOf (.long n) = some cell → p.Means [.equals n w, item] none := by
    intro n w cell hequals hcell
    refine hm [.equals n w] [] none (fun i hi => ?_) nofun
    cases List.mem_singleton.mp hi
    exact ⟨by rw [hcell]; rfl, hequals⟩
  cases item with
  | flags names => exact ⟨hd, flags_head hp hd (halone none)⟩
  | flag n => exact ⟨hd, flag_name hp hd (halone none)⟩
  | short x v => exact ⟨hd, short_name hp (halone none)⟩
  | attached x v =>
    obtain ⟨cell, hcell⟩ := Option.isSome_iff_exists.mp hd
    exact ⟨hd, attached_name hp hcell (halone none) (halone (some [])) fun n w => hbehind n w cell⟩
  | equals n v => exact ⟨hd, equals_name hp hd (halone none)⟩
  | separate n v =>
    obtain ⟨cell, hcell⟩ := Option.isSome_iff_exists.mp hd
    exact not_separate hp hcell (halone none) fun w hequals => hbehind n w cell hequals hcell
  | positional arg => exact positional_head hp (halone none)

end Exact

/-- With whatever flags and options are declared: among others that are read as what they mean, an item is
so too, whatever they are, where it is spelled so, which `--name v` never is; every flag is counted, and an
option as far as it is written by its long name and has a value then; and flags are read the same in
whatever groups and places they are written. -/
theorem spellings_iff (ds : List Declaration) :
    (∀ item, (declared ds).Declares item →
      ((∀ before after rest, (∀ i ∈ before, (declared ds).Spells i) →
        (∀ i ∈ after, (declared ds).Spells i) → (declared ds).Means (before ++ item :: after) rest) ↔
        (declared ds).Spells item)) ∧
    (∀ line rest name, (∀ i ∈ line, (declared ds).Spells i) →
      ((declared ds).isFlag name ∨ ((declared ds).cellOf name).isSome) →
      (((declared ds).parse (words line rest)).count name = (written line).count name ↔
        (declared ds).Counted line name)) ∧
    ∀ line line' rest, (∀ i ∈ line, (declared ds).Spells i) → (∀ i ∈ line', (declared ds).Spells i) →
      line.filter (! ·.isFlags) = line'.filter (! ·.isFlags) →
      (written (line.filter Item.isFlags)).Perm (written (line'.filter Item.isFlags)) →
      (declared ds).parse (words line rest) = (declared ds).parse (words line' rest) := by
  have hfresh := declared_fresh ds
  refine ⟨fun item hd => ⟨spells_of_means hfresh hd, fun hspells before after rest hbefore hafter => ?_⟩,
    fun line rest name h hname => count_iff hfresh h hname, fun line line' rest h h' hothers hflags => ?_⟩
  · apply means_of_spells hfresh
    intro i hi
    rcases List.mem_append.mp hi with hi | hi
    · exact hbefore i hi
    · rcases List.mem_cons.mp hi with rfl | hi
      · exact hspells
      · exact hafter i hi
  · have hpositionals : positionals line = positionals line' := by
      rw [← positionals_others line, hothers, positionals_others]
    rw [parse_line h, parse_line h', after_flags hothers hflags, hpositionals]

/-- A value that is written behind a long name is a positional argument; the short name is not counted, and
the long one is counted from one again behind an empty value. -/
theorem long_value_left :
    ¬ (declared [.opt ['x'] ['l']]).Means [.separate ['l'] ['v']] none ∧
    ((declared [.opt ['x'] ['l']]).parse (words [.short 'x' ['v']] none)).count (.short 'x') = 0 ∧
    ((declared [.opt ['x'] ['l']]).parse
      (words [.equals ['l'] [], .equals ['l'] ['v']] none)).count (.long ['l']) = 1 := by
  refine ⟨fun h => ?_, by decide, by decide⟩
  exact absurd h.args (by decide)

end Origel.Coreutils
