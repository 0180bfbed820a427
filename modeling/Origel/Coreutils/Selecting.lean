import Origel.Coreutils.Ranges

/-! Which values are selected by a list of numbers and number ranges. -/
namespace Origel.Coreutils

/-- A number in decimal digits -/
structure Numeral where
  digits : List Char
  ne_nil : digits ≠ []
  decimal : ∀ c ∈ digits, '0' ≤ c ∧ c ≤ '9'

def Numeral.value (n : Numeral) : Nat := n.digits.foldl (fun n c => 10 * n + (c.toNat - 48)) 0

/-- The items `N`, `M-N`, `-N` and `M-` -/
inductive ListItem where
  | number (n : Numeral)
  | range (m n : Numeral)
  | upTo (n : Numeral)
  | onwards (m : Numeral)

namespace ListItem

def text : ListItem → List Char
  | number n => n.digits
  | range m n => m.digits ++ '-' :: n.digits
  | upTo n => '-' :: n.digits
  | onwards m => m.digits ++ ['-']

/-- The positions that an item is for, from one on -/
def Covers (p : Nat) : ListItem → Prop
  | number n => p = n.value
  | range m n => m.value ≤ p ∧ p ≤ n.value
  | upTo n => p ≤ n.value
  | onwards m => m.value ≤ p

/-- Those in front of the last number of an item -/
def Reaches (p : Nat) : ListItem → Prop
  | number n => p ≤ n.value
  | range _ n => p ≤ n.value
  | upTo n => p ≤ n.value
  | onwards m => p ≤ m.value

/-- The positions of an item without those behind its last number -/
def Starts (p : Nat) : ListItem → Prop
  | onwards m => p = m.value
  | item => item.Covers p

def Positive : ListItem → Prop
  | number n => n.value ≠ 0
  | range m n => m.value ≠ 0 ∧ n.value ≠ 0
  | upTo n => n.value ≠ 0
  | onwards m => m.value ≠ 0

/-- The numbers are a `usize`, and the last one of an item can be a length. -/
def Fits : ListItem → Prop
  | number n => n.value < 2 ^ 63
  | range m n => m.value < 2 ^ 64 ∧ n.value < 2 ^ 63
  | upTo n => n.value < 2 ^ 63
  | onwards m => m.value < 2 ^ 63

def matched : ListItem → Matched
  | number n => .single n.value
  | range m n => .range m.value n.value
  | upTo n => .openBegin n.value
  | onwards m => .openEnd m.value

end ListItem

/-- Items that are separated by commas and blanks -/
def listText (item : ListItem) (items : List (Bool × ListItem)) : List Char :=
  item.text ++ items.flatMap fun (comma, item) => (if comma then ',' else ' ') :: item.text

/-- The values at positions from `p` on that are in a set -/
def picked {α : Type*} (S : Nat → Prop) [DecidablePred S] : Nat → List α → List α
  | _, [] => []
  | p, v :: values => if S p then v :: picked S (p + 1) values else picked S (p + 1) values

section Numerals

variable {n : Numeral} {s : List Char} {c : Char}

theorem digit_toNat (h : '0' ≤ c ∧ c ≤ '9') : 48 ≤ c.toNat ∧ c.toNat ≤ 57 := h

theorem not_whitespace (h : '0' ≤ c ∧ c ≤ '9') : isWhitespace c = false := by
  obtain ⟨hfrom, hto⟩ := digit_toNat h
  rw [isWhitespace]
  apply decide_eq_false
  simp only [List.mem_cons, List.not_mem_nil, or_false]
  omega

theorem trim_eq (h : ∀ c ∈ s, isWhitespace c = false) : trim s = s := by
  have hdrop : ∀ s : List Char, (∀ c ∈ s, isWhitespace c = false) → s.dropWhile isWhitespace = s := by
    intro s hs
    cases s with
    | nil => rfl
    | cons c s => rw [List.dropWhile_cons_of_neg (by simp [hs c List.mem_cons_self])]
  rw [trim, hdrop s h, hdrop s.reverse fun c hc => h c (List.mem_reverse.mp hc), List.reverse_reverse]

theorem parseUsize_numeral (n : Numeral) :
    parseUsize (trim n.digits) = if n.value < 2 ^ 64 then .ok n.value else .other := by
  have hne := n.ne_nil
  have hdigits := n.decimal
  have hplus : ∀ rest, n.digits ≠ '+' :: rest := by
    intro rest heq
    have hplus := hdigits '+' (heq ▸ List.mem_cons_self)
    exact absurd hplus.1 (by decide)
  have hdigit : ∀ c, '0' ≤ c ∧ c ≤ '9' → Net.toDigit 10 c = some (c.toNat - 48) := by
    intro c hc
    have hto := (digit_toNat hc).2
    rw [Net.toDigit, if_pos hc]
    exact if_pos (by omega)
  have hfold : ∀ (s : List Char) (n : Nat), (∀ c ∈ s, '0' ≤ c ∧ c ≤ '9') →
      s.foldlM (fun n c => (Net.toDigit 10 c).map (10 * n + ·)) n =
        some (s.foldl (fun n c => 10 * n + (c.toNat - 48)) n) := by
    intro s
    induction s with
    | nil => exact fun _ _ => rfl
    | cons c s ih =>
      intro n hs
      rw [List.foldlM_cons, hdigit c (hs c List.mem_cons_self)]
      exact ih _ fun c hc => hs c (List.mem_cons_of_mem _ hc)
  have hparse : Net.parseUnsigned (2 ^ 64) n.digits = if n.value < 2 ^ 64 then some n.value else none := by
    have hempty : n.digits.isEmpty = false := by simpa using hne
    rw [Net.parseUnsigned, Net.fromStrRadix]
    · simp only [Option.bind_eq_bind, Option.bind_some, hempty, hfold n.digits 0 hdigits, Bool.false_eq_true,
        if_false]
      rfl
    · exact hplus
  rw [trim_eq fun c hc => not_whitespace (hdigits c hc), parseUsize, if_neg hne, hparse]
  by_cases hlt : n.value < 2 ^ 64
  · rw [if_pos hlt, if_pos hlt]
  · rw [if_neg hlt, if_neg hlt]

theorem parseUsize_small (h : n.value < 2 ^ 64) : parseUsize (trim n.digits) = .ok n.value := by
  rw [parseUsize_numeral, if_pos h]

theorem parseUsize_large (h : ¬ n.value < 2 ^ 64) : parseUsize (trim n.digits) = .other := by
  rw [parseUsize_numeral, if_neg h]

theorem splitOn_numeral (n : Numeral) : n.digits.splitOn '-' = [n.digits] := by
  rw [List.splitOn_eq_splitOnP]
  apply List.splitOnP_eq_singleton
  intro c hc
  have hdigit := n.decimal c hc
  exact beq_eq_false_iff_ne.mpr fun heq => absurd (heq ▸ hdigit).1 (by decide)

theorem splitOn_dash (n : Numeral) (s : List Char) : (n.digits ++ '-' :: s).splitOn '-' = n.digits :: s.splitOn '-' := by
  have happend := List.splitOnP_append_cons (p := (· == '-')) n.digits s (beq_self_eq_true '-')
  exact happend.trans (congrArg (· ++ s.splitOn '-') (splitOn_numeral n))

/-- An item is matched as what it is, unless a number is too large to be read. -/
theorem matchPart_text (item : ListItem) :
    matchPart item.text = some item.matched ∨ matchPart item.text = none ∧ ¬ item.Fits := by
  have hempty : parseUsize (trim []) = .empty := rfl
  unfold matchPart
  cases item with
  | number n =>
    have hsplit : (ListItem.number n).text.splitOn '-' = [n.digits] := splitOn_numeral n
    by_cases hn : n.value < 2 ^ 64
    · left
      simp [hsplit, parseUsize_small hn, ListItem.matched]
    · right
      refine ⟨by simp [hsplit, parseUsize_large hn], fun h => hn (Nat.lt_trans h (by decide))⟩
  | range m n =>
    have hsplit : (ListItem.range m n).text.splitOn '-' = [m.digits, n.digits] :=
      (splitOn_dash m n.digits).trans (congrArg _ (splitOn_numeral n))
    by_cases hm : m.value < 2 ^ 64
    · by_cases hn : n.value < 2 ^ 64
      · left
        simp [hsplit, parseUsize_small hm, parseUsize_small hn, ListItem.matched]
      · right
        refine ⟨by simp [hsplit, parseUsize_small hm, parseUsize_large hn], fun h => hn (Nat.lt_trans h.2 (by decide))⟩
    · right
      exact ⟨by simp [hsplit, parseUsize_large hm], fun h => hm h.1⟩
  | upTo n =>
    have hsplit : (ListItem.upTo n).text.splitOn '-' = [[], n.digits] := by
      change ('-' :: n.digits).splitOn '-' = _
      rw [List.splitOn_eq_splitOnP, List.splitOnP_cons_eq_if_modifyHead, if_pos (beq_self_eq_true '-'),
        ← List.splitOn_eq_splitOnP, splitOn_numeral]
    by_cases hn : n.value < 2 ^ 64
    · left
      simp [hsplit, parseUsize_small hn, hempty, ListItem.matched]
    · right
      refine ⟨by simp [hsplit, parseUsize_large hn, hempty], fun h => hn (Nat.lt_trans h (by decide))⟩
  | onwards m =>
    have hsplit : (ListItem.onwards m).text.splitOn '-' = [m.digits, []] := splitOn_dash m []
    by_cases hm : m.value < 2 ^ 64
    · left
      simp [hsplit, parseUsize_small hm, hempty, ListItem.matched]
    · right
      refine ⟨by simp [hsplit, parseUsize_large hm, hempty], fun h => hm (Nat.lt_trans h (by decide))⟩

/-- No item has a comma or a blank in it. -/
theorem text_separated (item : ListItem) : ∀ c ∈ item.text, decide (c = ',' ∨ c = ' ') = false := by
  have hdigit : ∀ (n : Numeral), ∀ c ∈ n.digits, decide (c = ',' ∨ c = ' ') = false := by
    intro n c hc
    have hfrom := (n.decimal c hc).1
    apply decide_eq_false
    rintro (rfl | rfl)
    · exact absurd hfrom (by decide)
    · exact absurd hfrom (by decide)
  have hdash : decide ('-' = ',' ∨ '-' = ' ') = false := rfl
  intro c hc
  cases item with
  | number n => exact hdigit n c hc
  | range m n =>
    rcases List.mem_append.mp hc with hc | hc
    · exact hdigit m c hc
    · rcases List.mem_cons.mp hc with rfl | hc
      · exact hdash
      · exact hdigit n c hc
  | upTo n =>
    rcases List.mem_cons.mp hc with rfl | hc
    · exact hdash
    · exact hdigit n c hc
  | onwards m =>
    rcases List.mem_append.mp hc with hc | hc
    · exact hdigit m c hc
    · cases List.mem_singleton.mp hc
      exact hdash

theorem splitOnP_listText (item : ListItem) (items : List (Bool × ListItem)) :
    (listText item items).splitOnP (fun c => c = ',' ∨ c = ' ') =
      item.text :: items.map fun (_, item) => item.text := by
  induction items generalizing item with
  | nil =>
    rw [listText, List.flatMap_nil, List.append_nil, List.splitOnP_eq_singleton (text_separated item)]
    rfl
  | cons next items ih =>
    obtain ⟨comma, next⟩ := next
    have hsep : decide ((if comma then ',' else ' ') = ',' ∨ (if comma then ',' else ' ') = ' ') = true := by
      cases comma <;> rfl
    have hcons : listText item ((comma, next) :: items) =
        item.text ++ (if comma then ',' else ' ') :: listText next items := rfl
    rw [hcons, List.splitOnP_append_cons_of_forall_mem (text_separated item) _ hsep, ih]
    rfl

end Numerals

namespace ListItem

instance (p : Nat) : DecidablePred (Covers p)
  | number n => inferInstanceAs (Decidable (p = n.value))
  | range m n => inferInstanceAs (Decidable (m.value ≤ p ∧ p ≤ n.value))
  | upTo n => inferInstanceAs (Decidable (p ≤ n.value))
  | onwards m => inferInstanceAs (Decidable (m.value ≤ p))

end ListItem

/-- Behind the first number of an open item every position up to the largest number of the list is one that
another item has, or that another open item starts with. -/
def Filled (items : List ListItem) : Prop :=
  ∀ m p, .onwards m ∈ items → m.value < p → (∃ item ∈ items, item.Reaches p) → ∃ item ∈ items, item.Starts p

namespace SelectFromIter

variable {α : Type*} {it it' : SelectFromIter α} {v : α} {values : List α} {selected : List Bool}
  {toEol : Bool} {k : Nat}

theorem collect_none (h : it.next = none) : it.collect = [] := by
  rw [collect]
  split
  · rfl
  · rename_i h'
    cases h.symm.trans h'

theorem collect_some (h : it.next = some (v, it')) : it.collect = v :: it'.collect := by
  rw [collect]
  split
  · rename_i h'
    cases h.symm.trans h'
  · rename_i h'
    cases h.symm.trans h'
    rfl

theorem collect_congr (h : it.next = it'.next) : it.collect = it'.collect := by
  cases hnext : it'.next with
  | none => rw [collect_none (h.trans hnext), collect_none hnext]
  | some found => rw [collect_some (h.trans hnext), collect_some hnext]

theorem collect_consumed (values : List α) (selected : List Bool) :
    (SelectFromIter.mk values selected toEol true).collect = values := by
  induction values with
  | nil => exact collect_none rfl
  | cons v values ih => exact (collect_some rfl).trans (congrArg (v :: ·) ih)

theorem picked_congr {S S' : Nat → Prop} [DecidablePred S] [DecidablePred S']
    (h : ∀ p, k ≤ p → (S p ↔ S' p)) : picked S k values = picked S' k values := by
  induction values generalizing k with
  | nil => rfl
  | cons v values ih =>
    have hrest := ih (k := k + 1) fun p hp => h p (Nat.le_of_succ_le hp)
    rw [picked, picked, hrest]
    exact if_congr (h k (Nat.le_refl k)) rfl rfl

theorem picked_all {S : Nat → Prop} [DecidablePred S] (h : ∀ p, k ≤ p → S p) :
    picked S k values = values := by
  induction values generalizing k with
  | nil => rfl
  | cons v values ih =>
    rw [picked, if_pos (h k (Nat.le_refl k)), ih fun p hp => h p (Nat.le_of_succ_le hp)]

/-- The values that are taken are those at the positions that are set, or behind them all. -/
theorem collect_eq (values : List α) (selected : List Bool) (toEol : Bool) (k : Nat) :
    (SelectFromIter.mk values selected toEol false).collect =
      picked (fun p => selected.getD (p - k) toEol = true) k values := by
  induction values generalizing selected k with
  | nil => exact collect_none rfl
  | cons v values ih =>
    cases selected with
    | nil =>
      cases toEol with
      | false =>
        refine (collect_none rfl).trans (.symm ?_)
        have hnone : ∀ (values : List α) (k' : Nat),
            picked (fun p => ([] : List Bool).getD (p - k) false = true) k' values = [] := by
          intro values
          induction values with
          | nil => exact fun _ => rfl
          | cons v values ih => exact fun k' => ih (k' + 1)
        exact hnone (v :: values) k
      | true =>
        refine (collect_some rfl).trans (.symm ?_)
        rw [collect_consumed]
        exact picked_all fun p _ => rfl
    | cons b selected =>
      have hrest : picked (fun p => (b :: selected).getD (p - k) toEol = true) (k + 1) values =
          picked (fun p => selected.getD (p - (k + 1)) toEol = true) (k + 1) values := by
        apply picked_congr
        intro p hp
        have hsub : p - k = p - (k + 1) + 1 := by omega
        rw [hsub, List.getD_cons_succ]
      have hfirst : (b :: selected).getD (k - k) toEol = b := by rw [Nat.sub_self, List.getD_cons_zero]
      cases b with
      | true => rw [collect_some rfl, ih selected (k + 1), picked, if_pos hfirst, hrest]
      | false =>
        rw [picked, if_neg (by rw [hfirst]; exact Bool.false_ne_true), hrest, ← ih selected (k + 1)]
        exact collect_congr rfl

/-- Two sets of positions that pick the same values of every list are the same. -/
theorem picked_iff {S S' : Nat → Prop} [DecidablePred S] [DecidablePred S'] :
    (∀ (α : Type) (values : List α), picked S 1 values = picked S' 1 values) ↔ ∀ p, 1 ≤ p → (S p ↔ S' p) := by
  constructor
  · intro h p hp
    have hmem : ∀ (S : Nat → Prop) [DecidablePred S] (n k : Nat), p ∈ picked S k (List.range' k n) ↔
        S p ∧ k ≤ p ∧ p < k + n := by
      intro S _ n
      induction n with
      | zero =>
        intro k
        exact iff_of_false List.not_mem_nil (by omega)
      | succ n ih =>
        intro k
        rw [List.range'_succ, picked]
        split
        · rename_i hk
          rw [List.mem_cons, ih]
          constructor
          · rintro (rfl | ⟨hS, hfrom, hto⟩)
            · exact ⟨hk, by omega⟩
            · exact ⟨hS, by omega⟩
          · rintro ⟨hS, hfrom, hto⟩
            by_cases hpk : p = k
            · exact .inl hpk
            · exact .inr ⟨hS, by omega⟩
        · rename_i hk
          rw [ih]
          constructor
          · rintro ⟨hS, hfrom, hto⟩
            exact ⟨hS, by omega⟩
          · rintro ⟨hS, hfrom, hto⟩
            have hpk : p ≠ k := fun heq => hk (heq ▸ hS)
            exact ⟨hS, by omega⟩
    have hsame := h Nat (List.range' 1 p)
    have hin : 1 ≤ p ∧ p < 1 + p := by omega
    constructor
    · intro hS
      exact ((hmem S' p 1).mp (hsame ▸ (hmem S p 1).mpr ⟨hS, hin⟩)).1
    · intro hS
      exact ((hmem S p 1).mp (hsame ▸ (hmem S' p 1).mpr ⟨hS, hin⟩)).1
  · exact fun h _ _ => picked_congr h

end SelectFromIter

section Lists

variable {s s' : Selection} {item : ListItem} {items : List ListItem} {ms : List Matched} {checked : Bool}
  {p : Nat}

theorem fits_matched (hmatch : matchPart item.text = some item.matched) (hpositive : item.Positive) :
    item.matched.Fits checked ↔ item.Fits := by
  have hlt := matchPart_lt hmatch
  cases item with
  | number n => exact and_iff_right hpositive
  | range m n =>
    have hm := hlt m.value (.inr (.inr ⟨n.value, rfl⟩))
    exact and_congr_left' (iff_of_true (fun _ => hpositive.1) hm)
  | upTo n => exact Iff.rfl
  | onwards m => exact and_iff_right hpositive

theorem positive_matched (h : item.Positive) : item.matched.Positive := by
  cases item <;> exact h

/-- Lists of items that fit are read, and no others. -/
theorem readParts_items (checked : Bool) (hlen : s.selected.length < 2 ^ 63) (h : s.Holds ms)
    (hpositive : ∀ item ∈ items, item.Positive) :
    (∀ s', s.readParts checked (items.map ListItem.text) = some (.ok s') →
      (∀ item ∈ items, item.Fits) ∧ s'.Holds (ms ++ items.map ListItem.matched)) ∧
    ((∀ item ∈ items, item.Fits) → ∃ s', s.readParts checked (items.map ListItem.text) = some (.ok s')) := by
  induction items generalizing s ms with
  | nil =>
    refine ⟨fun s' hs' => ?_, fun _ => ⟨s, rfl⟩⟩
    cases hs'
    rw [List.map_nil, List.append_nil]
    refine ⟨?_, h⟩
    rintro item ⟨⟩
  | cons item items ih =>
    have hitem := hpositive item List.mem_cons_self
    have hrest := fun i hi => hpositive i (List.mem_cons_of_mem item hi)
    rw [List.map_cons, Selection.readParts]
    rcases matchPart_text item with hmatch | ⟨hmatch, hlarge⟩
    · obtain ⟨hiff, hlength⟩ := read_isSome_iff checked hlen hmatch
      rw [fits_matched hmatch hitem] at hiff
      rw [hmatch]
      by_cases hfits : item.Fits
      · obtain ⟨s₁, hread, hholds⟩ := read_holds h ((fits_matched hmatch hitem).mpr hfits)
          (positive_matched hitem)
        obtain ⟨hok, hall⟩ := ih (hlength s₁ hread) hholds hrest
        simp only [Option.bind_eq_bind, hread, Option.bind_some]
        refine ⟨fun s' hs' => ?_, fun hfits' => ?_⟩
        · obtain ⟨hfits', hs'⟩ := hok s' hs'
          refine ⟨fun i hi => ?_, ?_⟩
          · rcases List.mem_cons.mp hi with rfl | hi
            · exact hfits
            · exact hfits' i hi
          · rwa [List.append_assoc] at hs'
        · exact hall fun i hi => hfits' i (List.mem_cons_of_mem item hi)
      · have hnone : s.read checked item.matched = none :=
          Option.not_isSome_iff_eq_none.mp fun hread => hfits (hiff.mp hread)
        simp only [Option.bind_eq_bind, hnone]
        exact ⟨by rintro _ ⟨⟩, fun hfits' => absurd (hfits' item List.mem_cons_self) hfits⟩
    · rw [hmatch]
      exact ⟨by rintro _ ⟨⟩, fun hfits' => absurd (hfits' item List.mem_cons_self) hlarge⟩

theorem sets_matched (hp : 1 ≤ p) (hpositive : item.Positive) :
    item.matched.Sets (p - 1) ↔ item.Starts p := by
  cases item with
  | number n =>
    change p - 1 + 1 = n.value ↔ p = n.value
    omega
  | range m n =>
    change m.value ≤ p - 1 + 1 ∧ p - 1 < n.value ↔ m.value ≤ p ∧ p ≤ n.value
    omega
  | upTo n =>
    change p - 1 < n.value ↔ p ≤ n.value
    omega
  | onwards m =>
    change p - 1 + 1 = m.value ↔ p = m.value
    omega

theorem reaches_matched (hp : 1 ≤ p) : p - 1 < item.matched.last ↔ item.Reaches p := by
  cases item with
  | number n =>
    change p - 1 < n.value ↔ p ≤ n.value
    omega
  | range m n =>
    change p - 1 < n.value ↔ p ≤ n.value
    omega
  | upTo n =>
    change p - 1 < n.value ↔ p ≤ n.value
    omega
  | onwards m =>
    change p - 1 < m.value ↔ p ≤ m.value
    omega

/-- A position up to the largest number is taken if an item starts there, and one behind it if the list has
an open item. -/
theorem getD_iff (h : s.Holds (items.map ListItem.matched)) (hpositive : ∀ item ∈ items, item.Positive)
    (hp : 1 ≤ p) : s.selected.getD (p - 1) s.toEol = true ↔
      (∃ item ∈ items, item.Starts p) ∨
        (¬ ∃ item ∈ items, item.Reaches p) ∧ ∃ m, .onwards m ∈ items := by
  have hmap : ∀ P : Matched → Prop, (∃ m ∈ items.map ListItem.matched, P m) ↔ ∃ item ∈ items, P item.matched := by
    intro P
    simp
  have hlength : p - 1 < s.selected.length ↔ ∃ item ∈ items, item.Reaches p := by
    rw [h.length, hmap]
    exact exists_congr fun item => and_congr_right fun _ => reaches_matched hp
  have helement : s.selected.getD (p - 1) false = true ↔ ∃ item ∈ items, item.Starts p := by
    rw [h.element, hmap]
    exact exists_congr fun item => and_congr_right fun hi => sets_matched hp (hpositive item hi)
  have htoEol : s.toEol = true ↔ ∃ m, .onwards m ∈ items := by
    rw [h.toEol]
    constructor
    · rintro ⟨first, hfirst⟩
      obtain ⟨item, hitem, heq⟩ := List.mem_map.mp hfirst
      cases item with
      | onwards m => exact ⟨m, hitem⟩
      | number n => cases heq
      | range m n => cases heq
      | upTo n => cases heq
    · rintro ⟨m, hm⟩
      exact ⟨m.value, List.mem_map.mpr ⟨_, hm, rfl⟩⟩
  rw [← helement, ← htoEol, ← hlength]
  by_cases hin : p - 1 < s.selected.length
  · rw [List.getD_eq_getElem _ _ hin, List.getD_eq_getElem _ _ hin]
    exact ⟨.inl, fun h => h.resolve_right fun h => h.1 hin⟩
  · rw [List.getD_eq_default _ _ (by omega), List.getD_eq_default _ _ (by omega)]
    exact ⟨fun h => .inr ⟨hin, h⟩, fun h => (h.resolve_left Bool.false_ne_true).2⟩

theorem starts_covers (h : item.Starts p) : item.Covers p := by
  cases item with
  | onwards m => exact Nat.le_of_eq (Eq.symm h)
  | number n => exact h
  | range m n => exact h
  | upTo n => exact h

/-- What an item covers it starts with, unless it is open. -/
theorem covers_starts (h : item.Covers p) :
    item.Starts p ∨ ∃ m, item = .onwards m ∧ m.value < p := by
  cases item with
  | onwards m =>
    rcases Nat.eq_or_lt_of_le (show m.value ≤ p from h) with heq | hlt
    · exact .inl heq.symm
    · exact .inr ⟨m, rfl, hlt⟩
  | number n => exact .inl h
  | range m n => exact .inl h
  | upTo n => exact .inl h

theorem taken_iff_covered (h : s.Holds (items.map ListItem.matched))
    (hpositive : ∀ item ∈ items, item.Positive) :
    (∀ p, 1 ≤ p → (s.selected.getD (p - 1) s.toEol = true ↔ ∃ item ∈ items, item.Covers p)) ↔
      Filled items := by
  constructor
  · intro hall m p hm hlt hreaches
    have hcovered := (hall p (by omega)).mpr ⟨_, hm, Nat.le_of_lt hlt⟩
    exact ((getD_iff h hpositive (by omega)).mp hcovered).resolve_right fun hbehind => hbehind.1 hreaches
  · intro hfilled p hp
    rw [getD_iff h hpositive hp]
    constructor
    · rintro (⟨item, hitem, hstarts⟩ | ⟨hbehind, m, hm⟩)
      · exact ⟨item, hitem, starts_covers hstarts⟩
      · refine ⟨_, hm, Nat.le_of_not_lt fun hlt => hbehind ⟨_, hm, ?_⟩⟩
        exact Nat.le_of_lt hlt
    · rintro ⟨item, hitem, hcovers⟩
      rcases covers_starts hcovers with hstarts | ⟨m, rfl, hlt⟩
      · exact .inl ⟨item, hitem, hstarts⟩
      · by_cases hreaches : ∃ item ∈ items, item.Reaches p
        · exact .inl (hfilled m p hitem hlt hreaches)
        · exact .inr ⟨hreaches, m, hitem⟩

theorem holds_empty : Selection.Holds [] ⟨[], false⟩ := by
  refine ⟨fun i => ?_, fun i => ?_, ?_⟩ <;> simp

end Lists

/-- Of every list the parts in front of the first illegal one are to fit, or it is not read; a list of items
is read and selects the positions that they are for where their numbers fit and no position is left out
behind the start of an open item. -/
theorem selection_iff (checked : Bool) :
    (∀ list, (Selection.fromStr checked list).isSome ↔
      Readable checked (list.splitOnP fun c => c = ',' ∨ c = ' ')) ∧
    ∀ item items, (∀ i ∈ item :: items.map Prod.snd, i.Positive) →
      ((∃ s, Selection.fromStr checked (listText item items) = some (.ok s) ∧
        ∀ (α : Type) (values : List α), (s.selectFrom values).collect =
          picked (fun p => ∃ i ∈ item :: items.map Prod.snd, i.Covers p) 1 values) ↔
        (∀ i ∈ item :: items.map Prod.snd, i.Fits) ∧ Filled (item :: items.map Prod.snd)) := by
  have hlen : (⟨[], false⟩ : Selection).selected.length < 2 ^ 63 := by decide
  refine ⟨fun list => readParts_isSome_iff hlen, fun item items hpositive => ?_⟩
  have hparts : (listText item items).splitOnP (fun c => c = ',' ∨ c = ' ') =
      (item :: items.map Prod.snd).map ListItem.text := by
    rw [splitOnP_listText, List.map_cons, List.map_map]
    rfl
  obtain ⟨hok, hall⟩ := readParts_items checked hlen holds_empty hpositive
  rw [Selection.fromStr, hparts]
  have hselects : ∀ s : Selection, s.Holds ((item :: items.map Prod.snd).map ListItem.matched) →
      ((∀ (α : Type) (values : List α), (s.selectFrom values).collect =
        picked (fun p => ∃ i ∈ item :: items.map Prod.snd, i.Covers p) 1 values) ↔
        Filled (item :: items.map Prod.snd)) := by
    intro s hs
    simp only [Selection.selectFrom, SelectFromIter.collect_eq _ _ _ 1]
    exact SelectFromIter.picked_iff.trans (taken_iff_covered hs hpositive)
  constructor
  · rintro ⟨s, hs, hvalues⟩
    obtain ⟨hfits, hholds⟩ := hok s hs
    exact ⟨hfits, (hselects s hholds).mp hvalues⟩
  · rintro ⟨hfits, hfilled⟩
    obtain ⟨s, hs⟩ := hall hfits
    exact ⟨s, hs, (hselects s (hok s hs).2).mpr hfilled⟩

/-- There is no position zero; and behind an open item the positions in front of another number are left
out. -/
theorem zero_not_read :
    Selection.fromStr true "0".toList = none ∧ Selection.fromStr false "0".toList = none ∧
    ∃ s, Selection.fromStr true "2-,5".toList = some (.ok s) ∧
      (s.selectFrom [1, 2, 3, 4, 5, 6]).collect = [2, 5, 6] := by
  refine ⟨by decide, by decide, ⟨[false, true, false, false, true], true⟩, by decide, ?_⟩
  rw [Selection.selectFrom, SelectFromIter.collect_eq _ _ _ 1]
  decide

end Origel.Coreutils
