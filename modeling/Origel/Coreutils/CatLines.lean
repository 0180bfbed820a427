import Mathlib.Data.List.Count
import Origel.Coreutils.Cat

/-! What the options of `cat` mean for the lines of its input, and where the loop shows just that. -/
namespace Origel.Coreutils.Program

open Origel.Lib

/-- Caret notation of a byte below 128 -/
def caret (b : UInt8) : List UInt8 :=
  if b < 32 then [0x5e, b + 64] else if b = 127 then [0x5e, 0x3f] else [b]

/-- What a byte of a line is shown as -/
def shownByte (p : Program) (b : UInt8) : List UInt8 :=
  if b = 9 then if p.showTabs then [0x5e, 0x49] else [b]
  else if p.showNonprinting then if b < 128 then caret b else 0x4d :: 0x2d :: caret (b - 128)
  else [b]

/-- Of every run of empty lines one is left. -/
def squeezeLines (blank : Bool) : List (List UInt8) → List (List UInt8)
  | [] => []
  | l :: ls => if l = [] ∧ blank then squeezeLines true ls else l :: squeezeLines (l = []) ls

/-- The option asks for a number of this line. -/
def numbers (p : Program) (l : List UInt8) : Bool := p.number || p.numberNonblank && l ≠ []

/-- The lines with their numbers, from `n` on, and the part behind the last end of a line -/
def showLines (p : Program) (n : Nat) (rest : List UInt8) : List (List UInt8) → List UInt8
  | [] => if rest = [] then [] else (if p.numbers rest then numberText n else []) ++ rest.flatMap p.shownByte
  | l :: ls =>
    (if p.numbers l then numberText n else []) ++ l.flatMap p.shownByte ++ p.lineEnd ++
      p.showLines (if p.numbers l then n + 1 else n) rest ls

/-- What the options say of an input -/
def shown (p : Program) (input : List UInt8) : List UInt8 :=
  let ls := fullLines 0x0a input
  p.showLines 0 (lastPart 0x0a input) (if p.squeezeBlank then squeezeLines false ls else ls)

/-- Control bytes that are neither tabs nor ends of lines -/
def IsControl (b : UInt8) : Prop := b ≤ 8 ∨ 11 ≤ b ∧ b ≤ 31 ∨ b = 127

instance : DecidablePred IsControl := fun b => inferInstanceAs (Decidable (b ≤ 8 ∨ 11 ≤ b ∧ b ≤ 31 ∨ b = 127))

/-- The bytes that the loop shows as it should -/
def Faithful (p : Program) (b : UInt8) : Prop := if p.showNonprinting then b ≠ 255 else ¬IsControl b

/-- Nothing is squeezed where it would leave its number, and without numbers no end of a line is taken for
that of an empty one. -/
def Squeezable (p : Program) (input : List UInt8) : Prop :=
  if p.number then squeezeLines false (fullLines 0x0a input) = fullLines 0x0a input
  else p.numberNonblank ∨ (fullLines 0x0a input).length ≤ 1 ∨ ∀ l ∈ fullLines 0x0a input, l = []

variable {p : Program} {s : State} {b : UInt8} {l t rest : List UInt8} {ls : List (List UInt8)} {n : Nat}
  {blank : Bool} {out : List UInt8}

/-- Bytes are counted. -/
def counts (p : Program) : Bool := p.number || p.numberNonblank

/-- What the loop writes for a byte of a line -/
def written (p : Program) (b : UInt8) : List UInt8 :=
  if b ≤ 8 ∨ 11 ≤ b ∧ b ≤ 31 then if p.showNonprinting then [0x5e, b + 64] else []
  else if b = 9 then if p.showTabs then [0x5e, 0x49] else [b]
  else if 32 ≤ b ∧ b ≤ 126 then [b]
  else if b = 127 then if p.showNonprinting then [0x5e, 0x3f] else []
  else if 128 ≤ b ∧ b ≤ 159 then if p.showNonprinting then [0x4d, 0x2d, 0x5e, b - 64] else [b]
  else if p.showNonprinting then [0x4d, 0x2d, b - 128] else [b]

/-- A property of bytes that options for tabs and control bytes decide -/
theorem forall_bytes {P : Program → UInt8 → Prop}
    (h : ∀ (n : Fin 256) (v t : Bool), P ⟨false, false, false, t, v, false⟩ (.ofNat n.val)) (v t : Bool)
    (b : UInt8) : P ⟨false, false, false, t, v, false⟩ b := by
  have hb := h ⟨b.toNat, b.toNat_lt⟩ v t
  rwa [UInt8.ofNat_toNat] at hb

theorem written_faithful (h : p.Faithful b) (hb : b ≠ 0x0a) : p.written b = p.shownByte b :=
  forall_bytes (P := fun p b => p.Faithful b → b ≠ 0x0a → p.written b = p.shownByte b)
    (by unfold Faithful; decide +kernel) p.showNonprinting p.showTabs b h hb

theorem write_write (s : State) (a b : List UInt8) : (s.write a).write b = s.write (a ++ b) :=
  congrArg (fun stdout => { s with stdout }) (List.append_assoc _ _ _)

/-- A byte is counted where it is written. -/
theorem stepByte_eq (p : Program) (s : State) (b : UInt8) : p.stepByte s b =
    if IsControl b ∧ !p.showNonprinting then s else p.countCharacter (s.write (p.written b)) := by
  have hcontrol : IsControl b ↔ (b ≤ 8 ∨ 11 ≤ b ∧ b ≤ 31) ∨ b = 127 := or_assoc.symm
  unfold stepByte written
  cases hv : p.showNonprinting <;> simp only [State.pushCaret, write_write] <;> split_ifs <;> simp_all

theorem Faithful.not_dropped (h : p.Faithful b) : ¬(IsControl b ∧ !p.showNonprinting) := by
  rintro ⟨hcontrol, hv⟩
  rw [Faithful, if_neg (by simpa using hv)] at h
  exact h hcontrol

/-- A byte of a line has a number in front of it where it is the first one. -/
theorem stepNumber_eq (hb : b ≠ 0x0a) : p.stepNumber s b =
    if s.characterCount = 0 ∧ p.counts then
      { s.write (numberText s.lineCount) with lineCount := s.lineCount + 1 }
    else s := by
  unfold stepNumber counts
  by_cases hcount : s.characterCount = 0 <;> simp [hcount, hb]

theorem countCharacter_eq (p : Program) (s : State) : p.countCharacter s =
    { s with characterCount := if p.counts then s.characterCount + 1 else s.characterCount } := by
  unfold countCharacter counts
  split <;> rfl

theorem step_eq (hb : b ≠ 0x0a) (hfaithful : p.Faithful b) :
    p.step s b = p.countCharacter ((p.stepNumber s b).write (p.shownByte b)) := by
  rw [step, if_neg hb, stepByte_eq, if_neg hfaithful.not_dropped, written_faithful hfaithful hb]

/-- The bytes of a line behind its first one, or without a number -/
theorem foldl_going (ht : ∀ b ∈ t, b ≠ 0x0a ∧ p.Faithful b) (h : p.counts → 0 < s.characterCount) :
    t.foldl p.step s = { s with
      characterCount := if p.counts then s.characterCount + t.length else s.characterCount
      stdout := s.stdout ++ t.flatMap p.shownByte } := by
  induction t generalizing s with
  | nil => simp
  | cons b t ih =>
    obtain ⟨hb, hfaithful⟩ := ht b List.mem_cons_self
    have hnot : ¬(s.characterCount = 0 ∧ p.counts) := by
      rintro ⟨hzero, hcounts⟩
      exact Nat.lt_irrefl 0 (hzero ▸ h hcounts)
    rw [List.foldl_cons, step_eq hb hfaithful, stepNumber_eq hb, if_neg hnot, countCharacter_eq,
      ih fun b' hb' => ht b' (List.mem_cons_of_mem b hb')]
    · cases p.counts
      · simp [State.write]
      · simp [State.write]
        omega
    · intro hcounts
      simp [hcounts]

theorem numbers_eq (hne : t ≠ []) : p.numbers t = p.counts := by
  unfold numbers counts
  rw [decide_eq_true hne, Bool.and_true]

/-- The first byte of a line comes behind its number. -/
theorem foldl_text (ht : ∀ b ∈ t, b ≠ 0x0a ∧ p.Faithful b) (hne : t ≠ []) :
    t.foldl p.step ⟨0, blank, n, out⟩ = ⟨if p.counts then t.length else 0, blank,
      if p.numbers t then n + 1 else n,
      out ++ (if p.numbers t then numberText n else []) ++ t.flatMap p.shownByte⟩ := by
  rw [numbers_eq hne]
  obtain ⟨b, t, rfl⟩ := List.exists_cons_of_ne_nil hne
  obtain ⟨hb, hfaithful⟩ := ht b List.mem_cons_self
  rw [List.foldl_cons, step_eq hb hfaithful, stepNumber_eq hb, countCharacter_eq,
    foldl_going fun b' hb' => ht b' (List.mem_cons_of_mem b hb')]
  · cases p.counts
    · simp [State.write]
    · simp [State.write]
      omega
  · intro hcounts
    simp [hcounts]

/-- The loop takes a line for an empty one. -/
def takenEmpty (p : Program) (l : List UInt8) : Bool := !p.counts || l = []

/-- The end of a line that is taken for an empty one -/
theorem stepNewline_eq (p : Program) (s : State) : p.stepNewline s = { s with
    characterCount := 0
    lastLineWasBlank := s.characterCount = 0
    stdout := s.stdout ++
      if p.squeezeBlank ∧ s.lastLineWasBlank ∧ s.characterCount = 0 then [] else p.lineEnd } := by
  obtain ⟨count, blank, n, out⟩ := s
  unfold stepNewline
  by_cases hcount : count = 0
  · subst hcount
    cases p.squeezeBlank <;> cases blank <;> simp [State.write]
  · simp [hcount, State.write]

theorem foldl_line (hl : ∀ b ∈ l, b ≠ 0x0a ∧ p.Faithful b) :
    (l ++ [0x0a]).foldl p.step ⟨0, blank, n, out⟩ =
      ⟨0, p.takenEmpty l, if p.numbers l then n + 1 else n,
        out ++ (if p.numbers l then numberText n else []) ++ l.flatMap p.shownByte ++
          if p.squeezeBlank ∧ blank ∧ p.takenEmpty l then [] else p.lineEnd⟩ := by
  rw [List.foldl_append, List.foldl_cons, List.foldl_nil, step, if_pos rfl]
  by_cases hne : l = []
  · subst hne
    have hnumber : p.stepNumber ⟨0, blank, n, out⟩ 0x0a =
        ⟨0, blank, if p.numbers [] then n + 1 else n, out ++ if p.numbers [] then numberText n else []⟩ := by
      unfold stepNumber numbers
      cases p.number <;> simp [State.write]
    rw [List.foldl_nil, hnumber, stepNewline_eq]
    simp [takenEmpty]
  · have hlength : 0 < l.length := List.length_pos_of_ne_nil hne
    rw [foldl_text hl hne]
    have hnumber : ∀ out, p.stepNumber ⟨if p.counts then l.length else 0, blank,
        if p.numbers l then n + 1 else n, out⟩ 0x0a = ⟨if p.counts then l.length else 0, blank,
        if p.numbers l then n + 1 else n, out⟩ := by
      intro out
      unfold stepNumber counts
      cases p.number <;> cases p.numberNonblank <;> simp [hne]
    rw [hnumber, stepNewline_eq]
    cases hcounts : p.counts
    · simp [takenEmpty, hcounts]
    · simp [takenEmpty, hcounts, hne]

/-- What the loop writes for lines: it leaves out the ends of lines, and not the numbers. -/
def catLines (p : Program) (n : Nat) (blank : Bool) (rest : List UInt8) : List (List UInt8) → List UInt8
  | [] => if rest = [] then [] else (if p.numbers rest then numberText n else []) ++ rest.flatMap p.shownByte
  | l :: ls =>
    (if p.numbers l then numberText n else []) ++ l.flatMap p.shownByte ++
      (if p.squeezeBlank ∧ blank ∧ p.takenEmpty l then [] else p.lineEnd) ++
      p.catLines (if p.numbers l then n + 1 else n) (p.takenEmpty l) rest ls

theorem foldl_lines (hls : ∀ l ∈ ls, ∀ b ∈ l, b ≠ 0x0a ∧ p.Faithful b)
    (hrest : ∀ b ∈ rest, b ≠ 0x0a ∧ p.Faithful b) :
    ((joinLines 0x0a ls rest).foldl p.step ⟨0, blank, n, out⟩).stdout =
      out ++ p.catLines n blank rest ls := by
  induction ls generalizing blank n out with
  | nil =>
    rw [joinLines_nil, catLines]
    by_cases hne : rest = []
    · subst hne
      simp
    · rw [foldl_text hrest hne, if_neg hne, List.append_assoc]
  | cons l ls ih =>
    rw [joinLines_cons, List.append_cons, List.foldl_append, foldl_line (hls l List.mem_cons_self),
      ih fun l' hl' => hls l' (List.mem_cons_of_mem l hl'), catLines]
    simp only [List.append_assoc]

/-- Without the option to squeeze, what is written is right. -/
theorem catLines_eq (hsqueeze : p.squeezeBlank = false) :
    p.catLines n blank rest ls = p.showLines n rest ls := by
  induction ls generalizing n blank with
  | nil => rfl
  | cons l ls ih => simp [catLines, showLines, hsqueeze, ih]

/-- With numbers for lines that are not empty, empty lines are squeezed as they should. -/
theorem catLines_nonblank (hnumber : p.number = false) (hnonblank : p.numberNonblank)
    (hsqueeze : p.squeezeBlank) :
    p.catLines n blank rest ls = p.showLines n rest (squeezeLines blank ls) := by
  have hcounts : p.counts := by
    rw [counts, hnonblank, Bool.or_true]
  have htaken : ∀ l, p.takenEmpty l = decide (l = []) := by
    intro l
    rw [takenEmpty, hcounts]
    rfl
  induction ls generalizing n blank with
  | nil => rfl
  | cons l ls ih =>
    rw [catLines, squeezeLines, htaken]
    by_cases hl : l = []
    · subst hl
      have hno : p.numbers [] = false := by
        simp [numbers, hnumber]
      cases blank
      · simp [showLines, hno, ih]
      · simp [hno, ih, hsqueeze]
    · simp [hl, showLines, ih]

theorem squeezeLines_sublist (blank : Bool) (ls : List (List UInt8)) : (squeezeLines blank ls).Sublist ls := by
  induction ls generalizing blank with
  | nil => exact List.Sublist.slnil
  | cons l ls ih =>
    rw [squeezeLines]
    split
    · exact (ih true).cons l
    · exact (ih _).cons_cons l

theorem mem_squeezeLines (hl : l ≠ []) (hmem : l ∈ ls) : l ∈ squeezeLines blank ls := by
  induction ls generalizing blank with
  | nil => cases hmem
  | cons l' ls ih =>
    rw [squeezeLines]
    rcases List.mem_cons.mp hmem with rfl | hmem
    · rw [if_neg fun h => hl h.1]
      exact List.mem_cons_self
    · split
      · exact ih hmem
      · exact List.mem_cons_of_mem l' (ih hmem)

theorem mem_digits (h : b ∈ digits n) : 0x30 ≤ b ∧ b ≤ 0x39 := by
  obtain ⟨c, hc, rfl⟩ := List.mem_map.mp h
  have hdigit := Nat.isDigit_of_mem_toDigits (by decide) (by decide) hc
  simp only [Char.isDigit, Bool.and_eq_true, decide_eq_true_eq, ge_iff_le, UInt32.le_iff_toNat_le] at hdigit
  have hlow : 48 ≤ c.val.toNat := hdigit.1
  have hhigh : c.val.toNat ≤ 57 := hdigit.2
  rw [UInt8.le_iff_toNat_le, UInt8.le_iff_toNat_le, UInt32.toNat_toUInt8]
  show 48 ≤ c.val.toNat % 256 ∧ c.val.toNat % 256 ≤ 57
  omega

theorem count_numberText (n : Nat) : (numberText n).count 0x20 = 7 := by
  have hdigits : (digits n).count 0x20 = 0 := by
    rw [List.count_eq_zero]
    intro hmem
    exact absurd (mem_digits hmem).1 (by decide)
  rw [numberText, List.count_append, List.count_append, hdigits]
  rfl

section Numbers

variable (hnumber : p.number)

include hnumber

theorem numbers_all (l : List UInt8) : p.numbers l := by
  rw [numbers, hnumber]
  rfl

theorem takenEmpty_number (l : List UInt8) : p.takenEmpty l = decide (l = []) := by
  simp [takenEmpty, counts, hnumber]

/-- Where there is nothing to squeeze, it is right with numbers too. -/
theorem catLines_number (h : squeezeLines blank ls = ls) :
    p.catLines n blank rest ls = p.showLines n rest ls := by
  induction ls generalizing n blank with
  | nil => rfl
  | cons l ls ih =>
    rw [squeezeLines] at h
    by_cases hl : l = [] ∧ blank
    · rw [if_pos hl] at h
      have hlength := (squeezeLines_sublist true ls).length_le
      rw [h] at hlength
      exact absurd hlength (Nat.not_succ_le_self _)
    · rw [if_neg hl] at h
      have hend : ¬(p.squeezeBlank ∧ blank ∧ p.takenEmpty l) := by
        rintro ⟨-, hblank, htaken⟩
        rw [takenEmpty_number hnumber] at htaken
        exact hl ⟨of_decide_eq_true htaken, hblank⟩
      rw [catLines, if_neg hend, takenEmpty_number hnumber, ih (List.cons.inj h).2, showLines]

/-- Every line that is squeezed leaves the blanks of its number. -/
theorem count_catLines (hsqueeze : p.squeezeBlank) (n m : Nat) :
    (p.catLines n blank rest ls).count 0x20 + 7 * (squeezeLines blank ls).length =
      (p.showLines m rest (squeezeLines blank ls)).count 0x20 + 7 * ls.length := by
  induction ls generalizing n m blank with
  | nil =>
    rw [squeezeLines, catLines, showLines]
    split
    · rfl
    · simp only [numbers_all hnumber, if_true, List.count_append, count_numberText]
  | cons l ls ih =>
    rw [catLines, squeezeLines, takenEmpty_number hnumber, numbers_all hnumber, if_pos rfl, if_pos rfl]
    by_cases hl : l = [] ∧ blank
    · obtain ⟨rfl, hblank⟩ := hl
      have hrest := @ih true (n + 1) m
      have hend : p.squeezeBlank ∧ blank ∧ decide (([] : List UInt8) = []) := ⟨hsqueeze, hblank, rfl⟩
      have hsame : ([] : List UInt8) = [] ∧ blank := ⟨rfl, hblank⟩
      rw [if_pos hend, if_pos hsame]
      simp only [List.count_append, count_numberText, List.length_cons, List.flatMap_nil, List.count_nil,
        decide_true]
      omega
    · have hrest := @ih (decide (l = [])) (n + 1) (m + 1)
      have hend : ¬(p.squeezeBlank ∧ blank ∧ decide (l = [])) := by
        rintro ⟨-, hblank, htaken⟩
        exact hl ⟨of_decide_eq_true htaken, hblank⟩
      rw [if_neg hl, if_neg hend, showLines, numbers_all hnumber, if_pos rfl, if_pos rfl]
      simp only [List.count_append, count_numberText, List.length_cons] at hrest ⊢
      omega

end Numbers

/-- Of several lines, not all empty, more than one is to be shown. -/
theorem length_squeezeLines {l' : List UInt8} (hmem : l' ∈ l :: ls) (hne : l' ≠ []) (hls : ls ≠ []) :
    2 ≤ (squeezeLines false (l :: ls)).length := by
  rw [squeezeLines, if_neg (by simp), List.length_cons]
  refine Nat.succ_le_succ (List.length_pos_of_ne_nil ?_)
  by_cases hl : l = []
  · have hmem' : l' ∈ ls := (List.mem_cons.mp hmem).resolve_left fun h => hne (h.trans hl)
    exact List.ne_nil_of_mem (mem_squeezeLines hne hmem')
  · obtain ⟨l₁, ls₁, rfl⟩ := List.exists_cons_of_ne_nil hls
    rw [decide_eq_false hl, squeezeLines, if_neg (by simp)]
    exact List.cons_ne_nil _ _

theorem squeezeLines_empty (h : ∀ l ∈ ls, l = []) : squeezeLines true ls = [] := by
  induction ls with
  | nil => rfl
  | cons l ls ih =>
    rw [squeezeLines, if_pos ⟨h l List.mem_cons_self, rfl⟩]
    exact ih fun l' hl' => h l' (List.mem_cons_of_mem l hl')

theorem count_shown (hl : (0x0a : UInt8) ∉ l) : (l.flatMap p.shownByte).count 0x0a = 0 := by
  rw [List.count_eq_zero]
  intro hmem
  obtain ⟨b, hb, hmem⟩ := List.mem_flatMap.mp hmem
  have hne : b ≠ 0x0a := fun h => hl (h ▸ hb)
  exact forall_bytes (P := fun p b => b ≠ 0x0a → (0x0a : UInt8) ∉ p.shownByte b) (by decide +kernel)
    p.showNonprinting p.showTabs b hne hmem

theorem count_lineEnd (p : Program) : p.lineEnd.count 0x0a = 1 := by
  unfold lineEnd
  split <;> rfl

section Uncounted

variable (hcounts : p.counts = false)

include hcounts

theorem numbers_none (l : List UInt8) : p.numbers l = false := by
  obtain ⟨hnumber, hnonblank⟩ := Bool.or_eq_false_iff.mp hcounts
  rw [numbers, hnumber, hnonblank]
  rfl

theorem takenEmpty_all (l : List UInt8) : p.takenEmpty l := by
  rw [takenEmpty, hcounts]
  rfl

/-- Without numbers every line is taken for an empty one. -/
theorem catLines_squeezed (hsqueeze : p.squeezeBlank) :
    p.catLines n true rest ls = (ls.flatten ++ rest).flatMap p.shownByte := by
  induction ls generalizing n with
  | nil =>
    rw [catLines, numbers_none hcounts]
    split
    · simp [*]
    · rfl
  | cons l ls ih =>
    have hend : p.squeezeBlank ∧ true ∧ p.takenEmpty l := ⟨hsqueeze, rfl, takenEmpty_all hcounts l⟩
    rw [catLines, if_pos hend, takenEmpty_all hcounts, ih, numbers_none hcounts]
    simp

theorem count_showLines (hls : ∀ l ∈ ls, (0x0a : UInt8) ∉ l) (hrest : (0x0a : UInt8) ∉ rest) :
    (p.showLines n rest ls).count 0x0a = ls.length := by
  induction ls generalizing n with
  | nil =>
    rw [showLines, numbers_none hcounts]
    split
    · rfl
    · exact count_shown hrest
  | cons l ls ih =>
    rw [showLines, numbers_none hcounts, List.count_append, List.count_append, List.count_append,
      ih fun l' hl' => hls l' (List.mem_cons_of_mem l hl'), count_shown (hls l List.mem_cons_self),
      count_lineEnd]
    exact Nat.add_comm _ _

/-- Without numbers only one end of a line is left, which is right where only one is to be shown. -/
theorem catLines_squeezed_iff (hsqueeze : p.squeezeBlank) (hls : ∀ l ∈ ls, (0x0a : UInt8) ∉ l)
    (hrest : (0x0a : UInt8) ∉ rest) :
    p.catLines n false rest ls = p.showLines n rest (squeezeLines false ls) ↔
      ls.length ≤ 1 ∨ ∀ l ∈ ls, l = [] := by
  rcases ls with _ | ⟨l, ls⟩
  · exact iff_of_true rfl (.inl (Nat.zero_le 1))
  have hfirst : p.catLines n false rest (l :: ls) =
      l.flatMap p.shownByte ++ p.lineEnd ++ (ls.flatten ++ rest).flatMap p.shownByte := by
    have hend : ¬(p.squeezeBlank ∧ false ∧ p.takenEmpty l) := by
      rintro ⟨-, hfalse, -⟩
      cases hfalse
    rw [catLines, if_neg hend, takenEmpty_all hcounts, catLines_squeezed hcounts hsqueeze,
      numbers_none hcounts]
    rfl
  have hshown : squeezeLines false (l :: ls) = l :: squeezeLines (l = []) ls := by
    rw [squeezeLines, if_neg (by simp)]
  constructor
  · intro heq
    by_contra hnot
    obtain ⟨hlength, hempty⟩ := not_or.mp hnot
    obtain ⟨l', hmem, hne⟩ : ∃ l' ∈ l :: ls, l' ≠ [] := by
      by_contra hall
      exact hempty fun l' hl' => by_contra fun hne => hall ⟨l', hl', hne⟩
    have hmore : ls ≠ [] := by
      rintro rfl
      exact hlength (Nat.le_refl 1)
    have htwo := length_squeezeLines hmem hne hmore
    have hflatten : (0x0a : UInt8) ∉ ls.flatten ++ rest := by
      rw [List.mem_append, List.mem_flatten]
      rintro (⟨l, hl, hin⟩ | hin)
      · exact hls l (List.mem_cons_of_mem _ hl) hin
      · exact hrest hin
    have hcount := congrArg (List.count 0x0a) heq
    rw [hfirst, List.count_append, List.count_append, count_shown (hls l List.mem_cons_self), count_lineEnd,
      count_shown hflatten, count_showLines hcounts
        (fun l hl => hls l ((squeezeLines_sublist _ _).mem hl)) hrest] at hcount
    omega
  · intro h
    have hgone : squeezeLines (l = []) ls = [] ∧ ls.flatten = [] := by
      rcases h with hlength | hempty
      · obtain rfl : ls = [] := List.eq_nil_of_length_eq_zero (Nat.le_zero.mp (Nat.le_of_succ_le_succ hlength))
        exact ⟨rfl, rfl⟩
      · obtain ⟨rfl, hrest⟩ := List.forall_mem_cons.mp hempty
        exact ⟨squeezeLines_empty hrest, List.flatten_eq_nil_iff.mpr hrest⟩
    rw [hfirst, hshown, hgone.1, hgone.2, showLines, showLines, numbers_none hcounts, numbers_none hcounts]
    by_cases hne : rest = []
    · subst hne
      simp
    · simp [hne]

end Uncounted

section Bytes

variable {Q : UInt8 → Prop} {input : List UInt8} {c : UInt8}

theorem mem_numberText (h : b ∈ numberText n) : b = 0x20 ∨ 0x30 ≤ b ∧ b ≤ 0x39 := by
  rcases List.mem_append.mp h with h | h
  · rcases List.mem_append.mp h with h | h
    · exact .inl (List.eq_of_mem_replicate h)
    · exact .inr (mem_digits h)
  · exact .inl (List.eq_of_mem_replicate (n := 2) h)

theorem mem_lineEnd (h : b ∈ p.lineEnd) : b = 0x24 ∨ b = 0x0a := by
  unfold lineEnd at h
  split at h
  · simpa using h
  · exact .inr (List.mem_singleton.mp h)

/-- A step writes a number, the end of a line or what it writes for its byte, and keeps the rest. -/
theorem step_stdout (p : Program) (s : State) (c : UInt8) : ∃ out, (p.step s c).stdout = s.stdout ++ out ∧
    (∀ b ∈ out, b ∈ numberText s.lineCount ∨ b ∈ p.lineEnd ∨ b ∈ p.written c) ∧
    (c ≠ 0x0a → ¬(IsControl c ∧ !p.showNonprinting) → ∀ b ∈ p.written c, b ∈ out) := by
  have hnumber : ∃ out, (p.stepNumber s c).stdout = s.stdout ++ out ∧ ∀ b ∈ out, b ∈ numberText s.lineCount := by
    unfold stepNumber
    split
    · exact ⟨_, rfl, fun b hb => hb⟩
    · exact ⟨[], (List.append_nil _).symm, nofun⟩
  obtain ⟨out, hout, hmem⟩ := hnumber
  unfold step
  by_cases hc : c = 0x0a
  · rw [if_pos hc, stepNewline_eq]
    generalize hends : (if p.squeezeBlank ∧ (p.stepNumber s c).lastLineWasBlank ∧
      (p.stepNumber s c).characterCount = 0 then [] else p.lineEnd) = ends
    have hmemEnds : ∀ b ∈ ends, b ∈ p.lineEnd := by
      subst hends
      intro b hb
      split at hb
      · cases hb
      · exact hb
    refine ⟨out ++ ends, ?_, ?_, fun hne => absurd hc hne⟩
    · exact (congrArg (· ++ ends) hout).trans (List.append_assoc _ _ _)
    · intro b hb
      exact (List.mem_append.mp hb).imp (hmem b) fun hb => .inl (hmemEnds b hb)
  · rw [if_neg hc, stepByte_eq]
    split
    · exact ⟨out, hout, fun b hb => .inl (hmem b hb), fun _ hnot => absurd ‹_› hnot⟩
    · rw [countCharacter_eq]
      refine ⟨out ++ p.written c, ?_, ?_, fun _ _ b hb => List.mem_append_right _ hb⟩
      · exact (congrArg (· ++ _) hout).trans (List.append_assoc _ _ _)
      · intro b hb
        exact (List.mem_append.mp hb).imp (hmem b) .inr

theorem foldl_stdout (hnumber : ∀ n, ∀ b ∈ numberText n, Q b) (hend : ∀ b ∈ p.lineEnd, Q b)
    (hbyte : ∀ c, ∀ b ∈ p.written c, Q b) (hs : ∀ b ∈ s.stdout, Q b) :
    ∀ b ∈ (input.foldl p.step s).stdout, Q b := by
  induction input generalizing s with
  | nil => exact hs
  | cons c input ih =>
    apply ih
    obtain ⟨out, hout, hmem, -⟩ := step_stdout p s c
    intro b hb
    rw [hout] at hb
    rcases List.mem_append.mp hb with hb | hb
    · exact hs b hb
    · rcases hmem b hb with hb | hb | hb
      · exact hnumber _ b hb
      · exact hend b hb
      · exact hbyte c b hb

/-- What has been written stays. -/
theorem mem_foldl_stdout (hb : b ∈ s.stdout) : b ∈ (input.foldl p.step s).stdout := by
  induction input generalizing s with
  | nil => exact hb
  | cons c input ih =>
    apply ih
    obtain ⟨out, hout, -⟩ := step_stdout p s c
    rw [hout]
    exact List.mem_append_left out hb

theorem mem_foldl_written (hc : c ∈ input) (hne : c ≠ 0x0a) (hnot : ¬(IsControl c ∧ !p.showNonprinting))
    (hb : b ∈ p.written c) : b ∈ (input.foldl p.step s).stdout := by
  induction input generalizing s with
  | nil => cases hc
  | cons c' input ih =>
    rcases List.mem_cons.mp hc with rfl | hc
    · obtain ⟨out, hout, -, hmem⟩ := step_stdout p s c
      apply mem_foldl_stdout (s := p.step s c)
      rw [hout]
      exact List.mem_append_right _ (hmem hne hnot b hb)
    · exact ih hc

theorem showLines_bytes (hnumber : ∀ n, ∀ b ∈ numberText n, Q b) (hend : ∀ b ∈ p.lineEnd, Q b)
    (hbyte : ∀ c, ∀ b ∈ p.shownByte c, Q b) : ∀ b ∈ p.showLines n rest ls, Q b := by
  have hshown : ∀ (n : Nat) (l : List UInt8),
      ∀ b ∈ (if p.numbers l then numberText n else []) ++ l.flatMap p.shownByte, Q b := by
    intro n l b hb
    rcases List.mem_append.mp hb with hb | hb
    · split at hb
      · exact hnumber n b hb
      · cases hb
    · obtain ⟨c, -, hb⟩ := List.mem_flatMap.mp hb
      exact hbyte c b hb
  induction ls generalizing n with
  | nil =>
    rw [showLines]
    split
    · exact nofun
    · exact hshown n rest
  | cons l ls ih =>
    intro b hb
    rw [showLines] at hb
    rcases List.mem_append.mp hb with hb | hb
    · rcases List.mem_append.mp hb with hb | hb
      · exact hshown n l b hb
      · exact hend b hb
    · exact ih b hb

/-- A byte of a line is shown. -/
theorem mem_showLines (hc : (∃ l ∈ ls, c ∈ l) ∨ c ∈ rest) (hb : b ∈ p.shownByte c) :
    b ∈ p.showLines n rest ls := by
  induction ls generalizing n with
  | nil =>
    have hrest : c ∈ rest := hc.resolve_left nofun
    rw [showLines, if_neg (List.ne_nil_of_mem hrest)]
    exact List.mem_append_right _ (List.mem_flatMap.mpr ⟨c, hrest, hb⟩)
  | cons l ls ih =>
    rw [showLines]
    by_cases hl : c ∈ l
    · exact List.mem_append_left _ (List.mem_append_left _ (List.mem_append_right _
        (List.mem_flatMap.mpr ⟨c, hl, hb⟩)))
    · refine List.mem_append_right _ (ih ?_)
      rcases hc with ⟨l', hl', hmem⟩ | hrest
      · rcases List.mem_cons.mp hl' with rfl | hl'
        · exact absurd hmem hl
        · exact .inl ⟨l', hl', hmem⟩
      · exact .inr hrest

end Bytes

variable {input : List UInt8}

theorem shown_joinLines (hls : ∀ l ∈ ls, (0x0a : UInt8) ∉ l) (hrest : (0x0a : UInt8) ∉ rest) :
    p.shown (joinLines 0x0a ls rest) =
      p.showLines 0 rest (if p.squeezeBlank then squeezeLines false ls else ls) := by
  rw [shown, fullLines_joinLines hls hrest, lastPart_joinLines hls hrest]

theorem squeezable_joinLines (hls : ∀ l ∈ ls, (0x0a : UInt8) ∉ l) (hrest : (0x0a : UInt8) ∉ rest) :
    p.Squeezable (joinLines 0x0a ls rest) ↔ if p.number then squeezeLines false ls = ls
      else p.numberNonblank ∨ ls.length ≤ 1 ∨ ∀ l ∈ ls, l = [] := by
  rw [Squeezable, fullLines_joinLines hls hrest]

theorem cat_not_control (hv : p.showNonprinting = false) : ∀ b ∈ (p.cat input 0).stdout, ¬IsControl b := by
  refine foldl_stdout (Q := fun b => ¬IsControl b) ?_ ?_ ?_ (List.forall_mem_nil _)
  · intro n b hb
    exact forall_bytes (P := fun _ b => b = 0x20 ∨ 0x30 ≤ b ∧ b ≤ 0x39 → ¬IsControl b) (by decide +kernel)
      false false b (mem_numberText hb)
  · intro b hb
    rcases mem_lineEnd hb with rfl | rfl <;> decide
  · intro c b hb
    have hall := forall_bytes (P := fun p c => p.showNonprinting = false →
        (p.written c).all fun b => !decide (IsControl b))
      (by decide +kernel) p.showNonprinting p.showTabs c hv
    simpa using List.all_eq_true.mp hall b hb

theorem showLines_not_del (hv : p.showNonprinting) : ∀ b ∈ p.showLines n rest ls, b ≠ 127 := by
  refine showLines_bytes ?_ ?_ ?_
  · intro n b hb
    exact forall_bytes (P := fun _ b => b = 0x20 ∨ 0x30 ≤ b ∧ b ≤ 0x39 → b ≠ 127) (by decide +kernel)
      false false b (mem_numberText hb)
  · intro b hb
    rcases mem_lineEnd hb with rfl | rfl <;> decide
  · intro c b hb
    have hall := forall_bytes (P := fun p c => p.showNonprinting → (p.shownByte c).all (· != 127))
      (by decide +kernel) p.showNonprinting p.showTabs c hv
    exact bne_iff_ne.mp (List.all_eq_true.mp hall b hb)

/-- A byte that the loop loses, or shows as another one -/
theorem cat_ne_shown (hb : b ∈ input) (hfaithful : ¬p.Faithful b) : (p.cat input 0).stdout ≠ p.shown input := by
  intro heq
  have hnewline : b ≠ 0x0a := by
    rintro rfl
    apply hfaithful
    unfold Faithful
    split <;> decide
  have hline : ∃ ls rest, p.shown input = p.showLines 0 rest ls ∧ ((∃ l ∈ ls, b ∈ l) ∨ b ∈ rest) := by
    obtain ⟨ls, rest, rfl, hls, hrest⟩ := exists_lines 0x0a input
    refine ⟨_, rest, shown_joinLines hls hrest, ?_⟩
    rcases mem_joinLines.mp hb with ⟨l, hl, hmem⟩ | hmem
    · have hin : b ∈ l := (List.mem_append.mp hmem).resolve_right fun h => hnewline (List.mem_singleton.mp h)
      refine .inl ⟨l, ?_, hin⟩
      split
      · exact mem_squeezeLines (List.ne_nil_of_mem hin) hl
      · exact hl
    · exact .inr hmem
  obtain ⟨ls, rest, hshown, hmem⟩ := hline
  rw [hshown] at heq
  cases hv : p.showNonprinting with
  | false =>
    have hcontrol : IsControl b := by
      by_contra hnot
      exact hfaithful (by rwa [Faithful, if_neg (by rw [hv]; decide)])
    have hself := forall_bytes (P := fun p b => p.showNonprinting = false → IsControl b → b ∈ p.shownByte b)
      (by decide +kernel) p.showNonprinting p.showTabs b hv hcontrol
    have hin : b ∈ (p.cat input 0).stdout := heq ▸ mem_showLines hmem hself
    exact cat_not_control hv b hin hcontrol
  | true =>
    have hdel : b = 255 := by
      by_contra hnot
      exact hfaithful (by rwa [Faithful, if_pos hv])
    subst hdel
    have hin : 127 ∈ (p.cat input 0).stdout := by
      refine mem_foldl_written hb hnewline (fun h => absurd h.1 (by decide)) ?_
      simp [written, hv]
    rw [heq] at hin
    exact showLines_not_del hv 127 hin rfl

/-- The loop writes what is to be shown for these inputs, and no others. -/
theorem cat_eq_shown_iff (p : Program) (input : List UInt8) : (p.cat input 0).stdout = p.shown input ↔
    (∀ b ∈ input, p.Faithful b) ∧ (p.squeezeBlank → p.Squeezable input) := by
  by_cases hfaithful : ∀ b ∈ input, p.Faithful b
  · rw [and_iff_right hfaithful]
    obtain ⟨ls, rest, rfl, hls, hrest⟩ := exists_lines 0x0a input
    have hcat : (p.cat (joinLines 0x0a ls rest) 0).stdout = p.catLines 0 false rest ls := by
      refine (foldl_lines ?_ ?_).trans (List.nil_append _)
      · intro l hl b hb
        exact ⟨fun h => hls l hl (h ▸ hb),
          hfaithful b (mem_joinLines.mpr (.inl ⟨l, hl, List.mem_append_left _ hb⟩))⟩
      · intro b hb
        exact ⟨fun h => hrest (h ▸ hb), hfaithful b (mem_joinLines.mpr (.inr hb))⟩
    rw [hcat, shown_joinLines hls hrest, squeezable_joinLines hls hrest]
    cases hsqueeze : p.squeezeBlank with
    | false => exact iff_of_true (catLines_eq hsqueeze) nofun
    | true =>
      rw [if_pos rfl, forall_prop_of_true rfl]
      cases hnumber : p.number with
      | true =>
        rw [if_pos rfl]
        constructor
        · intro heq
          have hcount : (p.catLines 0 false rest ls).count 0x20 + 7 * (squeezeLines false ls).length =
              (p.showLines 0 rest (squeezeLines false ls)).count 0x20 + 7 * ls.length :=
            count_catLines hnumber hsqueeze 0 0
          rw [heq] at hcount
          exact (squeezeLines_sublist false ls).eq_of_length (by omega)
        · intro h
          rw [h, catLines_number hnumber h]
      | false =>
        rw [if_neg (by decide)]
        cases hnonblank : p.numberNonblank with
        | true => exact iff_of_true (catLines_nonblank hnumber hnonblank hsqueeze) (.inl rfl)
        | false =>
          have hcounts : p.counts = false := by
            rw [counts, hnumber, hnonblank]
            rfl
          rw [catLines_squeezed_iff hcounts hsqueeze hls hrest]
          simp
  · obtain ⟨b, hb, hnot⟩ : ∃ b ∈ input, ¬p.Faithful b := by
      by_contra hall
      exact hfaithful fun b hb => by_contra fun hnot => hall ⟨b, hb, hnot⟩
    exact iff_of_false (cat_ne_shown hb hnot) fun h => hfaithful h.1

/-- What the letters of options ask for: of `n` and `b` the last one counts. -/
def asked (letters : List Char) : Program where
  number := (letters.filter (· ∈ ['n', 'b'])).getLast? = some 'n'
  numberNonblank := (letters.filter (· ∈ ['n', 'b'])).getLast? = some 'b'
  showEnds := letters.any (· ∈ ['A', 'e', 'E'])
  showTabs := letters.any (· ∈ ['A', 't', 'T'])
  showNonprinting := letters.any (· ∈ ['A', 'e', 't', 'v'])
  squeezeBlank := 's' ∈ letters

/-- The letters that are options of the loop -/
def letters : List Char := ['A', 'b', 'e', 'E', 'n', 's', 't', 'T', 'v']

theorem readLetter_asked {c : Char} (hc : c ∈ letters) (read : List Char) :
    (asked read).readLetter c = some (asked (read ++ [c])) := by
  simp only [letters, List.mem_cons, List.not_mem_nil, or_false] at hc
  rcases hc with rfl | rfl | rfl | rfl | rfl | rfl | rfl | rfl | rfl <;> simp [asked, readLetter]

theorem foldlM_asked {read more : List Char} (hmore : ∀ c ∈ more, c ∈ letters) :
    more.foldlM readLetter (asked read) = some (asked (read ++ more)) := by
  induction more generalizing read with
  | nil => simp
  | cons c more ih =>
    rw [List.foldlM_cons, readLetter_asked (hmore c List.mem_cons_self), Option.bind_eq_bind, Option.bind_some,
      ih fun c' hc' => hmore c' (List.mem_cons_of_mem c hc'), ← List.append_cons]

theorem initializeArgs_asked {groups : List (List Char)} {read : List Char}
    (hgroups : ∀ g ∈ groups, g ≠ [] ∧ ∀ c ∈ g, c ∈ letters) :
    initializeArgs (asked read) [] (groups.map ('-' :: ·)) = some (asked (read ++ groups.flatten), []) := by
  induction groups generalizing read with
  | nil => simp [initializeArgs]
  | cons g groups ih =>
    obtain ⟨hne, hg⟩ := hgroups g List.mem_cons_self
    obtain ⟨c, g, rfl⟩ := List.exists_cons_of_ne_nil hne
    have hdash : c ≠ '-' := by
      rintro rfl
      exact absurd (hg '-' List.mem_cons_self) (by decide)
    rw [List.map_cons, initializeArgs.eq_3 _ _ _ _ _ (by simpa using hdash), foldlM_asked hg, Option.bind_some,
      ih fun g' hg' => hgroups g' (List.mem_cons_of_mem _ hg'), List.flatten_cons, List.append_assoc]

theorem readLetter_flagsEnabled {c : Char} {p' : Program} (h : p.readLetter c = some p') : p'.flagsEnabled := by
  unfold readLetter at h
  split at h <;> cases h <;> simp [flagsEnabled]

theorem asked_flagsEnabled {read : List Char} (hread : ∀ c ∈ read, c ∈ letters) (hne : read ≠ []) :
    (asked read).flagsEnabled := by
  have hlast := readLetter_asked (hread _ (List.getLast_mem hne)) read.dropLast
  rw [List.dropLast_concat_getLast] at hlast
  exact readLetter_flagsEnabled hlast

/-- Without options there is nothing to change. -/
theorem shown_new (input : List UInt8) : new.shown input = input := by
  obtain ⟨ls, rest, rfl, hls, hrest⟩ := exists_lines 0x0a input
  have hbyte : ∀ l : List UInt8, l.flatMap new.shownByte = l := by
    intro l
    refine (List.flatMap_congr fun b _ => ?_).trans (List.flatMap_singleton' l)
    simp [shownByte, new]
  have hlines : ∀ n, new.showLines n rest ls = joinLines 0x0a ls rest := by
    clear hls
    induction ls with
    | nil =>
      intro n
      rw [showLines, hbyte]
      split
      · exact (‹rest = []›).symm
      · rfl
    | cons l ls ih =>
      intro n
      rw [showLines, hbyte, ih, joinLines_cons]
      rw [List.append_assoc]
      rfl
  rw [shown_joinLines hls hrest]
  exact hlines 0

/-- `cat` with these options, each given by letters behind a dash, shows its input as they say where the loop
loses no byte and finds the empty lines. -/
theorem and_execute_shown_iff (groups : List (List Char))
    (hgroups : ∀ g ∈ groups, g ≠ [] ∧ ∀ c ∈ g, c ∈ letters) (input : List UInt8) :
    (∃ p, initializeArgs new [] (groups.map ('-' :: ·)) = some (p, []) ∧
      p.andExecute input = (asked groups.flatten).shown input) ↔
      groups = [] ∨ (∀ b ∈ input, (asked groups.flatten).Faithful b) ∧
        ((asked groups.flatten).squeezeBlank → (asked groups.flatten).Squeezable input) := by
  have hread : initializeArgs new [] (groups.map ('-' :: ·)) = some (asked groups.flatten, []) :=
    @initializeArgs_asked groups [] hgroups
  have hall : ∀ c ∈ groups.flatten, c ∈ letters := by
    intro c hc
    obtain ⟨g, hg, hmem⟩ := List.mem_flatten.mp hc
    exact (hgroups g hg).2 c hmem
  have hrun : (∃ p, initializeArgs new [] (groups.map ('-' :: ·)) = some (p, []) ∧
      p.andExecute input = (asked groups.flatten).shown input) ↔
      (asked groups.flatten).andExecute input = (asked groups.flatten).shown input := by
    rw [hread]
    constructor
    · rintro ⟨p, hp, h⟩
      cases hp
      exact h
    · intro h
      exact ⟨_, rfl, h⟩
  rw [hrun]
  by_cases hnone : groups = []
  · subst hnone
    exact iff_of_true (shown_new input).symm (.inl rfl)
  · have hne : groups.flatten ≠ [] := by
      obtain ⟨g, groups, rfl⟩ := List.exists_cons_of_ne_nil hnone
      exact List.append_ne_nil_of_left_ne_nil (hgroups g List.mem_cons_self).1 _
    rw [andExecute, if_pos (asked_flagsEnabled hall hne), or_iff_right hnone]
    exact cat_eq_shown_iff _ input

/-- With numbers for "a" and an empty line -/
theorem and_execute_shown_iff_n :
    (∃ p, initializeArgs new [] [['-', 'n'], ['-', 's', 'E']] = some (p, []) ∧
      p.andExecute [0x61, 0x0a, 0x0a] = (asked ['n', 's', 'E']).shown [0x61, 0x0a, 0x0a]) ↔
      [['n'], ['s', 'E']] = [] ∨ (∀ b ∈ [0x61, 0x0a, 0x0a], (asked ['n', 's', 'E']).Faithful b) ∧
        ((asked ['n', 's', 'E']).squeezeBlank → (asked ['n', 's', 'E']).Squeezable [0x61, 0x0a, 0x0a]) :=
  and_execute_shown_iff [['n'], ['s', 'E']]
    (List.forall_mem_cons.mpr ⟨⟨List.cons_ne_nil _ _, List.forall_mem_singleton.mpr (by decide)⟩,
      List.forall_mem_singleton.mpr ⟨List.cons_ne_nil _ _,
        List.forall_mem_cons.mpr ⟨by decide, List.forall_mem_singleton.mpr (by decide)⟩⟩⟩)
    [0x61, 0x0a, 0x0a]

/-- `cat -s` joins the lines "a" and "b", and `cat -E` loses a byte. -/
theorem cat_s_joins :
    ¬(∃ p, initializeArgs new [] [['-', 's']] = some (p, []) ∧
      p.andExecute [0x61, 0x0a, 0x62, 0x0a] = (asked ['s']).shown [0x61, 0x0a, 0x62, 0x0a]) ∧
    ¬(∃ p, initializeArgs new [] [['-', 'E']] = some (p, []) ∧
      p.andExecute [0x61, 0x01] = (asked ['E']).shown [0x61, 0x01]) := by
  constructor
  · rintro ⟨p, hp, h⟩
    obtain ⟨rfl, -⟩ := Prod.mk.inj (Option.some.inj hp)
    exact absurd h (by decide)
  · rintro ⟨p, hp, h⟩
    obtain ⟨rfl, -⟩ := Prod.mk.inj (Option.some.inj hp)
    exact absurd h (by decide)

end Origel.Coreutils.Program
