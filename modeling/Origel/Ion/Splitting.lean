import Origel.Ion.Scanners

/-! The commands that a line is split into, and the flags with which their characters are read. -/
namespace Origel.Ion

variable {command args : List Char} {c : Char} {it it' : PipelineIterator}
  {out : Option (List Char)} {k : Nat}

theorem QuoteFlags.unquoted_iff {f : QuoteFlags} : f.unquoted ↔ f = .none := by
  cases f
  simp [QuoteFlags.unquoted, QuoteFlags.valid, QuoteFlags.none]
  tauto

namespace PipelineIterator

/-- Characters that end a command -/
def separates (c : Char) : Prop := c = ';' ∨ c = '\n' ∨ c = '\r'

/-- Characters that are read apart where they are not quoted -/
def delimits (c : Char) : Prop := (c = ' ' ∨ c = '\t') ∨ separates c

instance : DecidablePred separates := fun c => inferInstanceAs (Decidable (c = _ ∨ c = _ ∨ c = _))

instance : DecidablePred delimits := fun _ => inferInstanceAs (Decidable (_ ∨ separates _))

/-- What a character does: `step` with the quotes of the character put together -/
inductive Steps (it : PipelineIterator) (c : Char) : Option (List Char) → PipelineIterator → Prop
  | uncomment (hcomment : it.flags.comment) (hc : c = '\n') :
    Steps it c none { it with
      flags := { it.flags with comment := false }
      indexStart := it.indexEnd + 1
      indexEnd := it.indexEnd + 1 }
  | skip (hcomment : it.flags.comment) (hc : c ≠ '\n') :
    Steps it c none { it with indexEnd := it.indexEnd + 1 }
  | read (hcomment : it.flags.comment = false)
    (hc : it.flags.quotes.unquoted → ¬delimits c) :
    Steps it c none (it.read (quote it.flags.quotes c) false)
  | comment {text : List Char} (hcomment : it.flags.comment = false) (hq : it.flags.quotes = .none) (hc : c = '#')
    (hw : it.flags.whitespace) (hlt : it.indexStart < it.whitePos)
    (hslice : slice it.matchStr it.indexStart it.whitePos = some text) :
    Steps it c (some text) { it with
      flags := { it.flags with comment := true }
      indexStart := it.indexEnd + 1
      indexEnd := it.indexEnd + 1 }
  | commentOnly (hcomment : it.flags.comment = false) (hq : it.flags.quotes = .none) (hc : c = '#')
    (hw : it.flags.whitespace) (hge : it.whitePos ≤ it.indexStart) :
    Steps it c none { it.read .none true with indexStart := it.indexEnd + 1 }
  | blank (hcomment : it.flags.comment = false) (hq : it.flags.quotes = .none)
    (hc : c = ' ' ∨ c = '\t') :
    Steps it c none
      (it.blank (if it.indexStart = it.indexEnd then it.indexStart + 1 else it.indexStart))
  | separateNone (hcomment : it.flags.comment = false) (hq : it.flags.quotes = .none)
    (hc : separates c) (heq : it.indexStart = it.indexEnd) : Steps it c none (it.blank (it.indexStart + 1))
  | separate {text : List Char} (hcomment : it.flags.comment = false) (hq : it.flags.quotes = .none)
    (hc : separates c) (hne : it.indexStart ≠ it.indexEnd)
    (hslice : slice it.matchStr it.indexStart it.indexEnd = some text) :
    Steps it c (if anyVisible text then some text else none) (it.blank (it.indexEnd + 1))

theorem Steps.of_quote {quotes : QuoteFlags} (hcomment : it.flags.comment = false)
    (hquote : quote it.flags.quotes c = quotes)
    (hc : it.flags.quotes.unquoted → ¬delimits c) :
    Steps it c none (it.read quotes false) :=
  hquote ▸ .read hcomment hc

theorem step_comment (hcomment : it.flags.comment) (h : it.step c = some (out, it')) :
    Steps it c out it' := by
  by_cases hc : c = '\n'
  · rw [step, if_pos hcomment, if_pos hc] at h
    cases h
    exact .uncomment hcomment hc
  · rw [step, if_pos hcomment, if_neg hc] at h
    cases h
    exact .skip hcomment hc

/-- A character that changes nothing about quotes. -/
theorem step_plain (hcomment : it.flags.comment = false) (hback : ¬it.flags.quotes.backslash)
    (hescape : c ≠ '\\')
    (hsingle : ¬(c = '\'' ∧ !(it.flags.quotes.processTwo || it.flags.quotes.doubleQuote)))
    (hdouble : ¬(c = '"' ∧ !(it.flags.quotes.processTwo || it.flags.quotes.singleQuote)))
    (hdollar : ¬(c = '$' ∧ it.flags.quotes.valid)) (hopen : ¬(c = '(' ∧ it.flags.quotes.isProcessOne))
    (hclose : ¬(c = ')' ∧ it.flags.quotes.isProcessTwo)) (h : it.step c = some (out, it')) :
    Steps it c out it' := by
  rw [step, if_neg (Bool.eq_false_iff.mp hcomment), if_neg hback, if_neg hescape, if_neg hsingle,
    if_neg hdouble, if_neg hdollar, if_neg hopen, if_neg hclose] at h
  have hnone : it.flags.quotes.valid → it.flags.quotes = .none := by
    intro hvalid
    apply QuoteFlags.unquoted_iff.mp
    simp [QuoteFlags.unquoted, hvalid, hback]
  have hquote : quote it.flags.quotes c = it.flags.quotes.leaveProcess := by
    rw [quote, if_neg hback, if_neg hescape, if_neg hsingle, if_neg hdouble, if_neg hdollar, if_neg hopen,
      if_neg hclose]
  by_cases hhash : c = '#' ∧ it.flags.quotes.valid ∧ it.flags.whitespace
  · obtain ⟨hc, hvalid, hw⟩ := hhash
    rw [if_pos ⟨hc, hvalid, hw⟩] at h
    by_cases hlt : it.indexStart < it.whitePos
    · rw [if_pos hlt] at h
      obtain ⟨text, hslice, hsome⟩ := Option.bind_eq_some_iff.mp h
      cases hsome
      exact .comment hcomment (hnone hvalid) hc hw hlt hslice
    · rw [if_neg hlt, hnone hvalid] at h
      cases h
      exact .commentOnly hcomment (hnone hvalid) hc hw (Nat.le_of_not_lt hlt)
  rw [if_neg hhash] at h
  by_cases hblank : (c = ' ' ∨ c = '\t') ∧ it.flags.quotes.valid
  · rw [if_pos hblank] at h
    cases h
    exact .blank hcomment (hnone hblank.2) hblank.1
  rw [if_neg hblank] at h
  by_cases hsep : (c = ';' ∨ c = '\n' ∨ c = '\r') ∧ it.flags.quotes.valid
  · rw [if_pos hsep] at h
    by_cases heq : it.indexStart = it.indexEnd
    · rw [if_pos heq] at h
      cases h
      exact .separateNone hcomment (hnone hsep.2) hsep.1 heq
    · rw [if_neg heq] at h
      obtain ⟨text, hslice, hsome⟩ := Option.bind_eq_some_iff.mp h
      cases hsome
      exact .separate hcomment (hnone hsep.2) hsep.1 heq hslice
  rw [if_neg hsep] at h
  cases h
  refine .of_quote hcomment hquote fun hunquoted => ?_
  rw [QuoteFlags.unquoted_iff.mp hunquoted] at hblank hsep
  rintro (hc | hc)
  · exact hblank ⟨hc, rfl⟩
  · exact hsep ⟨hc, rfl⟩

theorem step_cases (h : it.step c = some (out, it')) : Steps it c out it' := by
  by_cases hcomment : it.flags.comment
  · exact step_comment hcomment h
  have hstep := h
  rw [step, if_neg hcomment] at h
  rw [Bool.not_eq_true] at hcomment
  by_cases hback : it.flags.quotes.backslash
  · rw [if_pos hback] at h
    cases h
    refine .of_quote hcomment (by rw [quote, if_pos hback]) fun hunquoted => ?_
    rw [QuoteFlags.unquoted_iff.mp hunquoted] at hback
    cases hback
  rw [if_neg hback] at h
  by_cases hescape : c = '\\'
  · rw [if_pos hescape] at h
    cases h
    refine .of_quote hcomment (by rw [quote, if_neg hback, if_pos hescape]) fun _ => ?_
    rw [hescape]
    decide
  rw [if_neg hescape] at h
  by_cases hsingle : c = '\'' ∧ !(it.flags.quotes.processTwo || it.flags.quotes.doubleQuote)
  · rw [if_pos hsingle] at h
    cases h
    refine .of_quote hcomment (by rw [quote, if_neg hback, if_neg hescape, if_pos hsingle]) fun _ => ?_
    rw [hsingle.1]
    decide
  rw [if_neg hsingle] at h
  by_cases hdouble : c = '"' ∧ !(it.flags.quotes.processTwo || it.flags.quotes.singleQuote)
  · rw [if_pos hdouble] at h
    cases h
    refine .of_quote hcomment (by
      rw [quote, if_neg hback, if_neg hescape, if_neg hsingle, if_pos hdouble]) fun _ => ?_
    rw [hdouble.1]
    decide
  rw [if_neg hdouble] at h
  by_cases hdollar : c = '$' ∧ it.flags.quotes.valid
  · rw [if_pos hdollar] at h
    cases h
    refine .of_quote hcomment (by
      rw [quote, if_neg hback, if_neg hescape, if_neg hsingle, if_neg hdouble, if_pos hdollar])
      fun _ => ?_
    rw [hdollar.1]
    decide
  rw [if_neg hdollar] at h
  by_cases hopen : c = '(' ∧ it.flags.quotes.isProcessOne
  · rw [if_pos hopen] at h
    cases h
    refine .of_quote hcomment (by
      rw [quote, if_neg hback, if_neg hescape, if_neg hsingle, if_neg hdouble, if_neg hdollar,
        if_pos hopen]) fun _ => ?_
    rw [hopen.1]
    decide
  rw [if_neg hopen] at h
  by_cases hclose : c = ')' ∧ it.flags.quotes.isProcessTwo
  · rw [if_pos hclose] at h
    cases h
    refine .of_quote hcomment (by
      rw [quote, if_neg hback, if_neg hescape, if_neg hsingle, if_neg hdouble, if_neg hdollar,
        if_neg hopen, if_pos hclose]) fun _ => ?_
    rw [hclose.1]
    decide
  exact step_plain hcomment hback hescape hsingle hdouble hdollar hopen hclose hstep

/-- The iterator when it has read so many characters of the line. -/
def after (command : List Char) : Nat → Option PipelineIterator
  | 0 => new command
  | k + 1 => (after command k).bind fun it =>
    command[k]?.bind fun character => (it.step character).map Prod.snd

/-- The flags behind a text that begins where nothing is quoted -/
def quotesOf (text : List Char) : QuoteFlags := text.foldl quote .none

theorem quotesOf_concat (text : List Char) (c : Char) :
    quotesOf (text ++ [c]) = quote (quotesOf text) c := List.foldl_concat quote .none c text

/-- The iterator is within a command that began at `indexStart`, and has read its quotes from there. -/
structure Within (command : List Char) (k : Nat) (it : PipelineIterator) : Prop where
  after : after command k = some it
  matchStr : it.matchStr = command
  indexEnd : it.indexEnd = k
  whitePos : it.whitePos ≤ k
  comment : it.flags.comment → it.flags.quotes = .none
  start : it.flags.comment = false → it.indexStart ≤ k
  first : it.flags.comment = false → it.indexStart < k →
    ∃ c, command[it.indexStart]? = some c ∧ ¬delimits c
  quotes : it.flags.comment = false → ∀ j ≤ k, it.indexStart ≤ j →
    ∃ itj, PipelineIterator.after command j = some itj ∧ itj.flags.comment = false ∧
      itj.flags.quotes = quotesOf ((command.drop it.indexStart).take (j - it.indexStart))

/-- Where the command of the next character begins, and what its quotes are then -/
inductive Goes (it : PipelineIterator) (c : Char) (it' : PipelineIterator) : Prop
  | on (hbefore : it.flags.comment = false) (hcomment : it'.flags.comment = false)
    (hstart : it'.indexStart = it.indexStart) (hquotes : it'.flags.quotes = quote it.flags.quotes c)
    (hfirst : it.indexStart = it.indexEnd → it.flags.quotes.unquoted → ¬delimits c)
  | anew (hstart : it'.indexStart = it.indexEnd + 1) (hquotes : it'.flags.quotes = .none)
  | skips (hcomment : it'.flags.comment) (hquotes : it'.flags.quotes = .none)

theorem Steps.goes (h : Steps it c out it') (hcomment : it.flags.comment → it.flags.quotes = .none) :
    Goes it c it' := by
  cases h with
  | uncomment hc => exact .anew rfl (hcomment hc)
  | skip hc => exact .skips hc (hcomment hc)
  | read hc hdelimits => exact .on hc rfl rfl rfl fun _ => hdelimits
  | comment hc hq => exact .anew rfl hq
  | commentOnly hc hq => exact .anew rfl rfl
  | blank hc hq hblank =>
    by_cases heq : it.indexStart = it.indexEnd
    · refine .anew ?_ hq
      rw [if_pos heq, heq]
      rfl
    · refine .on hc hc ?_ ?_ fun h => absurd h heq
      · rw [if_neg heq]
        rfl
      · rw [hq]
        rcases hblank with rfl | rfl <;> exact hq
  | separateNone hc hq hsep heq =>
    refine .anew ?_ hq
    rw [heq]
    rfl
  | separate hc hq => exact .anew rfl hq

theorem Steps.indexEnd (h : Steps it c out it') : it'.indexEnd = it.indexEnd + 1 := by
  cases h <;> rfl

theorem Steps.matchStr (h : Steps it c out it') : it'.matchStr = it.matchStr := by
  cases h <;> rfl

theorem Steps.whitePos (h : Steps it c out it') (hle : it.whitePos ≤ it.indexEnd) :
    it'.whitePos ≤ it'.indexEnd := by
  have hblank : ∀ start, (it.blank start).whitePos ≤ it.indexEnd + 1 := by
    intro start
    unfold PipelineIterator.blank
    split
    · exact Nat.le_succ _
    · exact Nat.le_succ_of_le hle
  cases h with
  | uncomment hc => exact Nat.le_succ_of_le hle
  | skip hc => exact Nat.le_succ_of_le hle
  | read hc => exact Nat.zero_le _
  | comment hc => exact Nat.le_succ_of_le hle
  | commentOnly hc => exact Nat.zero_le _
  | blank hc => exact hblank _
  | separateNone hc => exact hblank _
  | separate hc => exact hblank _

theorem Within.step (h : Within command k it) (hc : command[k]? = some c)
    (hstep : it.step c = some (out, it')) : Within command (k + 1) it' := by
  have hsteps := step_cases hstep
  have hafter : PipelineIterator.after command (k + 1) = some it' := by
    rw [PipelineIterator.after, h.after, Option.bind_some, hc, Option.bind_some, hstep]
    rfl
  have hend : it'.indexEnd = k + 1 := hsteps.indexEnd.trans (congrArg (· + 1) h.indexEnd)
  have hwhite := hsteps.whitePos (by rw [h.indexEnd]; exact h.whitePos)
  rw [hend] at hwhite
  have hmatch := hsteps.matchStr.trans h.matchStr
  cases hsteps.goes h.comment with
  | on hbefore hcomment hstart hquotes hfirst =>
    have hle := h.start hbefore
    refine ⟨hafter, hmatch, hend, hwhite, ?_, ?_, ?_, ?_⟩
    · intro hfalse
      rw [hcomment] at hfalse
      cases hfalse
    · intro _
      rw [hstart]
      exact Nat.le_succ_of_le hle
    · intro _ hlt
      rw [hstart] at hlt ⊢
      rcases Nat.lt_or_eq_of_le hle with hlt' | heq
      · exact h.first hbefore hlt'
      · obtain ⟨itk, hitk, -, hread⟩ := h.quotes hbefore k (Nat.le_refl k) hle
        rw [h.after] at hitk
        cases hitk
        rw [heq, Nat.sub_self, List.take_zero] at hread
        refine ⟨c, heq ▸ hc, hfirst (heq.trans h.indexEnd.symm) ?_⟩
        rw [hread]
        rfl
    · intro _ j hj hge
      rw [hstart] at hge ⊢
      rcases Nat.le_succ_iff.mp hj with hj | rfl
      · exact h.quotes hbefore j hj hge
      · refine ⟨it', hafter, hcomment, ?_⟩
        obtain ⟨itk, hitk, -, hread⟩ := h.quotes hbefore k (Nat.le_refl k) hle
        rw [h.after] at hitk
        cases hitk
        have hget : (command.drop it.indexStart)[k - it.indexStart]? = some c := by
          rw [List.getElem?_drop, Nat.add_sub_cancel' hle, hc]
        rw [hquotes, hread, Nat.succ_sub hle, List.take_add_one, hget, Option.toList_some,
          quotesOf_concat]
  | anew hstart hquotes =>
    rw [h.indexEnd] at hstart
    refine ⟨hafter, hmatch, hend, hwhite, fun _ => hquotes, fun _ => Nat.le_of_eq hstart, ?_, ?_⟩
    · intro _ hlt
      omega
    intro hcomment j hj hge
    have hjk : j = k + 1 := Nat.le_antisymm hj (hstart ▸ hge)
    rw [hjk, hstart, Nat.sub_self]
    exact ⟨it', hafter, hcomment, hquotes⟩
  | skips hcomment hquotes =>
    have hnot : it'.flags.comment ≠ false := by
      rw [hcomment]
      decide
    exact ⟨hafter, hmatch, hend, hwhite, fun _ => hquotes, fun hfalse => absurd hfalse hnot,
      fun hfalse => absurd hfalse hnot, fun hfalse => absurd hfalse hnot⟩

theorem within_new (h : new command = some it) : Within command 0 it := by
  cases command with
  | nil => cases h
  | cons c s =>
    cases h
    refine ⟨rfl, rfl, rfl, Nat.le_refl 0, fun _ => rfl, fun _ => Nat.le_refl 0,
      fun _ hlt => absurd hlt (Nat.lt_irrefl 0), ?_⟩
    intro hcomment j hj hge
    rw [Nat.le_zero.mp hj]
    exact ⟨_, rfl, hcomment, rfl⟩

theorem isSome_ite {α : Type} {p : Prop} [Decidable p] {a b : Option α} (ha : p → a.isSome)
    (hb : ¬p → b.isSome) : (if p then a else b).isSome := by
  split
  · rename_i h
    exact ha h
  · rename_i h
    exact hb h

theorem step_isSome (hcut : it.indexStart < it.whitePos → (slice it.matchStr it.indexStart it.whitePos).isSome)
    (hend : it.flags.comment = false → (slice it.matchStr it.indexStart it.indexEnd).isSome) :
    (it.step c).isSome := by
  rw [step]
  refine isSome_ite (fun _ => isSome_ite (fun _ => rfl) fun _ => rfl) fun hcomment => ?_
  refine isSome_ite (fun _ => rfl) fun _ => isSome_ite (fun _ => rfl) fun _ => ?_
  refine isSome_ite (fun _ => rfl) fun _ => isSome_ite (fun _ => rfl) fun _ => ?_
  refine isSome_ite (fun _ => rfl) fun _ => isSome_ite (fun _ => rfl) fun _ => ?_
  refine isSome_ite (fun _ => rfl) fun _ => isSome_ite (fun _ => ?_) fun _ => ?_
  · refine isSome_ite (fun hlt => ?_) fun _ => rfl
    obtain ⟨text, htext⟩ := Option.isSome_iff_exists.mp (hcut hlt)
    rw [htext]
    rfl
  refine isSome_ite (fun _ => rfl) fun _ => isSome_ite (fun _ => ?_) fun _ => rfl
  refine isSome_ite (fun _ => rfl) fun _ => ?_
  obtain ⟨text, htext⟩ := Option.isSome_iff_exists.mp (hend (Bool.not_eq_true _ ▸ hcomment))
  rw [htext]
  rfl

/-- A line of ASCII characters is cut where characters begin. -/
theorem Within.step_isSome (h : Within command k it) (hascii : Ascii command) (hk : k ≤ command.length) :
    (it.step c).isSome := by
  have hwhite := h.whitePos
  apply PipelineIterator.step_isSome
  · intro hlt
    rw [h.matchStr, hascii.slice_eq (Nat.le_of_lt hlt) (Nat.le_trans hwhite hk)]
    rfl
  · intro hcomment
    have hle := h.start hcomment
    rw [h.matchStr, h.indexEnd, hascii.slice_eq hle hk]
    rfl

/-- A command that the line has been cut into, and where it stands in the line -/
structure Cut (command : List Char) (start : Nat) (args : List Char) : Prop where
  stands : (command.drop start).take args.length = args
  quotes : ∀ i ≤ args.length, ∃ it, after command (start + i) = some it ∧
    it.flags.comment = false ∧ it.flags.quotes = quotesOf (args.take i)

theorem Within.cut (h : Within command k it) (hk : k ≤ command.length) (hcomment : it.flags.comment = false)
    {stop : Nat} (hle : it.indexStart ≤ stop) (hstop : stop ≤ k) :
    Cut command it.indexStart ((command.drop it.indexStart).take (stop - it.indexStart)) := by
  have hlength : ((command.drop it.indexStart).take (stop - it.indexStart)).length = stop - it.indexStart := by
    rw [List.length_take, List.length_drop]
    omega
  refine ⟨by rw [hlength], ?_⟩
  intro i hi
  rw [hlength] at hi
  obtain ⟨itj, hitj, hcomment', hquotes⟩ := h.quotes hcomment (it.indexStart + i) (by omega) (by omega)
  refine ⟨itj, hitj, hcomment', ?_⟩
  rw [hquotes, Nat.add_sub_cancel_left, List.take_take, Nat.min_eq_left hi]

/-- Nothing is left to read. -/
structure Exhausted (it : PipelineIterator) : Prop where
  indexEnd : it.matchStr.length ≤ it.indexEnd
  indexStart : it.flags.comment = false → bytes it.matchStr ≤ it.indexStart

theorem Exhausted.next (h : Exhausted it) : it.next = some (none, it) := by
  rw [PipelineIterator.next, List.drop_eq_nil_of_le h.indexEnd, scan, finish, if_neg]
  rintro ⟨hcomment, hlt⟩
  rw [Bool.not_eq_true'] at hcomment
  exact absurd hlt (Nat.not_lt.mpr (h.indexStart hcomment))

/-- What `next` gives, and what it has left to read -/
structure Gives (command : List Char) (k : Nat) (out : Option (List Char)) (it' : PipelineIterator) :
    Prop where
  cut : ∀ args, out = some args → anyVisible args ∧ ∃ start, Cut command start args
  rest : (∃ k' ≤ command.length, k < k' ∧ Within command k' it') ∨ Exhausted it'

theorem Within.finish (h : Within command command.length it) (hascii : Ascii command) :
    ∃ out it', it.finish = some (out, it') ∧ Gives command command.length out it' := by
  by_cases hleft : !it.flags.comment ∧ it.indexStart < bytes it.matchStr
  · have hcomment := hleft.1
    rw [Bool.not_eq_true'] at hcomment
    have hle := h.start hcomment
    rw [PipelineIterator.finish, if_pos hleft, h.matchStr, hascii.sliceFrom_eq hle]
    refine ⟨_, _, rfl, ?_, .inr ⟨?_, fun _ => Nat.le_succ _⟩⟩
    · intro args hargs
      split at hargs
      · rename_i hvisible
        cases hargs
        have hcut := h.cut (Nat.le_refl _) hcomment hle (Nat.le_refl _)
        rw [List.take_of_length_le (Nat.le_of_eq List.length_drop)] at hcut
        exact ⟨hvisible, it.indexStart, hcut⟩
      · cases hargs
    · exact Nat.le_of_eq h.indexEnd.symm
  · rw [PipelineIterator.finish, if_neg hleft]
    refine ⟨none, it, rfl, nofun, .inr ⟨?_, ?_⟩⟩
    · exact Nat.le_of_eq ((congrArg List.length h.matchStr).trans h.indexEnd.symm)
    · intro hcomment
      rw [hcomment] at hleft
      exact Nat.le_of_not_lt fun hlt => hleft ⟨rfl, hlt⟩

theorem visible_of_first {start stop : Nat} (hfirst : command[start]? = some c) (hc : ¬delimits c)
    (hlt : start < stop) : anyVisible ((command.drop start).take (stop - start)) := by
  have hhead : c ∈ (command.drop start).take (stop - start) := by
    apply List.mem_of_getElem? (i := 0)
    rw [List.getElem?_take_of_lt (by omega), List.getElem?_drop, Nat.add_zero, hfirst]
  apply List.any_eq_true.mpr
  refine ⟨c, hhead, ?_⟩
  simp only [delimits, separates, not_or] at hc
  simp [hc.1.1, hc.1.2, hc.2.2.1, hc.2.2.2]

theorem Within.gives (h : Within command k it) (hascii : Ascii command) (hc : command[k]? = some c)
    (hstep : it.step c = some (some args, it')) : Gives command k (some args) it' := by
  have hk : k < command.length := (List.getElem?_eq_some_iff.mp hc).1
  refine ⟨?_, .inl ⟨k + 1, hk, Nat.lt_succ_self k, h.step hc hstep⟩⟩
  intro text htext
  cases htext
  have hwhite := h.whitePos
  generalize hout : some args = out at hstep
  cases step_cases hstep with
  | comment hcomment hq hc hw hlt hslice =>
    cases hout
    obtain ⟨d, hfirst, hd⟩ := h.first hcomment (by omega)
    rw [h.matchStr, hascii.slice_eq (Nat.le_of_lt hlt) (by omega)] at hslice
    cases hslice
    exact ⟨visible_of_first hfirst hd hlt, _, h.cut (Nat.le_of_lt hk) hcomment (Nat.le_of_lt hlt) hwhite⟩
  | separate hcomment hq hc hne hslice =>
    have hle := h.start hcomment
    rw [h.matchStr, h.indexEnd, hascii.slice_eq hle (Nat.le_of_lt hk)] at hslice
    cases hslice
    split at hout
    · rename_i hvisible
      cases hout
      exact ⟨hvisible, _, h.cut (Nat.le_of_lt hk) hcomment hle (Nat.le_refl k)⟩
    · cases hout
  | uncomment => cases hout
  | skip => cases hout
  | read => cases hout
  | commentOnly => cases hout
  | blank => cases hout
  | separateNone => cases hout

theorem Within.scan (h : Within command k it) (hascii : Ascii command) (hk : k ≤ command.length) :
    ∃ out it', it.scan (command.drop k) = some (out, it') ∧ Gives command k out it' := by
  induction hn : command.length - k generalizing k it with
  | zero =>
    have hend : k = command.length := by omega
    subst hend
    rw [List.drop_length]
    exact h.finish hascii
  | succ n ih =>
    have hlt : k < command.length := by omega
    have hc : command[k]? = some command[k] := List.getElem?_eq_getElem hlt
    obtain ⟨⟨out, it'⟩, hstep⟩ :=
      Option.isSome_iff_exists.mp (Within.step_isSome (c := command[k]) h hascii hk)
    rw [List.drop_eq_getElem_cons hlt, PipelineIterator.scan, hstep]
    cases out with
    | some args => exact ⟨_, _, rfl, h.gives hascii hc hstep⟩
    | none =>
      obtain ⟨out, it₂, hscan, hgives⟩ := ih (h.step hc hstep) hlt (by omega)
      refine ⟨out, it₂, hscan, hgives.cut, ?_⟩
      rcases hgives.rest with ⟨k', hk', hlt', hwithin⟩ | hdone
      · exact .inl ⟨k', hk', by omega, hwithin⟩
      · exact .inr hdone

theorem Within.next (h : Within command k it) (hascii : Ascii command) (hk : k ≤ command.length) :
    ∃ out it', it.next = some (out, it') ∧ Gives command k out it' := by
  rw [PipelineIterator.next, h.matchStr, h.indexEnd]
  exact h.scan hascii hk

/-- The iterator between two calls of `next` -/
inductive Called (command : List Char) : PipelineIterator → Prop
  | new {it : PipelineIterator} (h : new command = some it) : Called command it
  | next {it it' : PipelineIterator} {out : Option (List Char)} (hcalled : Called command it)
    (h : it.next = some (out, it')) : Called command it'

theorem Called.within (h : Called command it) (hascii : Ascii command) :
    (∃ k ≤ command.length, Within command k it) ∨ Exhausted it := by
  induction h with
  | new hnew => exact .inl ⟨0, Nat.zero_le _, within_new hnew⟩
  | next hcalled hnext ih =>
    rcases ih with ⟨k, hk, hwithin⟩ | hdone
    · obtain ⟨out, it', hnext', hgives⟩ := hwithin.next hascii hk
      rw [hnext] at hnext'
      cases hnext'
      rcases hgives.rest with ⟨k', hk', -, hwithin'⟩ | hdone
      · exact .inl ⟨k', hk', hwithin'⟩
      · exact .inr hdone
    · rw [hdone.next] at hnext
      cases hnext
      exact .inr hdone

/-- What the iterator gives stands in the line, and is read with the quotes of its own beginning. -/
theorem Called.cut (h : Called command it) (hascii : Ascii command)
    (hnext : it.next = some (some args, it')) : anyVisible args ∧ ∃ start, Cut command start args := by
  rcases h.within hascii with ⟨k, hk, hwithin⟩ | hdone
  · obtain ⟨out, it', hnext', hgives⟩ := hwithin.next hascii hk
    rw [hnext] at hnext'
    cases hnext'
    exact hgives.cut args rfl
  · rw [hdone.next] at hnext
    cases hnext

end PipelineIterator

end Origel.Ion
