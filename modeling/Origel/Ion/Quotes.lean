import Origel.Ion.Words

/-! Text in quotes, which is expanded to itself. -/
namespace Origel.Ion

open Origel.Lib

/-- Just the quote is open. -/
def openQuote (quote : Char) : WordFlags :=
  ⟨false, quote = '\'', quote = '"', false, false, false, false, false⟩

/-- A character that is itself between two quotes. -/
def Literal (quote character : Char) : Prop :=
  character ≠ quote ∧ character ≠ '\\' ∧ (quote = '"' → character ≠ '$')

def IsQuote (quote : Char) : Prop := quote = '\'' ∨ quote = '"'

variable {data chars pre text : List Char} {quote character : Char} {start read openBraceId : Nat}

namespace WordIterator

theorem scan_literal (hq : IsQuote quote) (hc : Literal quote character) (hne : character ≠ ' ') :
    scan data (character :: chars) start read openBraceId none false (openQuote quote) =
      scan data chars start (read + 1) openBraceId none false (openQuote quote) := by
  obtain ⟨hquote, hback, hvar⟩ := hc
  rcases hq with rfl | rfl
  · simp [scan, openQuote, WordFlags.quoted, hback, hne, hquote]
  · simp [scan, openQuote, WordFlags.quoted, hback, hne, hquote, hvar rfl]

/-- A run of characters without a blank is read on. -/
theorem scan_literals (hq : IsQuote quote) (htext : ∀ c ∈ text, Literal quote c)
    (hblank : ' ' ∉ text) :
    scan data (text ++ chars) start read openBraceId none false (openQuote quote) =
      scan data chars start (read + text.length) openBraceId none false (openQuote quote) := by
  induction text generalizing read with
  | nil => rfl
  | cons c text ih =>
    have hne : c ≠ ' ' := fun h => hblank (h ▸ List.mem_cons_self)
    have hrest : ' ' ∉ text := fun h => hblank (List.mem_cons_of_mem c h)
    rw [List.cons_append, scan_literal hq (htext c List.mem_cons_self) hne,
      ih (fun d hd => htext d (List.mem_cons_of_mem c hd)) hrest, List.length_cons]
    congr 1
    omega

theorem scan_blank (hq : IsQuote quote) (hslice : slice data start read = some text) :
    scan data (' ' :: chars) start read openBraceId none false (openQuote quote) =
      some (some (.ok (.Normal text)),
        ⟨data, read, { openQuote quote with whitespace := true }⟩) := by
  rcases hq with rfl | rfl <;>
    simp [scan, openQuote, WordFlags.quoted, WordFlags.token, hslice]

/-- The quote closes, with the text before it if there is any. -/
theorem scan_close (hq : IsQuote quote) (hne : start ≠ read)
    (hslice : slice data start read = some text) :
    scan data (quote :: chars) start read openBraceId none false (openQuote quote) =
      some (some (.ok (.Normal text)), ⟨data, read + 1, (new data).flags⟩) := by
  rcases hq with rfl | rfl <;>
    simp [scan, openQuote, WordFlags.token, collectAtSingleQuote, collectAtDoubleQuote, hslice, hne,
      new]

theorem scan_close_empty (hq : IsQuote quote) :
    scan data [quote] start start openBraceId none false (openQuote quote) =
      some (none, ⟨data, start + 1, (new data).flags⟩) := by
  rcases hq with rfl | rfl <;> simp [scan, openQuote, collectAtEnd, new]

theorem collectWhitespaces_blanks (w : WordIterator) {k : Nat} (hne : character ≠ ' ')
    (hslice : slice w.data start (read + k) = some text) :
    collectWhitespaces w start (List.replicate k ' ' ++ character :: chars) read =
      some (some (.ok (.Normal text)), { w with read := read + k }) := by
  induction k generalizing read with
  | zero =>
    rw [List.replicate_zero, List.nil_append, collectWhitespaces, if_pos hne]
    rw [Nat.add_zero] at hslice
    rw [hslice]
    rfl
  | succ k ih =>
    rw [List.replicate_succ, List.cons_append, collectWhitespaces, if_neg (by simp)]
    have hread : read + (k + 1) = read + 1 + k := by omega
    rw [hread] at hslice ⊢
    exact ih hslice

end WordIterator

open WordIterator

variable {e : Expanders} {rest s : List Char} {result : Option (Except ExpandErr (List Char))}

/-- The end of a string has no more words. -/
theorem yields_end (hread : read = data.length) :
    Yields e.round (text, ⟨data, read, (new data).flags⟩) result ↔ result = some (.ok text) := by
  apply yields_iff_of_end
  have hnext : (WordIterator.mk data read (new data).flags).next = scan data [] read read 0 none false
      (new data).flags := by
    rw [next, hread, List.drop_length]
    rfl
  rw [Expanders.round, hnext]
  simp [scan, collectAtEnd, new]

/-- A round that reads normal text. -/
theorem yields_normal {w w' : WordIterator} (h : w.next = some (some (.ok (.Normal text)), w')) :
    Yields e.round (pre, w) result ↔ Yields e.round (pre ++ text, w') result := by
  apply yields_iff_of_again
  rw [Again, Expanders.round, h]
  rfl

/-- What is read of a string in quotes, and what is put out for it. -/
structure Between (quote : Char) (s pre rest : List Char) : Prop where
  split : s = pre ++ rest
  literal : ∀ c ∈ s, Literal quote c
  ascii : Ascii (quote :: s)

theorem Between.slice (h : Between quote s pre (text ++ rest)) {start stop : Nat}
    (hstart : start = pre.length + 1) (hstop : stop = start + text.length) :
    slice (quote :: s ++ [quote]) start stop = some text := by
  have hascii := h.ascii
  rw [h.split, ← List.cons_append, ascii_append, ascii_append] at hascii
  have hdata : quote :: s ++ [quote] = (quote :: pre) ++ text ++ (rest ++ [quote]) := by
    rw [h.split]
    simp
  rw [hdata]
  apply slice_ascii hascii.1 hascii.2.1
  · rw [hstart, List.length_cons]
  · rw [hstop, hstart, List.length_cons]

theorem Between.next_eq (h : Between quote s pre rest) :
    next ⟨quote :: s ++ [quote], pre.length + 1, openQuote quote⟩ =
      scan (quote :: s ++ [quote]) (rest ++ [quote]) (pre.length + 1) (pre.length + 1) 0 none false
        (openQuote quote) := by
  have hdrop : (quote :: s ++ [quote]).drop (pre.length + 1) = rest ++ [quote] := by
    rw [h.split, List.cons_append, List.drop_succ_cons, List.append_assoc, List.drop_left]
  rw [next, hdrop]
  rfl

theorem Between.next (h : Between quote s pre (text ++ rest)) : Between quote s (pre ++ text) rest :=
  ⟨by rw [h.split, List.append_assoc], h.literal, h.ascii⟩

theorem exists_blanks (s : List Char) :
    ∃ k rest, s = List.replicate k ' ' ++ rest ∧ rest.head? ≠ some ' ' := by
  induction s with
  | nil => exact ⟨0, [], rfl, nofun⟩
  | cons c s ih =>
    by_cases hc : c = ' '
    · obtain ⟨k, rest, hs, hhead⟩ := ih
      refine ⟨k + 1, rest, ?_, hhead⟩
      rw [hc, List.replicate_succ, List.cons_append, ← hs]
    · exact ⟨0, c :: s, rfl, by simpa using hc⟩

/-- The blanks are put out, with what comes before them. -/
theorem yields_blanks {k : Nat} (hq : IsQuote quote) (hblank : ' ' ∉ text)
    (h : Between quote s pre (text ++ (' ' :: List.replicate k ' ' ++ rest)))
    (hhead : rest.head? ≠ some ' ') :
    Yields e.round (pre, ⟨quote :: s ++ [quote], pre.length + 1, openQuote quote⟩) result ↔
      Yields e.round (pre ++ text ++ (' ' :: List.replicate k ' '),
        ⟨quote :: s ++ [quote], (pre ++ text ++ (' ' :: List.replicate k ' ')).length + 1,
          openQuote quote⟩) result := by
  have htext : ∀ c ∈ text, Literal quote c := by
    intro c hc
    apply h.literal
    rw [h.split]
    simp [hc]
  have hword : (WordIterator.mk (quote :: s ++ [quote]) (pre.length + 1) (openQuote quote)).next =
      some (some (.ok (.Normal text)), ⟨quote :: s ++ [quote], pre.length + 1 + text.length,
        { openQuote quote with whitespace := true }⟩) := by
    rw [h.next_eq, List.append_assoc, scan_literals hq htext hblank]
    exact scan_blank hq (h.slice rfl rfl)
  rw [yields_normal hword]
  have hblanks : (WordIterator.mk (quote :: s ++ [quote]) (pre.length + 1 + text.length)
      { openQuote quote with whitespace := true }).next =
      some (some (.ok (.Normal (' ' :: List.replicate k ' '))),
        ⟨quote :: s ++ [quote], pre.length + 1 + text.length + (k + 1), openQuote quote⟩) := by
    have hdrop : (quote :: s ++ [quote]).drop (pre.length + 1 + text.length) =
        List.replicate (k + 1) ' ' ++ (rest ++ [quote]) := by
      have hlen : pre.length + 1 + text.length = (quote :: pre ++ text).length := by
        simp only [List.length_append, List.length_cons]
      have hdata : quote :: s ++ [quote] =
          (quote :: pre ++ text) ++ (List.replicate (k + 1) ' ' ++ (rest ++ [quote])) := by
        rw [h.split, List.replicate_succ]
        simp
      rw [hlen, hdata, List.drop_left]
    obtain ⟨c, chars, hchars, hc⟩ : ∃ c chars, rest ++ [quote] = c :: chars ∧ c ≠ ' ' := by
      cases rest with
      | nil => exact ⟨quote, [], rfl, by rcases hq with rfl | rfl <;> decide⟩
      | cons c rest => exact ⟨c, rest ++ [quote], rfl, by simpa using hhead⟩
    have hslice : slice (quote :: s ++ [quote]) (pre.length + 1 + text.length)
        (pre.length + 1 + text.length + (k + 1)) = some (' ' :: List.replicate k ' ') := by
      apply h.next.slice
      · rw [List.length_append]
        omega
      · rw [List.length_cons, List.length_replicate]
    unfold next
    simp only [if_true]
    rw [hdrop, hchars]
    exact collectWhitespaces_blanks _ hc hslice
  rw [yields_normal hblanks]
  have hlength : (pre ++ text ++ (' ' :: List.replicate k ' ')).length + 1 =
      pre.length + 1 + text.length + (k + 1) := by
    simp only [List.length_append, List.length_cons, List.length_replicate]
    omega
  rw [hlength]

/-- Up to the next blank, or the closing quote, the text is put out as it is. -/
theorem yields_between (hq : IsQuote quote) (h : Between quote s pre rest) :
    Yields e.round (pre, ⟨quote :: s ++ [quote], pre.length + 1, openQuote quote⟩) result ↔
      result = some (.ok s) := by
  induction hn : rest.length using Nat.strongRecOn generalizing pre rest with
  | ind n ih =>
    by_cases hblank : ' ' ∈ rest
    · obtain ⟨text, more, rfl, htext⟩ := List.eq_append_cons_of_mem hblank
      obtain ⟨k, rest, rfl, hhead⟩ := exists_blanks more
      rw [← List.cons_append] at h
      rw [yields_blanks hq htext h hhead]
      have hlater := (h.next.next)
      apply ih rest.length ?_ hlater rfl
      simp only [List.length_append, List.length_cons, List.length_replicate] at hn
      omega
    · have hliteral : ∀ c ∈ rest, Literal quote c := by
        intro c hc
        apply h.literal
        rw [h.split]
        exact List.mem_append_right pre hc
      have hnext := h.next_eq
      rw [scan_literals hq hliteral hblank] at hnext
      by_cases hempty : rest = []
      · subst hempty
        rw [List.length_nil, Nat.add_zero, scan_close_empty hq] at hnext
        have hround : e.round (pre, ⟨quote :: s ++ [quote], pre.length + 1, openQuote quote⟩) =
            .inl (some (.ok pre)) := by
          rw [Expanders.round, hnext]
        rw [yields_iff_of_end hround, h.split, List.append_nil]
      · have hpos := List.length_pos_iff.mpr hempty
        have hwhole : Between quote s pre (rest ++ []) := by rwa [List.append_nil]
        have hsliced := hwhole.slice rfl rfl
        rw [scan_close hq (by omega) hsliced] at hnext
        rw [yields_normal hnext, yields_end, h.split]
        rw [h.split]
        simp only [List.length_append, List.length_cons, List.length_nil]
        omega

theorem expands_quoted (e : Expanders) (hq : IsQuote quote) (hs : Ascii s)
    (hliteral : ∀ c ∈ s, Literal quote c) :
    e.Expands (quote :: s ++ [quote]) result ↔ result = some (.ok s) := by
  have hascii : Ascii (quote :: s) := by
    rw [ascii_cons]
    refine ⟨?_, hs⟩
    rcases hq with rfl | rfl <;> decide
  have hbetween : Between quote s [] s := ⟨rfl, hliteral, hascii⟩
  have hnext : (new (quote :: s ++ [quote])).next =
      next ⟨quote :: s ++ [quote], 1, openQuote quote⟩ := by
    have hopen := hbetween.next_eq
    rw [List.length_nil, Nat.zero_add] at hopen
    rw [hopen]
    rcases hq with rfl | rfl <;> simp [next, new, scan, WordFlags.fresh, openQuote]
  have hround : e.round ([], new (quote :: s ++ [quote])) =
      e.round ([], ⟨quote :: s ++ [quote], 1, openQuote quote⟩) := by
    rw [Expanders.round, Expanders.round, hnext]
  rw [Expanders.Expands, yields_congr hround]
  exact yields_between hq hbetween

/-- Text in quotes is expanded to itself, whatever variables and directories there are. -/
theorem quoting_is_literal (e : Expanders) (s : List Char) (hs : Ascii s)
    (result : Option (Except ExpandErr (List Char))) :
    ('\'' ∉ s → '\\' ∉ s → (e.Expands ('\'' :: s ++ ['\'']) result ↔ result = some (.ok s))) ∧
    ('"' ∉ s → '\\' ∉ s → '$' ∉ s →
      (e.Expands ('"' :: s ++ ['"']) result ↔ result = some (.ok s))) := by
  have hne : ∀ {c d : Char}, d ∉ s → c ∈ s → c ≠ d := fun hd hc h => hd (h ▸ hc)
  constructor
  · intro hquote hback
    apply expands_quoted e (.inl rfl) hs
    intro c hc
    exact ⟨hne hquote hc, hne hback hc, nofun⟩
  · intro hquote hback hvar
    apply expands_quoted e (.inr rfl) hs
    intro c hc
    exact ⟨hne hquote hc, hne hback hc, fun _ => hne hvar hc⟩

theorem quoting_is_literal_braces :
    let e : Expanders := ⟨fun _ => none, fun _ _ => none, fun _ _ => none, fun _ => []⟩
    e.Expands "'~ \x7ba,b\x7d  $(c)'".toList (some (.ok "~ \x7ba,b\x7d  $(c)".toList)) ∧
      e.Expands "\"\x7ba, ' ~\"".toList (some (.ok "\x7ba, ' ~".toList)) :=
  ⟨((quoting_is_literal _ "~ \x7ba,b\x7d  $(c)".toList (by decide) _).1 (by decide) (by decide)).mpr
      rfl,
    ((quoting_is_literal _ "\x7ba, ' ~".toList (by decide) _).2 (by decide) (by decide)
      (by decide)).mpr rfl⟩

end Origel.Ion
