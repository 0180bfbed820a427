import Origel.Ion.Splitting

/-! Where `collect_pipelines` takes the same characters for separators as `PipelineIterator`. -/
namespace Origel.Ion

open PipelineIterator

variable {command args text : List Char} {c : Char} {f : QuoteFlags}

namespace Collector

variable {s s' : Collector}

/-- The argument begins before where the loop is, and that is in the command. -/
structure Sound (args : List Char) (s : Collector) : Prop where
  start : s.argStart ≤ s.index
  index : s.index ≤ args.length

theorem sound_new : Sound args new := ⟨Nat.le_refl 0, Nat.zero_le _⟩

/-- A job or an argument ends, and the next one begins behind the separator. -/
structure Ends (s s' : Collector) : Prop where
  flags : s'.flags = s.flags
  index : s'.index = s.index
  start : s'.argStart = s.index + 1

theorem jobFound_spec (h : Sound args s) (hascii : Ascii args) (isBackground : Bool) :
    ∃ s', s.jobFound args isBackground = some s' ∧ Ends s s' := by
  unfold jobFound
  split
  · rw [hascii.slice_eq h.start h.index]
    exact ⟨_, rfl, rfl, rfl, rfl⟩
  · rename_i hne
    obtain ⟨argument, arguments, hs⟩ := List.exists_cons_of_ne_nil hne
    rw [hs]
    exact ⟨_, rfl, rfl, rfl, rfl⟩

theorem blankFound_spec (h : Sound args s) (hascii : Ascii args) :
    ∃ s', s.blankFound args = some s' ∧ Ends s s' := by
  unfold blankFound
  split
  · rw [hascii.slice_eq h.start h.index]
    exact ⟨_, rfl, rfl, rfl, rfl⟩
  · rename_i heq
    exact ⟨_, rfl, rfl, rfl, congrArg (· + 1) (not_not.mp heq)⟩

/-- What is left unchanged, or ended, by a character of the arguments -/
theorem step_spec (h : Sound args s) (hascii : Ascii args) (hlt : s.index < args.length) :
    ∃ s', s.step args c = some s' ∧ Sound args s' ∧ s'.flags = quote s.flags c ∧
      s'.index = s.index + 1 := by
  have hends : ∀ {s₁}, Ends s s₁ →
      Sound args { s₁ with flags := quote s.flags c, index := s.index + 1 } := by
    intro s₁ h₁
    exact ⟨Nat.le_of_eq h₁.start, hlt⟩
  have hgoes : Sound args { s with flags := quote s.flags c, index := s.index + 1 } :=
    ⟨Nat.le_succ_of_le h.start, hlt⟩
  unfold step
  split
  · split
    · obtain ⟨s₁, hs₁, h₁⟩ := blankFound_spec h hascii
      rw [hs₁]
      exact ⟨_, rfl, hends h₁, rfl, rfl⟩
    split
    · obtain ⟨s₁, hs₁, h₁⟩ := jobFound_spec h hascii false
      rw [hs₁]
      exact ⟨_, rfl, hends h₁, rfl, rfl⟩
    split
    · obtain ⟨s₁, hs₁, h₁⟩ := jobFound_spec h hascii true
      rw [hs₁]
      exact ⟨_, rfl, hends h₁, rfl, rfl⟩
    · exact ⟨_, rfl, hgoes, rfl, rfl⟩
  · exact ⟨_, rfl, hgoes, rfl, rfl⟩

variable {r r' : Reading}

theorem read_arguments (hnot : ¬(redirects c ∧ s.active)) :
    s.read args c .arguments = (s.step args c).map (.arguments, ·) := by
  have hout : ¬(s.active ∧ c = '>') := fun h => hnot ⟨.inl h.2, h.1⟩
  have hin : ¬(s.active ∧ c = '<') := fun h => hnot ⟨.inr h.2, h.1⟩
  rw [read, if_neg hout, if_neg hin]

/-- A redirection leaves the arguments behind. -/
theorem read_redirects (hred : redirects c) (hactive : s.active) :
    ∃ r, s.read args c .arguments = some (r, s.redirFound) ∧ r ≠ .arguments := by
  rcases hred with rfl | rfl
  · exact ⟨.stdout, if_pos ⟨hactive, rfl⟩, nofun⟩
  · refine ⟨.stdinFile [], ?_, nofun⟩
    rw [read, if_neg (by simp), if_pos ⟨hactive, rfl⟩]

/-- What is behind a redirection: the arguments do not come back, and the flags of quotes stay. -/
structure Files (s : Collector) (c : Char) (r' : Reading) (s' : Collector) : Prop where
  reading : r' ≠ .arguments
  flags : s.flags.backslash = false → c ≠ '\\' → s'.flags = s.flags

theorem leaveStdout_files (h : s'.flags = s.flags) :
    Files s c (leaveStdout s').1 (leaveStdout s').2 := by
  unfold leaveStdout
  split
  · exact ⟨nofun, fun _ _ => h⟩
  · exact ⟨nofun, fun _ _ => h⟩

theorem read_files (hr : r ≠ .arguments) : ∃ r' s', s.read args c r = some (r', s') ∧ Files s c r' s' := by
  have hbackslash : s.flags.backslash → ∀ r', r' ≠ Reading.arguments → Files s c r' s.toggleBackslash :=
    fun hback r' hr' => ⟨hr', fun hnot => absurd hback (by simp [hnot])⟩
  have hescape : c = '\\' → ∀ r', r' ≠ Reading.arguments → Files s c r' s.toggleBackslash :=
    fun hc r' hr' => ⟨hr', fun _ hnot => absurd hc hnot⟩
  have hsame : ∀ {r' s'}, r' ≠ Reading.arguments → s'.flags = s.flags → Files s c r' s' :=
    fun hr' hs' => ⟨hr', fun _ _ => hs'⟩
  cases r with
  | arguments => exact absurd rfl hr
  | stdout => exact ⟨_, _, rfl, hsame nofun rfl⟩
  | stdoutFile append file =>
    simp only [read]
    split
    · rename_i hback
      exact ⟨_, _, rfl, hbackslash hback _ nofun⟩
    split
    · rename_i hc
      exact ⟨_, _, rfl, hescape hc _ nofun⟩
    split
    · split
      · exact ⟨_, _, rfl, hsame nofun rfl⟩
      · exact ⟨_, _, rfl, hsame nofun rfl⟩
    split
    · split
      · exact ⟨_, _, rfl, hsame nofun rfl⟩
      · exact ⟨_, _, rfl, leaveStdout_files rfl⟩
    · exact ⟨_, _, rfl, hsame nofun rfl⟩
  | stdoutFound =>
    simp only [read]
    split
    · exact ⟨_, _, rfl, leaveStdout_files rfl⟩
    · exact ⟨_, _, rfl, hsame nofun rfl⟩
  | stdinFile file =>
    simp only [read]
    split
    · rename_i hback
      exact ⟨_, _, rfl, hbackslash hback _ nofun⟩
    split
    · rename_i hc
      exact ⟨_, _, rfl, hescape hc _ nofun⟩
    split
    · split
      · exact ⟨_, _, rfl, hsame nofun rfl⟩
      · exact ⟨_, _, rfl, hsame nofun rfl⟩
    split
    · split
      · exact ⟨_, _, rfl, hsame nofun rfl⟩
      · split
        · exact ⟨_, _, rfl, hsame nofun rfl⟩
        · exact ⟨_, _, rfl, hsame nofun rfl⟩
    · exact ⟨_, _, rfl, hsame nofun rfl⟩
  | stdinFound =>
    simp only [read]
    split
    · split
      · exact ⟨_, _, rfl, hsame nofun rfl⟩
      · exact ⟨_, _, rfl, hsame nofun rfl⟩
    · exact ⟨_, _, rfl, hsame nofun rfl⟩
  | left => exact ⟨_, _, rfl, hsame nofun rfl⟩

/-- Behind a redirection everything is read. -/
theorem collect_files (hr : r ≠ .arguments) :
    ∃ r' s', s.collect args r text = some (r', s') ∧ r' ≠ .arguments ∧
      (s.flags.backslash = false → '\\' ∉ text → s'.flags = s.flags) := by
  induction text generalizing s r with
  | nil => exact ⟨r, s, rfl, hr, fun _ _ => rfl⟩
  | cons c text ih =>
    obtain ⟨r₁, s₁, hread, hfiles⟩ := @read_files args c s _ hr
    obtain ⟨r', s', hcollect, hr', hflags⟩ := ih (s := s₁) hfiles.reading
    refine ⟨r', s', ?_, hr', ?_⟩
    · rw [collect, hread]
      exact hcollect
    · intro hback hmem
      have hc : c ≠ '\\' := fun h => hmem (h ▸ List.mem_cons_self)
      have hs₁ := hfiles.flags hback hc
      exact (hflags (hs₁ ▸ hback) fun h => hmem (List.mem_cons_of_mem c h)).trans hs₁

end Collector

/-- A character that has a meaning of its own acts here. -/
def Collector.acts (s : Collector) : Collector.Reading → Bool
  | .arguments => s.active
  | _ => !s.flags.backslash

/-- The iterator and `collect_pipelines` take the same characters of the arguments for quoted. -/
def SameInArguments (command : List Char) (start : Nat) (args : List Char) : Prop :=
  ∀ pre c post, args = pre ++ c :: post →
    ∀ s, Collector.new.collect args .arguments pre = some (.arguments, s) →
    ∀ it, after command (start + pre.length) = some it → it.flags.quotes.unquoted = s.active

/-- They take the same characters for quoted, whatever `collect_pipelines` reads them as. -/
def SameQuoting (command : List Char) (start : Nat) (args : List Char) : Prop :=
  ∀ pre c post, args = pre ++ c :: post →
    ∀ r s, Collector.new.collect args .arguments pre = some (r, s) → r ≠ .left →
    ∀ it, after command (start + pre.length) = some it → it.flags.quotes.unquoted = s.acts r

/-- What holds in front of every character, by what holds in front of the first -/
theorem forall_front {α : Type} {P : List α → Prop} {x : α} {xs : List α} :
    (∀ pre c post, x :: xs = pre ++ c :: post → P pre) ↔
      P [] ∧ ∀ pre c post, xs = pre ++ c :: post → P (x :: pre) := by
  constructor
  · intro h
    refine ⟨h [] x xs rfl, fun pre c post hxs => h (x :: pre) c post ?_⟩
    rw [hxs, List.cons_append]
  · rintro ⟨hnil, hcons⟩ pre c post heq
    cases pre with
    | nil => exact hnil
    | cons y pre =>
      obtain ⟨rfl, hxs⟩ := List.cons.inj heq
      exact hcons pre c post hxs

/-- The flags of both loops, in front of every character that is read as part of an argument -/
theorem same_iff {s : Collector} (hs : s.Sound args) (hascii : Ascii args)
    (hlength : s.index + text.length = args.length) :
    (∀ pre c post, text = pre ++ c :: post →
      ∀ s', s.collect args .arguments pre = some (.arguments, s') →
        (pre.foldl PipelineIterator.quote f).unquoted = s'.active) ↔ Same f s.flags text := by
  induction text generalizing s f with
  | nil =>
    refine iff_true_intro fun pre c post h => ?_
    cases pre <;> cases h
  | cons x text ih =>
    rw [forall_front, Same]
    have hhead : (∀ s', s.collect args .arguments [] = some (.arguments, s') →
        (List.foldl PipelineIterator.quote f []).unquoted = s'.active) ↔ f.unquoted = s.flags.unquoted := by
      simp only [Collector.collect, Option.some.injEq, Prod.mk.injEq, true_and, forall_eq', List.foldl_nil]
      rfl
    rw [hhead]
    refine and_congr_right fun _ => ?_
    rw [List.length_cons] at hlength
    by_cases hred : redirects x ∧ s.active
    · refine iff_of_true (fun pre c post _ s' h => ?_) fun h => absurd hred h
      obtain ⟨r, hread, hr⟩ := @Collector.read_redirects args x s hred.1 hred.2
      obtain ⟨r', s₁, hcollect, hr', -⟩ := @Collector.collect_files args pre s.redirFound _ hr
      rw [Collector.collect, hread] at h
      cases hcollect.symm.trans h
      exact absurd rfl hr'
    · obtain ⟨s₁, hstep, hsound, hflags, hindex⟩ :=
        Collector.step_spec (c := x) hs hascii (by omega)
      have hread : ∀ pre, s.collect args .arguments (x :: pre) = s₁.collect args .arguments pre := by
        intro pre
        rw [Collector.collect, Collector.read_arguments hred, hstep]
        rfl
      have hrest := ih (f := PipelineIterator.quote f x) hsound (by omega)
      rw [hflags] at hrest
      simp only [hread, List.foldl_cons]
      exact hrest.trans ⟨fun h _ => h, fun h => h hred⟩

/-- A scanner's notion of quotes: each kind is ordinary within the others, and behind a backslash
every character is. -/
structure Notion (quote : QuoteFlags → Char → QuoteFlags) : Prop where
  escaped : ∀ f c, f.backslash → quote f c = { f with backslash := false }
  single : ∀ f, f.doubleQuote ∨ f.processTwo → (quote f '\'').singleQuote = f.singleQuote
  double : ∀ f, f.singleQuote ∨ f.processTwo → (quote f '"').doubleQuote = f.doubleQuote

@[simp] theorem QuoteFlags.leaveProcess_singleQuote (f : QuoteFlags) :
    f.leaveProcess.singleQuote = f.singleQuote := by
  unfold QuoteFlags.leaveProcess
  split <;> rfl

@[simp] theorem QuoteFlags.leaveProcess_doubleQuote (f : QuoteFlags) :
    f.leaveProcess.doubleQuote = f.doubleQuote := by
  unfold QuoteFlags.leaveProcess
  split <;> rfl

theorem notion_quote : Notion PipelineIterator.quote := by
  refine ⟨?_, ?_, ?_⟩
  · intro f c hback
    rw [PipelineIterator.quote, if_pos hback]
  · intro f h
    by_cases hback : f.backslash
    · simp [PipelineIterator.quote, hback]
    · rcases h with h | h <;> simp [PipelineIterator.quote, hback, h]
  · intro f h
    by_cases hback : f.backslash
    · simp [PipelineIterator.quote, hback]
    · rcases h with h | h <;> simp [PipelineIterator.quote, hback, h]

theorem PipelineIterator.Cut.ascii {start : Nat} (h : Cut command start args) (hascii : Ascii command) : Ascii args := by
  intro c hc
  rw [← h.stands] at hc
  exact hascii c (List.mem_of_mem_drop (List.mem_of_mem_take hc))

theorem PipelineIterator.Cut.quotesOf {start : Nat} (hcut : Cut command start args) {pre post : List Char}
    (h : args = pre ++ c :: post) : ∃ it, after command (start + pre.length) = some it ∧
      it.flags.quotes = PipelineIterator.quotesOf pre := by
  obtain ⟨it, hafter, -, hread⟩ := hcut.quotes pre.length (by rw [h, List.length_append]; omega)
  refine ⟨it, hafter, ?_⟩
  rw [hread, h, List.take_left]

theorem PipelineIterator.Cut.same_iff {start : Nat} (hcut : Cut command start args) (hascii : Ascii command) :
    SameInArguments command start args ↔ Even .none .none args := by
  refine Iff.trans ?_ (same_iff_even (.outside false false))
  refine Iff.trans ?_ (Ion.same_iff (f := .none) Collector.sound_new (hcut.ascii hascii) (Nat.zero_add _))
  refine forall_congr' fun pre => forall_congr' fun c => forall_congr' fun post => forall_congr' fun h =>
    forall_congr' fun s => forall_congr' fun hread => ?_
  obtain ⟨it, hafter, hflags⟩ := hcut.quotesOf h
  have hfold : it.flags.quotes = pre.foldl PipelineIterator.quote .none := hflags
  rw [← hfold]
  constructor
  · intro hall
    exact hall it hafter
  · intro heq it₁ hit₁
    rw [hafter] at hit₁
    cases hit₁
    exact heq

/-- Behind the first redirection there is nothing that quotes. -/
def PlainFiles (args : List Char) : Prop :=
  ∀ pre o post, args = pre ++ o :: post → redirects o → (PipelineIterator.quotesOf pre).unquoted →
    ∀ x ∈ post, x ∉ ['\'', '"', '$', '\\']

theorem quotesOf_plain {pre post : List Char} (hpre : PipelineIterator.quotesOf pre = .none)
    (hpost : ∀ x ∈ post, x ∉ ['\'', '"', '$', '\\']) : PipelineIterator.quotesOf (pre ++ post) = .none := by
  induction post generalizing pre with
  | nil => rwa [List.append_nil]
  | cons x post ih =>
    have hx := hpost x List.mem_cons_self
    simp only [List.mem_cons, List.not_mem_nil, or_false, not_or] at hx
    have hread : PipelineIterator.quotesOf (pre ++ [x]) = .none := by
      rw [PipelineIterator.quotesOf_concat, hpre]
      simp [PipelineIterator.quote, QuoteFlags.none, QuoteFlags.isProcessOne, QuoteFlags.isProcessTwo,
        QuoteFlags.leaveProcess, hx]
    rw [List.append_cons]
    exact ih hread fun y hy => hpost y (List.mem_cons_of_mem x hy)

/-- The arguments have been left at a redirection. -/
theorem exists_redirection {s s' : Collector} {r : Collector.Reading} (hs : s.Sound args)
    (hascii : Ascii args) (hlength : s.index + text.length ≤ args.length)
    (h : s.collect args .arguments text = some (r, s')) (hr : r ≠ .arguments) :
    ∃ pre o post s₁ r₁, text = pre ++ o :: post ∧ redirects o ∧
      s.collect args .arguments pre = some (.arguments, s₁) ∧ s₁.active ∧ r₁ ≠ .arguments ∧
      s₁.redirFound.collect args r₁ post = some (r, s') := by
  induction text generalizing s with
  | nil =>
    cases h
    exact absurd rfl hr
  | cons x text ih =>
    rw [List.length_cons] at hlength
    by_cases hred : redirects x ∧ s.active
    · obtain ⟨r₁, hread, hr₁⟩ := @Collector.read_redirects args x s hred.1 hred.2
      rw [Collector.collect, hread] at h
      exact ⟨[], x, text, s, r₁, rfl, hred.1, rfl, hred.2, hr₁, h⟩
    · obtain ⟨s₁, hstep, hsound, -, hindex⟩ := Collector.step_spec (c := x) hs hascii (by omega)
      have hread : ∀ pre, s.collect args .arguments (x :: pre) = s₁.collect args .arguments pre := by
        intro pre
        rw [Collector.collect, Collector.read_arguments hred, hstep]
        rfl
      rw [hread] at h
      obtain ⟨pre, o, post, s₂, r₁, htext, ho, hpre, hactive, hr₁, hpost⟩ := ih hsound (by omega) h
      refine ⟨x :: pre, o, post, s₂, r₁, ?_, ho, ?_, hactive, hr₁, hpost⟩
      · rw [htext, List.cons_append]
      · rw [hread]
        exact hpre

/-- Where nothing quotes in the file names, both loops agree on them too. -/
theorem PipelineIterator.Cut.same_quoting {start : Nat} (hcut : Cut command start args)
    (hascii : Ascii command) (hsame : SameInArguments command start args) (hfiles : PlainFiles args) :
    SameQuoting command start args := by
  intro pre c post h r s hcollect hleft it hit
  by_cases hr : r = .arguments
  · subst hr
    exact hsame pre c post h s hcollect it hit
  have hle : pre.length ≤ args.length := by
    rw [h, List.length_append]
    omega
  obtain ⟨pre₁, o, post₁, s₁, r₁, hpre, ho, hcollect₁, hactive, hr₁, hrest⟩ :=
    exists_redirection Collector.sound_new (hcut.ascii hascii)
      (show 0 + pre.length ≤ args.length by rwa [Nat.zero_add]) hcollect hr
  have hargs : args = pre₁ ++ o :: (post₁ ++ c :: post) := by
    rw [h, hpre, List.append_assoc, List.cons_append]
  obtain ⟨it₁, hit₁, hquotes₁⟩ := hcut.quotesOf hargs
  have hunquoted := hsame pre₁ o _ hargs s₁ hcollect₁ it₁ hit₁
  rw [hquotes₁, hactive] at hunquoted
  have hplain : ∀ x ∈ o :: post₁, x ∉ ['\'', '"', '$', '\\'] := by
    rintro x (_ | ⟨_, hx⟩)
    · rcases ho with rfl | rfl <;> decide
    · exact hfiles pre₁ o _ hargs ho hunquoted x (List.mem_append_left _ hx)
  have hquotes : it.flags.quotes = .none := by
    obtain ⟨it₂, hit₂, hquotes₂⟩ := hcut.quotesOf h
    rw [hit] at hit₂
    cases hit₂
    rw [hquotes₂, hpre]
    exact quotesOf_plain (QuoteFlags.unquoted_iff.mp hunquoted) hplain
  have hflags : s.flags = .none := by
    have hs₁ : s₁.flags = .none := QuoteFlags.unquoted_iff.mp hactive
    obtain ⟨r₂, s₂, hcollect₂, -, hflags₂⟩ :=
      @Collector.collect_files args post₁ s₁.redirFound _ hr₁
    cases hcollect₂.symm.trans hrest
    refine (hflags₂ (congrArg QuoteFlags.backslash hs₁) fun hmem => ?_).trans hs₁
    exact absurd (hplain _ (List.mem_cons_of_mem o hmem)) (by decide)
  have hacts : s.acts r = !s.flags.backslash := by
    cases r with
    | arguments => exact absurd rfl hr
    | _ => rfl
  rw [hquotes, hacts, hflags]
  rfl

/-- Both loops have one notion of quotes for the arguments of exactly the commands whose ordinary
quotes are even, and for file names in which nothing quotes. -/
theorem same_quoting_iff (command : List Char) (hascii : Ascii command) {it it' : PipelineIterator}
    (hcalled : Called command it) (hnext : it.next = some (some args, it')) :
    Notion PipelineIterator.quote ∧ ∃ start, Cut command start args ∧
      (SameInArguments command start args ↔ Even .none .none args) ∧
      (PlainFiles args → (SameQuoting command start args ↔ Even .none .none args)) := by
  obtain ⟨-, start, hcut⟩ := hcalled.cut hascii hnext
  have hiff := hcut.same_iff hascii
  refine ⟨notion_quote, start, hcut, hiff, fun hfiles => ⟨fun hsame => ?_, fun heven => ?_⟩⟩
  · apply hiff.mp
    intro pre c post h s hcollect
    exact hsame pre c post h .arguments s hcollect nofun
  · exact hcut.same_quoting hascii (hiff.mpr heven) hfiles

theorem same_quoting_iff_pair :
    ∃ start, Cut "a '\"b\" c' | d".toList start "a '\"b\" c' | d".toList ∧
      SameInArguments "a '\"b\" c' | d".toList start "a '\"b\" c' | d".toList := by
  have hcalled : Called "a '\"b\" c' | d".toList
      ⟨"a '\"b\" c' | d".toList, ⟨.none, false, false⟩, 0, 0, 0⟩ := .new rfl
  obtain ⟨-, start, hcut, hiff, -⟩ := same_quoting_iff _ (by decide) hcalled rfl
  exact ⟨start, hcut, hiff.mpr (by decide)⟩

/-- A single quote in double quotes opens quotes for `collect_pipelines`. -/
theorem apostrophe_quotes :
    ¬∀ (command args : List Char) (start : Nat) (it it' : PipelineIterator), Ascii command →
      Called command it → it.next = some (some args, it') → Cut command start args →
      SameQuoting command start args := by
  intro h
  have hcalled : Called "a \"it's\" b".toList
      ⟨"a \"it's\" b".toList, ⟨.none, false, false⟩, 0, 0, 0⟩ := .new rfl
  obtain ⟨it', hnext⟩ : ∃ it', (PipelineIterator.mk "a \"it's\" b".toList ⟨.none, false, false⟩ 0 0 0).next =
      some (some "a \"it's\" b".toList, it') := ⟨_, rfl⟩
  obtain ⟨-, start, hcut⟩ := hcalled.cut (by decide) hnext
  have hsame := h _ _ start _ _ (by decide) hcalled hnext hcut
  have heven := (hcut.same_iff (by decide)).mp fun pre c post hargs s hcollect =>
    hsame pre c post hargs .arguments s hcollect nofun
  exact absurd heven (by decide)

end Origel.Ion
