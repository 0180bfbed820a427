import Origel.Ion.Text
import Origel.Lib.Loop

/-! How a command line is cut into pipelines, and a pipeline into jobs and redirections. -/
namespace Origel.Ion

open Origel.Lib

structure Redirection where
  file : List Char
  append : Bool
  deriving DecidableEq, Repr

structure Job where
  command : List Char
  args : List (List Char)
  background : Bool
  deriving DecidableEq, Repr

structure Pipeline where
  jobs : List Job
  stdin : Option Redirection
  stdout : Option Redirection
  deriving DecidableEq, Repr

/-- The bits of `flags` that both loops keep -/
structure QuoteFlags where
  backslash : Bool
  singleQuote : Bool
  doubleQuote : Bool
  processOne : Bool
  processTwo : Bool
  deriving DecidableEq, Repr

namespace QuoteFlags

def none : QuoteFlags := ⟨false, false, false, false, false⟩

/-- `flags & PROCESS_VAL == 0`, which is also `flags & IS_VALID == 0` -/
def valid (f : QuoteFlags) : Bool :=
  !f.singleQuote && !f.doubleQuote && !f.processOne && !f.processTwo

/-- `flags & PROCESS_VAL == PROCESS_ONE` -/
def isProcessOne (f : QuoteFlags) : Bool :=
  !f.singleQuote && !f.doubleQuote && f.processOne && !f.processTwo

/-- `flags & PROCESS_VAL == PROCESS_TWO` -/
def isProcessTwo (f : QuoteFlags) : Bool :=
  !f.singleQuote && !f.doubleQuote && !f.processOne && f.processTwo

/-- `_ if flags >> 6 != 2 => flags &= 255 ^ (PROCESS_ONE + PROCESS_TWO)` -/
def leaveProcess (f : QuoteFlags) : QuoteFlags :=
  if f.processTwo && !f.processOne then f else { f with processOne := false, processTwo := false }

end QuoteFlags

structure PipelineFlags where
  quotes : QuoteFlags
  whitespace : Bool
  comment : Bool
  deriving DecidableEq, Repr

structure PipelineIterator where
  matchStr : List Char
  flags : PipelineFlags
  indexStart : Nat
  indexEnd : Nat
  whitePos : Nat
  deriving DecidableEq, Repr

/-- `command.chars().any(..)`: not all of the command is blank. -/
def anyVisible (command : List Char) : Bool :=
  command.any fun x => x ≠ ' ' ∧ x ≠ '\n' ∧ x ≠ '\r' ∧ x ≠ '\t'

namespace PipelineIterator

/-- `new` panics on the empty string. -/
def new : List Char → Option PipelineIterator
  | [] => none
  | character :: chars =>
    some ⟨character :: chars, ⟨.none, false, character = '#'⟩, 0, 0, 0⟩

variable (it : PipelineIterator)

/-- The end of the body of the loop, where the character has made these flags -/
def read (quotes : QuoteFlags) (comment : Bool) : PipelineIterator :=
  { it with
    flags := ⟨quotes, false, comment⟩
    indexEnd := it.indexEnd + 1
    whitePos := 0 }

/-- The part of a branch for a blank that comes before its `continue` -/
def blank (indexStart : Nat) : PipelineIterator :=
  { it with
    flags := { it.flags with whitespace := true }
    indexStart := indexStart
    indexEnd := it.indexEnd + 1
    whitePos := if it.whitePos = 0 then it.indexEnd else it.whitePos }

/-- The body of the loop of `next`, with the command that it returns, if it does; none where it
panics. -/
def step (character : Char) : Option (Option (List Char) × PipelineIterator) :=
  let quotes := it.flags.quotes
  if it.flags.comment then
    if character = '\n' then
      some (none, { it with
        flags := { it.flags with comment := false }
        indexStart := it.indexEnd + 1
        indexEnd := it.indexEnd + 1 })
    else some (none, { it with indexEnd := it.indexEnd + 1 })
  else if quotes.backslash then some (none, it.read { quotes with backslash := false } false)
  else if character = '\\' then some (none, it.read { quotes with backslash := true } false)
  else if character = '\'' ∧ !(quotes.processTwo || quotes.doubleQuote) then
    some (none, it.read { quotes with singleQuote := !quotes.singleQuote } false)
  else if character = '"' ∧ !(quotes.processTwo || quotes.singleQuote) then
    some (none, it.read { quotes with doubleQuote := !quotes.doubleQuote } false)
  else if character = '$' ∧ quotes.valid then
    some (none, it.read { quotes with processOne := true } false)
  else if character = '(' ∧ quotes.isProcessOne then
    some (none, it.read { quotes with processOne := false, processTwo := true } false)
  else if character = ')' ∧ quotes.isProcessTwo then
    some (none, it.read { quotes with processTwo := false } false)
  else if character = '#' ∧ quotes.valid ∧ it.flags.whitespace then
    if it.indexStart < it.whitePos then do
      let command ← slice it.matchStr it.indexStart it.whitePos
      some (some command, { it with
        flags := { it.flags with comment := true }
        indexStart := it.indexEnd + 1
        indexEnd := it.indexEnd + 1 })
    else some (none, { it.read quotes true with indexStart := it.indexEnd + 1 })
  else if (character = ' ' ∨ character = '\t') ∧ quotes.valid then
    some (none, it.blank (if it.indexStart = it.indexEnd then it.indexStart + 1 else it.indexStart))
  else if (character = ';' ∨ character = '\n' ∨ character = '\r') ∧ quotes.valid then
    if it.indexStart = it.indexEnd then some (none, it.blank (it.indexStart + 1))
    else do
      let command ← slice it.matchStr it.indexStart it.indexEnd
      some (if anyVisible command then some command else none, it.blank (it.indexEnd + 1))
  else some (none, it.read quotes.leaveProcess false)

/-- What `next` does behind its loop. -/
def finish : Option (Option (List Char) × PipelineIterator) :=
  if !it.flags.comment ∧ it.indexStart < bytes it.matchStr then do
    let command ← sliceFrom it.matchStr it.indexStart
    some (if anyVisible command then some command else none,
      { it with indexStart := bytes it.matchStr + 1 })
  else some (none, it)

/-- The loop of `next` over the characters that are left -/
def scan (it : PipelineIterator) : List Char → Option (Option (List Char) × PipelineIterator)
  | [] => it.finish
  | character :: chars =>
    match it.step character with
    | none => none
    | some (some command, it) => some (some command, it)
    | some (none, it) => scan it chars

def next : Option (Option (List Char) × PipelineIterator) := it.scan (it.matchStr.drop it.indexEnd)

end PipelineIterator

/-- `Job::new` panics where there are no arguments. -/
def Job.new (args : List (List Char)) (background : Bool) : Option Job :=
  match args with
  | [] => none
  | command :: rest => some ⟨command, command :: rest, background⟩

inductive ParseError where
  | missingOutput
  | missingInput
  deriving DecidableEq, Repr

/-- The texts that `possible_error` is set to. -/
def ParseError.text : ParseError → String
  | missingOutput => "missing standard output file argument after '>'"
  | missingInput => "missing standard input file argument after '<'"

/-- What the loop over a command has come to. -/
structure Collector where
  index : Nat
  argStart : Nat
  flags : QuoteFlags
  arguments : List (List Char)
  jobs : List Job
  inFile : Option Redirection
  outFile : Option Redirection
  possibleError : Option ParseError
  deriving DecidableEq, Repr

namespace Collector

def new : Collector := ⟨0, 0, .none, [], [], none, none, none⟩

variable (args : List Char) (s : Collector)

/-- The flags behind a character of the arguments -/
def quote (flags : QuoteFlags) (character : Char) : QuoteFlags :=
  if flags.backslash then { flags with backslash := false }
  else if character = '\\' then { flags with backslash := true }
  else if character = '$' ∧ flags.valid then { flags with processOne := true }
  else if character = '(' ∧ flags.isProcessOne then
    { flags with processOne := false, processTwo := true }
  else if character = ')' ∧ flags.isProcessTwo then { flags with processTwo := false }
  else if character = '\'' then { flags with singleQuote := !flags.singleQuote }
  else if character = '"' then { flags with doubleQuote := !flags.doubleQuote }
  else flags.leaveProcess

/-- `job_found!` -/
def jobFound (isBackground : Bool) : Option Collector :=
  if s.arguments = [] then do
    let argument ← slice args s.argStart s.index
    let job ← Job.new [argument] isBackground
    some { s with jobs := s.jobs ++ [job], argStart := s.index + 1 }
  else do
    let job ← Job.new s.arguments isBackground
    some { s with jobs := s.jobs ++ [job], arguments := [], argStart := s.index + 1 }

/-- What becomes of the argument at a blank. -/
def blankFound : Option Collector :=
  if s.argStart ≠ s.index then do
    let argument ← slice args s.argStart s.index
    some { s with arguments := s.arguments ++ [argument], argStart := s.index + 1 }
  else some { s with argStart := s.argStart + 1 }

/-- A character that is read here as what it stands for, and not as a part of an argument -/
def active : Bool := s.flags.valid && !s.flags.backslash

/-- The body of the loop in `RedirMode::False`, for a character that begins no redirection -/
def step (character : Char) : Option Collector := do
  let s' ←
    if s.active then
      if character = ' ' ∨ character = '\t' then s.blankFound args
      else if character = '|' then s.jobFound args false
      else if character = '&' then s.jobFound args true
      else some s
    else some s
  some { s' with flags := quote s.flags character, index := s.index + 1 }

/-- `redir_found!` -/
def redirFound : Collector := { s with index := s.index + 1, argStart := s.index + 1 }

/-- `redir_check!` for the standard output -/
def checkOut (file : List Char) (append : Bool) : Collector :=
  if s.outFile = none then
    if file = [] then { s with possibleError := some .missingOutput }
    else { s with outFile := some ⟨file, append⟩ }
  else s

/-- `redir_check!` for the standard input -/
def checkIn (file : List Char) : Collector :=
  if s.inFile = none then
    if file = [] then { s with possibleError := some .missingOutput }
    else { s with inFile := some ⟨file, false⟩ }
  else s

def toggleBackslash : Collector :=
  { s with flags := { s.flags with backslash := !s.flags.backslash } }

/-- Where in the loop `'outer` the next character is read -/
inductive Reading where
  /-- `RedirMode::False` -/
  | arguments
  /-- `RedirMode::Stdout`, in front of its first character -/
  | stdout
  /-- `RedirMode::Stdout` or `RedirMode::StdoutAppend`, with what there is of the file name -/
  | stdoutFile (append : Bool) (file : List Char)
  | stdoutFound
  /-- `RedirMode::Stdin` -/
  | stdinFile (file : List Char)
  | stdinFound
  /-- `break 'outer` -/
  | left
  deriving DecidableEq, Repr

/-- The file of the standard output is known, and its name has ended with a `<`. -/
def leaveStdout (s : Collector) : Reading × Collector :=
  if s.inFile.isSome then (.left, s) else (.stdinFile [], s)

/-- A character, in the mode that the loop is in -/
def read (s : Collector) (character : Char) : Reading → Option (Reading × Collector)
  | .arguments =>
    if s.active ∧ character = '>' then some (.stdout, s.redirFound)
    else if s.active ∧ character = '<' then some (.stdinFile [], s.redirFound)
    else (s.step args character).map (.arguments, ·)
  | .stdout => some (.stdoutFile (character = '>') [], s)
  | .stdoutFile append file =>
    if s.flags.backslash then some (.stdoutFile append (file ++ [character]), s.toggleBackslash)
    else if character = '\\' then some (.stdoutFile append file, s.toggleBackslash)
    else if character = ' ' ∨ character = '\t' ∨ character = '|' then
      if file = [] then some (.stdoutFile append file, s)
      else some (.stdoutFound, { s with outFile := some ⟨file, append⟩ })
    else if character = '<' then
      if file = [] then some (.left, { s with possibleError := some .missingOutput })
      else some (leaveStdout { s with outFile := some ⟨file, append⟩ })
    else some (.stdoutFile append (file ++ [character]), s)
  | .stdoutFound =>
    if character = '<' then some (leaveStdout s) else some (.stdoutFound, s)
  | .stdinFile file =>
    if s.flags.backslash then some (.stdinFile (file ++ [character]), s.toggleBackslash)
    else if character = '\\' then some (.stdinFile file, s.toggleBackslash)
    else if character = ' ' ∨ character = '\t' ∨ character = '|' then
      if file = [] then some (.stdinFile file, s)
      else some (.stdinFound, { s with inFile := some ⟨file, false⟩ })
    else if character = '>' then
      if file = [] then some (.left, { s with possibleError := some .missingInput })
      else
        let s' := { s with inFile := some ⟨file, false⟩ }
        -- the mode stays as it is, so that what follows is read as the standard input again
        some (if s.outFile.isSome then (.left, s') else (.stdinFile [], s'))
    else some (.stdinFile (file ++ [character]), s)
  | .stdinFound =>
    if character = '>' then some (if s.outFile.isSome then (.left, s) else (.stdout, s))
    else some (.stdinFound, s)
  | .left => some (.left, s)

/-- The loop `'outer` -/
def collect (s : Collector) : Reading → List Char → Option (Reading × Collector)
  | reading, [] => some (reading, s)
  | reading, character :: chars =>
    (s.read args character reading).bind fun next => next.2.collect next.1 chars

/-- What the mode that the characters end in leaves. -/
def leave (s : Collector) : Reading → Collector
  | .stdout => { s with possibleError := some .missingOutput }
  | .stdoutFile append file => s.checkOut file append
  | .stdinFile file => s.checkIn file
  | _ => s

/-- What is done behind the loop. -/
def finish : Option Pipeline := do
  let arguments ←
    if s.argStart ≠ s.index then do
      let argument ← slice args s.argStart s.index
      some (s.arguments ++ [argument])
    else some s.arguments
  if arguments = [] then some ⟨s.jobs, s.inFile, s.outFile⟩
  else do
    let job ← Job.new arguments false
    some ⟨s.jobs ++ [job], s.inFile, s.outFile⟩

end Collector

/-- The pipeline of a command, and the error that is left behind if there is one -/
def collectPipeline (args : List Char) : Option (Pipeline × Option ParseError) := do
  let (reading, s) ← Collector.new.collect args .arguments args
  let pipeline ← (s.leave reading).finish args
  some (pipeline, (s.leave reading).possibleError)

/-- What `collect_pipelines` leaves in `pipelines` and `possible_error`. -/
structure Collected where
  pipelines : List Pipeline
  possibleError : Option ParseError
  deriving DecidableEq, Repr

/-- A round of the loop of `collect_pipelines`, or what it leaves; none where it panics -/
def collectRound (s : Collected × PipelineIterator) :
    Option Collected ⊕ (Collected × PipelineIterator) :=
  match s.2.next with
  | none => .inl none
  | some (none, _) => .inl (some s.1)
  | some (some args, it) =>
    match collectPipeline args with
    | none => .inl none
    | some (pipeline, error) =>
      .inr (⟨s.1.pipelines ++ [pipeline], error.or s.1.possibleError⟩, it)

/-- `collect_pipelines` ends with this. -/
def Collects (command : List Char) (result : Option Collected) : Prop :=
  match PipelineIterator.new command with
  | none => result = none
  | some it => Yields collectRound (⟨[], none⟩, it) result

end Origel.Ion
