import Mathlib.Data.List.Basic
import Mathlib.Tactic.TypeStar
import Origel.Ion.Pipelines

/-! The blocks of the shell, and what their lines do when they come one after the other. -/
namespace Origel.Ion

inductive Comparitor where
  | equal | notEqual | greaterThan | lessThan | greaterThanOrEqual | lessThanOrEqual
  deriving DecidableEq, Repr

inductive Statement where
  | «if» (left : String) (comparitor : Comparitor) (right : String)
  | function (name : String) (args : List String)
  | «for» (var : String) (values : List String)
  | «else»
  | «end»
  | pipelines (pipelines : List Pipeline)
  | default
  deriving DecidableEq, Repr

def Statement.isFlowControl : Statement → Bool
  | .if .. | .else | .for .. | .function .. => true
  | .end | .pipelines _ | .default => false

/-- `modes` starts with the innermost one. -/
structure FlowControl where
  modes : List Bool
  collectingBlock : Bool
  currentBlock : List Pipeline
  currentStatement : Statement
  deriving DecidableEq, Repr

def FlowControl.default : FlowControl := ⟨[], false, [], .default⟩

/-- A script by its blocks. -/
inductive Block where
  | pipelines (pipelines : List Pipeline)
  | ifThen (left : String) (comparitor : Comparitor) (right : String) (body : List Block)
  | ifElse (left : String) (comparitor : Comparitor) (right : String) (body otherwise : List Block)
  | forIn (var : String) (values : List String) (body : List Block)
  | function (name : String) (args : List String) (body : List Block)

/-- What the statements do to the rest of the shell. A pipeline leaves the flow control as it is,
also one that calls a function, which is kept by its block. -/
structure Effects (σ : Type*) where
  runPipeline : σ → Pipeline → σ
  setVar : σ → String → String → σ
  insert : σ → String → List String → List Block → σ

structure Shell (σ : Type*) where
  flowControl : FlowControl
  rest : σ

/-- The words of a condition are compared as they stand. -/
def Comparitor.holds (comparitor : Comparitor) (left right : String) : Bool :=
  match comparitor with
  | .greaterThan => right < left
  | .greaterThanOrEqual => right ≤ left
  | .lessThan => left < right
  | .lessThanOrEqual => left ≤ right
  | .equal => left == right
  | .notEqual => left != right

section Shell

variable {σ : Type*} (E : Effects σ)

namespace Shell

def handleIf (sh : Shell σ) (left : String) (comparitor : Comparitor) (right : String) : Shell σ :=
  { sh with
    flowControl := { sh.flowControl with
      modes := comparitor.holds left right :: sh.flowControl.modes } }

/-- The pipelines of the block are drained and run. -/
def runBlock (sh : Shell σ) : Shell σ where
  flowControl := { sh.flowControl with currentBlock := [] }
  rest := sh.flowControl.currentBlock.foldl E.runPipeline sh.rest

def handleEnd (sh : Shell σ) : Shell σ :=
  let flow := { sh.flowControl with collectingBlock := false }
  let sh := { sh with flowControl := flow }
  let sh : Shell σ :=
    match flow.currentStatement with
    | .for var values =>
      { flowControl := { flow with currentBlock := [] }
        rest := values.foldl
          (fun rest value => flow.currentBlock.foldl E.runPipeline (E.setVar rest var value))
          sh.rest }
    | .function name args =>
      { flowControl := { flow with currentBlock := [] }
        rest := E.insert sh.rest name args [.pipelines flow.currentBlock] }
    | .if .. | .else =>
      let flow := { flow with modes := flow.modes.tail }
      let sh := { sh with flowControl := flow }
      if flow.modes = [] then sh.runBlock E else sh
    | _ => sh.runBlock E
  { sh with flowControl := { sh.flowControl with currentStatement := .default } }

/-- Whether a block that is collected takes its pipelines in. -/
def collects (flow : FlowControl) : Bool :=
  match flow.modes.headD false, flow.currentStatement with
  | true, .if .. => true
  | false, .else => true
  | _, .for .. => true
  | _, .function .. => true
  | _, _ => false

def push (sh : Shell σ) (pipelines : List Pipeline) : Shell σ :=
  { sh with
    flowControl := { sh.flowControl with
      currentBlock := sh.flowControl.currentBlock ++ pipelines } }

def handlePipeline (sh : Shell σ) (pipeline : Pipeline) : Shell σ :=
  if sh.flowControl.collectingBlock then
    if collects sh.flowControl then sh.push [pipeline] else sh
  else { sh with rest := E.runPipeline sh.rest pipeline }

def handlePipelines (sh : Shell σ) (pipelines : List Pipeline) : Shell σ :=
  pipelines.foldl (handlePipeline E) sh

def opened (sh : Shell σ) (update : Statement) : Shell σ :=
  { sh with
    flowControl := { sh.flowControl with currentStatement := update, collectingBlock := true } }

/-- `update` is what the line is parsed to. -/
def onCommand (sh : Shell σ) (update : Statement) : Shell σ :=
  let sh := if update.isFlowControl then sh.opened update else sh
  match update with
  | .end => sh.handleEnd E
  | .if left comparitor right => sh.handleIf left comparitor right
  | .pipelines pipelines => sh.handlePipelines E pipelines
  | _ => sh

/-- The lines of a script are fed one after the other. -/
def feed (sh : Shell σ) (lines : List Statement) : Shell σ := lines.foldl (onCommand E) sh

end Shell

/-- Lines of pipelines that follow each other are one. -/
def joined : List Block → List Block
  | [] => [.pipelines []]
  | .pipelines pipelines :: blocks =>
    match joined blocks with
    | .pipelines more :: blocks => .pipelines (pipelines ++ more) :: blocks
    | blocks => .pipelines pipelines :: blocks
  | block :: blocks => block :: joined blocks

mutual

/-- What a block does: its body runs if its condition holds, or for each value, or is kept. -/
def Block.exec : Block → σ → σ
  | .pipelines pipelines, rest => pipelines.foldl E.runPipeline rest
  | .ifThen left comparitor right body, rest =>
    if comparitor.holds left right then execAll body rest else rest
  | .ifElse left comparitor right body otherwise, rest =>
    if comparitor.holds left right then execAll body rest else execAll otherwise rest
  | .forIn var values body, rest =>
    values.foldl (fun rest value => execAll body (E.setVar rest var value)) rest
  | .function name args body, rest => E.insert rest name args (joined body)

def execAll : List Block → σ → σ
  | [], rest => rest
  | block :: blocks, rest => execAll blocks (block.exec rest)

end

end Shell

mutual

def Block.lines : Block → List Statement
  | .pipelines pipelines => [.pipelines pipelines]
  | .ifThen left comparitor right body =>
    .if left comparitor right :: (linesAll body ++ [.end])
  | .ifElse left comparitor right body otherwise =>
    .if left comparitor right :: (linesAll body ++ (.else :: (linesAll otherwise ++ [.end])))
  | .forIn var values body => .for var values :: (linesAll body ++ [.end])
  | .function name args body => .function name args :: (linesAll body ++ [.end])

def linesAll : List Block → List Statement
  | [] => []
  | block :: blocks => block.lines ++ linesAll blocks

end

/-- A line of pipelines, which are none for a line that is empty. -/
def Block.IsLine : Block → Prop
  | .pipelines _ => True
  | _ => False

/-- No statement of flow control stands inside of a block. -/
def Block.Flat : Block → Prop
  | .pipelines _ => True
  | .ifThen _ _ _ body => ∀ block ∈ body, block.IsLine
  | .ifElse _ _ _ body otherwise =>
    (∀ block ∈ body, block.IsLine) ∧ ∀ block ∈ otherwise, block.IsLine
  | .forIn _ _ body => ∀ block ∈ body, block.IsLine
  | .function _ _ body => ∀ block ∈ body, block.IsLine

section Feed

variable {σ : Type*} {E : Effects σ} {sh : Shell σ} {body script : List Block}
  {pipelines : List Pipeline} {left right name var : String} {comparitor : Comparitor}
  {args values : List String}

namespace Shell

theorem feed_append (xs ys : List Statement) : feed E sh (xs ++ ys) = feed E (feed E sh xs) ys :=
  List.foldl_append

@[simp] theorem push_nil : sh.push [] = sh := by
  simp only [push, List.append_nil]

@[simp] theorem push_push (more : List Pipeline) :
    (sh.push pipelines).push more = sh.push (pipelines ++ more) := by
  simp only [push, List.append_assoc]

@[simp] theorem push_collects : collects (sh.push pipelines).flowControl = collects sh.flowControl :=
  rfl

theorem handlePipelines_cons (pipeline : Pipeline) :
    sh.handlePipelines E (pipeline :: pipelines) =
      (sh.handlePipeline E pipeline).handlePipelines E pipelines := rfl

/-- While a block is collected, pipelines are taken in or skipped, and none runs. -/
theorem handlePipelines_collecting (hc : sh.flowControl.collectingBlock = true) :
    sh.handlePipelines E pipelines =
      if collects sh.flowControl then sh.push pipelines else sh := by
  induction pipelines generalizing sh with
  | nil => rw [push_nil, ite_self]; rfl
  | cons pipeline pipelines ih =>
    rw [handlePipelines_cons]
    have hstep : sh.handlePipeline E pipeline =
        if collects sh.flowControl then sh.push [pipeline] else sh := if_pos hc
    rw [hstep]
    split
    · rename_i hcol
      have hc' : (sh.push [pipeline]).flowControl.collectingBlock = true := hc
      rw [ih hc', push_collects, if_pos hcol, push_push, List.singleton_append]
    · rename_i hcol
      rw [ih hc, if_neg hcol]

theorem handlePipelines_immediate (hc : sh.flowControl.collectingBlock = false) :
    sh.handlePipelines E pipelines = { sh with rest := pipelines.foldl E.runPipeline sh.rest } := by
  induction pipelines generalizing sh with
  | nil => rfl
  | cons pipeline pipelines ih =>
    have hstep : sh.handlePipeline E pipeline =
        { sh with rest := E.runPipeline sh.rest pipeline } := by
      simp only [handlePipeline, hc, Bool.false_eq_true, if_false]
    rw [handlePipelines_cons, hstep]
    exact ih hc

end Shell

/-- The pipelines of a body without flow control. -/
def flattened : List Block → List Pipeline
  | [] => []
  | .pipelines pipelines :: blocks => pipelines ++ flattened blocks
  | _ :: blocks => flattened blocks

theorem execAll_flattened (hbody : ∀ block ∈ body, block.IsLine) (rest : σ) :
    execAll E body rest = (flattened body).foldl E.runPipeline rest := by
  induction body generalizing rest with
  | nil => simp only [execAll, flattened, List.foldl_nil]
  | cons block blocks ih =>
    obtain ⟨hline, hlines⟩ := List.forall_mem_cons.mp hbody
    cases block with
    | pipelines pipelines =>
      rw [execAll, Block.exec, ih hlines, flattened, List.foldl_append]
    | _ => exact hline.elim

theorem joined_flattened (hbody : ∀ block ∈ body, block.IsLine) :
    joined body = [.pipelines (flattened body)] := by
  induction body with
  | nil => rfl
  | cons block blocks ih =>
    obtain ⟨hline, hlines⟩ := List.forall_mem_cons.mp hbody
    cases block with
    | pipelines pipelines => rw [joined, ih hlines, flattened]
    | _ => exact hline.elim

namespace Shell

/-- The lines of a body without flow control are taken into the block, or skipped. -/
theorem feed_body (hbody : ∀ block ∈ body, block.IsLine)
    (hc : sh.flowControl.collectingBlock = true) :
    feed E sh (linesAll body) =
      if collects sh.flowControl then sh.push (flattened body) else sh := by
  induction body generalizing sh with
  | nil => rw [flattened, push_nil, ite_self]; rfl
  | cons block blocks ih =>
    obtain ⟨hline, hlines⟩ := List.forall_mem_cons.mp hbody
    cases block with
    | pipelines pipelines =>
      have hfirst : feed E sh (linesAll (.pipelines pipelines :: blocks)) =
          feed E (sh.handlePipelines E pipelines) (linesAll blocks) := by
        rw [linesAll, Block.lines]
        rfl
      rw [hfirst, handlePipelines_collecting hc]
      split
      · rename_i hcol
        have hc' : (sh.push pipelines).flowControl.collectingBlock = true := hc
        rw [ih hlines hc', push_collects, if_pos hcol, push_push, flattened]
      · rename_i hcol
        rw [ih hlines hc, if_neg hcol]
    | _ => exact hline.elim

/-- A pipeline runs at once, and no block is open. -/
structure Ready (sh : Shell σ) : Prop where
  modes : sh.flowControl.modes = []
  immediate : sh.flowControl.collectingBlock = false
  empty : sh.flowControl.currentBlock = []

/-- What a block that stands alone leaves behind. -/
def Ran (E : Effects σ) (sh : Shell σ) (block : Block) : Prop :=
  (feed E sh block.lines).Ready ∧ (feed E sh block.lines).rest = block.exec E sh.rest

theorem ran_of_eq {block : Block} {statement : Statement}
    (h : feed E sh block.lines = ⟨⟨[], false, [], statement⟩, block.exec E sh.rest⟩) :
    Ran E sh block := by
  unfold Ran
  rw [h]
  exact ⟨⟨rfl, rfl, rfl⟩, rfl⟩

theorem ran_pipelines (hr : sh.Ready) : Ran E sh (.pipelines pipelines) := by
  obtain ⟨⟨_, _, _, statement⟩, rest⟩ := sh
  obtain ⟨rfl, rfl, rfl⟩ := hr
  apply ran_of_eq
  rw [Block.lines, Block.exec]
  exact handlePipelines_immediate rfl

/-- The end of an `if` that is not in another runs what was collected. -/
theorem handleEnd_mode {v : Bool} {block : List Pipeline} {statement : Statement} {rest : σ}
    (hs : (∃ left comparitor right, statement = .if left comparitor right) ∨ statement = .else) :
    handleEnd E ⟨⟨[v], true, block, statement⟩, rest⟩ =
      ⟨⟨[], false, [], .default⟩, block.foldl E.runPipeline rest⟩ := by
  obtain ⟨left, comparitor, right, rfl⟩ | rfl := hs <;> rfl

/-- The part of an `if` that its condition selects is collected. -/
theorem feed_mode {v : Bool} {block : List Pipeline} {statement : Statement} {rest : σ}
    (hbody : ∀ block ∈ body, block.IsLine) {t : Bool}
    (hs : collects ⟨[v], true, block, statement⟩ = t) :
    feed E ⟨⟨[v], true, block, statement⟩, rest⟩ (linesAll body) =
      ⟨⟨[v], true, block ++ if t then flattened body else [], statement⟩, rest⟩ := by
  rw [feed_body hbody rfl, hs]
  cases t with
  | true => rfl
  | false => rw [if_neg Bool.false_ne_true, if_neg Bool.false_ne_true, List.append_nil]

theorem ran_ifThen (hr : sh.Ready) (hbody : ∀ block ∈ body, block.IsLine) :
    Ran E sh (.ifThen left comparitor right body) := by
  obtain ⟨⟨_, _, _, statement⟩, rest⟩ := sh
  obtain ⟨rfl, rfl, rfl⟩ := hr
  have hfeed : feed E ⟨⟨[], false, [], statement⟩, rest⟩
        (Block.ifThen left comparitor right body).lines =
      (feed E ⟨⟨[comparitor.holds left right], true, [], .if left comparitor right⟩, rest⟩
        (linesAll body)).handleEnd E := by
    rw [Block.lines, ← List.cons_append, feed_append]
    rfl
  apply ran_of_eq
  rw [hfeed, Block.exec, execAll_flattened hbody]
  cases comparitor.holds left right with
  | true =>
    rw [feed_mode (t := true) hbody rfl, handleEnd_mode (.inl ⟨left, comparitor, right, rfl⟩)]
    rfl
  | false =>
    rw [feed_mode (t := false) hbody rfl, handleEnd_mode (.inl ⟨left, comparitor, right, rfl⟩)]
    rfl

theorem ran_ifElse (hr : sh.Ready) {otherwise : List Block}
    (hbody : ∀ block ∈ body, block.IsLine) (helse : ∀ block ∈ otherwise, block.IsLine) :
    Ran E sh (.ifElse left comparitor right body otherwise) := by
  obtain ⟨⟨_, _, _, statement⟩, rest⟩ := sh
  obtain ⟨rfl, rfl, rfl⟩ := hr
  have hfeed : feed E ⟨⟨[], false, [], statement⟩, rest⟩
        (Block.ifElse left comparitor right body otherwise).lines =
      (feed E ((feed E ⟨⟨[comparitor.holds left right], true, [], .if left comparitor right⟩, rest⟩
        (linesAll body)).opened .else) (linesAll otherwise)).handleEnd E := by
    rw [Block.lines, ← List.cons_append, feed_append, ← List.cons_append, feed_append]
    rfl
  apply ran_of_eq
  rw [hfeed, Block.exec, execAll_flattened hbody, execAll_flattened helse]
  cases comparitor.holds left right with
  | true =>
    rw [feed_mode (t := true) hbody rfl]
    unfold opened
    rw [feed_mode (t := false) helse rfl, handleEnd_mode (.inr rfl)]
    simp only [if_true, Bool.false_eq_true, if_false, List.nil_append, List.append_nil]
    rfl
  | false =>
    rw [feed_mode (t := false) hbody rfl]
    unfold opened
    rw [feed_mode (t := true) helse rfl, handleEnd_mode (.inr rfl)]
    simp only [if_true, Bool.false_eq_true, if_false, List.nil_append, List.append_nil]

/-- A `for` block runs its pipelines once for each value. -/
theorem ran_forIn (hr : sh.Ready) (hbody : ∀ block ∈ body, block.IsLine) :
    Ran E sh (.forIn var values body) := by
  obtain ⟨⟨_, _, _, statement⟩, rest⟩ := sh
  obtain ⟨rfl, rfl, rfl⟩ := hr
  have hfeed : feed E ⟨⟨[], false, [], statement⟩, rest⟩ (Block.forIn var values body).lines =
      (feed E ⟨⟨[], true, [], .for var values⟩, rest⟩ (linesAll body)).handleEnd E := by
    rw [Block.lines, ← List.cons_append, feed_append]
    rfl
  apply ran_of_eq
  rw [hfeed, feed_body hbody rfl, Block.exec]
  have hrun (value : String) (rest : σ) : execAll E body (E.setVar rest var value) =
      (flattened body).foldl E.runPipeline (E.setVar rest var value) := execAll_flattened hbody _
  simp only [hrun]
  rfl

theorem ran_function (hr : sh.Ready) (hbody : ∀ block ∈ body, block.IsLine) :
    Ran E sh (.function name args body) := by
  obtain ⟨⟨_, _, _, statement⟩, rest⟩ := sh
  obtain ⟨rfl, rfl, rfl⟩ := hr
  have hfeed : feed E ⟨⟨[], false, [], statement⟩, rest⟩ (Block.function name args body).lines =
      (feed E ⟨⟨[], true, [], .function name args⟩, rest⟩ (linesAll body)).handleEnd E := by
    rw [Block.lines, ← List.cons_append, feed_append]
    rfl
  apply ran_of_eq
  rw [hfeed, feed_body hbody rfl, Block.exec, joined_flattened hbody]
  rfl

/-- Each kind of block that has no other in it. -/
theorem ran_flat (hr : sh.Ready) {block : Block} (hb : block.Flat) : Ran E sh block := by
  cases block with
  | pipelines pipelines => exact ran_pipelines hr
  | ifThen left comparitor right body => exact ran_ifThen hr hb
  | ifElse left comparitor right body otherwise => exact ran_ifElse hr hb.1 hb.2
  | forIn var values body => exact ran_forIn hr hb
  | function name args body => exact ran_function hr hb

/-- A script whose blocks are not in each other runs as they say, and leaves the shell ready. -/
theorem script_runs (hr : sh.Ready) (hflat : ∀ block ∈ script, block.Flat) :
    (feed E sh (linesAll script)).Ready ∧
      (feed E sh (linesAll script)).rest = execAll E script sh.rest := by
  induction script generalizing sh with
  | nil => exact ⟨hr, rfl⟩
  | cons block blocks ih =>
    obtain ⟨hblock, hblocks⟩ := List.forall_mem_cons.mp hflat
    obtain ⟨hready, hrest⟩ := ran_flat (E := E) hr hblock
    rw [linesAll, feed_append, execAll, ← hrest]
    exact ih hready hblocks

end Shell

end Feed

/-- A shell that writes down the pipelines that run, with the value of the variable they see. -/
structure Trace where
  ran : List (Pipeline × Option String)
  value : Option String
  functions : List (String × List Block)

/-- A call runs the pipelines of the function. -/
def trace : Effects Trace where
  runPipeline t pipeline :=
    match (pipeline.jobs.head?.bind fun job => t.functions.lookup (String.ofList job.command)) with
    | some [.pipelines body] => { t with ran := t.ran ++ body.map (·, t.value) }
    | _ => { t with ran := t.ran ++ [(pipeline, t.value)] }
  setVar t _ value := { t with value := some value }
  insert t name _ body := { t with functions := (name, body) :: t.functions }

def word (command : String) : Pipeline := ⟨[⟨command.toList, [command.toList], false⟩], none, none⟩

def flatScript : List Block :=
  [.function "f" [] [.pipelines [word "a"], .pipelines [word "b"]],
    .ifElse "1" .equal "2" [.pipelines [word "c"]] [.pipelines [word "d"]],
    .forIn "i" ["x", "y"] [.pipelines [word "e"]],
    .pipelines [word "f"]]

theorem script_runs_flat :
    (∀ block ∈ flatScript, block.Flat) ∧
      (Shell.feed trace ⟨.default, ⟨[], none, []⟩⟩ (linesAll flatScript)).rest.ran =
        [(word "d", none), (word "e", some "x"), (word "e", some "y"), (word "a", some "y"),
          (word "b", some "y")] := by
  have hflat : ∀ block ∈ flatScript, block.Flat := by
    simp [flatScript, Block.Flat, Block.IsLine]
  refine ⟨hflat, ?_⟩
  rw [(Shell.script_runs ⟨rfl, rfl, rfl⟩ hflat).2]
  decide +kernel

def nestedScript : List Block :=
  [.ifThen "1" .equal "1"
    [.ifThen "2" .equal "2" [.pipelines [word "p"]], .pipelines [word "q"]]]

theorem inner_end_runs_out_of_order :
    (Shell.feed trace ⟨.default, ⟨[], none, []⟩⟩ (linesAll nestedScript)).rest.ran =
        [(word "q", none), (word "p", none)] ∧
      (execAll trace nestedScript ⟨[], none, []⟩).ran = [(word "p", none), (word "q", none)] ∧
      word "p" ≠ word "q" := by
  decide +kernel

end Origel.Ion
