import Mathlib.Data.List.Induction
import Mathlib.Data.List.Nodup
import Mathlib.Logic.Function.Basic
import Origel.Ion.DirectoryStack
import Origel.Ion.Pipelines

/-! Functions of the shell: their parameters are variables, which are put back after the call. -/
namespace Origel.Ion

/-- The characters of an `_arg` -/
def isArgCharacter (c : Char) : Bool := 'A' ≤ c ∧ c ≤ 'z' ∨ '0' ≤ c ∧ c ≤ '9'

structure Parameter where
  name : List Char
  nonempty : name ≠ []
  valid : ∀ c ∈ name, isArgCharacter c
  deriving DecidableEq, Repr

structure Function where
  name : List Char
  pipelines : List Pipeline
  args : List Parameter
  deriving DecidableEq, Repr

/-- The variables of the shell, and the environment behind them -/
structure Variables where
  map : List Char → Option (List Char)
  env : List Char → Option (List Char)

namespace Variables

variable (v : Variables) (name value : List Char)

def setVar : Variables :=
  if name = [] then v
  else if value = [] then { v with map := Function.update v.map name none }
  else { v with map := Function.update v.map name (some value) }

def getVar : Option (List Char) := (v.map name).or (v.env name)

def unsetVar : Variables := { v with map := Function.update v.map name none }

end Variables

/-- `variables_backup` -/
abbrev Backup := List (List Char × Option (List Char))

/-- `HashMap::insert` -/
def insertBackup (b : Backup) (name : List Char) (value : Option (List Char)) : Backup :=
  b.filter (fun entry => entry.1 ≠ name) ++ [(name, value)]

def bindParameter (s : Backup × Variables) (p : Parameter × List Char) : Backup × Variables :=
  (insertBackup s.1 p.1.name (s.2.getVar p.1.name), s.2.setVar p.1.name p.2)

/-- The loop before the body of a function -/
def bindParameters (v : Variables) (ps : List (Parameter × List Char)) : Backup × Variables :=
  ps.foldl bindParameter ([], v)

def restoreParameter (v : Variables) : List Char × Option (List Char) → Variables
  | (name, some value) => v.setVar name value
  | (name, none) => v.unsetVar name

/-- The loop behind the body of a function -/
def restoreParameters (v : Variables) (b : Backup) : Variables := b.foldl restoreParameter v

structure ShellState (σ : Type*) where
  vars : Variables
  functions : List Char → Option Function
  previousStatus : Int
  rest : σ

/-- What is outside `run_pipeline`: the expansion of a pipeline, the commands of the shell, the
pipelines that are executed, the summaries, and the order of a `HashMap`. -/
structure Externals (σ : Type*) where
  expandPipeline : ShellState σ → Pipeline → Pipeline
  builtin : List Char → Option (List (List Char) → ShellState σ → Option (Int × ShellState σ))
  executePipeline : Pipeline → σ → Int × σ
  pushSummary : σ → σ
  order : Backup → Backup

/-- The state that the body of a function begins in -/
def ShellState.entered {σ : Type*} (sh : ShellState σ) (function : Function)
    (args : List (List Char)) : ShellState σ :=
  { sh with vars := (bindParameters sh.vars (function.args.zip args)).2 }

/-- Runs pipelines one after another, and gives the status of the last one. -/
def runAll {σ : Type*} (run : ShellState σ → Pipeline → Option (Option Int × ShellState σ)) :
    List Pipeline → Option Int × ShellState σ → Option (Option Int × ShellState σ)
  | [], s => some s
  | pipeline :: pipelines, s =>
    match run s.2 pipeline with
    | none => none
    | some s => runAll run pipelines s

namespace Externals

variable {σ : Type*} (x : Externals σ)

/-- Pushes a summary where the variable `RECORD_SUMMARY` asks for it. -/
def record (sh : ShellState σ) : ShellState σ :=
  if (sh.vars.getVar "RECORD_SUMMARY".toList).getD [] = ['1'] then
    { sh with rest := x.pushSummary sh.rest }
  else sh

/-- The end of `run_pipeline` -/
def finish (exitStatus : Option Int) (sh : ShellState σ) : Option Int × ShellState σ :=
  let sh := x.record sh
  match exitStatus with
  | some code =>
    (some code, { sh with
      vars := sh.vars.setVar ['?'] (toString code).toList
      previousStatus := code })
  | none => (none, sh)

/-- The state behind the body of a function -/
def leave (b : Backup) (sh : ShellState σ) : ShellState σ :=
  { sh with vars := restoreParameters sh.vars (x.order b) }

/-- `run_pipeline`, where calls do not nest deeper than `fuel`; none where it panics or does not
return -/
def runPipeline : Nat → ShellState σ → Pipeline → Option (Option Int × ShellState σ)
  | 0, _, _ => none
  | fuel + 1, sh, pipeline =>
    let pipeline := x.expandPipeline sh pipeline
    match pipeline.jobs with
    | [] => none
    | job :: _ =>
      match x.builtin job.command with
      | some main => (main job.args sh).map fun (code, sh) => x.finish (some code) sh
      | none =>
        match sh.functions job.command with
        | some function =>
          match job.args with
          | [] => none
          | _ :: args =>
            if args.length = function.args.length then
              let bound := bindParameters sh.vars (function.args.zip args)
              (runAll (runPipeline fuel) function.pipelines (none, { sh with vars := bound.2 })).map
                fun (returnValue, sh) => x.finish returnValue (x.leave bound.1 sh)
            else some (x.finish (some NO_SUCH_COMMAND) sh)
        | none =>
          let (code, rest) := x.executePipeline pipeline sh.rest
          some (x.finish (some code) { sh with rest })

/-- `run_pipeline` returns. -/
def Returns (sh : ShellState σ) (pipeline : Pipeline) (result : Option Int × ShellState σ) : Prop :=
  ∃ fuel, x.runPipeline fuel sh pipeline = some result

/-- Pipelines, one after another, come to an end. -/
def Ends (sh : ShellState σ) (pipelines : List Pipeline) (result : Option Int × ShellState σ) : Prop :=
  ∃ fuel, runAll (x.runPipeline fuel) pipelines (none, sh) = some result

/-- The pipeline calls a function, with as many arguments as it has parameters. -/
def called (sh : ShellState σ) (pipeline : Pipeline) : Option (Function × List (List Char)) :=
  match (x.expandPipeline sh pipeline).jobs with
  | [] => none
  | job :: _ =>
    if (x.builtin job.command).isSome then none
    else
      match sh.functions job.command, job.args with
      | some function, _ :: args =>
        if args.length = function.args.length then some (function, args) else none
      | _, _ => none

end Externals

/-- Arguments that all get through: where a parameter occurs more than once they agree, and an empty
one is given only where the environment has the empty value behind the parameter. -/
def Bindable (v : Variables) (ps : List (Parameter × List Char)) : Prop :=
  ∀ p ∈ ps, (∀ p' ∈ ps, p'.1 = p.1 → p'.2 = p.2) ∧ (p.2 = [] → v.env p.1.name = some [])

/-- What the parameters were before the call comes back: a parameter that occurs more than once had its
argument as its value already, and one without a value, or with the empty one, has the same in the
environment after the body. -/
def Restorable (v : Variables) (env : List Char → Option (List Char))
    (ps : List (Parameter × List Char)) : Prop :=
  ∀ p ∈ ps,
    if 1 < (ps.map Prod.fst).count p.1 ∧ p.2 ≠ [] then v.getVar p.1.name = some p.2
    else (ps.map Prod.fst).count p.1 = 1 ∧ (v.getVar p.1.name).getD [] ≠ [] ∨
      env p.1.name = v.getVar p.1.name

instance (v : Variables) : DecidablePred (Bindable v) :=
  fun ps => inferInstanceAs (Decidable (∀ p ∈ ps, _))

instance (v : Variables) (env : List Char → Option (List Char)) : DecidablePred (Restorable v env) :=
  fun ps => inferInstanceAs (Decidable (∀ p ∈ ps, _))

section Parameters

variable {v : Variables} {name value : List Char} {ps pre post : List (Parameter × List Char)}
  {p : Parameter × List Char} {q : Parameter} {b : Backup} {w : Option (List Char)}

theorem Parameter.eq_of_name {p q : Parameter} (h : p.name = q.name) : p = q := by
  cases p
  cases q
  cases h
  rfl

theorem Parameter.ne_question (q : Parameter) : q.name ≠ ['?'] := by
  intro h
  have := q.valid '?' (by rw [h]; exact List.mem_cons_self)
  exact absurd this (by decide)

@[simp] theorem setVar_env : (v.setVar name value).env = v.env := by
  unfold Variables.setVar
  split
  · rfl
  · split <;> rfl

theorem setVar_same (hname : name ≠ []) :
    (v.setVar name value).map name = if value = [] then none else some value := by
  by_cases hvalue : value = [] <;> simp [Variables.setVar, hname, hvalue]

theorem setVar_other {other : List Char} (h : other ≠ name) :
    (v.setVar name value).map other = v.map other := by
  unfold Variables.setVar
  split
  · rfl
  · split <;> exact Function.update_of_ne h _ _

/-- What a parameter is after it has been set. -/
theorem getVar_setVar :
    (v.setVar q.name value).getVar q.name = if value = [] then v.env q.name else some value := by
  rw [Variables.getVar, setVar_same q.nonempty, setVar_env]
  split <;> rfl

theorem bindParameter_env (s : Backup × Variables) : (ps.foldl bindParameter s).2.env = s.2.env := by
  induction ps generalizing s with
  | nil => rfl
  | cons p ps ih => rw [List.foldl_cons, ih, bindParameter, setVar_env]

theorem mem_insertBackup {entry : List Char × Option (List Char)} :
    entry ∈ insertBackup b name w ↔ entry.1 ≠ name ∧ entry ∈ b ∨ entry = (name, w) := by
  simp [insertBackup, and_comm]

theorem insertBackup_nodup (h : (b.map Prod.fst).Nodup) :
    ((insertBackup b name w).map Prod.fst).Nodup := by
  rw [insertBackup, List.map_append]
  apply List.Nodup.append
  · exact h.sublist (List.filter_sublist.map Prod.fst)
  · exact List.nodup_singleton _
  · intro other hother hmem
    obtain ⟨entry, hentry, rfl⟩ := List.mem_map.mp hother
    have hne : entry.1 ≠ name := by simpa using (List.mem_filter.mp hentry).2
    exact hne (by simpa using hmem)

theorem bindParameters_nodup : ((bindParameters v ps).1.map Prod.fst).Nodup := by
  induction ps using List.reverseRecOn with
  | nil => exact List.nodup_nil
  | append_singleton ps p ih =>
    rw [bindParameters, List.foldl_append]
    exact insertBackup_nodup ih

/-- A parameter that is not bound keeps its value, and what is saved of it. -/
theorem bind_other (s : Backup × Variables) (h : q ∉ ps.map Prod.fst) :
    (ps.foldl bindParameter s).2.getVar q.name = s.2.getVar q.name ∧
      ((q.name, w) ∈ (ps.foldl bindParameter s).1 ↔ (q.name, w) ∈ s.1) := by
  induction ps generalizing s with
  | nil => exact ⟨rfl, Iff.rfl⟩
  | cons p ps ih =>
    rw [List.map_cons, List.mem_cons, not_or] at h
    have hne : q.name ≠ p.1.name := fun heq => h.1 (Parameter.eq_of_name heq)
    obtain ⟨hget, hsaved⟩ := ih (bindParameter s p) h.2
    rw [List.foldl_cons]
    constructor
    · rw [hget]
      simp [bindParameter, Variables.getVar, setVar_other hne]
    · rw [hsaved, bindParameter, mem_insertBackup]
      simp [hne]

/-- The last binding of a parameter gives it its value, and saves what it was before that. -/
theorem bind_last (hpost : q ∉ post.map Prod.fst) :
    (bindParameters v (pre ++ (q, value) :: post)).2.getVar q.name =
        (if value = [] then v.env q.name else some value) ∧
      ((q.name, w) ∈ (bindParameters v (pre ++ (q, value) :: post)).1 ↔
        w = (bindParameters v pre).2.getVar q.name) := by
  rw [bindParameters, List.foldl_append, List.foldl_cons]
  obtain ⟨hget, hsaved⟩ := @bind_other post q w
    (bindParameter (bindParameters v pre) (q, value)) hpost
  constructor
  · rw [← bindParameters, hget, bindParameter, getVar_setVar, bindParameters, bindParameter_env]
  · rw [← bindParameters, hsaved, bindParameter, mem_insertBackup]
    simp

theorem exists_last (h : q ∈ ps.map Prod.fst) :
    ∃ pre value post, ps = pre ++ (q, value) :: post ∧ q ∉ post.map Prod.fst := by
  induction ps with
  | nil => cases h
  | cons p ps ih =>
    by_cases hrest : q ∈ ps.map Prod.fst
    · obtain ⟨pre, value, post, rfl, hpost⟩ := ih hrest
      exact ⟨p :: pre, value, post, rfl, hpost⟩
    · rcases List.mem_cons.mp h with rfl | hmem
      · exact ⟨[], p.2, ps, rfl, hrest⟩
      · exact absurd hmem hrest

@[simp] theorem restoreParameters_env : (restoreParameters v b).env = v.env := by
  induction b generalizing v with
  | nil => rfl
  | cons entry b ih =>
    obtain ⟨name, w⟩ := entry
    rw [restoreParameters, List.foldl_cons, ← restoreParameters, ih]
    cases w
    · rfl
    · exact setVar_env

theorem restoreParameters_other (h : name ∉ b.map Prod.fst) :
    (restoreParameters v b).map name = v.map name := by
  induction b generalizing v with
  | nil => rfl
  | cons entry b ih =>
    obtain ⟨other, w⟩ := entry
    rw [List.map_cons, List.mem_cons, not_or] at h
    rw [restoreParameters, List.foldl_cons, ← restoreParameters, ih h.2]
    cases w
    · exact Function.update_of_ne h.1 _ _
    · exact setVar_other h.1

/-- What is restored is what was saved, unless that was empty. -/
theorem restoreParameters_mem (hnodup : (b.map Prod.fst).Nodup) (hname : name ≠ [])
    (hmem : (name, w) ∈ b) : (restoreParameters v b).map name = w.filter (· ≠ []) := by
  induction b generalizing v with
  | nil => cases hmem
  | cons entry b ih =>
    rw [List.map_cons, List.nodup_cons] at hnodup
    rw [restoreParameters, List.foldl_cons, ← restoreParameters]
    rcases List.mem_cons.mp hmem with rfl | hmem
    · rw [restoreParameters_other hnodup.1]
      cases w with
      | none => exact Function.update_self _ _ _
      | some value =>
        rw [restoreParameter, setVar_same hname]
        by_cases hvalue : value = [] <;> simp [Option.filter, hvalue]
    · exact ih hnodup.2 hmem

/-- What is saved of a parameter, where its arguments agree. -/
theorem saved_eq (hagree : ∀ p' ∈ ps, p'.1 = p.1 → p'.2 = p.2) (hp : p ∈ ps) :
    ∃ saved, (p.1.name, saved) ∈ (bindParameters v ps).1 ∧
      saved = if 1 < (ps.map Prod.fst).count p.1 then (if p.2 = [] then v.env p.1.name else some p.2)
        else v.getVar p.1.name := by
  obtain ⟨pre, value, post, rfl, hpost⟩ := exists_last (List.mem_map_of_mem hp)
  refine ⟨_, bind_last hpost |>.2.mpr rfl, ?_⟩
  have hcount : ((pre ++ (p.1, value) :: post).map Prod.fst).count p.1 =
      (pre.map Prod.fst).count p.1 + 1 := by
    simp [List.count_eq_zero.mpr hpost]
  rw [hcount]
  by_cases hpre : p.1 ∈ pre.map Prod.fst
  · rw [if_pos (by have := List.count_pos_iff.mpr hpre; omega)]
    obtain ⟨pre', value', post', rfl, hpost'⟩ := exists_last hpre
    have hvalue : value' = p.2 := hagree (p.1, value') (by simp) rfl
    rw [hvalue, (@bind_last v _ pre' post' p.1 none hpost').1]
  · rw [if_neg (by have := List.count_eq_zero.mpr hpre; omega)]
    exact (@bind_other pre p.1 none ([], v) hpre).1

theorem bound_iff :
    (∀ p ∈ ps, (bindParameters v ps).2.getVar p.1.name = some p.2) ↔ Bindable v ps := by
  constructor
  · intro hbound p hp
    have hagree : ∀ p' ∈ ps, p'.1 = p.1 → p'.2 = p.2 := by
      intro p' hp' heq
      have hget := hbound p' hp'
      rw [heq, hbound p hp] at hget
      exact (Option.some.inj hget).symm
    refine ⟨hagree, fun hempty => ?_⟩
    have hget := hbound p hp
    obtain ⟨pre, value, post, rfl, hpost⟩ := exists_last (List.mem_map_of_mem hp)
    have hvalue : value = p.2 := hagree (p.1, value) (by simp) rfl
    rw [(@bind_last v _ pre post p.1 none hpost).1, hvalue, hempty, if_pos rfl] at hget
    exact hget
  · intro h p hp
    obtain ⟨hagree, hempty⟩ := h p hp
    obtain ⟨pre, value, post, rfl, hpost⟩ := exists_last (List.mem_map_of_mem hp)
    have hvalue : value = p.2 := hagree (p.1, value) (by simp) rfl
    rw [(@bind_last v _ pre post p.1 none hpost).1, hvalue]
    split
    · rename_i hp
      rw [hempty hp, hp]
    · rfl

theorem restored_iff {after : Variables} {order : Backup → Backup} (horder : ∀ b, (order b).Perm b)
    (hbind : Bindable v ps) :
    (∀ p ∈ ps, (restoreParameters after (order (bindParameters v ps).1)).getVar p.1.name =
      v.getVar p.1.name) ↔ Restorable v after.env ps := by
  apply forall₂_congr
  intro p hp
  obtain ⟨hagree, hempty⟩ := hbind p hp
  obtain ⟨saved, hmem, hsaved⟩ := @saved_eq v ps p hagree hp
  have hnodup : ((order (bindParameters v ps).1).map Prod.fst).Nodup :=
    ((horder _).map Prod.fst).nodup_iff.mpr bindParameters_nodup
  rw [Variables.getVar, restoreParameters_env,
    restoreParameters_mem hnodup p.1.nonempty ((horder _).mem_iff.mpr hmem), hsaved]
  have hcount : 1 ≤ (ps.map Prod.fst).count p.1 := List.count_pos_iff.mpr (List.mem_map_of_mem hp)
  by_cases hmore : 1 < (ps.map Prod.fst).count p.1
  · rw [if_pos hmore]
    by_cases hvalue : p.2 = []
    · rw [if_pos hvalue, if_neg (by simp [hvalue]), hempty hvalue]
      simp [Option.filter, Nat.ne_of_gt hmore]
    · rw [if_neg hvalue, if_pos ⟨hmore, hvalue⟩]
      simp only [Option.filter, decide_not, hvalue, decide_false, Bool.not_false, if_true, Option.some_or]
      exact eq_comm
  · rw [if_neg hmore, if_neg (by simp [hmore])]
    have hone : (ps.map Prod.fst).count p.1 = 1 := by omega
    cases hget : v.getVar p.1.name with
    | none => simp
    | some value =>
      by_cases hvalue : value = []
      · simp [Option.filter, hvalue]
      · simp [Option.filter, hvalue, hone]

end Parameters

section Calls

variable {σ : Type*} {x : Externals σ} {sh : ShellState σ} {pipeline : Pipeline} {function : Function}
  {args : List (List Char)} {fuel more : Nat} {result result' : Option Int × ShellState σ}
  {pipelines : List Pipeline}

theorem runAll_mono {run run' : ShellState σ → Pipeline → Option (Option Int × ShellState σ)}
    (h : ∀ sh pipeline result, run sh pipeline = some result → run' sh pipeline = some result)
    {s : Option Int × ShellState σ} (hrun : runAll run pipelines s = some result) :
    runAll run' pipelines s = some result := by
  induction pipelines generalizing s with
  | nil => exact hrun
  | cons pipeline pipelines ih =>
    rw [runAll] at hrun ⊢
    cases hfirst : run s.2 pipeline with
    | none =>
      rw [hfirst] at hrun
      cases hrun
    | some s' =>
      rw [hfirst] at hrun
      rw [h _ _ _ hfirst]
      exact ih hrun

/-- More fuel gives the same result. -/
theorem runPipeline_succ (h : x.runPipeline fuel sh pipeline = some result) :
    x.runPipeline (fuel + 1) sh pipeline = some result := by
  induction fuel generalizing sh pipeline result with
  | zero => cases h
  | succ fuel ih =>
    rw [Externals.runPipeline] at h ⊢
    cases hjobs : (x.expandPipeline sh pipeline).jobs with
    | nil => simp [hjobs] at h
    | cons job jobs =>
      simp only [hjobs] at h ⊢
      cases hmain : x.builtin job.command with
      | some main => simpa only [hmain] using h
      | none =>
        simp only [hmain] at h ⊢
        cases hfunction : sh.functions job.command with
        | none => simpa only [hfunction] using h
        | some function =>
          simp only [hfunction] at h ⊢
          cases hargs : job.args with
          | nil => simp [hargs] at h
          | cons command args =>
            simp only [hargs] at h ⊢
            by_cases hlength : args.length = function.args.length
            · rw [if_pos hlength] at h ⊢
              obtain ⟨body, hbody, hresult⟩ := Option.map_eq_some_iff.mp h
              rw [runAll_mono (fun _ _ _ => ih) hbody]
              exact congrArg some hresult
            · rwa [if_neg hlength] at h ⊢

theorem runPipeline_le (hle : fuel ≤ more) (h : x.runPipeline fuel sh pipeline = some result) :
    x.runPipeline more sh pipeline = some result := by
  induction hle with
  | refl => exact h
  | step _ ih => exact runPipeline_succ ih

theorem Ends.unique (h : x.Ends sh pipelines result) (h' : x.Ends sh pipelines result') :
    result = result' := by
  obtain ⟨fuel, h⟩ := h
  obtain ⟨more, h'⟩ := h'
  have hmax := runAll_mono (fun _ _ _ => runPipeline_le (Nat.le_max_left fuel more)) h
  have hmax' := runAll_mono (fun _ _ _ => runPipeline_le (Nat.le_max_right fuel more)) h'
  exact Option.some.inj (hmax.symm.trans hmax')

theorem called_length (h : x.called sh pipeline = some (function, args)) :
    args.length = function.args.length := by
  unfold Externals.called at h
  split at h
  · cases h
  · split at h
    · cases h
    · split at h
      · split at h
        · cases h
          assumption
        · cases h
      · cases h

/-- A call runs the body, with the parameters bound before and restored behind it. -/
theorem returns_iff (h : x.called sh pipeline = some (function, args)) :
    x.Returns sh pipeline result ↔
      ∃ body, x.Ends (sh.entered function args) function.pipelines body ∧
        x.finish body.1 (x.leave (bindParameters sh.vars (function.args.zip args)).1 body.2) = result := by
  have hrun : ∀ fuel, x.runPipeline (fuel + 1) sh pipeline =
      (runAll (x.runPipeline fuel) function.pipelines (none, sh.entered function args)).map
        fun body => x.finish body.1 (x.leave (bindParameters sh.vars (function.args.zip args)).1 body.2) := by
    intro fuel
    have hlength := called_length h
    unfold Externals.called at h
    rw [Externals.runPipeline]
    cases hjobs : (x.expandPipeline sh pipeline).jobs with
    | nil => simp [hjobs] at h
    | cons job jobs =>
      cases hmain : x.builtin job.command with
      | some main => simp [hjobs, hmain] at h
      | none =>
        cases hfunction : sh.functions job.command with
        | none => simp [hjobs, hmain, hfunction] at h
        | some function' =>
          cases hargs : job.args with
          | nil => simp [hjobs, hmain, hfunction, hargs] at h
          | cons command args' =>
            simp only [hjobs, hmain, hfunction, hargs, Option.isSome_none, Bool.false_eq_true,
              if_false] at h
            split at h
            · cases h
              simp only [hmain, hfunction, hargs, if_pos hlength, ShellState.entered]
            · cases h
  constructor
  · rintro ⟨fuel, hresult⟩
    cases fuel with
    | zero => cases hresult
    | succ fuel =>
      rw [hrun] at hresult
      obtain ⟨body, hbody, hbody'⟩ := Option.map_eq_some_iff.mp hresult
      exact ⟨body, ⟨fuel, hbody⟩, hbody'⟩
  · rintro ⟨body, ⟨fuel, hbody⟩, hbody'⟩
    refine ⟨fuel + 1, ?_⟩
    rw [hrun, hbody]
    exact congrArg some hbody'

theorem record_vars : (x.record sh).vars = sh.vars := by
  unfold Externals.record
  split <;> rfl

theorem finish_getVar (exitStatus : Option Int) (q : Parameter) :
    (x.finish exitStatus sh).2.vars.getVar q.name = sh.vars.getVar q.name := by
  cases exitStatus with
  | none => simp only [Externals.finish, record_vars]
  | some code =>
    simp only [Externals.finish, Variables.getVar, record_vars, setVar_other q.ne_question, setVar_env]

/-- A call of a function returns when its body comes to an end, and its parameters have their arguments
at first and what they were at the end, where the arguments get through and what was there before comes
back. -/
theorem parameters_restored_iff (x : Externals σ) (horder : ∀ b, (x.order b).Perm b)
    (hcalled : x.called sh pipeline = some (function, args))
    (hends : x.Ends (sh.entered function args) function.pipelines result) :
    ∃ status sh', (∀ result, x.Returns sh pipeline result ↔ result = (status, sh')) ∧
      (((∀ p ∈ function.args.zip args, (sh.entered function args).vars.getVar p.1.name = some p.2) ∧
          ∀ q ∈ function.args, sh'.vars.getVar q.name = sh.vars.getVar q.name) ↔
        Bindable sh.vars (function.args.zip args) ∧
          Restorable sh.vars result.2.vars.env (function.args.zip args)) := by
  obtain ⟨status, sh', hend⟩ : ∃ status sh',
      x.finish result.1 (x.leave (bindParameters sh.vars (function.args.zip args)).1 result.2) =
        (status, sh') := ⟨_, _, rfl⟩
  refine ⟨status, sh', fun other => ?_, ?_⟩
  · rw [returns_iff hcalled]
    constructor
    · rintro ⟨body, hbody, rfl⟩
      rw [← Ends.unique hends hbody, hend]
    · rintro rfl
      exact ⟨result, hends, hend⟩
  · have hparameters : ∀ sh' : ShellState σ,
        (∀ q ∈ function.args, sh'.vars.getVar q.name = sh.vars.getVar q.name) ↔
          ∀ p ∈ function.args.zip args, sh'.vars.getVar p.1.name = sh.vars.getVar p.1.name := by
      intro sh'
      have hfst : (function.args.zip args).map Prod.fst = function.args :=
        List.map_fst_zip (Nat.le_of_eq (called_length hcalled).symm)
      constructor
      · exact fun hq p hp => hq p.1 (hfst ▸ List.mem_map_of_mem hp)
      · intro hp q hq
        rw [← hfst] at hq
        obtain ⟨p, hmem, rfl⟩ := List.mem_map.mp hq
        exact hp p hmem
    rw [hparameters, ShellState.entered, bound_iff]
    apply and_congr_right
    intro hbind
    have hsh : sh' = (x.finish result.1
        (x.leave (bindParameters sh.vars (function.args.zip args)).1 result.2)).2 := by rw [hend]
    simp only [hsh, finish_getVar]
    exact restored_iff horder hbind

end Calls

/-- Nothing is built in, and everything that is executed succeeds. -/
def plainExternals : Externals Unit where
  expandPipeline _ pipeline := pipeline
  builtin _ := none
  executePipeline _ rest := (0, rest)
  pushSummary := id
  order := id

/-- `fn f`, with these parameters and one command -/
def commandFunction (args : List Parameter) : Function :=
  ⟨['f'], [⟨[⟨['l', 's'], [['l', 's']], false⟩], none, none⟩], args⟩

/-- There is this function, and no variable. -/
def functionShell (function : Function) : ShellState Unit :=
  ⟨⟨fun _ => none, fun _ => none⟩, fun name => if name = function.name then some function else none, 0, ()⟩

/-- `f` with these arguments -/
def callPipeline (args : List (List Char)) : Pipeline := ⟨[⟨['f'], ['f'] :: args, false⟩], none, none⟩

def parameterA : Parameter := ⟨['a'], by decide, List.forall_mem_singleton.mpr (by decide)⟩

theorem parameters_restored_iff_once :
    ∃ status sh', (∀ result, plainExternals.Returns (functionShell (commandFunction [parameterA]))
        (callPipeline [['1']]) result ↔ result = (status, sh')) ∧
      (∀ p ∈ (commandFunction [parameterA]).args.zip [['1']],
        ((functionShell (commandFunction [parameterA])).entered (commandFunction [parameterA])
          [['1']]).vars.getVar p.1.name = some p.2) ∧
      ∀ q ∈ (commandFunction [parameterA]).args, sh'.vars.getVar q.name =
        (functionShell (commandFunction [parameterA])).vars.getVar q.name := by
  obtain ⟨status, sh', hreturns, hiff⟩ := @parameters_restored_iff Unit
    (functionShell (commandFunction [parameterA])) (callPipeline [['1']]) (commandFunction [parameterA])
    [['1']] _ plainExternals (fun _ => .refl _) (by decide) ⟨1, rfl⟩
  exact ⟨status, sh', hreturns, hiff.mpr ⟨by decide, by decide⟩⟩

/-- A parameter that occurs twice keeps its argument after the call. -/
theorem parameter_kept :
    ¬∀ (x : Externals Unit) (sh sh' : ShellState Unit) (pipeline : Pipeline) (function : Function)
      (args : List (List Char)) (status : Option Int), (∀ b, (x.order b).Perm b) →
      x.called sh pipeline = some (function, args) → x.Returns sh pipeline (status, sh') →
      (∀ p ∈ function.args.zip args, (sh.entered function args).vars.getVar p.1.name = some p.2) ∧
        ∀ q ∈ function.args, sh'.vars.getVar q.name = sh.vars.getVar q.name := by
  intro h
  have hrestored := (h plainExternals (functionShell (commandFunction [parameterA, parameterA])) _
    (callPipeline [['1'], ['1']]) (commandFunction [parameterA, parameterA]) [['1'], ['1']] (some 0)
    (fun _ => .refl _) (by decide) ⟨2, rfl⟩).2
  exact absurd (hrestored parameterA (by decide)) (by decide)

end Origel.Ion
