import Origel.Lib.Run
import Origel.Net.Socket

/-! The stack of directories, beside the current directory. -/
namespace Origel.Ion

open Origel.Lib

def SUCCESS : Int := 0

def FAILURE : Int := -1

def NO_SUCH_COMMAND : Int := 127

/-- `str::parse::<usize>` -/
abbrev parseUsize (s : List Char) : Option Nat := Net.parseUnsigned (2 ^ 64) s

/-- Paths and what they lead to, as the system has it -/
structure Os (PathBuf : Type*) where
  path : List Char → PathBuf
  toStringLossy : PathBuf → List Char
  /-- The path of the directory that a path leads to from the current one -/
  resolve : PathBuf → PathBuf → PathBuf

/-- The path of a directory leads to it, from everywhere. -/
structure Os.Lawful {PathBuf : Type*} (os : Os PathBuf) : Prop where
  resolved : ∀ currentDir dir other,
    os.resolve other (os.resolve currentDir dir) = os.resolve currentDir dir

/-- What the system answers in the course of a command -/
structure Answers where
  home : Option (List Char)
  setCurrentDir : Bool
  currentDir : Bool
  deriving DecidableEq, Repr

inductive DirCommand where
  | cd (args : List (List Char))
  | pushd (args : List (List Char))
  | popd
  deriving DecidableEq, Repr

/-- The current directory of the shell, and its `DirectoryStack` -/
structure Directories (PathBuf : Type*) where
  currentDir : PathBuf
  dirs : List PathBuf
  deriving DecidableEq, Repr

namespace Directories

variable {PathBuf : Type*}

/-- `DirectoryStack::new` -/
def new (currentDir : PathBuf) : Directories PathBuf := ⟨currentDir, [currentDir]⟩

/-- `DirectoryStack::get_size`, of what DIRECTORY_STACK_SIZE is -/
def getSize (value : List Char) : Nat := (parseUsize value).getD 1000

def pushDir (value : List Char) (dirs : List PathBuf) (path : PathBuf) : List PathBuf :=
  (path :: dirs).take (getSize value)

def getPreviousDir (dirs : List PathBuf) : Option PathBuf :=
  if dirs.length < 2 then none else dirs[1]?

variable (os : Os PathBuf) (value : List Char) (s : Directories PathBuf) (a : Answers)

def changeAndPushDir (dir : List Char) : Int × Directories PathBuf :=
  let there := os.resolve s.currentDir (os.path dir)
  match a.setCurrentDir, a.currentDir with
  | true, true => (SUCCESS, ⟨there, pushDir value s.dirs there⟩)
  | false, _ => (FAILURE, s)
  | true, false => (FAILURE, { s with currentDir := there })

def switchToHomeDirectory : Int × Directories PathBuf :=
  match a.home with
  | none => (FAILURE, s)
  | some home => s.changeAndPushDir os value a home

def switchToPreviousDirectory : Int × Directories PathBuf :=
  match getPreviousDir s.dirs with
  | none => (FAILURE, s)
  | some prev =>
    changeAndPushDir os value { s with dirs := s.dirs.eraseIdx 1 } a (os.toStringLossy prev)

def cd (args : List (List Char)) : Int × Directories PathBuf :=
  match args[1]? with
  | some dir =>
    if dir = ['-'] then s.switchToPreviousDirectory os value a
    else s.changeAndPushDir os value a dir
  | none => s.switchToHomeDirectory os value a

def pushd (args : List (List Char)) : Int × Directories PathBuf :=
  match args[1]? with
  | none => (FAILURE, s)
  | some dir => s.changeAndPushDir os value a dir

def popd : Int × Directories PathBuf :=
  match getPreviousDir s.dirs with
  | none => (FAILURE, s)
  | some dir =>
    if a.setCurrentDir then (SUCCESS, ⟨os.resolve s.currentDir dir, s.dirs.tail⟩) else (FAILURE, s)

def call : DirCommand × Answers → Int × Directories PathBuf
  | (.cd args, a) => s.cd os value a args
  | (.pushd args, a) => s.pushd os value a args
  | (.popd, a) => s.popd os a

def next (c : DirCommand × Answers) : Directories PathBuf := (s.call os value c).2

/-- The stack begins with the current directory, and is not larger than it may be. -/
structure Mirrors (value : List Char) (s : Directories PathBuf) : Prop where
  first : s.dirs.head? = some s.currentDir
  bounded : s.dirs.length ≤ max 1 (getSize value)

/-- A call that fails changes nothing. -/
def Frame (c : DirCommand × Answers) : Prop := (s.call os value c).1 = FAILURE → s.next os value c = s

/-- The command goes back to the previous directory with `cd -`. -/
def GoesBack : DirCommand → Prop
  | .cd args => args[1]? = some ['-'] ∧ 2 ≤ s.dirs.length
  | _ => False

/-- The directory that `cd` or `pushd` is to change to -/
def requested : DirCommand → Option (List Char)
  | .cd args =>
    match args[1]? with
    | some dir => if dir = ['-'] then (getPreviousDir s.dirs).map os.toStringLossy else some dir
    | none => a.home
  | .pushd args => args[1]?
  | .popd => none

/-- A change that is recorded has room in the stack, and one that fails does so before anything has
changed. -/
def Safe (c : DirCommand × Answers) : Prop :=
  ∀ dir, s.requested os c.2 c.1 = some dir →
    if c.2.setCurrentDir ∧ c.2.currentDir then getSize value ≠ 0
    else ¬s.GoesBack c.1 ∧
      (c.2.setCurrentDir → os.resolve s.currentDir (os.path dir) = s.currentDir)

end Directories

section Steps

open Directories

variable {PathBuf : Type*} {os : Os PathBuf} {value dir : List Char} {s t : Directories PathBuf}
  {a : Answers} {c : DirCommand × Answers} {path : PathBuf}

theorem SUCCESS_ne : SUCCESS ≠ FAILURE := by decide

theorem getPreviousDir_eq (h : getPreviousDir s.dirs = some path) :
    ∃ first rest, s.dirs = first :: path :: rest := by
  match hdirs : s.dirs with
  | [] => simp [getPreviousDir, hdirs] at h
  | [first] => simp [getPreviousDir, hdirs] at h
  | first :: second :: rest =>
    have hsecond : second = path := by simpa [getPreviousDir, hdirs] using h
    exact ⟨first, rest, by rw [hsecond]⟩

/-- What a call can come to: nothing, the previous directory, or a change to another directory. -/
theorem call_cases (os : Os PathBuf) (value : List Char) (s : Directories PathBuf)
    (c : DirCommand × Answers) :
    (s.requested os c.2 c.1 = none ∧ s.call os value c = (FAILURE, s)) ∨
    (s.requested os c.2 c.1 = none ∧ ∃ first path rest, s.dirs = first :: path :: rest ∧
      s.call os value c = (SUCCESS, ⟨os.resolve s.currentDir path, path :: rest⟩)) ∨
    ∃ dir t, s.requested os c.2 c.1 = some dir ∧
      s.call os value c = t.changeAndPushDir os value c.2 dir ∧ t.currentDir = s.currentDir ∧
      (s.GoesBack c.1 ∧ 2 ≤ s.dirs.length ∧ t.dirs = s.dirs.eraseIdx 1 ∨ ¬s.GoesBack c.1 ∧ t = s) := by
  obtain ⟨command, a⟩ := c
  cases command with
  | cd args =>
    cases hargs : args[1]? with
    | none =>
      have hback : ¬s.GoesBack (.cd args) := by simp [GoesBack, hargs]
      cases hhome : a.home with
      | none => exact .inl (by simp [requested, call, cd, switchToHomeDirectory, hargs, hhome])
      | some home =>
        refine .inr (.inr ⟨home, s, ?_, ?_, rfl, .inr ⟨hback, rfl⟩⟩)
        · simp [requested, hargs, hhome]
        · simp [call, cd, switchToHomeDirectory, hargs, hhome]
    | some dir =>
      by_cases hdir : dir = ['-']
      · cases hprev : getPreviousDir s.dirs with
        | none =>
          exact .inl (by simp [requested, call, cd, switchToPreviousDirectory, hargs, hdir, hprev])
        | some path =>
          have hlen : 2 ≤ s.dirs.length := by
            obtain ⟨first, rest, hdirs⟩ := getPreviousDir_eq hprev
            simp [hdirs]
          refine .inr (.inr ⟨os.toStringLossy path, { s with dirs := s.dirs.eraseIdx 1 }, ?_, ?_, rfl,
            .inl ⟨⟨by rw [hargs, hdir], hlen⟩, hlen, rfl⟩⟩)
          · simp [requested, hargs, hdir, hprev]
          · simp [call, cd, switchToPreviousDirectory, hargs, hdir, hprev]
      · refine .inr (.inr ⟨dir, s, ?_, ?_, rfl, .inr ⟨?_, rfl⟩⟩)
        · simp [requested, hargs, hdir]
        · simp [call, cd, hargs, hdir]
        · simp [GoesBack, hargs, hdir]
  | pushd args =>
    cases hargs : args[1]? with
    | none => exact .inl (by simp [requested, call, pushd, hargs])
    | some dir =>
      refine .inr (.inr ⟨dir, s, hargs, ?_, rfl, .inr ⟨id, rfl⟩⟩)
      simp [call, pushd, hargs]
  | popd =>
    cases hprev : getPreviousDir s.dirs with
    | none => exact .inl (by simp [requested, call, popd, hprev])
    | some path =>
      obtain ⟨first, rest, hdirs⟩ := getPreviousDir_eq hprev
      cases hset : a.setCurrentDir with
      | false => exact .inl (by simp [requested, call, popd, hprev, hset])
      | true =>
        refine .inr (.inl ⟨rfl, first, path, rest, hdirs, ?_⟩)
        simp only [call, popd, hprev, hset, if_true]
        rw [hdirs, List.tail_cons]

/-- Every directory of the stack is led to by its path. -/
def Reached (os : Os PathBuf) (s : Directories PathBuf) : Prop :=
  ∀ dir ∈ s.dirs, ∀ other, os.resolve other dir = dir

theorem Reached.changeAndPushDir (hos : os.Lawful) (h : Reached os t) :
    Reached os (t.changeAndPushDir os value a dir).2 := by
  unfold Directories.changeAndPushDir
  cases a.setCurrentDir with
  | false => exact h
  | true =>
    cases a.currentDir with
    | false => exact h
    | true =>
      intro path hpath
      rcases List.mem_cons.mp (List.mem_of_mem_take hpath) with rfl | hmem
      · exact hos.resolved _ _
      · exact h path hmem

theorem Reached.next (hos : os.Lawful) (h : Reached os s) (c : DirCommand × Answers) :
    Reached os (s.next os value c) := by
  rw [Directories.next]
  rcases call_cases os value s c with ⟨-, hcall⟩ | ⟨-, first, path, rest, hdirs, hcall⟩ |
    ⟨dir, t, -, hcall, -, ht⟩ <;> rw [hcall]
  · exact h
  · intro other hother
    exact h other (by rw [hdirs]; exact List.mem_cons_of_mem first hother)
  · apply Reached.changeAndPushDir hos
    rcases ht with ⟨-, -, hdirs⟩ | ⟨-, rfl⟩
    · intro other hother
      rw [hdirs] at hother
      exact h other (List.mem_of_mem_eraseIdx hother)
    · exact h

theorem mirrors_pop {first : PathBuf} {rest : List PathBuf} (hs : Mirrors value s)
    (hdirs : s.dirs = first :: path :: rest) : Mirrors value ⟨path, path :: rest⟩ := by
  have hlen := hs.bounded
  rw [hdirs] at hlen
  exact ⟨rfl, Nat.le_trans (Nat.le_succ _) hlen⟩

/-- What is pushed is seen on top, unless nothing has room. -/
theorem mirrors_push : Mirrors value ⟨path, pushDir value s.dirs path⟩ ↔ getSize value ≠ 0 := by
  constructor
  · rintro ⟨hfirst, -⟩ hsize
    simp [pushDir, hsize] at hfirst
  · intro hsize
    obtain ⟨n, hn⟩ := Nat.exists_eq_succ_of_ne_zero hsize
    refine ⟨by simp [pushDir, hn], ?_⟩
    have hlen : (pushDir value s.dirs path).length ≤ getSize value := List.length_take_le _ _
    exact Nat.le_trans hlen (Nat.le_max_right _ _)

theorem keeps_of_safe (hr : Reached os s) (hm : Mirrors value s) (hsafe : s.Safe os value c) :
    Mirrors value (s.next os value c) ∧ s.Frame os value c := by
  rw [Frame, next]
  rcases call_cases os value s c with ⟨-, hcall⟩ | ⟨-, first, path, rest, hdirs, hcall⟩ |
    ⟨dir, t, hreq, hcall, hcurrent, ht⟩ <;> rw [hcall]
  · exact ⟨hm, fun _ => rfl⟩
  · rw [hr path (by simp [hdirs])]
    exact ⟨mirrors_pop hm hdirs, fun h => absurd h SUCCESS_ne⟩
  · have hsafe := hsafe dir hreq
    unfold changeAndPushDir
    cases hset : c.2.setCurrentDir with
    | false =>
      simp only [hset, Bool.false_eq_true, false_and, if_false] at hsafe
      rcases ht with ⟨hback, -⟩ | ⟨-, rfl⟩
      · exact absurd hback hsafe.1
      · exact ⟨hm, fun _ => rfl⟩
    | true =>
      cases hget : c.2.currentDir with
      | false =>
        simp only [hset, hget, Bool.false_eq_true, and_false, if_false, true_implies] at hsafe
        rcases ht with ⟨hback, -⟩ | ⟨-, rfl⟩
        · exact absurd hback hsafe.1
        · simp only [hsafe.2]
          exact ⟨hm, fun _ => trivial⟩
      | true =>
        simp only [hset, hget, and_self, if_true] at hsafe
        exact ⟨mirrors_push.mpr hsafe, fun h => absurd h SUCCESS_ne⟩

theorem safe_of_keeps (hm : Mirrors value (s.next os value c)) (hf : s.Frame os value c) :
    s.Safe os value c := by
  intro dir hreq
  rw [Frame] at hf
  rw [next] at hm hf
  rcases call_cases os value s c with ⟨hnone, -⟩ | ⟨hnone, -⟩ | ⟨dir', t, hreq', hcall, hcurrent, ht⟩
  · rw [hnone] at hreq
    cases hreq
  · rw [hnone] at hreq
    cases hreq
  · obtain rfl : dir' = dir := Option.some.inj (hreq'.symm.trans hreq)
    rw [hcall] at hm hf
    unfold changeAndPushDir at hm hf
    have hback : t.dirs = s.dirs → ¬s.GoesBack c.1 := by
      intro hsame
      rcases ht with ⟨-, hlen, herase⟩ | ⟨hnot, -⟩
      · have heq := congrArg List.length (hsame.symm.trans herase)
        rw [List.length_eraseIdx, if_pos (by omega)] at heq
        omega
      · exact hnot
    cases hset : c.2.setCurrentDir with
    | false =>
      simp only [hset] at hf
      rw [if_neg (by simp)]
      exact ⟨hback (congrArg Directories.dirs (hf trivial)), fun h => absurd h (by simp)⟩
    | true =>
      cases hget : c.2.currentDir with
      | false =>
        simp only [hset, hget] at hf
        rw [if_neg (by simp)]
        obtain ⟨hthere, hdirs⟩ := Directories.mk.inj (hf trivial)
        refine ⟨hback hdirs, fun _ => ?_⟩
        rw [← hcurrent, hthere, hcurrent]
      | true =>
        simp only [hset, hget] at hm
        rw [if_pos ⟨rfl, rfl⟩]
        exact mirrors_push.mp hm

/-- The stack mirrors the current directory throughout a run, and the calls that fail change nothing,
where every call is safe. -/
theorem directories_mirror_iff (hos : os.Lawful) (value : List Char) (start dir : PathBuf)
    (calls : List (DirCommand × Answers)) :
    Throughout (fun s c => s.next os value c) (Mirrors value) (new (os.resolve start dir)) calls ∧
        Each (fun s c => s.next os value c) (fun s c => s.Frame os value c)
          (new (os.resolve start dir)) calls ↔
      Each (fun s c => s.next os value c) (fun s c => s.Safe os value c)
        (new (os.resolve start dir)) calls := by
  apply throughout_and_each_iff (fun s c (h : Reached os s) => h.next hos c)
  · exact fun s c hr hm hsafe => keeps_of_safe hr hm hsafe
  · exact fun s c _ _ hm hf => safe_of_keeps hm hf
  · intro path hpath other
    rw [List.mem_singleton.mp hpath]
    exact hos.resolved start dir other
  · exact ⟨rfl, Nat.le_max_left _ _⟩

end Steps

/-- Paths of names, from the root or not -/
def namesOs : Os (Bool × List (List Char)) where
  path text := (text.head? = some '/', [text])
  toStringLossy path := path.2.flatten
  resolve currentDir dir := if dir.1 then dir else (true, currentDir.2 ++ dir.2)

theorem namesOs_lawful : namesOs.Lawful := by
  constructor
  intro currentDir dir other
  cases hdir : dir.1 <;> simp [namesOs, hdir]

/-- `cd a`, and back -/
def thereAndBack (back : Bool) : List (DirCommand × Answers) :=
  [(.cd [['c', 'd'], ['a']], ⟨none, true, true⟩), (.cd [['c', 'd'], ['-']], ⟨none, back, true⟩)]

open Directories in
theorem directories_mirror_iff_back :
    Throughout (fun s c => s.next namesOs ['2'] c) (Mirrors ['2'])
        (new (namesOs.resolve (true, []) (true, [['/']]))) (thereAndBack true) ∧
      Each (fun s c => s.next namesOs ['2'] c) (fun s c => s.Frame namesOs ['2'] c)
        (new (namesOs.resolve (true, []) (true, [['/']]))) (thereAndBack true) := by
  apply (directories_mirror_iff namesOs_lawful ['2'] (true, []) (true, [['/']]) _).mpr
  refine ⟨?_, ?_, trivial⟩
  · intro dir _
    rw [if_pos (by decide)]
    decide
  · intro dir _
    rw [if_pos (by decide)]
    decide

open Directories in
/-- The way back cannot be gone, and is no longer in the stack. -/
theorem back_forgets :
    ¬∀ (os : Os (Bool × List (List Char))) (value : List Char) (start dir : Bool × List (List Char))
      (calls : List (DirCommand × Answers)), os.Lawful →
      Throughout (fun s c => s.next os value c) (Mirrors value) (new (os.resolve start dir)) calls ∧
        Each (fun s c => s.next os value c) (fun s c => s.Frame os value c)
          (new (os.resolve start dir)) calls := by
  intro h
  have hframe := (h namesOs ['2'] (true, []) (true, [['/']]) (thereAndBack false) namesOs_lawful).2.2.1
  exact absurd (hframe (by decide)) (by decide)

end Origel.Ion
