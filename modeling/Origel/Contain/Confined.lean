import Mathlib.Data.List.TakeWhile
import Origel.Contain.Chroot
import Origel.Kernel.Canonical
import Origel.Lib.Removal
import Origel.Lib.Segments
import Origel.RedoxFs.Requests

/-! Where the paths of a container lead outside, and what it is told of its files. -/
namespace Origel.Contain

open Origel.Lib Origel.RedoxFs

variable {root path q t : String} {dir outer : List UInt8} {n : Nat} {as bs r l : List Char}

/-- `Path::is_absolute`: there is a scheme before the first `/`. -/
def isAbsolute (path : List Char) : Bool := ':' ∈ path.takeWhile (· ≠ '/')

/-- `Path::components` of an absolute path -/
def components (path : List Char) : List (List Char) :=
  (segments '/' path).filter fun c => c ≠ [] ∧ c ≠ ['.']

/-- `PathBuf::push` -/
def push (root path : List Char) : List Char :=
  if isAbsolute path ∨ path.head? = some '/' then path
  else if root = [] ∨ root.getLast? = some '/' then root ++ path
  else root ++ '/' :: path

/-- The server over a root, with the standard library's paths -/
def chroot (root : String) : ChrootScheme where
  root := root
  push root path := String.ofList (push root.toList path.toList)
  startsWith path root := (components root.toList).isPrefixOf (components path.toList)

def schemeOf (path : List Char) : List Char := path.takeWhile (· ≠ ':')

def referenceOf (path : List Char) : List Char := (path.dropWhile (· ≠ ':')).drop 1

/-- Where a path leads in the tree of its scheme -/
def resolved (path : List Char) : List (List Char) :=
  (components (referenceOf path)).foldl (walk ['.', '.']) []

/-- A path leads to a root or below it. -/
def Inside (root path : List Char) : Prop :=
  schemeOf path = schemeOf root ∧ resolved root <+: resolved path

/-- `trim_left_matches('/')` -/
def trimLeft (l : List Char) : List Char := l.dropWhile (· = '/')

/-- `ChrootScheme::fpath` with a buffer of so many bytes, over the name of the file outside -/
def fpath (root : String) (outer : List UInt8) (n : Nat) : Except Nat (List UInt8) :=
  match fromUtf8 (outer.take n) with
  | none => .error EINVAL
  | some path =>
    let translated := String.ofList (trimLeft (removeAll root.toList path.toList))
    .ok ((utf8 ("file:" ++ translated)).take n)

/-- What the `file` scheme outside calls a file that it has opened by a path -/
def outerPath (path : String) : List UInt8 :=
  utf8 "file" ++ [58, 47] ++ utf8 (FileScheme.urlPath (Kernel.Schemes.splitPath (utf8 path)).2)

/-- What `fs::canonicalize` makes of a directory there, which is what the scheme calls it -/
def rootAt (dir : List UInt8) : String := "file:/" ++ FileScheme.urlPath dir

/-- A path without `.` and `..` -/
def Dotless (path : List Char) : Prop := ∀ c ∈ segments '/' path, c ≠ ['.'] ∧ c ≠ ['.', '.']

/-- What is promised of a container -/
structure Contained (root : String) (request : List UInt8) (n : Nat) : Prop where
  inside : ∀ t, (chroot root).translate request = .ok t → Inside root.toList t.toList
  told : ∀ dir path t, root = rootAt dir → fromUtf8 request = some path → Dotless path.toList →
    (chroot root).translate request = .ok t →
      fpath root (outerPath t) n =
        .ok ((utf8 ("file:" ++ String.ofList (trimLeft path.toList))).take n)

/-- The components of a path behind those of the root, which an absolute path has itself -/
def innerComponents (root path : List Char) : List (List Char) :=
  if isAbsolute path then (components path).drop (components root).length else components path

/-- The steps up that a path is left with come down again to the root. -/
def Returns (root path : List Char) : Prop :=
  let way := (innerComponents root path).foldl (climb ['.', '.']) (0, [])
  (resolved root).drop ((resolved root).length - way.1) <+: way.2

/-- The buffer holds no more than `file:`, or the whole name outside of a relative path that has no `/` at
its end and the name of the root nowhere; or it cuts the name outside before the root is found there, at
a place up to which the path looks the same. -/
def Recognized (root path : List Char) (n : Nat) : Prop :=
  let outer := outerPath (String.ofList (push root path))
  n ≤ 5 ∨
    (isAbsolute path = false ∧ outer.length ≤ n ∧ path.getLast? ≠ some '/' ∧ ¬ root <:+: path) ∨
    (∃ cut, fromUtf8 (outer.take n) = some cut ∧ ¬ root <:+: cut.toList) ∧
      outer.take (n - 5) = (utf8 (String.ofList path)).take (n - 5)

/-- Such a request is answered as promised. -/
structure Contains (root : String) (request : List UInt8) (n : Nat) : Prop where
  inside : ∀ path, fromUtf8 request = some path →
    (chroot root).startsWith (String.ofList (push root.toList (trimLeft path.toList))) root = true →
      Returns root.toList (trimLeft path.toList)
  told : ∀ dir path, root = rootAt dir → fromUtf8 request = some path → Dotless path.toList →
    (chroot root).startsWith (String.ofList (push root.toList (trimLeft path.toList))) root = true →
      Recognized root.toList (trimLeft path.toList) n

theorem translate_ok_iff {request : List UInt8} (h : fromUtf8 request = some path) :
    (chroot root).translate request = .ok t ↔
      t = String.ofList (push root.toList (trimLeft path.toList)) ∧ (chroot root).startsWith t root = true := by
  rw [ChrootScheme.translate, h]
  simp only [chroot, trimLeft, String.toList_ofList]
  by_cases hs : (components root.toList).isPrefixOf
      (components (push root.toList (path.toList.dropWhile (· = '/')))) = true
  · rw [if_pos hs]
    constructor
    · intro heq
      cases heq
      exact ⟨rfl, by simpa using hs⟩
    · rintro ⟨rfl, -⟩
      rfl
  · rw [if_neg hs]
    refine iff_of_false (by simp) ?_
    rintro ⟨rfl, h'⟩
    exact hs (by simpa using h')

theorem components_append (as bs : List Char) : components (as ++ '/' :: bs) = components as ++ components bs := by
  rw [components, segments_append_sep, List.filter_append]
  rfl

/-- An absolute path is a scheme and a reference. -/
theorem isAbsolute_iff : isAbsolute l = true ↔ ∃ s r, l = s ++ ':' :: r ∧ ':' ∉ s ∧ '/' ∉ s := by
  rw [isAbsolute, decide_eq_true_eq]
  constructor
  · intro h
    obtain ⟨s, r, hsplit, hs⟩ := List.eq_append_cons_of_mem h
    have hall := List.takeWhile_append_dropWhile (p := (· ≠ '/')) (l := l)
    refine ⟨s, r ++ l.dropWhile (· ≠ '/'), ?_, hs, ?_⟩
    · rw [← List.cons_append, ← List.append_assoc, ← hsplit, hall]
    · intro hslash
      have hmem : '/' ∈ l.takeWhile (· ≠ '/') := by
        rw [hsplit]
        exact List.mem_append_left _ hslash
      simpa using List.mem_takeWhile_imp hmem
  · rintro ⟨s, r, rfl, -, hslash⟩
    have hpos : ∀ c ∈ s ++ [':'], decide (c ≠ '/') = true := by
      intro c hc
      refine decide_eq_true ?_
      rintro rfl
      rcases List.mem_append.mp hc with hc | hc
      · exact hslash hc
      · simp at hc
    rw [← List.singleton_append, ← List.append_assoc, List.takeWhile_append_of_pos hpos]
    simp

theorem schemeOf_eq {s : List Char} (hs : ':' ∉ s) : schemeOf (s ++ ':' :: r) = s := by
  have hall : ∀ c ∈ s, decide (c ≠ ':') = true := by
    intro c hc
    exact decide_eq_true fun h => hs (h ▸ hc)
  rw [schemeOf, List.takeWhile_append_of_pos hall]
  simp

theorem referenceOf_eq {s : List Char} (hs : ':' ∉ s) : referenceOf (s ++ ':' :: r) = r := by
  have hall : ∀ c ∈ s, decide (c ≠ ':') = true := by
    intro c hc
    exact decide_eq_true fun h => hs (h ▸ hc)
  rw [referenceOf, List.dropWhile_append_of_pos hall]
  simp

/-- The first component of an absolute path begins with its scheme. -/
theorem components_absolute {s x : List Char} {xs : List (List Char)} (hslash : '/' ∉ s)
    (hr : segments '/' r = x :: xs) :
    components (s ++ ':' :: r) = (s ++ ':' :: x) :: xs.filter fun c => c ≠ [] ∧ c ≠ ['.'] := by
  have hnot : '/' ∉ s ++ [':'] := by
    intro h
    rcases List.mem_append.mp h with h | h
    · exact hslash h
    · simp at h
  have hseg : segments '/' (s ++ ':' :: r) = (s ++ ':' :: x) :: xs := by
    have h := segments_append hnot hr
    simpa using h
  have hcolon : ':' ∈ s ++ ':' :: x := by simp
  have hkeep : s ++ ':' :: x ≠ [] ∧ s ++ ':' :: x ≠ ['.'] := by
    constructor
    · exact List.ne_nil_of_mem hcolon
    · intro h
      rw [h] at hcolon
      simp at hcolon
  rw [components, hseg, List.filter_cons_of_pos (by simpa using hkeep)]

/-- An absolute path with the components of a root has the scheme of the root, and its reference has
the components of the root's before the others. -/
theorem components_reference {s : List Char} (hs : ':' ∉ s) (hslash : '/' ∉ s) (hl : isAbsolute l = true)
    (hpre : components (s ++ ':' :: r) <+: components l) :
    schemeOf l = s ∧ components (referenceOf l) =
      components r ++ (components l).drop (components (s ++ ':' :: r)).length := by
  obtain ⟨s', r', rfl, hs', hslash'⟩ := isAbsolute_iff.mp hl
  obtain ⟨x, xs, hr⟩ := segments_exists '/' r
  obtain ⟨x', xs', hr'⟩ := segments_exists '/' r'
  rw [components_absolute hslash hr, components_absolute hslash' hr', List.cons_prefix_cons] at hpre
  obtain ⟨hfirst, rest, hrest⟩ := hpre
  have hscheme : s' = s := by
    have := congrArg schemeOf hfirst
    rw [schemeOf_eq hs, schemeOf_eq hs'] at this
    exact this.symm
  have hx : x' = x := by
    have := congrArg referenceOf hfirst
    rw [referenceOf_eq hs, referenceOf_eq hs'] at this
    exact this.symm
  subst hscheme hx
  refine ⟨schemeOf_eq hs, ?_⟩
  rw [referenceOf_eq hs, components_absolute hslash hr, components_absolute hslash hr', List.length_cons,
    List.drop_succ_cons, ← hrest, List.drop_left, components, components, hr, hr', List.filter_cons,
    List.filter_cons, ← hrest]
  split
  · rw [List.cons_append]
  · rfl

/-- What is pushed on a root keeps the root's scheme, and what comes behind it. -/
theorem push_relative {s : List Char} (hq : isAbsolute bs = false) (hhead : bs.head? ≠ some '/') :
    ∃ as, push (s ++ ':' :: r) bs = s ++ ':' :: as ∧ components as = components r ++ components bs := by
  have hrel : ¬ (isAbsolute bs = true ∨ bs.head? = some '/') := by
    rw [hq]
    simp [hhead]
  rw [push, if_neg hrel]
  by_cases hlast : s ++ ':' :: r = [] ∨ (s ++ ':' :: r).getLast? = some '/'
  · rw [if_pos hlast]
    have hr : ∃ as, r = as ++ ['/'] := by
      rcases hlast with hlast | hlast
      · simp at hlast
      · rcases List.eq_nil_or_concat' r with rfl | ⟨as, b, rfl⟩
        · simp at hlast
        · refine ⟨as, ?_⟩
          rw [← List.cons_append, ← List.append_assoc, List.getLast?_concat] at hlast
          cases hlast
          rfl
    obtain ⟨as, rfl⟩ := hr
    refine ⟨as ++ '/' :: bs, by simp, ?_⟩
    have hnil : components [] = [] := rfl
    rw [components_append, components_append, hnil, List.append_nil]
  · rw [if_neg hlast]
    exact ⟨r ++ '/' :: bs, by simp, components_append r bs⟩

theorem trimLeft_head (l : List Char) : (trimLeft l).head? ≠ some '/' := by
  intro h
  have := List.head?_dropWhile_not (· = '/') l
  rw [trimLeft] at h
  rw [h] at this
  simp at this

/-- The path that `translate` gives stays inside exactly if the request does. -/
theorem inside_iff (hroot : isAbsolute as = true) (hq : bs.head? ≠ some '/')
    (hstart : components as <+: components (push as bs)) : Inside as (push as bs) ↔ Returns as bs := by
  obtain ⟨s, r, rfl, hs, hslash⟩ := isAbsolute_iff.mp hroot
  have hplace : resolved (s ++ ':' :: r) = goTo (resolved (s ++ ':' :: r)) (0, []) := by
    rw [goTo, Nat.sub_zero, List.take_length, List.append_nil]
  have hkey : schemeOf (push (s ++ ':' :: r) bs) = s ∧ components (referenceOf (push (s ++ ':' :: r) bs)) =
      components r ++ innerComponents (s ++ ':' :: r) bs := by
    by_cases habs : isAbsolute bs = true
    · have hpush : push (s ++ ':' :: r) bs = bs := if_pos (.inl habs)
      rw [hpush] at hstart ⊢
      rw [innerComponents, if_pos habs]
      exact components_reference hs hslash habs hstart
    · have habs : isAbsolute bs = false := by simpa using habs
      obtain ⟨as, hpush, hcomp⟩ := push_relative (s := s) (r := r) habs hq
      rw [hpush, schemeOf_eq hs, referenceOf_eq hs, innerComponents, habs]
      exact ⟨rfl, hcomp⟩
  have hresolved : resolved (push (s ++ ':' :: r) bs) = goTo (resolved (s ++ ':' :: r))
      ((innerComponents (s ++ ':' :: r) bs).foldl (climb ['.', '.']) (0, [])) := by
    rw [← foldl_walk, ← hplace, resolved, hkey.2, List.foldl_append, resolved, referenceOf_eq hs]
  rw [Inside, hkey.1, schemeOf_eq hs, hresolved, Returns]
  constructor
  · intro h
    exact (prefix_goTo_iff _ _).mp h.2
  · intro h
    exact ⟨rfl, (prefix_goTo_iff _ _).mpr h⟩

theorem utf8_append (as bs : List Char) : utf8 (String.ofList (as ++ bs)) =
    utf8 (String.ofList as) ++ utf8 (String.ofList bs) := by
  simp [utf8]

theorem utf8_start {cut : String} (h : fromUtf8 ((utf8 (String.ofList l)).take n) = some cut) :
    cut.toList <+: l ∧ utf8 cut = (utf8 (String.ofList l)).take n := by
  have heq := fromUtf8_eq_some.mp h
  refine ⟨?_, heq.symm⟩
  have happend : utf8 cut ++ (utf8 (String.ofList l)).drop n = utf8 (String.ofList l) := by
    rw [← heq, List.take_append_drop]
  have hbytes : cut.toList.utf8Encode ++ ⟨((utf8 (String.ofList l)).drop n).toArray⟩ = l.utf8Encode := by
    rw [String.utf8Encode_toList]
    apply ByteArray.ext
    apply Array.toList_inj.mp
    rw [ByteArray.data_append, Array.toList_append]
    exact happend
  exact List.isPrefix_of_utf8Encode_append_eq_utf8Encode _ hbytes

/-- The bytes of a character -/
def width (c : Char) : Nat := (utf8 (String.ofList [c])).length

theorem length_utf8 (l : List Char) : (utf8 (String.ofList l)).length = (l.map width).sum := by
  induction l with
  | nil => rfl
  | cons c l ih =>
    rw [← List.singleton_append, utf8_append, List.length_append, ih, List.map_append, List.sum_append]
    rfl

/-- `file:` -/
def file : List Char := ['f', 'i', 'l', 'e', ':']

def trimRight (l : List Char) : List Char := (trimLeft l.reverse).reverse

theorem urlPath_utf8 (l : List Char) :
    FileScheme.urlPath (utf8 (String.ofList l)) = String.ofList (trimRight (trimLeft l)) := by
  rw [FileScheme.urlPath, fromUtf8_eq_some.mpr rfl, Option.getD_some, String.toList_ofList]
  rfl

theorem urlPath_trimmed (dir : List UInt8) :
    ∃ l, (FileScheme.urlPath dir).toList = trimRight (trimLeft l) := by
  refine ⟨((fromUtf8 dir).getD "").toList, ?_⟩
  rw [FileScheme.urlPath, String.toList_ofList]
  rfl

/-- The name outside of a file that was opened with the scheme's name -/
theorem outerPath_eq (l : List Char) : outerPath (String.ofList (file ++ l)) =
    utf8 (String.ofList (file ++ '/' :: trimRight (trimLeft l))) := by
  have hfile : utf8 (String.ofList file) = [102, 105, 108, 101] ++ [Kernel.Schemes.colon] := by decide
  have hcolon : Kernel.Schemes.colon ∉ ([102, 105, 108, 101] : List UInt8) := by decide
  have hsplit : (Kernel.Schemes.splitPath (utf8 (String.ofList (file ++ l)))).2 = utf8 (String.ofList l) := by
    rw [utf8_append, hfile, List.append_assoc, List.singleton_append, Kernel.Schemes.splitPath_eq hcolon]
  have hhead : utf8 "file" ++ [58, 47] = utf8 (String.ofList (file ++ ['/'])) := by decide
  rw [outerPath, hsplit, urlPath_utf8, hhead, ← utf8_append, List.append_assoc, List.singleton_append]

theorem rootAt_eq (dir : List UInt8) :
    (rootAt dir).toList = file ++ '/' :: (FileScheme.urlPath dir).toList := by
  rw [rootAt, String.toList_append]
  rfl

theorem trimRight_append (as bs : List Char) : trimRight (as ++ bs) =
    if trimRight bs = [] then trimRight as else as ++ trimRight bs := by
  rw [trimRight, trimRight, trimRight, trimLeft, trimLeft, trimLeft, List.reverse_append, List.dropWhile_append]
  by_cases h : bs.reverse.dropWhile (· = '/') = []
  · simp [h]
  · simp [h]

theorem trimRight_getLast (l : List Char) : (trimRight l).getLast? ≠ some '/' := by
  rw [trimRight, List.getLast?_reverse]
  exact trimLeft_head _

theorem trimLeft_of_head (h : l.head? ≠ some '/') : trimLeft l = l := by
  cases l with
  | nil => rfl
  | cons c l => exact List.dropWhile_cons_of_neg (by simpa using h)

theorem trimRight_of_getLast (h : l.getLast? ≠ some '/') : trimRight l = l := by
  rw [trimRight, trimLeft_of_head, List.reverse_reverse]
  rwa [List.head?_reverse]

theorem trimRight_eq_self_iff : trimRight l = l ↔ l.getLast? ≠ some '/' := by
  constructor
  · intro h
    rw [← h]
    exact trimRight_getLast l
  · exact trimRight_of_getLast

theorem trimRight_start (l : List Char) : trimRight l <+: l := by
  rw [trimRight, ← List.reverse_suffix, List.reverse_reverse]
  exact List.dropWhile_suffix _

theorem trimRight_head (h : l.head? ≠ some '/') : (trimRight l).head? ≠ some '/' := by
  obtain ⟨rest, hrest⟩ := trimRight_start l
  intro hhead
  cases ht : trimRight l with
  | nil =>
    rw [ht] at hhead
    cases hhead
  | cons c t =>
    rw [ht] at hhead hrest
    rw [← hrest] at h
    exact h hhead

/-- The name outside of what was pushed on a root: the root and, cut at its end, what was pushed -/
theorem outerPath_relative (hr : r.head? ≠ some '/') (hlast : r.getLast? ≠ some '/')
    (hq : isAbsolute bs = false) (hhead : bs.head? ≠ some '/') :
    ∃ as, outerPath (String.ofList (push (file ++ '/' :: r) bs)) =
        utf8 (String.ofList ((file ++ '/' :: r) ++ as)) ∧
      (as = trimRight bs ∨ as = '/' :: trimRight bs ∧ bs ≠ []) := by
  have hrel : ¬ (isAbsolute bs = true ∨ bs.head? = some '/') := by
    rw [hq]
    simp [hhead]
  have hbs : trimLeft bs = bs := trimLeft_of_head hhead
  have hslash : ∀ l, trimLeft ('/' :: l) = trimLeft l := fun l => rfl
  rw [push, if_neg hrel]
  by_cases hnil : r = []
  · subst hnil
    refine ⟨trimRight bs, ?_, .inl rfl⟩
    rw [if_pos (.inr rfl)]
    have happend : file ++ ['/'] ++ bs = file ++ '/' :: bs := by simp
    rw [happend, outerPath_eq, hslash, hbs]
    simp
  · have hroot : ¬ (file ++ '/' :: r = [] ∨ (file ++ '/' :: r).getLast? = some '/') := by
      rintro (h | h)
      · simp at h
      · rw [List.getLast?_append_cons, List.getLast?_cons_of_ne_nil hnil] at h
        exact hlast h
    have happend : file ++ '/' :: r ++ '/' :: bs = file ++ '/' :: (r ++ '/' :: bs) := by simp
    have hleft : trimLeft (r ++ '/' :: bs) = r ++ '/' :: bs := by
      apply trimLeft_of_head
      rwa [List.head?_append_of_ne_nil _ hnil]
    rw [if_neg hroot, happend, outerPath_eq, hslash, hleft, trimRight_append, ← List.singleton_append (l := bs),
      trimRight_append]
    by_cases hcut : trimRight bs = []
    · refine ⟨[], ?_, .inl hcut.symm⟩
      have hone : trimRight ['/'] = [] := by decide
      rw [if_pos hcut, if_pos hone, trimRight_of_getLast hlast, List.append_nil]
    · refine ⟨'/' :: trimRight bs, ?_, .inr ⟨rfl, ?_⟩⟩
      · rw [if_neg hcut, if_neg (by simp)]
        simp
      · rintro rfl
        exact hcut rfl

/-- A path with a scheme of its own has the scheme of the root. -/
theorem outerPath_absolute (hq : isAbsolute bs = true)
    (hstart : components (file ++ '/' :: r) <+: components bs) :
    ∃ as, bs = file ++ as ∧ outerPath (String.ofList bs) =
      utf8 (String.ofList (file ++ '/' :: trimRight (trimLeft as))) := by
  obtain ⟨s, r', rfl, hs, hslash⟩ := isAbsolute_iff.mp hq
  obtain ⟨x, xs, hseg⟩ := segments_exists '/' r'
  have hfile : file ++ '/' :: r = ['f', 'i', 'l', 'e'] ++ ':' :: '/' :: r := rfl
  have hsegroot : segments '/' ('/' :: r) = [] :: segments '/' r := segments_cons_sep r
  rw [hfile, components_absolute (by decide) hsegroot, components_absolute hslash hseg,
    List.cons_prefix_cons] at hstart
  obtain ⟨hfirst, -⟩ := hstart
  have hscheme : s = ['f', 'i', 'l', 'e'] := by
    have := congrArg schemeOf hfirst
    rw [schemeOf_eq hs, schemeOf_eq (by decide)] at this
    exact this.symm
  subst hscheme
  have hname : ['f', 'i', 'l', 'e'] ++ ':' :: r' = file ++ r' := rfl
  refine ⟨r', hname, ?_⟩
  rw [hname, outerPath_eq]

theorem utf8_file (l : List Char) : utf8 (String.ofList (file ++ l)) =
    [102, 105, 108, 101, 58] ++ utf8 (String.ofList l) := by
  have hfile : utf8 (String.ofList file) = [102, 105, 108, 101, 58] := by decide
  rw [utf8_append, hfile]

/-- What the buffer is to hold: `file:` and as much of the rest as fits. -/
theorem take_file (l : List Char) (hn : 5 ≤ n) : (utf8 ("file:" ++ String.ofList l)).take n =
    [102, 105, 108, 101, 58] ++ (utf8 (String.ofList l)).take (n - 5) := by
  have happend : "file:" ++ String.ofList l = String.ofList (file ++ l) := by
    rw [String.ofList_append]
    rfl
  obtain ⟨k, rfl⟩ : ∃ k, n = 5 + k := ⟨n - 5, by omega⟩
  rw [happend, utf8_file, Nat.add_sub_cancel_left]
  have htake : (([102, 105, 108, 101, 58] : List UInt8) ++ utf8 (String.ofList l)).take
      (([102, 105, 108, 101, 58] : List UInt8).length + k) = _ := List.take_length_add_append k
  exact htake

theorem fpath_iff (hn : 5 ≤ n) : fpath root outer n = .ok ((utf8 ("file:" ++ String.ofList l)).take n) ↔
    ∃ cut, fromUtf8 (outer.take n) = some cut ∧
      (utf8 (String.ofList (trimLeft (removeAll root.toList cut.toList)))).take (n - 5) =
        (utf8 (String.ofList l)).take (n - 5) := by
  rw [fpath]
  cases hcut : fromUtf8 (outer.take n) with
  | none => simp
  | some cut =>
    simp only [take_file _ hn, Except.ok.injEq, List.append_cancel_left_eq, Option.some.injEq, exists_eq_left']

/-- A buffer for no more than `file:` holds as much of that. -/
theorem fpath_short (hn : n ≤ 5) (as bs : List Char) :
    fpath root (utf8 (String.ofList (file ++ as))) n = .ok ((utf8 ("file:" ++ String.ofList bs)).take n) := by
  have htake : ∀ l, (utf8 (String.ofList (file ++ l))).take n = ([102, 105, 108, 101, 58] : List UInt8).take n := by
    intro l
    rw [utf8_file]
    exact List.take_append_of_le_length hn
  have happend : ∀ l, "file:" ++ String.ofList l = String.ofList (file ++ l) := by
    intro l
    rw [String.ofList_append]
    rfl
  have hvalid : ∃ cut, fromUtf8 (([102, 105, 108, 101, 58] : List UInt8).take n) = some cut := by
    have hall : ∀ n ≤ 5, ([102, 105, 108, 101, 58] : List UInt8).take n = utf8 (String.ofList (file.take n)) := by
      decide
    exact ⟨String.ofList (file.take n), fromUtf8_eq_some.mpr (hall n hn)⟩
  obtain ⟨cut, hcut⟩ := hvalid
  rw [fpath, htake, hcut]
  simp only [happend, htake]

theorem length_utf8_sublist (h : as.Sublist bs) :
    (utf8 (String.ofList as)).length ≤ (utf8 (String.ofList bs)).length := by
  rw [length_utf8, length_utf8]
  exact (h.map width).sum_le_sum fun _ _ => Nat.zero_le _

theorem length_utf8_removeAll (hne : as ≠ []) (h : as <:+: bs) :
    (utf8 (String.ofList (removeAll as bs))).length + (utf8 (String.ofList as)).length ≤
      (utf8 (String.ofList bs)).length := by
  rw [length_utf8, length_utf8, length_utf8]
  exact weight_removeAll width hne h

theorem trimLeft_sublist (l : List Char) : (trimLeft l).Sublist l := List.dropWhile_sublist _

/-- A text is not the beginning of another one where it ends too soon. -/
theorem take_ne_take {k : Nat} {xs ys : List UInt8} (hk : xs.length < k) (hlt : xs.length < ys.length) :
    xs.take k ≠ ys.take k := by
  intro h
  have := congrArg List.length h
  rw [List.length_take, List.length_take] at this
  omega

/-- Where the root is not found, the name outside is taken for the path. -/
theorem cut_unchanged {cut : String} (hn : 5 < n)
    (hcut : fromUtf8 ((utf8 (String.ofList (file ++ l))).take n) = some cut) (h : ¬ as <:+: cut.toList) :
    (utf8 (String.ofList (trimLeft (removeAll as cut.toList)))).take (n - 5) =
      (utf8 (String.ofList (file ++ l))).take (n - 5) := by
  obtain ⟨⟨rest, hrest⟩, hbytes⟩ := utf8_start hcut
  have hhead : cut.toList.head? ≠ some '/' := by
    cases hc : cut.toList with
    | nil => simp
    | cons c cs =>
      rw [hc] at hrest
      intro hslash
      cases hslash
      cases hrest
  rw [removeAll_absent h, trimLeft_of_head hhead, String.ofList_toList, hbytes, List.take_take]
  congr 1
  omega

/-- The rest of the name outside behind the root begins with the path, after a slash or at once. -/
theorem infix_behind (hq : as = bs ∨ as = '/' :: bs) (h : file ++ '/' :: r <:+: as) :
    file ++ '/' :: r <:+: bs := by
  rcases hq with rfl | rfl
  · exact h
  · rcases List.infix_cons_iff.mp h with ⟨rest, hrest⟩ | hin
    · cases hrest
    · exact hin

theorem length_root (r : List Char) : 6 ≤ (utf8 (String.ofList (file ++ '/' :: r))).length := by
  have happend : file ++ '/' :: r = (file ++ ['/']) ++ r := by simp
  have hhead : utf8 (String.ofList (file ++ ['/'])) = [102, 105, 108, 101, 58, 47] := by decide
  rw [happend, utf8_append, hhead]
  simp

theorem length_utf8_pos (h : l ≠ []) : 0 < (utf8 (String.ofList l)).length := by
  rw [List.length_pos_iff]
  intro hnil
  have hempty : utf8 (String.ofList l) = utf8 (String.ofList []) := hnil
  exact h (String.ofList_injective (utf8_injective hempty))

/-- All of the name is there, and behind the root it is the path. -/
theorem behind_whole_iff {m : Nat} (hm : 6 ≤ m) (hn : 5 < n)
    (has : as = trimRight bs ∨ as = '/' :: trimRight bs ∧ bs ≠ []) (htrim : trimLeft as = trimRight bs)
    (hfits : m + (utf8 (String.ofList as)).length ≤ n) (hagain : ¬ file ++ '/' :: r <:+: as) :
    (utf8 (String.ofList (trimLeft as))).take (n - 5) = (utf8 (String.ofList bs)).take (n - 5) ↔
      bs.getLast? ≠ some '/' ∧ ¬ file ++ '/' :: r <:+: bs := by
  rw [htrim]
  have hpart : (utf8 (String.ofList (trimRight bs))).length ≤ (utf8 (String.ofList as)).length := by
    rw [← htrim]
    exact length_utf8_sublist (trimLeft_sublist as)
  constructor
  · intro heq
    have hself : trimRight bs = bs := by
      by_contra hne
      obtain ⟨rest, hrest⟩ := trimRight_start bs
      have hpos : 0 < (utf8 (String.ofList rest)).length := by
        apply length_utf8_pos
        rintro rfl
        rw [List.append_nil] at hrest
        exact hne hrest
      have hlonger : (utf8 (String.ofList bs)).length =
          (utf8 (String.ofList (trimRight bs))).length + (utf8 (String.ofList rest)).length := by
        rw [← List.length_append, ← utf8_append, hrest]
      exact take_ne_take (by omega) (by omega) heq
    refine ⟨trimRight_eq_self_iff.mp hself, fun hbs => hagain ?_⟩
    rcases has with rfl | ⟨rfl, -⟩
    · rwa [hself]
    · rw [hself]
      exact List.infix_cons hbs
  · rintro ⟨hlast, -⟩
    rw [trimRight_eq_self_iff.mpr hlast]

/-- The name is cut behind the root, and the path ends too soon. -/
theorem behind_cut_ne {m : Nat} {ys : List Char} (hm : 6 ≤ m) (hn : 5 < n)
    (has : as = trimRight bs ∨ as = '/' :: trimRight bs ∧ bs ≠ []) (hpre : ys <+: as)
    (hcut : m + (utf8 (String.ofList ys)).length = n)
    (hlong : n < m + (utf8 (String.ofList as)).length) :
    (utf8 (String.ofList (trimLeft ys))).take (n - 5) ≠ (utf8 (String.ofList bs)).take (n - 5) := by
  have hright := length_utf8_sublist (trimRight_start bs).sublist
  have hsub := length_utf8_sublist (trimLeft_sublist ys)
  rcases has with rfl | ⟨rfl, hbs⟩
  · exact take_ne_take (by omega) (by omega)
  · have hone : utf8 (String.ofList ['/']) = [47] := by decide
    have hstep : ∀ zs, (utf8 (String.ofList ('/' :: zs))).length = 1 + (utf8 (String.ofList zs)).length := by
      intro zs
      rw [← List.singleton_append, utf8_append, List.length_append, hone]
      rfl
    cases ys with
    | nil =>
      have hpos := length_utf8_pos hbs
      have hzero : (utf8 (String.ofList (trimLeft []))).length = 0 := rfl
      exact take_ne_take (by omega) (by omega)
    | cons y ys =>
      obtain ⟨rfl, -⟩ := List.cons_prefix_cons.mp hpre
      have hsub' : (utf8 (String.ofList (trimLeft ('/' :: ys)))).length ≤ (utf8 (String.ofList ys)).length :=
        length_utf8_sublist (trimLeft_sublist ys)
      have hy := hstep ys
      have ht := hstep (trimRight bs)
      exact take_ne_take (by omega) (by omega)

/-- Behind the root, the container finds its own path again exactly if all of it is there and the root is
not. -/
theorem behind_root_iff (hn : 5 < n) (hhead : bs.head? ≠ some '/')
    (has : as = trimRight bs ∨ as = '/' :: trimRight bs ∧ bs ≠ [])
    {cut : String} (hcut : fromUtf8 ((utf8 (String.ofList ((file ++ '/' :: r) ++ as))).take n) = some cut)
    (hin : file ++ '/' :: r <:+: cut.toList) :
    (utf8 (String.ofList (trimLeft (removeAll (file ++ '/' :: r) cut.toList)))).take (n - 5) =
        (utf8 (String.ofList bs)).take (n - 5) ↔
      (utf8 (String.ofList ((file ++ '/' :: r) ++ as))).length ≤ n ∧ bs.getLast? ≠ some '/' ∧
        ¬ file ++ '/' :: r <:+: bs := by
  have hne : file ++ '/' :: r ≠ [] := by simp
  have hsix := length_root r
  obtain ⟨hpre, hbytes⟩ := utf8_start hcut
  have htrim : trimLeft as = trimRight bs := by
    have h := trimLeft_of_head (trimRight_head hhead)
    rcases has with rfl | ⟨rfl, -⟩
    · exact h
    · exact h
  have hright := length_utf8_sublist (trimRight_start bs).sublist
  -- the buffer holds the root and a part of what is behind it
  obtain ⟨ys, hys⟩ : ∃ ys, cut.toList = (file ++ '/' :: r) ++ ys := by
    have hroot : file ++ '/' :: r <+: (file ++ '/' :: r) ++ as := List.prefix_append _ _
    obtain ⟨ys, hys⟩ := List.prefix_of_prefix_length_le hroot hpre hin.length_le
    exact ⟨ys, hys.symm⟩
  have hyspre : ys <+: as := by
    rw [hys] at hpre
    exact (List.prefix_append_right_inj _).mp hpre
  have hlen : (utf8 (String.ofList (file ++ '/' :: r))).length + (utf8 (String.ofList ys)).length ≤ n := by
    rw [← List.length_append, ← utf8_append, ← hys, String.ofList_toList, hbytes, List.length_take]
    exact min_le_left _ _
  rw [hys, removeAll_append hne]
  by_cases hagain : file ++ '/' :: r <:+: ys
  · have hbs : file ++ '/' :: r <:+: trimRight bs :=
      infix_behind (has.imp_right And.left) (hagain.trans hyspre.isInfix)
    refine iff_of_false ?_ fun h => h.2.2 (hbs.trans (trimRight_start bs).isInfix)
    have hremove := length_utf8_removeAll hne hagain
    have hsub := length_utf8_sublist (trimLeft_sublist (removeAll (file ++ '/' :: r) ys))
    have hpart := length_utf8_sublist hyspre.sublist
    have hbound : (utf8 (String.ofList as)).length ≤ 1 + (utf8 (String.ofList (trimRight bs))).length := by
      rcases has with rfl | ⟨rfl, -⟩
      · omega
      · rw [← List.singleton_append, utf8_append, List.length_append]
        exact le_rfl
    exact take_ne_take (by omega) (by omega)
  rw [removeAll_absent hagain]
  have htotal : (utf8 (String.ofList ((file ++ '/' :: r) ++ as))).length =
      (utf8 (String.ofList (file ++ '/' :: r))).length + (utf8 (String.ofList as)).length := by
    rw [utf8_append, List.length_append]
  by_cases hfits : (utf8 (String.ofList ((file ++ '/' :: r) ++ as))).length ≤ n
  · -- all of the name is there
    have hall : ys = as := by
      rw [List.take_of_length_le hfits] at hbytes
      have hcutall := congrArg String.toList (utf8_injective hbytes)
      rw [hys, String.toList_ofList] at hcutall
      exact List.append_cancel_left hcutall
    subst hall
    rw [behind_whole_iff hsix hn has htrim (htotal ▸ hfits) hagain]
    exact ⟨fun h => ⟨hfits, h⟩, And.right⟩
  · -- it is cut behind the root, and the path ends too soon
    refine iff_of_false ?_ fun h => hfits h.1
    have hn' : (utf8 (String.ofList (file ++ '/' :: r))).length + (utf8 (String.ofList ys)).length = n := by
      rw [← List.length_append, ← utf8_append, ← hys, String.ofList_toList, hbytes, List.length_take]
      omega
    exact behind_cut_ne hsix hn has hyspre hn' (by omega)

/-- Where the root is found in the name outside of a path with a scheme, nothing is left that could be
the path. -/
theorem absolute_differs (hn : 5 < n) {cut : String}
    (hcut : fromUtf8 ((utf8 (String.ofList (file ++ '/' :: trimRight (trimLeft as)))).take n) = some cut)
    (hin : file ++ '/' :: r <:+: cut.toList) :
    (utf8 (String.ofList (trimLeft (removeAll (file ++ '/' :: r) cut.toList)))).take (n - 5) ≠
      (utf8 (String.ofList (file ++ as))).take (n - 5) := by
  have hsix := length_root r
  obtain ⟨-, hbytes⟩ := utf8_start hcut
  have hremove := length_utf8_removeAll (by simp) hin
  have hsub := length_utf8_sublist (trimLeft_sublist (removeAll (file ++ '/' :: r) cut.toList))
  have htrimmed : (utf8 (String.ofList (trimRight (trimLeft as)))).length ≤ (utf8 (String.ofList as)).length :=
    length_utf8_sublist ((trimRight_start _).sublist.trans (trimLeft_sublist as))
  have hcutlen := congrArg List.length hbytes
  rw [List.length_take] at hcutlen
  have houter : (utf8 (String.ofList (file ++ '/' :: trimRight (trimLeft as)))).length =
      6 + (utf8 (String.ofList (trimRight (trimLeft as)))).length := by
    have happend : file ++ '/' :: trimRight (trimLeft as) = (file ++ ['/']) ++ trimRight (trimLeft as) := by simp
    have hhead : utf8 (String.ofList (file ++ ['/'])) = [102, 105, 108, 101, 58, 47] := by decide
    rw [happend, utf8_append, hhead, List.length_append]
    rfl
  have hpath : (utf8 (String.ofList (file ++ as))).length = 5 + (utf8 (String.ofList as)).length := by
    rw [utf8_file, List.length_append]
    rfl
  rw [String.ofList_toList] at hremove
  exact take_ne_take (by omega) (by omega)

theorem told_iff (hr : r.head? ≠ some '/') (hlast : r.getLast? ≠ some '/') (hhead : bs.head? ≠ some '/')
    (hstart : components (file ++ '/' :: r) <+: components (push (file ++ '/' :: r) bs)) :
    fpath (String.ofList (file ++ '/' :: r)) (outerPath (String.ofList (push (file ++ '/' :: r) bs))) n =
        .ok ((utf8 ("file:" ++ String.ofList bs)).take n) ↔
      Recognized (file ++ '/' :: r) bs n := by
  have hboth : ∃ as, outerPath (String.ofList (push (file ++ '/' :: r) bs)) = utf8 (String.ofList (file ++ as)) ∧
      (isAbsolute bs = false → file ++ '/' :: r <:+: file ++ as) ∧ ∀ cut, 5 < n → fromUtf8 ((utf8 (String.ofList (file ++ as))).take n) = some cut →
        file ++ '/' :: r <:+: cut.toList →
        ((utf8 (String.ofList (trimLeft (removeAll (file ++ '/' :: r) cut.toList)))).take (n - 5) =
          (utf8 (String.ofList bs)).take (n - 5) ↔
        isAbsolute bs = false ∧ (utf8 (String.ofList (file ++ as))).length ≤ n ∧
          bs.getLast? ≠ some '/' ∧ ¬ file ++ '/' :: r <:+: bs) := by
    cases habs : isAbsolute bs with
    | true =>
      have hpush : push (file ++ '/' :: r) bs = bs := if_pos (.inl habs)
      rw [hpush] at hstart ⊢
      obtain ⟨as, rfl, houter⟩ := outerPath_absolute habs hstart
      refine ⟨_, houter, by simp, fun cut hn hcut hin => ?_⟩
      exact iff_of_false (absolute_differs hn hcut hin) (by simp)
    | false =>
      obtain ⟨as, houter, has⟩ := outerPath_relative hr hlast habs hhead
      have hroot : file ++ '/' :: r <:+: file ++ ('/' :: r ++ as) := by
        rw [← List.append_assoc]
        exact (List.prefix_append _ _).isInfix
      rw [List.append_assoc] at houter
      refine ⟨_, houter, fun _ => hroot, fun cut hn hcut hin => ?_⟩
      rw [← List.append_assoc] at hcut ⊢
      rw [behind_root_iff hn hhead has hcut hin]
      simp
  obtain ⟨as, houter, hroot, hfound⟩ := hboth
  rw [Recognized, houter]
  rcases Nat.lt_or_ge 5 n with hn | hn
  · rw [fpath_iff (Nat.le_of_lt hn), String.toList_ofList]
    constructor
    · rintro ⟨cut, hcut, heq⟩
      by_cases hin : file ++ '/' :: r <:+: cut.toList
      · exact .inr (.inl ((hfound cut hn hcut hin).mp heq))
      · rw [cut_unchanged hn hcut hin] at heq
        exact .inr (.inr ⟨⟨cut, hcut, hin⟩, heq⟩)
    · rintro (hle | hwhole | ⟨⟨cut, hcut, hin⟩, heq⟩)
      · omega
      · have hcut : fromUtf8 ((utf8 (String.ofList (file ++ as))).take n) = some (String.ofList (file ++ as)) := by
          rw [List.take_of_length_le hwhole.2.1]
          exact fromUtf8_eq_some.mpr rfl
        have hin : file ++ '/' :: r <:+: (String.ofList (file ++ as)).toList := by
          rw [String.toList_ofList]
          exact hroot hwhole.1
        exact ⟨_, hcut, (hfound _ hn hcut hin).mpr hwhole⟩
      · refine ⟨cut, hcut, ?_⟩
        rw [cut_unchanged hn hcut hin]
        exact heq
  · exact iff_of_true (fpath_short hn as bs) (.inl hn)

/-- A container sees exactly its root, and in the names of its files no more than that, exactly for the
requests that come back to the root and that can be recognized in the names outside. -/
theorem contained_iff (root : String) (request : List UInt8) (n : Nat) (hroot : isAbsolute root.toList = true) :
    Contained root request n ↔ Contains root request n := by
  have hinside : ∀ path : String, fromUtf8 request = some path →
      (chroot root).startsWith (String.ofList (push root.toList (trimLeft path.toList))) root = true →
      (Inside root.toList (push root.toList (trimLeft path.toList)) ↔ Returns root.toList (trimLeft path.toList)) := by
    intro path _ hstart
    apply inside_iff hroot (trimLeft_head _)
    rw [← List.isPrefixOf_iff_prefix]
    simpa [chroot] using hstart
  have htold : ∀ (dir : List UInt8) (path : String), root = rootAt dir →
      (chroot root).startsWith (String.ofList (push root.toList (trimLeft path.toList))) root = true →
      (fpath root (outerPath (String.ofList (push root.toList (trimLeft path.toList)))) n =
          .ok ((utf8 ("file:" ++ String.ofList (trimLeft path.toList))).take n) ↔
        Recognized root.toList (trimLeft path.toList) n) := by
    intro dir path hdir hstart
    obtain ⟨l, hl⟩ := urlPath_trimmed dir
    have heq : root.toList = file ++ '/' :: trimRight (trimLeft l) := by rw [hdir, rootAt_eq, hl]
    have hofList : root = String.ofList (file ++ '/' :: trimRight (trimLeft l)) := by
      rw [← heq, String.ofList_toList]
    have hpre : components root.toList <+: components (push root.toList (trimLeft path.toList)) := by
      rw [← List.isPrefixOf_iff_prefix]
      simpa [chroot] using hstart
    rw [heq] at hpre ⊢
    rw [hofList]
    exact told_iff (trimRight_head (trimLeft_head l)) (trimRight_getLast _) (trimLeft_head _) hpre
  constructor
  · intro h
    constructor
    case inside =>
      intro path hpath hstart
      have ht := (translate_ok_iff hpath).mpr ⟨rfl, hstart⟩
      have hin := h.inside _ ht
      rw [String.toList_ofList] at hin
      exact (hinside path hpath hstart).mp hin
    case told =>
      intro dir path hdir hpath hdotless hstart
      have ht := (translate_ok_iff hpath).mpr ⟨rfl, hstart⟩
      exact (htold dir path hdir hstart).mp (h.told dir path _ hdir hpath hdotless ht)
  · intro h
    constructor
    case inside =>
      intro t ht
      cases hpath : fromUtf8 request with
      | none =>
        rw [ChrootScheme.translate, hpath] at ht
        cases ht
      | some path =>
        obtain ⟨rfl, hstart⟩ := (translate_ok_iff hpath).mp ht
        rw [String.toList_ofList]
        exact (hinside path hpath hstart).mpr (h.inside path hpath hstart)
    case told =>
      intro dir path t hdir hpath hdotless ht
      obtain ⟨rfl, hstart⟩ := (translate_ok_iff hpath).mp ht
      exact (htold dir path hdir hstart).mpr (h.told dir path hdir hpath hdotless hstart)

/-- `/a` in a container at `file:/c` -/
theorem contained_iff_file : Contained "file:/c" [47, 97] 64 := by
  refine (contained_iff "file:/c" [47, 97] 64 (by decide)).mpr ?_
  have hpath : ∀ path, fromUtf8 [47, 97] = some path → path = "/a" := by
    intro path h
    have hutf : [47, 97] = utf8 "/a" := by decide
    rw [fromUtf8_eq_some, hutf] at h
    exact (utf8_injective h).symm
  constructor
  case inside =>
    intro path h _
    rw [hpath path h]
    unfold Returns
    decide
  case told =>
    intro dir path _ h _ _
    rw [hpath path h]
    refine .inr (.inl ⟨by decide, ?_, by decide, by decide⟩)
    decide +kernel

/-- `../d` leaves the container, and the name of `/ab` does not come out of a buffer of eight bytes. -/
theorem request_leaves : ¬ Contained "file:/c" [46, 46, 47, 100] 64 ∧
    (chroot "file:/c").translate [46, 46, 47, 100] = .ok "file:/c/../d" ∧
    ¬ Contained "file:/c" [47, 97, 98] 8 := by
  have htranslate : (chroot "file:/c").translate [46, 46, 47, 100] = .ok "file:/c/../d" := by decide +kernel
  refine ⟨?_, htranslate, ?_⟩
  · intro h
    have hin := (h.inside _ htranslate).2
    revert hin
    decide
  · intro h
    have hutf : fromUtf8 [47, 97, 98] = some "/ab" := fromUtf8_eq_some.mpr (by decide)
    have ht : (chroot "file:/c").translate [47, 97, 98] = .ok "file:/c/ab" := by decide +kernel
    have hroot : "file:/c" = rootAt [99] := by decide +kernel
    have htold := h.told [99] "/ab" _ hroot hutf (by unfold Dotless; decide) ht
    revert htold
    decide +kernel

end Origel.Contain
