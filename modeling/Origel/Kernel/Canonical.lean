import Mathlib.Data.List.TakeWhile
import Origel.Kernel.Namespaces
import Origel.Numbers

/-! Where `chdir` leads, and what `canonicalize` makes of paths there. -/
namespace Origel.Kernel.Schemes

open Origel.Lib

variable {cwd cwd' path p s r : List UInt8} {n : Nat}

/-- A `chdir`, with what the scheme of the path answers to `open`, and the mode or the error that it
answers to `fstat` -/
structure Chdir where
  path : List UInt8
  opened : Except Nat Unit
  fstat : Except Nat Nat

/-- `chdir`: the result and the working directory after it; none where a slice is out of range -/
def chdir (cwd : List UInt8) (c : Chdir) : Option (Except Nat Nat × List UInt8) :=
  (canonicalize cwd c.path).map fun canonical =>
    match c.opened with
    | .error e => (.error e, cwd)
    | .ok _ =>
      match c.fstat with
      | .error e => (.error e, cwd)
      | .ok stMode =>
        if stMode &&& (MODE_FILE ||| MODE_DIR) = MODE_DIR then (.ok 0, canonical)
        else (.error ENOTDIR, cwd)

/-- A call that returns, where only schemes without `/` in their names open paths. -/
def Chdir.Step (cwd : List UInt8) (c : Chdir) (cwd' : List UInt8) : Prop :=
  (∀ p, canonicalize cwd c.path = some p → c.opened = .ok () → slash ∉ (splitPath p).1) ∧
    ∃ result, chdir cwd c = some (result, cwd')

/-- `initfs:` -/
def initfs : List UInt8 := [105, 110, 105, 116, 102, 115, 58]

/-- The part of a path up to and including its first colon -/
def schemePrefix (path : List UInt8) : List UInt8 := (splitPath path).1 ++ [colon]

/-- The part behind that -/
def reference (path : List UInt8) : List UInt8 := (splitPath path).2

/-- A reference up to where its last component begins. What has no components stays. -/
def upToLast (reference : List UInt8) : List UInt8 :=
  let body := reference.reverse.dropWhile (· = slash)
  if body = [] then reference else (body.dropWhile (· ≠ slash)).reverse

/-- What is promised of `canonicalize` in a working directory -/
structure Canonicalizes (cwd : List UInt8) : Prop where
  inRange : ∀ path, ∃ p, canonicalize cwd path = some p
  absolute : ∀ path, colon ∈ path → canonicalize cwd path = some path
  inScheme : ∀ path p, colon ∉ path → canonicalize cwd path = some p →
    colon ∈ p ∧ schemePrefix p = schemePrefix cwd
  idempotent : ∀ path p, canonicalize cwd path = some p → canonicalize cwd p = some p
  stays : ∀ cs cwd', (∀ c ∈ cs, colon ∉ c.path) → Run Chdir.Step cwd cs cwd' →
    schemePrefix cwd' = schemePrefix cwd
  parent : canonicalize cwd [dot, dot] = some (schemePrefix cwd ++ upToLast (reference cwd))
  root : (∀ b ∈ reference cwd, b = slash) → canonicalize cwd [dot, dot] = some cwd

/-- There is nothing to remove, or the last component has no second `/` behind it and no colon in it
that could be taken for the end of the scheme. -/
def Removable (reference : List UInt8) : Prop :=
  reference = [] ∨
    (reference.getLast? = some slash → ∃ b, reference.dropLast.getLast? = some b ∧ b ≠ slash) ∧
      colon ∉ reference.dropLast.reverse.takeWhile (· ≠ slash)

/-- A working directory that `chdir` has set -/
structure Located (cwd : List UInt8) : Prop where
  mem : colon ∈ cwd
  scheme : slash ∉ (splitPath cwd).1

theorem splitPath_eq (hs : colon ∉ s) : splitPath (s ++ colon :: r) = (s, r) := by
  have hall : ∀ b ∈ s, decide (b ≠ colon) = true := by
    intro b hb
    exact decide_eq_true fun h => hs (h ▸ hb)
  rw [splitPath, List.takeWhile_append_of_pos hall, List.dropWhile_append_of_pos hall]
  simp

/-- A path with a colon is its scheme prefix and its reference. -/
theorem eq_prefix_reference (h : colon ∈ p) :
    ∃ s r, colon ∉ s ∧ p = s ++ colon :: r ∧ splitPath p = (s, r) := by
  obtain ⟨s, r, rfl, hs⟩ := List.eq_append_cons_of_mem h
  exact ⟨s, r, hs, rfl, splitPath_eq hs⟩

theorem Located.cases (h : Located cwd) :
    ∃ s r, colon ∉ s ∧ slash ∉ s ∧ cwd = s ++ colon :: r := by
  obtain ⟨s, r, hs, rfl, hsplit⟩ := eq_prefix_reference h.mem
  have hslash := h.scheme
  rw [hsplit] at hslash
  exact ⟨s, r, hs, hslash, rfl⟩

/-- A byte that the search for the parent passes over -/
def passed (b : UInt8) : Bool := ¬(b = slash ∨ b = colon)

/-- What `..` leaves of a reference -/
def cutReference (r : List UInt8) : List UInt8 := (r.dropLast.reverse.dropWhile passed).reverse

theorem parentOf_eq (h : cwd ≠ []) : parentOf cwd =
    if (cwd.dropLast.reverse.dropWhile passed).length = 0 then some cwd
    else some (cwd.take (cwd.dropLast.reverse.dropWhile passed).length) := by
  have hrun : parentOf cwd = if cwd = [] then none else
      some (if (cwd.dropLast.reverse.dropWhile passed).length = 0 then cwd
        else cwd.take (cwd.dropLast.reverse.dropWhile passed).length) := rfl
  rw [hrun, if_neg h]
  split <;> rfl

theorem dropWhile_append_stop {p : UInt8 → Bool} {b : UInt8} (d t : List UInt8) (hb : p b = false) :
    (d ++ b :: t).dropWhile p = d.dropWhile p ++ b :: t := by
  induction d with
  | nil => simp [hb]
  | cons x d ih =>
    by_cases hx : p x = true
    · simp [hx, ih]
    · simp [hx]

theorem cutReference_start (r : List UInt8) : cutReference r <+: r := by
  have hsuffix : r.dropLast.reverse.dropWhile passed <:+ r.dropLast.reverse := List.dropWhile_suffix _
  have hcut : cutReference r <+: r.dropLast := by
    rw [cutReference, ← List.reverse_suffix, List.reverse_reverse]
    exact hsuffix
  exact hcut.trans (List.dropLast_prefix r)

/-- The search for the end of the parent stops at the colon of the scheme at last. -/
theorem parentOf_append (hs : colon ∉ s) (hslash : slash ∉ s) :
    parentOf (s ++ colon :: r) = some (s ++ colon :: cutReference r) := by
  have hne : s ++ colon :: r ≠ [] := by simp
  rw [parentOf_eq hne]
  rcases List.eq_nil_or_concat' r with rfl | ⟨r, b, rfl⟩
  · have hnone : s.reverse.dropWhile passed = [] := by
      rw [List.dropWhile_eq_nil_iff]
      intro b hb
      have hmem := List.mem_reverse.mp hb
      refine decide_eq_true ?_
      rintro (rfl | rfl)
      · exact hslash hmem
      · exact hs hmem
    rw [List.dropLast_concat, hnone]
    rfl
  · have hlast : (s ++ colon :: (r ++ [b])).dropLast = s ++ colon :: r := by
      rw [← List.cons_append, ← List.append_assoc, List.dropLast_concat]
    have hback : (s ++ colon :: r).reverse.dropWhile passed = r.reverse.dropWhile passed ++ colon :: s.reverse := by
      rw [List.reverse_append, List.reverse_cons, List.append_assoc, List.singleton_append]
      exact dropWhile_append_stop _ _ rfl
    have hlen : (r.reverse.dropWhile passed ++ colon :: s.reverse).length =
        (s ++ colon :: cutReference (r ++ [b])).length := by
      rw [cutReference, List.dropLast_concat]
      simp only [List.length_append, List.length_cons, List.length_reverse]
      omega
    have hpart : s ++ colon :: cutReference (r ++ [b]) <+: s ++ colon :: (r ++ [b]) := by
      rw [List.prefix_append_right_inj, List.cons_prefix_cons]
      exact ⟨rfl, cutReference_start _⟩
    have hpos : (s ++ colon :: cutReference (r ++ [b])).length ≠ 0 := by simp
    rw [hlast, hback, hlen, if_neg hpos, ← List.prefix_iff_eq_take.mp hpart]

theorem canonicalize_colon (h : colon ∈ path) : canonicalize cwd path = some path := if_pos h

theorem canonicalize_parent (hs : colon ∉ s) (hslash : slash ∉ s) :
    canonicalize (s ++ colon :: r) [dot, dot] = some (s ++ colon :: cutReference r) := by
  have hcolon : colon ∉ [dot, dot] := by decide
  have hdot : [dot, dot] ≠ [dot] := by decide
  unfold canonicalize
  simp only [if_neg hcolon, if_neg hdot, if_true, parentOf_append hs hslash]

theorem takeScheme (hs : colon ∉ s) :
    (s ++ colon :: r).take ((s ++ colon :: r).idxOf colon + 1) = s ++ [colon] := by
  have hidx : (s ++ colon :: r).idxOf colon = s.length := by
    rw [List.idxOf_append_of_notMem hs, List.idxOf_cons_self, Nat.add_zero]
  rw [hidx, ← List.singleton_append, ← List.append_assoc, List.take_left']
  simp

/-- A path without a colon leads to a place in the same scheme. -/
theorem canonicalize_inside (hs : colon ∉ s) (hslash : slash ∉ s) (hp : colon ∉ path) :
    ∃ r', canonicalize (s ++ colon :: r) path = some (s ++ colon :: r') := by
  have hended : ∃ r', (if (s ++ colon :: r).getLast? = some slash then s ++ colon :: r
      else s ++ colon :: r ++ [slash]) = s ++ colon :: r' := by
    split
    · exact ⟨r, rfl⟩
    · exact ⟨r ++ [slash], by simp⟩
  obtain ⟨r', hended⟩ := hended
  unfold canonicalize
  simp only [hended, if_neg hp, parentOf_append hs hslash, takeScheme hs, Option.map_some]
  by_cases h1 : path = [dot]
  · rw [if_pos h1]
    exact ⟨r, rfl⟩
  rw [if_neg h1]
  by_cases h2 : path = [dot, dot]
  · rw [if_pos h2]
    exact ⟨_, rfl⟩
  rw [if_neg h2]
  by_cases h3 : [dot, slash].isPrefixOf path = true
  · rw [if_pos h3]
    exact ⟨r' ++ path.drop 2, by simp⟩
  rw [if_neg h3]
  by_cases h4 : [dot, dot, slash].isPrefixOf path = true
  · rw [if_pos h4]
    exact ⟨cutReference r ++ path.drop 3, by simp⟩
  rw [if_neg h4]
  by_cases h5 : [slash].isPrefixOf path = true
  · rw [if_pos h5, if_pos (by simp)]
    exact ⟨path, by simp⟩
  · rw [if_neg h5]
    exact ⟨r' ++ path, by simp⟩

/-- What a `chdir` comes to: it stays, or goes to where the path leads. -/
theorem chdir_cases {c : Chdir} {result : Except Nat Nat} (h : chdir cwd c = some (result, cwd')) :
    cwd' = cwd ∨ canonicalize cwd c.path = some cwd' ∧ c.opened = .ok () := by
  rw [chdir, Option.map_eq_some_iff] at h
  obtain ⟨p, hp, h⟩ := h
  cases hopened : c.opened with
  | error e =>
    simp only [hopened, Prod.mk.injEq] at h
    exact .inl h.2.symm
  | ok u =>
    cases hstat : c.fstat with
    | error e =>
      simp only [hopened, hstat, Prod.mk.injEq] at h
      exact .inl h.2.symm
    | ok stMode =>
      simp only [hopened, hstat] at h
      by_cases hmode : stMode &&& (MODE_FILE ||| MODE_DIR) = MODE_DIR
      · rw [if_pos hmode] at h
        cases h
        exact .inr ⟨hp, rfl⟩
      · rw [if_neg hmode] at h
        cases h
        exact .inl rfl

theorem Located.step {c : Chdir} (h : Located cwd) (hstep : Chdir.Step cwd c cwd') : Located cwd' := by
  obtain ⟨hopen, result, hrun⟩ := hstep
  rcases chdir_cases hrun with rfl | ⟨hcanon, hopened⟩
  · exact h
  · refine ⟨?_, hopen cwd' hcanon hopened⟩
    by_cases hpath : colon ∈ c.path
    · rw [canonicalize_colon hpath] at hcanon
      cases hcanon
      exact hpath
    · obtain ⟨s, r, hs, hslash, rfl⟩ := h.cases
      obtain ⟨r', hr⟩ := canonicalize_inside (r := r) hs hslash hpath
      rw [hr] at hcanon
      cases hcanon
      simp

theorem located_initfs : Located initfs := by
  constructor
  · decide
  · decide

/-- Steps by paths without colons keep the scheme. -/
theorem schemePrefix_step {c : Chdir} (h : Located cwd) (hpath : colon ∉ c.path)
    (hstep : Chdir.Step cwd c cwd') : schemePrefix cwd' = schemePrefix cwd := by
  obtain ⟨-, result, hrun⟩ := hstep
  rcases chdir_cases hrun with rfl | ⟨hcanon, -⟩
  · rfl
  · obtain ⟨s, r, hs, hslash, rfl⟩ := h.cases
    obtain ⟨r', hr⟩ := canonicalize_inside (r := r) hs hslash hpath
    rw [hr] at hcanon
    cases hcanon
    rw [schemePrefix, schemePrefix, splitPath_eq hs, splitPath_eq hs]

theorem schemePrefix_run {cs : List Chdir} (hrun : Run Chdir.Step cwd cs cwd') (h : Located cwd)
    (hpaths : ∀ c ∈ cs, colon ∉ c.path) : schemePrefix cwd' = schemePrefix cwd := by
  induction hrun with
  | nil => rfl
  | cons hstep _ ih =>
    rw [ih (h.step hstep) fun c hc => hpaths c (List.mem_cons_of_mem _ hc)]
    exact schemePrefix_step h (hpaths _ List.mem_cons_self) hstep

theorem dropWhile_passed_iff (l : List UInt8) :
    l.dropWhile passed = l.dropWhile (· ≠ slash) ↔ colon ∉ l.takeWhile (· ≠ slash) := by
  induction l with
  | nil => simp
  | cons b l ih =>
    by_cases hslash : b = slash
    · subst hslash
      have hp : passed slash = false := rfl
      simp [hp]
    · by_cases hcolon : b = colon
      · subst hcolon
        have hp : passed colon = false := rfl
        have hlen : (l.dropWhile (· ≠ slash)).length ≤ l.length := (List.dropWhile_suffix _).length_le
        refine iff_of_false ?_ ?_
        · intro h
          have := congrArg List.length h
          simp only [List.dropWhile_cons, hp, ne_eq, hslash, not_false_eq_true, decide_true,
            Bool.false_eq_true, if_false, if_true, List.length_cons] at this
          simp only [ne_eq] at hlen
          omega
        · simp [hslash]
      · have hp : passed b = true := decide_eq_true (by simp [hslash, hcolon])
        simp only [List.dropWhile_cons, List.takeWhile_cons, hp, ne_eq, hslash, not_false_eq_true, decide_true,
          if_true, List.mem_cons, Ne.symm hcolon, false_or]
        exact ih

theorem upToLast_slashes (h : ∀ b ∈ r, b = slash) : upToLast r = r := by
  have hnone : r.reverse.dropWhile (· = slash) = [] := by
    rw [List.dropWhile_eq_nil_iff]
    intro b hb
    exact decide_eq_true (h b (List.mem_reverse.mp hb))
  rw [upToLast]
  simp only [hnone, if_true]

theorem upToLast_of_body {body : List UInt8} (h : r.reverse.dropWhile (· = slash) = body) (hne : body ≠ []) :
    upToLast r = (body.dropWhile (· ≠ slash)).reverse := by
  rw [upToLast]
  simp only [h, if_neg hne]

/-- The search that takes a colon for the end of the scheme finds the last component exactly if that
is `Removable`. -/
theorem cutReference_eq_iff (r : List UInt8) : cutReference r = upToLast r ↔ Removable r := by
  rcases List.eq_nil_or_concat' r with rfl | ⟨r, b, rfl⟩
  · exact iff_of_true rfl (.inl rfl)
  have hback : (r ++ [b]).reverse = b :: r.reverse := by simp
  have hcut : cutReference (r ++ [b]) = (r.reverse.dropWhile passed).reverse := by
    rw [cutReference, List.dropLast_concat]
  have hremovable : Removable (r ++ [b]) ↔ (b = slash → ∃ x, r.getLast? = some x ∧ x ≠ slash) ∧
      colon ∉ r.reverse.takeWhile (· ≠ slash) := by
    rw [Removable, List.dropLast_concat, List.getLast?_concat]
    simp
  rw [hremovable, hcut, ← dropWhile_passed_iff]
  by_cases hb : b = slash
  · subst hb
    cases hq : r.reverse with
    | nil =>
      -- nothing but a slash
      obtain rfl : r = [] := List.reverse_eq_nil_iff.mp hq
      refine iff_of_false ?_ ?_
      · rw [upToLast_slashes (by simp)]
        simp
      · rintro ⟨h, -⟩
        obtain ⟨x, hx, -⟩ := h rfl
        cases hx
    | cons x q =>
      obtain rfl : r = q.reverse ++ [x] := by
        rw [← List.reverse_reverse r, hq, List.reverse_cons]
      rw [List.getLast?_concat]
      by_cases hx : x = slash
      · subst hx
        refine iff_of_false ?_ ?_
        · intro h
          have hlen := congrArg List.length h
          have hleft : ((slash :: q).dropWhile passed).reverse.length = q.length + 1 := by
            rw [List.dropWhile_cons_of_neg (by decide), List.length_reverse, List.length_cons]
          rw [hleft] at hlen
          cases hbody : (q.reverse ++ [slash] ++ [slash]).reverse.dropWhile (· = slash) with
          | nil =>
            rw [upToLast] at hlen
            simp only [hbody, if_true, List.length_append, List.length_reverse, List.length_cons,
              List.length_nil] at hlen
            omega
          | cons y body =>
            rw [upToLast_of_body hbody (List.cons_ne_nil _ _), List.length_reverse] at hlen
            have hshort : ((y :: body).dropWhile (· ≠ slash)).length ≤ (y :: body).length :=
              (List.dropWhile_suffix _).length_le
            have hbodyq : (y :: body).length ≤ q.length := by
              rw [← hbody]
              simp only [List.reverse_append, List.reverse_cons, List.reverse_nil, List.reverse_reverse,
                List.nil_append, List.cons_append, List.dropWhile_cons, decide_true, if_true]
              exact (List.dropWhile_suffix _).length_le
            omega
        · rintro ⟨h, -⟩
          obtain ⟨y, hy, hne⟩ := h rfl
          cases hy
          exact hne rfl
      · have hbody : (q.reverse ++ [x] ++ [slash]).reverse.dropWhile (· = slash) = x :: q := by
          simp [hx]
        rw [upToLast_of_body hbody (List.cons_ne_nil _ _), List.reverse_inj]
        constructor
        · intro h
          exact ⟨fun _ => ⟨x, rfl, hx⟩, h⟩
        · exact fun h => h.2
  · have hbody : (r ++ [b]).reverse.dropWhile (· = slash) = b :: r.reverse := by
      rw [hback, List.dropWhile_cons_of_neg (by simpa using hb)]
    have hdrop : (b :: r.reverse).dropWhile (· ≠ slash) = r.reverse.dropWhile (· ≠ slash) :=
      List.dropWhile_cons_of_pos (by simpa using hb)
    rw [upToLast_of_body hbody (List.cons_ne_nil _ _), hdrop, List.reverse_inj]
    constructor
    · intro h
      exact ⟨fun h' => absurd h' hb, h⟩
    · exact fun h => h.2

theorem Located.run {cs : List Chdir} (h : Located cwd) (hrun : Run Chdir.Step cwd cs cwd') : Located cwd' :=
  hrun.invariant (fun _ _ _ hstep h => h.step hstep) h

/-- Wherever `chdir` calls lead from `initfs:`, `canonicalize` does what is promised exactly if the last
component of the working directory can be found. -/
theorem canonicalizes_iff (cs : List Chdir) (cwd : List UInt8) : Run Chdir.Step initfs cs cwd →
    (Canonicalizes cwd ↔ Removable (reference cwd)) := by
  intro hrun
  have hloc := located_initfs.run hrun
  obtain ⟨s, r, hs, hslash, rfl⟩ := hloc.cases
  have hreference : reference (s ++ colon :: r) = r := by rw [reference, splitPath_eq hs]
  have hpart : ∀ r, schemePrefix (s ++ colon :: r) = s ++ [colon] := by
    intro r
    rw [schemePrefix, splitPath_eq hs]
  rw [hreference]
  constructor
  · intro h
    have hparent := h.parent
    rw [canonicalize_parent hs hslash, hreference, hpart, Option.some_inj, List.append_assoc,
      List.append_cancel_left_eq, List.singleton_append, List.cons_inj_right] at hparent
    exact (cutReference_eq_iff r).mp hparent
  · intro h
    have hcut := (cutReference_eq_iff r).mpr h
    constructor
    case inRange =>
      intro path
      exact canonicalize_some (by simp) path
    case absolute =>
      intro path hpath
      exact canonicalize_colon hpath
    case inScheme =>
      intro path p hpath hp
      obtain ⟨r', hr⟩ := canonicalize_inside (r := r) hs hslash hpath
      rw [hr] at hp
      cases hp
      rw [hpart, hpart]
      simp
    case idempotent =>
      intro path p hp
      apply canonicalize_colon
      by_cases hpath : colon ∈ path
      · rw [canonicalize_colon hpath] at hp
        cases hp
        exact hpath
      · obtain ⟨r', hr⟩ := canonicalize_inside (r := r) hs hslash hpath
        rw [hr] at hp
        cases hp
        simp
    case stays =>
      intro cs cwd' hpaths hrun'
      exact schemePrefix_run hrun' hloc hpaths
    case parent =>
      rw [canonicalize_parent hs hslash, hcut, hreference, hpart]
      simp
    case root =>
      rw [hreference]
      intro hr
      rw [canonicalize_parent hs hslash, hcut, upToLast_slashes hr]

/-- `initfs:bin`, where the parent is `initfs:` -/
theorem canonicalizes_iff_bin : Canonicalizes (initfs ++ [98, 105, 110]) := by
  have hrun : Run Chdir.Step initfs [⟨initfs ++ [98, 105, 110], .ok (), .ok MODE_DIR⟩]
      (initfs ++ [98, 105, 110]) := by
    refine .cons ⟨?_, .ok 0, by decide⟩ .nil
    intro p hp _
    rw [canonicalize_colon (by decide)] at hp
    cases hp
    decide
  apply (canonicalizes_iff _ _ hrun).mpr
  right
  decide

/-- `file:/x:y`, where `..` leads to `file:/x:` and not to `file:/` -/
theorem colon_in_directory :
    Run Chdir.Step initfs [⟨[102, 105, 108, 101, 58, 47, 120, 58, 121], .ok (), .ok MODE_DIR⟩]
      [102, 105, 108, 101, 58, 47, 120, 58, 121] ∧
    ¬ Canonicalizes [102, 105, 108, 101, 58, 47, 120, 58, 121] ∧
    canonicalize [102, 105, 108, 101, 58, 47, 120, 58, 121] [dot, dot] =
      some [102, 105, 108, 101, 58, 47, 120, 58] := by
  have hcanon : canonicalize [102, 105, 108, 101, 58, 47, 120, 58, 121] [dot, dot] =
      some [102, 105, 108, 101, 58, 47, 120, 58] := by decide
  refine ⟨?_, ?_, hcanon⟩
  · refine .cons ⟨?_, .ok 0, by decide⟩ .nil
    intro p hp _
    rw [canonicalize_colon (by decide)] at hp
    cases hp
    decide
  · intro h
    have hparent := h.parent
    rw [hcanon] at hparent
    revert hparent
    decide

end Origel.Kernel.Schemes
