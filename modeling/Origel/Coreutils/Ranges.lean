import Mathlib.Data.List.GetD
import Origel.Coreutils.Cut

/-! Lists of numbers and number ranges, and the positions that are selected by them. -/
namespace Origel.Coreutils

namespace Matched

/-- The elements that are set, from zero on -/
def Sets (i : Nat) : Matched → Prop
  | single index => i + 1 = index
  | openBegin stop => i < stop
  | openEnd first => i + 1 = first
  | range first stop => first ≤ i + 1 ∧ i < stop

/-- The number up to which elements are there -/
def last : Matched → Nat
  | single index => index
  | openBegin stop => stop
  | openEnd first => first
  | range _ stop => stop

/-- No position is in front of the first one, and the elements are as many as an `isize` can tell. -/
def Fits (checked : Bool) : Matched → Prop
  | single index => index ≠ 0 ∧ index < 2 ^ 63
  | openBegin stop => stop < 2 ^ 63
  | openEnd first => first ≠ 0 ∧ first < 2 ^ 63
  | range first stop => (checked = true → first ≠ 0) ∧ stop < 2 ^ 63

def Positive : Matched → Prop
  | single index => index ≠ 0
  | openBegin stop => stop ≠ 0
  | openEnd first => first ≠ 0
  | range first stop => first ≠ 0 ∧ stop ≠ 0

end Matched

/-- The elements of a selection are those that the parts of the list set. -/
structure Selection.Holds (ms : List Matched) (s : Selection) : Prop where
  length : ∀ i, i < s.selected.length ↔ ∃ m ∈ ms, i < m.last
  element : ∀ i, s.selected.getD i false = true ↔ ∃ m ∈ ms, m.Sets i
  toEol : s.toEol = true ↔ ∃ first, .openEnd first ∈ ms

section Elements

variable {v v' : List Bool} {index first stop len i : Nat} {checked : Bool} {s : Selection} {m : Matched}
  {ms : List Matched}

theorem extend_eq (v : List Bool) (h : len < 2 ^ 63) :
    extend v len = some (v ++ List.replicate (len - v.length) false) := by
  rw [extend]
  split
  · exact if_pos h
  · rw [Nat.sub_eq_zero_of_le (by omega), List.replicate_zero, List.append_nil]

theorem extend_none (hlen : v.length < 2 ^ 63) (h : 2 ^ 63 ≤ len) : extend v len = none := by
  rw [extend, if_pos (by omega)]
  exact if_neg (by omega)

theorem getD_extended (v : List Bool) (n i : Nat) :
    (v ++ List.replicate n false).getD i false = v.getD i false := by
  by_cases hi : i < v.length
  · rw [List.getD_append _ _ _ _ hi]
  · rw [List.getD_append_right _ _ _ _ (by omega), List.getD_eq_default v _ (by omega)]
    by_cases hn : i - v.length < n
    · rw [List.getD_eq_getElem _ _ (by rwa [List.length_replicate]), List.getElem_replicate]
    · exact List.getD_eq_default _ _ (by rw [List.length_replicate]; omega)

theorem toggle_eq {n : Nat} (h : n + 1 < 2 ^ 63) : ∃ v', toggle v n = some v' ∧
    v'.length = max v.length (n + 1) ∧
    ∀ i, v'.getD i false = (decide (i = n) || v.getD i false) := by
  have hmod : (n + 1) % 2 ^ 64 = n + 1 := Nat.mod_eq_of_lt (by omega)
  refine ⟨(v ++ List.replicate (n + 1 - v.length) false).set n true, ?_, ?_, fun i => ?_⟩
  · rw [toggle, hmod, extend_eq v h]
    exact if_pos (by rw [List.length_append, List.length_replicate]; omega)
  · rw [List.length_set, List.length_append, List.length_replicate]
    omega
  · rw [← getD_extended v (n + 1 - v.length) i, List.getD_eq_getElem?_getD, List.getElem?_set]
    by_cases hi : n = i
    · subst hi
      rw [if_pos rfl, if_pos (by rw [List.length_append, List.length_replicate]; omega)]
      simp
    · rw [if_neg hi, ← List.getD_eq_getElem?_getD, decide_eq_false (Ne.symm hi), Bool.false_or]

theorem toggle_none (hlen : v.length < 2 ^ 63) (h : 2 ^ 63 ≤ index + 1) (hindex : index < 2 ^ 64) :
    toggle v index = none := by
  rw [toggle]
  by_cases hlast : index + 1 = 2 ^ 64
  · rw [hlast, Nat.mod_self, extend, if_neg (Nat.not_lt_zero _)]
    exact if_neg (by omega)
  · rw [Nat.mod_eq_of_lt (by omega), extend_none hlen (by omega)]
    rfl

theorem fill_eq {n : Nat} (h : stop < 2 ^ 63) : ∃ v', fill v n stop = some v' ∧
    v'.length = max v.length stop ∧
    ∀ i, v'.getD i false = (decide (n ≤ i ∧ i < stop) || v.getD i false) := by
  refine ⟨(v ++ List.replicate (stop - v.length) false).mapIdx
    fun i b => if n ≤ i ∧ i < stop then true else b, ?_, ?_, fun i => ?_⟩
  · rw [fill, extend_eq v h]
    rfl
  · rw [List.length_mapIdx, List.length_append, List.length_replicate]
    omega
  · rw [← getD_extended v (stop - v.length) i, List.getD_eq_getElem?_getD, List.getElem?_mapIdx]
    by_cases hi : i < (v ++ List.replicate (stop - v.length) false).length
    · rw [List.getElem?_eq_getElem hi, Option.map_some, Option.getD_some, List.getD_eq_getElem _ _ hi]
      split
      · rename_i hin
        rw [decide_eq_true hin, Bool.true_or]
      · rename_i hout
        rw [decide_eq_false hout, Bool.false_or]
    · have hlength : stop ≤ i := by
        rw [List.length_append, List.length_replicate] at hi
        omega
      rw [List.getElem?_eq_none (by omega), List.getD_eq_default _ _ (by omega),
        decide_eq_false (by omega)]
      rfl

theorem fill_none (hlen : v.length < 2 ^ 63) (h : 2 ^ 63 ≤ stop) : fill v first stop = none := by
  rw [fill, extend_none hlen h]
  rfl

end Elements

section Parts

variable {s s' : Selection} {m : Matched} {ms : List Matched} {checked toEol : Bool}
  {selected : List Bool} {index : Nat} {part : List Char} {parts : List (List Char)}

theorem pred_of_ne (h : index ≠ 0) : pred checked index = some (index - 1) := if_neg h

/-- What a part changes: the elements that it sets are set, and there are as many as it has numbers. -/
theorem holds_append (h : s.Holds ms) (hlength : selected.length = max s.selected.length m.last)
    (helement : ∀ i, selected.getD i false = true ↔ m.Sets i ∨ s.selected.getD i false = true)
    (htoEol : toEol = true ↔ s.toEol = true ∨ ∃ first, m = .openEnd first) :
    Selection.Holds (ms ++ [m]) ⟨selected, toEol⟩ := by
  have hmem : ∀ P : Matched → Prop, (∃ m' ∈ ms ++ [m], P m') ↔ (∃ m' ∈ ms, P m') ∨ P m := by
    intro P
    simp [List.mem_append, or_and_right, exists_or]
  constructor
  · intro i
    rw [hlength, hmem, ← h.length]
    exact lt_max_iff
  · intro i
    rw [helement, hmem, ← h.element]
    exact or_comm
  · rw [htoEol, h.toEol]
    simp [List.mem_append, exists_or, eq_comm]

theorem read_holds (h : s.Holds ms) (hfits : m.Fits checked) (hpositive : m.Positive) :
    ∃ s', s.read checked m = some s' ∧ s'.Holds (ms ++ [m]) := by
  cases m with
  | single index =>
    obtain ⟨hne, hlt⟩ := hfits
    obtain ⟨v, hv, hlength, helement⟩ := toggle_eq (v := s.selected) (n := index - 1) (by omega)
    refine ⟨{ s with selected := v }, ?_, holds_append h ?_ (fun i => ?_) (by simp)⟩
    · rw [Selection.read, pred_of_ne hne, Option.bind_eq_bind, Option.bind_some, hv]
      rfl
    · rw [hlength, Matched.last]
      omega
    · rw [helement, Bool.or_eq_true, decide_eq_true_eq, Matched.Sets]
      apply or_congr_left
      omega
  | openBegin stop =>
    obtain ⟨v, hv, hlength, helement⟩ := fill_eq (v := s.selected) (n := 0) hfits
    refine ⟨{ s with selected := v }, ?_, holds_append h hlength (fun i => ?_) (by simp)⟩
    · rw [Selection.read, hv]
      rfl
    · rw [helement, Bool.or_eq_true, decide_eq_true_eq, Matched.Sets]
      simp
  | openEnd first =>
    obtain ⟨hne, hlt⟩ := hfits
    obtain ⟨v, hv, hlength, helement⟩ := toggle_eq (v := s.selected) (n := first - 1) (by omega)
    refine ⟨⟨v, true⟩, ?_, holds_append h ?_ (fun i => ?_) (by simp)⟩
    · rw [Selection.read, pred_of_ne hne, Option.bind_eq_bind, Option.bind_some, hv]
      rfl
    · rw [hlength, Matched.last]
      omega
    · rw [helement, Bool.or_eq_true, decide_eq_true_eq, Matched.Sets]
      apply or_congr_left
      omega
  | range first stop =>
    obtain ⟨v, hv, hlength, helement⟩ := fill_eq (v := s.selected) (n := first - 1) hfits.2
    refine ⟨{ s with selected := v }, ?_, holds_append h hlength (fun i => ?_) (by simp)⟩
    · rw [Selection.read, pred_of_ne hpositive.1, Option.bind_eq_bind, Option.bind_some, hv]
      rfl
    · rw [helement, Bool.or_eq_true, decide_eq_true_eq, Matched.Sets]
      have hne := hpositive.1
      apply or_congr_left
      omega

/-- In front of the first illegal part every part fits. -/
def Readable (checked : Bool) (parts : List (List Char)) : Prop :=
  ∀ before part behind m, parts = before ++ part :: behind → (∀ part' ∈ before, (matchPart part').isSome) →
    matchPart part = some m → m.Fits checked

theorem matchPart_lt (h : matchPart part = some m) :
    ∀ n, (m = .single n ∨ m = .openEnd n ∨ ∃ stop, m = .range n stop) → n < 2 ^ 64 := by
  have hok : ∀ s n, parseUsize s = .ok n → n < 2 ^ 64 := by
    intro s n hs
    rw [parseUsize] at hs
    split at hs
    · cases hs
    · split at hs
      · rename_i hn
        cases hs
        exact Net.parseUnsigned_lt hn
      · cases hs
  have hget : ∀ i n : Nat, (((part.splitOn '-').map fun x => parseUsize (trim x))[i]? : Option Parsed) =
      some (.ok n) → n < 2 ^ 64 := by
    intro i n hi
    rw [List.getElem?_map] at hi
    obtain ⟨x, -, hx⟩ := Option.map_eq_some_iff.mp hi
    exact hok _ n hx
  intro n hn
  unfold matchPart at h
  dsimp only at h
  split at h
  · rename_i hfirst _
    cases h
    rcases hn with hn | hn | ⟨_, hn⟩
    · cases hn
      exact hget 0 n hfirst
    · cases hn
    · cases hn
  · cases h
    rcases hn with hn | hn | ⟨_, hn⟩ <;> cases hn
  · rename_i hfirst _
    cases h
    rcases hn with hn | hn | ⟨_, hn⟩
    · cases hn
    · cases hn
      exact hget 0 n hfirst
    · cases hn
  · rename_i hfirst _
    cases h
    rcases hn with hn | hn | ⟨_, hn⟩
    · cases hn
    · cases hn
    · cases hn
      exact hget 0 n hfirst
  · cases h

theorem bind_map {α β γ : Type} (x : Option α) (f : α → Option β) (g : β → γ) :
    (x.bind fun a => (f a).bind fun b => some (g b)) = (x.bind f).map g := by
  cases x with
  | none => rfl
  | some a => exact Option.map_eq_bind.symm

/-- A part that does not fit is not read, and what is read stays in the bounds of memory. -/
theorem read_isSome_iff (checked : Bool) (hlen : s.selected.length < 2 ^ 63) (h : matchPart part = some m) :
    ((s.read checked m).isSome ↔ m.Fits checked) ∧
      ∀ s', s.read checked m = some s' → s'.selected.length < 2 ^ 63 := by
  have htoggle : ∀ index, index < 2 ^ 64 → (((pred checked index).bind (toggle s.selected)).isSome ↔
      index ≠ 0 ∧ index < 2 ^ 63) ∧
      ∀ v, (pred checked index).bind (toggle s.selected) = some v → v.length < 2 ^ 63 := by
    intro index hindex
    by_cases hzero : index = 0
    · have hnone : (pred checked index).bind (toggle s.selected) = none := by
        rw [pred, if_pos hzero]
        cases checked with
        | true => rfl
        | false => exact toggle_none hlen (by decide) (by decide)
      rw [hnone]
      exact ⟨⟨nofun, fun h => absurd hzero h.1⟩, nofun⟩
    · rw [pred_of_ne hzero, Option.bind_some]
      by_cases hfits : index < 2 ^ 63
      · obtain ⟨v, hv, hlength, -⟩ := toggle_eq (v := s.selected) (n := index - 1) (by omega)
        rw [hv]
        refine ⟨⟨fun _ => ⟨hzero, hfits⟩, fun _ => rfl⟩, fun v' hv' => ?_⟩
        cases hv'
        omega
      · rw [toggle_none hlen (by omega) (by omega)]
        exact ⟨⟨nofun, fun h => absurd h.2 hfits⟩, nofun⟩
  have hfill : ∀ n stop, ((fill s.selected n stop).isSome ↔ stop < 2 ^ 63) ∧
      ∀ v, fill s.selected n stop = some v → v.length < 2 ^ 63 := by
    intro n stop
    by_cases hfits : stop < 2 ^ 63
    · obtain ⟨v, hv, hlength, -⟩ := fill_eq (v := s.selected) (n := n) hfits
      rw [hv]
      refine ⟨⟨fun _ => hfits, fun _ => rfl⟩, fun v' hv' => ?_⟩
      cases hv'
      omega
    · rw [fill_none hlen (by omega)]
      exact ⟨⟨nofun, fun h => absurd h hfits⟩, nofun⟩
  have hlt := matchPart_lt h
  cases m with
  | single index =>
    have hread : s.read checked (.single index) =
        ((pred checked index).bind (toggle s.selected)).map fun selected => { s with selected } :=
      bind_map ..
    obtain ⟨hiff, hlength⟩ := htoggle index (hlt index (.inl rfl))
    rw [hread, Option.isSome_map]
    refine ⟨hiff, fun s' hs' => ?_⟩
    obtain ⟨v, hv, rfl⟩ := Option.map_eq_some_iff.mp hs'
    exact hlength v hv
  | openBegin stop =>
    have hread : s.read checked (.openBegin stop) =
        (fill s.selected 0 stop).map fun selected => { s with selected } :=
      Option.map_eq_bind.symm
    obtain ⟨hiff, hlength⟩ := hfill 0 stop
    rw [hread, Option.isSome_map]
    refine ⟨hiff, fun s' hs' => ?_⟩
    obtain ⟨v, hv, rfl⟩ := Option.map_eq_some_iff.mp hs'
    exact hlength v hv
  | openEnd first =>
    have hread : s.read checked (.openEnd first) =
        ((pred checked first).bind (toggle s.selected)).map fun selected => ⟨selected, true⟩ :=
      bind_map ..
    obtain ⟨hiff, hlength⟩ := htoggle first (hlt first (.inr (.inl rfl)))
    rw [hread, Option.isSome_map]
    refine ⟨hiff, fun s' hs' => ?_⟩
    obtain ⟨v, hv, rfl⟩ := Option.map_eq_some_iff.mp hs'
    exact hlength v hv
  | range first stop =>
    have hread : s.read checked (.range first stop) =
        ((pred checked first).bind fun n => fill s.selected n stop).map
          fun selected => { s with selected } :=
      bind_map ..
    rw [hread, Option.isSome_map, Matched.Fits]
    cases hpred : pred checked first with
    | none =>
      refine ⟨⟨nofun, fun hfits => ?_⟩, nofun⟩
      rw [pred] at hpred
      split at hpred
      · rename_i hzero
        cases checked with
        | true => exact absurd hzero (hfits.1 rfl)
        | false => cases hpred
      · cases hpred
    | some n =>
      obtain ⟨hiff, hlength⟩ := hfill n stop
      rw [Option.bind_some]
      refine ⟨hiff.trans ⟨fun hstop => ⟨fun hchecked hzero => ?_, hstop⟩, And.right⟩, fun s' hs' => ?_⟩
      · rw [pred, if_pos hzero, if_pos hchecked] at hpred
        cases hpred
      · obtain ⟨v, hv, rfl⟩ := Option.map_eq_some_iff.mp hs'
        exact hlength v hv

theorem readable_cons : Readable checked (part :: parts) ↔
    ∀ m, matchPart part = some m → m.Fits checked ∧ Readable checked parts := by
  constructor
  · intro h m hm
    refine ⟨h [] part parts m rfl nofun hm, fun before part' behind m' heq hbefore => ?_⟩
    refine h (part :: before) part' behind m' (by rw [heq]; rfl) fun q hq => ?_
    rcases List.mem_cons.mp hq with rfl | hq
    · rw [hm]
      rfl
    · exact hbefore q hq
  · intro h before part' behind m' heq hbefore hm'
    cases before with
    | nil =>
      cases heq
      exact (h m' hm').1
    | cons first before =>
      cases heq
      obtain ⟨m, hm⟩ := Option.isSome_iff_exists.mp (hbefore _ List.mem_cons_self)
      exact (h m hm).2 before part' behind m' rfl
        (fun q hq => hbefore q (List.mem_cons_of_mem _ hq)) hm'

theorem readParts_isSome_iff (hlen : s.selected.length < 2 ^ 63) :
    (s.readParts checked parts).isSome ↔ Readable checked parts := by
  induction parts generalizing s with
  | nil =>
    refine iff_of_true rfl fun before part behind m heq => ?_
    exact absurd heq.symm (List.append_ne_nil_of_right_ne_nil _ (List.cons_ne_nil _ _))
  | cons part parts ih =>
    rw [Selection.readParts, readable_cons]
    cases hm : matchPart part with
    | none => exact iff_of_true rfl nofun
    | some m =>
      obtain ⟨hiff, hlength⟩ := read_isSome_iff checked hlen hm
      simp only [Option.some.injEq, forall_eq', Option.bind_eq_bind]
      cases hread : s.read checked m with
      | none =>
        rw [hread] at hiff
        exact iff_of_false nofun fun h => nomatch hiff.mpr h.1
      | some s' =>
        rw [hread] at hiff
        rw [Option.bind_some, ih (hlength s' hread)]
        exact (and_iff_right (hiff.mp rfl)).symm

end Parts

end Origel.Coreutils
