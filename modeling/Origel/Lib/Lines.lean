import Origel.Lib.Segments

/-! Texts as lines, each with its end, and what comes behind the last end. -/
namespace Origel.Lib

variable {α : Type*} {sep : α} {l rest : List α} {ls : List (List α)}

/-- A text of these lines and this rest -/
def joinLines (sep : α) (ls : List (List α)) (rest : List α) : List α := ls.flatMap (· ++ [sep]) ++ rest

@[simp] theorem joinLines_nil : joinLines sep [] rest = rest := rfl

@[simp] theorem joinLines_cons : joinLines sep (l :: ls) rest = l ++ sep :: joinLines sep ls rest := by
  simp [joinLines]

theorem mem_joinLines {x : α} : x ∈ joinLines sep ls rest ↔ (∃ l ∈ ls, x ∈ l ++ [sep]) ∨ x ∈ rest := by
  rw [joinLines, List.mem_append, List.mem_flatMap]

variable [DecidableEq α]

/-- The lines of a text that have an end -/
def fullLines (sep : α) (s : List α) : List (List α) := (segments sep s).dropLast

/-- What comes behind the last end of a line -/
def lastPart (sep : α) (s : List α) : List α := (segments sep s).getLastD []

theorem segments_joinLines (hls : ∀ l ∈ ls, sep ∉ l) (hrest : sep ∉ rest) :
    segments sep (joinLines sep ls rest) = ls ++ [rest] := by
  have hone : ∀ {s : List α}, sep ∉ s → segments sep s = [s] := by
    intro s hs
    have h := segments_append hs (show segments sep ([] : List α) = [[]] from rfl)
    rwa [List.append_nil] at h
  induction ls with
  | nil => exact hone hrest
  | cons l ls ih =>
    rw [joinLines_cons, segments_append_sep, hone (hls l List.mem_cons_self),
      ih fun l' hl' => hls l' (List.mem_cons_of_mem l hl')]
    rfl

theorem fullLines_joinLines (hls : ∀ l ∈ ls, sep ∉ l) (hrest : sep ∉ rest) :
    fullLines sep (joinLines sep ls rest) = ls := by
  rw [fullLines, segments_joinLines hls hrest, List.dropLast_concat]

theorem lastPart_joinLines (hls : ∀ l ∈ ls, sep ∉ l) (hrest : sep ∉ rest) :
    lastPart sep (joinLines sep ls rest) = rest := by
  rw [lastPart, segments_joinLines hls hrest, List.getLastD_concat]

/-- Every text has its lines. -/
theorem exists_lines (sep : α) (s : List α) :
    ∃ ls rest, s = joinLines sep ls rest ∧ (∀ l ∈ ls, sep ∉ l) ∧ sep ∉ rest := by
  induction s with
  | nil => exact ⟨[], [], rfl, nofun, nofun⟩
  | cons a s ih =>
    obtain ⟨ls, rest, rfl, hls, hrest⟩ := ih
    by_cases ha : a = sep
    · refine ⟨[] :: ls, rest, ?_, ?_, hrest⟩
      · rw [joinLines_cons, ha, List.nil_append]
      · rintro l (_ | ⟨_, hl⟩)
        · exact nofun
        · exact hls l hl
    · have hcons : ∀ {l : List α}, sep ∉ l → sep ∉ a :: l := by
        intro l hl hmem
        rcases List.mem_cons.mp hmem with h | h
        · exact ha h.symm
        · exact hl h
      rcases ls with _ | ⟨l, ls⟩
      · exact ⟨[], a :: rest, rfl, nofun, hcons hrest⟩
      · refine ⟨(a :: l) :: ls, rest, ?_, ?_, hrest⟩
        · rw [joinLines_cons, joinLines_cons, List.cons_append]
        · rintro l' (_ | ⟨_, hl'⟩)
          · exact hcons (hls l List.mem_cons_self)
          · exact hls l' (List.mem_cons_of_mem l hl')

/-- What is asked for each element is there. -/
theorem mapM_some {α β : Type*} {f : α → Option β} {g : α → β} {l : List α}
    (h : ∀ a ∈ l, f a = some (g a)) : l.mapM f = some (l.map g) := by
  induction l with
  | nil => rfl
  | cons a l ih =>
    rw [List.mapM_cons, h a List.mem_cons_self, ih fun b hb => h b (List.mem_cons_of_mem a hb)]
    rfl

end Origel.Lib
