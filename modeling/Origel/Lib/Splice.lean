import Mathlib.Data.List.Basic

/-! Lists in which a part is replaced by one of the same length. -/
namespace Origel.Lib

variable {α : Type*} {l a b : List α} {i j n : Nat}

/-- `l` with `a` in place of what is at `i` -/
def splice (l : List α) (i : Nat) (a : List α) : List α := l.take i ++ a ++ l.drop (i + a.length)

@[simp] theorem splice_nil (l : List α) (i : Nat) : splice l i [] = l := by
  rw [splice, List.append_nil, List.length_nil, Nat.add_zero, List.take_append_drop]

theorem splice_length (h : i + a.length ≤ l.length) : (splice l i a).length = l.length := by
  simp only [splice, List.length_append, List.length_take, List.length_drop]
  omega

theorem splice_getElem? (h : i + a.length ≤ l.length) :
    (splice l i a)[j]? = if i ≤ j ∧ j < i + a.length then a[j - i]? else l[j]? := by
  have htake : (l.take i).length = i := List.length_take_of_le (by omega)
  rw [splice, List.append_assoc]
  by_cases hfront : j < i
  · rw [List.getElem?_append_left (by omega), List.getElem?_take_of_lt hfront, if_neg (by omega)]
  · rw [List.getElem?_append_right (by omega), htake]
    by_cases hmid : j < i + a.length
    · rw [List.getElem?_append_left (by omega), if_pos ⟨by omega, hmid⟩]
    · rw [List.getElem?_append_right (by omega), List.getElem?_drop, if_neg (by omega)]
      congr 1
      omega

/-- Parts that follow one another are replaced at once. -/
theorem splice_splice (h : i + a.length + b.length ≤ l.length) :
    splice (splice l i a) (i + a.length) b = splice l i (a ++ b) := by
  apply List.ext_getElem?
  intro j
  have hlength : (splice l i a).length = l.length := splice_length (by omega)
  rw [splice_getElem? (by omega), splice_getElem? (by omega),
    splice_getElem? (by rw [List.length_append]; omega), List.length_append]
  by_cases hb : i + a.length ≤ j ∧ j < i + a.length + b.length
  · rw [if_pos hb, if_pos (by omega), List.getElem?_append_right (by omega)]
    congr 1
    omega
  · rw [if_neg hb]
    by_cases ha : i ≤ j ∧ j < i + a.length
    · rw [if_pos ha, if_pos (by omega), List.getElem?_append_left (by omega)]
    · rw [if_neg ha, if_neg (by omega)]

/-- What stands before the replaced part and what replaces it. -/
theorem take_splice (h : i + a.length ≤ l.length) :
    (splice l i a).take (i + a.length) = l.take i ++ a := by
  rw [splice]
  exact List.take_left' (by rw [List.length_append, List.length_take_of_le (by omega)])

/-- A part of `n` from `i` on -/
theorem take_drop_append (l : List α) (i j n : Nat) :
    (l.drop i).take (j + n) = (l.drop i).take j ++ (l.drop (i + j)).take n := by
  rw [List.take_add, List.drop_drop]

end Origel.Lib
