import Mathlib.Algebra.BigOperators.Group.List.Basic
import Mathlib.Algebra.GroupWithZero.Nat

/-! Strings, which are cut at byte offsets. -/
namespace Origel.Ion

/-- `str::len` -/
def bytes (s : List Char) : Nat := (s.map Char.utf8Size).sum

/-- The characters from a byte offset on, if that is where a character starts or the string ends. -/
def dropBytes : List Char → Nat → Option (List Char)
  | s, 0 => some s
  | [], _ + 1 => none
  | c :: s, n + 1 => if c.utf8Size ≤ n + 1 then dropBytes s (n + 1 - c.utf8Size) else none

/-- The characters up to a byte offset. -/
def takeBytes : List Char → Nat → Option (List Char)
  | _, 0 => some []
  | [], _ + 1 => none
  | c :: s, n + 1 =>
    if c.utf8Size ≤ n + 1 then (takeBytes s (n + 1 - c.utf8Size)).map (c :: ·) else none

/-- `&s[start..stop]`, which panics where an offset lies within a character or past the end. -/
def slice (s : List Char) (start stop : Nat) : Option (List Char) :=
  if start ≤ stop then (dropBytes s start).bind (takeBytes · (stop - start)) else none

/-- `&s[start..]` -/
def sliceFrom (s : List Char) (start : Nat) : Option (List Char) := dropBytes s start

/-- Every character of the string has one byte. -/
def Ascii (s : List Char) : Prop := ∀ c ∈ s, c.toNat < 128

instance : DecidablePred Ascii := List.decidableBAll fun c : Char => c.toNat < 128

variable {s t u : List Char} {c : Char}

@[simp] theorem bytes_nil : bytes [] = 0 := rfl

@[simp] theorem bytes_cons : bytes (c :: s) = c.utf8Size + bytes s := List.sum_cons

@[simp] theorem bytes_append : bytes (s ++ t) = bytes s + bytes t := by
  rw [bytes, List.map_append, List.sum_append]
  rfl

theorem utf8Size_ascii (h : c.toNat < 128) : c.utf8Size = 1 := by
  have hval : c.val ≤ 0x7F := UInt32.le_iff_toNat_le.mpr (Nat.le_of_lt_succ h)
  exact Char.utf8Size_eq_one_iff.mpr hval

theorem Ascii.bytes_eq (h : Ascii s) : bytes s = s.length := by
  induction s with
  | nil => rfl
  | cons c s ih =>
    rw [bytes_cons, List.length_cons, utf8Size_ascii (h c List.mem_cons_self),
      ih fun d hd => h d (List.mem_cons_of_mem c hd)]
    omega

theorem ascii_append : Ascii (s ++ t) ↔ Ascii s ∧ Ascii t := List.forall_mem_append

theorem ascii_cons : Ascii (c :: s) ↔ c.toNat < 128 ∧ Ascii s := List.forall_mem_cons

theorem dropBytes_append (s t : List Char) : dropBytes (s ++ t) (bytes s) = some t := by
  induction s with
  | nil => rw [bytes_nil, List.nil_append, dropBytes]
  | cons c s ih =>
    have hpos := c.utf8Size_pos
    obtain ⟨n, hn⟩ := Nat.exists_eq_succ_of_ne_zero (show bytes (c :: s) ≠ 0 by simp; omega)
    have hsize : n + 1 = c.utf8Size + bytes s := hn.symm.trans bytes_cons
    rw [hn, List.cons_append, dropBytes, if_pos (by omega), hsize, Nat.add_sub_cancel_left,
      ih]

theorem takeBytes_append (s t : List Char) : takeBytes (s ++ t) (bytes s) = some s := by
  induction s with
  | nil => rw [bytes_nil, takeBytes]
  | cons c s ih =>
    have hpos := c.utf8Size_pos
    obtain ⟨n, hn⟩ := Nat.exists_eq_succ_of_ne_zero (show bytes (c :: s) ≠ 0 by simp; omega)
    have hsize : n + 1 = c.utf8Size + bytes s := hn.symm.trans bytes_cons
    rw [hn, List.cons_append, takeBytes, if_pos (by omega), hsize, Nat.add_sub_cancel_left,
      ih]
    rfl

/-- A part that starts and ends where characters do is cut out. -/
theorem slice_middle (s t u : List Char) :
    slice (s ++ t ++ u) (bytes s) (bytes s + bytes t) = some t := by
  rw [slice, if_pos (Nat.le_add_right _ _), List.append_assoc, dropBytes_append, Option.bind_some,
    Nat.add_sub_cancel_left, takeBytes_append]

/-- In a string of ASCII characters, up to where it is cut, offsets count characters. -/
theorem slice_ascii (hs : Ascii s) (ht : Ascii t) (u : List Char) {start stop : Nat}
    (hstart : start = s.length) (hstop : stop = s.length + t.length) :
    slice (s ++ t ++ u) start stop = some t := by
  rw [hstart, hstop, ← hs.bytes_eq, ← ht.bytes_eq, slice_middle]

theorem sliceFrom_ascii (hs : Ascii s) (t : List Char) {start : Nat} (hstart : start = s.length) :
    sliceFrom (s ++ t) start = some t := by
  rw [hstart, ← hs.bytes_eq, sliceFrom, dropBytes_append]

/-- A string of ASCII characters is cut by their numbers. -/
theorem Ascii.slice_eq (hs : Ascii s) {start stop : Nat} (hle : start ≤ stop) (hstop : stop ≤ s.length) :
    slice s start stop = some ((s.drop start).take (stop - start)) := by
  have hsplit : s = s.take start ++ (s.drop start).take (stop - start) ++
      (s.drop start).drop (stop - start) := by
    rw [List.append_assoc, List.take_append_drop, List.take_append_drop]
  have hleft : Ascii (s.take start) := fun c hc => hs c (List.mem_of_mem_take hc)
  have hmiddle : Ascii ((s.drop start).take (stop - start)) :=
    fun c hc => hs c (List.mem_of_mem_drop (List.mem_of_mem_take hc))
  have hlength : stop = start + ((s.drop start).take (stop - start)).length := by
    rw [List.length_take, List.length_drop]
    omega
  nth_rewrite 1 [hsplit]
  apply slice_ascii hleft hmiddle
  · rw [List.length_take]
    omega
  · rw [List.length_take, Nat.min_eq_left (Nat.le_trans hle hstop)]
    exact hlength

theorem Ascii.sliceFrom_eq (hs : Ascii s) {start : Nat} (hle : start ≤ s.length) :
    sliceFrom s start = some (s.drop start) := by
  have hleft : Ascii (s.take start) := fun c hc => hs c (List.mem_of_mem_take hc)
  have h := sliceFrom_ascii hleft (s.drop start) (show start = (s.take start).length by
    rw [List.length_take, Nat.min_eq_left hle])
  rwa [List.take_append_drop] at h

end Origel.Ion
