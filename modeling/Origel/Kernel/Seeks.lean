import Mathlib.Algebra.Group.Int.Defs
import Mathlib.Algebra.Group.Nat.Defs
import Mathlib.Data.Int.Order.Basic
import Origel.Lib.Casts
import Origel.Numbers

/-! The seeks of the kernel's own schemes over bytes in memory, and the position they are to move to. -/
namespace Origel.Kernel.Seeks

open Origel.Lib

inductive Errno where
  | EINVAL
  deriving DecidableEq, Repr

/-- A handle of any of the schemes, as far as its bytes go. -/
structure Handle where
  data : List UInt8
  seek : Nat

/-- The position in `len` bytes that all three schemes compute. -/
def seekWithin (len seek pos whence : Nat) : Except Errno Nat :=
  if whence = SEEK_SET then
    .ok (min len pos)
  else if whence = SEEK_CUR then
    .ok (max 0 (min (asI64 len) (asI64 (asI64 seek + asI64 pos)))).toNat
  else if whence = SEEK_END then
    .ok (max 0 (min (asI64 len) (asI64 (asI64 len + asI64 pos)))).toNat
  else
    .error .EINVAL

def Handle.move (h : Handle) (pos whence : Nat) : Except Errno (Handle × Nat) :=
  (seekWithin h.data.length h.seek pos whence).map fun seek => ({ h with seek := seek }, seek)

/-- `seek` of the three schemes, on the handle of the number -/
def InitFsScheme.seek (h : Handle) (pos whence : Nat) : Except Errno (Handle × Nat) := h.move pos whence

def EnvScheme.seek (h : Handle) (pos whence : Nat) : Except Errno (Handle × Nat) := h.move pos whence

def DiskScheme.seek (h : Handle) (pos whence : Nat) : Except Errno (Handle × Nat) := h.move pos whence

/-- A position as near to `z` as `size` bytes have one. -/
def clamp (size : Nat) (z : Int) : Nat := (max 0 (min (size : Int) z)).toNat

/-- Where a seek is to go: from the front, from the position or from the end so many bytes on, but not
out of what there is. -/
def target (size pos offset whence : Nat) : Option Nat :=
  if whence = SEEK_SET then some (min size offset)
  else if whence = SEEK_CUR then some (clamp size (pos + asI64 offset))
  else if whence = SEEK_END then some (clamp size (size + asI64 offset))
  else none

variable {size pos offset whence : Nat}

theorem target_none (h : target size pos offset whence = none) :
    whence ≠ SEEK_SET ∧ whence ≠ SEEK_CUR ∧ whence ≠ SEEK_END := by
  refine ⟨?_, ?_, ?_⟩ <;> rintro rfl <;> cases h

theorem target_some {p : Nat} (h : target size pos offset whence = some p) :
    whence = SEEK_SET ∨ whence = SEEK_CUR ∨ whence = SEEK_END := by
  by_contra hno
  simp only [not_or] at hno
  rw [target, if_neg hno.1, if_neg hno.2.1, if_neg hno.2.2] at h
  cases h

theorem clamp_le (size : Nat) (z : Int) : clamp size z ≤ size := by
  rw [clamp]
  omega

theorem target_le {p : Nat} (h : target size pos offset whence = some p) : p ≤ size := by
  rw [target] at h
  split at h
  · exact Option.some.inj h ▸ Nat.min_le_left _ _
  · split at h
    · exact Option.some.inj h ▸ clamp_le _ _
    · split at h
      · exact Option.some.inj h ▸ clamp_le _ _
      · cases h

/-- The schemes go where they are to go, as long as no sum leaves the signed numbers. -/
theorem seekWithin_eq (hsize : size < 2 ^ 63) (hpos : pos ≤ size)
    (hcur : whence = SEEK_CUR → pos + asI64 offset < 2 ^ 63)
    (hend : whence = SEEK_END → size + asI64 offset < 2 ^ 63) :
    seekWithin size pos offset whence =
      match target size pos offset whence with
      | some p => .ok p
      | none => .error .EINVAL := by
  have hlow := (asI64_bounds offset).1
  rw [seekWithin, target, asI64_of_lt hsize, asI64_of_lt (by omega : pos < 2 ^ 63)]
  split
  · rfl
  · split
    · rename_i hw
      have hsum : asI64 (pos + asI64 offset) = pos + asI64 offset :=
        Int.bmod_eq_of_le (by omega) (by have := hcur hw; omega)
      rw [hsum]
      rfl
    · split
      · rename_i hw
        have hsum : asI64 (size + asI64 offset) = size + asI64 offset :=
          Int.bmod_eq_of_le (by omega) (by have := hend hw; omega)
        rw [hsum]
        rfl
      · rfl

theorem clamp_eq_zero {z : Int} : clamp size z = 0 ↔ size = 0 ∨ z ≤ 0 := by
  rw [clamp]
  omega

/-- A sum that does not go over the front does not wrap around. -/
theorem asI64_sum_le {z : Int} (hlow : -2 ^ 63 ≤ z) (hz : pos + z ≤ 0) :
    asI64 (asI64 pos + z) ≤ 0 := by
  have hpos : asI64 pos = pos ∨ (pos : Int) = 2 ^ 63 ∧ asI64 pos = -2 ^ 63 := by
    rw [asI64, Int.bmod_def]
    split
    · omega
    · omega
  rw [asI64, Int.bmod_def]
  split
  · omega
  · omega

theorem seekWithin_none (ht : target size pos offset whence = none) :
    seekWithin size pos offset whence = .error .EINVAL := by
  obtain ⟨hset, hcur, hend⟩ := target_none ht
  rw [seekWithin, if_neg hset, if_neg hcur, if_neg hend]

/-- What is to go to the front goes there, whatever the position. -/
theorem seekWithin_front (hsize : size < 2 ^ 63) (ht : target size pos offset whence = some 0) :
    seekWithin size pos offset whence = .ok 0 := by
  have hlow := (asI64_bounds offset).1
  rw [target] at ht
  rw [seekWithin, asI64_of_lt hsize]
  split at ht
  · rename_i hw
    rw [if_pos hw, Option.some.inj ht]
  · rename_i hset
    rw [if_neg hset]
    split at ht
    · rename_i hw
      have hsum : size = 0 ∨ asI64 (asI64 pos + asI64 offset) ≤ 0 :=
        (clamp_eq_zero.mp (Option.some.inj ht)).imp_right (asI64_sum_le hlow)
      rw [if_pos hw, show (max 0 (min (size : Int) _)).toNat = 0 from clamp_eq_zero.mpr hsum]
    · rename_i hcur
      rw [if_neg hcur]
      split at ht
      · rename_i hw
        have hsum : size = 0 ∨ asI64 (size + asI64 offset) ≤ 0 := by
          refine (clamp_eq_zero.mp (Option.some.inj ht)).imp_right fun hz => ?_
          have hle := asI64_sum_le hlow hz
          rwa [asI64_of_lt hsize] at hle
        rw [if_pos hw, show (max 0 (min (size : Int) _)).toNat = 0 from clamp_eq_zero.mpr hsum]
      · cases ht

end Origel.Kernel.Seeks
