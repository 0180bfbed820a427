import Mathlib.Algebra.Order.Ring.Int

/-! Casts between signed and unsigned words of 64 bits. -/
namespace Origel.Lib

/-- `as i64` or `as isize` of a word, a sum or a difference. -/
def asI64 (z : Int) : Int := z.bmod (2 ^ 64)

/-- `as u64` or `as usize` of a signed value. -/
def asU64 (z : Int) : Nat := (z % 2 ^ 64).toNat

theorem asI64_of_lt {n : Nat} (h : n < 2 ^ 63) : asI64 n = n := by
  rw [asI64]
  exact Int.bmod_eq_of_le (by omega) (by omega)

theorem asI64_bounds (z : Int) : -2 ^ 63 ≤ asI64 z ∧ asI64 z < 2 ^ 63 := by
  rw [asI64, Int.bmod_def]
  split <;> omega

theorem asU64_of_nonneg {z : Int} (h0 : 0 ≤ z) (h : z < 2 ^ 64) : asU64 z = z.toNat := by
  unfold asU64
  rw [Int.emod_eq_of_lt h0 h]

end Origel.Lib
