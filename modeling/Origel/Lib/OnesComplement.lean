import Mathlib.Algebra.BigOperators.Group.List.Basic
import Mathlib.Data.Nat.ModEq

/-! One's complement sums: addition in which a carry out of the top comes back at the bottom. -/
namespace Origel.Lib

variable {b m n : Nat} {ws : List Nat}

/-- The sum of two words below `b`, with the carry added back. -/
def onesAdd (b m n : Nat) : Nat := if m + n < b then m + n else m + n - b + 1

def onesSum (b : Nat) (ws : List Nat) : Nat := ws.foldl (onesAdd b) 0

/-- A plain sum with its carries added back at once. -/
def carry (b n : Nat) : Nat := n % b + n / b

/-- The word that any folding of the carries comes to. -/
def folded (b n : Nat) : Nat := if n = 0 then 0 else (n - 1) % (b - 1) + 1

@[simp] theorem folded_zero (b : Nat) : folded b 0 = 0 := rfl

theorem folded_pos (h : 0 < n) : folded b n = (n - 1) % (b - 1) + 1 := if_neg (by omega)

theorem folded_lt (hb : 2 ≤ b) (n : Nat) : folded b n < b := by
  have hmod := Nat.mod_lt (n - 1) (show 0 < b - 1 by omega)
  unfold folded
  split <;> omega

theorem folded_of_lt (hb : 2 ≤ b) (h : n < b) : folded b n = n := by
  rcases Nat.eq_zero_or_pos n with rfl | hpos
  · rfl
  · rw [folded_pos hpos, Nat.mod_eq_of_lt (by omega)]
    omega

/-- Sums that differ by all-ones words fold to the same word, but for the sum zero. -/
theorem folded_congr (hm : 0 < m) (hn : 0 < n) (h : m ≡ n [MOD b - 1]) :
    folded b m = folded b n := by
  have hpred : m - 1 ≡ n - 1 [MOD b - 1] := by
    apply Nat.ModEq.add_right_cancel' 1
    rwa [Nat.sub_add_cancel hm, Nat.sub_add_cancel hn]
  rw [folded_pos hm, folded_pos hn, hpred]

theorem modEq_carry (hb : 2 ≤ b) (n : Nat) : carry b n ≡ n [MOD b - 1] := by
  have hn := Nat.mod_add_div n b
  have hsplit : n = carry b n + (b - 1) * (n / b) := by
    have hmul : b * (n / b) = n / b + (b - 1) * (n / b) := by
      rw [Nat.sub_mul, Nat.one_mul, Nat.add_sub_cancel' (Nat.le_mul_of_pos_left _ (by omega))]
    unfold carry
    omega
  show carry b n % (b - 1) = n % (b - 1)
  conv_rhs => rw [hsplit]
  rw [Nat.add_mul_mod_self_left]

theorem carry_pos (hb : 2 ≤ b) (h : 0 < n) : 0 < carry b n := by
  unfold carry
  by_cases hlt : n < b
  · rw [Nat.mod_eq_of_lt hlt]
    exact Nat.add_pos_left h _
  · have hdiv := Nat.div_pos (show b ≤ n by omega) (by omega)
    exact Nat.add_pos_right _ hdiv

theorem carry_lt (hb : 2 ≤ b) (h : b ≤ n) : carry b n < n := by
  have hn := Nat.mod_add_div n b
  have hdiv := Nat.div_pos h (by omega)
  have hmul : 2 * (n / b) ≤ b * (n / b) := Nat.mul_le_mul_right _ hb
  unfold carry
  omega

@[simp] theorem folded_carry (hb : 2 ≤ b) (n : Nat) : folded b (carry b n) = folded b n := by
  rcases Nat.eq_zero_or_pos n with rfl | hpos
  · simp [carry]
  · exact folded_congr (carry_pos hb hpos) hpos (modEq_carry hb n)

theorem folded_eq_top (hb : 2 ≤ b) : folded b n = b - 1 ↔ 0 < n ∧ b - 1 ∣ n := by
  rcases Nat.eq_zero_or_pos n with rfl | hpos
  · simp only [folded_zero]
    omega
  · have hmod := Nat.mod_lt (n - 1) (show 0 < b - 1 by omega)
    rw [folded_pos hpos]
    constructor
    · intro h
      refine ⟨hpos, ?_⟩
      have hn := Nat.mod_add_div (n - 1) (b - 1)
      have hsum : n = (b - 1) * ((n - 1) / (b - 1) + 1) := by
        rw [Nat.mul_add, Nat.mul_one]
        omega
      exact Dvd.intro _ hsum.symm
    · rintro ⟨_, k, rfl⟩
      obtain ⟨j, rfl⟩ := Nat.exists_eq_succ_of_ne_zero (show k ≠ 0 by rintro rfl; omega)
      have hpred : (b - 1) * (j + 1) - 1 = (b - 1) - 1 + (b - 1) * j := by
        rw [Nat.mul_add, Nat.mul_one]
        omega
      rw [Nat.succ_eq_add_one, hpred, Nat.add_mul_mod_self_left, Nat.mod_eq_of_lt (by omega)]
      omega

/-- A word that a sum lacks makes it a multiple of the all-ones word. -/
theorem dvd_add_complement (hb : 2 ≤ b) (n : Nat) : b - 1 ∣ n + (b - 1 - folded b n) := by
  rcases Nat.eq_zero_or_pos n with rfl | hpos
  · simp
  · have hn := Nat.mod_add_div (n - 1) (b - 1)
    have hmod := Nat.mod_lt (n - 1) (show 0 < b - 1 by omega)
    rw [folded_pos hpos]
    have hsum : n + (b - 1 - ((n - 1) % (b - 1) + 1)) = (b - 1) * ((n - 1) / (b - 1) + 1) := by
      rw [Nat.mul_add, Nat.mul_one]
      omega
    exact Dvd.intro _ hsum.symm

theorem add_complement_pos (hb : 2 ≤ b) (n : Nat) : 0 < n + (b - 1 - folded b n) := by
  rcases Nat.eq_zero_or_pos n with rfl | hpos
  · rw [folded_zero]
    omega
  · exact Nat.add_pos_left hpos _

theorem folded_le_top (hb : 2 ≤ b) (n : Nat) : folded b n ≤ b - 1 :=
  Nat.le_sub_one_of_lt (folded_lt hb n)

/-- Just one word below the all-ones word completes a sum. -/
theorem eq_complement_iff {c : Nat} (hb : 2 ≤ b) (hn : 0 < n) (hc : c < b) :
    c = b - 1 - folded b n ↔ c ≠ b - 1 ∧ b - 1 ∣ n + c := by
  have hpos : 0 < folded b n := by
    rw [folded_pos hn]
    exact Nat.succ_pos _
  have hle := folded_le_top hb n
  constructor
  · rintro rfl
    exact ⟨by omega, dvd_add_complement hb n⟩
  · rintro ⟨hne, hdvd⟩
    have hmod : n + c ≡ n + (b - 1 - folded b n) [MOD b - 1] :=
      ((Nat.modEq_zero_iff_dvd).mpr hdvd).trans
        ((Nat.modEq_zero_iff_dvd).mpr (dvd_add_complement hb n)).symm
    exact (hmod.add_left_cancel' n).eq_of_lt_of_lt (by omega) (by omega)

theorem onesAdd_folded (hb : 2 ≤ b) (m : Nat) (h : n < b) :
    onesAdd b (folded b m) n = folded b (m + n) := by
  have hlt := folded_lt hb m
  rcases Nat.eq_zero_or_pos m with rfl | hm
  · simp only [folded_zero, onesAdd, Nat.zero_add, if_pos h, folded_of_lt hb h]
  · have hmod : folded b m ≡ m [MOD b - 1] := by
      have h := Nat.mod_modEq (m - 1) (b - 1)
      have hsucc := h.add_right 1
      rwa [Nat.sub_add_cancel hm, ← folded_pos hm] at hsucc
    have hpos : 0 < folded b m := by
      rw [folded_pos hm]
      exact Nat.succ_pos _
    rw [folded_congr (by omega) (by omega) (hmod.symm.add_right n)]
    unfold onesAdd
    split
    next hsmall => exact (folded_of_lt hb hsmall).symm
    next hlarge =>
      generalize folded b m = top at *
      rw [folded_pos (by omega), Nat.mod_eq_sub_mod (by omega), Nat.mod_eq_of_lt (by omega)]
      omega

/-- Word by word or all at once, the sum is the same. -/
theorem onesSum_eq (hb : 2 ≤ b) (hws : ∀ w ∈ ws, w < b) : onesSum b ws = folded b ws.sum := by
  have hrun : ∀ m, ws.foldl (onesAdd b) (folded b m) = folded b (m + ws.sum) := by
    induction ws with
    | nil => exact fun m => rfl
    | cons w ws ih =>
      intro m
      rw [List.foldl_cons, onesAdd_folded hb m (hws w List.mem_cons_self),
        ih fun w hw => hws w (List.mem_cons_of_mem _ hw), List.sum_cons, Nat.add_assoc]
  have h := hrun 0
  rwa [folded_zero, Nat.zero_add] at h

end Origel.Lib
