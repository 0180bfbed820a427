import Mathlib.Data.List.Basic
import Mathlib.Data.Nat.Log
import Mathlib.Tactic.Ring
import Mathlib.Tactic.Linarith

/-! First fit: blocks laid one after the other, and how far they reach. -/
namespace Origel.Lib

/-- A block of addresses. -/
structure Block where
  start : Nat
  size : Nat
  deriving DecidableEq, Repr

namespace Block

def stop (b : Block) : Nat := b.start + b.size

end Block

open Block

variable {base need lo a : Nat} {b c : Block} {l pre post : List Block}

/-- Blocks in order, none empty, the first from `lo` on and each from the end of the one before. -/
def Laid (lo : Nat) : List Block → Prop
  | [] => True
  | b :: l => lo ≤ b.start ∧ 0 < b.size ∧ Laid b.stop l

/-- The first gap with more than `need` addresses, or the end. -/
def firstFit (need : Nat) (lo : Nat) : List Block → Nat × List Block × List Block
  | [] => (lo, [], [])
  | b :: l =>
    if lo + need < b.start then (lo, [], b :: l)
    else
      let r := firstFit need b.stop l
      (r.1, b :: r.2.1, r.2.2)

def total (l : List Block) : Nat := (l.map size).sum

theorem firstFit_append (need lo : Nat) (l : List Block) :
    (firstFit need lo l).2.1 ++ (firstFit need lo l).2.2 = l := by
  induction l generalizing lo with
  | nil => rfl
  | cons b l ih =>
    unfold firstFit
    split
    · rfl
    · simp [ih]

theorem Laid.le (h : Laid lo l) (hb : b ∈ l) : lo ≤ b.start := by
  induction l generalizing lo with
  | nil => cases hb
  | cons c l ih =>
    rcases List.mem_cons.mp hb with rfl | hb
    · exact h.1
    · have := ih h.2.2 hb
      have := h.1
      unfold stop at *
      omega

theorem Laid.pos (h : Laid lo l) (hb : b ∈ l) : 0 < b.size := by
  induction l generalizing lo with
  | nil => cases hb
  | cons c l ih =>
    rcases List.mem_cons.mp hb with rfl | hb
    · exact h.2.1
    · exact ih h.2.2 hb

theorem Laid.mono {lo' : Nat} (h : Laid lo l) (hle : lo' ≤ lo) : Laid lo' l := by
  cases l with
  | nil => trivial
  | cons b l => exact ⟨hle.trans h.1, h.2⟩

/-- No two blocks meet, and an earlier one ends before a later one starts. -/
theorem Laid.pairwise (h : Laid lo l) : l.Pairwise fun b c => b.stop ≤ c.start := by
  induction l generalizing lo with
  | nil => exact .nil
  | cons b l ih => exact .cons (fun c hc => h.2.2.le hc) (ih h.2.2)

theorem Laid.insert (h : Laid lo l) (hn : 0 < need) :
    Laid lo ((firstFit need lo l).2.1 ++ ⟨(firstFit need lo l).1, need⟩ :: (firstFit need lo l).2.2) := by
  induction l generalizing lo with
  | nil => exact ⟨le_rfl, hn, trivial⟩
  | cons b l ih =>
    unfold firstFit
    split
    next hlt => exact ⟨le_rfl, hn, hlt.le, h.2⟩
    next => exact ⟨h.1, h.2.1, ih h.2.2⟩

theorem Laid.remove (h : Laid lo (pre ++ b :: post)) : Laid lo (pre ++ post) := by
  induction pre generalizing lo with
  | nil =>
    refine h.2.2.mono ?_
    have := h.1
    unfold stop
    omega
  | cons c pre ih => exact ⟨h.1, h.2.1, ih h.2.2⟩

/-- An address is in one block at most. -/
theorem Laid.eq_of_mem {α : Type*} {f : α → Block} {xs : List α} {x y : α} (h : Laid lo (xs.map f))
    (hx : x ∈ xs) (hy : y ∈ xs) (hax : (f x).start ≤ a ∧ a < (f x).stop)
    (hay : (f y).start ≤ a ∧ a < (f y).stop) : x = y := by
  induction xs generalizing lo with
  | nil => cases hx
  | cons z xs ih =>
    rcases List.mem_cons.mp hx with rfl | hx' <;> rcases List.mem_cons.mp hy with rfl | hy'
    · rfl
    · have := h.2.2.le (List.mem_map_of_mem hy')
      omega
    · have := h.2.2.le (List.mem_map_of_mem hx')
      omega
    · exact ih h.2.2 hx' hy'

/-- How far a block of its size may reach, where no more than `limit` addresses are in blocks: small
blocks stay near the base, since only small gaps are left behind them. -/
def Near (base limit : Nat) (l : List Block) : Prop :=
  ∀ b ∈ l, ∀ k, b.size < 2 ^ k → b.stop ≤ base + 3 * limit * k

theorem Near.of_subset {limit : Nat} {l' : List Block} (h : Near base limit l) (hs : l' ⊆ l) :
    Near base limit l' := fun b hb => h b (hs hb)

/-- Every block that the search passes is small, and then near, or large, and then larger than
half of the gap before it. -/
theorem firstFit_le {bound k : Nat} (hk : need < 2 ^ (k + 1)) (hto : lo ≤ bound)
    (hsmall : ∀ b ∈ l, b.size < 2 ^ k → b.stop ≤ bound) :
    (firstFit need lo l).1 ≤ bound + 3 * total l := by
  induction l generalizing lo bound with
  | nil => exact hto.trans (Nat.le_add_right _ _)
  | cons b l ih =>
    unfold firstFit
    split
    · exact hto.trans (Nat.le_add_right _ _)
    next hge =>
      have hstop : b.stop ≤ bound + 3 * b.size := by
        by_cases hb : b.size < 2 ^ k
        · exact (hsmall b List.mem_cons_self hb).trans (Nat.le_add_right _ _)
        · rw [pow_succ] at hk
          unfold stop
          omega
      have hrest := ih hstop fun c hc hck =>
        (hsmall c (List.mem_cons_of_mem _ hc) hck).trans (Nat.le_add_right _ _)
      have htotal : total (b :: l) = b.size + total l := by simp [total]
      show (firstFit need b.stop l).1 ≤ _
      omega

theorem Near.insert {limit : Nat} (h : Near base limit l) (hn : 0 < need)
    (hfit : total l + need ≤ limit) :
    Near base limit
      ((firstFit need base l).2.1 ++ ⟨(firstFit need base l).1, need⟩ :: (firstFit need base l).2.2) := by
  intro b hb k hk
  rcases List.mem_append.mp hb with hb | hb
  · exact h b (firstFit_append need base l ▸ List.mem_append_left _ hb) k hk
  rcases List.mem_cons.mp hb with rfl | hb
  · -- the new block, of a size from 2 ^ j lo 2 ^ (j + 1)
    obtain ⟨j, hj⟩ : ∃ j, j = Nat.log 2 need := ⟨_, rfl⟩
    have hlow : 2 ^ j ≤ need := hj ▸ Nat.pow_log_le_self 2 (by omega)
    have hhigh : need < 2 ^ (j + 1) := hj ▸ Nat.lt_pow_succ_log_self (by omega) need
    have hle := firstFit_le hhigh (show base ≤ base + 3 * limit * j by omega)
      (fun c hc hcj => h c hc j hcj)
    have hjk : j + 1 ≤ k := by
      have : 2 ^ j < 2 ^ k := lt_of_le_of_lt hlow hk
      exact (Nat.pow_lt_pow_iff_right (by omega)).mp this
    calc (firstFit need base l).1 + need
        ≤ base + 3 * limit * j + 3 * total l + need := by omega
      _ ≤ base + 3 * limit * j + 3 * limit := by omega
      _ = base + 3 * limit * (j + 1) := by ring
      _ ≤ base + 3 * limit * k := by gcongr
  · exact h b (firstFit_append need base l ▸ List.mem_append_right _ hb) k hk

end Origel.Lib
