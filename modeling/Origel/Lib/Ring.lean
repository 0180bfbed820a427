import Mathlib.Data.List.Basic
import Mathlib.Data.Nat.ModEq

/-! Rings: a list of slots that is used in order, and from its end on again from its start. -/
namespace Origel.Lib.Ring

variable {α β : Type*} {R : α → β → Prop} {slots : List α} {t i j p n : Nat} {a : α} {x y : β}
  {xs : List β}

theorem offset_ne (hi : i < n) (hj : j < n) (hne : i ≠ j) : (t + i) % n ≠ (t + j) % n := by
  intro h
  have hmod : i % n = j % n := Nat.ModEq.add_left_cancel' t h
  rw [Nat.mod_eq_of_lt hi, Nat.mod_eq_of_lt hj] at hmod
  exact hne hmod

/-- The slots from `t` on hold the entries `xs`, each in its turn. -/
def Holds (R : α → β → Prop) (slots : List α) (t : Nat) (xs : List β) : Prop :=
  xs.length ≤ slots.length ∧
    ∀ i x, xs[i]? = some x → ∃ a, slots[(t + i) % slots.length]? = some a ∧ R a x

theorem holds_nil : Holds R slots t [] := ⟨Nat.zero_le _, fun i x h => by cases h⟩

namespace Holds

theorem head (h : Holds R slots t (x :: xs)) :
    ∃ a, slots[t % slots.length]? = some a ∧ R a x := h.2 0 x rfl

theorem tail (h : Holds R slots t (x :: xs)) : Holds R slots (t + 1) xs := by
  refine ⟨Nat.le_of_succ_le h.1, ?_⟩
  intro i y hy
  obtain ⟨a, ha, hR⟩ := h.2 (i + 1) y hy
  rw [show t + (i + 1) = t + 1 + i by omega] at ha
  exact ⟨a, ha, hR⟩

/-- A slot past the entries is free to be overwritten. -/
theorem set (h : Holds R slots t xs) (hle : xs.length ≤ j) (hj : j < slots.length) :
    Holds R (slots.set ((t + j) % slots.length) a) t xs := by
  refine ⟨by rw [List.length_set]; exact h.1, ?_⟩
  intro i x hx
  have hi : i < xs.length := (List.getElem?_eq_some_iff.mp hx).1
  obtain ⟨b, hb, hR⟩ := h.2 i x hx
  have hne : (t + j) % slots.length ≠ (t + i) % slots.length :=
    offset_ne hj (by omega) (by omega)
  rw [List.length_set, List.getElem?_set_ne hne]
  exact ⟨b, hb, hR⟩

/-- The slot after the entries takes one more. -/
theorem push (h : Holds R slots t xs) (hlt : xs.length < slots.length) (hR : R a x) :
    Holds R (slots.set ((t + xs.length) % slots.length) a) t (xs ++ [x]) := by
  have hset := h.set (a := a) (Nat.le_refl _) hlt
  refine ⟨by rw [List.length_set, List.length_append]; exact hlt, ?_⟩
  intro i y hy
  rcases Nat.lt_or_ge i xs.length with hi | hi
  · rw [List.getElem?_append_left hi] at hy
    exact hset.2 i y hy
  · rw [List.getElem?_append_right hi] at hy
    obtain ⟨hi', rfl⟩ := List.getElem?_eq_some_iff.mp hy
    have heq : i = xs.length := by
      simp only [List.length_singleton] at hi'
      omega
    subst heq
    refine ⟨a, ?_, by simpa using hR⟩
    rw [List.length_set, List.getElem?_set_self (Nat.mod_lt _ (by omega))]

/-- The slot of the first entry is overwritten with another that holds it. -/
theorem set_head (h : Holds R slots t (x :: xs)) (hR : R a y) :
    Holds R (slots.set (t % slots.length) a) t (y :: xs) := by
  have hpos : 0 < slots.length := Nat.lt_of_lt_of_le (Nat.succ_pos _) h.1
  refine ⟨by rw [List.length_set]; exact h.1, ?_⟩
  intro i z hz
  cases i with
  | zero =>
    cases hz
    refine ⟨a, ?_, hR⟩
    rw [List.length_set, Nat.add_zero, List.getElem?_set_self (Nat.mod_lt _ hpos)]
  | succ i =>
    obtain ⟨b, hb, hbz⟩ := h.2 (i + 1) z hz
    have hi : i < xs.length := Nat.lt_of_succ_lt_succ (List.getElem?_eq_some_iff.mp hz).1
    have hlen := h.1
    rw [List.length_cons] at hlen
    have hne : t % slots.length ≠ (t + (i + 1)) % slots.length :=
      offset_ne hpos (by omega) (by omega)
    rw [List.length_set, List.getElem?_set_ne hne]
    exact ⟨b, hb, hbz⟩

/-- The first entry is taken out, and its slot overwritten. -/
theorem pop (h : Holds R slots t (x :: xs)) : Holds R (slots.set (t % slots.length) a) (t + 1) xs := by
  have hle := h.1
  rw [List.length_cons] at hle
  have hset := h.tail.set (a := a) (j := slots.length - 1) (by omega) (by omega)
  rwa [show t + 1 + (slots.length - 1) = t + slots.length by omega, Nat.add_mod_right] at hset

end Holds

/-- Exactly the first `p` slots from `t` on are marked. -/
structure Marked (P : α → Prop) (slots : List α) (t p : Nat) : Prop where
  le : p ≤ slots.length
  iff : ∀ k < slots.length, (∃ a, slots[(t + k) % slots.length]? = some a ∧ P a) ↔ k < p

namespace Marked

variable {P : α → Prop}

/-- The slot after the marked ones is marked. -/
theorem push (h : Marked P slots t p) (hlt : p < slots.length) (ha : P a) :
    Marked P (slots.set ((t + p) % slots.length) a) t (p + 1) := by
  have hpos : 0 < slots.length := Nat.lt_of_le_of_lt (Nat.zero_le p) hlt
  refine ⟨by rw [List.length_set]; exact hlt, ?_⟩
  rw [List.length_set]
  intro k hk
  rcases Nat.lt_trichotomy k p with hkp | rfl | hkp
  · rw [List.getElem?_set_ne (offset_ne hlt hk (by omega)), h.iff k hk]
    omega
  · rw [List.getElem?_set_self (Nat.mod_lt _ hpos)]
    exact ⟨fun _ => Nat.lt_succ_self k, fun _ => ⟨a, rfl, ha⟩⟩
  · rw [List.getElem?_set_ne (offset_ne hlt hk (by omega)), h.iff k hk]
    omega

/-- The first of the marked slots is not marked any more. -/
theorem pop (h : Marked P slots t (p + 1)) (ha : ¬ P a) :
    Marked P (slots.set (t % slots.length) a) (t + 1) p := by
  have hle := h.le
  have hpos : 0 < slots.length := Nat.lt_of_lt_of_le (Nat.succ_pos p) hle
  refine ⟨by rw [List.length_set]; omega, ?_⟩
  rw [List.length_set]
  intro k hk
  by_cases hlast : k + 1 = slots.length
  · have hslot : (t + 1 + k) % slots.length = t % slots.length := by
      rw [show t + 1 + k = t + (k + 1) by omega, hlast, Nat.add_mod_right]
    rw [hslot, List.getElem?_set_self (Nat.mod_lt _ hpos)]
    refine ⟨?_, by omega⟩
    rintro ⟨b, hb, hP⟩
    cases hb
    exact (ha hP).elim
  · have hne : t % slots.length ≠ (t + (k + 1)) % slots.length :=
      offset_ne hpos (by omega) (by omega)
    rw [show t + 1 + k = t + (k + 1) by omega, List.getElem?_set_ne hne, h.iff (k + 1) (by omega)]
    omega

/-- A slot is overwritten and stays as it was marked. -/
theorem keep {b : α} (h : Marked P slots t p) (hb : slots[j]? = some b) (ha : P a ↔ P b) :
    Marked P (slots.set j a) t p := by
  have hj : j < slots.length := (List.getElem?_eq_some_iff.mp hb).1
  refine ⟨by rw [List.length_set]; exact h.le, ?_⟩
  rw [List.length_set]
  intro k hk
  rw [← h.iff k hk]
  by_cases hjk : j = (t + k) % slots.length
  · subst hjk
    rw [List.getElem?_set_self hj, hb]
    exact ⟨fun ⟨c, hc, hP⟩ => by cases hc; exact ⟨b, rfl, ha.mp hP⟩,
      fun ⟨c, hc, hP⟩ => by cases hc; exact ⟨a, rfl, ha.mpr hP⟩⟩
  · rw [List.getElem?_set_ne hjk]

/-- The slots that are not marked follow on the marked ones. -/
theorem compl (h : Marked P slots t p) :
    Marked (fun a => ¬ P a) slots (t + p) (slots.length - p) := by
  have hle := h.le
  refine ⟨Nat.sub_le _ _, ?_⟩
  intro k hk
  have hpos : 0 < slots.length := Nat.lt_of_le_of_lt (Nat.zero_le k) hk
  have hslot : (t + p + k) % slots.length = (t + (p + k) % slots.length) % slots.length := by
    rw [Nat.add_mod_mod, Nat.add_assoc]
  have hlt := Nat.mod_lt (p + k) hpos
  have hiff := h.iff _ hlt
  rw [← hslot] at hiff
  have hslot' : (t + p + k) % slots.length < slots.length := Nat.mod_lt _ hpos
  rw [List.getElem?_eq_getElem hslot'] at hiff ⊢
  have hnot : (∃ a, some slots[(t + p + k) % slots.length] = some a ∧ ¬ P a) ↔
      ¬ ∃ a, some slots[(t + p + k) % slots.length] = some a ∧ P a := by
    constructor
    · rintro ⟨b, hb, hP⟩ ⟨c, hc, hP'⟩
      cases hb.symm.trans hc
      exact hP hP'
    · intro hnone
      exact ⟨_, rfl, fun hP => hnone ⟨_, rfl, hP⟩⟩
  rw [hnot, hiff]
  rcases Nat.lt_or_ge (p + k) slots.length with hin | hin
  · rw [Nat.mod_eq_of_lt hin]
    omega
  · rw [Nat.mod_eq_sub_mod hin, Nat.mod_eq_of_lt (by omega)]
    omega

end Marked

/-- How far `i` is from `start` on the way round the ring. -/
def distance (n start i : Nat) : Nat := if start ≤ i then i - start else n - start + i

/-- The slot behind the first `p` from `start` on. -/
def behind (n start p : Nat) : Nat := if start + p < n then start + p else start + p - n

/-- A search upwards from `i` on that comes to any slot past the first `p` comes to the one right
behind them before. -/
def Leads (n start p i : Nat) : Prop :=
  ∀ j, i ≤ j → j < n → p ≤ distance n start j → i ≤ behind n start p ∧ behind n start p ≤ j

theorem distance_cases (n start i : Nat) :
    start ≤ i ∧ distance n start i = i - start ∨
      i < start ∧ distance n start i = n - start + i := by
  unfold distance
  split <;> omega

theorem behind_cases (n start p : Nat) :
    start + p < n ∧ behind n start p = start + p ∨
      n ≤ start + p ∧ behind n start p = start + p - n := by
  unfold behind
  split <;> omega

section Distance

variable {start : Nat} (hs : start < n)
include hs

theorem distance_lt (hi : i < n) : distance n start i < n := by
  have hdistance := distance_cases n start i
  omega

theorem add_distance (hi : i < n) : (start + distance n start i) % n = i := by
  rcases distance_cases n start i with ⟨hle, hd⟩ | ⟨-, hd⟩
  · rw [hd, Nat.add_sub_cancel' hle, Nat.mod_eq_of_lt hi]
  · rw [hd, show start + (n - start + i) = i + n by omega, Nat.add_mod_right, Nat.mod_eq_of_lt hi]

theorem behind_eq (hp : p ≤ n) : behind n start p = (start + p) % n := by
  rcases behind_cases n start p with ⟨hlt, hb⟩ | ⟨hge, hb⟩
  · rw [hb, Nat.mod_eq_of_lt hlt]
  · rw [hb, Nat.mod_eq_sub_mod hge, Nat.mod_eq_of_lt (by omega)]

/-- From its start on a ring is searched well if the first slots begin there or reach its end. -/
theorem leads_start (hp : p ≤ n) (h : start = 0 ∨ distance n start (n - 1) < p) :
    Leads n start p 0 := by
  intro j hij hj hfar
  have hdistance := distance_cases n start j
  have hlast := distance_cases n start (n - 1)
  have hbehind := behind_cases n start p
  omega

/-- One of the first slots is passed. -/
theorem Leads.succ (h : Leads n start p i) (hnear : distance n start i < p) :
    Leads n start p (i + 1) := by
  intro j hij hj hfar
  have hle := h j (by omega) hj hfar
  have hdistance := distance_cases n start i
  have hdistance' := distance_cases n start j
  have hbehind := behind_cases n start p
  omega

theorem Leads.found (h : Leads n start p i) (hi : i < n) (hfar : p ≤ distance n start i) :
    i = behind n start p ∧ p < n := by
  have hle := h i (Nat.le_refl i) hi hfar
  exact ⟨by omega, Nat.lt_of_le_of_lt hfar (distance_lt hs hi)⟩

/-- The first slot is one of the others from now on. A search that is still to come to it must find
the last slot among the first ones, and, where it is the next to be looked at, the one before too. -/
theorem Leads.pop (h : Leads n start (p + 1) i) (hp : p + 1 ≤ n)
    (hlast : i ≤ start → distance n start (n - 1) < p + 1)
    (hprevious : i = start → 0 < i → distance n start (i - 1) < p + 1) :
    Leads n (if start + 1 = n then 0 else start + 1) p i := by
  intro j hij hj hfar
  have hend : distance n start (n - 1) = n - 1 - start := if_pos (by omega)
  rw [hend] at hlast
  have hsame : behind n (if start + 1 = n then 0 else start + 1) p = behind n start (p + 1) ∨
      p + 1 = n ∧ behind n (if start + 1 = n then 0 else start + 1) p = start := by
    unfold behind
    split <;> split <;> split <;> omega
  by_cases hfree : j = start
  · -- The slot that is free from now on.
    subst hfree
    have hfirst := h i (Nat.le_refl i) (Nat.lt_of_le_of_lt hij hj)
    have hl := hlast hij
    have hbehind := behind_cases n j (p + 1)
    rcases distance_cases n j i with ⟨hle, -⟩ | ⟨hlt, hd⟩
    · have heq : i = j := Nat.le_antisymm hij hle
      rcases Nat.eq_zero_or_pos i with hzero | hpos
      · omega
      · have hp := hprevious heq hpos
        have hd : distance n j (i - 1) = n - j + (i - 1) := if_neg (by omega)
        omega
    · omega
  · have hfirst := h j hij hj
    have hnear : distance n start j = distance n (if start + 1 = n then 0 else start + 1) j + 1 := by
      unfold distance
      split <;> split <;> split <;> omega
    have hlt := distance_lt hs hj
    omega

end Distance

/-- What is marked is what is near enough to the first marked slot. -/
theorem Marked.at {P : α → Prop} (h : Marked P slots t p) (hj : j < slots.length) :
    (∃ a, slots[j]? = some a ∧ P a) ↔ distance slots.length (t % slots.length) j < p := by
  have ht := Nat.mod_lt t (Nat.lt_of_le_of_lt (Nat.zero_le j) hj)
  have hiff := h.iff _ (distance_lt ht hj)
  rw [← Nat.mod_add_mod, add_distance ht hj] at hiff
  exact hiff

end Origel.Lib.Ring
