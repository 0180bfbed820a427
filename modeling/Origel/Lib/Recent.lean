import Origel.Lib.Ordered

/-! What was used last, as an account of all uses tells it. -/
namespace Origel.Lib.Recent

variable {K V : Type*} [DecidableEq K] {hist xs l : List (K × V)} {k : K} {v : V} {n : Nat}

/-- The last use of each key, the most recent one first. -/
def distinct : List (K × V) → List (K × V)
  | [] => []
  | e :: hist => e :: Ordered.erase (distinct hist) e.1

/-- The last `n` keys that were used, with what they had then. -/
def recent (n : Nat) (hist : List (K × V)) : List (K × V) := (distinct hist).take n

theorem nodup_erase (h : (l.map Prod.fst).Nodup) (k : K) : ((Ordered.erase l k).map Prod.fst).Nodup :=
  h.sublist (List.filter_sublist.map _)

theorem not_mem_erase (l : List (K × V)) (k : K) : k ∉ (Ordered.erase l k).map Prod.fst := by
  intro hk
  obtain ⟨e, he, rfl⟩ := List.mem_map.mp hk
  have hne := (List.mem_filter.mp he).2
  simp at hne

theorem nodup_distinct (hist : List (K × V)) : ((distinct hist).map Prod.fst).Nodup := by
  induction hist with
  | nil => exact .nil
  | cons e hist ih => exact List.nodup_cons.mpr ⟨not_mem_erase _ e.1, nodup_erase ih e.1⟩

theorem nodup_recent (n : Nat) (hist : List (K × V)) : ((recent n hist).map Prod.fst).Nodup :=
  (nodup_distinct hist).sublist ((List.take_sublist n _).map _)

/-- What is beyond the first `n` entries does not come among them when one more is put in front. -/
theorem take_erase (h : (xs.map Prod.fst).Nodup) (n : Nat) (k : K) :
    (Ordered.erase (xs.take (n + 1)) k).take n = (Ordered.erase xs k).take n := by
  induction xs generalizing n with
  | nil => rfl
  | cons e xs ih =>
    obtain ⟨he, hxs⟩ := List.nodup_cons.mp h
    rw [List.take_succ_cons]
    by_cases hk : e.1 = k
    · have hne : ∀ d ∈ xs, d.1 ≠ k := by
        rintro d hd rfl
        exact he (hk ▸ List.mem_map_of_mem hd)
      have htake : Ordered.erase (xs.take n) k = xs.take n :=
        Ordered.erase_of_forall fun d hd => hne d (List.mem_of_mem_take hd)
      have hall : Ordered.erase xs k = xs := Ordered.erase_of_forall hne
      rw [Ordered.erase] at htake hall ⊢
      rw [Ordered.erase, List.filter_cons_of_neg (by simpa using hk), List.filter_cons_of_neg (by simpa using hk),
        htake, hall, List.take_take, Nat.min_self]
    · rw [Ordered.erase, Ordered.erase, List.filter_cons_of_pos (by simpa using hk),
        List.filter_cons_of_pos (by simpa using hk)]
      cases n with
      | zero => rfl
      | succ n =>
        rw [List.take_succ_cons, List.take_succ_cons]
        exact congrArg _ (ih hxs n)

/-- A use comes first, and the last key may fall out. -/
theorem recent_cons (n : Nat) (k : K) (v : V) (hist : List (K × V)) :
    recent n ((k, v) :: hist) = ((k, v) :: Ordered.erase (recent n hist) k).take n := by
  cases n with
  | zero => rfl
  | succ n =>
    rw [recent, distinct, List.take_succ_cons, List.take_succ_cons, recent,
      take_erase (nodup_distinct hist) n k]

theorem length_recent (n : Nat) (hist : List (K × V)) : (recent n hist).length ≤ n := List.length_take_le _ _

/-- The same entries in the opposite order have the same values. -/
theorem get_reverse (h : (l.map Prod.fst).Nodup) (k : K) : Ordered.get l.reverse k = Ordered.get l k := by
  by_cases hk : ∃ v, (k, v) ∈ l
  · obtain ⟨v, hv⟩ := hk
    obtain ⟨xs, ys, rfl⟩ := List.append_of_mem hv
    have hr : (((ys.reverse ++ (k, v) :: xs.reverse).map Prod.fst)).Nodup := by
      have := (List.reverse_perm (xs ++ (k, v) :: ys)).map Prod.fst
      rw [List.reverse_append, List.reverse_cons, List.append_assoc] at this
      exact this.nodup_iff.mpr h
    rw [Ordered.get_of_split h, List.reverse_append, List.reverse_cons, List.append_assoc]
    exact Ordered.get_of_split hr
  · have hne : ∀ e ∈ l, e.1 ≠ k := by
      rintro ⟨k', v⟩ he rfl
      exact hk ⟨v, he⟩
    rw [Ordered.get_of_forall hne, Ordered.get_of_forall fun e he => hne e (List.mem_reverse.mp he)]

/-- The entries of a cache, the oldest first, are the last `n` that were used. -/
def Kept (n : Nat) (hist l : List (K × V)) : Prop := l.reverse = recent n hist

theorem Kept.nodup (h : Kept n hist l) : (l.map Prod.fst).Nodup := by
  have hr : (l.reverse.map Prod.fst).Nodup := by
    rw [h]
    exact nodup_recent n hist
  exact (((List.reverse_perm l).map Prod.fst).nodup_iff).mp hr

theorem Kept.length_le (h : Kept n hist l) : l.length ≤ n := by
  rw [← List.length_reverse, h]
  exact length_recent n hist

theorem Kept.get (h : Kept n hist l) (k : K) : Ordered.get l k = Ordered.get (recent n hist) k := by
  rw [← get_reverse h.nodup, h]

theorem erase_reverse (l : List (K × V)) (k : K) : (Ordered.erase l k).reverse = Ordered.erase l.reverse k :=
  (List.filter_reverse ..).symm

/-- An entry is put last, and the first one goes if there are too many. -/
theorem Kept.put (h : Kept n hist l) (k : K) (v : V) :
    Kept n ((k, v) :: hist) (if (Ordered.put l k v).length > n then (Ordered.put l k v).tail
      else Ordered.put l k v) := by
  have hrev : (Ordered.put l k v).reverse = (k, v) :: Ordered.erase (recent n hist) k := by
    rw [Ordered.put, List.reverse_append, erase_reverse, h]
    rfl
  have hle : (Ordered.put l k v).length ≤ n + 1 := by
    rw [← List.length_reverse, hrev, List.length_cons]
    exact Nat.succ_le_succ (Nat.le_trans (List.length_filter_le ..) (length_recent n hist))
  unfold Kept
  rw [recent_cons, ← hrev]
  split
  · have hlen : (Ordered.put l k v).length = n + 1 := by omega
    rw [← List.dropLast_reverse, List.dropLast_eq_take, List.length_reverse, hlen]
    rfl
  · rw [List.take_of_length_le (by rw [List.length_reverse]; omega)]

/-- An entry that is there is put last. -/
theorem Kept.touch (h : Kept n hist l) (hget : Ordered.get l k = some v) (w : V) :
    Kept n ((k, w) :: hist) (Ordered.put l k w) := by
  have hput := h.put k w
  have hlen : (Ordered.put l k w).length ≤ n := by
    obtain ⟨e, he, -⟩ := Option.map_eq_some_iff.mp hget
    have hmem := List.mem_of_find?_eq_some he
    have hkey : e.1 = k := by simpa using List.find?_some he
    have hlt : (Ordered.erase l k).length < l.length :=
      List.length_filter_lt_length_iff_exists.mpr ⟨e, hmem, by simpa using hkey⟩
    rw [Ordered.put, List.length_append, List.length_singleton]
    exact Nat.le_trans hlt h.length_le
  rwa [if_neg (by omega)] at hput

theorem distinct_of_nodup (h : (xs.map Prod.fst).Nodup) : distinct xs = xs := by
  induction xs with
  | nil => rfl
  | cons e xs ih =>
    obtain ⟨he, hxs⟩ := List.nodup_cons.mp h
    rw [distinct, ih hxs, Ordered.erase_of_forall]
    rintro d hd hk
    exact he (hk ▸ List.mem_map_of_mem hd)

/-- An entry is taken out, and none that has fallen out comes back for it. -/
theorem Kept.erase (h : Kept n hist l) (k : K) :
    Kept n (Ordered.erase (recent n hist) k) (Ordered.erase l k) := by
  have hle : (Ordered.erase (recent n hist) k).length ≤ n :=
    Nat.le_trans (List.length_filter_le ..) (length_recent n hist)
  have hsame : recent n (Ordered.erase (recent n hist) k) = Ordered.erase (recent n hist) k := by
    conv_lhs => rw [recent, distinct_of_nodup (nodup_erase (nodup_recent n hist) k)]
    exact List.take_of_length_le hle
  rw [Kept, erase_reverse, h, hsame]

/-- Of the entries only the newest are kept. -/
theorem Kept.shrink (h : Kept n hist l) (m : Nat) :
    Kept m (recent n hist) (l.drop (l.length - m)) := by
  have hsame : recent m (recent n hist) = (recent n hist).take m := by
    conv_lhs => rw [recent, distinct_of_nodup (nodup_recent n hist)]
  rw [Kept, hsame, ← h, List.reverse_drop]
  rcases Nat.le_total l.length m with hle | hle
  · rw [Nat.sub_eq_zero_of_le hle, Nat.sub_zero, List.take_of_length_le (by simp),
      List.take_of_length_le (by simpa using hle)]
  · congr 1
    omega

end Origel.Lib.Recent
