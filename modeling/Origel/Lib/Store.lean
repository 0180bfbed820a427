import Mathlib.Data.List.Nodup
import Mathlib.Data.List.Range
import Mathlib.Logic.Function.Basic
import Mathlib.Tactic.Ring

/-! Flat stores, little-endian numbers, and writes spread over a list of cells. -/
namespace Origel.Lib

variable {α : Type*}

/-- The low `k` bytes of `n`, least significant first. -/
def toLe : Nat → Nat → List UInt8
  | 0, _ => []
  | k + 1, n => UInt8.ofNat n :: toLe k (n / 256)

def ofLe : List UInt8 → Nat
  | [] => 0
  | b :: bs => b.toNat + 256 * ofLe bs

@[simp] theorem length_toLe (k n : Nat) : (toLe k n).length = k := by
  induction k generalizing n with
  | zero => rfl
  | succ k ih => simp [toLe, ih]

theorem ofLe_toLe {k n : Nat} (h : n < 256 ^ k) : ofLe (toLe k n) = n := by
  induction k generalizing n with
  | zero =>
    have : n = 0 := by simpa using h
    simp [toLe, ofLe, this]
  | succ k ih =>
    have hd : n / 256 < 256 ^ k := by
      apply Nat.div_lt_of_lt_mul
      rwa [Nat.pow_succ, Nat.mul_comm] at h
    simp only [toLe, ofLe, ih hd, UInt8.toNat_ofNat']
    omega

theorem ofLe_lt (bs : List UInt8) : ofLe bs < 256 ^ bs.length := by
  induction bs with
  | nil => simp [ofLe]
  | cons b bs ih =>
    have hb := b.toNat_lt
    simp only [ofLe, List.length_cons, Nat.pow_succ]
    omega

theorem toLe_ofLe (bs : List UInt8) : toLe bs.length (ofLe bs) = bs := by
  induction bs with
  | nil => rfl
  | cons b bs ih =>
    have hb := b.toNat_lt
    have hd : (b.toNat + 256 * ofLe bs) / 256 = ofLe bs := by omega
    have hm : UInt8.ofNat (b.toNat + 256 * ofLe bs) = b := by
      apply UInt8.toNat_inj.mp
      rw [UInt8.toNat_ofNat']
      omega
    simp [toLe, ofLe, hd, hm, ih]

/-- The `n` cells from `a` on. -/
def load (m : Nat → α) (a n : Nat) : List α := (List.range' a n).map m

/-- `xs` stored from `a` on. -/
def store (m : Nat → α) (a : Nat) (xs : List α) : Nat → α :=
  fun x => if a ≤ x then xs.getD (x - a) (m x) else m x

@[simp] theorem length_load (m : Nat → α) (a n : Nat) : (load m a n).length = n := by
  simp [load]

theorem load_add (m : Nat → α) (a n k : Nat) :
    load m a (n + k) = load m a n ++ load m (a + n) k := by
  rw [load, ← List.range'_append_1, List.map_append]
  rfl

theorem take_load (m : Nat → α) (a : Nat) {n k : Nat} (h : k ≤ n) :
    (load m a n).take k = load m a k := by
  rw [load, ← List.map_take, List.take_range'_of_length_ge h]
  rfl

theorem drop_load (m : Nat → α) (a n k : Nat) : (load m a n).drop k = load m (a + k) (n - k) := by
  rw [load, ← List.map_drop, List.drop_range', Nat.mul_one]
  rfl

theorem store_of_lt {m : Nat → α} {a x : Nat} {xs : List α} (h : x < a) :
    store m a xs x = m x := by
  simp [store, Nat.not_le.mpr h]

theorem store_of_ge {m : Nat → α} {a x : Nat} {xs : List α} (h : a + xs.length ≤ x) :
    store m a xs x = m x := by
  have hx : a ≤ x := by omega
  have hl : xs.length ≤ x - a := by omega
  simp [store, hx, List.getD_eq_getElem?_getD, List.getElem?_eq_none hl]

theorem store_of_mem {m : Nat → α} {a i : Nat} {xs : List α} (h : i < xs.length) :
    store m a xs (a + i) = xs[i] := by
  simp [store, List.getD_eq_getElem?_getD, List.getElem?_eq_getElem h]

@[simp] theorem store_nil (m : Nat → α) (a : Nat) : store m a [] = m := by
  funext x
  simp [store]

theorem load_store_same (m : Nat → α) (a : Nat) (xs : List α) :
    load (store m a xs) a xs.length = xs := by
  apply List.ext_getElem (by simp)
  intro i hi hx
  simp only [load, List.getElem_map, List.getElem_range', Nat.one_mul]
  exact store_of_mem hx

theorem load_store_disjoint {m : Nat → α} {a b n : Nat} {xs : List α}
    (h : b + n ≤ a ∨ a + xs.length ≤ b) : load (store m a xs) b n = load m b n := by
  apply List.map_congr_left
  intro x hx
  obtain ⟨i, hi, rfl⟩ := List.mem_range'.mp hx
  rcases h with h | h
  · exact store_of_lt (by omega)
  · exact store_of_ge (by omega)

theorem store_load_self (m : Nat → α) (a n : Nat) : store m a (load m a n) = m := by
  funext x
  by_cases ha : x < a
  · exact store_of_lt ha
  by_cases hn : a + n ≤ x
  · exact store_of_ge (by simpa using hn)
  obtain ⟨i, rfl⟩ : ∃ i, x = a + i := ⟨x - a, by omega⟩
  rw [store_of_mem (by simp; omega)]
  simp [load]

/-- Reading cells, replacing a stretch of them and writing all back stores the stretch. -/
theorem store_patch (m : Nat → α) (a o n : Nat) (xs : List α) (h : o + xs.length ≤ n) :
    store m a ((load m a n).take o ++ xs ++ (load m a n).drop (o + xs.length)) =
      store m (a + o) xs := by
  funext x
  have hlen : ((load m a n).take o ++ xs ++ (load m a n).drop (o + xs.length)).length = n := by
    simp
    omega
  by_cases ha : x < a
  · rw [store_of_lt ha, store_of_lt (by omega)]
  by_cases hn : a + n ≤ x
  · rw [store_of_ge (by omega), store_of_ge (by omega)]
  obtain ⟨i, rfl⟩ : ∃ i, x = a + i := ⟨x - a, by omega⟩
  rw [store_of_mem (by omega)]
  by_cases h1 : i < o
  · rw [store_of_lt (by omega), List.getElem_append_left (by simp; omega),
      List.getElem_append_left (by simp; omega)]
    simp [load]
  by_cases h2 : i < o + xs.length
  · obtain ⟨j, rfl⟩ : ∃ j, i = o + j := ⟨i - o, by omega⟩
    rw [← Nat.add_assoc, store_of_mem (by omega), List.getElem_append_left (by simp; omega),
      List.getElem_append_right (by simp)]
    congr 1
    simp
    omega
  · rw [store_of_ge (by omega), List.getElem_append_right (by simp; omega)]
    simp only [List.getElem_drop, load, List.getElem_map, List.getElem_range', Nat.one_mul]
    congr 1
    simp
    omega

/-- `xs` stored one by one at the cells `cs`. -/
def scatter : (Nat → α) → List Nat → List α → Nat → α
  | m, c :: cs, x :: xs => scatter (Function.update m c x) cs xs
  | m, _, _ => m

@[simp] theorem scatter_nil (m : Nat → α) (xs : List α) : scatter m [] xs = m := rfl

@[simp] theorem scatter_nil_right (m : Nat → α) (cs : List Nat) : scatter m cs [] = m := by
  cases cs <;> rfl

theorem scatter_of_not_mem {m : Nat → α} {cs : List Nat} {xs : List α} {x : Nat}
    (h : x ∉ cs) : scatter m cs xs x = m x := by
  induction cs generalizing m xs with
  | nil => rfl
  | cons c cs ih =>
    cases xs with
    | nil => rfl
    | cons y ys =>
      have hx : x ≠ c ∧ x ∉ cs := by simpa using h
      simp [scatter, ih hx.2, hx.1]

theorem scatter_append (m : Nat → α) {cs : List Nat} (ds : List Nat) {xs : List α} (ys : List α)
    (h : cs.length = xs.length) :
    scatter m (cs ++ ds) (xs ++ ys) = scatter (scatter m cs xs) ds ys := by
  induction cs generalizing m xs with
  | nil =>
    have : xs = [] := by simpa using h.symm
    simp [this]
  | cons c cs ih =>
    cases xs with
    | nil => simp at h
    | cons x xs => exact ih _ (by simpa using h)

theorem map_scatter {m : Nat → α} {cs : List Nat} {xs : List α} (hn : cs.Nodup)
    (h : cs.length = xs.length) : cs.map (scatter m cs xs) = xs := by
  induction cs generalizing m xs with
  | nil => simpa using h.symm
  | cons c cs ih =>
    cases xs with
    | nil => simp at h
    | cons x xs =>
      obtain ⟨hc, hn⟩ := List.nodup_cons.mp hn
      simp only [List.map_cons, scatter]
      rw [scatter_of_not_mem hc, ih hn (by simpa using h)]
      simp

theorem map_scatter_disjoint {m : Nat → α} {cs ds : List Nat} {xs : List α}
    (h : ∀ c ∈ ds, c ∉ cs) : ds.map (scatter m cs xs) = ds.map m := by
  apply List.map_congr_left
  intro c hc
  exact scatter_of_not_mem (h c hc)

theorem store_eq_scatter (m : Nat → α) (a : Nat) (xs : List α) :
    store m a xs = scatter m (List.range' a xs.length) xs := by
  funext x
  by_cases ha : x < a
  · rw [store_of_lt ha, scatter_of_not_mem]
    simp [List.mem_range'_1]
    omega
  by_cases hn : a + xs.length ≤ x
  · rw [store_of_ge hn, scatter_of_not_mem]
    simp [List.mem_range'_1]
    omega
  obtain ⟨i, rfl⟩ : ∃ i, x = a + i := ⟨x - a, by omega⟩
  have hi : i < xs.length := by omega
  have hmap : (List.range' a xs.length).map (scatter m (List.range' a xs.length) xs) = xs :=
    map_scatter List.nodup_range' (by simp)
  have hget := congrArg (·[i]?) hmap
  rw [store_of_mem hi]
  simpa [hi] using hget.symm

theorem store_append (m : Nat → α) (a : Nat) (xs ys : List α) :
    store (store m a xs) (a + xs.length) ys = store m a (xs ++ ys) := by
  rw [store_eq_scatter m a xs, store_eq_scatter, store_eq_scatter m a, List.length_append,
    ← List.range'_append_1, scatter_append _ _ _ (by simp)]

/-- `xs` laid over `ys` from position `o` on. -/
def overlay (ys : List α) (o : Nat) (xs : List α) : List α :=
  ys.take o ++ xs ++ ys.drop (o + xs.length)

@[simp] theorem overlay_nil (ys : List α) (o : Nat) : overlay ys o [] = ys := by
  simp [overlay]

theorem length_overlay {ys xs : List α} {o : Nat} (h : o + xs.length ≤ ys.length) :
    (overlay ys o xs).length = ys.length := by
  simp only [overlay, List.length_append, List.length_take, List.length_drop]
  omega

/-- Outside the stretch an overlay changes nothing. -/
theorem getElem?_overlay {ys xs : List α} {o i : Nat} (ho : o + xs.length ≤ ys.length)
    (hi : ¬(o ≤ i ∧ i < o + xs.length)) : (overlay ys o xs)[i]? = ys[i]? := by
  have htake : (ys.take o).length = o := by
    rw [List.length_take]
    omega
  rw [overlay]
  by_cases hlt : i < o
  · rw [List.append_assoc, List.getElem?_append_left (by omega), List.getElem?_take_of_lt hlt]
  · have hge : o + xs.length ≤ i := by omega
    rw [List.getElem?_append_right (by rw [List.length_append]; omega), List.getElem?_drop,
      List.length_append, htake, Nat.add_sub_cancel' hge]

/-- Two overlays, the second where the first ends. -/
theorem overlay_overlay {ys xs : List α} (zs : List α) {o : Nat} (h : o + xs.length ≤ ys.length) :
    overlay (overlay ys o xs) (o + xs.length) zs = overlay ys o (xs ++ zs) := by
  have ht : (ys.take o).length = o := by
    rw [List.length_take]
    omega
  have hl : (ys.take o ++ xs).length = o + xs.length := by
    rw [List.length_append, ht]
  have hdrop : (ys.take o ++ xs ++ ys.drop (o + xs.length)).drop (o + xs.length + zs.length) =
      ys.drop (o + (xs ++ zs).length) := by
    rw [← List.drop_drop, ← hl, List.drop_left, hl, List.drop_drop, List.length_append,
      Nat.add_assoc]
  rw [overlay, overlay, overlay, hdrop, ← hl, List.take_left, List.append_assoc (ys.take o)]

/-- Scattering over a stretch of distinct cells overlays what the cells hold. -/
theorem map_scatter_stretch {m : Nat → α} {cs : List Nat} (xs : List α) {o : Nat} (hn : cs.Nodup)
    (h : o + xs.length ≤ cs.length) :
    cs.map (scatter m ((cs.drop o).take xs.length) xs) = overlay (cs.map m) o xs := by
  generalize hmid : (cs.drop o).take xs.length = mid
  have hlen : mid.length = xs.length := by
    rw [← hmid, List.length_take, List.length_drop]
    omega
  have hsplit : cs = cs.take o ++ (mid ++ cs.drop (o + xs.length)) := by
    rw [← hmid, ← List.drop_drop, List.take_append_drop, List.take_append_drop]
  have hnd := hn
  rw [hsplit] at hnd
  obtain ⟨_, hr, hd⟩ := List.nodup_append.mp hnd
  obtain ⟨hm, _, hmd⟩ := List.nodup_append.mp hr
  conv_lhs => rw [hsplit]
  rw [List.map_append, List.map_append, map_scatter hm hlen, overlay, ← List.map_take,
    ← List.map_drop, List.append_assoc]
  congr 1
  · apply map_scatter_disjoint
    intro c hc hcm
    exact hd c hc c (List.mem_append_left _ hcm) rfl
  · congr 1
    apply map_scatter_disjoint
    intro c hc hcm
    exact hmd c hcm c hc rfl

end Origel.Lib
