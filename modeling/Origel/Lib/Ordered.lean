import Mathlib.Data.List.Nodup

/-! A map as the list of its entries in the order of their use, the oldest first. -/
namespace Origel.Lib.Ordered

variable {K V : Type*} {l xs ys : List (K × V)} {k : K} {v : V} {f : V → V}

/-- The keys differ from that of the entry in the middle. -/
theorem apart (h : ((xs ++ (k, v) :: ys).map Prod.fst).Nodup) :
    (∀ e ∈ xs, e.1 ≠ k) ∧ ∀ e ∈ ys, e.1 ≠ k := by
  rw [List.map_append, List.map_cons, List.nodup_append] at h
  obtain ⟨-, hys, hxs⟩ := h
  constructor
  · intro e he
    exact hxs e.1 (List.mem_map_of_mem he) k List.mem_cons_self
  · rintro e he rfl
    exact (List.nodup_cons.mp hys).1 (List.mem_map.mpr ⟨e, he, rfl⟩)

variable [DecidableEq K]

def get (l : List (K × V)) (k : K) : Option V := (l.find? fun e => e.1 = k).map Prod.snd

def erase (l : List (K × V)) (k : K) : List (K × V) := l.filter fun e => e.1 ≠ k

/-- The entry becomes the most recent one, instead of one it may have had. -/
def put (l : List (K × V)) (k : K) (v : V) : List (K × V) := erase l k ++ [(k, v)]

/-- An entry is changed where it is. -/
def change (l : List (K × V)) (k : K) (f : V → V) : List (K × V) :=
  l.map fun e => if e.1 = k then (e.1, f e.2) else e

/-- An entry is changed and becomes the most recent one. -/
def touch (l : List (K × V)) (k : K) (f : V → V) : List (K × V) :=
  match get l k with
  | some v => put l k (f v)
  | none => l

/-- What is taken from the two ends, in the order in which it is: from the front at `false`, from the back
at `true`. Each time the number of entries left is told too. -/
def ends {E : Type*} : List Bool → List E → List (Option E × Nat)
  | [], _ => []
  | false :: sides, l => (l.head?, l.length - 1) :: ends sides l.tail
  | true :: sides, l => (l.getLast?, l.length - 1) :: ends sides l.dropLast

theorem get_of_split (h : ((xs ++ (k, v) :: ys).map Prod.fst).Nodup) :
    get (xs ++ (k, v) :: ys) k = some v := by
  have hxs : xs.find? (fun e => e.1 = k) = none :=
    List.find?_eq_none.mpr fun e he => by simpa using (apart h).1 e he
  rw [get, List.find?_append, hxs, Option.none_or, List.find?_cons_of_pos (by simp)]
  rfl

theorem erase_of_forall (h : ∀ e ∈ l, e.1 ≠ k) : erase l k = l :=
  List.filter_eq_self.mpr fun e he => by simpa using h e he

theorem erase_of_split (h : ((xs ++ (k, v) :: ys).map Prod.fst).Nodup) :
    erase (xs ++ (k, v) :: ys) k = xs ++ ys := by
  have hxs : xs.filter (fun e => e.1 ≠ k) = xs := erase_of_forall (apart h).1
  have hys : ys.filter (fun e => e.1 ≠ k) = ys := erase_of_forall (apart h).2
  rw [erase, List.filter_append, List.filter_cons_of_neg (by simp), hxs, hys]

theorem change_of_forall (h : ∀ e ∈ l, e.1 ≠ k) : change l k f = l := by
  rw [change, List.map_congr_left fun e he => if_neg (h e he), List.map_id']

theorem change_of_split (h : ((xs ++ (k, v) :: ys).map Prod.fst).Nodup) :
    change (xs ++ (k, v) :: ys) k f = xs ++ (k, f v) :: ys := by
  have hxs := change_of_forall (f := f) (apart h).1
  have hys := change_of_forall (f := f) (apart h).2
  rw [change] at hxs hys ⊢
  rw [List.map_append, List.map_cons, hxs, hys, if_pos rfl]

theorem get_of_forall (h : ∀ e ∈ l, e.1 ≠ k) : get l k = none := by
  rw [get, List.find?_eq_none.mpr fun e he => by simpa using h e he]
  rfl

end Origel.Lib.Ordered
