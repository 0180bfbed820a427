import Origel.Lib.Lru
import Origel.Lib.Recent
import Origel.RedoxFs.LinkedRuns

/-! The cache over the map of linked boxes keeps what was used last. -/
namespace Origel.RedoxFs.LinkedCache

open Origel.Lib

variable {K V : Type}

structure LruCache (K V : Type) where
  map : LinkedHashMap K V
  maxSize : Nat

namespace LruCache

def new (capacity : Nat) : LruCache K V := ⟨.new, capacity⟩

variable [DecidableEq K]

def len (c : LruCache K V) : Nat := c.map.len

def capacity (c : LruCache K V) : Nat := c.maxSize

def removeLru (c : LruCache K V) : Option (LruCache K V) := do
  let (_, map) ← c.map.popFront
  return { c with map := map }

def insert (A : Heap.Allocator (LinkedHashMapEntry K V)) (c : LruCache K V) (k : K) (v : V) :
    Option (Option V × LruCache K V) := do
  let (old, map) ← c.map.insert A k v
  let c := { c with map := map }
  if c.len > c.capacity then
    let c ← c.removeLru
    return (old, c)
  else return (old, c)

/-- The caller makes `f` of the value that it gets a reference to. -/
def getMut (c : LruCache K V) (k : K) (f : V → V) : Option (Option V × LruCache K V) := do
  let (v, map) ← c.map.getRefresh k f
  return (v, { c with map := map })

def remove (c : LruCache K V) (k : K) : Option (Option V × LruCache K V) := do
  let (v, map) ← c.map.remove k
  return (v, { c with map := map })

/-- `for _ in capacity..self.len() { self.remove_lru(); }` -/
def removeTimes : Nat → LruCache K V → Option (LruCache K V)
  | 0, c => some c
  | n + 1, c => do
    let c ← c.removeLru
    removeTimes n c

def setCapacity (c : LruCache K V) (capacity : Nat) : Option (LruCache K V) := do
  let c ← removeTimes (c.len - capacity) c
  return { c with maxSize := capacity }

/-- The cache holds the entries of a cache that is a mere list. -/
def Holds (c : LruCache K V) (l : Lib.LruCache K V) : Prop :=
  c.maxSize = l.maxSize ∧ ∃ items frees, c.map.Laid items frees ∧ items.map Prod.snd = l.map

variable {c : LruCache K V} {l : Lib.LruCache K V} {k : K} {v : V}

omit [DecidableEq K] in
theorem holds_new (capacity : Nat) : Holds (new capacity : LruCache K V) (.new capacity) :=
  ⟨rfl, [], [], LinkedHashMap.laid_new, rfl⟩

theorem Holds.removeLru (h : c.Holds l) : ∃ c', c.removeLru = some c' ∧
    c'.Holds { l with map := l.map.tail } := by
  obtain ⟨hsize, items, frees, hl, hitems⟩ := h
  obtain ⟨m, items', frees', hm, hl', hitems'⟩ := hl.popFront
  rw [hitems] at hitems'
  refine ⟨{ c with map := m }, ?_, hsize, items', frees', hl', hitems'⟩
  rw [LruCache.removeLru, hm]
  rfl

/-- `insert` does what it does to the list. -/
theorem Holds.insert (A : Heap.Allocator (LinkedHashMapEntry K V)) (h : c.Holds l) (k : K) (v : V) :
    ∃ c', c.insert A k v = some (Ordered.get l.map k, c') ∧ c'.Holds (l.insert k v) := by
  obtain ⟨hsize, items, frees, hl, hitems⟩ := h
  obtain ⟨m, items', frees', hm, hl', hitems'⟩ := hl.insert A k v
  rw [hitems] at hm hitems'
  have hlen : m.len = (Ordered.put l.map k v).length := by rw [hl'.len, hitems']
  have hput : Holds (⟨m, c.maxSize⟩ : LruCache K V) { l with map := Ordered.put l.map k v } :=
    ⟨hsize, items', frees', hl', hitems'⟩
  by_cases hgt : (Ordered.put l.map k v).length > l.maxSize
  · obtain ⟨c', hr, hc'⟩ := hput.removeLru
    refine ⟨c', ?_, ?_⟩
    · rw [LruCache.insert, hm]
      show (if m.len > c.maxSize then _ else _) = _
      rw [hlen, hsize, if_pos hgt, ← hsize]
      show (LruCache.removeLru _).bind _ = _
      rw [hr]
      rfl
    · have hins : l.insert k v = { l with map := (Ordered.put l.map k v).tail } := by
        rw [Lib.LruCache.insert]
        exact congrArg (fun map => { l with map := map }) (if_pos hgt)
      rwa [hins]
  · refine ⟨⟨m, c.maxSize⟩, ?_, ?_⟩
    · rw [LruCache.insert, hm]
      show (if m.len > c.maxSize then _ else _) = _
      rw [hlen, hsize, if_neg hgt, ← hsize]
      rfl
    · have hins : l.insert k v = { l with map := Ordered.put l.map k v } := by
        rw [Lib.LruCache.insert]
        exact congrArg (fun map => { l with map := map }) (if_neg hgt)
      rwa [hins]

theorem Holds.getMut (h : c.Holds l) (k : K) (f : V → V) : ∃ c',
    c.getMut k f = some (Ordered.get l.map k, c') ∧ c'.Holds { l with map := Ordered.touch l.map k f } := by
  obtain ⟨hsize, items, frees, hl, hitems⟩ := h
  obtain ⟨m, items', frees', hm, hl', hitems'⟩ := hl.getRefresh k f
  rw [hitems] at hm hitems'
  refine ⟨{ c with map := m }, ?_, hsize, items', frees', hl', hitems'⟩
  rw [LruCache.getMut, hm]
  rfl

theorem Holds.remove (h : c.Holds l) (k : K) : ∃ c', c.remove k = some (Ordered.get l.map k, c') ∧
    c'.Holds { l with map := Ordered.erase l.map k } := by
  obtain ⟨hsize, items, frees, hl, hitems⟩ := h
  obtain ⟨m, items', frees', hm, hl', hitems'⟩ := hl.remove k
  rw [hitems] at hm hitems'
  refine ⟨{ c with map := m }, ?_, hsize, items', frees', hl', hitems'⟩
  rw [LruCache.remove, hm]
  rfl

omit [DecidableEq K] in
theorem Holds.len (h : c.Holds l) : c.len = l.map.length := by
  obtain ⟨_, items, frees, hl, hitems⟩ := h
  rw [LruCache.len, hl.len, hitems]

theorem Holds.removeTimes (h : c.Holds l) (n : Nat) : ∃ c', LruCache.removeTimes n c = some c' ∧
    c'.Holds { l with map := l.map.drop n } := by
  induction n generalizing c l with
  | zero => exact ⟨c, rfl, h⟩
  | succ n ih =>
    obtain ⟨c1, h1, hc1⟩ := h.removeLru
    obtain ⟨c2, h2, hc2⟩ := ih hc1
    refine ⟨c2, ?_, ?_⟩
    · rw [LruCache.removeTimes, h1]
      exact h2
    · rwa [List.drop_tail] at hc2

/-- With a smaller capacity only the newest entries stay. -/
theorem Holds.setCapacity (h : c.Holds l) (n : Nat) : ∃ c', c.setCapacity n = some c' ∧
    c'.Holds ⟨l.map.drop (l.map.length - n), n⟩ := by
  obtain ⟨c', hr, -, hc'⟩ := h.removeTimes (c.len - n)
  rw [h.len] at hc'
  refine ⟨{ c' with maxSize := n }, ?_, rfl, hc'⟩
  rw [LruCache.setCapacity, hr]
  rfl

inductive Use (K V : Type) where
  | insert (k : K) (v : V)
  | getMut (k : K) (f : V → V)
  | remove (k : K)
  | setCapacity (capacity : Nat)

def use (A : Heap.Allocator (LinkedHashMapEntry K V)) (c : LruCache K V) :
    Use K V → Option (Option V × LruCache K V)
  | .insert k v => c.insert A k v
  | .getMut k f => c.getMut k f
  | .remove k => c.remove k
  | .setCapacity capacity => do
    let c ← c.setCapacity capacity
    return (none, c)

def run (A : Heap.Allocator (LinkedHashMapEntry K V)) (c : LruCache K V) :
    List (Use K V) → Option (List (Option V) × LruCache K V)
  | [] => some ([], c)
  | u :: uses => do
    let (answer, c) ← c.use A u
    let (answers, c) ← c.run A uses
    return (answer :: answers, c)

/-- An account of the uses so far, the last one first, and the size at the time. -/
structure Account (K V : Type) where
  size : Nat
  hist : List (K × V)

/-- The keys to be found: the last `size` different ones that were used. -/
def Account.recent (a : Account K V) : List (K × V) := Recent.recent a.size a.hist

/-- The answer of the account. What has fallen out is forgotten when a key is taken out or the size
changes, and does not come back. -/
def Use.told (a : Account K V) : Use K V → Option V × Account K V
  | .insert k v => (Ordered.get a.recent k, { a with hist := (k, v) :: a.hist })
  | .getMut k f =>
    match Ordered.get a.recent k with
    | some v => (some v, { a with hist := (k, f v) :: a.hist })
    | none => (none, a)
  | .remove k => (Ordered.get a.recent k, { a with hist := Ordered.erase a.recent k })
  | .setCapacity capacity => (none, ⟨capacity, a.recent⟩)

def Use.toldAll (a : Account K V) : List (Use K V) → List (Option V) × Account K V
  | [] => ([], a)
  | u :: uses => ((u.told a).1 :: (toldAll (u.told a).2 uses).1, (toldAll (u.told a).2 uses).2)

/-- The cache holds what the account has to be found. -/
def Follows (c : LruCache K V) (a : Account K V) : Prop :=
  ∃ l, c.Holds l ∧ l.maxSize = a.size ∧ Recent.Kept a.size a.hist l.map

theorem follows_new (n : Nat) : Follows (new n : LruCache K V) ⟨n, []⟩ := by
  refine ⟨_, holds_new n, rfl, ?_⟩
  rw [Recent.Kept, Recent.recent, Recent.distinct, List.take_nil]
  rfl

/-- A use is answered as the account of all uses would. -/
theorem Follows.use {a : Account K V} (A : Heap.Allocator (LinkedHashMapEntry K V))
    (h : c.Follows a) (u : Use K V) :
    ∃ c', c.use A u = some ((u.told a).1, c') ∧ c'.Follows (u.told a).2 := by
  obtain ⟨l, hl, hn, hk⟩ := h
  cases u with
  | insert k v =>
    obtain ⟨c', hc, hc'⟩ := hl.insert A k v
    refine ⟨c', ?_, _, hc', hn, ?_⟩
    · show c.insert A k v = some (Ordered.get a.recent k, c')
      rw [hc, hk.get]
      rfl
    · have hput := hk.put k v
      rw [← hn] at hput
      show Recent.Kept a.size ((k, v) :: a.hist) (l.insert k v).map
      rw [← hn]
      exact hput
  | getMut k f =>
    obtain ⟨c', hc, hc'⟩ := hl.getMut k f
    have hget : Ordered.get l.map k = Ordered.get a.recent k := hk.get k
    show ∃ c', c.getMut k f = some ((Use.told a (.getMut k f)).1, c') ∧ _
    rw [Use.told, ← hget]
    cases hv : Ordered.get l.map k with
    | none =>
      refine ⟨c', by rw [hc, hv], _, hc', hn, ?_⟩
      rw [Ordered.touch, hv]
      exact hk
    | some v =>
      refine ⟨c', by rw [hc, hv], _, hc', hn, ?_⟩
      rw [Ordered.touch, hv]
      exact hk.touch hv (f v)
  | remove k =>
    obtain ⟨c', hc, hc'⟩ := hl.remove k
    refine ⟨c', ?_, _, hc', hn, hk.erase k⟩
    show c.remove k = some (Ordered.get a.recent k, c')
    rw [hc, hk.get]
    rfl
  | setCapacity capacity =>
    obtain ⟨c', hc, hc'⟩ := hl.setCapacity capacity
    refine ⟨c', ?_, _, hc', rfl, hk.shrink capacity⟩
    show (c.setCapacity capacity).bind _ = _
    rw [hc]
    rfl

theorem Follows.run {a : Account K V} (A : Heap.Allocator (LinkedHashMapEntry K V))
    (h : c.Follows a) (uses : List (Use K V)) :
    ∃ c', c.run A uses = some ((Use.toldAll a uses).1, c') ∧ c'.Follows (Use.toldAll a uses).2 := by
  induction uses generalizing c a with
  | nil => exact ⟨c, rfl, h⟩
  | cons u uses ih =>
    obtain ⟨c1, hu, h1⟩ := h.use A u
    obtain ⟨c2, hr, h2⟩ := ih h1
    refine ⟨c2, ?_, h2⟩
    show (c.use A u).bind _ = _
    rw [hu]
    show (c1.run A uses).bind _ = _
    rw [hr]
    rfl

/-- In every run a cache finds just the keys that are among the last different ones used, as many as
it has room for, each with its latest value. That is what it then shows to an iterator, and it never
has to free or follow a pointer that is not its own. -/
theorem cache_keeps_most_recent (A : Heap.Allocator (LinkedHashMapEntry K V)) (n : Nat)
    (uses : List (Use K V)) :
    ∃ c : LruCache K V, (new n).run A uses = some ((Use.toldAll ⟨n, []⟩ uses).1, c) ∧
      c.capacity = (Use.toldAll (⟨n, []⟩ : Account K V) uses).2.size ∧ c.len ≤ c.capacity ∧
      (∀ sides, ∃ it, c.map.iter = some it ∧ it.takes c.map.heap sides =
        some (Ordered.ends sides (Use.toldAll (⟨n, []⟩ : Account K V) uses).2.recent.reverse)) ∧
      ∃ heap, c.map.drop = some heap ∧ ∀ p, heap.cell p = none := by
  obtain ⟨c, hr, l, hc, hn, hk⟩ := (follows_new n).run A uses
  have hlen := hc.len
  obtain ⟨hsize, items, frees, hl, hitems⟩ := hc
  have hcapacity : c.capacity = (Use.toldAll (⟨n, []⟩ : Account K V) uses).2.size :=
    hsize.trans hn
  refine ⟨c, hr, hcapacity, ?_, ?_, hl.drop⟩
  · rw [hlen, hcapacity]
    exact hk.length_le
  · intro sides
    obtain ⟨it, hit, ht⟩ := hl.iter sides
    refine ⟨it, hit, ?_⟩
    rw [ht, hitems, Account.recent, ← hk, List.reverse_reverse]

end LruCache

end Origel.RedoxFs.LinkedCache
