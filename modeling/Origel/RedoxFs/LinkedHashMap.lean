import Origel.Lib.Heap
import Origel.Lib.Links
import Origel.Lib.Ordered

/-! The map under the block cache: a hash table of boxes that are linked in the order of their use. A
result of `none` stands for undefined behaviour: a pointer that is null or dangles, a key or a value that
is not there. -/
namespace Origel.RedoxFs

open Origel.Lib

variable {K V : Type}

/-- A node. Its key and its value are missing in the guard, and where they were moved out. -/
structure LinkedHashMapEntry (K V : Type) where
  next : Option Nat
  prev : Option Nat
  key : Option K
  value : Option V

namespace LinkedHashMapEntry

def new (k : K) (v : V) : LinkedHashMapEntry K V := ⟨none, none, some k, some v⟩

def uninitialized : LinkedHashMapEntry K V := ⟨none, none, none, none⟩

end LinkedHashMapEntry

/-- The heap holds the boxes of the map. An entry of the table has the key it points to, and its box. -/
structure LinkedHashMap (K V : Type) where
  map : List (Nat × Nat)
  head : Option Nat
  free : Option Nat
  heap : Heap (LinkedHashMapEntry K V)

namespace LinkedHashMap

abbrev Memory (K V : Type) := Heap (LinkedHashMapEntry K V)

def setNext (heap : Memory K V) (node next : Option Nat) : Option (Memory K V) :=
  heap.write node fun e => { e with next := next }

def setPrev (heap : Memory K V) (node prev : Option Nat) : Option (Memory K V) :=
  heap.write node fun e => { e with prev := prev }

def detach (heap : Memory K V) (node : Nat) : Option (Memory K V) := do
  let e ← heap.read (some node)
  let heap ← setNext heap e.prev e.next
  let e ← heap.read (some node)
  setPrev heap e.next e.prev

def attach (heap : Memory K V) (head : Option Nat) (node : Nat) : Option (Memory K V) := do
  let guard ← heap.read head
  let heap ← setNext heap (some node) guard.next
  let heap ← setPrev heap (some node) head
  let heap ← setNext heap head (some node)
  let e ← heap.read (some node)
  setPrev heap e.next (some node)

/-- The key that a `KeyRef` points to -/
def keyAt (heap : Memory K V) (node : Nat) : Option K := (heap.cell node).bind (·.key)

/-- A box with its key and its value goes. -/
def dropBox (heap : Memory K V) (node : Nat) : Option (Memory K V) := do
  let (e, heap) ← heap.release node
  let _ ← e.key
  let _ ← e.value
  return heap

/-- `drop_empty_entry_box` -/
def dropEmptyEntryBox (heap : Memory K V) (node : Nat) : Option (Memory K V) := do
  let (_, heap) ← heap.release node
  return heap

def new : LinkedHashMap K V := ⟨[], none, none, .empty⟩

/-- The loop of `clear_free_list`; each turn frees a cell. -/
def clearFrees : Nat → Memory K V → Option Nat → Option (Memory K V)
  | _, heap, none => some heap
  | 0, _, some _ => none
  | turns + 1, heap, some free => do
    let e ← heap.read (some free)
    let heap ← dropEmptyEntryBox heap free
    clearFrees turns heap e.next

def clearFreeList (m : LinkedHashMap K V) : Option (LinkedHashMap K V) := do
  let heap ← clearFrees m.heap.top m.heap m.free
  return { m with heap := heap, free := none }

/-- `HashMap::shrink_to_fit` changes nothing that is seen here. -/
def shrinkToFit (m : LinkedHashMap K V) : Option (LinkedHashMap K V) := m.clearFreeList

variable [DecidableEq K]

/-- A lookup in the table, which may compare any of its keys. -/
def find (heap : Memory K V) (k : K) : List (Nat × Nat) → Option (Option Nat)
  | [] => some none
  | e :: map => do
    let key ← keyAt heap e.1
    let found ← find heap k map
    return if key = k then some e.2 else found

/-- `self.map.insert(KeyRef{k: keyref}, node)`: the box of an equal key would be replaced and dropped. -/
def file (heap : Memory K V) (map : List (Nat × Nat)) (node : Nat) :
    Option (List (Nat × Nat) × Memory K V) := do
  let key ← keyAt heap node
  match ← find heap key map with
  | none => return (map ++ [(node, node)], heap)
  | some old =>
    let heap ← dropBox heap old
    return (map.map fun e => if e.2 = old then (e.1, node) else e, heap)

/-- `self.map.remove(..)`, for a box that was found -/
def unfile (map : List (Nat × Nat)) (node : Nat) : List (Nat × Nat) := map.filter fun e => e.2 ≠ node

/-- The guard node is allocated if not present. -/
def guarded (A : Heap.Allocator (LinkedHashMapEntry K V)) (m : LinkedHashMap K V) :
    Option (LinkedHashMap K V) :=
  match m.head with
  | some _ => some m
  | none => do
    let (head, heap) := m.heap.alloc A .uninitialized
    let heap ← setNext heap (some head) (some head)
    let heap ← setPrev heap (some head) (some head)
    return { m with head := some head, heap := heap }

/-- A box for a new entry, which may be a recycled one -/
def box (A : Heap.Allocator (LinkedHashMapEntry K V)) (m : LinkedHashMap K V) (k : K) (v : V) :
    Option (Nat × LinkedHashMap K V) :=
  match m.free with
  | none =>
    let (node, heap) := m.heap.alloc A (.new k v)
    some (node, { m with heap := heap })
  | some free => do
    let e ← m.heap.read (some free)
    let heap ← m.heap.write (some free) fun _ => .new k v
    return (free, { m with free := e.next, heap := heap })

def insert (A : Heap.Allocator (LinkedHashMapEntry K V)) (m : LinkedHashMap K V) (k : K) (v : V) :
    Option (Option V × LinkedHashMap K V) := do
  let m ← m.guarded A
  match ← find m.heap k m.map with
  | some node =>
    let e ← m.heap.read (some node)
    let old ← e.value
    let heap ← m.heap.write (some node) fun e => { e with value := some v }
    -- an existing node only has its place in the order updated
    let heap ← detach heap node
    let heap ← attach heap m.head node
    return (some old, { m with heap := heap })
  | none =>
    let (node, m) ← m.box A k v
    let (map, heap) ← file m.heap m.map node
    let heap ← attach heap m.head node
    return (none, { m with map := map, heap := heap })

def get (m : LinkedHashMap K V) (k : K) : Option (Option V) := do
  match ← find m.heap k m.map with
  | none => return none
  | some node =>
    let e ← m.heap.read (some node)
    let value ← e.value
    return some value

/-- The caller makes `f` of the value that it gets a reference to. -/
def getMut (m : LinkedHashMap K V) (k : K) (f : V → V) : Option (Option V × LinkedHashMap K V) := do
  match ← find m.heap k m.map with
  | none => return (none, m)
  | some node =>
    let e ← m.heap.read (some node)
    let value ← e.value
    let heap ← m.heap.write (some node) fun e => { e with value := some (f value) }
    return (some value, { m with heap := heap })

def getRefresh (m : LinkedHashMap K V) (k : K) (f : V → V) : Option (Option V × LinkedHashMap K V) := do
  match ← find m.heap k m.map with
  | none => return (none, m)
  | some node =>
    let heap ← detach m.heap node
    let heap ← attach heap m.head node
    let e ← heap.read (some node)
    let value ← e.value
    let heap ← heap.write (some node) fun e => { e with value := some (f value) }
    return (some value, { m with heap := heap })

def remove (m : LinkedHashMap K V) (k : K) : Option (Option V × LinkedHashMap K V) := do
  match ← find m.heap k m.map with
  | none => return (none, m)
  | some node =>
    let heap ← detach m.heap node
    -- the box goes to the free list, its key is dropped and its value returned
    let heap ← setNext heap (some node) m.free
    let e ← heap.read (some node)
    let _ ← e.key
    let value ← e.value
    let heap ← heap.write (some node) fun e => { e with key := none, value := none }
    return (some value, { m with map := unfile m.map node, free := some node, heap := heap })

def len (m : LinkedHashMap K V) : Nat := m.map.length

/-- `pop_front` and `pop_back`, by the link of the guard that they follow -/
def pop (link : LinkedHashMapEntry K V → Option Nat) (m : LinkedHashMap K V) :
    Option (Option (K × V) × LinkedHashMap K V) :=
  if m.len > 0 then do
    let guard ← m.heap.read m.head
    let node ← link guard
    let heap ← detach m.heap node
    let key ← keyAt heap node
    match ← find heap key m.map with
    | none => return (none, { m with heap := heap })
    | some node =>
      let (e, heap) ← heap.release node
      let key ← e.key
      let value ← e.value
      return (some (key, value), { m with map := unfile m.map node, heap := heap })
  else some (none, m)

def popFront : LinkedHashMap K V → Option (Option (K × V) × LinkedHashMap K V) := pop (·.prev)
def popBack : LinkedHashMap K V → Option (Option (K × V) × LinkedHashMap K V) := pop (·.next)

/-- `front` and `back` -/
def peek (link : LinkedHashMapEntry K V → Option Nat) (m : LinkedHashMap K V) : Option (Option (K × V)) :=
  if m.len > 0 then do
    let guard ← m.heap.read m.head
    let node ← link guard
    let key ← keyAt m.heap node
    match ← find m.heap key m.map with
    | none => return none
    | some node =>
      let e ← m.heap.read (some node)
      let key ← e.key
      let value ← e.value
      return some (key, value)
  else some none

def front : LinkedHashMap K V → Option (Option (K × V)) := peek (·.prev)
def back : LinkedHashMap K V → Option (Option (K × V)) := peek (·.next)

/-- `HashMap::clear`, and the guard is linked with itself. -/
def clear (m : LinkedHashMap K V) : Option (LinkedHashMap K V) := do
  let heap ← (m.map.map Prod.snd).foldlM dropBox m.heap
  match m.head with
  | none => return { m with map := [], heap := heap }
  | some head =>
    let heap ← setPrev heap (some head) (some head)
    let heap ← setNext heap (some head) (some head)
    return { m with map := [], heap := heap }

/-- The guard goes, if present. -/
def dropGuard (m : LinkedHashMap K V) : Option (Memory K V) :=
  match m.head with
  | none => some m.heap
  | some head => dropEmptyEntryBox m.heap head

/-- `Drop`, and then that of the fields: what is left of the heap -/
def drop (m : LinkedHashMap K V) : Option (Memory K V) := do
  let heap ← m.dropGuard
  let m ← clearFreeList { m with heap := heap }
  (m.map.map Prod.snd).foldlM dropBox m.heap

structure Iter where
  head : Option Nat
  tail : Option Nat
  remaining : Nat

def iter (m : LinkedHashMap K V) : Option Iter :=
  match m.head with
  | none => some ⟨none, m.head, m.len⟩
  | some head => do
    let guard ← m.heap.read (some head)
    return ⟨guard.prev, m.head, m.len⟩

namespace Iter

/-- `(&(*node).key, &(*node).value)` -/
def entry (heap : Memory K V) (node : Option Nat) : Option (K × V) := do
  let e ← heap.read node
  let key ← e.key
  let value ← e.value
  return (key, value)

/-- `self.remaining -= 1`, which must not underflow -/
def count (it : Iter) : Option Nat := if it.remaining = 0 then none else some (it.remaining - 1)

def next (heap : Memory K V) (it : Iter) : Option (Option (K × V) × Iter) :=
  if it.head = it.tail then some (none, it)
  else do
    let remaining ← it.count
    let r ← entry heap it.head
    let e ← heap.read it.head
    return (some r, ⟨e.prev, it.tail, remaining⟩)

def nextBack (heap : Memory K V) (it : Iter) : Option (Option (K × V) × Iter) :=
  if it.head = it.tail then some (none, it)
  else do
    let remaining ← it.count
    let e ← heap.read it.tail
    let r ← entry heap e.next
    return (some r, ⟨it.head, e.next, remaining⟩)

/-- What an iterator gives that is used from its front at `false` and from its back at `true`, with the
number it says is left each time -/
def takes (heap : Memory K V) : List Bool → Iter → Option (List (Option (K × V) × Nat))
  | [], _ => some []
  | side :: sides, it => do
    let (r, it) ← if side then it.nextBack heap else it.next heap
    let rest ← takes heap sides it
    return (r, it.remaining) :: rest

end Iter

/-- What a user does with a map. -/
inductive Act (K V : Type) where
  | insert (k : K) (v : V)
  | get (k : K)
  | getMut (k : K) (f : V → V)
  | getRefresh (k : K) (f : V → V)
  | remove (k : K)
  | popFront
  | popBack
  | front
  | back
  | len
  | clear
  | shrinkToFit
  | iter (sides : List Bool)

inductive Answer (K V : Type) where
  | value (v : Option V)
  | entry (e : Option (K × V))
  | count (n : Nat)
  | entries (es : List (Option (K × V) × Nat))
  | unit

def act (A : Heap.Allocator (LinkedHashMapEntry K V)) (m : LinkedHashMap K V) :
    Act K V → Option (Answer K V × LinkedHashMap K V)
  | .insert k v => (m.insert A k v).map fun r => (.value r.1, r.2)
  | .get k => (m.get k).map fun v => (.value v, m)
  | .getMut k f => (m.getMut k f).map fun r => (.value r.1, r.2)
  | .getRefresh k f => (m.getRefresh k f).map fun r => (.value r.1, r.2)
  | .remove k => (m.remove k).map fun r => (.value r.1, r.2)
  | .popFront => m.popFront.map fun r => (.entry r.1, r.2)
  | .popBack => m.popBack.map fun r => (.entry r.1, r.2)
  | .front => m.front.map fun e => (.entry e, m)
  | .back => m.back.map fun e => (.entry e, m)
  | .len => some (.count m.len, m)
  | .clear => m.clear.map fun m => (.unit, m)
  | .shrinkToFit => m.shrinkToFit.map fun m => (.unit, m)
  | .iter sides => do
    let it ← m.iter
    let es ← it.takes m.heap sides
    return (.entries es, m)

/-- The answers of a map to what is done with it, and the map after that -/
def run (A : Heap.Allocator (LinkedHashMapEntry K V)) (m : LinkedHashMap K V) :
    List (Act K V) → Option (List (Answer K V) × LinkedHashMap K V)
  | [] => some ([], m)
  | a :: acts => do
    let (answer, m) ← m.act A a
    let (answers, m) ← m.run A acts
    return (answer :: answers, m)

/-- What each is for: a step of the list of entries in the order of use -/
def Act.answers (l : List (K × V)) : Act K V → Answer K V × List (K × V)
  | .insert k v => (.value (Ordered.get l k), Ordered.put l k v)
  | .get k => (.value (Ordered.get l k), l)
  | .getMut k f => (.value (Ordered.get l k), Ordered.change l k f)
  | .getRefresh k f => (.value (Ordered.get l k), Ordered.touch l k f)
  | .remove k => (.value (Ordered.get l k), Ordered.erase l k)
  | .popFront => (.entry l.head?, l.tail)
  | .popBack => (.entry l.getLast?, l.dropLast)
  | .front => (.entry l.head?, l)
  | .back => (.entry l.getLast?, l)
  | .len => (.count l.length, l)
  | .clear => (.unit, [])
  | .shrinkToFit => (.unit, l)
  | .iter sides => (.entries (Ordered.ends sides l), l)

/-- The answers of the list of entries -/
def Act.answersAll (l : List (K × V)) : List (Act K V) → List (Answer K V) × List (K × V)
  | [] => ([], l)
  | a :: acts => ((a.answers l).1 :: (answersAll (a.answers l).2 acts).1, (answersAll (a.answers l).2 acts).2)

end LinkedHashMap

end Origel.RedoxFs
