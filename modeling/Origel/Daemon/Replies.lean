import Origel.Daemon.Scheme

/-! Requests and replies counted by the id of their packets. -/
namespace Origel.Daemon

open Origel.Kernel.UserScheme (Packet)

/-- The packets of a queue with the given id. -/
def withId (id : Nat) (queue : List Packet) : Nat := queue.countP fun p => p.id = id

/-- The replies with the given id. -/
def repliesTo (id : Nat) (file : List Reply) : Nat := file.countP fun r => r.packet.id = id

section Counting

variable {id : Nat}

@[simp] theorem withId_nil : withId id [] = 0 := rfl

@[simp] theorem withId_append (xs ys : List Packet) :
    withId id (xs ++ ys) = withId id xs + withId id ys := List.countP_append

theorem withId_cons (p : Packet) (xs : List Packet) :
    withId id (p :: xs) = withId id xs + if p.id = id then 1 else 0 := by
  rw [withId, List.countP_cons]
  simp [withId]

theorem withId_flatMap {ι : Type} (f : ι → List Packet) (is : List ι) :
    withId id (is.flatMap f) = (is.map fun i => withId id (f i)).sum := by
  induction is with
  | nil => rfl
  | cons i is ih => rw [List.flatMap_cons, withId_append, ih, List.map_cons, List.sum_cons]

@[simp] theorem repliesTo_nil : repliesTo id [] = 0 := rfl

@[simp] theorem repliesTo_append (xs ys : List Reply) :
    repliesTo id (xs ++ ys) = repliesTo id xs + repliesTo id ys := List.countP_append

theorem repliesTo_cons (r : Reply) (xs : List Reply) :
    repliesTo id (r :: xs) = repliesTo id xs + if r.packet.id = id then 1 else 0 := by
  rw [repliesTo, List.countP_cons]
  simp [repliesTo]

/-- What is counted in the lists of those picked out of a list. -/
theorem countP_flatMap_filter {α β : Type} (counts : β → Bool) (xs : List α) (pick : α → Bool)
    (f : α → List β) : ((xs.filter pick).flatMap f).countP counts =
      (xs.map fun x => if pick x = true then (f x).countP counts else 0).sum := by
  induction xs with
  | nil => rfl
  | cons x xs ih =>
    rw [List.map_cons, List.sum_cons, ← ih, List.filter_cons]
    cases hp : pick x
    · simp
    · simp [List.countP_append]

/-- Notices answer no request. -/
theorem repliesTo_notice (hid : id ≠ 0) (k size : Nat) : repliesTo id [notice k size] = 0 := by
  rw [repliesTo_cons, repliesTo_nil, if_neg fun h => hid h.symm]

theorem repliesTo_flatMap {ι : Type} {f : ι → List Reply} (is : List ι)
    (hf : ∀ i, repliesTo id (f i) = 0) : repliesTo id (is.flatMap f) = 0 := by
  induction is with
  | nil => rfl
  | cons i is ih => rw [List.flatMap_cons, repliesTo_append, hf, ih]

theorem repliesTo_notices (hid : id ≠ 0) (events k : Nat) (data : List (List UInt8)) :
    repliesTo id (notices events k data) = 0 := by
  unfold notices
  split
  · split
    · rw [repliesTo_cons, repliesTo_nil, if_neg (fun h => hid h.symm)]
    · rfl
  · rfl

theorem repliesTo_answer (id : Nat) (todo : List Packet) (data : List (List UInt8)) :
    repliesTo id (answer todo data).2.2 + withId id (answer todo data).1 = withId id todo := by
  fun_induction answer todo data with
  | case1 p todo front data bytes todo' data' replies hrec ih =>
    rw [hrec] at ih
    rw [repliesTo_cons, withId_cons, ← ih]
    dsimp only
    omega
  | case2 => simp

end Counting

end Origel.Daemon
