import Origel.RedoxFs.LinkedHashMap

/-! The map of linked boxes does what a list of entries does that is kept in the order of use. -/
namespace Origel.RedoxFs.LinkedHashMap

open Origel.Lib

variable {K V : Type} {heap : Memory K V} {g p x : Nat} {q : Option Nat} {xs ys frees : List Nat}

/-- The links of the nodes: the oldest one comes first behind the guard, and the newest one last. -/
def after (heap : Memory K V) (p : Nat) : Option Nat := (heap.cell p).bind (·.prev)

def before (heap : Memory K V) (p : Nat) : Option Nat := (heap.cell p).bind (·.next)

/-- What a node holds besides its links. -/
def held (heap : Memory K V) (p : Nat) : Option (Option K × Option V) :=
  (heap.cell p).map fun e => (e.key, e.value)

theorem held_set (b : Option (LinkedHashMapEntry K V)) : held (heap.set p b) =
    Function.update (held heap) p (b.map fun e => (e.key, e.value)) := by
  funext x
  by_cases hx : x = p
  · subst hx
    simp [held]
  · simp [held, Function.update_of_ne hx]

theorem before_set (b : Option (LinkedHashMapEntry K V)) : before (heap.set p b) =
    Function.update (before heap) p (b.bind (·.next)) := by
  funext x
  by_cases hx : x = p
  · subst hx
    simp [before]
  · simp [before, Function.update_of_ne hx]

theorem after_set (b : Option (LinkedHashMapEntry K V)) : after (heap.set p b) =
    Function.update (after heap) p (b.bind (·.prev)) := by
  funext x
  by_cases hx : x = p
  · subst hx
    simp [after]
  · simp [after, Function.update_of_ne hx]

theorem cell_of_held (h : (held heap p).isSome) : ∃ e, heap.cell p = some e := by
  rw [held, Option.isSome_map] at h
  exact Option.isSome_iff_exists.mp h

theorem read_of_held (h : (held heap p).isSome) : ∃ e, heap.read (some p) = some e ∧
    e.next = before heap p ∧ e.prev = after heap p ∧ held heap p = some (e.key, e.value) := by
  obtain ⟨e, he⟩ := cell_of_held h
  refine ⟨e, he, ?_, ?_, ?_⟩
  · rw [before, he]
    rfl
  · rw [after, he]
    rfl
  · rw [held, he]
    rfl

theorem setNext_of_held (q : Option Nat) (h : (held heap p).isSome) : ∃ heap',
    setNext heap (some p) q = some heap' ∧ before heap' = Function.update (before heap) p q ∧
      after heap' = after heap ∧ held heap' = held heap := by
  obtain ⟨e, he⟩ := cell_of_held h
  refine ⟨_, Heap.write_some he, before_set _, ?_, ?_⟩
  · rw [after_set, Function.update_eq_self_iff, after, he]
    rfl
  · rw [held_set, Function.update_eq_self_iff, held, he]
    rfl

theorem setPrev_of_held (q : Option Nat) (h : (held heap p).isSome) : ∃ heap',
    setPrev heap (some p) q = some heap' ∧ before heap' = before heap ∧
      after heap' = Function.update (after heap) p q ∧ held heap' = held heap := by
  obtain ⟨e, he⟩ := cell_of_held h
  refine ⟨_, Heap.write_some he, ?_, after_set _, ?_⟩
  · rw [before_set, Function.update_eq_self_iff, before, he]
    rfl
  · rw [held_set, Function.update_eq_self_iff, held, he]
    rfl

/-- What a node holds is replaced. -/
theorem hold_of_held (key : Option K) (value : Option V) (h : (held heap p).isSome) : ∃ heap',
    heap.write (some p) (fun e => { e with key := key, value := value }) = some heap' ∧
      before heap' = before heap ∧ after heap' = after heap ∧
      held heap' = Function.update (held heap) p (some (key, value)) := by
  obtain ⟨e, he⟩ := cell_of_held h
  refine ⟨_, Heap.write_some he, ?_, ?_, held_set _⟩
  · rw [before_set, Function.update_eq_self_iff, before, he]
    rfl
  · rw [after_set, Function.update_eq_self_iff, after, he]
    rfl

/-- A node leaves the circle. -/
theorem detach_of_circle (hc : Circle (after heap) (before heap) g (xs ++ x :: ys))
    (hheld : ∀ p ∈ g :: (xs ++ x :: ys), (held heap p).isSome) : ∃ heap', detach heap x = some heap' ∧
      Circle (after heap') (before heap') g (xs ++ ys) ∧ held heap' = held heap ∧
      ∀ p ∉ g :: (xs ++ x :: ys), before heap' p = before heap p := by
  have hxmem : x ∈ g :: (xs ++ x :: ys) := by simp
  obtain ⟨a, ha⟩ : ∃ a, (g :: xs).getLast? = some a := ⟨_, List.getLast?_eq_some_getLast (List.cons_ne_nil _ _)⟩
  obtain ⟨b, hb⟩ : ∃ b, (ys ++ [g]).head? = some b := by
    cases ys with
    | nil => exact ⟨g, rfl⟩
    | cons y ys => exact ⟨y, rfl⟩
  have hbx : before heap x = some a := by rw [hc.before_node, ha]
  have hax : after heap x = some b := by rw [hc.after_node, hb]
  have hamem : a ∈ g :: (xs ++ x :: ys) := by
    have := List.mem_of_getLast? ha
    simp only [List.mem_cons, List.mem_append] at this ⊢
    tauto
  have hbmem : b ∈ g :: (xs ++ x :: ys) := by
    have := List.mem_of_head? hb
    simp only [List.mem_cons, List.mem_append, List.not_mem_nil] at this ⊢
    tauto
  have hbne : x ≠ b := by
    rintro rfl
    have hnodup := hc.nodup
    have := List.mem_of_head? hb
    simp only [List.nodup_cons, List.nodup_append, List.mem_cons, List.mem_append] at hnodup this
    rcases this with hx | rfl | hx
    · exact hnodup.2.2.1.1 hx
    · simp at hnodup
    · cases hx
  obtain ⟨e, he, henext, heprev, -⟩ := read_of_held (hheld x hxmem)
  obtain ⟨h1, hw1, hbefore1, hafter1, hheld1⟩ := setNext_of_held (some a) (hheld b hbmem)
  obtain ⟨e1, he1, he1next, he1prev, -⟩ : ∃ e, h1.read (some x) = some e ∧ _ :=
    read_of_held (by rw [hheld1]; exact hheld x hxmem)
  obtain ⟨h2, hw2, hbefore2, hafter2, hheld2⟩ : ∃ h2, setPrev h1 (some a) (some b) = some h2 ∧ _ :=
    setPrev_of_held (some b) (by rw [hheld1]; exact hheld a hamem)
  refine ⟨h2, ?_, ?_, hheld2.trans hheld1, ?_⟩
  · rw [detach, he, Option.bind_eq_bind, Option.bind_some, henext, heprev, hbx, hax, hw1]
    show (h1.read (some x)).bind _ = _
    rw [he1, Option.bind_some, he1next, he1prev, hbefore1, hafter1, Function.update_of_ne hbne, hbx, hax, hw2]
  · rw [hafter2, hbefore2, hafter1, hbefore1]
    exact hc.detach hbx hax
  · intro p hp
    have hpb : p ≠ b := by
      rintro rfl
      exact hp hbmem
    rw [hbefore2, hbefore1, Function.update_of_ne hpb]

/-- A node becomes the newest one. -/
theorem attach_of_circle (hc : Circle (after heap) (before heap) g xs)
    (hheld : ∀ p ∈ g :: xs, (held heap p).isSome) (hx : (held heap x).isSome) (hfresh : x ∉ g :: xs) :
    ∃ heap', attach heap (some g) x = some heap' ∧ Circle (after heap') (before heap') g (xs ++ [x]) ∧
      held heap' = held heap ∧ ∀ p ∉ x :: g :: xs, before heap' p = before heap p := by
  obtain ⟨a, ha⟩ : ∃ a, (g :: xs).getLast? = some a := ⟨_, List.getLast?_eq_some_getLast (List.cons_ne_nil _ _)⟩
  have hbg : before heap g = some a := by rw [hc.before_guard, ha]
  have hamem := List.mem_of_getLast? ha
  have hxg : x ≠ g := fun he => hfresh (he ▸ List.mem_cons_self)
  obtain ⟨e, he, henext, -, -⟩ := read_of_held (hheld g List.mem_cons_self)
  obtain ⟨h1, hw1, hbefore1, hafter1, hheld1⟩ := setNext_of_held (some a) hx
  obtain ⟨h2, hw2, hbefore2, hafter2, hheld2⟩ : ∃ h2, setPrev h1 (some x) (some g) = some h2 ∧ _ :=
    setPrev_of_held (some g) (by rw [hheld1]; exact hx)
  obtain ⟨h3, hw3, hbefore3, hafter3, hheld3⟩ : ∃ h3, setNext h2 (some g) (some x) = some h3 ∧ _ :=
    setNext_of_held (some x) (by rw [hheld2, hheld1]; exact hheld g List.mem_cons_self)
  obtain ⟨e3, he3, he3next, -, -⟩ : ∃ e, h3.read (some x) = some e ∧ _ :=
    read_of_held (by rw [hheld3, hheld2, hheld1]; exact hx)
  obtain ⟨h4, hw4, hbefore4, hafter4, hheld4⟩ : ∃ h4, setPrev h3 (some a) (some x) = some h4 ∧ _ :=
    setPrev_of_held (some x) (by rw [hheld3, hheld2, hheld1]; exact hheld a hamem)
  have hbefore : before h4 = Function.update (Function.update (before heap) x (some a)) g (some x) := by
    rw [hbefore4, hbefore3, hbefore2, hbefore1]
  have hnext : e3.next = some a := by
    rw [he3next, hbefore3, hbefore2, hbefore1, Function.update_of_ne hxg, Function.update_self]
  refine ⟨h4, ?_, ?_, ?_, ?_⟩
  · rw [attach, he, Option.bind_eq_bind, Option.bind_some, henext, hbg, hw1]
    show (setPrev h1 (some x) (some g)).bind _ = _
    rw [hw2]
    show (setNext h2 (some g) (some x)).bind _ = _
    rw [hw3]
    show (h3.read (some x)).bind _ = _
    rw [he3, Option.bind_some, hnext, hw4]
  · rw [hbefore, hafter4, hafter3, hafter2, hafter1]
    exact hc.attach hfresh hbg
  · rw [hheld4, hheld3, hheld2, hheld1]
  · intro p hp
    rw [hbefore, Function.update_of_ne fun he => hp (by simp [he]),
      Function.update_of_ne fun he => hp (by simp [he])]

/-- What the map owns: the node, the key and the value of each entry, the oldest one first, and the nodes
that wait for their reuse. -/
structure Laid (m : LinkedHashMap K V) (items : List (Nat × K × V)) (frees : List Nat) : Prop where
  map : m.map.Perm (items.map fun i => (i.1, i.1))
  stored : ∀ i ∈ items, held m.heap i.1 = some (some i.2.1, some i.2.2)
  keys : (items.map fun i => i.2.1).Nodup
  guard : ∀ g ∈ m.head, held m.heap g = some (none, none)
  ring : ∀ g ∈ m.head, Circle (after m.heap) (before m.heap) g (items.map Prod.fst)
  bare : m.head = none → items = []
  recycled : Listed (before m.heap) m.free frees
  moved : ∀ p ∈ frees, held m.heap p = some (none, none)
  nodup : (m.head.toList ++ items.map Prod.fst ++ frees).Nodup
  owned : ∀ p, (held m.heap p).isSome → p ∈ m.head.toList ++ items.map Prod.fst ++ frees

theorem laid_new : Laid (new : LinkedHashMap K V) [] [] where
  map := .nil
  stored _ hi := by cases hi
  keys := .nil
  guard _ hg := by cases hg
  ring _ hg := by cases hg
  bare _ := rfl
  recycled := rfl
  moved _ hp := by cases hp
  nodup := .nil
  owned _ hp := by cases hp

variable {m : LinkedHashMap K V} {items os ns : List (Nat × K × V)} {i : Nat × K × V} {k : K} {v : V}
  {map : List (Nat × Nat)}

theorem keyAt_of_held {w : Option V} (h : held heap p = some (some k, w)) : keyAt heap p = some k := by
  rw [held] at h
  obtain ⟨e, he, hei⟩ := Option.map_eq_some_iff.mp h
  rw [keyAt, he]
  exact (Prod.mk.inj hei).1

/-- A lookup among boxes that hold keys finds one with the key, or there is none. -/
theorem find_spec [DecidableEq K] (heap : Memory K V) (k : K) (map : List (Nat × Nat))
    (h : ∀ e ∈ map, (keyAt heap e.1).isSome) : ∃ r, find heap k map = some r ∧
      (∀ p ∈ r, ∃ e ∈ map, e.2 = p ∧ keyAt heap e.1 = some k) ∧
      (r = none → ∀ e ∈ map, keyAt heap e.1 ≠ some k) := by
  induction map with
  | nil =>
    refine ⟨none, rfl, ?_, ?_⟩
    · intro p hp
      cases hp
    · intro _ e he
      cases he
  | cons e map ih =>
    obtain ⟨r, hr, hsome, hnone⟩ := ih fun e he => h e (List.mem_cons_of_mem _ he)
    obtain ⟨key, hkey⟩ := Option.isSome_iff_exists.mp (h e List.mem_cons_self)
    refine ⟨if key = k then some e.2 else r, ?_, ?_, ?_⟩
    · rw [find, hkey, hr]
      rfl
    · intro p hp
      by_cases hk : key = k
      · rw [if_pos hk] at hp
        cases hp
        exact ⟨e, List.mem_cons_self, rfl, by rw [hkey, hk]⟩
      · rw [if_neg hk] at hp
        obtain ⟨e', he', hep⟩ := hsome p hp
        exact ⟨e', List.mem_cons_of_mem _ he', hep⟩
    · intro hr'
      by_cases hk : key = k
      · rw [if_pos hk] at hr'
        cases hr'
      · rw [if_neg hk] at hr'
        intro e' he'
        rcases List.mem_cons.mp he' with rfl | he'
        · rw [hkey]
          exact fun hs => hk (Option.some.inj hs)
        · exact hnone hr' e' he'

/-- A lookup finds the node that the items have for the key. -/
theorem find_of_stored [DecidableEq K] (k : K) (hmap : map.Perm (items.map fun i => (i.1, i.1)))
    (hstored : ∀ i ∈ items, held heap i.1 = some (some i.2.1, some i.2.2)) :
    (∃ os i ns, items = os ++ i :: ns ∧ i.2.1 = k ∧ find heap k map = some (some i.1)) ∨
      (∀ i ∈ items, i.2.1 ≠ k) ∧ find heap k map = some none := by
  have hmem : ∀ e ∈ map, ∃ i ∈ items, e = (i.1, i.1) := by
    intro e he
    obtain ⟨i, hi, rfl⟩ := List.mem_map.mp (hmap.mem_iff.mp he)
    exact ⟨i, hi, rfl⟩
  obtain ⟨r, hr, hsome, hnone⟩ := find_spec heap k map fun e he => by
    obtain ⟨i, hi, rfl⟩ := hmem e he
    rw [keyAt_of_held (hstored i hi)]
    rfl
  cases r with
  | some p =>
    obtain ⟨e, he, rfl, hk⟩ := hsome p rfl
    obtain ⟨i, hi, rfl⟩ := hmem e he
    rw [keyAt_of_held (hstored i hi)] at hk
    obtain ⟨os, ns, rfl⟩ := List.append_of_mem hi
    exact .inl ⟨os, i, ns, rfl, Option.some.inj hk, hr⟩
  | none =>
    refine .inr ⟨?_, hr⟩
    intro i hi hk
    refine hnone rfl (i.1, i.1) (hmap.mem_iff.mpr (List.mem_map_of_mem hi)) ?_
    rw [keyAt_of_held (hstored i hi), hk]

namespace Laid

theorem isSome_of_ring (h : Laid m items frees) (hg : m.head = some g) :
    ∀ p ∈ g :: items.map Prod.fst, (held m.heap p).isSome := by
  intro p hp
  rcases List.mem_cons.mp hp with rfl | hp
  · rw [h.guard p hg]
    rfl
  · obtain ⟨i, hi, rfl⟩ := List.mem_map.mp hp
    rw [h.stored i hi]
    rfl

theorem head_of_mem (h : Laid m items frees) (hi : i ∈ items) : ∃ g, m.head = some g := by
  cases hg : m.head with
  | none =>
    rw [h.bare hg] at hi
    cases hi
  | some g => exact ⟨g, rfl⟩

/-- No free node is a node in use. -/
theorem apart (h : Laid m items frees) (hp : p ∈ frees) : p ∉ m.head.toList ++ items.map Prod.fst := by
  intro hp'
  exact (List.nodup_append.mp h.nodup).2.2 p hp' p hp rfl

theorem nodup_nodes (h : Laid m items frees) : (items.map Prod.fst).Nodup :=
  (List.nodup_append.mp (List.nodup_append.mp h.nodup).1).2.1

/-- A node is taken out of the circle, and nothing else changes. -/
theorem detached (h : Laid m (os ++ i :: ns) frees) : ∃ g heap, m.head = some g ∧
    detach m.heap i.1 = some heap ∧
    Circle (after heap) (before heap) g ((os ++ ns).map Prod.fst) ∧ held heap = held m.heap ∧
    (∀ p ∈ frees, before heap p = before m.heap p) := by
  obtain ⟨g, hg⟩ := h.head_of_mem (i := i) (List.mem_append_right _ List.mem_cons_self)
  have hring := h.ring g hg
  have hsome := h.isSome_of_ring hg
  rw [List.map_append, List.map_cons] at hring hsome
  obtain ⟨heap, hd, hc, hheld, hbefore⟩ := detach_of_circle hring hsome
  refine ⟨g, heap, hg, hd, ?_, hheld, ?_⟩
  · rwa [List.map_append]
  · intro p hp
    apply hbefore
    intro hp'
    apply h.apart hp
    rw [hg, List.map_append, List.map_cons]
    exact hp'

/-- A node, apart from the others. -/
theorem out_perm (head : Option Nat) (os ns : List (Nat × K × V)) (i : Nat × K × V) (frees : List Nat) :
    (head.toList ++ (os ++ i :: ns).map Prod.fst ++ frees).Perm
      (i.1 :: (head.toList ++ (os ++ ns).map Prod.fst ++ frees)) := by
  simp only [List.map_append, List.map_cons, List.append_assoc, List.cons_append]
  exact (List.perm_middle.append_left _).trans List.perm_middle

theorem others (h : Laid m (os ++ i :: ns) frees) (hg : m.head = some g) :
    ∀ q, q ∈ g :: (os ++ ns).map Prod.fst ∨ q ∈ frees → q ≠ i.1 := by
  have hnd := (out_perm m.head os ns i frees).nodup_iff.mp h.nodup
  rw [hg] at hnd
  rintro q hq rfl
  refine (List.nodup_cons.mp hnd).1 ?_
  rcases hq with hq | hq
  · exact List.mem_append_left _ hq
  · exact List.mem_append_right _ hq

theorem move_perm (os ns : List (Nat × K × V)) (i : Nat × K × V) : (os ++ ns ++ [i]).Perm (os ++ i :: ns) :=
  (List.perm_append_singleton i _).trans List.perm_middle.symm

/-- The same nodes are kept, in another order. -/
theorem of_perm {items' : List (Nat × K × V)} {heap : Memory K V} (h : Laid m items frees)
    (hperm : items'.Perm items) (hheld : held heap = held m.heap)
    (hring : ∀ g ∈ m.head, Circle (after heap) (before heap) g (items'.map Prod.fst))
    (hbefore : ∀ p ∈ frees, before heap p = before m.heap p) :
    Laid { m with heap := heap } items' frees where
  map := h.map.trans (hperm.map _).symm
  stored i hi := by
    show held heap i.1 = _
    rw [hheld]
    exact h.stored i (hperm.mem_iff.mp hi)
  keys := (hperm.map _).nodup_iff.mpr h.keys
  guard g hg := by
    show held heap g = _
    rw [hheld]
    exact h.guard g hg
  ring := hring
  bare hg := by
    rw [h.bare hg] at hperm
    exact hperm.eq_nil
  recycled := h.recycled.congr hbefore
  moved p hp := by
    show held heap p = _
    rw [hheld]
    exact h.moved p hp
  nodup := (((hperm.map Prod.fst).append_left _).append_right _).nodup_iff.mpr h.nodup
  owned p hp := by
    rw [hheld] at hp
    exact (((hperm.map Prod.fst).append_left _).append_right _).mem_iff.mpr (h.owned p hp)

/-- A node is made the newest one. -/
theorem refreshed (h : Laid m (os ++ i :: ns) frees) : ∃ heap heap',
    detach m.heap i.1 = some heap ∧ attach heap m.head i.1 = some heap' ∧
      Laid { m with heap := heap' } (os ++ ns ++ [i]) frees := by
  obtain ⟨g, heap, hg, hd, hc, hheld, hbefore⟩ := h.detached
  have hsome := h.isSome_of_ring hg
  have hnodes := h.nodup_nodes
  have hall := h.nodup
  rw [hg] at hall
  obtain ⟨heap', ha, hc', hheld', hbefore'⟩ := attach_of_circle (x := i.1) hc
    (by
      rw [hheld]
      intro p hp
      apply hsome
      simp only [List.map_append, List.map_cons, List.mem_cons, List.mem_append] at hp ⊢
      tauto)
    (by
      rw [hheld]
      apply hsome
      simp)
    (by
      intro hp
      have hnd : (i.1 :: g :: (os ++ ns).map Prod.fst).Nodup := by
        have hl := (List.nodup_append.mp hall).1
        refine (List.Perm.nodup_iff ?_).mp hl
        rw [List.map_append, List.map_cons, List.map_append]
        exact (List.perm_middle.cons g).trans (List.Perm.swap ..)
      exact (List.nodup_cons.mp hnd).1 hp)
  refine ⟨heap, heap', hd, hg ▸ ha, ?_⟩
  refine h.of_perm (move_perm os ns i) (hheld'.trans hheld) ?_ ?_
  · intro g' hg'
    cases hg.symm.trans hg'
    rw [List.map_append]
    exact hc'
  · intro p hp
    rw [hbefore', hbefore p hp]
    intro hp'
    apply h.apart hp
    rw [hg]
    simp only [List.map_append, List.map_cons, List.mem_cons, List.mem_append, Option.toList_some] at hp' ⊢
    tauto

/-- The value of a node is read and assigned. -/
theorem assigned (h : Laid m (os ++ i :: ns) frees) : ∃ e, m.heap.read (some i.1) = some e ∧
    e.value = some i.2.2 ∧ ∀ w, ∃ heap,
      m.heap.write (some i.1) (fun e => { e with value := some w }) = some heap ∧
        Laid { m with heap := heap } (os ++ (i.1, i.2.1, w) :: ns) frees := by
  have hmem : i ∈ os ++ i :: ns := List.mem_append_right _ List.mem_cons_self
  have hi := h.stored i hmem
  obtain ⟨e, he⟩ := cell_of_held (Option.isSome_of_eq_some hi)
  have hkv : e.key = some i.2.1 ∧ e.value = some i.2.2 := by
    rw [held, he] at hi
    exact Prod.mk.inj (Option.some.inj hi)
  refine ⟨e, he, hkv.2, fun w => ⟨_, Heap.write_some he, ?_⟩⟩
  have hnext : before (m.heap.set i.1 (some { e with value := some w })) = before m.heap := by
    rw [before_set, Function.update_eq_self_iff, before, he]
    rfl
  have hprev : after (m.heap.set i.1 (some { e with value := some w })) = after m.heap := by
    rw [after_set, Function.update_eq_self_iff, after, he]
    rfl
  have hself : held (m.heap.set i.1 (some { e with value := some w })) i.1 = some (some i.2.1, some w) := by
    rw [held_set, Function.update_self, ← hkv.1]
    rfl
  have hother : ∀ p, p ≠ i.1 → held (m.heap.set i.1 (some { e with value := some w })) p = held m.heap p := by
    intro p hp
    rw [held_set, Function.update_of_ne hp]
  have hnodes : (os ++ (i.1, i.2.1, w) :: ns).map Prod.fst = (os ++ i :: ns).map Prod.fst := by
    simp
  have hall := h.nodup
  have hnd := h.nodup_nodes
  have hmemFst : i.1 ∈ (os ++ i :: ns).map Prod.fst := List.mem_map_of_mem hmem
  generalize m.heap.set i.1 (some { e with value := some w }) = heap at *
  constructor
  case map =>
    refine h.map.trans (List.Perm.of_eq ?_)
    simp
  case stored =>
    intro j hj
    show held heap j.1 = _
    rw [List.map_append, List.map_cons, List.nodup_append] at hnd
    rcases List.mem_append.mp hj with hj | hj
    · rw [hother j.1 fun he => hnd.2.2 j.1 (List.mem_map_of_mem hj) i.1 List.mem_cons_self he]
      exact h.stored j (List.mem_append_left _ hj)
    · rcases List.mem_cons.mp hj with rfl | hj
      · exact hself
      · rw [hother j.1 fun he => (List.nodup_cons.mp hnd.2.1).1 (he ▸ List.mem_map_of_mem hj)]
        exact h.stored j (List.mem_append_right _ (List.mem_cons_of_mem _ hj))
  case keys =>
    have hk := h.keys
    rw [List.map_append, List.map_cons] at hk ⊢
    exact hk
  case guard =>
    intro g hg
    show held heap g = _
    rw [hother g]
    · exact h.guard g hg
    · rintro rfl
      rw [Option.mem_def.mp hg] at hall
      exact (List.nodup_append.mp (List.nodup_append.mp hall).1).2.2 i.1 (List.mem_singleton_self _) i.1 hmemFst rfl
  case ring =>
    intro g hg
    show Circle (after heap) (before heap) g _
    rw [hnext, hprev, hnodes]
    exact h.ring g hg
  case bare =>
    intro hg
    have := h.bare hg
    simp at this
  case recycled =>
    show Listed (before heap) m.free frees
    rw [hnext]
    exact h.recycled
  case moved =>
    intro p hp
    show held heap p = _
    rw [hother p]
    · exact h.moved p hp
    · rintro rfl
      exact h.apart hp (List.mem_append_right _ hmemFst)
  case nodup =>
    rw [hnodes]
    exact h.nodup
  case owned =>
    intro p hp
    rw [hnodes]
    by_cases hpi : p = i.1
    · subst hpi
      exact List.mem_append_left _ (List.mem_append_right _ hmemFst)
    · exact h.owned p (by rwa [← hother p hpi])

theorem unfile_perm (h : Laid m (os ++ i :: ns) frees) :
    (unfile m.map i.1).Perm ((os ++ ns).map fun i => (i.1, i.1)) := by
  have hnd := h.nodup_nodes
  rw [List.map_append, List.map_cons, List.nodup_append] at hnd
  have hos : ∀ j ∈ os, j.1 ≠ i.1 := fun j hj =>
    hnd.2.2 j.1 (List.mem_map_of_mem hj) i.1 List.mem_cons_self
  have hns : ∀ j ∈ ns, j.1 ≠ i.1 := by
    intro j hj he
    exact (List.nodup_cons.mp hnd.2.1).1 (he ▸ List.mem_map_of_mem hj)
  refine (h.map.filter _).trans (List.Perm.of_eq ?_)
  rw [List.filter_map, List.filter_append, List.filter_cons_of_neg (by simp),
    List.filter_eq_self.mpr fun j hj => by simpa using hos j hj,
    List.filter_eq_self.mpr fun j hj => by simpa using hns j hj]

/-- An entry goes. Its node goes too, or becomes the first one of those that are free. -/
theorem without {heap : Memory K V} {free : Option Nat} {frees' : List Nat}
    (h : Laid m (os ++ i :: ns) frees)
    (hring : ∀ g ∈ m.head, Circle (after heap) (before heap) g ((os ++ ns).map Prod.fst))
    (hheld : ∀ p, p ≠ i.1 → held heap p = held m.heap p) (hfree : Listed (before heap) free frees')
    (hnode : frees' = frees ∧ held heap i.1 = none ∨
      frees' = i.1 :: frees ∧ held heap i.1 = some (none, none)) :
    Laid ⟨unfile m.map i.1, m.head, free, heap⟩ (os ++ ns) frees' := by
  have hperm := out_perm m.head os ns i frees
  have hall := hperm.nodup_iff.mp h.nodup
  obtain ⟨hout, hrest⟩ := List.nodup_cons.mp hall
  have hsub : ∀ j ∈ os ++ ns, j ∈ os ++ i :: ns := by
    intro j hj
    simp only [List.mem_append, List.mem_cons] at hj ⊢
    tauto
  constructor
  case map => exact h.unfile_perm
  case stored =>
    intro j hj
    show held heap j.1 = _
    rw [hheld j.1]
    · exact h.stored j (hsub j hj)
    · intro he
      exact hout (List.mem_append_left _ (List.mem_append_right _ (he ▸ List.mem_map_of_mem hj)))
  case keys =>
    refine h.keys.sublist (List.Sublist.map _ ?_)
    exact (List.sublist_cons_self i ns).append_left os
  case guard =>
    intro g hg
    show held heap g = _
    rw [hheld g]
    · exact h.guard g hg
    · rintro rfl
      rw [Option.mem_def.mp hg] at hout
      exact hout (List.mem_append_left _ (List.mem_append_left _ (List.mem_singleton_self _)))
  case ring => exact hring
  case bare =>
    intro hg
    have := h.bare hg
    simp at this
  case recycled => exact hfree
  case moved =>
    have hfrees : ∀ p ∈ frees, held heap p = some (none, none) := by
      intro p hp
      rw [hheld p fun he => hout (List.mem_append_right _ (he ▸ hp))]
      exact h.moved p hp
    intro p hp
    rcases hnode with ⟨rfl, _⟩ | ⟨rfl, hi⟩
    · exact hfrees p hp
    · rcases List.mem_cons.mp hp with rfl | hp
      · exact hi
      · exact hfrees p hp
  case nodup =>
    rcases hnode with ⟨rfl, _⟩ | ⟨rfl, _⟩
    · exact hrest
    · exact List.perm_middle.nodup_iff.mpr hall
  case owned =>
    intro p hp
    show p ∈ m.head.toList ++ (os ++ ns).map Prod.fst ++ frees'
    by_cases hpi : p = i.1
    · subst hpi
      rcases hnode with ⟨_, hi⟩ | ⟨rfl, _⟩
      · rw [hi] at hp
        cases hp
      · exact List.mem_append_right _ List.mem_cons_self
    · have hmem := hperm.mem_iff.mp (h.owned p (by rwa [← hheld p hpi]))
      have hmem := (List.mem_cons.mp hmem).resolve_left hpi
      rcases hnode with ⟨rfl, _⟩ | ⟨rfl, _⟩
      · exact hmem
      · rcases List.mem_append.mp hmem with hmem | hmem
        · exact List.mem_append_left _ hmem
        · exact List.mem_append_right _ (List.mem_cons_of_mem _ hmem)

variable {A : Heap.Allocator (LinkedHashMapEntry K V)}

/-- A place that is not in use holds nothing. -/
theorem held_place (heap : Memory K V) : held heap (A.place heap) = none := by
  rw [held, A.vacant]
  rfl

/-- From the first insertion on there is a guard. -/
theorem guarded (h : Laid m items frees) : ∃ m', m.guarded A = some m' ∧ Laid m' items frees ∧
    ∃ g, m'.head = some g := by
  cases hg : m.head with
  | some g =>
    refine ⟨m, ?_, h, g, hg⟩
    rw [LinkedHashMap.guarded, hg]
  | none =>
    have hitems := h.bare hg
    subst hitems
    have hvacant := held_place (A := A) m.heap
    have hout : ∀ p ∈ frees, p ≠ A.place m.heap := by
      rintro p hp rfl
      rw [h.moved _ hp] at hvacant
      cases hvacant
    generalize hplace : A.place m.heap = g at hvacant hout
    have hself : held (m.heap.set g (some .uninitialized)) g = some (none, none) := by
      rw [held_set, Function.update_self]
      rfl
    obtain ⟨h1, hw1, hbefore1, hafter1, hheld1⟩ := setNext_of_held (some g) (by rw [hself]; rfl)
    obtain ⟨h2, hw2, hbefore2, hafter2, hheld2⟩ : ∃ h2, setPrev h1 (some g) (some g) = some h2 ∧ _ :=
      setPrev_of_held (some g) (by rw [hheld1, hself]; rfl)
    have hbefore : before h2 = Function.update (before m.heap) g (some g) := by
      rw [hbefore2, hbefore1, before_set, Function.update_idem]
    have hheld : held h2 = Function.update (held m.heap) g (some (none, none)) := by
      rw [hheld2, hheld1, held_set]
      rfl
    refine ⟨{ m with head := some g, heap := h2 }, ?_, ?_, g, rfl⟩
    · rw [LinkedHashMap.guarded, hg]
      show (setNext (m.heap.set (A.place m.heap) (some .uninitialized)) (some (A.place m.heap))
        (some (A.place m.heap))).bind _ = _
      rw [hplace, hw1]
      show (setPrev h1 (some g) (some g)).bind _ = _
      rw [hw2]
      rfl
    · constructor
      case map => exact h.map
      case stored =>
        intro i hi
        cases hi
      case keys => exact .nil
      case guard =>
        rintro g' hg'
        cases hg'
        show held h2 g = _
        rw [hheld, Function.update_self]
      case ring =>
        rintro g' hg'
        cases hg'
        refine Circle.single ?_ ?_
        · show after h2 g = _
          rw [hafter2, Function.update_self]
        · show before h2 g = _
          rw [hbefore, Function.update_self]
      case bare =>
        intro hn
        cases hn
      case recycled =>
        refine h.recycled.congr fun p hp => ?_
        show before h2 p = _
        rw [hbefore, Function.update_of_ne (hout p hp)]
      case moved =>
        intro p hp
        show held h2 p = _
        rw [hheld, Function.update_of_ne (hout p hp)]
        exact h.moved p hp
      case nodup =>
        refine List.nodup_cons.mpr ⟨fun hp => hout g hp rfl, ?_⟩
        have := h.nodup
        rwa [hg] at this
      case owned =>
        intro p hp
        by_cases hpg : p = g
        · subst hpg
          exact List.mem_cons_self
        · have hp : (held h2 p).isSome := hp
          rw [hheld, Function.update_of_ne hpg] at hp
          have := h.owned p hp
          rw [hg] at this
          exact List.mem_cons_of_mem _ this

end Laid

/-- A box in hand for a new entry -/
structure Boxed (m m' : LinkedHashMap K V) (items : List (Nat × K × V)) (frees : List Nat) (node : Nat)
    (k : K) (v : V) : Prop where
  map : m'.map = m.map
  head : m'.head = m.head
  fresh : node ∉ m.head.toList ++ items.map Prod.fst ++ frees
  held : held m'.heap = Function.update (held m.heap) node (some (some k, some v))
  before : ∀ p, p ≠ node → before m'.heap p = before m.heap p
  after : ∀ p, p ≠ node → after m'.heap p = after m.heap p
  recycled : Listed (LinkedHashMap.before m'.heap) m'.free frees
  moved : ∀ p ∈ frees, LinkedHashMap.held m.heap p = some (none, none)
  nodup : (m.head.toList ++ items.map Prod.fst ++ frees).Nodup
  owned : ∀ p, (LinkedHashMap.held m.heap p).isSome → p ≠ node →
    p ∈ m.head.toList ++ items.map Prod.fst ++ frees

namespace Boxed

variable {m' : LinkedHashMap K V} {node : Nat} {heap : Memory K V}

theorem held_self (hb : Boxed m m' items frees node k v) :
    LinkedHashMap.held m'.heap node = some (some k, some v) := by
  rw [hb.held, Function.update_self]

theorem held_of_ne (hb : Boxed m m' items frees node k v) (hp : p ≠ node) :
    LinkedHashMap.held m'.heap p = LinkedHashMap.held m.heap p := by
  rw [hb.held, Function.update_of_ne hp]

theorem ne_of_mem (hb : Boxed m m' items frees node k v)
    (hp : p ∈ m.head.toList ++ items.map Prod.fst ++ frees) : p ≠ node := by
  rintro rfl
  exact hb.fresh hp

theorem ne_of_ring (hb : Boxed m m' items frees node k v) (hg : m.head = some g)
    (hp : p ∈ g :: items.map Prod.fst) : p ≠ node := by
  apply hb.ne_of_mem
  rw [hg]
  exact List.mem_append_left _ hp

theorem stored (hb : Boxed m m' items frees node k v)
    (hs : ∀ i ∈ items, LinkedHashMap.held m.heap i.1 = some (some i.2.1, some i.2.2)) :
    ∀ i ∈ items, LinkedHashMap.held m'.heap i.1 = some (some i.2.1, some i.2.2) := by
  intro i hi
  rw [hb.held_of_ne]
  · exact hs i hi
  · exact hb.ne_of_mem (List.mem_append_left _ (List.mem_append_right _ (List.mem_map_of_mem hi)))

theorem perm (hb : Boxed m m' items frees node k v) :
    (m'.head.toList ++ (items ++ [(node, k, v)]).map Prod.fst ++ frees).Perm
      (node :: (m.head.toList ++ items.map Prod.fst ++ frees)) := by
  rw [hb.head, List.map_append, List.append_assoc, List.append_assoc, List.append_assoc]
  exact (List.perm_middle.append_left (m.head.toList)).trans List.perm_middle

/-- The boxed entry is attached behind the others, and filed. -/
theorem laid {frees' : List Nat} (hb : Boxed m m' items frees' node k v) (h : Laid m items frees)
    (hg : m.head = some g) (hk : ∀ i ∈ items, i.2.1 ≠ k)
    (hc : Circle (LinkedHashMap.after heap) (LinkedHashMap.before heap) g (items.map Prod.fst ++ [node]))
    (hheld : LinkedHashMap.held heap = LinkedHashMap.held m'.heap)
    (hbefore : ∀ p ∉ node :: g :: items.map Prod.fst,
      LinkedHashMap.before heap p = LinkedHashMap.before m'.heap p) :
    Laid { m' with map := m'.map ++ [(node, node)], heap := heap } (items ++ [(node, k, v)]) frees' := by
  have hhead : ∀ g' ∈ m'.head, g' = g := by
    intro g' hg'
    rw [hb.head, hg] at hg'
    exact (Option.some.inj hg').symm
  constructor
  case map =>
    show (m'.map ++ [(node, node)]).Perm _
    rw [hb.map, List.map_append]
    exact h.map.append_right _
  case stored =>
    intro i hi
    show LinkedHashMap.held heap i.1 = _
    rw [hheld]
    rcases List.mem_append.mp hi with hi | hi
    · exact hb.stored h.stored i hi
    · rw [List.mem_singleton.mp hi]
      exact hb.held_self
  case keys =>
    rw [List.map_append]
    refine List.nodup_append.mpr ⟨h.keys, List.nodup_singleton _, ?_⟩
    rintro k' hk' k'' hk'' rfl
    obtain ⟨i, hi, rfl⟩ := List.mem_map.mp hk'
    exact hk i hi (List.mem_singleton.mp hk'')
  case guard =>
    intro g' hg'
    show LinkedHashMap.held heap g' = _
    rw [hhead g' hg', hheld, hb.held_of_ne (hb.ne_of_ring hg List.mem_cons_self)]
    exact h.guard g hg
  case ring =>
    intro g' hg'
    rw [hhead g' hg', List.map_append]
    exact hc
  case bare =>
    intro hn
    have hn : m'.head = none := hn
    rw [hb.head, hg] at hn
    cases hn
  case recycled =>
    refine hb.recycled.congr fun p hp => ?_
    apply hbefore
    intro hp'
    rcases List.mem_cons.mp hp' with rfl | hp'
    · exact hb.fresh (List.mem_append_right _ hp)
    · refine (List.nodup_append.mp hb.nodup).2.2 p ?_ p hp rfl
      rw [hg]
      exact hp'
  case moved =>
    intro p hp
    show LinkedHashMap.held heap p = _
    rw [hheld, hb.held_of_ne (hb.ne_of_mem (List.mem_append_right _ hp))]
    exact hb.moved p hp
  case nodup => exact hb.perm.nodup_iff.mpr (List.nodup_cons.mpr ⟨hb.fresh, hb.nodup⟩)
  case owned =>
    intro p hp
    have hp : (LinkedHashMap.held heap p).isSome := hp
    refine hb.perm.mem_iff.mpr ?_
    by_cases hpn : p = node
    · subst hpn
      exact List.mem_cons_self
    · rw [hheld, hb.held_of_ne hpn] at hp
      exact List.mem_cons_of_mem _ (hb.owned p hp hpn)

end Boxed

namespace Laid

variable {A : Heap.Allocator (LinkedHashMapEntry K V)}

/-- A new entry gets the node that was freed last, or one from the allocator. -/
theorem box (h : Laid m items frees) (k : K) (v : V) : ∃ node m' frees',
    m.box A k v = some (node, m') ∧ Boxed m m' items frees' node k v := by
  have hrec := h.recycled
  cases hfree : m.free with
  | none =>
    have hnil : frees = [] := by
      rw [hfree] at hrec
      cases frees with
      | nil => rfl
      | cons p ps => cases hrec.1
    subst hnil
    have hvacant := held_place (A := A) m.heap
    refine ⟨A.place m.heap, { m with heap := m.heap.set (A.place m.heap) (some (.new k v)) }, [], ?_, ?_⟩
    · rw [LinkedHashMap.box, hfree]
      rfl
    · refine ⟨rfl, rfl, ?_, held_set _, ?_, ?_, ?_, h.moved, h.nodup, fun p hp _ => h.owned p hp⟩
      · intro hmem
        rw [List.append_nil] at hmem
        rcases List.mem_append.mp hmem with hmem | hmem
        · rw [h.guard _ (Option.mem_toList.mp hmem)] at hvacant
          cases hvacant
        · obtain ⟨i, hi, he⟩ := List.mem_map.mp hmem
          rw [← he, h.stored i hi] at hvacant
          cases hvacant
      · intro p hp
        show before (m.heap.set _ _) p = _
        rw [before_set, Function.update_of_ne hp]
      · intro p hp
        show after (m.heap.set _ _) p = _
        rw [after_set, Function.update_of_ne hp]
      · exact hfree
  | some free =>
    cases frees with
    | nil =>
      rw [hfree] at hrec
      cases hrec
    | cons p frees =>
      obtain ⟨hp, hrest⟩ := hrec
      cases hfree.symm.trans hp
      have hheld := h.moved free List.mem_cons_self
      obtain ⟨e, he, henext, -, -⟩ := read_of_held (by rw [hheld]; rfl)
      have hperm : (m.head.toList ++ items.map Prod.fst ++ free :: frees).Perm
          (free :: (m.head.toList ++ items.map Prod.fst ++ frees)) := List.perm_middle
      obtain ⟨hout, hnodup⟩ := List.nodup_cons.mp (hperm.nodup_iff.mp h.nodup)
      refine ⟨free, { m with free := e.next, heap := m.heap.set free (some (.new k v)) }, frees, ?_, ?_⟩
      · rw [LinkedHashMap.box, hfree]
        show (m.heap.read (some free)).bind _ = _
        rw [he]
        show (m.heap.write (some free) _).bind _ = _
        rw [Heap.write_some he]
        rfl
      · refine ⟨rfl, rfl, hout, held_set _, ?_, ?_, ?_, ?_, hnodup, ?_⟩
        · intro p hp
          show before (m.heap.set _ _) p = _
          rw [before_set, Function.update_of_ne hp]
        · intro p hp
          show after (m.heap.set _ _) p = _
          rw [after_set, Function.update_of_ne hp]
        · show Listed _ e.next frees
          rw [henext]
          refine hrest.congr fun q hq => ?_
          show before (m.heap.set _ _) q = _
          have hne : q ≠ free := by
            rintro rfl
            exact hout (List.mem_append_right _ hq)
          rw [before_set, Function.update_of_ne hne]
        · exact fun p hp => h.moved p (List.mem_cons_of_mem _ hp)
        · intro p hp hne
          exact (List.mem_cons.mp (hperm.mem_iff.mp (h.owned p hp))).resolve_left hne

/-- The box in hand is filed and linked. -/
theorem insertNew [DecidableEq K] (h : Laid m items frees) (hg : m.head = some g)
    (hk : ∀ i ∈ items, i.2.1 ≠ k) (v : V) : ∃ node m' frees' heap, m.box A k v = some (node, m') ∧
      file m'.heap m'.map node = some (m'.map ++ [(node, node)], m'.heap) ∧
      attach m'.heap m'.head node = some heap ∧
      Laid { m' with map := m'.map ++ [(node, node)], heap := heap } (items ++ [(node, k, v)]) frees' := by
  obtain ⟨node, m', frees', hbox, hb⟩ := h.box (A := A) k v
  have hring : Circle (after m'.heap) (before m'.heap) g (items.map Prod.fst) :=
    (h.ring g hg).congr (fun p hp => hb.after p (hb.ne_of_ring hg hp))
      fun p hp => hb.before p (hb.ne_of_ring hg hp)
  have hfind : find m'.heap k m'.map = some none := by
    have hmap := h.map
    rw [← hb.map] at hmap
    rcases find_of_stored k hmap (hb.stored h.stored) with ⟨os, i, ns, rfl, hik, _⟩ | ⟨_, hf⟩
    · exact (hk i (List.mem_append_right _ List.mem_cons_self) hik).elim
    · exact hf
  have hisSome : ∀ p ∈ g :: items.map Prod.fst, (held m'.heap p).isSome := by
    intro p hp
    rw [hb.held_of_ne (hb.ne_of_ring hg hp)]
    exact h.isSome_of_ring hg p hp
  have hself : (held m'.heap node).isSome := by
    rw [hb.held_self]
    rfl
  obtain ⟨heap, ha, hc, hheld, hbefore⟩ :=
    attach_of_circle hring hisSome hself fun hp => hb.ne_of_ring hg hp rfl
  refine ⟨node, m', frees', heap, hbox, ?_, ?_, hb.laid h hg hk hc hheld hbefore⟩
  · rw [file, keyAt_of_held hb.held_self]
    show (find m'.heap k m'.map).bind _ = _
    rw [hfind]
    rfl
  · rw [hb.head, hg]
    exact ha

end Laid

end Origel.RedoxFs.LinkedHashMap
