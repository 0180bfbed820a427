import Mathlib.Data.List.Perm.Subperm
import Origel.RedoxFs.Answers

/-! Runs of a map of linked boxes: its ends, its iterators, and the freeing of its boxes. -/
namespace Origel.RedoxFs.LinkedHashMap

open Origel.Lib

variable {K V : Type} {heap : Memory K V} {m : LinkedHashMap K V} {items os ns : List (Nat × K × V)}
  {frees ps : List Nat} {i : Nat × K × V} {g p : Nat} {k : K} {v : V}

/-- The cells are no longer allocated, and the others are as they were. -/
def Freed (heap heap' : Memory K V) (ps : List Nat) : Prop :=
  (∀ p ∈ ps, heap'.cell p = none) ∧ ∀ p, p ∉ ps → heap'.cell p = heap.cell p

theorem freed_nil : Freed heap heap [] := ⟨fun _ hp => (List.not_mem_nil hp).elim, fun _ _ => rfl⟩

theorem Freed.cons {heap' : Memory K V} (h : Freed (heap.set p none) heap' ps) : Freed heap heap' (p :: ps) := by
  constructor
  · intro q hq
    by_cases hqs : q ∈ ps
    · exact h.1 q hqs
    · rw [h.2 q hqs, (List.mem_cons.mp hq).resolve_right hqs]
      exact Function.update_self ..
  · intro q hq
    have hne : q ≠ p := by
      rintro rfl
      exact hq List.mem_cons_self
    rw [h.2 q fun hqs => hq (List.mem_cons_of_mem _ hqs)]
    exact Function.update_of_ne hne _ _

/-- Boxes that hold a key and a value are dropped, each once. -/
theorem dropBoxes (heap : Memory K V) (hps : ps.Nodup)
    (hheld : ∀ p ∈ ps, ∃ k v, held heap p = some (some k, some v)) :
    ∃ heap', ps.foldlM dropBox heap = some heap' ∧ Freed heap heap' ps := by
  induction ps generalizing heap with
  | nil => exact ⟨heap, rfl, freed_nil⟩
  | cons p ps ih =>
    obtain ⟨hp, hps⟩ := List.nodup_cons.mp hps
    obtain ⟨k, v, hkv⟩ := hheld p List.mem_cons_self
    obtain ⟨e, he⟩ := cell_of_held (Option.isSome_of_eq_some hkv)
    rw [held, he] at hkv
    obtain ⟨hkey, hvalue⟩ := Prod.mk.inj (Option.some.inj hkv)
    obtain ⟨heap', hd, hfreed⟩ := ih (heap.set p none) hps fun q hq => by
      have hqp : q ≠ p := fun he => hp (he ▸ hq)
      obtain ⟨k, v, hkv⟩ := hheld q (List.mem_cons_of_mem _ hq)
      exact ⟨k, v, by rw [held_set, Function.update_of_ne hqp, hkv]⟩
    refine ⟨heap', ?_, hfreed.cons⟩
    rw [List.foldlM_cons, dropBox, Heap.release_some he]
    show (e.key.bind _ >>= _) = _
    rw [hkey]
    show (e.value.bind _ >>= _) = _
    rw [hvalue]
    exact hd

/-- The free list is freed, node by node. -/
theorem clearFrees_of_listed (turns : Nat) (heap : Memory K V) (free : Option Nat)
    (hlisted : Listed (before heap) free ps) (hps : ps.Nodup) (hheld : ∀ p ∈ ps, (held heap p).isSome)
    (hturns : ps.length ≤ turns) : ∃ heap', clearFrees turns heap free = some heap' ∧ Freed heap heap' ps := by
  induction ps generalizing turns heap free with
  | nil =>
    refine ⟨heap, ?_, freed_nil⟩
    rw [show free = none from hlisted]
    cases turns <;> rfl
  | cons p ps ih =>
    obtain ⟨hp, hps⟩ := List.nodup_cons.mp hps
    obtain ⟨rfl, hrest⟩ := hlisted
    cases turns with
    | zero => cases hturns
    | succ turns =>
      obtain ⟨e, he, henext, -, -⟩ := read_of_held (hheld p List.mem_cons_self)
      have hne : ∀ q ∈ ps, q ≠ p := by
        rintro q hq rfl
        exact hp hq
      obtain ⟨heap', hc, hfreed⟩ := ih turns (heap.set p none) e.next
        (by
          rw [henext]
          refine hrest.congr fun q hq => ?_
          rw [before_set, Function.update_of_ne (hne q hq)])
        hps
        (by
          intro q hq
          rw [held_set, Function.update_of_ne (hne q hq)]
          exact hheld q (List.mem_cons_of_mem _ hq))
        (Nat.le_of_succ_le_succ hturns)
      refine ⟨heap', ?_, hfreed.cons⟩
      rw [clearFrees, he]
      show ((heap.release p).bind _).bind _ = _
      rw [Heap.release_some he]
      exact hc

/-- Distinct cells that are allocated are no more than the addresses below the top. -/
theorem length_le_top (hps : ps.Nodup) (hheld : ∀ p ∈ ps, (held heap p).isSome) : ps.length ≤ heap.top := by
  have hsub : ps ⊆ List.range heap.top := by
    intro p hp
    obtain ⟨e, he⟩ := cell_of_held (hheld p hp)
    exact List.mem_range.mpr (Heap.lt_top he)
  have hle := (List.subperm_of_subset hps hsub).length_le
  rwa [List.length_range] at hle

namespace Laid

theorem clearFreeList (h : Laid m items frees) : ∃ m', m.clearFreeList = some m' ∧ Laid m' items [] ∧
    m'.head = m.head ∧ m'.map = m.map := by
  have hnd := List.nodup_append.mp h.nodup
  have hheld : ∀ p ∈ frees, (held m.heap p).isSome := by
    intro p hp
    rw [h.moved p hp]
    rfl
  obtain ⟨heap, hc, hfreed⟩ := clearFrees_of_listed m.heap.top m.heap m.free h.recycled hnd.2.1 hheld
    (length_le_top hnd.2.1 hheld)
  have hother : ∀ p, p ∈ m.head.toList ++ items.map Prod.fst → heap.cell p = m.heap.cell p := by
    intro p hp
    exact hfreed.2 p fun hp' => h.apart hp' hp
  have hheldEq : ∀ p, p ∈ m.head.toList ++ items.map Prod.fst → held heap p = held m.heap p := by
    intro p hp
    rw [held, hother p hp, held]
  refine ⟨{ m with heap := heap, free := none }, ?_, ?_, rfl, rfl⟩
  · rw [LinkedHashMap.clearFreeList, hc]
    rfl
  constructor
  case map => exact h.map
  case stored =>
    intro i hi
    show held heap i.1 = _
    rw [hheldEq i.1 (List.mem_append_right _ (List.mem_map_of_mem hi))]
    exact h.stored i hi
  case keys => exact h.keys
  case guard =>
    intro g hg
    show held heap g = _
    rw [hheldEq g (List.mem_append_left _ (Option.mem_toList.mpr hg))]
    exact h.guard g hg
  case ring =>
    intro g hg
    have hmem : ∀ p ∈ g :: items.map Prod.fst, p ∈ m.head.toList ++ items.map Prod.fst := by
      intro p hp
      rw [Option.mem_def.mp hg]
      exact hp
    refine (h.ring g hg).congr ?_ ?_
    · intro p hp
      show after heap p = _
      rw [after, hother p (hmem p hp), after]
    · intro p hp
      show before heap p = _
      rw [before, hother p (hmem p hp), before]
  case bare => exact h.bare
  case recycled => rfl
  case moved =>
    intro p hp
    cases hp
  case nodup =>
    rw [List.append_nil]
    exact hnd.1
  case owned =>
    intro p hp
    have hp : (held heap p).isSome := hp
    rw [List.append_nil]
    by_cases hpf : p ∈ frees
    · rw [held, hfreed.1 p hpf] at hp
      cases hp
    · rw [held, hfreed.2 p hpf] at hp
      exact (List.mem_append.mp (h.owned p hp)).resolve_right hpf

/-- The nodes of all entries are gone, and the guard is alone in the circle. -/
theorem emptied {heap : Memory K V} (h : Laid m items frees)
    (hgone : ∀ p ∈ items.map Prod.fst, held heap p = none)
    (hkept : ∀ p ∉ items.map Prod.fst, held heap p = held m.heap p)
    (hbefore : ∀ p ∈ frees, before heap p = before m.heap p)
    (hring : ∀ g ∈ m.head, Circle (after heap) (before heap) g []) :
    Laid { m with map := [], heap := heap } [] frees := by
  have hall := h.nodup
  constructor
  case map => exact .nil
  case stored =>
    intro i hi
    cases hi
  case keys => exact .nil
  case guard =>
    intro g hg
    show held heap g = _
    have hg : g ∈ m.head := hg
    have hout : g ∉ items.map Prod.fst := by
      rw [Option.mem_def.mp hg] at hall
      exact (List.nodup_cons.mp (List.nodup_append.mp hall).1).1
    rw [hkept g hout]
    exact h.guard g hg
  case ring => exact hring
  case bare => exact fun _ => rfl
  case recycled => exact h.recycled.congr hbefore
  case moved =>
    intro p hp
    show held heap p = _
    rw [hkept p fun hp' => h.apart hp (List.mem_append_right _ hp')]
    exact h.moved p hp
  case nodup =>
    rw [List.append_assoc] at hall
    have hsub := (List.sublist_append_right (items.map Prod.fst) frees).append_left m.head.toList
    rw [List.map_nil, List.append_nil]
    exact hall.sublist hsub
  case owned =>
    intro p hp
    have hp : (held heap p).isSome := hp
    rw [List.map_nil, List.append_nil]
    by_cases hpi : p ∈ items.map Prod.fst
    · rw [hgone p hpi] at hp
      cases hp
    · rw [hkept p hpi] at hp
      rcases List.mem_append.mp (h.owned p hp) with hmem | hmem
      · exact List.mem_append_left _ ((List.mem_append.mp hmem).resolve_right hpi)
      · exact List.mem_append_right _ hmem

theorem clear (h : Laid m items frees) : ∃ m', m.clear = some m' ∧ Laid m' [] frees := by
  have hperm : (m.map.map Prod.snd).Perm (items.map Prod.fst) := by
    have hp := h.map.map Prod.snd
    rwa [List.map_map] at hp
  have hnd : (m.map.map Prod.snd).Nodup := hperm.nodup_iff.mpr h.nodup_nodes
  obtain ⟨heap, hd, hfreed⟩ := dropBoxes m.heap hnd fun p hp => by
    obtain ⟨i, hi, rfl⟩ := List.mem_map.mp (hperm.mem_iff.mp hp)
    exact ⟨_, _, h.stored i hi⟩
  have hgone : ∀ p ∈ items.map Prod.fst, held heap p = none := fun p hp => by
    rw [held, hfreed.1 p (hperm.mem_iff.mpr hp)]
    rfl
  have hkept : ∀ p ∉ items.map Prod.fst, heap.cell p = m.heap.cell p := fun p hp =>
    hfreed.2 p fun hp' => hp (hperm.mem_iff.mp hp')
  have hheld : ∀ p ∉ items.map Prod.fst, held heap p = held m.heap p := fun p hp => by
    rw [held, hkept p hp, held]
  have hbefore : ∀ p ∈ frees, before heap p = before m.heap p := fun p hp => by
    rw [before, hkept p fun hp' => h.apart hp (List.mem_append_right _ hp'), before]
  unfold LinkedHashMap.clear
  rw [hd]
  cases hg : m.head with
  | none =>
    refine ⟨{ m with map := [], heap := heap }, ?_, h.emptied hgone hheld hbefore ?_⟩
    · rw [hg]
      rfl
    · intro g hg'
      rw [hg] at hg'
      cases hg'
  | some g =>
    have hgi : g ∉ items.map Prod.fst := by
      have hall := h.nodup
      rw [hg] at hall
      exact (List.nodup_cons.mp (List.nodup_append.mp hall).1).1
    have hguard : (held heap g).isSome := by
      rw [hheld g hgi, h.guard g hg]
      rfl
    obtain ⟨h1, hw1, hbefore1, hafter1, hheld1⟩ := setPrev_of_held (some g) hguard
    obtain ⟨h2, hw2, hbefore2, hafter2, hheld2⟩ : ∃ h2, setNext h1 (some g) (some g) = some h2 ∧ _ :=
      setNext_of_held (some g) (by rw [hheld1]; exact hguard)
    have hgf : ∀ p ∈ frees, p ≠ g := by
      rintro p hp rfl
      apply h.apart hp
      rw [hg]
      exact List.mem_cons_self
    refine ⟨{ m with map := [], heap := h2 }, ?_, h.emptied ?_ ?_ ?_ ?_⟩
    · show (setPrev heap (some g) (some g)).bind _ = _
      rw [hw1]
      show (setNext h1 (some g) (some g)).bind _ = _
      rw [hw2, hg]
      rfl
    · rw [hheld2, hheld1]
      exact hgone
    · rw [hheld2, hheld1]
      exact hheld
    · intro p hp
      rw [hbefore2, Function.update_of_ne (hgf p hp), hbefore1]
      exact hbefore p hp
    · intro g' hg'
      rw [hg] at hg'
      cases hg'
      refine Circle.single ?_ ?_
      · rw [hafter2, hafter1, Function.update_self]
      · rw [hbefore2, Function.update_self]

/-- What is left after the map is dropped: nothing. -/
theorem drop (h : Laid m items frees) : ∃ heap, m.drop = some heap ∧ ∀ p, heap.cell p = none := by
  have hperm : (m.map.map Prod.snd).Perm (items.map Prod.fst) := by
    have hp := h.map.map Prod.snd
    rwa [List.map_map] at hp
  have hnd := h.nodup
  obtain ⟨hndl, hndf, hapart⟩ := List.nodup_append.mp hnd
  obtain ⟨h1, hd1, hf1⟩ : ∃ h1, m.dropGuard = some h1 ∧ Freed m.heap h1 m.head.toList := by
    unfold dropGuard
    cases hg : m.head with
    | none => exact ⟨m.heap, rfl, freed_nil⟩
    | some g =>
      obtain ⟨e, he⟩ := cell_of_held (Option.isSome_of_eq_some (h.guard g hg))
      refine ⟨m.heap.set g none, ?_, freed_nil.cons⟩
      show (m.heap.release g).bind _ = _
      rw [Heap.release_some he]
      rfl
  have hsame1 : ∀ p ∈ items.map Prod.fst ++ frees, h1.cell p = m.heap.cell p := by
    intro p hp
    refine hf1.2 p fun hp' => ?_
    rw [List.append_assoc] at hnd
    exact (List.nodup_append.mp hnd).2.2 p hp' p hp rfl
  have hheld1 : ∀ p ∈ frees, (held h1 p).isSome := by
    intro p hp
    rw [held, hsame1 p (List.mem_append_right _ hp)]
    show (held m.heap p).isSome
    rw [h.moved p hp]
    rfl
  obtain ⟨h2, hc2, hf2⟩ := clearFrees_of_listed h1.top h1 m.free
    (h.recycled.congr fun p hp => by rw [before, hsame1 p (List.mem_append_right _ hp), before]) hndf hheld1
    (length_le_top hndf hheld1)
  obtain ⟨h3, hd3, hf3⟩ := dropBoxes h2 (hperm.nodup_iff.mpr h.nodup_nodes) fun p hp => by
    have hp := hperm.mem_iff.mp hp
    obtain ⟨i, hi, rfl⟩ := List.mem_map.mp hp
    refine ⟨i.2.1, i.2.2, ?_⟩
    rw [held, hf2.2 i.1 fun hp' => h.apart hp' (List.mem_append_right _ hp),
      hsame1 i.1 (List.mem_append_left _ hp)]
    exact h.stored i hi
  refine ⟨h3, ?_, ?_⟩
  · rw [LinkedHashMap.drop, hd1]
    show (LinkedHashMap.clearFreeList { m with heap := h1 }).bind _ = _
    show ((clearFrees h1.top h1 m.free).bind _).bind _ = _
    rw [hc2]
    exact hd3
  · intro p
    by_cases hp3 : p ∈ m.map.map Prod.snd
    · exact hf3.1 p hp3
    · rw [hf3.2 p hp3]
      by_cases hp2 : p ∈ frees
      · exact hf2.1 p hp2
      · rw [hf2.2 p hp2]
        by_cases hp1 : p ∈ m.head.toList
        · exact hf1.1 p hp1
        · rw [hf1.2 p hp1]
          by_contra hne
          have hmem := h.owned p (by
            rw [held, Option.isSome_map]
            exact Option.isSome_iff_ne_none.mpr hne)
          rcases List.mem_append.mp hmem with hmem | hmem
          · rcases List.mem_append.mp hmem with hmem | hmem
            · exact hp1 hmem
            · exact hp3 (hperm.mem_iff.mpr hmem)
          · exact hp2 hmem

theorem len (h : Laid m items frees) : m.len = (items.map Prod.snd).length := by
  have hl := h.map.length_eq
  rwa [List.length_map] at hl ⊢

theorem len_pos (h : Laid m (os ++ i :: ns) frees) : m.len > 0 := by
  rw [h.len, List.map_append, List.map_cons, List.length_append, List.length_cons]
  omega

section

variable [DecidableEq K] {link : LinkedHashMapEntry K V → Option Nat}

/-- The only node with a key is found by the key. -/
theorem find_self {heap : Memory K V} (h : Laid m (os ++ i :: ns) frees) (hheld : held heap = held m.heap) :
    keyAt heap i.1 = some i.2.1 ∧ find heap i.2.1 m.map = some (some i.1) := by
  have hmem : i ∈ os ++ i :: ns := List.mem_append_right _ List.mem_cons_self
  have hstored : ∀ j ∈ os ++ i :: ns, held heap j.1 = some (some j.2.1, some j.2.2) := by
    intro j hj
    rw [hheld]
    exact h.stored j hj
  refine ⟨keyAt_of_held (hstored i hmem), ?_⟩
  rcases find_of_stored i.2.1 h.map hstored with ⟨os', j, ns', hj, hk, hf⟩ | ⟨hnone, _⟩
  · have hjmem : j ∈ os ++ i :: ns := by
      rw [hj]
      exact List.mem_append_right _ List.mem_cons_self
    cases List.inj_on_of_nodup_map h.keys hjmem hmem hk
    exact hf
  · exact (hnone i hmem rfl).elim

/-- An entry is looked at by a link of the guard. -/
theorem peek (h : Laid m (os ++ i :: ns) frees)
    (hlink : ∀ g e, m.head = some g → m.heap.read (some g) = some e → link e = some i.1) :
    m.peek link = some (some i.2) := by
  have hmem : i ∈ os ++ i :: ns := List.mem_append_right _ List.mem_cons_self
  obtain ⟨g, hg⟩ := h.head_of_mem hmem
  obtain ⟨e, he, -⟩ := read_of_held (h.isSome_of_ring hg g List.mem_cons_self)
  obtain ⟨e', he', -, -, hkv⟩ := read_of_held (Option.isSome_of_eq_some (h.stored i hmem))
  obtain ⟨hkey, hf⟩ := h.find_self rfl
  rw [h.stored i hmem] at hkv
  obtain ⟨hk, hv⟩ := Prod.mk.inj (Option.some.inj hkv)
  rw [LinkedHashMap.peek, if_pos h.len_pos]
  show (m.heap.read m.head).bind _ = _
  rw [hg, he]
  show (link e).bind _ = _
  rw [hlink g e hg he]
  show (keyAt m.heap i.1).bind _ = _
  rw [hkey]
  show (find m.heap i.2.1 m.map).bind _ = _
  rw [hf]
  show (m.heap.read (some i.1)).bind _ = _
  rw [he']
  show e'.key.bind _ = _
  rw [← hk]
  show e'.value.bind _ = _
  rw [← hv]
  rfl

/-- An entry is taken by a link of the guard, and its box freed. -/
theorem pop (h : Laid m (os ++ i :: ns) frees)
    (hlink : ∀ g e, m.head = some g → m.heap.read (some g) = some e → link e = some i.1) :
    ∃ m', m.pop link = some (some i.2, m') ∧ Laid m' (os ++ ns) frees := by
  have hmem : i ∈ os ++ i :: ns := List.mem_append_right _ List.mem_cons_self
  obtain ⟨g, heap, hg, hd, hc, hheld, hbefore⟩ := h.detached
  obtain ⟨e, he, -⟩ := read_of_held (h.isSome_of_ring hg g List.mem_cons_self)
  obtain ⟨e', he', -, -, hkv⟩ := read_of_held (Option.isSome_of_eq_some ((congrFun hheld i.1).trans (h.stored i hmem)))
  obtain ⟨hkey, hf⟩ := h.find_self hheld
  rw [hheld, h.stored i hmem] at hkv
  obtain ⟨hk, hv⟩ := Prod.mk.inj (Option.some.inj hkv)
  have hout := h.others hg
  refine ⟨⟨unfile m.map i.1, m.head, m.free, heap.set i.1 none⟩, ?_, h.without ?_ ?_ ?_ (.inl ⟨rfl, ?_⟩)⟩
  · rw [LinkedHashMap.pop, if_pos h.len_pos]
    show (m.heap.read m.head).bind _ = _
    rw [hg, he]
    show (link e).bind _ = _
    rw [hlink g e hg he]
    show (detach m.heap i.1).bind _ = _
    rw [hd]
    show (keyAt heap i.1).bind _ = _
    rw [hkey]
    show (find heap i.2.1 m.map).bind _ = _
    rw [hf]
    show (heap.release i.1).bind _ = _
    rw [Heap.release_some he']
    show e'.key.bind _ = _
    rw [← hk]
    show e'.value.bind _ = _
    rw [← hv]
    rfl
  · intro g' hg'
    cases hg.symm.trans hg'
    refine hc.congr ?_ ?_
    · intro q hq
      rw [after_set, Function.update_of_ne (hout q (.inl hq))]
    · intro q hq
      rw [before_set, Function.update_of_ne (hout q (.inl hq))]
  · intro q hq
    rw [held_set, Function.update_of_ne hq, hheld]
  · refine h.recycled.congr fun q hq => ?_
    rw [before_set, Function.update_of_ne (hout q (.inr hq)), hbefore q hq]
  · rw [held_set, Function.update_self]
    rfl

end

/-- The guard is followed by the oldest entry, -/
theorem oldest (h : Laid m (i :: ns) frees) (g : Nat) (e : LinkedHashMapEntry K V) (hg : m.head = some g)
    (he : m.heap.read (some g) = some e) : e.prev = some i.1 := by
  have ha := (h.ring g hg).after_guard
  rwa [after, show m.heap.cell g = some e from he] at ha

/-- and comes behind the newest one. -/
theorem newest (h : Laid m (os ++ [i]) frees) (g : Nat) (e : LinkedHashMapEntry K V) (hg : m.head = some g)
    (he : m.heap.read (some g) = some e) : e.next = some i.1 := by
  have hb := (h.ring g hg).before_guard
  rw [before, show m.heap.cell g = some e from he, List.map_append, ← List.cons_append] at hb
  rw [show e.next = _ from hb]
  exact List.getLast?_concat

end Laid

/-- An iterator whose ends have met gives no more. -/
theorem takes_met (heap : Memory K V) (q : Option Nat) (sides : List Bool) :
    Iter.takes heap sides ⟨q, q, 0⟩ = some (Ordered.ends sides []) := by
  induction sides with
  | nil => rfl
  | cons side sides ih =>
    have hnext : (⟨q, q, 0⟩ : Iter).next heap = some (none, ⟨q, q, 0⟩) := if_pos rfl
    have hback : (⟨q, q, 0⟩ : Iter).nextBack heap = some (none, ⟨q, q, 0⟩) := if_pos rfl
    cases side with
    | false =>
      show (Iter.next heap _).bind _ = _
      rw [hnext]
      show (Iter.takes heap sides ⟨q, q, 0⟩).bind _ = _
      rw [ih]
      rfl
    | true =>
      show (Iter.nextBack heap _).bind _ = _
      rw [hback]
      show (Iter.takes heap sides ⟨q, q, 0⟩).bind _ = _
      rw [ih]
      rfl

namespace Laid

theorem read_item (h : Laid m items frees) (hi : i ∈ items) : ∃ e, m.heap.read (some i.1) = some e ∧
    e.next = before m.heap i.1 ∧ e.prev = after m.heap i.1 ∧ Iter.entry m.heap (some i.1) = some i.2 := by
  obtain ⟨e, he, hnext, hprev, hkv⟩ := read_of_held (Option.isSome_of_eq_some (h.stored i hi))
  rw [h.stored i hi] at hkv
  obtain ⟨hk, hv⟩ := Prod.mk.inj (Option.some.inj hkv)
  refine ⟨e, he, hnext, hprev, ?_⟩
  show (m.heap.read (some i.1)).bind _ = _
  rw [he]
  show e.key.bind _ = _
  rw [← hk]
  show e.value.bind _ = _
  rw [← hv]
  rfl

/-- The node that an iterator stands at when `ns` is still before it, which may be the guard -/
def endOf (g : Nat) (ns : List (Nat × K × V)) : Option Nat := (ns.map Prod.fst ++ [g]).head?

theorem endOf_ne (os mid : List (Nat × K × V)) (hnd : (g :: (os ++ (i :: mid) ++ ns).map Prod.fst).Nodup) :
    some i.1 ≠ endOf g ns := by
  intro he
  have hmem := List.mem_of_head? he.symm
  rw [List.nodup_cons, List.map_append, List.map_append, List.nodup_append, List.nodup_append] at hnd
  rcases List.mem_append.mp hmem with hmem | hmem
  · refine hnd.2.2.2 i.1 ?_ i.1 hmem rfl
    exact List.mem_append_right _ List.mem_cons_self
  · refine hnd.1 (List.mem_append_left _ (List.mem_append_right _ ?_))
    rw [← List.mem_singleton.mp hmem]
    exact List.mem_cons_self

/-- From the front the next entry is the oldest one left, -/
theorem next_front {mid : List (Nat × K × V)} (h : Laid m (os ++ (i :: mid) ++ ns) frees) (hg : m.head = some g) :
    Iter.next m.heap ⟨endOf g (i :: mid ++ ns), endOf g ns, (i :: mid).length⟩ =
      some (some i.2, ⟨endOf g (mid ++ ns), endOf g ns, mid.length⟩) := by
  have hring := h.ring g hg
  have hmem : i ∈ os ++ (i :: mid) ++ ns :=
    List.mem_append_left _ (List.mem_append_right _ List.mem_cons_self)
  obtain ⟨e, he, -, hprev, hentry⟩ := h.read_item hmem
  have hsplit : (os ++ (i :: mid) ++ ns).map Prod.fst = os.map Prod.fst ++ i.1 :: (mid ++ ns).map Prod.fst := by
    simp
  have hafter : e.prev = endOf g (mid ++ ns) := by
    rw [hprev]
    rw [hsplit] at hring
    exact hring.after_node
  show (if some i.1 = endOf g ns then _ else _) = _
  rw [if_neg (endOf_ne os mid hring.nodup)]
  show (Iter.entry m.heap (some i.1)).bind _ = _
  rw [hentry]
  show (m.heap.read (some i.1)).bind _ = _
  rw [he, ← hafter]
  rfl

/-- and from the back it is the newest one. -/
theorem next_back {mid : List (Nat × K × V)} (h : Laid m (os ++ (mid ++ [i]) ++ ns) frees) (hg : m.head = some g) :
    Iter.nextBack m.heap ⟨endOf g (mid ++ [i] ++ ns), endOf g ns, (mid ++ [i]).length⟩ =
      some (some i.2, ⟨endOf g (mid ++ i :: ns), endOf g (i :: ns), mid.length⟩) := by
  have hring := h.ring g hg
  have hmem : i ∈ os ++ (mid ++ [i]) ++ ns := by simp
  obtain ⟨-, -, -, -, hentry⟩ := h.read_item hmem
  have hlast : (g :: (os ++ (mid ++ [i])).map Prod.fst).getLast? = some i.1 := by
    rw [← List.append_assoc, List.map_append, ← List.cons_append]
    exact List.getLast?_concat
  obtain ⟨t, ht, e, he, hnext⟩ : ∃ t, endOf g ns = some t ∧ ∃ e, m.heap.read (some t) = some e ∧
      e.next = some i.1 := by
    cases ns with
    | nil =>
      obtain ⟨e, he, hnext, -⟩ := read_of_held (h.isSome_of_ring hg g List.mem_cons_self)
      refine ⟨g, rfl, e, he, ?_⟩
      rw [List.append_nil] at hring
      rw [hnext, hring.before_guard, hlast]
    | cons n ns =>
      obtain ⟨e, he, hnext, -⟩ := h.read_item (i := n) (List.mem_append_right _ List.mem_cons_self)
      refine ⟨n.1, rfl, e, he, ?_⟩
      rw [List.map_append, List.map_cons] at hring
      rw [hnext, hring.before_node, hlast]
  have hne : endOf g (mid ++ [i] ++ ns) ≠ endOf g ns := by
    cases mid with
    | nil => exact endOf_ne os [] hring.nodup
    | cons x mid => exact endOf_ne os (mid ++ [i]) hring.nodup
  have hlen : (mid ++ [i]).length = mid.length + 1 := List.length_append
  rw [Iter.nextBack, if_neg hne, hlen]
  show (m.heap.read (endOf g ns)).bind _ = _
  rw [ht, he]
  show (Iter.entry m.heap e.next).bind _ = _
  rw [hnext, hentry, List.append_assoc]
  rfl

theorem takes (h : Laid m items frees) (hg : m.head = some g) (sides : List Bool)
    (os mid ns : List (Nat × K × V)) (hitems : items = os ++ mid ++ ns) :
    Iter.takes m.heap sides ⟨endOf g (mid ++ ns), endOf g ns, mid.length⟩ =
      some (Ordered.ends sides (mid.map Prod.snd)) := by
  induction sides generalizing os mid ns with
  | nil => rfl
  | cons side sides ih =>
    cases side with
    | false =>
      cases mid with
      | nil => exact takes_met m.heap _ _
      | cons i mid =>
        have hn := (hitems ▸ h).next_front hg
        show (Iter.next m.heap _).bind _ = _
        rw [hn]
        show (Iter.takes m.heap sides _).bind _ = _
        rw [ih (os ++ [i]) mid ns (by simp [hitems])]
        simp [Ordered.ends]
    | true =>
      rcases List.eq_nil_or_concat mid with rfl | ⟨mid, i, rfl⟩
      · exact takes_met m.heap _ _
      · rw [List.concat_eq_append] at hitems ⊢
        have hn := (hitems ▸ h).next_back hg
        show (Iter.nextBack m.heap _).bind _ = _
        rw [hn]
        show (Iter.takes m.heap sides _).bind _ = _
        rw [ih os mid (i :: ns) (by simp [hitems])]
        simp [Ordered.ends]

/-- An iterator gives the entries from both ends, in any turns. -/
theorem iter (h : Laid m items frees) (sides : List Bool) :
    ∃ it, m.iter = some it ∧ it.takes m.heap sides = some (Ordered.ends sides (items.map Prod.snd)) := by
  cases hg : m.head with
  | none =>
    have hitems := h.bare hg
    refine ⟨⟨none, none, 0⟩, ?_, ?_⟩
    · rw [LinkedHashMap.iter, hg, h.len, hitems]
      rfl
    · rw [hitems]
      exact takes_met m.heap none sides
  | some g =>
    obtain ⟨e, he, -, hprev, -⟩ := read_of_held (h.isSome_of_ring hg g List.mem_cons_self)
    refine ⟨⟨endOf g items, some g, items.length⟩, ?_, ?_⟩
    · have hafter : e.prev = endOf g items := by
        rw [hprev]
        exact (h.ring g hg).after_guard
      rw [LinkedHashMap.iter, hg, h.len, List.length_map]
      show (m.heap.read (some g)).bind _ = _
      rw [he, ← hafter]
      rfl
    · have ht := h.takes hg sides [] items [] (List.append_nil _).symm
      rwa [List.append_nil] at ht

variable [DecidableEq K]

theorem popFront (h : Laid m items frees) :
    Answers m.popFront (items.map Prod.snd).head? (items.map Prod.snd).tail := by
  cases items with
  | nil => exact ⟨m, [], frees, if_neg (by rw [h.len]; exact Nat.lt_irrefl 0), h, rfl⟩
  | cons i ns =>
    have h' : Laid m ([] ++ i :: ns) frees := h
    obtain ⟨m', hp, hl⟩ := h'.pop h.oldest
    exact ⟨m', ns, frees, hp, hl, rfl⟩

/-- One act is answered as by the list of the entries. -/
theorem act (A : Heap.Allocator (LinkedHashMapEntry K V)) (h : Laid m items frees) (a : Act K V) :
    Answers (m.act A a) (a.answers (items.map Prod.snd)).1 (a.answers (items.map Prod.snd)).2 := by
  cases a with
  | insert k v => exact (h.insert A k v).map Answer.value
  | get k =>
    refine ⟨m, items, frees, ?_, h, rfl⟩
    rw [LinkedHashMap.act, h.get]
    rfl
  | getMut k f => exact (h.getMut k f).map Answer.value
  | getRefresh k f => exact (h.getRefresh k f).map Answer.value
  | remove k => exact (h.remove k).map Answer.value
  | popFront => exact h.popFront.map Answer.entry
  | popBack =>
    refine Answers.map (r := m.popBack) ?_ Answer.entry
    rcases List.eq_nil_or_concat items with rfl | ⟨os, i, rfl⟩
    · exact ⟨m, [], frees, if_neg (by rw [h.len]; exact Nat.lt_irrefl 0), h, rfl⟩
    · rw [List.concat_eq_append] at h ⊢
      obtain ⟨m', hp, hl⟩ := h.pop h.newest
      rw [List.append_nil] at hl
      refine ⟨m', os, frees, ?_, hl, ?_⟩
      · rw [List.map_append]
        exact hp.trans (by rw [List.map_singleton, List.getLast?_concat])
      · rw [List.map_append]
        exact List.dropLast_concat.symm
  | front =>
    refine ⟨m, items, frees, ?_, h, rfl⟩
    show (m.front).map _ = _
    cases items with
    | nil =>
      rw [front, LinkedHashMap.peek, if_neg (by rw [h.len]; exact Nat.lt_irrefl 0)]
      rfl
    | cons i ns =>
      have h' : Laid m ([] ++ i :: ns) frees := h
      rw [front, h'.peek h.oldest]
      rfl
  | back =>
    refine ⟨m, items, frees, ?_, h, rfl⟩
    show (m.back).map _ = _
    rcases List.eq_nil_or_concat items with rfl | ⟨os, i, rfl⟩
    · rw [back, LinkedHashMap.peek, if_neg (by rw [h.len]; exact Nat.lt_irrefl 0)]
      rfl
    · rw [List.concat_eq_append] at h ⊢
      rw [back, h.peek h.newest, List.map_append]
      show _ = some (Answer.entry (List.getLast? _), m)
      rw [List.map_singleton, List.getLast?_concat]
      rfl
  | len =>
    refine ⟨m, items, frees, ?_, h, rfl⟩
    rw [LinkedHashMap.act, h.len]
    rfl
  | clear =>
    obtain ⟨m', hc, hl⟩ := h.clear
    refine ⟨m', [], frees, ?_, hl, rfl⟩
    rw [LinkedHashMap.act, hc]
    rfl
  | shrinkToFit =>
    obtain ⟨m', hc, hl, -⟩ := h.clearFreeList
    refine ⟨m', items, [], ?_, hl, rfl⟩
    rw [LinkedHashMap.act, shrinkToFit, hc]
    rfl
  | iter sides =>
    obtain ⟨it, hit, ht⟩ := h.iter sides
    refine ⟨m, items, frees, ?_, h, rfl⟩
    show (m.iter).bind _ = _
    rw [hit]
    show (it.takes m.heap sides).bind _ = _
    rw [ht]
    rfl

theorem run (A : Heap.Allocator (LinkedHashMapEntry K V)) (acts : List (Act K V)) (h : Laid m items frees) :
    Answers (m.run A acts) (Act.answersAll (items.map Prod.snd) acts).1
      (Act.answersAll (items.map Prod.snd) acts).2 := by
  induction acts generalizing m items frees with
  | nil => exact ⟨m, items, frees, rfl, h, rfl⟩
  | cons a acts ih =>
    obtain ⟨m1, items1, frees1, ha, h1, hitems1⟩ := h.act A a
    obtain ⟨m2, items2, frees2, hr, h2, hitems2⟩ := ih h1
    rw [hitems1] at hr hitems2
    refine ⟨m2, items2, frees2, ?_, h2, hitems2⟩
    show (m.act A a).bind _ = _
    rw [ha]
    show (m1.run A acts).bind _ = _
    rw [hr]
    rfl

end Laid

/-- Whatever is done with a map, and wherever its boxes are allocated, no pointer is followed that is null
or dangles, no key or value is used that is not there, the answers are those of the list of entries in the
order of use, and all boxes are freed once the map is dropped. -/
theorem linked_map_answers [DecidableEq K] (A : Heap.Allocator (LinkedHashMapEntry K V)) (acts : List (Act K V)) :
    ∃ m heap, (new : LinkedHashMap K V).run A acts = some ((Act.answersAll [] acts).1, m) ∧
      m.drop = some heap ∧ ∀ p, heap.cell p = none := by
  obtain ⟨m, items, frees, hr, h, -⟩ := laid_new.run A acts
  obtain ⟨heap, hd, hempty⟩ := h.drop
  exact ⟨m, heap, hr, hd, hempty⟩

end Origel.RedoxFs.LinkedHashMap
