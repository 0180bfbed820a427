import Origel.RedoxFs.Recency

/-! What is done with a map of linked boxes is answered as the list of its entries would. -/
namespace Origel.RedoxFs.LinkedHashMap

open Origel.Lib

variable {K V : Type} {heap : Memory K V} {m : LinkedHashMap K V} {items os ns : List (Nat × K × V)}
  {frees : List Nat} {i : Nat × K × V} {g p : Nat} {k : K} {v : V}

/-- A result is the answer, and the map holds the entries `l` after it. -/
def Answers {R : Type} (r : Option (R × LinkedHashMap K V)) (a : R) (l : List (K × V)) : Prop :=
  ∃ m items frees, r = some (a, m) ∧ Laid m items frees ∧ items.map Prod.snd = l

theorem Answers.map {R R' : Type} {r : Option (R × LinkedHashMap K V)} {a : R} {l : List (K × V)}
    (h : Answers r a l) (f : R → R') : Answers (r.map fun r => (f r.1, r.2)) (f a) l := by
  obtain ⟨m, items, frees, rfl, hl⟩ := h
  exact ⟨m, items, frees, rfl, hl⟩

namespace Laid

theorem nodup_keys (h : Laid m items frees) : ((items.map Prod.snd).map Prod.fst).Nodup := by
  rw [List.map_map]
  exact h.keys

section

variable [DecidableEq K]

/-- What a lookup finds, and what it means for the list of entries. -/
theorem lookup (h : Laid m items frees) (k : K) :
    (∃ os i ns, items = os ++ i :: ns ∧ i.2.1 = k ∧ find m.heap k m.map = some (some i.1) ∧
      Ordered.get (items.map Prod.snd) k = some i.2.2 ∧
      Ordered.erase (items.map Prod.snd) k = (os ++ ns).map Prod.snd ∧
      ∀ f, Ordered.change (items.map Prod.snd) k f = (os ++ (i.1, i.2.1, f i.2.2) :: ns).map Prod.snd) ∨
    ((∀ i ∈ items, i.2.1 ≠ k) ∧ find m.heap k m.map = some none ∧
      Ordered.get (items.map Prod.snd) k = none ∧
      Ordered.erase (items.map Prod.snd) k = items.map Prod.snd ∧
      ∀ f, Ordered.change (items.map Prod.snd) k f = items.map Prod.snd) := by
  have hnd := h.nodup_keys
  rcases find_of_stored k h.map h.stored with ⟨os, ⟨node, key, value⟩, ns, rfl, rfl, hf⟩ | ⟨hk, hf⟩
  · rw [List.map_append, List.map_cons] at hnd
    refine .inl ⟨os, _, ns, rfl, rfl, hf, ?_⟩
    rw [List.map_append, List.map_cons]
    refine ⟨Ordered.get_of_split hnd, ?_, fun f => ?_⟩
    · rw [Ordered.erase_of_split hnd, List.map_append]
    · rw [Ordered.change_of_split hnd, List.map_append, List.map_cons]
  · have hk' : ∀ e ∈ items.map Prod.snd, e.1 ≠ k := by
      intro e he
      obtain ⟨i, hi, rfl⟩ := List.mem_map.mp he
      exact hk i hi
    exact .inr ⟨hk, hf, Ordered.get_of_forall hk', Ordered.erase_of_forall hk',
      fun f => Ordered.change_of_forall hk'⟩

theorem insert (A : Heap.Allocator (LinkedHashMapEntry K V)) (h : Laid m items frees) (k : K) (v : V) :
    Answers (m.insert A k v) (Ordered.get (items.map Prod.snd) k) (Ordered.put (items.map Prod.snd) k v) := by
  obtain ⟨m, hm, h, g, hg⟩ := h.guarded (A := A)
  unfold Answers
  rw [LinkedHashMap.insert, hm]
  rcases h.lookup k with ⟨os, i, ns, rfl, rfl, hf, hget, herase, -⟩ | ⟨hk, hf, hget, herase, -⟩
  · obtain ⟨e, he, hvalue, hwrite⟩ := h.assigned
    obtain ⟨h1, hw, hl1⟩ := hwrite v
    obtain ⟨h2, h3, hd, ha, hl⟩ := hl1.refreshed
    refine ⟨{ m with heap := h3 }, _, frees, ?_, hl, ?_⟩
    · show (find m.heap i.2.1 m.map).bind _ = _
      rw [hf]
      show (m.heap.read (some i.1)).bind _ = _
      rw [he]
      show e.value.bind _ = _
      rw [hvalue]
      show (m.heap.write (some i.1) _).bind _ = _
      rw [hw]
      show (detach h1 i.1).bind _ = _
      rw [hd]
      show (attach h2 m.head i.1).bind _ = _
      rw [ha, hget]
      rfl
    · rw [Ordered.put, herase, List.map_append]
      rfl
  · obtain ⟨node, m', frees', heap, hbox, hfile, ha, hl⟩ := h.insertNew (A := A) hg hk v
    refine ⟨_, _, frees', ?_, hl, ?_⟩
    · show (find m.heap k m.map).bind _ = _
      rw [hf]
      show (m.box A k v).bind _ = _
      rw [hbox]
      show (file m'.heap m'.map node).bind _ = _
      rw [hfile]
      show (attach m'.heap m'.head node).bind _ = _
      rw [ha, hget]
      rfl
    · rw [Ordered.put, herase, List.map_append]
      rfl

theorem get (h : Laid m items frees) (k : K) : m.get k = some (Ordered.get (items.map Prod.snd) k) := by
  rw [LinkedHashMap.get]
  rcases h.lookup k with ⟨os, i, ns, rfl, rfl, hf, hget, -, -⟩ | ⟨hk, hf, hget, -, -⟩
  · obtain ⟨e, he, hvalue, -⟩ := h.assigned
    rw [hf, hget]
    show (m.heap.read (some i.1)).bind _ = _
    rw [he]
    show e.value.bind _ = _
    rw [hvalue]
    rfl
  · rw [hf, hget]
    rfl

theorem getMut (h : Laid m items frees) (k : K) (f : V → V) :
    Answers (m.getMut k f) (Ordered.get (items.map Prod.snd) k) (Ordered.change (items.map Prod.snd) k f) := by
  unfold Answers
  rw [LinkedHashMap.getMut]
  rcases h.lookup k with ⟨os, i, ns, rfl, rfl, hf, hget, -, hchange⟩ | ⟨hk, hf, hget, -, hchange⟩
  · obtain ⟨e, he, hvalue, hwrite⟩ := h.assigned
    obtain ⟨h1, hw, hl⟩ := hwrite (f i.2.2)
    refine ⟨_, _, frees, ?_, hl, (hchange f).symm⟩
    rw [hf, hget]
    show (m.heap.read (some i.1)).bind _ = _
    rw [he]
    show e.value.bind _ = _
    rw [hvalue]
    show (m.heap.write (some i.1) _).bind _ = _
    rw [hw]
    rfl
  · refine ⟨m, items, frees, ?_, h, (hchange f).symm⟩
    rw [hf, hget]
    rfl

theorem getRefresh (h : Laid m items frees) (k : K) (f : V → V) :
    Answers (m.getRefresh k f) (Ordered.get (items.map Prod.snd) k)
      (Ordered.touch (items.map Prod.snd) k f) := by
  unfold Answers
  rw [LinkedHashMap.getRefresh]
  rcases h.lookup k with ⟨os, i, ns, rfl, rfl, hf, hget, herase, -⟩ | ⟨hk, hf, hget, -, -⟩
  · obtain ⟨h1, h2, hd, ha, hl⟩ := h.refreshed
    obtain ⟨e, he, hvalue, hwrite⟩ := hl.assigned
    obtain ⟨h3, hw, hl⟩ := hwrite (f i.2.2)
    refine ⟨_, _, frees, ?_, hl, ?_⟩
    · rw [hf, hget]
      show (detach m.heap i.1).bind _ = _
      rw [hd]
      show (attach h1 m.head i.1).bind _ = _
      rw [ha]
      show (h2.read (some i.1)).bind _ = _
      rw [he]
      show e.value.bind _ = _
      rw [hvalue]
      show (h2.write (some i.1) _).bind _ = _
      rw [hw]
      rfl
    · rw [Ordered.touch, hget]
      show _ = Ordered.erase _ _ ++ _
      rw [herase, List.map_append]
      rfl
  · refine ⟨m, items, frees, ?_, h, ?_⟩
    · rw [hf, hget]
      rfl
    · rw [Ordered.touch, hget]

theorem remove (h : Laid m items frees) (k : K) :
    Answers (m.remove k) (Ordered.get (items.map Prod.snd) k) (Ordered.erase (items.map Prod.snd) k) := by
  unfold Answers
  rw [LinkedHashMap.remove]
  rcases h.lookup k with ⟨os, i, ns, rfl, rfl, hf, hget, herase, -⟩ | ⟨hk, hf, hget, herase, -⟩
  · obtain ⟨g, h1, hg, hd, hc, hheld1, hbefore1⟩ := h.detached
    have hmem : i ∈ os ++ i :: ns := List.mem_append_right _ List.mem_cons_self
    have hi := h.stored i hmem
    obtain ⟨h2, hw2, hbefore2, hafter2, hheld2⟩ : ∃ h2, setNext h1 (some i.1) m.free = some h2 ∧ _ :=
      setNext_of_held m.free (by rw [hheld1, hi]; rfl)
    obtain ⟨e, he, -, -, hkv⟩ : ∃ e, h2.read (some i.1) = some e ∧ _ :=
      read_of_held (by rw [hheld2, hheld1, hi]; rfl)
    obtain ⟨h3, hw3, hbefore3, hafter3, hheld3⟩ : ∃ h3, h2.write (some i.1) _ = some h3 ∧ _ :=
      hold_of_held none none (by rw [hheld2, hheld1, hi]; rfl)
    rw [hheld2, hheld1, hi] at hkv
    obtain ⟨hkey, hvalue⟩ := Prod.mk.inj (Option.some.inj hkv)
    have hout := h.others hg
    refine ⟨⟨unfile m.map i.1, m.head, some i.1, h3⟩, os ++ ns, i.1 :: frees, ?_,
      h.without ?_ ?_ ?_ (.inr ⟨rfl, ?_⟩), herase.symm⟩
    · rw [hf, hget]
      show (detach m.heap i.1).bind _ = _
      rw [hd]
      show (setNext h1 (some i.1) m.free).bind _ = _
      rw [hw2]
      show (h2.read (some i.1)).bind _ = _
      rw [he]
      show e.key.bind _ = _
      rw [← hkey]
      show e.value.bind _ = _
      rw [← hvalue]
      show (h2.write (some i.1) _).bind _ = _
      rw [hw3]
      rfl
    · intro g' hg'
      cases hg.symm.trans hg'
      refine hc.congr ?_ ?_
      · intro q _
        rw [hafter3, hafter2]
      · intro q hq
        rw [hbefore3, hbefore2, Function.update_of_ne (hout q (.inl hq))]
    · intro q hq
      rw [hheld3, Function.update_of_ne hq, hheld2, hheld1]
    · refine ⟨rfl, ?_⟩
      rw [hbefore3, hbefore2, Function.update_self]
      refine h.recycled.congr fun q hq => ?_
      rw [Function.update_of_ne (hout q (.inr hq)), hbefore1 q hq]
    · rw [hheld3, Function.update_self]
  · refine ⟨m, items, frees, ?_, h, herase.symm⟩
    rw [hf, hget]
    rfl

end

end Laid

end Origel.RedoxFs.LinkedHashMap
