import Origel.RedoxFs.Outcomes

/-! Every block has one owner, over all runs in which the free node has room. -/
namespace Origel.RedoxFs

open Origel.Lib FileSystem

variable {fs fs' : FileSystem} {b c p block length : Nat} {l : Layout} {held : List Nat}

/-- A file system and the blocks its caller has allocated. -/
structure World where
  fs : FileSystem
  held : List Nat

inductive Call where
  | op (o : Op)
  | allocate (length : Nat)
  | deallocate (block length : Nat)

namespace World

/-- One call; `deallocate` gives back blocks in hand. -/
inductive Step (P : World → Call → Prop) (w : World) : Call → World → Prop
  | op {o : Op} {err : Option Errno} {fs' : FileSystem} (hP : P w (.op o)) (hl : o.Legal w.fs)
      (hr : Returns o.run w.fs err fs') : Step P w (.op o) ⟨fs', w.held⟩
  | allocated {n b : Nat} {fs' : FileSystem} (hP : P w (.allocate n)) (hn : n < 2 ^ 64)
      (h : allocate n w.fs = .ok b fs') : Step P w (.allocate n) ⟨fs', List.range' b n ++ w.held⟩
  | refused {n : Nat} {e : Fault} {fs' : FileSystem} (hP : P w (.allocate n)) (hn : n < 2 ^ 64)
      (h : allocate n w.fs = .error e fs') : Step P w (.allocate n) ⟨fs', w.held⟩
  | deallocated {block length : Nat} {rest : List Nat} {err : Option Errno} {fs' : FileSystem}
      (hP : P w (.deallocate block length)) (hpos : 0 < length)
      (hh : w.held.Perm (List.range' block ((length + 511) / 512) ++ rest))
      (hr : Returns (deallocate block length) w.fs err fs') :
      Step P w (.deallocate block length) ⟨fs', rest⟩

/-- The free node has a place for every block that comes back, or no block to make one, and no
length wraps around. -/
def Safe (w : World) : Call → Prop
  | .op o => RedoxFs.Safe w.fs o
  | .allocate _ => True
  | .deallocate block length => insertExtent block length w.fs.freeNode.extents ≠ none ∨
      takeExtent 1 w.fs.freeNode.extents = none

end World

/-- The owners that count: of the objects those that hang on the root. -/
def Live (fs : FileSystem) : Owner → Prop
  | .object h => Reach fs h
  | _ => True

/-- The blocks in use: the header; the nodes of the free list with the blocks they list; the blocks
in hand; the nodes of a file or directory with the data of a file. -/
def uses (fs : FileSystem) (held : List Nat) : Owner → List Nat
  | .reserved => [0]
  | .free => chainOf fs fs.header.2.free ++ listing fs (chainOf fs fs.header.2.free)
  | .held => held
  | .object h => chainOf fs h ++ if (fs.nodeAt h).isDir then [] else listing fs (chainOf fs h)

/-- No block is used twice, all lie on the disk, and `allocate` hands out none of those in use. -/
structure OwnedOnce (w : World) : Prop where
  exclusive : Exclusive fun o : { o // Live w.fs o } => uses w.fs w.held o.1
  inside : ∀ o, Live w.fs o → o ≠ .free → ∀ b ∈ uses w.fs w.held o, 512 * b + 512 ≤ w.fs.disk.size
  freeNodes : ∀ b ∈ chainOf w.fs w.fs.header.2.free, 512 * b + 512 ≤ w.fs.disk.size
  freeInside : ∀ e ∈ extentsOf w.fs (chainOf w.fs w.fs.header.2.free),
    512 * e.block + e.length ≤ w.fs.disk.size
  allocate : ∀ n b fs', allocate n w.fs = .ok b fs' → ∀ x ∈ List.range' b n,
    ∀ o, Live w.fs o → o ≠ .free → x ∉ uses w.fs w.held o

namespace Inv

theorem chainOf_free (h : Inv fs l) : chainOf fs fs.header.2.free = [2] := by
  have hfuel := h.fuel 1
  have hne := List.length_pos_of_ne_nil h.rootChain
  rw [h.base.free]
  refine chainFrom_eq ⟨rfl, by omega, h.base.next⟩ ?_
  rw [List.length_singleton]
  omega

theorem uses_free (h : Inv fs l) : uses fs held .free = 2 :: own fs l .free := by
  rw [uses, h.chainOf_free, own_free, h.base.freeNode, listing_cons, listing_nil, List.append_nil]
  rfl

/-- What an owner uses it owns, apart from the free node. -/
theorem uses_own {o : Owner} (h : Inv fs l) (ho : Live fs o) (hf : o ≠ .free)
    (hb : b ∈ uses fs l.held o) : b ∈ own fs l o ∧ (o = .reserved → b = 0) := by
  cases o with
  | reserved =>
    obtain rfl : b = 0 := by simpa [uses] using hb
    exact ⟨by simp [own], fun _ => rfl⟩
  | free => exact (hf rfl).elim
  | held => exact ⟨hb, fun hc => by cases hc⟩
  | object p =>
    rw [uses, h.chainOf_eq (h.reach ho)] at hb
    exact ⟨hb, fun hc => by cases hc⟩

theorem uses_nodup {o : Owner} (h : Inv fs l) (ho : Live fs o) : (uses fs l.held o).Nodup := by
  cases o with
  | reserved => exact List.nodup_singleton 0
  | free =>
    rw [h.uses_free]
    refine List.nodup_cons.mpr ⟨fun h2 => ?_, h.exclusive.nodup .free⟩
    cases h.exclusive.disjoint .reserved .free 2 (by simp [own]) h2
  | held => exact h.exclusive.nodup .held
  | object p =>
    rw [uses, h.chainOf_eq (h.reach ho)]
    exact h.exclusive.nodup (.object p)

/-- The free node is used by the free list only. -/
theorem uses_disjoint_free {o : Owner} (h : Inv fs l) (ho : Live fs o) (hf : o ≠ .free)
    (hb : b ∈ uses fs l.held o) : b ∉ uses fs l.held .free := by
  obtain ⟨hown, hres⟩ := h.uses_own ho hf hb
  rw [h.uses_free]
  intro hm
  rcases List.mem_cons.mp hm with rfl | hm
  · have hr := h.exclusive.disjoint .reserved o 2 (by simp [own]) hown
    have := hres hr.symm
    omega
  · exact hf (h.exclusive.disjoint o .free b hown hm)

theorem ownedOnce (h : Inv fs l) : OwnedOnce ⟨fs, l.held⟩ where
  exclusive := by
    constructor
    · rintro ⟨o, ho⟩
      exact h.uses_nodup ho
    · rintro ⟨o, ho⟩ ⟨o', ho'⟩ b hb hb'
      apply Subtype.ext
      by_cases hf : o = .free
      · by_cases hf' : o' = .free
        · exact hf.trans hf'.symm
        · subst hf
          exact (h.uses_disjoint_free ho' hf' hb' hb).elim
      · by_cases hf' : o' = .free
        · subst hf'
          exact (h.uses_disjoint_free ho hf hb hb').elim
        · exact h.exclusive.disjoint o o' b (h.uses_own ho hf hb).1 (h.uses_own ho' hf' hb').1
  inside o ho hf b hb := h.inside o hf b (h.uses_own ho hf hb).1
  freeNodes b hb := by
    rw [h.chainOf_free] at hb
    obtain rfl : b = 2 := by simpa using hb
    exact h.inside .reserved (fun hc => by cases hc) 2 (by simp [own])
  freeInside e he := by
    rw [h.chainOf_free, extentsOf_cons, extentsOf_nil, List.append_nil] at he
    exact (h.base.fits e he).1
  allocate n b fs' hrun x hx o ho hf hu := by
    cases ht : takeExtent n fs.freeNode.extents with
    | none =>
      rw [allocate_none h.within_free ht] at hrun
      cases hrun
    | some r =>
      rw [allocate_some h.within_free ht] at hrun
      cases hrun
      have hfree := (h.take ht).2.2 x hx
      exact hf (h.exclusive.disjoint o .free x (h.uses_own ho hf hu).1 hfree)

end Inv

/-- `deallocate` on a full free node first asks for a block. -/
theorem Inv.deallocate_full {k : Nat} (h : Inv fs l) (hk : fs.fuel = k + 1)
    (hfull : insertExtent block length fs.freeNode.extents = none) :
    deallocate block length fs = (do
      let next ← RedoxFs.allocate 1
      let _ ← writeAt 2 { fs.nodeAt 2 with next := next }.encode
      let _ ← writeAt next Node.default.encode
      insertBlocksAux k block length next : FsM Unit) fs := by
  have h2 : ¬(2 = 0) := by omega
  rw [h.base.freeNode] at hfull
  change insertBlocksAux fs.fuel block length fs.header.2.free fs = _
  rw [hk, h.base.free, insertBlocksAux]
  simp only [h2, if_false]
  rw [bind_ok (node_run (h.base.free ▸ h.within_free))]
  simp only [hfull, h.base.next, if_true]

theorem Inv.deallocate_none (h : Inv fs l)
    (hfull : insertExtent block length fs.freeNode.extents = none)
    (hb : takeExtent 1 fs.freeNode.extents = none) :
    deallocate block length fs = .error (.errno .ENOSPC) fs := by
  have hk : fs.fuel = (fs.fuel - 1) + 1 := by
    have := h.fuel 1
    omega
  rw [h.deallocate_full hk hfull, bind_error (allocate_none h.within_free hb)]

/-- One call in a world that is well laid out leaves it so. -/
theorem World.Step.inv {w w' : World} {call : Call} (h : World.Step World.Safe w call w')
    (hinv : ∃ l, Inv w.fs l ∧ l.held = w.held) : ∃ l, Inv w'.fs l ∧ l.held = w'.held := by
  obtain ⟨l, hinv, hheld⟩ := hinv
  cases h with
  | op hs hl hr =>
    obtain ⟨l', hout⟩ := hinv.outcome hl hs hr
    obtain ⟨hinv', hheld'⟩ := hout.inv hinv
    exact ⟨l', hinv', hheld'.trans hheld⟩
  | @allocated n b fs' _ _ hrun =>
    cases ht : takeExtent n w.fs.freeNode.extents with
    | none =>
      rw [allocate_none hinv.within_free ht] at hrun
      cases hrun
    | some r =>
      rw [allocate_some hinv.within_free ht, hinv.base.free] at hrun
      cases hrun
      refine ⟨_, (hinv.take ht).2.1, ?_⟩
      rw [← hheld]
  | @refused n e fs' _ _ hrun =>
    cases ht : takeExtent n w.fs.freeNode.extents with
    | none =>
      rw [allocate_none hinv.within_free ht] at hrun
      cases hrun
      exact ⟨l, hinv, hheld⟩
    | some r =>
      rw [allocate_some hinv.within_free ht] at hrun
      cases hrun
  | @deallocated block length rest err fs' hroom hpos hh hr =>
    rw [← hheld] at hh
    cases he : insertExtent block length w.fs.freeNode.extents with
    | some es =>
      obtain ⟨-, rfl⟩ := hr.of_ok (hinv.deallocate_run he)
      exact ⟨_, (hinv.give hpos hh he).2, rfl⟩
    | none =>
      obtain ⟨-, rfl⟩ := hr.of_error (hinv.deallocate_none he (hroom.resolve_left fun hne => hne he))
      have hsub : rest.Subperm l.held :=
        (List.sublist_append_right _ _).subperm.trans hh.symm.subperm
      exact ⟨_, hinv.forget hsub, rfl⟩

theorem World.Step.mono {P Q : World → Call → Prop} {w w' : World} {call : Call}
    (h : World.Step P w call w') (hPQ : P w call → Q w call) : World.Step Q w call w' := by
  cases h with
  | op hP hl hr => exact .op (hPQ hP) hl hr
  | allocated hP hn h => exact .allocated (hPQ hP) hn h
  | refused hP hn h => exact .refused (hPQ hP) hn h
  | deallocated hP hpos hh hr => exact .deallocated (hPQ hP) hpos hh hr

/-- In every run in which the free node has a place for each block given back and no length wraps
around, every block has one owner. -/
theorem every_block_owned_once {disk : Disk} {fs : FileSystem} {calls : List Call} {w : World}
    (hsize : disk.size < 2 ^ 64) (hc : create disk = .ok fs)
    (hrun : Run (World.Step World.Safe) ⟨fs, []⟩ calls w) : OwnedOnce w := by
  have hinv : ∃ l, Inv w.fs l ∧ l.held = w.held :=
    hrun.invariant (I := fun w => ∃ l, Inv w.fs l ∧ l.held = w.held)
      (fun _ _ _ hs => hs.inv) ⟨freshLayout, create_inv hsize hc, rfl⟩
  obtain ⟨l, hinv, hheld⟩ := hinv
  have h := hinv.ownedOnce
  rw [hheld] at h
  exact h

/-- A full free node is written back from a copy that still lists the block taken for its
successor. -/
theorem Inv.deallocate_overflow {es : List Extent} (h : Inv fs l) (held : List Nat) (hblock : block < 2 ^ 64)
    (hlength : length < 2 ^ 64) (hfull : insertExtent block length fs.freeNode.extents = none)
    (hb : takeExtent 1 fs.freeNode.extents = some (b, es)) :
    ∃ fs', deallocate block length fs = .ok () fs' ∧ ¬(uses fs' held .free).Nodup := by
  obtain ⟨-, hinv, hmem⟩ := h.take hb
  obtain ⟨hb0, hb2, hlt⟩ := hinv.held_bounds (b := b) (by simp)
  have hbfree := hmem b (by simp)
  rw [own_free, h.base.freeNode] at hbfree
  obtain ⟨k, hk⟩ : ∃ k, fs.fuel = k + 3 := by
    have hin : 512 * 3 + 512 ≤ fs.disk.size :=
      h.inside .reserved (fun hc => by cases hc) 3 (by simp [own])
    exact ⟨fs.disk.size / 512 - 2, by rw [FileSystem.fuel]; omega⟩
  have hlast : ValidExtents (⟨block, length⟩ :: List.replicate 14 Extent.default) := by
    refine ⟨rfl, fun e he => ?_⟩
    rcases List.mem_cons.mp he with rfl | he
    · exact ⟨hblock, hlength⟩
    · rw [List.eq_of_mem_replicate he]
      decide
  have hstale : Node.Valid { fs.nodeAt 2 with next := b } := (nodeAt_valid fs 2).setNext hlt
  -- the state after the two writes behind `allocate`
  let fs₂ := ((fs.setExtents 2 es).writeNodeAt 2 { fs.nodeAt 2 with next := b }).writeNodeAt b
    Node.default
  have hnodes : fs₂.nodeAt 2 = { fs.nodeAt 2 with next := b } ∧ fs₂.nodeAt b = Node.default := by
    constructor
    · rw [nodeAt_writeNodeAt Node.valid_default, Function.update_of_ne hb2.symm,
        nodeAt_writeNodeAt hstale, Function.update_self]
    · rw [nodeAt_writeNodeAt Node.valid_default, Function.update_self]
  have hfuel : fs₂.fuel = k + 3 := hk
  have hheader : fs₂.header = fs.header := rfl
  have hwb : fs.Within b := h.within_taken hb
  have hw2 : fs.Within 2 := h.base.free ▸ h.within_free
  have hrun : deallocate block length fs =
      .ok () (fs₂.setExtents b (⟨block, length⟩ :: List.replicate 14 Extent.default)) := by
    rw [h.deallocate_full hk hfull, bind_ok (allocate_some h.within_free hb),
      bind_ok (writeAt_run (hw2.setExtents es)), bind_ok (writeAt_run ((hwb.setExtents es).setBlock _)),
      h.base.free]
    exact insertBlocksAux_placed hb0 (((hwb.setExtents es).setBlock _).setBlock _) (by rw [← writeNodeAt, ← writeNodeAt, hnodes.2]; rfl)
  clear_value fs₂
  refine ⟨_, hrun, ?_⟩
  have hn2 : (fs₂.setExtents b (⟨block, length⟩ :: List.replicate 14 Extent.default)).nodeAt 2 =
      { fs.nodeAt 2 with next := b } := by
    rw [nodeAt_setExtents hlast, Function.update_of_ne hb2.symm, hnodes.1]
  have hnb : ((fs₂.setExtents b (⟨block, length⟩ :: List.replicate 14 Extent.default)).nodeAt b).next
      = 0 := by
    rw [nodeAt_setExtents hlast, Function.update_self, hnodes.2]
    rfl
  have hfuel' : (fs₂.setExtents b (⟨block, length⟩ :: List.replicate 14 Extent.default)).fuel =
      k + 3 := hfuel
  have hfree : (fs₂.setExtents b (⟨block, length⟩ :: List.replicate 14 Extent.default)).header.2.free
      = 2 := by
    rw [← h.base.free, ← hheader]
    rfl
  generalize fs₂.setExtents b (⟨block, length⟩ :: List.replicate 14 Extent.default) = fs' at *
  have hchain : chainOf fs' fs'.header.2.free = [2, b] := by
    have hc : Chain fs'.nodeAt 2 [2, b] := by
      refine ⟨rfl, by omega, ?_⟩
      rw [hn2]
      exact ⟨rfl, hb0, hnb⟩
    rw [chainOf, hfree, hfuel']
    exact chainFrom_eq hc (by rw [List.length_cons, List.length_singleton]; omega)
  intro hnodup
  rw [uses, hchain, List.nodup_append] at hnodup
  refine hnodup.2.2 b (by simp) b ?_ rfl
  rw [listing_cons, hn2]
  exact List.mem_append_left _ hbfree

/-- The free node after 30 blocks were taken and the first `k` blocks of even number came back. -/
def evenBlocks (k : Nat) : List Extent :=
  ⟨34, 512⟩ :: (List.range k).map (fun i => ⟨4 + 2 * i, 512⟩) ++
    List.replicate (14 - k) Extent.default

/-- The blocks still in hand by then. -/
def inHand (k : Nat) : List Nat := (List.range' 4 30).filter fun x => x % 2 = 1 ∨ 4 + 2 * k ≤ x

theorem insertExtent_evenBlocks : ∀ k < 14,
    insertExtent (4 + 2 * k) 512 (evenBlocks k) = some (evenBlocks (k + 1)) := by
  decide

theorem inHand_perm : ∀ k < 15,
    (inHand k).Perm (List.range' (4 + 2 * k) ((512 + 511) / 512) ++ inHand (k + 1)) := by
  decide

/-- Fourteen scattered blocks fill the free node. -/
theorem run_evenBlocks {fs : FileSystem} (hc : create (blankDisk 35) = .ok fs) (k : Nat)
    (hk : k ≤ 14) :
    ∃ w, Run (World.Step World.Safe) ⟨fs, []⟩
        (.allocate 30 :: (List.range k).map fun i => .deallocate (4 + 2 * i) 512) w ∧
      w.fs.freeNode.extents = evenBlocks k ∧ w.held = inHand k ∧
      ∃ l, Inv w.fs l ∧ l.held = w.held := by
  have hsize : (blankDisk 35).size < 2 ^ 64 := by decide
  have hinv := create_inv hsize hc
  induction k with
  | zero =>
    have ht : takeExtent 30 fs.freeNode.extents = some (4, evenBlocks 0) :=
      takeExtent_fresh rfl (by omega) (by omega) hc
    have hstep : World.Step World.Safe ⟨fs, []⟩ (.allocate 30)
        ⟨fs.setExtents 2 (evenBlocks 0), List.range' 4 30 ++ []⟩ := by
      refine .allocated trivial (by omega) ?_
      rw [allocate_some hinv.within_free ht, hinv.base.free]
    obtain ⟨hv, hinv', -⟩ := hinv.take ht
    refine ⟨_, .cons hstep .nil, ?_, rfl, hstep.inv ⟨freshLayout, hinv, rfl⟩⟩
    rw [hinv'.base.freeNode, nodeAt_setExtents hv, Function.update_self]
  | succ k ih =>
    obtain ⟨w, hrun, hfree, hheld, l, hl, hlw⟩ := ih (by omega)
    have hins := insertExtent_evenBlocks k (by omega)
    rw [← hfree] at hins
    have hperm := inHand_perm k (by omega)
    rw [← hheld] at hperm
    have hstep : World.Step World.Safe w (.deallocate (4 + 2 * k) 512)
        ⟨w.fs.setExtents 2 (evenBlocks (k + 1)), inHand (k + 1)⟩ := by
      refine .deallocated ?_ (by omega) hperm (.ok (hl.deallocate_run hins))
      rw [World.Safe, hins]
      exact Or.inl (Option.some_ne_none _)
    rw [← hlw] at hperm
    obtain ⟨hv, hinv'⟩ := hl.give (by omega) hperm hins
    refine ⟨⟨w.fs.setExtents 2 (evenBlocks (k + 1)), inHand (k + 1)⟩, ?_, ?_, rfl, _, hinv', rfl⟩
    · rw [List.range_succ, List.map_append]
      exact hrun.snoc hstep
    · rw [hinv'.base.freeNode, nodeAt_setExtents hv, Function.update_self]

/-- The fifteenth block that comes back does not fit, and the block that is then taken for a second
free node stays listed as free. -/
theorem scattered_release_shares_a_block : ∃ fs w, create (blankDisk 35) = .ok fs ∧
    Run (World.Step fun _ _ => True) ⟨fs, []⟩
      (.allocate 30 :: (List.range 15).map fun i => .deallocate (4 + 2 * i) 512) w ∧
    ¬OwnedOnce w := by
  obtain ⟨fs, hc⟩ := create_ok (show 4 * 512 ≤ (blankDisk 35).size by decide)
  obtain ⟨w, hrun, hfree, hheld, l, hl, hlw⟩ := run_evenBlocks hc 14 (by omega)
  have hfull : insertExtent 32 512 w.fs.freeNode.extents = none := by
    rw [hfree]
    decide
  have htake : takeExtent 1 w.fs.freeNode.extents = some (34, ⟨35, 0⟩ :: (evenBlocks 14).tail) := by
    rw [hfree]
    decide
  have hperm := inHand_perm 14 (by omega)
  rw [← hheld] at hperm
  obtain ⟨fs', hdealloc, hdup⟩ := hl.deallocate_overflow (inHand 15) (by omega) (by omega)
    hfull htake
  refine ⟨fs, ⟨fs', inHand 15⟩, hc, ?_, ?_⟩
  · rw [List.range_succ, List.map_append]
    have hany : Run (World.Step fun _ _ => True) _ _ w :=
      hrun.mono fun _ _ _ hs => hs.mono fun _ => trivial
    exact hany.snoc (.deallocated trivial (by omega) hperm (.ok hdealloc))
  · intro hone
    exact hdup (hone.exclusive.nodup ⟨.free, trivial⟩)

/-- Two blocks are taken and one of them comes back. -/
theorem owned_once_after_release : ∃ fs w, create (blankDisk 8) = .ok fs ∧
    Run (World.Step World.Safe) ⟨fs, []⟩ [.allocate 2, .deallocate 5 512] w ∧ OwnedOnce w := by
  have hsize : (blankDisk 8).size < 2 ^ 64 := by decide
  obtain ⟨fs, hc⟩ := create_ok (show 4 * 512 ≤ (blankDisk 8).size by decide)
  have hinv := create_inv hsize hc
  have ht : takeExtent 2 fs.freeNode.extents =
      some (4, ⟨6, 1024⟩ :: List.replicate 14 Extent.default) :=
    takeExtent_fresh rfl (by omega) (by omega) hc
  have hstep : World.Step World.Safe ⟨fs, []⟩ (.allocate 2)
      ⟨fs.setExtents 2 (⟨6, 1024⟩ :: List.replicate 14 Extent.default), [4, 5]⟩ := by
    refine .allocated trivial (by omega) ?_
    rw [allocate_some hinv.within_free ht, hinv.base.free]
  obtain ⟨hv, hinv', -⟩ := hinv.take ht
  have hfree : (fs.setExtents 2 (⟨6, 1024⟩ :: List.replicate 14 Extent.default)).freeNode.extents =
      ⟨6, 1024⟩ :: List.replicate 14 Extent.default := by
    rw [hinv'.base.freeNode, nodeAt_setExtents hv, Function.update_self]
  generalize fs.setExtents 2 (⟨6, 1024⟩ :: List.replicate 14 Extent.default) = fs₁ at *
  have hins : insertExtent 5 512 fs₁.freeNode.extents =
      some (⟨5, 1536⟩ :: List.replicate 14 Extent.default) := by
    rw [hfree]
    decide
  have hstep' : World.Step World.Safe ⟨fs₁, [4, 5]⟩ (.deallocate 5 512)
      ⟨fs₁.setExtents 2 (⟨5, 1536⟩ :: List.replicate 14 Extent.default), [4]⟩ := by
    refine .deallocated ?_ (by omega) (List.Perm.swap 5 4 []) (.ok (hinv'.deallocate_run hins))
    rw [World.Safe, hins]
    exact Or.inl (Option.some_ne_none _)
  have hrun := Run.cons hstep (Run.cons hstep' Run.nil)
  exact ⟨fs, _, hc, hrun, every_block_owned_once hsize hc hrun⟩

end Origel.RedoxFs
