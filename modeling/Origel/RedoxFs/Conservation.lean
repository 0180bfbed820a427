import Origel.RedoxFs.Blocks
import Origel.RedoxFs.Short

/-! No block is lost, over all runs that give up no block without freeing it. -/
namespace Origel.RedoxFs

open Origel.Lib FileSystem

variable {fs fs' : FileSystem} {b c d p t x mode offset len : Nat} {l l' : Layout} {op : Op}
  {es : List Extent} {name : String} {err : Option Errno}

/-- Cutting to `len` bytes drops no whole sector. -/
def KeepsSectors : Nat → List Extent → Prop
  | _, [] => True
  | len, e :: es =>
    (len < e.length → (len + 511) / 512 = (e.length + 511) / 512) ∧ KeepsSectors (len - e.length) es

/-- A call after which every block it takes out of use is free: a removed file has no data and no
second node, a cut file keeps its sectors, and no insertion fails half way. -/
def LeakFree (fs : FileSystem) (op : Op) : Prop :=
  Safe fs op ∧ match op with
    | .createNode _ name d =>
      lookup fs name (children fs (chainOf fs d)) = none → ¬CannotName fs (chainOf fs d)
    | .removeNode mode name d => ∀ b, Removes fs mode name d b →
      ¬CannotSplit fs (chainOf fs d) b ∧ chainOf fs b = [b] ∧
        ((fs.nodeAt b).isDir = false → listing fs [b] = [])
    | .writeNode t offset buf => ¬CannotList fs (chainOf fs t) (wrap64 (offset + buf.length))
    | .nodeSetLen t len => KeepsSectors len (extentsOf fs (chainOf fs t))
    | .setAttr .. => True

/-- Every block behind the fixed ones is listed as free, is a node of the free list, or is used by
what hangs on the root. -/
def Conserved (size : Nat) (fs : FileSystem) : Prop :=
  ∀ b ∈ (⟨4, size - 4 * 512⟩ : Extent).span,
    b ∈ listing fs (chainOf fs fs.header.2.free) ∨ b ∈ chainOf fs fs.header.2.free ∨
      ∃ h, Reach fs h ∧ b ∈ uses fs [] (.object h)

/-- The layout side of `Conserved`: each object hangs on the root and each block has an owner. -/
structure Kept (size : Nat) (fs : FileSystem) (l : Layout) : Prop where
  disk : fs.disk.size = size
  rooted : ∀ p, l.chain p ≠ [] → Reach fs p
  covered : ∀ b ∈ (⟨4, size - 4 * 512⟩ : Extent).span,
    b ∈ own fs l .free ∨ ∃ p, b ∈ own fs l (.object p)

theorem spans_truncate (h : KeepsSectors len es) : spans (truncateExtents len es).2.1 = spans es := by
  induction es generalizing len with
  | nil => rfl
  | cons e es ih =>
    rw [truncateExtents]
    by_cases hlt : e.length > len
    · rw [if_pos hlt]
      have hz : len - e.length = 0 := by omega
      have hrest := ih h.2
      rw [hz] at hrest
      dsimp only
      rw [spans_cons, spans_cons, hrest, Extent.span, Extent.span, h.1 hlt]
    · rw [if_neg hlt]
      dsimp only
      rw [spans_cons, spans_cons, ih h.2]

/-- What was listed stays in reach, but for one entry that lists nothing itself. -/
theorem Inv.reach_after (h : Inv fs l) (h' : Inv fs' l')
    (hent : ∀ p q, q ∈ entries fs l p → q ≠ b → p ≠ b ∧ q ∈ entries fs' l' p)
    (hx : Reach fs x) (hne : x ≠ b) : Reach fs' x := by
  induction hx with
  | root =>
    rw [h.base.root, ← h'.base.root]
    exact .root
  | @child d q hd hdir hq ih =>
    rw [h.chainOf_eq (h.reach hd), h.children_eq hdir, ← entries_of_dir hdir] at hq
    obtain ⟨hdb, hq'⟩ := hent d q hq hne
    exact h'.reach_entry (ih hdb) hq'

theorem Outcome.size (h : Outcome fs l op err fs' l') : fs'.disk.size = fs.disk.size := by
  cases h with
  | refused => rfl
  | created _ h => exact h.agree.size
  | unnamed _ _ _ ha => exact ha.size
  | removed _ _ _ h => exact h.agree.size
  | unsplit _ _ h => exact h.agree.size
  | wrote h => exact h.touches.agree.size
  | filled h => exact h.agree.size
  | cut _ hrw => exact hrw.agree.size
  | attr _ _ ha _ => exact ha.size

namespace Kept

variable {size : Nat}

/-- Objects may be added below what hangs on the root, and one that names nothing may go. -/
theorem step (hk : Kept size fs l) (h : Inv fs l) (h' : Inv fs' l')
    (hsize : fs'.disk.size = fs.disk.size)
    (hheads : ∀ p, l'.chain p ≠ [] → l.chain p ≠ [] ∧ p ≠ b ∨
      ∃ d, l.chain d ≠ [] ∧ d ≠ b ∧ p ∈ entries fs' l' d)
    (hent : ∀ p q, q ∈ entries fs l p → q ≠ b → p ≠ b ∧ q ∈ entries fs' l' p)
    (hfree : ∀ x ∈ own fs l .free, x ∈ own fs' l' .free ∨ ∃ p, x ∈ own fs' l' (.object p))
    (hobj : ∀ p, ∀ x ∈ own fs l (.object p),
      x ∈ own fs' l' .free ∨ ∃ p, x ∈ own fs' l' (.object p)) : Kept size fs' l' where
  disk := hsize.trans hk.disk
  rooted p hp := by
    rcases hheads p hp with ⟨hl, hne⟩ | ⟨d, hd, hdb, hpd⟩
    · exact h.reach_after h' hent (hk.rooted p hl) hne
    · exact h'.reach_entry (h.reach_after h' hent (hk.rooted d hd) hdb) hpd
  covered x hx := by
    rcases hk.covered x hx with hx | ⟨p, hx⟩
    · exact hfree x hx
    · exact hobj p x hx

/-- A call that moves no block and no name. -/
theorem same (hk : Kept size fs l) (h : Inv fs l) (h' : Inv fs' l)
    (hsize : fs'.disk.size = fs.disk.size)
    (hown : ∀ p, l.chain p ≠ [] →
      own fs' l (.object p) = own fs l (.object p) ∧ entries fs' l p = entries fs l p)
    (hfree : fs'.freeNode = fs.freeNode) : Kept size fs' l := by
  have hn0 : ∀ p, l.chain p ≠ [] → p ≠ 0 :=
    fun p hp => (h.object p hp).chain.ne_zero (h.head_mem hp)
  refine hk.step (b := 0) h h' hsize (fun p hp => Or.inl ⟨hp, hn0 p hp⟩) ?_ ?_ ?_
  · intro p q hq _
    have hp := chain_of_entry hq
    rw [(hown p hp).2]
    exact ⟨hn0 p hp, hq⟩
  · intro x hx
    rw [own_free_congr (l := l) hfree]
    exact Or.inl hx
  · intro p x hx
    rw [← (hown p (chain_of_own hx)).1] at hx
    exact Or.inr ⟨p, hx⟩

theorem created {mode : Nat} (hk : Kept size fs l) (h : Inv fs l) (hd : l.chain d ≠ [])
    (hdir : (fs.nodeAt d).isDir = true) (hname : lookup fs name (listing fs (l.chain d)) = none)
    (hc : Created fs l d b (Node.new mode name d) fs' l') : Kept size fs' l' := by
  have hn0 : ∀ p, l.chain p ≠ [] → p ≠ 0 :=
    fun p hp => (h.object p hp).chain.ne_zero (h.head_mem hp)
  have hout : Outcome fs l (.createNode mode name d) none fs' l' := .created hname hc
  have hbd : b ≠ d := fun hbd => hd (hbd ▸ hc.fresh)
  have hdir' : (fs'.nodeAt d).isDir = true := (Node.isDir_attrs hc.attrs).trans hdir
  obtain ⟨ext, hext, hfree⟩ := hc.grown
  have hold : ∀ p, p ≠ d → l.chain p ≠ [] → l'.chain p ≠ [] := by
    intro p hpd hp
    have hpb : p ≠ b := fun hpb => hp (hpb ▸ hc.fresh)
    rw [hc.chain p hpb hpd]
    exact hp
  have hent : ∀ p q, q ∈ entries fs l p → q ∈ entries fs' l' p := by
    intro p q hq
    by_cases hpd : p = d
    · rw [hpd, entries_of_dir hdir] at hq
      rw [hpd, entries_of_dir hdir']
      exact hc.listing.mem_iff.mpr (List.mem_cons_of_mem _ hq)
    · have hp := chain_of_entry hq
      rw [(hout.other_own h hpd hp (hold p hpd hp)).2.2]
      exact hq
  refine hk.step (b := 0) h hc.inv hout.size ?_ ?_ ?_ ?_
  · intro p hp
    by_cases hpb : p = b
    · refine Or.inr ⟨d, hd, hn0 d hd, ?_⟩
      rw [hpb, entries_of_dir hdir']
      exact hc.listing.mem_iff.mpr List.mem_cons_self
    · by_cases hpd : p = d
      · exact Or.inl ⟨hpd ▸ hd, hpd ▸ hn0 d hd⟩
      · rw [hc.chain p hpb hpd] at hp
        exact Or.inl ⟨hp, hn0 p hp⟩
  · exact fun p q hq _ => ⟨hn0 p (chain_of_entry hq), hent p q hq⟩
  · intro x hx
    rcases List.mem_append.mp (hfree.mem_iff.mp hx) with hx | hx
    · rcases List.mem_cons.mp hx with rfl | hx
      · exact Or.inr ⟨x, mem_own_of_chain (by rw [hc.self]; exact List.mem_cons_self)⟩
      · exact Or.inr ⟨d, mem_own_of_chain (by rw [hext]; exact List.mem_append_right _ hx)⟩
    · exact Or.inl hx
  · intro p x hx
    have hp := chain_of_own hx
    by_cases hpd : p = d
    · rw [hpd, own_of_dir hdir] at hx
      exact Or.inr ⟨d, mem_own_of_chain (by rw [hext]; exact List.mem_append_left _ hx)⟩
    · rw [← (hout.other_own h hpd hp (hold p hpd hp)).2.1] at hx
      exact Or.inr ⟨p, hx⟩

theorem removed {mode : Nat} (hk : Kept size fs l) (h : Inv fs l) (hd : l.chain d ≠ [])
    (hdir : (fs.nodeAt d).isDir = true) (hrem : Removes fs mode name d b)
    (hmem : b ∈ entries fs l d) (hbd : b ≠ d) (hone : l.chain b = [b])
    (hdata : (fs.nodeAt b).isDir = false → listing fs [b] = []) (hr : Removed fs l d b fs' l') :
    Kept size fs' l' := by
  have hout : Outcome fs l (.removeNode mode name d) none fs' l' := .removed hrem hmem hbd hr
  have hdir' : (fs'.nodeAt d).isDir = true := (Node.isDir_attrs hr.attrs).trans hdir
  obtain ⟨ext, hext, hfree⟩ := hr.grown
  have hbl : l.chain b ≠ [] := by simp [hone]
  have hownb : own fs l (.object b) = [b] := by
    rw [own, hone]
    split
    · rfl
    · rename_i hfile
      rw [hdata (by simpa using hfile)]
      rfl
  have hentb : entries fs l b = [] := by
    rw [entries]
    split
    · rename_i hbdir
      rw [← h.children_eq hbdir, ← h.chainOf_eq hbl]
      exact hrem.2.2 hbdir
    · rfl
  have hold : ∀ p, p ≠ d → p ≠ b → l.chain p ≠ [] → l'.chain p ≠ [] := by
    intro p hpd hpb hp
    rw [hr.chain p hpb hpd]
    exact hp
  have hgive : ∀ x, x = b ∨ x ∈ own fs l .free → x ∈ own fs' l' .free ∨
      ∃ p, x ∈ own fs' l' (.object p) := by
    intro x hx
    rcases List.mem_append.mp (hfree.mem_iff.mp (List.mem_cons.mpr hx)) with hx | hx
    · exact Or.inr ⟨d, mem_own_of_chain (by rw [hext]; exact List.mem_append_right _ hx)⟩
    · exact Or.inl hx
  refine hk.step (b := b) h hr.inv hout.size ?_ ?_ (fun x hx => hgive x (Or.inr hx)) ?_
  · intro p hp
    have hpb : p ≠ b := by
      rintro rfl
      exact hp hr.self
    refine Or.inl ⟨?_, hpb⟩
    by_cases hpd : p = d
    · exact hpd ▸ hd
    · rw [hr.chain p hpb hpd] at hp
      exact hp
  · intro p q hq hqb
    have hpb : p ≠ b := by
      rintro rfl
      rw [hentb] at hq
      cases hq
    refine ⟨hpb, ?_⟩
    by_cases hpd : p = d
    · rw [hpd, entries_of_dir hdir] at hq
      rw [hpd, entries_of_dir hdir']
      exact (List.mem_cons.mp (hr.listing.mem_iff.mp hq)).resolve_left hqb
    · have hp := chain_of_entry hq
      rw [(hout.other_own h hpd hp (hold p hpd hpb hp)).2.2]
      exact hq
  · intro p x hx
    by_cases hpb : p = b
    · rw [hpb, hownb] at hx
      exact hgive x (Or.inl (by simpa using hx))
    have hp := chain_of_own hx
    by_cases hpd : p = d
    · rw [hpd, own_of_dir hdir] at hx
      exact Or.inr ⟨d, mem_own_of_chain (by rw [hext]; exact List.mem_append_left _ hx)⟩
    · rw [← (hout.other_own h hpd hp (hold p hpd hpb hp)).2.1] at hx
      exact Or.inr ⟨p, hx⟩

theorem wrote (hk : Kept size fs l) (offset : Nat) (buf : List UInt8) (h : Inv fs l) (ht : l.chain t ≠ [])
    (hfile : (fs.nodeAt t).isDir = false)
    (hw : Wrote fs l t (wrap64 (offset + buf.length)) fs' l') : Kept size fs' l' := by
  have hn0 : ∀ p, l.chain p ≠ [] → p ≠ 0 :=
    fun p hp => (h.object p hp).chain.ne_zero (h.head_mem hp)
  have hout : Outcome fs l (.writeNode t offset buf) none fs' l' := .wrote hw
  have hold : ∀ p, p ≠ t → l.chain p ≠ [] → l'.chain p ≠ [] := by
    intro p hpt hp
    rw [hw.touches.chain p hpt]
    exact hp
  have hmove : ∀ x, x ∈ own fs l .free ∨ x ∈ own fs l (.object t) → x ∈ own fs' l' .free ∨
      ∃ p, x ∈ own fs' l' (.object p) := by
    intro x hx
    rcases List.mem_append.mp (hw.conserve.mem_iff.mp (List.mem_append.mpr hx)) with hx | hx
    · exact Or.inl hx
    · exact Or.inr ⟨t, hx⟩
  refine hk.step (b := 0) h hw.touches.inv hout.size ?_ ?_ (fun x hx => hmove x (Or.inl hx)) ?_
  · intro p hp
    refine Or.inl ?_
    by_cases hpt : p = t
    · exact ⟨hpt ▸ ht, hpt ▸ hn0 t ht⟩
    · rw [hw.touches.chain p hpt] at hp
      exact ⟨hp, hn0 p hp⟩
  · intro p q hq _
    have hp := chain_of_entry hq
    have hpt : p ≠ t := by
      rintro rfl
      rw [entries, hfile] at hq
      cases hq
    rw [(hout.other_own h hpt hp (hold p hpt hp)).2.2]
    exact ⟨hn0 p hp, hq⟩
  · intro p x hx
    by_cases hpt : p = t
    · exact hmove x (Or.inr (hpt ▸ hx))
    · have hp := chain_of_own hx
      rw [← (hout.other_own h hpt hp (hold p hpt hp)).2.1] at hx
      exact Or.inr ⟨p, hx⟩

/-- A call on `t` that keeps what it lists. -/
theorem relisted (hk : Kept size fs l) (h : Inv fs l) (hout : Outcome fs l op err fs' l)
    (ht : l.chain op.target ≠ [])
    (hlist : listing fs' (l.chain op.target) = listing fs (l.chain op.target))
    (hfree : fs'.freeNode = fs.freeNode) : Kept size fs' l := by
  have hdir := hout.isDir h ht ht
  refine hk.same h (hout.inv h).1 hout.size (fun p hp => ?_) hfree
  by_cases hpt : p = op.target
  · subst hpt
    rw [own, own, entries, entries, hdir, hlist]
    exact ⟨rfl, rfl⟩
  · exact (hout.other_own h hpt hp hp).2

end Kept

theorem Inv.freeNode_agree {T : Nat → Prop} (h : Inv fs l) (ha : Agree T fs fs')
    (hT : ¬T 2) : fs'.freeNode = fs.freeNode := by
  apply ha.freeNode
  rw [h.base.free]
  exact hT

/-- A leak-free call loses no block. -/
theorem Outcome.kept {size : Nat} (hout : Outcome fs l op err fs' l') (h : Inv fs l)
    (hl : op.Legal fs) (hleak : LeakFree fs op) (hk : Kept size fs l) : Kept size fs' l' := by
  obtain ⟨-, hleak⟩ := hleak
  have hout' := hout
  cases hout with
  | refused => exact hk
  | created hname hc => exact hk.created h (h.reach hl.1) hl.2.1 hname hc
  | @unnamed mode name d _ hname hcannot _ _ =>
    dsimp only at hleak
    rw [h.chainOf_eq (h.reach hl.1), h.children_eq hl.2.1] at hleak
    exact (hleak hname hcannot).elim
  | @removed mode name d b _ _ hrem hmem hbd hr =>
    obtain ⟨-, hone, hdata⟩ := hleak b hrem
    rw [h.chainOf_eq (h.entryHead d b hmem).1] at hone
    exact hk.removed h (h.reach hl.1) hl.2 hrem hmem hbd hone hdata hr
  | @unsplit mode name d b _ hrem hcannot _ =>
    rw [← h.chainOf_eq (h.reach hl.1)] at hcannot
    exact ((hleak b hrem).1 hcannot).elim
  | wrote hw => exact hk.wrote _ _ h (h.reach hl.1) hl.2.1 hw
  | @filled t offset buf _ hfill =>
    have ht := h.reach hl.1
    dsimp only at hleak
    rw [h.chainOf_eq ht] at hleak
    refine hk.relisted h hout' ht ?_ ?_
    · change spans (extentsOf fs' (l.chain t)) = spans (extentsOf fs (l.chain t))
      rw [extentsOf_filledUp hfill.extents]
      exact spans_grown (filledUp_grown _)
    · obtain ⟨-, ha⟩ := hfill.cause.resolve_right hleak
      exact h.freeNode_agree ha fun h2 => h.chain_ne_two h2 rfl
  | @cut t len _ _ hrw hes =>
    have ht := h.reach hl.1
    dsimp only at hleak
    rw [h.chainOf_eq ht] at hleak
    refine hk.relisted h hout' ht ?_ (h.freeNode_agree hrw.agree fun h2 => h.chain_ne_two h2 rfl)
    change spans (extentsOf fs' (l.chain t)) = spans (extentsOf fs (l.chain t))
    rw [hes, spans_truncate hleak]
  | @attr t perm uid gid _ ht _ ha hn =>
    refine hk.relisted h hout' (h.reach hl.1) (listing_congr fun c hc => ?_)
      (h.freeNode_agree ha fun h2 => h.chain_ne_two ht h2.symm)
    by_cases hct : c = t
    · rw [hct, hn, Node.setAttr]
    · rw [ha.nodeAt hct]

theorem create_kept {disk : Disk} (hsize : disk.size < 2 ^ 64) (hc : create disk = .ok fs) :
    Kept disk.size fs freshLayout := by
  obtain ⟨-, -, hroot, -, hsz, -, h2, -⟩ := create_spec hsize hc
  refine ⟨hsz, fun p hp => ?_, fun b hb => Or.inl ?_⟩
  · have hp1 : p = 1 := by
      by_contra hne
      exact hp (if_neg hne)
    rw [hp1, ← hroot]
    exact .root
  · rw [own_free, (create_inv hsize hc).base.freeNode, h2]
    exact List.mem_append_left _ hb

theorem Kept.conserved {size : Nat} (hk : Kept size fs l) (h : Inv fs l) : Conserved size fs := by
  intro b hb
  rcases hk.covered b hb with hb | ⟨p, hb⟩
  · left
    rw [h.chainOf_free, listing_cons, listing_nil, List.append_nil, ← h.base.freeNode]
    exact hb
  · have hp := chain_of_own hb
    refine Or.inr (Or.inr ⟨p, hk.rooted p hp, ?_⟩)
    rw [uses, h.chainOf_eq hp]
    exact hb

/-- In every run of leak-free calls no block is lost: each is free or in use, so that what a file
gives up is free again. -/
theorem no_block_is_lost {disk : Disk} {fs : FileSystem} {ops : List Op}
    (hsize : disk.size < 2 ^ 64) (hc : create disk = .ok fs)
    (hrun : Run (Op.Step LeakFree) fs ops fs') :
    Conserved disk.size fs' ∧
      ∀ b ∈ (⟨4, disk.size - 4 * 512⟩ : Extent).span,
        (∀ h, Reach fs' h → b ∉ uses fs' [] (.object h)) →
        b ∈ listing fs' (chainOf fs' fs'.header.2.free) := by
  have hkept : ∃ l, Inv fs' l ∧ Kept disk.size fs' l := by
    refine hrun.invariant (I := fun fs => ∃ l, Inv fs l ∧ Kept disk.size fs l) ?_
      ⟨freshLayout, create_inv hsize hc, create_kept hsize hc⟩
    rintro fs op fs' ⟨hl, hleak, err, hr⟩ ⟨l, h, hk⟩
    obtain ⟨l', hout⟩ := h.outcome hl hleak.1 hr
    exact ⟨l', (hout.inv h).1, hout.kept h hl hleak hk⟩
  obtain ⟨l, h, hk⟩ := hkept
  have hcons := hk.conserved h
  refine ⟨hcons, fun b hb hno => ?_⟩
  rcases hcons b hb with hfree | hnode | ⟨p, hp, hb'⟩
  · exact hfree
  · rw [h.chainOf_free] at hnode
    obtain rfl : b = 2 := by simpa using hnode
    have := (Extent.mem_span.mp hb).1
    dsimp only at this
    omega
  · exact (hno p hp hb').elim

/-- A file of one sector in the root of a small disk, made by leak-free calls. -/
theorem run_one_sector : ∃ fs fs' l, create (blankDisk 8) = .ok fs ∧
    Run (Op.Step LeakFree) fs [.createNode (Node.MODE_FILE ||| 0o644) "a" 1,
      .writeNode 4 0 (List.replicate 512 1)] fs' ∧
    Inv fs' l ∧ Kept (blankDisk 8).size fs' l ∧ l.chain 4 = [4] ∧
    (fs'.nodeAt 4).isDir = false ∧
    (fs'.nodeAt 4).extents = ⟨5, 512⟩ :: List.replicate 14 Extent.default ∧
    fs'.freeNode.extents = ⟨6, 1024⟩ :: List.replicate 14 Extent.default := by
  have hsize : (blankDisk 8).size < 2 ^ 64 := by decide
  obtain ⟨fs, hc⟩ := create_ok (show 4 * 512 ≤ (blankDisk 8).size by decide)
  have hinv := create_inv hsize hc
  obtain ⟨fs₁, l₁, hok₁, hcreated, hfirst⟩ := first_node (n := 8) "a" rfl (by omega) (by omega) hc
    (show Node.MODE_FILE ||| 0o644 < 2 ^ 16 by decide)
  have hchain1 : chainOf fs 1 = [1] := hinv.chainOf_eq hinv.rootChain
  have hlist := listing_fresh hsize hc
  have htake : takeExtent 1 fs.freeNode.extents =
      some (4, ⟨5, 512 * (8 - 4 - 1)⟩ :: List.replicate 14 Extent.default) :=
    takeExtent_fresh rfl (by omega) (by omega) hc
  have hstep₁ : Op.Step LeakFree fs (.createNode (Node.MODE_FILE ||| 0o644) "a" 1) fs₁ := by
    refine ⟨⟨hinv.reach_root, hinv.rootDir, by decide⟩, ⟨trivial, fun _ hcannot => ?_⟩, none, ?_⟩
    · obtain ⟨b, es, htake', hnone, -⟩ := hcannot
      rw [htake] at htake'
      cases htake'
      exact absurd hnone (by decide)
    · exact .ok (bind_ok hok₁)
  have hfile : (fs₁.nodeAt 4).isDir = false := by
    rw [hfirst.node]
    decide
  have hempty : (fs₁.nodeAt 4).extents = List.replicate 15 Extent.default := by
    rw [hfirst.node]
    rfl
  have htake₁ : takeExtent 1 fs₁.freeNode.extents =
      some (5, ⟨6, 1024⟩ :: List.replicate 14 Extent.default) := by
    rw [hfirst.free]
    decide
  have hlen : 0 + (List.replicate 512 (1 : UInt8)).length = 512 := by
    rw [List.length_replicate]
  obtain ⟨fs₂, l₂, hok₂, hwrote, hchain₂, hfree₂, hext₂, -⟩ := hfirst.inv.writeNode_first hlen
    hfirst.chain hfile hempty (by omega) (by omega) htake₁
  have hc₁ : chainOf fs₁ 4 = [4] := by
    rw [hfirst.inv.chainOf_eq (by simp [hfirst.chain]), hfirst.chain]
  have hmiss : missing fs₁ [4] 512 = 512 := missing_empty hempty (by omega)
  have hstep₂ : Op.Step LeakFree fs₁ (.writeNode 4 0 (List.replicate 512 1)) fs₂ := by
    refine ⟨⟨hfirst.reach, hfile, by omega, by rw [List.length_replicate]; omega⟩, ⟨?_, ?_⟩, none, ?_⟩
    · rw [Safe, hlen, hc₁, wrap64_of_lt (by omega), hmiss]
      omega
    · dsimp only
      rw [hlen, hc₁, wrap64_of_lt (by omega)]
      rintro ⟨-, c, nb, es, hlast, htake', -, hno⟩
      obtain rfl : c = 4 := by simpa using hlast.symm
      rw [hmiss, hempty] at hno
      exact absurd hno (by simp [filledUp, insertExtent, Extent.default, List.replicate_succ])
    · exact .ok (bind_ok hok₂)
  have hk₁ : Kept (blankDisk 8).size fs₁ l₁ := (create_kept hsize hc).created hinv hinv.rootChain
    hinv.rootDir (by rw [hlist]; rfl) hcreated
  have hk₂ : Kept (blankDisk 8).size fs₂ l₂ := by
    refine hk₁.wrote 0 (List.replicate 512 1) hfirst.inv (by simp [hfirst.chain])
      hfile ?_
    rw [hlen, wrap64_of_lt (by omega)]
    exact hwrote
  refine ⟨fs, fs₂, l₂, hc, .cons hstep₁ (.cons hstep₂ .nil), hwrote.touches.inv, hk₂, hchain₂, ?_,
    hext₂, hfree₂⟩
  exact (Node.isDir_attrs hwrote.touches.attrs).trans hfile

/-- Cutting the file to nothing takes its sector out of use and frees it nowhere. -/
theorem cut_file_loses_its_sector : ∃ fs fs', create (blankDisk 8) = .ok fs ∧
    Run (Op.Step fun _ _ => True) fs [.createNode (Node.MODE_FILE ||| 0o644) "a" 1,
      .writeNode 4 0 (List.replicate 512 1), .nodeSetLen 4 0] fs' ∧
    ¬Conserved (blankDisk 8).size fs' := by
  obtain ⟨fs, fs₂, l, hc, hrun, hinv, hk, hchain, hfile, hext, hfree⟩ := run_one_sector
  have hne : l.chain 4 ≠ [] := by simp [hchain]
  obtain ⟨fs₃, hok, hinv₃, hrw, hes⟩ := hinv.nodeSetLen_spec 0 hne hfile
  have hany : Run (Op.Step fun _ _ => True) fs _ fs₂ :=
    hrun.mono fun _ _ _ hs => ⟨hs.1, trivial, hs.2.2⟩
  refine ⟨fs, fs₃, hc, hany.snoc ⟨⟨hk.rooted 4 hne, hfile, by omega⟩, trivial, none, .ok hok⟩, ?_⟩
  have hout : Outcome fs₂ l (.nodeSetLen 4 0) none fs₃ l := .cut hinv₃ hrw hes
  have hfree₃ : fs₃.freeNode = fs₂.freeNode :=
    hinv.freeNode_agree hrw.agree fun h2 => hinv.chain_ne_two h2 rfl
  have hlist₃ : listing fs₃ [4] = [] := by
    rw [hchain] at hes
    rw [listing, hes, extentsOf_cons, extentsOf_nil, List.append_nil, hext]
    decide
  have hmine : 5 ∈ own fs₂ l (.object 4) := by
    rw [own_of_file hfile, hchain, listing_cons, listing_nil, hext]
    decide
  intro hcons
  rcases hcons 5 (by decide) with hfr | hnode | ⟨p, hp, hu⟩
  · rw [hinv₃.chainOf_free, listing_cons, listing_nil, ← hinv₃.base.freeNode, hfree₃, hfree] at hfr
    exact absurd hfr (by decide)
  · rw [hinv₃.chainOf_free] at hnode
    exact absurd hnode (by decide)
  · have hpl := hinv₃.reach hp
    by_cases hp4 : p = 4
    · subst hp4
      rw [uses, hinv₃.chainOf_eq hpl, hchain, hlist₃, ite_self] at hu
      exact absurd hu (by decide)
    · rw [uses, hinv₃.chainOf_eq hpl] at hu
      have hu' : 5 ∈ own fs₂ l (.object p) := by
        rw [← (hout.other_own hinv hp4 hpl hpl).2.1]
        exact hu
      cases hinv.exclusive.disjoint _ _ 5 hu' hmine
      exact hp4 rfl

theorem no_block_is_lost_by_writing : ∃ fs fs', create (blankDisk 8) = .ok fs ∧
    Run (Op.Step LeakFree) fs [.createNode (Node.MODE_FILE ||| 0o644) "a" 1,
      .writeNode 4 0 (List.replicate 512 1)] fs' ∧ Conserved (blankDisk 8).size fs' := by
  obtain ⟨fs, fs', l, hc, hrun, -⟩ := run_one_sector
  have hsize : (blankDisk 8).size < 2 ^ 64 := by decide
  exact ⟨fs, fs', hc, hrun, (no_block_is_lost hsize hc hrun).1⟩

end Origel.RedoxFs
