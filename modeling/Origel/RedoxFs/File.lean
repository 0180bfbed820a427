import Origel.RedoxFs.Directory

/-! What the operations that change the length of a file do to a well laid out file system. -/
namespace Origel.RedoxFs

open Origel.Lib FileSystem

variable {fs fs' : FileSystem} {b c p t len : Nat} {cs pre : List Nat} {e e' : Extent}
  {es : List Extent} {l l' : Layout} {R : List Extent → List Extent → Prop}

theorem Shrunk.fits {size : Nat} (h : Shrunk e e') (he : e.Fits size) : e'.Fits size := by
  obtain ⟨hb, hl⟩ := h
  have hle := he.le
  have hst := he.start
  exact ⟨by omega, fun h0 => by have := hst (by omega); omega⟩

theorem Rewritten.attrs (h : Rewritten R cs fs fs') (b : Nat) :
    (fs'.nodeAt b).attrs = (fs.nodeAt b).attrs := by
  by_cases hb : b ∈ cs
  · obtain ⟨es, -, he⟩ := h.nodes b hb
    rw [he]
    exact Node.attrs_extents ..
  · rw [h.agree.nodeAt hb]

theorem Rewritten.extents (h : Rewritten R cs fs fs') (hc : c ∈ cs) :
    R (fs.nodeAt c).extents (fs'.nodeAt c).extents := by
  obtain ⟨es, hr, he⟩ := h.nodes c hc
  rw [he]
  exact hr

namespace Inv

/-- A file's extents grow into their last sectors only. -/
theorem fits_grown (h : Inv fs l) (hfile : (fs.nodeAt t).isDir = false) (hc : c ∈ l.chain t)
    (he : e ∈ (fs.nodeAt c).extents) (hg : Grown e e') : e'.Fits fs.disk.size := by
  obtain ⟨hb, hlo, hhi⟩ := hg
  have hfit := (h.object t (List.ne_nil_of_mem hc)).fits c hc e he
  by_cases h0 : e.length = 0
  · have hle := hfit.le
    exact ⟨by omega, fun hp => by omega⟩
  · have hlast : e.block + (e.length + 511) / 512 - 1 ∈ own fs l (.object t) := by
      rw [own_of_file hfile]
      apply List.mem_append_right
      refine mem_listing.mpr ⟨c, hc, List.mem_flatMap.mpr ⟨e, he, ?_⟩⟩
      rw [Extent.mem_span]
      omega
    have hin := h.inside (.object t) (by simp) _ hlast
    have hst := hfit.start (by omega)
    exact ⟨by omega, fun _ => by omega⟩

/-- The nodes of a file keep, shorten or fill up their extents. -/
theorem rewritten (h : Inv fs l) (ht : l.chain t ≠ []) (hfile : (fs.nodeAt t).isDir = false)
    (hrw : Rewritten R (l.chain t) fs fs')
    (hfits : ∀ c ∈ l.chain t, ∀ e ∈ (fs'.nodeAt c).extents, e.Fits fs.disk.size)
    (hsub : (listing fs' (l.chain t)).Sublist (listing fs (l.chain t))) : Inv fs' l :=
  h.rewriteFile l.held ht hfile hrw.agree (fun c _ => hrw.next c)
    ((Node.isDir_attrs (hrw.attrs t)).trans hfile) hfits
    (hsub.append (List.Sublist.refl _)).subperm

theorem nodeSetLen_spec (h : Inv fs l) (len : Nat) (ht : l.chain t ≠ [])
    (hfile : (fs.nodeAt t).isDir = false) :
    ∃ fs', nodeSetLen t len fs = .ok () fs' ∧ Inv fs' l ∧
      Rewritten (fun es es' => ∃ k, es' = (truncateExtents k es).2.1) (l.chain t) fs fs' ∧
      extentsOf fs' (l.chain t) = (truncateExtents len (extentsOf fs (l.chain t))).2.1 := by
  have ho := h.object t ht
  obtain ⟨fs', hrun, hrw, hes⟩ :=
    nodeSetLenAux_run len ho.chain (fun _ hc => h.within hc) ht (h.fuel t) (h.nodup_chain t)
  refine ⟨fs', hrun, h.rewritten ht hfile hrw ?_ ?_, hrw, hes⟩
  · intro c hc e he
    obtain ⟨k, hk⟩ := hrw.extents hc
    rw [hk] at he
    obtain ⟨x, hx, hs⟩ := forall₂_source (truncateExtents_shrunk _ k) he
    exact hs.fits (ho.fits c hc x hx)
  · rw [listing, hes]
    exact spans_shrunk (truncateExtents_shrunk _ len)

theorem lengths_lt (h : Inv fs l) (hc : c ∈ l.chain t) :
    ∀ e ∈ (fs.nodeAt c).extents, e.length + 511 < 2 ^ 64 := fun e he =>
  ((h.object t (List.ne_nil_of_mem hc)).fits c hc e he).length_lt h.base.size

/-- The first half of `node_ensure_len`: the extents are filled up, and what is still missing is
handed to the last node. -/
theorem fillUp (h : Inv fs l) (len : Nat) (hcs : l.chain t = pre ++ [c]) (hfile : (fs.nodeAt t).isDir = false) :
    ∃ fs', Inv fs' l ∧
      Rewritten (fun es es' => ∃ k, es' = (ensureExtents k es).2.1) (l.chain t) fs fs' ∧
      listing fs' (l.chain t) = listing fs (l.chain t) ∧
      extentsOf fs' (l.chain t) = (ensureExtents len (extentsOf fs (l.chain t))).2.1 ∧
      nodeEnsureLen t len fs =
        (if (ensureExtents len (extentsOf fs (l.chain t))).2.2 > 0 then
          growLast c (ensureExtents len (extentsOf fs (l.chain t))).2.2
        else pure ()) fs' := by
  have hne : l.chain t ≠ [] := by simp [hcs]
  have ho := h.object t hne
  have hch := ho.chain
  have hk := h.fuel t
  have hnd := h.nodup_chain t
  have hl : ∀ d ∈ l.chain t, ∀ e ∈ (fs.nodeAt d).extents, e.length + 511 < 2 ^ 64 :=
    fun d hd => h.lengths_lt hd
  have hw : ∀ d ∈ l.chain t, fs.Within d := fun _ hd => h.within hd
  rw [hcs] at hch hk hnd hl hw
  obtain ⟨fs', hrw, hes, hrun⟩ := nodeEnsureLenAux_run len hch hw (by simpa using hk) hnd hl
  rw [← hcs] at hrw hes hrun hl
  have hlist : listing fs' (l.chain t) = listing fs (l.chain t) := by
    rw [listing, hes]
    apply spans_grown
    apply ensureExtents_grown
    intro e he
    obtain ⟨d, hd, he⟩ := List.mem_flatMap.mp he
    exact hl d hd e he
  refine ⟨fs', h.rewritten hne hfile hrw ?_ ?_, hrw, hlist, hes, hrun⟩
  · intro d hd e he
    obtain ⟨k, hk⟩ := hrw.extents hd
    rw [hk] at he
    obtain ⟨x, hx, hg⟩ := forall₂_source (ensureExtents_grown (hl d hd) k) he
    exact h.fits_grown hfile hd hx hg
  · rw [hlist]

end Inv

/-- Where the fresh blocks went: into the last node, or into a new one behind it. -/
inductive Appended (fs : FileSystem) (pre : List Nat) (c nb rest : Nat) :
    FileSystem → List Nat → Prop
  | placed {fs' : FileSystem} {es : List Extent}
      (hin : insertExtent nb rest (fs.nodeAt c).extents = some es)
      (hpre : ∀ x ∈ pre, (fs'.nodeAt x).extents = (fs.nodeAt x).extents)
      (hc : (fs'.nodeAt c).extents = es) : Appended fs pre c nb rest fs' (pre ++ [c])
  | extended {fs' : FileSystem} {b : Nat}
      (hin : insertExtent nb rest (fs.nodeAt c).extents = none)
      (hold : ∀ x ∈ pre ++ [c], (fs'.nodeAt x).extents = (fs.nodeAt x).extents)
      (hb : (fs'.nodeAt b).extents = ⟨nb, rest⟩ :: List.replicate 14 Extent.default) :
      Appended fs pre c nb rest fs' (pre ++ [c] ++ [b])

/-- The blocks from `block` on are in hand, and then in the file of `t`, whose last node was `c`. -/
structure Filed (fs : FileSystem) (l : Layout) (t : Nat) (pre : List Nat) (c block length : Nat)
    (held' : List Nat) (fs' : FileSystem) (l' : Layout) : Prop where
  inv : Inv fs' l'
  held : l'.held = held'
  chain : ∀ p, p ≠ t → l'.chain p = l.chain p
  agree : Agree (fun x => x = 2 ∨ x ∈ own fs l .free ∨ x ∈ l.chain t) fs fs'
  nodes : Agree (fun x => x = 2 ∨ x ∈ l'.chain t) fs fs'
  room : insertExtent block length (fs.nodeAt c).extents ≠ none ∨ takeExtent 1 fs.freeNode.extents ≠ none
  attrs : (fs'.nodeAt t).attrs = (fs.nodeAt t).attrs
  owned : (List.range' block ((length + 511) / 512) ++ (own fs l .free ++ own fs l (.object t))).Perm
    (own fs' l' .free ++ own fs' l' (.object t))
  appended : Appended fs pre c block length fs' (l'.chain t)

namespace Inv

/-- The last node has room for the blocks. -/
theorem fileHere {block length : Nat} {held' : List Nat} (h : Inv fs l)
    (hcs : l.chain t = pre ++ [c]) (hfile : (fs.nodeAt t).isDir = false) (hl : 0 < length)
    (hh : l.held.Perm (List.range' block ((length + 511) / 512) ++ held'))
    (he : insertExtent block length (fs.nodeAt c).extents = some es) :
    Filed fs l t pre c block length held' (fs.setExtents c es) { l with held := held' } := by
  have hct : c ∈ l.chain t := by simp [hcs]
  obtain ⟨hv, hinv, hlist⟩ := h.placeFile hct hfile hl hh he
  have ha : Agree (· = c) fs (fs.setExtents c es) := Agree.setExtents hv rfl
  have hfn : (fs.setExtents c es).freeNode = fs.freeNode := by
    apply ha.freeNode
    rw [h.base.free]
    exact (h.chain_ne_two hct).symm
  have hpre : ∀ x ∈ pre, ((fs.setExtents c es).nodeAt x).extents = (fs.nodeAt x).extents := by
    intro x hx
    have hnd := h.nodup_chain t
    rw [hcs, List.nodup_append] at hnd
    rw [ha.nodeAt (hnd.2.2 x hx c (by simp))]
  refine ⟨hinv, rfl, fun _ _ => rfl, ?_, ?_, Or.inl (by rw [he]; exact Option.some_ne_none _),
    attrs_setExtents hv, ?_, ?_⟩
  · exact ha.mono fun x hx => Or.inr (Or.inr (hx ▸ hct))
  · exact ha.mono fun x hx => Or.inr (hx ▸ hct)
  · rw [own_free_congr (l := l) hfn, own_of_file ((isDir_setExtents hv).trans hfile),
      own_of_file hfile, List.perm_iff_count]
    intro a
    have hcount := hlist.count_eq a
    simp only [List.count_append] at hcount ⊢
    omega
  · rw [show ({ l with held := held' } : Layout).chain t = pre ++ [c] from hcs]
    exact .placed he hpre (by rw [nodeAt_setExtents hv, Function.update_self])

/-- A new node behind the last one has room for the blocks. -/
theorem fileBehind {block length : Nat} {held' : List Nat} (h : Inv fs l)
    (hcs : l.chain t = pre ++ [c]) (hfile : (fs.nodeAt t).isDir = false) (hl : 0 < length)
    (hh : l.held.Perm (List.range' block ((length + 511) / 512) ++ held'))
    (hfull : insertExtent block length (fs.nodeAt c).extents = none)
    (hb : takeExtent 1 fs.freeNode.extents = some (b, es)) :
    Filed fs l t pre c block length held'
      (((fs.setExtents 2 es).link c b).setExtents b
        (⟨block, length⟩ :: List.replicate 14 Extent.default))
      (l.set t (l.chain t ++ [b]) held') := by
  have hct : c ∈ l.chain t := by simp [hcs]
  have htt := h.head_mem (List.ne_nil_of_mem hct)
  have hx := h.extend hcs hb
  generalize (fs.setExtents 2 es).link c b = fs₂ at hx ⊢
  have hbt : b ∈ (l.set t (l.chain t ++ [b]) l.held).chain t := by simp
  have hattr : (fs₂.nodeAt t).attrs = (fs.nodeAt t).attrs := by
    obtain ⟨x, hx⟩ := hx.nodes t htt
    rw [hx]
    exact Node.attrs_next ..
  have hfile₂ : (fs₂.nodeAt t).isDir = false := (Node.isDir_attrs hattr).trans hfile
  have hins : insertExtent block length (fs₂.nodeAt b).extents =
      some (⟨block, length⟩ :: List.replicate 14 Extent.default) := by
    rw [hx.node]
    rfl
  obtain ⟨hv, hinv, hlist⟩ := hx.inv.placeFile hbt hfile₂ hl hh hins
  have ha : Agree (· = b) fs₂ (fs₂.setExtents b
      (⟨block, length⟩ :: List.replicate 14 Extent.default)) := Agree.setExtents hv rfl
  have hb2 : b ≠ 2 := hx.inv.chain_ne_two hbt
  have hbno : b ∉ l.chain t := by
    intro hbl
    cases h.exclusive.disjoint _ _ b hx.free (mem_own_of_chain hbl)
  have hfn : (fs₂.setExtents b (⟨block, length⟩ :: List.replicate 14 Extent.default)).freeNode =
      fs₂.freeNode := by
    apply ha.freeNode
    rw [hx.inv.base.free]
    exact hb2.symm
  have hag : Agree (fun x => x = 2 ∨ x ∈ own fs l .free ∨ x ∈ l.chain t) fs
      (fs₂.setExtents b (⟨block, length⟩ :: List.replicate 14 Extent.default)) := by
    refine Agree.trans (hx.agree.mono ?_) (ha.mono ?_)
    · rintro x (rfl | rfl | rfl)
      exacts [Or.inl rfl, Or.inr (Or.inr hct), Or.inr (Or.inl hx.free)]
    · rintro x rfl
      exact Or.inr (Or.inl hx.free)
  have hnodes : Agree (fun x => x = 2 ∨ x ∈ l.chain t ++ [b]) fs
      (fs₂.setExtents b (⟨block, length⟩ :: List.replicate 14 Extent.default)) := by
    refine Agree.trans (hx.agree.mono ?_) (ha.mono fun x hx => Or.inr (by simp [hx]))
    rintro x (rfl | rfl | rfl)
    exacts [Or.inl rfl, Or.inr (by simp [hct]), Or.inr (by simp)]
  rw [Layout.set_chain_self, hx.listing] at hlist
  generalize hfs₃ : fs₂.setExtents b (⟨block, length⟩ :: List.replicate 14 Extent.default) = fs₃ at *
  refine ⟨hinv, rfl, ?_, hag, ?_, Or.inr (by rw [hb]; exact Option.some_ne_none _), ?_, ?_, ?_⟩
  · exact fun p hp => Layout.set_chain_ne hp
  · rw [Layout.set_chain_self]
    exact hnodes
  · rw [← hfs₃, attrs_setExtents hv, hattr]
  · have hfile₃ : (fs₃.nodeAt t).isDir = false := by
      rw [← hfs₃, isDir_setExtents hv, hfile₂]
    rw [own_of_file hfile₃, own_of_file hfile, Layout.set_chain_self, own_free, own_free, hfn,
      hx.freeNode, List.perm_iff_count]
    intro a
    have hcount := hlist.count_eq a
    have hfree := (spans_takeExtent hb).count_eq a
    simp only [List.count_append, List.range'_one] at hcount hfree ⊢
    omega
  · rw [Layout.set_chain_self, hcs]
    refine .extended hfull ?_ ?_
    · intro x hxm
      rw [← hcs] at hxm
      obtain ⟨y, hy⟩ := hx.nodes x hxm
      rw [ha.nodeAt (fun he => hbno (he ▸ hxm)), hy]
    · rw [← hfs₃, nodeAt_setExtents hv, Function.update_self]

/-- Blocks in hand are listed in the last node of a file or in a new one behind it, unless no block
is free for that. -/
theorem insertFile {block length : Nat} {held' : List Nat} (h : Inv fs l)
    (hcs : l.chain t = pre ++ [c]) (hfile : (fs.nodeAt t).isDir = false) (hl : 0 < length)
    (hh : l.held.Perm (List.range' block ((length + 511) / 512) ++ held')) :
    (∃ fs' l', insertBlocks block length c fs = .ok () fs' ∧
      Filed fs l t pre c block length held' fs' l') ∨
    insertBlocks block length c fs = .error (.errno .ENOSPC) fs ∧
      insertExtent block length (fs.nodeAt c).extents = none ∧
      takeExtent 1 fs.freeNode.extents = none := by
  have hct : c ∈ l.chain t := by simp [hcs]
  have hch := (h.object t (List.ne_nil_of_mem hct)).chain
  rw [hcs] at hch
  have hcases := h.insertBlocks_cases block length hcs (by simp) hch.suffix
  generalize insertBlocks block length c fs = r at hcases
  cases hcases with
  | @placed d es hd he =>
    obtain rfl : d = c := by simpa using hd
    exact Or.inl ⟨_, _, rfl, h.fileHere hcs hfile hl hh he⟩
  | @extended pre' d b es hcs' hfull hb =>
    obtain ⟨rfl, rfl⟩ : pre' = [] ∧ d = c := by
      cases pre' with
      | nil => exact ⟨rfl, by simpa using hcs'.symm⟩
      | cons x xs => simp at hcs'
    rw [h.base.free]
    exact Or.inl ⟨_, _, rfl, h.fileBehind hcs hfile hl hh (hfull d (by simp)) hb⟩
  | full hfull hb => exact Or.inr ⟨rfl, hfull c (by simp), hb⟩

/-- Fresh blocks for the missing length are taken and listed, or lost for want of a block for the
node that would list them. -/
theorem growLast_spec {rest : Nat} (h : Inv fs l) (hcs : l.chain t = pre ++ [c])
    (hfile : (fs.nodeAt t).isDir = false) (hr : 0 < rest) (hw : rest + 511 < 2 ^ 64) :
    takeExtent ((rest + 511) / 512) fs.freeNode.extents = none ∧
        growLast c rest fs = .error (.errno .ENOSPC) fs ∨
      ∃ nb es, takeExtent ((rest + 511) / 512) fs.freeNode.extents = some (nb, es) ∧
        ((insertExtent nb rest (fs.nodeAt c).extents = none ∧ takeExtent 1 es = none ∧
            ∃ fs', growLast c rest fs = .error (.errno .ENOSPC) fs' ∧ Inv fs' l ∧
              Agree (· = 2) fs fs') ∨
          ∃ fs' l', growLast c rest fs = .ok () fs' ∧ Touches fs l t fs' l' ∧
            Agree (fun x => x = 2 ∨ x ∈ own fs l .free ∨ x ∈ l.chain t) fs fs' ∧
            Agree (fun x => x = 2 ∨ x ∈ l'.chain t) fs fs' ∧
            (insertExtent nb rest (fs.nodeAt c).extents ≠ none ∨ takeExtent 1 es ≠ none) ∧
            (own fs l .free ++ own fs l (.object t)).Perm
              (own fs' l' .free ++ own fs' l' (.object t)) ∧
            Appended fs pre c nb rest fs' (l'.chain t)) := by
  cases hnb : takeExtent ((rest + 511) / 512) fs.freeNode.extents with
  | none =>
    rw [← wrap64_of_lt hw] at hnb
    exact Or.inl ⟨rfl, bind_error (allocate_none h.within_free hnb)⟩
  | some r =>
    right
    obtain ⟨nb, es⟩ := r
    refine ⟨nb, es, rfl, ?_⟩
    have hrun : growLast c rest fs = insertBlocks nb rest c (fs.setExtents 2 es) := by
      have hnb' := hnb
      rw [← wrap64_of_lt hw] at hnb'
      rw [growLast, bind_ok (allocate_some h.within_free hnb'), h.base.free]
    obtain ⟨hv, hinv, hfree⟩ := h.take hnb
    have hct : c ∈ l.chain t := by simp [hcs]
    have htt := h.head_mem (List.ne_nil_of_mem hct)
    have ha : Agree (· = 2) fs (fs.setExtents 2 es) := Agree.setExtents hv rfl
    have hn : ∀ x ∈ l.chain t, (fs.setExtents 2 es).nodeAt x = fs.nodeAt x :=
      fun x hx => ha.nodeAt (h.chain_ne_two hx)
    have hfn : (fs.setExtents 2 es).freeNode.extents = es := by
      rw [hinv.base.freeNode, nodeAt_setExtents hv, Function.update_self]
    have hobj := (h.own_setFree ⟨l.chain, List.range' nb ((rest + 511) / 512) ++ l.held⟩
      (p := t) hv rfl).1
    have hperm : (own fs l .free).Perm (List.range' nb ((rest + 511) / 512) ++ spans es) :=
      (spans_takeExtent hnb).symm
    rw [hrun]
    generalize fs.setExtents 2 es = fs₁ at *
    rcases hinv.insertFile (t := t) hcs (by rw [hn t htt]; exact hfile) hr (List.Perm.refl _) with
      ⟨fs', l', hok, hinv', hheld, hchain, hag, hnodes, hspace, hattr, hcons, happ⟩ |
      ⟨herr, hin, hnone⟩
    · right
      have hfine : Agree (fun x => x = 2 ∨ x ∈ own fs l .free ∨ x ∈ l.chain t) fs fs' := by
        refine (ha.mono fun x hx => Or.inl hx).trans (hag.mono ?_)
        rintro x (rfl | hx | hx)
        · exact Or.inl rfl
        · rw [own_free, hfn] at hx
          exact Or.inr (Or.inl (hperm.mem_iff.mpr (List.mem_append_right _ hx)))
        · exact Or.inr (Or.inr hx)
      rw [hn c hct, hfn] at hspace
      refine ⟨fs', l', hok, ⟨hinv', hheld, hchain, ?_, by rw [hattr, hn t htt]⟩, hfine,
        (ha.mono fun x hx => Or.inl hx).trans hnodes, hspace, ?_, ?_⟩
      · refine hfine.mono ?_
        rintro x (rfl | hx | hx)
        · exact Or.inl rfl
        · exact Or.inr (Or.inl hx)
        · exact Or.inr (Or.inr (Or.inr (mem_own_of_chain hx)))
      · rw [hobj, own_free, hfn, ← List.append_assoc] at hcons
        exact (hperm.append_right _).trans hcons
      · generalize l'.chain t = cs' at happ
        cases happ with
        | placed hin hpre hc =>
          rw [hn c hct] at hin
          refine .placed hin (fun x hx => ?_) hc
          rw [hpre x hx, hn x (by simp [hcs, hx])]
        | extended hin hold hb =>
          rw [hn c hct] at hin
          refine .extended hin (fun x hx => ?_) hb
          rw [hold x hx, hn x (by rw [hcs]; exact hx)]
    · left
      rw [hn c hct] at hin
      rw [hfn] at hnone
      exact ⟨hin, hnone, fs₁, herr, hinv.forget (List.sublist_append_right _ _).subperm, ha⟩

end Inv

end Origel.RedoxFs
