import Origel.RedoxFs.Runs

/-! Everything a call can do to a well laid out file system. -/
namespace Origel.RedoxFs

open Origel.Lib FileSystem

variable {fs fs' fs'' : FileSystem} {b c d p t mode offset len : Nat} {l l' : Layout} {op : Op}
  {buf : List UInt8} {name : String} {err : Option Errno}

section Returns

variable {α : Type} {x : FsM α}

theorem Returns.of_ok {a : α} (h : Returns x fs err fs') (hx : x fs = .ok a fs'') :
    err = none ∧ fs' = fs'' := by
  cases h with
  | ok h =>
    rw [hx] at h
    cases h
    exact ⟨rfl, rfl⟩
  | error h =>
    rw [hx] at h
    cases h

theorem Returns.of_error {e : Errno} (h : Returns x fs err fs')
    (hx : x fs = .error (.errno e) fs'') : err = some e ∧ fs' = fs'' := by
  cases h with
  | ok h =>
    rw [hx] at h
    cases h
  | error h =>
    rw [hx] at h
    cases h
    exact ⟨rfl, rfl⟩

theorem Returns.not_crash (h : Returns x fs err fs') (hx : x fs = .error .crash fs'') : False := by
  cases h with
  | ok h =>
    rw [hx] at h
    cases h
  | error h =>
    rw [hx] at h
    cases h

end Returns

/-- The ways a call can end. -/
inductive Outcome (fs : FileSystem) (l : Layout) :
    Op → Option Errno → FileSystem → Layout → Prop
  | refused {op : Op} (e : Errno) : Outcome fs l op (some e) fs l
  | created {mode : Nat} {name : String} {d b : Nat} {fs' : FileSystem} {l' : Layout}
      (hname : lookup fs name (listing fs (l.chain d)) = none)
      (h : Created fs l d b (Node.new mode name d) fs' l') :
      Outcome fs l (.createNode mode name d) none fs' l'
  | unnamed {mode : Nat} {name : String} {d : Nat} {fs' : FileSystem}
      (hname : lookup fs name (listing fs (l.chain d)) = none)
      (hc : CannotName fs (l.chain d)) (hinv : Inv fs' l)
      (ha : Agree (fun x => x = 2 ∨ x ∈ own fs l .free) fs fs') :
      Outcome fs l (.createNode mode name d) (some .ENOSPC) fs' l
  | removed {mode : Nat} {name : String} {d b : Nat} {fs' : FileSystem} {l' : Layout}
      (hb : Removes fs mode name d b) (hmem : b ∈ entries fs l d) (hbd : b ≠ d)
      (h : Removed fs l d b fs' l') : Outcome fs l (.removeNode mode name d) none fs' l'
  | unsplit {mode : Nat} {name : String} {d b : Nat} {fs' : FileSystem}
      (hb : Removes fs mode name d b) (hc : CannotSplit fs (l.chain d) b)
      (h : Unlisted fs l d fs') :
      Outcome fs l (.removeNode mode name d) (some .ENOSPC) fs' l
  | wrote {t offset : Nat} {buf : List UInt8} {fs' : FileSystem} {l' : Layout}
      (h : Wrote fs l t (wrap64 (offset + buf.length)) fs' l') :
      Outcome fs l (.writeNode t offset buf) none fs' l'
  | filled {t offset : Nat} {buf : List UInt8} {fs' : FileSystem}
      (h : FilledOnly fs l t (wrap64 (offset + buf.length)) fs') :
      Outcome fs l (.writeNode t offset buf) (some .ENOSPC) fs' l
  | cut {t len : Nat} {fs' : FileSystem} (hinv : Inv fs' l)
      (hrw : Rewritten (fun es es' => ∃ k, es' = (truncateExtents k es).2.1) (l.chain t) fs fs')
      (hes : extentsOf fs' (l.chain t) = (truncateExtents len (extentsOf fs (l.chain t))).2.1) :
      Outcome fs l (.nodeSetLen t len) none fs' l
  | attr {t perm uid gid : Nat} {fs' : FileSystem} (ht : t ∈ l.chain t) (hinv : Inv fs' l)
      (ha : Agree (fun x => x = t) fs fs')
      (hn : fs'.nodeAt t = (fs.nodeAt t).setAttr perm uid gid) :
      Outcome fs l (.setAttr t perm uid gid) none fs' l

namespace Inv

theorem removes_mem (h : Inv fs l) (hd : Reach fs d) (hdir : (fs.nodeAt d).isDir = true)
    (hb : Removes fs mode name d b) :
    lookup fs name (listing fs (l.chain d)) = some b ∧ b ∈ listing fs (l.chain d) ∧ b ≠ d := by
  obtain ⟨hl, -, hempty⟩ := hb
  have hd' := h.reach hd
  have hmem : b ∈ children fs (chainOf fs d) := List.mem_of_find?_eq_some hl
  have hbd : b ≠ d := by
    rintro rfl
    rw [hempty hdir] at hmem
    cases hmem
  rw [h.chainOf_eq hd', h.children_eq hdir] at hl hmem
  exact ⟨hl, hmem, hbd⟩

theorem outcome_createNode (h : Inv fs l) (hd : l.chain d ≠ []) (hdir : (fs.nodeAt d).isDir = true)
    (hm : mode < 2 ^ 16) (hr : Returns (Op.createNode mode name d).run fs err fs') :
    ∃ l', Outcome fs l (.createNode mode name d) err fs' l' := by
  cases hlook : lookup fs name (listing fs (l.chain d)) with
  | some b =>
    obtain ⟨rfl, rfl⟩ := hr.of_error (bind_error (h.createNode_exists hd hdir hlook))
    exact ⟨l, .refused _⟩
  | none =>
    have hrun := h.createNode_absent mode hd hdir hlook
    rcases h.makeNode_spec name hd hdir hm with ⟨-, herr⟩ | ⟨hc, fs₁, herr, hinv, ha⟩ |
      ⟨b, fs₁, l', hok, hcreated⟩
    · obtain ⟨rfl, rfl⟩ := hr.of_error (bind_error (hrun.trans herr))
      exact ⟨l, .refused _⟩
    · obtain ⟨rfl, rfl⟩ := hr.of_error (bind_error (hrun.trans herr))
      exact ⟨l, .unnamed hlook hc hinv ha⟩
    · obtain ⟨rfl, rfl⟩ := hr.of_ok (bind_ok (hrun.trans hok))
      exact ⟨l', .created hlook hcreated⟩

theorem outcome_removeNode (h : Inv fs l) (hd : Reach fs d) (hdir : (fs.nodeAt d).isDir = true)
    (hsafe : ∀ b, Removes fs mode name d b → Room fs (chainOf fs d) b)
    (hr : Returns (Op.removeNode mode name d).run fs err fs') :
    ∃ l', Outcome fs l (.removeNode mode name d) err fs' l' := by
  have hd' := h.reach hd
  cases hlook : lookup fs name (listing fs (l.chain d)) with
  | none =>
    obtain ⟨rfl, rfl⟩ := hr.of_error (h.removeNode_absent hd' hdir hlook)
    exact ⟨l, .refused _⟩
  | some b =>
    have hrun : (Op.removeNode mode name d).run fs = _ := h.removeNode_found hd' hdir hlook
    have hbl : b ∈ listing fs (l.chain d) := List.mem_of_find?_eq_some hlook
    have hbh : l.chain b ≠ [] := by
      rw [← entries_of_dir hdir] at hbl
      exact (h.entryHead d b hbl).1
    by_cases hmode : (fs.nodeAt b).mode &&& Node.MODE_TYPE = mode
    · rw [if_pos hmode] at hrun
      by_cases hne : (fs.nodeAt b).isDir = true ∧ listing fs (l.chain b) ≠ []
      · rw [if_pos hne] at hrun
        obtain ⟨rfl, rfl⟩ := hr.of_error hrun
        exact ⟨l, .refused _⟩
      · rw [if_neg hne] at hrun
        have hrem : Removes fs mode name d b := by
          refine ⟨?_, hmode, fun hbdir => ?_⟩
          · rw [h.chainOf_eq hd', h.children_eq hdir, hlook]
          · rw [h.chainOf_eq hbh, h.children_eq hbdir]
            by_contra hl
            exact hne ⟨hbdir, hl⟩
        have hroom := hsafe b hrem
        rw [h.chainOf_eq hd'] at hroom
        have hbd := (h.removes_mem hd hdir hrem).2.2
        rcases h.eraseNode_spec hd' hdir hbl hbd hroom with
          ⟨fs₁, l', hok, hrem'⟩ | ⟨hc, fs₁, herr, hun⟩
        · obtain ⟨rfl, rfl⟩ := hr.of_ok (hrun.trans hok)
          rw [← entries_of_dir hdir] at hbl
          exact ⟨l', .removed hrem hbl hbd hrem'⟩
        · obtain ⟨rfl, rfl⟩ := hr.of_error (hrun.trans herr)
          exact ⟨l, .unsplit hrem hc hun⟩
    · rw [if_neg hmode] at hrun
      by_cases hbdir : (fs.nodeAt b).isDir = true
      · rw [if_pos hbdir] at hrun
        obtain ⟨rfl, rfl⟩ := hr.of_error hrun
        exact ⟨l, .refused _⟩
      · rw [if_neg hbdir] at hrun
        obtain ⟨rfl, rfl⟩ := hr.of_error hrun
        exact ⟨l, .refused _⟩

theorem outcome_writeNode (h : Inv fs l) (ht : l.chain t ≠ []) (hfile : (fs.nodeAt t).isDir = false)
    (hw : missing fs (l.chain t) (wrap64 (offset + buf.length)) + 511 < 2 ^ 64)
    (hr : Returns (Op.writeNode t offset buf).run fs err fs') :
    ∃ l', Outcome fs l (.writeNode t offset buf) err fs' l' := by
  rcases h.writeNode_spec ht hfile hw with ⟨n, fs₁, l', hok, hwrote⟩ | ⟨fs₁, herr, hfill⟩ |
    ⟨fs₁, hcrash⟩
  · obtain ⟨rfl, rfl⟩ := hr.of_ok (bind_ok hok)
    exact ⟨l', .wrote hwrote⟩
  · obtain ⟨rfl, rfl⟩ := hr.of_error (bind_error herr)
    exact ⟨l, .filled hfill⟩
  · exact (hr.not_crash (bind_error hcrash)).elim

theorem outcome_setAttr {perm uid gid : Nat} (h : Inv fs l) (ht : l.chain t ≠ [])
    (hu : uid < 2 ^ 32) (hg : gid < 2 ^ 32)
    (hr : Returns (Op.setAttr t perm uid gid).run fs err fs') :
    ∃ l', Outcome fs l (.setAttr t perm uid gid) err fs' l' := by
  have hrun : (Op.setAttr t perm uid gid).run fs =
      .ok () (fs.writeNodeAt t ((fs.nodeAt t).setAttr perm uid gid)) :=
    Op.setAttr_run (h.within_head ht)
  have hv : ((fs.nodeAt t).setAttr perm uid gid).Valid :=
    Node.valid_setAttr (nodeAt_valid fs t) hu hg
  have hnext : ((fs.nodeAt t).setAttr perm uid gid).next = (fs.nodeAt t).next := by rw [Node.setAttr]
  have hext : ((fs.nodeAt t).setAttr perm uid gid).extents = (fs.nodeAt t).extents := by
    rw [Node.setAttr]
  obtain ⟨rfl, rfl⟩ := hr.of_ok hrun
  refine ⟨l, .attr (h.head_mem ht) (h.setNode ht hv hnext hext (Node.isDir_setAttr ..)) ?_ ?_⟩
  · exact Agree.writeNodeAt hv rfl
  · rw [nodeAt_writeNodeAt hv, Function.update_self]

/-- A call that keeps the free node and the lengths in bounds ends in one of these ways. -/
theorem outcome (h : Inv fs l) (hl : op.Legal fs) (hs : Safe fs op) (hr : Returns op.run fs err fs') :
    ∃ l', Outcome fs l op err fs' l' := by
  cases op with
  | createNode mode name d => exact h.outcome_createNode (h.reach hl.1) hl.2.1 hl.2.2 hr
  | removeNode mode name d => exact h.outcome_removeNode hl.1 hl.2 hs hr
  | writeNode t offset buf =>
    have ht := h.reach hl.1
    rw [Safe, h.chainOf_eq ht] at hs
    exact h.outcome_writeNode ht hl.2.1 hs hr
  | nodeSetLen t len =>
    obtain ⟨fs₁, hok, hinv, hrw, hes⟩ := h.nodeSetLen_spec len (h.reach hl.1) hl.2.1
    obtain ⟨rfl, rfl⟩ := hr.of_ok hok
    exact ⟨l, .cut hinv hrw hes⟩
  | setAttr t perm uid gid => exact h.outcome_setAttr (h.reach hl.1) hl.2.1 hl.2.2 hr

end Inv

theorem Outcome.inv (h : Outcome fs l op err fs' l') (hinv : Inv fs l) :
    Inv fs' l' ∧ l'.held = l.held := by
  cases h with
  | refused => exact ⟨hinv, rfl⟩
  | created _ h => exact ⟨h.inv, h.held⟩
  | unnamed _ _ hinv' => exact ⟨hinv', rfl⟩
  | removed _ _ _ h => exact ⟨h.inv, h.held⟩
  | unsplit _ _ h => exact ⟨h.inv, rfl⟩
  | wrote h => exact ⟨h.touches.inv, h.touches.held⟩
  | filled h => exact ⟨h.inv, rfl⟩
  | cut hinv' => exact ⟨hinv', rfl⟩
  | attr _ hinv' => exact ⟨hinv', rfl⟩

/-- The directory or file a call is about. -/
def Op.target : Op → Nat
  | .createNode _ _ d => d
  | .removeNode _ _ d => d
  | .writeNode t _ _ => t
  | .nodeSetLen t _ => t
  | .setAttr t _ _ _ => t

/-- A call leaves the blocks of every other object alone. -/
theorem Outcome.other (h : Outcome fs l op err fs' l') (hinv : Inv fs l) (hp : p ≠ op.target)
    (hl : l.chain p ≠ []) (hl' : l'.chain p ≠ []) :
    l'.chain p = l.chain p ∧ ∃ T, Agree T fs fs' ∧ ∀ x ∈ own fs l (.object p), ¬T x := by
  have hdom : ∀ x ∈ own fs l (.object p), ¬Domain fs l op.target x :=
    fun x hx => hinv.domain_disjoint hp hx
  have hfree : ∀ x ∈ own fs l (.object p), ¬(x = 2 ∨ x ∈ own fs l .free) :=
    fun x hx hm => hdom x hx (hm.imp_right Or.inl)
  have hnode : ∀ x ∈ own fs l (.object p), x ∉ l.chain op.target :=
    fun x hx hm => hdom x hx (Or.inr (Or.inr (Or.inr (mem_own_of_chain hm))))
  cases h with
  | refused => exact ⟨rfl, _, Agree.refl (fun _ => False) fs, fun _ _ hf => hf⟩
  | @created mode name d b _ _ _ h =>
    have hpb : p ≠ b := by
      rintro rfl
      exact hl h.fresh
    exact ⟨h.chain p hpb hp, _, h.agree, hdom⟩
  | unnamed _ _ _ ha => exact ⟨rfl, _, ha, hfree⟩
  | @removed mode name d b _ _ _ hmem _ h =>
    have hpb : p ≠ b := by
      rintro rfl
      exact hl' h.self
    refine ⟨h.chain p hpb hp, _, h.agree, fun x hx hT => ?_⟩
    rcases hT with hT | rfl
    · exact hdom x hx hT
    · have hxh := hinv.head_mem (hinv.entryHead d x hmem).1
      cases hinv.exclusive.disjoint _ _ x hx (mem_own_of_chain hxh)
      exact hpb rfl
  | unsplit _ _ h => exact ⟨rfl, _, h.agree, hnode⟩
  | wrote h => exact ⟨h.touches.chain p hp, _, h.touches.agree, hdom⟩
  | filled h =>
    refine ⟨rfl, _, h.agree, fun x hx hm => ?_⟩
    rcases hm with h2 | hm
    · exact hfree x hx (Or.inl h2)
    · exact hnode x hx hm
  | cut _ hrw => exact ⟨rfl, _, hrw.agree, hnode⟩
  | attr ht _ ha _ =>
    refine ⟨rfl, _, ha, ?_⟩
    rintro x hx rfl
    exact hnode x hx ht

theorem Inv.target (h : Inv fs l) (hl : op.Legal fs) : l.chain op.target ≠ [] := by
  cases op with
  | createNode => exact h.reach hl.1
  | removeNode => exact h.reach hl.1
  | writeNode => exact h.reach hl.1
  | nodeSetLen => exact h.reach hl.1
  | setAttr => exact h.reach hl.1

/-- The only new object is the one created. -/
theorem Outcome.new_head (h : Outcome fs l op err fs' l') (ht : l.chain op.target ≠ [])
    (hp : l.chain p = []) (hp' : l'.chain p ≠ []) :
    l'.chain p = [p] ∧ (fs'.nodeAt p).extents = List.replicate 15 Extent.default := by
  cases h with
  | refused => exact (hp' hp).elim
  | @created mode name d b _ _ _ h =>
    by_cases hpb : p = b
    · subst hpb
      refine ⟨h.self, ?_⟩
      rw [h.node]
      rfl
    · have hpd : p ≠ d := fun hpd => ht (hpd ▸ hp)
      rw [h.chain p hpb hpd] at hp'
      exact (hp' hp).elim
  | unnamed => exact (hp' hp).elim
  | @removed mode name d b _ _ _ _ _ h =>
    have hpb : p ≠ b := by
      rintro rfl
      exact hp' h.self
    have hpd : p ≠ d := fun hpd => ht (hpd ▸ hp)
    rw [h.chain p hpb hpd] at hp'
    exact (hp' hp).elim
  | unsplit => exact (hp' hp).elim
  | @wrote t offset buf _ _ h =>
    have hpt : p ≠ t := fun hpt => ht (hpt ▸ hp)
    rw [h.touches.chain p hpt] at hp'
    exact (hp' hp).elim
  | filled => exact (hp' hp).elim
  | cut => exact (hp' hp).elim
  | attr => exact (hp' hp).elim

theorem Outcome.other_own (h : Outcome fs l op err fs' l') (hinv : Inv fs l) (hp : p ≠ op.target)
    (hl : l.chain p ≠ []) (hl' : l'.chain p ≠ []) :
    fs'.nodeAt p = fs.nodeAt p ∧ own fs' l' (.object p) = own fs l (.object p) ∧
      entries fs' l' p = entries fs l p := by
  obtain ⟨hchain, T, ha, hT⟩ := h.other hinv hp hl hl'
  have hn : ∀ c ∈ l.chain p, fs'.nodeAt c = fs.nodeAt c :=
    fun c hc => ha.nodeAt (hT c (mem_own_of_chain hc))
  exact ⟨hn p (hinv.head_mem hl), hinv.own_object _ hchain hn⟩

/-- A call leaves the attributes of a node alone, or sets those it is to set. -/
theorem Outcome.node_cases (h : Outcome fs l op err fs' l') (hinv : Inv fs l) (hl : l.chain p ≠ [])
    (hl' : l'.chain p ≠ []) : (fs'.nodeAt p).attrs = (fs.nodeAt p).attrs ∨
      ∃ perm uid gid, op = .setAttr p perm uid gid ∧
        fs'.nodeAt p = (fs.nodeAt p).setAttr perm uid gid := by
  by_cases hp : p = op.target
  · subst hp
    have hmem := hinv.head_mem hl
    cases h with
    | refused => exact Or.inl rfl
    | created _ h => exact Or.inl h.attrs
    | unnamed _ _ _ ha =>
      left
      rw [ha.nodeAt]
      rintro (h2 | hfree)
      · exact hinv.chain_ne_two hmem h2
      · cases hinv.exclusive.disjoint _ _ _ hfree (mem_own_of_chain hmem)
    | removed _ _ _ h => exact Or.inl h.attrs
    | unsplit _ _ h => exact Or.inl h.attrs
    | wrote h => exact Or.inl h.touches.attrs
    | filled h => exact Or.inl h.attrs
    | cut _ hrw => exact Or.inl (hrw.attrs _)
    | attr _ _ _ hn => exact Or.inr ⟨_, _, _, rfl, hn⟩
  · rw [(h.other_own hinv hp hl hl').1]
    exact Or.inl rfl

/-- No call turns a file into a directory or back. -/
theorem Outcome.isDir (h : Outcome fs l op err fs' l') (hinv : Inv fs l) (hl : l.chain p ≠ [])
    (hl' : l'.chain p ≠ []) : (fs'.nodeAt p).isDir = (fs.nodeAt p).isDir := by
  rcases h.node_cases hinv hl hl' with hattrs | ⟨perm, uid, gid, -, hn⟩
  · exact Node.isDir_attrs hattrs
  · rw [hn]
    exact Node.isDir_setAttr ..

/-- No call renames. -/
theorem Outcome.nameStr (h : Outcome fs l op err fs' l') (hinv : Inv fs l) (hl : l.chain p ≠ [])
    (hl' : l'.chain p ≠ []) : (fs'.nodeAt p).nameStr = (fs.nodeAt p).nameStr := by
  rcases h.node_cases hinv hl hl' with hattrs | ⟨perm, uid, gid, -, hn⟩
  · exact Node.nameStr_attrs hattrs
  · rw [hn]
    rfl

theorem Outcome.other_content (h : Outcome fs l op err fs' l') (hinv : Inv fs l)
    (hp : p ≠ op.target) (hl : l.chain p ≠ []) (hl' : l'.chain p ≠ [])
    (hfile : (fs.nodeAt p).isDir = false) :
    content fs' (l'.chain p) = content fs (l.chain p) ∧
      (Tidy fs (l.chain p) → Tidy fs' (l'.chain p)) := by
  obtain ⟨hchain, T, ha, hT⟩ := h.other hinv hp hl hl'
  rw [hchain]
  exact content_of_own hinv hfile ha hT

/-- Safe runs stay well laid out. -/
theorem Reachable.inv (h : Reachable Safe fs) : ∃ l, Inv fs l ∧ l.held = [] := by
  apply h.invariant
  · intro disk fs hsize hc
    exact ⟨freshLayout, create_inv hsize hc, rfl⟩
  · intro fs op fs' err hl hs hr ih
    obtain ⟨l, hinv, hheld⟩ := ih
    obtain ⟨l', hout⟩ := hinv.outcome hl hs hr
    obtain ⟨hinv', hheld'⟩ := hout.inv hinv
    exact ⟨l', hinv', hheld'.trans hheld⟩

end Origel.RedoxFs
