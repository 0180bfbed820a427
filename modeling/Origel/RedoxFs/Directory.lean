import Origel.RedoxFs.Moves

/-! What the directory operations do to a well laid out file system. -/
namespace Origel.RedoxFs

open Origel.Lib FileSystem

variable {fs fs' : FileSystem} {b c d p t block length : Nat} {cs pre : List Nat}
  {es : List Extent} {l l' : Layout} {name : String}

/-- The blocks an operation on the object `t` may write. -/
def Domain (fs : FileSystem) (l : Layout) (t x : Nat) : Prop :=
  x = 2 ∨ x ∈ own fs l .free ∨ x ∈ own fs l .held ∨ x ∈ own fs l (.object t)

/-- The free list after blocks were inserted along `cs`: a node may have been taken for them. -/
def freeAfter (fs : FileSystem) (block length : Nat) (cs : List Nat) : List Extent :=
  if ∃ c ∈ cs, insertExtent block length (fs.nodeAt c).extents ≠ none then fs.freeNode.extents
  else match takeExtent 1 fs.freeNode.extents with
    | some r => r.2
    | none => fs.freeNode.extents

/-- Only `t`, the free list and the blocks in hand may change, and no block is lost. -/
structure Touches (fs : FileSystem) (l : Layout) (t : Nat) (fs' : FileSystem) (l' : Layout) :
    Prop where
  inv : Inv fs' l'
  held : l'.held = l.held
  chain : ∀ p, p ≠ t → l'.chain p = l.chain p
  agree : Agree (Domain fs l t) fs fs'
  attrs : (fs'.nodeAt t).attrs = (fs.nodeAt t).attrs

namespace Inv

theorem domain_disjoint (h : Inv fs l) (hp : p ≠ t) (hb : b ∈ own fs l (.object p)) :
    ¬Domain fs l t b := by
  have hne : ∀ o, b ∈ own fs l o → o = .object p :=
    fun o ho => h.exclusive.disjoint _ _ b ho hb
  rintro (rfl | hf | hh | ho)
  · cases hne .reserved (by simp [own])
  · cases hne _ hf
  · cases hne _ hh
  · have := hne _ ho
    simp only [Owner.object.injEq] at this
    exact hp this.symm

/-- The children of a directory are the blocks it lists. -/
theorem children_eq (h : Inv fs l) (hdir : (fs.nodeAt d).isDir = true) :
    children fs (l.chain d) = listing fs (l.chain d) := by
  by_cases hne : l.chain d = []
  · rw [hne]
    rfl
  have ho := h.object d hne
  have hc : ∀ c ∈ l.chain d, childBlocks (fs.nodeAt c) = spans (fs.nodeAt c).extents := by
    intro c hc
    apply childBlocks_eq
    intro e he
    exact ⟨ho.aligned hdir c hc e he, (ho.fits c hc e he).plain h.base.size⟩
  rw [children, List.flatMap_congr hc, listing, extentsOf, spans, List.flatMap_assoc]
  rfl

theorem findNode_eq (h : Inv fs l) (name : String) (hd : l.chain d ≠ []) (hdir : (fs.nodeAt d).isDir = true) :
    findNode name d fs = match lookup fs name (listing fs (l.chain d)) with
      | some b => .ok (b, fs.nodeAt b) fs
      | none => .error (.errno .ENOENT) fs := by
  rw [← h.children_eq hdir]
  exact findNode_run (h.object d hd).chain (h.near d) (h.fuel d)

theorem childNodes_eq (h : Inv fs l) (hd : l.chain d ≠ []) (hdir : (fs.nodeAt d).isDir = true) :
    childNodes d fs = .ok ((listing fs (l.chain d)).map fun b => (b, fs.nodeAt b)) fs := by
  rw [← h.children_eq hdir]
  exact childNodes_run (h.object d hd).chain (h.near d) (h.fuel d)

theorem insertBlocks_cases (h : Inv fs l) (block length : Nat) (hcs : l.chain t = pre ++ cs) (hne : cs ≠ [])
    (hp : Chain fs.nodeAt p cs) : Inserted fs block length cs (insertBlocks block length p fs) := by
  apply insertBlocks_inserted hp hne
  · have := h.fuel t
    rw [hcs, List.length_append] at this
    omega
  · rw [h.base.free]
    intro h2
    exact h.chain_ne_two (p := t) (by rw [hcs]; exact List.mem_append_right _ h2) rfl
  · intro d hd
    rcases List.mem_cons.mp hd with rfl | hd
    · exact h.within_free
    · exact h.within (p := t) (by rw [hcs]; exact List.mem_append_right _ hd)
  · intro b es hb
    obtain ⟨hv, hinv, -⟩ := h.take hb
    exact ⟨(hinv.held_bounds (b := b) (by simp)).1, h.within_taken hb, hv⟩

/-- Objects nobody names are inserted along the chain of a directory. -/
theorem insertDir (h : Inv fs l) (hdir : (fs.nodeAt t).isDir = true) (hcs : l.chain t = pre ++ cs)
    (hne : cs ≠ []) (hp : Chain fs.nodeAt p cs) (ha : 512 ∣ length)
    (hfit : 512 * block + length ≤ fs.disk.size) (hlo : 0 < length → 4 ≤ block)
    (hfresh : ∀ x ∈ List.range' block ((length + 511) / 512),
      (∀ p, x ∉ entries fs l p) ∧ l.chain x ≠ [] ∧ x ≠ 1) :
    (∃ fs' l', insertBlocks block length p fs = .ok () fs' ∧ Touches fs l t fs' l' ∧
      Agree (fun x => x = 2 ∨ x ∈ own fs l .free ∨ x ∈ l.chain t) fs fs' ∧
      (listing fs' (l'.chain t)).Perm
        (List.range' block ((length + 511) / 512) ++ listing fs (l.chain t)) ∧
      fs'.freeNode.extents = freeAfter fs block length cs ∧
      (takeExtent 1 fs.freeNode.extents = none →
        ∃ c ∈ cs, insertExtent block length (fs.nodeAt c).extents ≠ none) ∧
      ∃ ext, l'.chain t = l.chain t ++ ext ∧ (own fs l .free).Perm (ext ++ own fs' l' .free)) ∨
    insertBlocks block length p fs = .error (.errno .ENOSPC) fs ∧
      (∀ c ∈ cs, insertExtent block length (fs.nodeAt c).extents = none) ∧
      takeExtent 1 fs.freeNode.extents = none := by
  have hcases := h.insertBlocks_cases block length hcs hne hp
  generalize insertBlocks block length p fs = r at hcases
  cases hcases with
  | @placed c es hc he =>
    have hct : c ∈ l.chain t := by rw [hcs]; exact List.mem_append_right _ hc
    obtain ⟨hv, hinv, hlist⟩ := h.placeDir hct hdir ha hfit hlo hfresh he
    have hag : ∀ T : Nat → Prop, T c → Agree T fs (fs.setExtents c es) :=
      fun T hT => Agree.setExtents hv hT
    have hfree : (fs.setExtents c es).freeNode = fs.freeNode := by
      apply (hag (· = c) rfl).freeNode
      rw [h.base.free]
      exact (h.chain_ne_two hct).symm
    have hsome : ∃ c ∈ cs, insertExtent block length (fs.nodeAt c).extents ≠ none :=
      ⟨c, hc, by rw [he]; simp⟩
    refine Or.inl ⟨_, l, rfl, ⟨hinv, rfl, fun _ _ => rfl, ?_, attrs_setExtents hv⟩, ?_, hlist, ?_,
      fun _ => hsome, [], by simp, ?_⟩
    · exact hag _ (Or.inr (Or.inr (Or.inr (mem_own_of_chain hct))))
    · exact hag _ (Or.inr (Or.inr hct))
    · rw [hfree, freeAfter, if_pos hsome]
    · rw [List.nil_append, own_free_congr hfree]
  | @extended pre' c b es hcs' hfull hb =>
    have hcs'' : l.chain t = pre ++ pre' ++ [c] := by rw [hcs, hcs', List.append_assoc]
    have hct : c ∈ l.chain t := by simp [hcs'']
    have hx := h.extend hcs'' hb
    rw [h.base.free]
    generalize (fs.setExtents 2 es).link c b = fs₂ at hx
    have hbt : b ∈ (l.set t (l.chain t ++ [b]) l.held).chain t := by simp
    have htt := h.head_mem (List.ne_nil_of_mem hct)
    have hattr : (fs₂.nodeAt t).attrs = (fs.nodeAt t).attrs := by
      obtain ⟨x, hx⟩ := hx.nodes t htt
      rw [hx]
      exact Node.attrs_next ..
    have hins : insertExtent block length (fs₂.nodeAt b).extents =
        some (⟨block, length⟩ :: List.replicate 14 Extent.default) := by
      rw [hx.node]
      rfl
    obtain ⟨hv, hinv, hlist⟩ := hx.inv.placeDir hbt ((Node.isDir_attrs hattr).trans hdir) ha
      (by rw [hx.agree.size]; exact hfit) hlo (by
        intro y hy
        obtain ⟨hno, hch, h1⟩ := hfresh y hy
        refine ⟨fun q => by rw [hx.entries q]; exact hno q, ?_, h1⟩
        by_cases hyt : y = t
        · simp [hyt]
        · rwa [Layout.set_chain_ne hyt]) hins
    have hag : ∀ T : Nat → Prop, T 2 → T c → T b → Agree T fs (fs₂.setExtents b
        (⟨block, length⟩ :: List.replicate 14 Extent.default)) := by
      intro T h2 hc hb
      refine Agree.trans (hx.agree.mono ?_) (Agree.setExtents hv hb)
      rintro x (rfl | rfl | rfl)
      exacts [h2, hc, hb]
    have hb2 : b ≠ 2 := hx.inv.chain_ne_two hbt
    have hfree : (fs₂.setExtents b (⟨block, length⟩ :: List.replicate 14 Extent.default)).freeNode =
        fs₂.freeNode := by
      apply (Agree.setExtents (T := (· = b)) hv rfl).freeNode
      rw [hx.inv.base.free]
      exact hb2.symm
    have hnone : ¬∃ c ∈ cs, insertExtent block length (fs.nodeAt c).extents ≠ none := by
      rintro ⟨d, hd, hd'⟩
      exact hd' (hfull d hd)
    refine Or.inl ⟨_, _, rfl, ⟨hinv, rfl, fun q hq => Layout.set_chain_ne hq, ?_, ?_⟩, ?_, ?_, ?_,
      fun hno => ?_, [b], by simp, ?_⟩
    · exact hag _ (Or.inl rfl) (Or.inr (Or.inr (Or.inr (mem_own_of_chain hct))))
        (Or.inr (Or.inl hx.free))
    · exact (attrs_setExtents hv).trans hattr
    · exact hag _ (Or.inl rfl) (Or.inr (Or.inr hct)) (Or.inr (Or.inl hx.free))
    · rw [Layout.set_chain_self, hx.listing] at hlist
      rw [Layout.set_chain_self]
      exact hlist
    · rw [hfree, hx.freeNode, freeAfter, if_neg hnone, hb]
    · rw [hno] at hb
      cases hb
    · simp only [own, hfree, hx.freeNode]
      exact (spans_takeExtent hb).symm
  | full hfull hb => exact Or.inr ⟨rfl, hfull, hb⟩

end Inv

/-- A new object `b` holding `n`, named in the directory `d`. -/
structure Created (fs : FileSystem) (l : Layout) (d b : Nat) (n : Node) (fs' : FileSystem)
    (l' : Layout) : Prop where
  inv : Inv fs' l'
  held : l'.held = l.held
  fresh : l.chain b = []
  chain : ∀ p, p ≠ b → p ≠ d → l'.chain p = l.chain p
  self : l'.chain b = [b]
  node : fs'.nodeAt b = n
  agree : Agree (Domain fs l d) fs fs'
  attrs : (fs'.nodeAt d).attrs = (fs.nodeAt d).attrs
  listing : (listing fs' (l'.chain d)).Perm (b :: listing fs (l.chain d))
  grown : ∃ ext, l'.chain d = l.chain d ++ ext ∧
    (own fs l .free).Perm (b :: ext ++ own fs' l' .free)

theorem Created.within {n : Node} (h : Created fs l d b n fs' l') : fs'.Within b :=
  h.inv.within_head (by simp [h.self])

/-- The directory has no place for the block that is free next, and no other block is free. -/
def CannotName (fs : FileSystem) (cs : List Nat) : Prop :=
  ∃ b es, takeExtent 1 fs.freeNode.extents = some (b, es) ∧ takeExtent 1 es = none ∧
    ∀ c ∈ cs, insertExtent b 512 (fs.nodeAt c).extents = none

/-- There is a block for a new node, and a place for it in the directory. -/
def Spacious (fs : FileSystem) (cs : List Nat) : Prop :=
  takeExtent 1 fs.freeNode.extents ≠ none ∧ ¬CannotName fs cs

theorem Node.extents_new {mode parent : Nat} {e : Extent}
    (he : e ∈ (Node.new mode name parent).extents) : e = Extent.default :=
  Node.eq_default_of_mem he

/-- The free block `b` has become an object that nobody names, with the node `n`. -/
structure Unnamed (fs : FileSystem) (l : Layout) (b : Nat) (es : List Extent) (n : Node)
    (fs' : FileSystem) : Prop where
  set : Inv fs' (l.set b [b] l.held)
  inv : Inv fs' l
  nil : l.chain b = []
  free : b ∈ own fs l .free
  node : fs'.nodeAt b = n
  freeNode : fs'.freeNode.extents = es
  agree : Agree (fun x => x = 2 ∨ x = b) fs fs'
  same : ∀ p, p ≠ b → ∀ c ∈ l.chain p, fs'.nodeAt c = fs.nodeAt c
  unnamed : ∀ p, b ∉ entries fs' (l.set b [b] l.held) p

namespace Inv

/-- A free block is taken and made an object that nobody names yet. -/
theorem newObject {n : Node} (h : Inv fs l) (hb : takeExtent 1 fs.freeNode.extents = some (b, es))
    (hn : n.Valid) (hnext : n.next = 0) (he : ∀ e ∈ n.extents, e = Extent.default)
    (hfs : fs' = (fs.setExtents 2 es).writeNodeAt b n) : Unnamed fs l b es n fs' := by
  obtain ⟨hv, hinv, hfree⟩ := h.take hb
  have hbh : b ∈ List.range' b 1 ++ l.held := by simp
  obtain ⟨hb0, hb2, hlt⟩ := hinv.held_bounds hbh
  obtain ⟨hnil, hno⟩ := hinv.held_unowned hbh
  have ha1 : Agree (fun x => x = 2 ∨ x = b) fs (fs.setExtents 2 es) :=
    Agree.setExtents hv (Or.inl rfl)
  have ha2 : Agree (· = b) (fs.setExtents 2 es) fs' := by
    rw [hfs]
    exact Agree.writeNodeAt hn rfl
  have ha : Agree (fun x => x = 2 ∨ x = b) fs fs' := ha1.trans (ha2.mono fun x hx => Or.inr hx)
  have hself : fs'.nodeAt b = n := by
    rw [hfs, nodeAt_writeNodeAt hn, Function.update_self]
  have hinv2 : Inv fs' { l with held := List.range' b 1 ++ l.held } :=
    hinv.congr ha2 (fun h2 => hb2 h2.symm) fun p c hc hcb => hno p (hcb ▸ hc)
  have hinv3 : Inv fs' (l.set b [b] l.held) :=
    hinv2.adopt (b := b) (List.Perm.refl (b :: l.held)) (by rw [hself, hnext])
      (by rw [hself]; exact he)
  have hsame : ∀ p, p ≠ b → ∀ c ∈ l.chain p, fs'.nodeAt c = fs.nodeAt c := by
    intro p _ c hc
    apply ha.nodeAt
    rintro (h2 | hcb)
    · exact h.chain_ne_two hc h2
    · exact hno p (hcb ▸ hc)
  have hinv4 : Inv fs' l := hinv2.forget (List.sublist_append_right _ l.held).subperm
  refine ⟨hinv3, hinv4, hnil, hfree b (by simp), hself, ?_, ha, hsame, ?_⟩
  · rw [ha2.freeNode, hinv.base.freeNode, nodeAt_setExtents hv, Function.update_self]
    rw [hinv.base.free]
    exact hb2.symm
  · intro p hp
    by_cases hpb : p = b
    · have hlist : listing fs' [b] = [] := by
        rw [listing_cons, listing_nil, List.append_nil, hself]
        exact spans_eq_nil fun e hm => by rw [he e hm]; rfl
      simp [hpb, entries, hlist] at hp
    · rw [(h.own_object _ (Layout.set_chain_ne hpb) (hsame p hpb)).2] at hp
      exact (h.entryHead p b hp).1 hnil

theorem createNode_exists {mode : Nat} (h : Inv fs l) (hd : l.chain d ≠ [])
    (hdir : (fs.nodeAt d).isDir = true) (hl : lookup fs name (listing fs (l.chain d)) = some b) :
    createNode mode name d fs = .error (.errno .EEXIST) fs := by
  rw [createNode, h.findNode_eq name hd hdir, hl]

/-- The rest of `create_node` once the name is known to be free. -/
def makeNode (mode : Nat) (name : String) (d : Nat) : FsM (Nat × Node) := do
  let block ← allocate 1
  let _ ← writeAt block (Node.new mode name d).encode
  insertBlocks block 512 d
  return (block, Node.new mode name d)

theorem createNode_absent (h : Inv fs l) (mode : Nat) (hd : l.chain d ≠ [])
    (hdir : (fs.nodeAt d).isDir = true) (hl : lookup fs name (listing fs (l.chain d)) = none) :
    createNode mode name d fs = makeNode mode name d fs := by
  rw [createNode, h.findNode_eq name hd hdir, hl]
  rfl

/-- The free blocks were the block of the object and those that are free still. -/
theorem free_perm {n : Node} (hu : Unnamed fs l b es n fs')
    (hb : takeExtent 1 fs.freeNode.extents = some (b, es)) :
    (own fs l .free).Perm (b :: own fs' (l.set b [b] l.held) .free) := by
  rw [own_free, own_free, hu.freeNode]
  exact (spans_takeExtent hb).symm

/-- The object is listed in the directory, and named there. -/
theorem created_of {n : Node} {fs₂ : FileSystem} {l' : Layout} {ext : List Nat}
    (hu : Unnamed fs l b es n fs₂) (h : Inv fs l) (hb : takeExtent 1 fs.freeNode.extents = some (b, es))
    (hd : l.chain d ≠ []) (htouch : Touches fs₂ (l.set b [b] l.held) d fs' l')
    (hag : Agree (fun x => x = 2 ∨ x ∈ own fs₂ (l.set b [b] l.held) .free ∨
      x ∈ (l.set b [b] l.held).chain d) fs₂ fs')
    (hlist : (listing fs' (l'.chain d)).Perm
      (b :: listing fs₂ ((l.set b [b] l.held).chain d)))
    (hext : l'.chain d = (l.set b [b] l.held).chain d ++ ext)
    (hfree : (own fs₂ (l.set b [b] l.held) .free).Perm (ext ++ own fs' l' .free)) :
    Created fs l d b n fs' l' := by
  have hperm := free_perm hu hb
  have hdb : d ≠ b := by
    rintro rfl
    exact hd hu.nil
  have hchain : (l.set b [b] l.held).chain d = l.chain d := Layout.set_chain_ne hdb
  have hbd : b ∈ own fs₂ (l.set b [b] l.held) (.object b) := mem_own_of_chain (by simp)
  rw [hchain] at hext hlist hag
  constructor
  case inv => exact htouch.inv
  case held => exact htouch.held
  case fresh => exact hu.nil
  case chain =>
    intro p hpb hpd
    rw [htouch.chain p hpd, Layout.set_chain_ne hpb]
  case self => rw [htouch.chain b (Ne.symm hdb), Layout.set_chain_self]
  case node => rw [htouch.agree.nodeAt (hu.set.domain_disjoint (Ne.symm hdb) hbd), hu.node]
  case agree =>
    refine Agree.trans (hu.agree.mono ?_) (hag.mono ?_)
    · rintro x (rfl | rfl)
      · exact Or.inl rfl
      · exact Or.inr (Or.inl hu.free)
    · rintro x (rfl | hx | hx)
      · exact Or.inl rfl
      · exact Or.inr (Or.inl (hperm.mem_iff.mpr (List.mem_cons_of_mem b hx)))
      · exact Or.inr (Or.inr (Or.inr (mem_own_of_chain hx)))
  case attrs => rw [htouch.attrs, hu.same d hdb d (h.head_mem hd)]
  case listing =>
    have hsame : listing fs₂ (l.chain d) = listing fs (l.chain d) :=
      listing_congr fun c hc => by rw [hu.same d hdb c hc]
    rw [hsame] at hlist
    exact hlist
  case grown => exact ⟨ext, hext, hperm.trans (List.Perm.cons b hfree)⟩

/-- `create_node` of a free name takes a block and names it, or fails for want of a block: the
entry's own, or one for the list of entries. -/
theorem makeNode_cases {mode : Nat} (h : Inv fs l) (name : String) (hd : l.chain d ≠ [])
    (hdir : (fs.nodeAt d).isDir = true) (hm : mode < 2 ^ 16) :
    takeExtent 1 fs.freeNode.extents = none ∧
        makeNode mode name d fs = .error (.errno .ENOSPC) fs ∨
      CannotName fs (l.chain d) ∧ (∃ fs', makeNode mode name d fs = .error (.errno .ENOSPC) fs' ∧
        Inv fs' l ∧ Agree (fun x => x = 2 ∨ x ∈ own fs l .free) fs fs') ∨
      Spacious fs (l.chain d) ∧
        ∃ b fs' l', makeNode mode name d fs = .ok (b, Node.new mode name d) fs' ∧
          Created fs l d b (Node.new mode name d) fs' l' := by
  cases hb : takeExtent 1 fs.freeNode.extents with
  | none =>
    left
    exact ⟨rfl, bind_error (allocate_none h.within_free hb)⟩
  | some r =>
    right
    obtain ⟨b, es⟩ := r
    have hdlt : d < 2 ^ 64 := by
      have := h.chain_inside (h.head_mem hd)
      have := h.base.size
      omega
    have hu := h.newObject hb (Node.valid_new name hm hdlt) rfl (fun e he => Node.extents_new he) rfl
    have hrun : makeNode mode name d fs = (do
        insertBlocks b 512 d
        return (b, Node.new mode name d) : FsM (Nat × Node))
        ((fs.setExtents 2 es).writeNodeAt b (Node.new mode name d)) := by
      rw [makeNode, bind_ok (allocate_some h.within_free hb),
        bind_ok (writeAt_run ((h.within_taken hb).setExtents es)), h.base.free]
      rfl
    generalize (fs.setExtents 2 es).writeNodeAt b (Node.new mode name d) = fs₂ at hu hrun
    have hdb : d ≠ b := by
      rintro rfl
      exact hd hu.nil
    have hchain : (l.set b [b] l.held).chain d = l.chain d := Layout.set_chain_ne hdb
    have hbin : 512 * b + 512 ≤ fs₂.disk.size := hu.set.chain_inside (p := b) (by simp)
    have hblo : 4 ≤ b := by
      have := (takeExtent_fits hb h.freeFits).2.2
      omega
    have hch : Chain fs₂.nodeAt d (l.chain d) := by
      have := (hu.set.object d (by rw [hchain]; exact hd)).chain
      rwa [hchain] at this
    have hdir₂ : (fs₂.nodeAt d).isDir = true := by
      rw [hu.same d hdb d (h.head_mem hd)]
      exact hdir
    have hcs : (l.set b [b] l.held).chain d = [] ++ l.chain d := hchain
    rcases hu.set.insertDir hdir₂ hcs hd hch (Nat.dvd_refl 512) hbin
        (fun _ => hblo) (by
          intro x hx
          obtain rfl : x = b := by simpa using hx
          refine ⟨hu.unnamed, by simp, ?_⟩
          rintro rfl
          exact h.rootChain hu.nil) with
      ⟨fs', l', hrun', htouch, hag, hlist, -, hroom, ext, hext, hfree⟩ | ⟨hrun', hfull, hnone⟩
    · right
      have hspace : ¬CannotName fs (l.chain d) := by
        rintro ⟨b', es', hb', hnone, hfull⟩
        rw [hb] at hb'
        cases hb'
        rw [hu.freeNode] at hroom
        obtain ⟨c, hc, hplace⟩ := hroom hnone
        rw [hu.same d hdb c hc] at hplace
        exact hplace (hfull c hc)
      refine ⟨⟨by rw [hb]; exact Option.some_ne_none _, hspace⟩, b, fs', l', ?_,
        created_of hu h hb hd htouch hag hlist hext hfree⟩
      rw [hrun, bind_ok hrun']
      rfl
    · left
      refine ⟨⟨b, es, hb, by rw [← hu.freeNode]; exact hnone, ?_⟩, fs₂, by rw [hrun, bind_error hrun'],
        hu.inv, ?_⟩
      · intro c hc
        rw [← hu.same d hdb c hc]
        exact hfull c hc
      · refine hu.agree.mono ?_
        rintro x (rfl | rfl)
        · exact Or.inl rfl
        · exact Or.inr hu.free

theorem makeNode_spec {mode : Nat} (h : Inv fs l) (name : String) (hd : l.chain d ≠ [])
    (hdir : (fs.nodeAt d).isDir = true) (hm : mode < 2 ^ 16) :
    takeExtent 1 fs.freeNode.extents = none ∧
        makeNode mode name d fs = .error (.errno .ENOSPC) fs ∨
      CannotName fs (l.chain d) ∧ (∃ fs', makeNode mode name d fs = .error (.errno .ENOSPC) fs' ∧
        Inv fs' l ∧ Agree (fun x => x = 2 ∨ x ∈ own fs l .free) fs fs') ∨
      ∃ b fs' l', makeNode mode name d fs = .ok (b, Node.new mode name d) fs' ∧
        Created fs l d b (Node.new mode name d) fs' l' :=
  (h.makeNode_cases name hd hdir hm).imp_right fun hrest => hrest.imp_right And.right

end Inv

/-- The node `c` of the chain is the first that lists `b`; without `b` its extents are `es`, and `o`
is what has to be listed again. -/
def Found (fs : FileSystem) (cs : List Nat) (b c : Nat) (post : List Nat) (es : List Extent)
    (o : Option Extent) : Prop :=
  ∃ pre, cs = pre ++ c :: post ∧ (∀ x ∈ pre, removeExtent b 1 (fs.nodeAt x).extents = none) ∧
    removeExtent b 1 (fs.nodeAt c).extents = some (es, o)

/-- The free list at the time the block `b` is given back. -/
def freeAtRelease (fs : FileSystem) (c : Nat) (post : List Nat) (es : List Extent) :
    Option Extent → List Extent
  | some r => freeAfter (fs.setExtents c es) r.block r.length (c :: post)
  | none => fs.freeNode.extents

/-- The free node has a place for `b` when the entry is removed. -/
def Room (fs : FileSystem) (cs : List Nat) (b : Nat) : Prop :=
  ∀ c post es o, Found fs cs b c post es o →
    insertExtent b 512 (freeAtRelease fs c post es o) ≠ none

/-- The entries behind `b` have no place any more, and no block is free to make one. -/
def CannotSplit (fs : FileSystem) (cs : List Nat) (b : Nat) : Prop :=
  ∃ c post es r, Found fs cs b c post es (some r) ∧ takeExtent 1 fs.freeNode.extents = none ∧
    ∀ x ∈ c :: post, insertExtent r.block r.length ((fs.setExtents c es).nodeAt x).extents = none

/-- The directory `d` has dropped names, and nothing else has changed. -/
structure Unlisted (fs : FileSystem) (l : Layout) (d : Nat) (fs' : FileSystem) : Prop where
  inv : Inv fs' l
  agree : Agree (· ∈ l.chain d) fs fs'
  attrs : (fs'.nodeAt d).attrs = (fs.nodeAt d).attrs
  freeNode : fs'.freeNode = fs.freeNode
  listing : (listing fs' (l.chain d)).Subperm (listing fs (l.chain d))

/-- The object `b` is no longer named in the directory `d`, and its first block is free. -/
structure Removed (fs : FileSystem) (l : Layout) (d b : Nat) (fs' : FileSystem) (l' : Layout) :
    Prop where
  inv : Inv fs' l'
  held : l'.held = l.held
  chain : ∀ p, p ≠ b → p ≠ d → l'.chain p = l.chain p
  self : l'.chain b = []
  agree : Agree (fun x => Domain fs l d x ∨ x = b) fs fs'
  attrs : (fs'.nodeAt d).attrs = (fs.nodeAt d).attrs
  listing : (listing fs (l.chain d)).Perm (b :: listing fs' (l'.chain d))
  grown : ∃ ext, l'.chain d = l.chain d ++ ext ∧
    (b :: own fs l .free).Perm (ext ++ own fs' l' .free)

namespace Inv

theorem exists_found (h : Inv fs l) (hd : l.chain d ≠ []) (hdir : (fs.nodeAt d).isDir = true)
    (hb : b ∈ listing fs (l.chain d)) : ∃ c post es o, Found fs (l.chain d) b c post es o := by
  have ho := h.object d hd
  have hal := ho.aligned hdir
  have hsize := h.base.size
  have hfits := ho.fits
  have hlt := h.listed_lt hb
  generalize l.chain d = cs at hb hal hfits
  clear ho hd
  induction cs with
  | nil => cases hb
  | cons c cs ih =>
    have hc : removeExtent b 1 (fs.nodeAt c).extents = none ↔ _ :=
      removeExtent_none hsize (hfits c (by simp)) hlt (hal c (by simp))
    by_cases hin : b ∈ spans (fs.nodeAt c).extents
    · have hne : removeExtent b 1 (fs.nodeAt c).extents ≠ none := fun he => hc.mp he hin
      obtain ⟨⟨es, o⟩, he⟩ := Option.ne_none_iff_exists'.mp hne
      exact ⟨c, cs, es, o, [], rfl, by simp, he⟩
    · rw [listing_cons] at hb
      rcases List.mem_append.mp hb with hb | hb
      · exact (hin hb).elim
      obtain ⟨c', post, es, o, pre, rfl, hpre, he⟩ := ih hb (fun x hx => hal x (by simp [hx]))
        fun x hx => hfits x (by simp [hx])
      refine ⟨c', post, es, o, c :: pre, rfl, ?_, he⟩
      intro x hx
      rcases List.mem_cons.mp hx with rfl | hx
      · exact hc.mpr hin
      · exact hpre x hx

/-- The entry is taken out of its extent. -/
theorem unlist {post : List Nat} {o : Option Extent} (h : Inv fs l) (hd : l.chain d ≠ [])
    (hdir : (fs.nodeAt d).isDir = true) (hb : b ∈ listing fs (l.chain d))
    (hf : Found fs (l.chain d) b c post es o) :
    ValidExtents es ∧ c ∈ l.chain d ∧ Inv (fs.setExtents c es) l ∧
      (listing fs (l.chain d)).Perm
        (b :: (spanOption o ++ listing (fs.setExtents c es) (l.chain d))) ∧
      ∀ x, o = some x → x.Fits fs.disk.size ∧ 512 ∣ x.length := by
  obtain ⟨pre, hcs, -, he⟩ := hf
  have hc : c ∈ l.chain d := by simp [hcs]
  have ho := h.object d hd
  have hlt := h.listed_lt hb
  obtain ⟨hfits, hlen, hrest⟩ := removeExtent_fits he h.base.size (ho.fits c hc) hlt
  have hspans := spans_removeExtent he h.base.size (ho.fits c hc) hlt (ho.aligned hdir c hc)
  have hv : ValidExtents es := validExtents_of_fits h.base.size
    (hlen.trans (nodeAt_valid fs c).count) fun e hm => (hfits e hm).1
  have hperm : (listing fs (l.chain d)).Perm
      (b :: (spanOption o ++ listing (fs.setExtents c es) (l.chain d))) := by
    obtain ⟨rest, hold, hnew⟩ := listing_setExtents fs (h.nodup_chain d) hc hv
    refine hold.trans ((hspans.append_right rest).trans ?_)
    rw [List.cons_append, List.append_assoc]
    exact List.Perm.cons b (List.Perm.append_left _ hnew.symm)
  refine ⟨hv, hc, ?_, hperm, hrest⟩
  refine h.rewriteDir _ hd hdir (Agree.setExtents hv hc) (fun _ _ => next_setExtents hv)
    ((isDir_setExtents hv).trans hdir) ?_ List.nodup_nil (by simp) ?_
  · intro x hx e hm
    rw [nodeAt_setExtents hv] at hm
    by_cases hxc : x = c
    · rw [hxc, Function.update_self] at hm
      refine ⟨(hfits e hm).1, ?_⟩
      rcases (hfits e hm).2 with hdvd | hold
      · exact hdvd
      · exact ho.aligned hdir c hc e hold
    · rw [Function.update_of_ne hxc] at hm
      exact ⟨ho.fits x hx e hm, ho.aligned hdir x hx e hm⟩
  · rw [List.nil_append]
    refine List.Subperm.trans ?_ hperm.symm.subperm
    refine List.Subperm.trans ?_ (List.sublist_cons_self ..).subperm
    exact (List.sublist_append_right _ _).subperm

/-- What was taken out is named nowhere. -/
theorem unlisted {post : List Nat} {o : Option Extent} {x : Nat} (h : Inv fs l)
    (hd : l.chain d ≠ []) (hdir : (fs.nodeAt d).isDir = true) (hb : b ∈ listing fs (l.chain d))
    (hf : Found fs (l.chain d) b c post es o) (hx : x ∈ b :: spanOption o) :
    (∀ p, x ∉ entries (fs.setExtents c es) l p) ∧ l.chain x ≠ [] ∧ x ≠ 1 := by
  obtain ⟨hv, hc, -, hperm, -⟩ := h.unlist hd hdir hb hf
  have hxd : x ∈ entries fs l d := by
    rw [entries_of_dir hdir]
    apply hperm.mem_iff.mpr
    rcases List.mem_cons.mp hx with rfl | hx
    · exact List.mem_cons_self
    · exact List.mem_cons_of_mem b (List.mem_append_left _ hx)
  refine ⟨?_, h.entryHead d x hxd⟩
  intro p hp
  by_cases hpd : p = d
  · rw [hpd, entries_of_dir ((isDir_setExtents hv).trans hdir)] at hp
    have hn := h.listed.nodup d
    rw [entries_of_dir hdir, hperm.nodup_iff, ← List.cons_append, List.nodup_append] at hn
    exact hn.2.2 x hx x hp rfl
  · have hsame : entries (fs.setExtents c es) l p = entries fs l p := by
      refine (h.own_object _ rfl ?_).2
      intro y hy
      rw [nodeAt_setExtents hv, Function.update_of_ne]
      rintro rfl
      exact hpd (h.chain_disjoint hy hc)
    rw [hsame] at hp
    exact hpd (h.listed.disjoint p d x hp hxd)

/-- The part of `remove_blocks` that lists the rest of a split extent again. -/
def relistRest (c : Nat) : Option Extent → FsM Unit
  | some r => insertBlocks r.block r.length c
  | none => pure ()

theorem relist {post : List Nat} {o : Option Extent} (h : Inv fs l) (hd : l.chain d ≠ [])
    (hdir : (fs.nodeAt d).isDir = true) (hb : b ∈ listing fs (l.chain d))
    (hf : Found fs (l.chain d) b c post es o) :
    (∃ fs' l', relistRest c o (fs.setExtents c es) = .ok () fs' ∧ Touches fs l d fs' l' ∧
      (listing fs (l.chain d)).Perm (b :: listing fs' (l'.chain d)) ∧
      fs'.freeNode.extents = freeAtRelease fs c post es o ∧
      ∃ ext, l'.chain d = l.chain d ++ ext ∧ (own fs l .free).Perm (ext ++ own fs' l' .free)) ∨
    CannotSplit fs (l.chain d) b ∧
      relistRest c o (fs.setExtents c es) = .error (.errno .ENOSPC) (fs.setExtents c es) ∧
      Inv (fs.setExtents c es) l := by
  obtain ⟨hv, hc, hinv, hperm, hrest⟩ := h.unlist hd hdir hb hf
  have hfresh := fun x hx => h.unlisted (x := x) hd hdir hb hf hx
  have hag : ∀ T : Nat → Prop, T c → Agree T fs (fs.setExtents c es) :=
    fun T hT => Agree.setExtents hv hT
  have hfn : (fs.setExtents c es).freeNode = fs.freeNode := by
    apply (hag (· = c) rfl).freeNode
    rw [h.base.free]
    exact (h.chain_ne_two hc).symm
  have hattr : ((fs.setExtents c es).nodeAt d).attrs = (fs.nodeAt d).attrs := attrs_setExtents hv
  have hdir' : ((fs.setExtents c es).nodeAt d).isDir = true := (Node.isDir_attrs hattr).trans hdir
  have hdom : Agree (Domain fs l d) fs (fs.setExtents c es) :=
    hag _ (Or.inr (Or.inr (Or.inr (mem_own_of_chain hc))))
  obtain ⟨pre, hcs, hpre, hrem⟩ := hf
  cases o with
  | none =>
    left
    refine ⟨_, l, rfl, ⟨hinv, rfl, fun _ _ => rfl, hdom, hattr⟩, hperm, ?_, [], by simp, ?_⟩
    · rw [hfn]
      rfl
    · rw [List.nil_append, own_free_congr hfn]
  | some r =>
    obtain ⟨hfit, hal⟩ := hrest r rfl
    have hch := (hinv.object d hd).chain
    rw [hcs] at hch
    rcases hinv.insertDir hdir' hcs (by simp) hch.suffix hal hfit.le hfit.start (by
        intro x hx
        exact hfresh x (List.mem_cons_of_mem b hx)) with
      ⟨fs', l', hrun, htouch, hag', hlist, hfree, -, ext, hext, hfperm⟩ | ⟨hrun, hfull, hnone⟩
    · left
      refine ⟨fs', l', hrun, ⟨htouch.inv, htouch.held, htouch.chain, ?_, ?_⟩, ?_, hfree, ext, hext, ?_⟩
      · refine hdom.trans (hag'.mono ?_)
        rintro x (rfl | hx | hx)
        · exact Or.inl rfl
        · rw [own_free_congr hfn] at hx
          exact Or.inr (Or.inl hx)
        · exact Or.inr (Or.inr (Or.inr (mem_own_of_chain hx)))
      · exact htouch.attrs.trans hattr
      · exact hperm.trans (List.Perm.cons b hlist.symm)
      · rw [own_free_congr hfn] at hfperm
        exact hfperm
    · right
      rw [hfn] at hnone
      exact ⟨⟨c, post, es, r, ⟨pre, hcs, hpre, hrem⟩, hnone, hfull⟩, hrun, hinv⟩

theorem deallocate_run (h : Inv fs l) (he : insertExtent block length fs.freeNode.extents = some es) :
    deallocate block length fs = .ok () (fs.setExtents 2 es) := by
  change insertBlocksAux fs.fuel block length fs.header.2.free fs = _
  rw [h.base.free]
  rw [h.base.freeNode] at he
  exact insertBlocksAux_placed (by omega) (h.base.free ▸ h.within_free) he

/-- The part of `remove_node` after its checks. -/
def eraseNode (b d : Nat) : FsM Unit := do
  removeBlocks b 1 d
  let _ ← writeAt b Node.default.encode
  return ()

theorem eraseNode_run {post : List Nat} {o : Option Extent} (h : Inv fs l) (hd : l.chain d ≠ [])
    (hf : Found fs (l.chain d) b c post es o) :
    eraseNode b d fs = (do
      relistRest c o
      deallocate b 512
      let _ ← writeAt b Node.default.encode
      return () : FsM Unit) (fs.setExtents c es) := by
  obtain ⟨pre, hcs, hpre, hrem⟩ := hf
  have hch := (h.object d hd).chain
  have hk := h.fuel d
  rw [hcs] at hch hk
  rw [List.length_append] at hk
  have hw : ∀ x ∈ pre ++ [c], fs.Within x := by
    intro x hx
    have hxd : x ∈ pre ++ c :: post := by
      rw [List.append_cons]
      exact List.mem_append_left post hx
    exact h.within (hcs ▸ hxd)
  have hrun := removeBlocks_run hch hw hpre hrem (by omega)
  have hafter : afterRemoval b c o = (do
      relistRest c o
      deallocate b 512) := by
    cases o <;> rfl
  rw [hafter] at hrun
  simp only [eraseNode, bind, EStateM.bind, hrun]
  cases relistRest c o (fs.setExtents c es) <;> rfl

/-- An object nobody names gives its first block back. -/
theorem release (h : Inv fs l) (hb : l.chain b ≠ []) (hno : ∀ p, b ∉ entries fs l p) (h1 : b ≠ 1)
    (he : insertExtent b 512 fs.freeNode.extents = some es)
    (hfs : fs' = (fs.setExtents 2 es).writeNodeAt b Node.default) :
    ValidExtents es ∧ Inv fs' (l.set b [] l.held) ∧ Agree (fun x => x = 2 ∨ x = b) fs fs' ∧
      (b :: own fs l .free).Perm (own fs' (l.set b [] l.held) .free) := by
  have hdrop := h.drop hb hno h1
  have hb2 : b ≠ 2 := h.chain_ne_two (h.head_mem hb)
  have hhand : (l.set b [] (b :: l.held)).held.Perm
      (List.range' b ((512 + 511) / 512) ++ l.held) := List.Perm.refl _
  obtain ⟨hv, hinv⟩ := hdrop.give (by omega) hhand he
  have ha1 : Agree (fun x => x = 2 ∨ x = b) fs (fs.setExtents 2 es) :=
    Agree.setExtents hv (Or.inl rfl)
  have ha2 : Agree (· = b) (fs.setExtents 2 es) fs' := by
    rw [hfs]
    exact Agree.writeNodeAt Node.valid_default rfl
  refine ⟨hv, ?_, ha1.trans (ha2.mono fun x hx => Or.inr hx), ?_⟩
  · refine hinv.congr ha2 (fun h2 => hb2 h2.symm) ?_
    rintro p x hx rfl
    exact (hdrop.held_unowned (b := x) (by simp)).2 p hx
  · have hfn : fs'.freeNode = (fs.setExtents 2 es).freeNode := by
      apply ha2.freeNode
      rw [hinv.base.free]
      exact hb2.symm
    have hone : List.range' b ((512 + 511) / 512) = [b] := rfl
    have hin := h.chain_inside (h.head_mem hb)
    have hp := spans_insertExtent he h.base.size h.freeFits hin
    rw [hone] at hp
    rw [own_free, own_free, hfn, hinv.base.freeNode, nodeAt_setExtents hv, Function.update_self]
    exact hp.symm

/-- With room in the free node an entry is removed and its block freed, unless the entries behind
it cannot be listed again. -/
theorem eraseNode_spec (h : Inv fs l) (hd : l.chain d ≠ []) (hdir : (fs.nodeAt d).isDir = true)
    (hb : b ∈ listing fs (l.chain d)) (hbd : b ≠ d) (hroom : Room fs (l.chain d) b) :
    (∃ fs' l', eraseNode b d fs = .ok () fs' ∧ Removed fs l d b fs' l') ∨
      CannotSplit fs (l.chain d) b ∧ ∃ fs', eraseNode b d fs = .error (.errno .ENOSPC) fs' ∧
        Unlisted fs l d fs' := by
  obtain ⟨c, post, es, o, hf⟩ := h.exists_found hd hdir hb
  rw [h.eraseNode_run hd hf]
  rcases h.relist hd hdir hb hf with
    ⟨fs₂, l₂, hrun, htouch, hperm, hfree, ext, hext, hfperm⟩ | ⟨hcannot, hrun, hinv⟩
  · left
    rw [bind_ok hrun]
    obtain ⟨es', he⟩ := Option.ne_none_iff_exists'.mp (hroom c post es o hf)
    rw [← hfree] at he
    have hbh : l₂.chain b ≠ [] := by
      rw [htouch.chain b hbd]
      exact (h.unlisted hd hdir hb hf (x := b) (by simp)).2.1
    have hbe : b ∈ entries fs l d := by
      rw [entries_of_dir hdir]
      exact hb
    have hno : ∀ p, b ∉ entries fs₂ l₂ p := by
      intro p hp
      by_cases hpd : p = d
      · rw [hpd, entries_of_dir ((Node.isDir_attrs htouch.attrs).trans hdir)] at hp
        have hn := h.listed.nodup d
        rw [entries_of_dir hdir, hperm.nodup_iff] at hn
        exact (List.nodup_cons.mp hn).1 hp
      · have hsame := (h.own_object _ (htouch.chain p hpd) fun y hy =>
          htouch.agree.nodeAt (h.domain_disjoint hpd (mem_own_of_chain hy))).2
        rw [hsame] at hp
        exact hpd (h.listed.disjoint p d b hp hbe)
    obtain ⟨hv, hinv, hag, hgive⟩ := htouch.inv.release hbh hno (h.entryHead d b hbe).2 he rfl
    have hwb : (fs₂.setExtents 2 es').Within b :=
      (htouch.inv.within (htouch.inv.head_mem hbh)).setExtents es'
    refine ⟨(fs₂.setExtents 2 es').writeNodeAt b Node.default, l₂.set b [] l₂.held,
      by rw [bind_ok (htouch.inv.deallocate_run he), bind_ok (writeAt_run hwb)]; rfl, ?_⟩
    have hdd : d ∈ l₂.chain d := by
      rw [hext]
      exact List.mem_append_left _ (h.head_mem hd)
    have hchain : ∀ x ∈ l₂.chain d, ¬(x = 2 ∨ x = b) := by
      rintro x hx (rfl | rfl)
      · exact htouch.inv.chain_ne_two hx rfl
      · exact hbd (htouch.inv.chain_disjoint (htouch.inv.head_mem hbh) hx)
    constructor
    case inv => exact hinv
    case held => exact htouch.held
    case chain =>
      intro p hpb hpd
      rw [Layout.set_chain_ne hpb, htouch.chain p hpd]
    case self => rw [Layout.set_chain_self]
    case agree =>
      refine (htouch.agree.mono fun x hx => Or.inl hx).trans (hag.mono ?_)
      rintro x (rfl | rfl)
      · exact Or.inl (Or.inl rfl)
      · exact Or.inr rfl
    case attrs => rw [hag.nodeAt (hchain d hdd), htouch.attrs]
    case listing =>
      have hlist : listing ((fs₂.setExtents 2 es').writeNodeAt b Node.default) (l₂.chain d) =
          listing fs₂ (l₂.chain d) := listing_congr fun x hx => by rw [hag.nodeAt (hchain x hx)]
      rw [Layout.set_chain_ne (Ne.symm hbd), hlist]
      exact hperm
    case grown =>
      refine ⟨ext, by rw [Layout.set_chain_ne (Ne.symm hbd), hext], ?_⟩
      refine (List.Perm.cons b hfperm).trans (List.perm_middle.symm.trans ?_)
      exact List.Perm.append_left ext hgive
  · right
    obtain ⟨hv, hc, -, hperm, -⟩ := h.unlist hd hdir hb hf
    have ha : Agree (· = c) fs (fs.setExtents c es) := Agree.setExtents hv rfl
    refine ⟨hcannot, _, bind_error hrun, hinv, ?_, attrs_setExtents hv, ?_, ?_⟩
    · exact ha.mono fun x hx => hx ▸ hc
    · apply ha.freeNode
      rw [h.base.free]
      exact (h.chain_ne_two hc).symm
    · refine List.Subperm.trans ?_ hperm.symm.subperm
      exact ((List.sublist_append_right _ _).trans (List.sublist_cons_self ..)).subperm

theorem removeNode_absent {mode : Nat} (h : Inv fs l) (hd : l.chain d ≠ [])
    (hdir : (fs.nodeAt d).isDir = true) (hl : lookup fs name (listing fs (l.chain d)) = none) :
    removeNode mode name d fs = .error (.errno .ENOENT) fs := by
  have hfind := h.findNode_eq name hd hdir
  rw [hl] at hfind
  exact bind_error hfind

/-- The checks of `remove_node` on a name that is there. -/
theorem removeNode_found {mode : Nat} (h : Inv fs l) (hd : l.chain d ≠ [])
    (hdir : (fs.nodeAt d).isDir = true) (hl : lookup fs name (listing fs (l.chain d)) = some b) :
    removeNode mode name d fs =
      if (fs.nodeAt b).mode &&& Node.MODE_TYPE = mode then
        if (fs.nodeAt b).isDir = true ∧ listing fs (l.chain b) ≠ [] then
          .error (.errno .ENOTEMPTY) fs
        else eraseNode b d fs
      else if (fs.nodeAt b).isDir = true then .error (.errno .EISDIR) fs
      else .error (.errno .ENOTDIR) fs := by
  have hfind := h.findNode_eq name hd hdir
  rw [hl] at hfind
  have hb : b ∈ entries fs l d := by
    rw [entries_of_dir hdir]
    exact List.mem_of_find?_eq_some hl
  have hbc := (h.entryHead d b hb).1
  rw [removeNode, bind_ok hfind]
  dsimp only
  by_cases hm : (fs.nodeAt b).mode &&& Node.MODE_TYPE = mode
  · rw [if_pos hm, if_pos hm]
    by_cases hbd : (fs.nodeAt b).isDir = true
    · rw [if_pos hbd, bind_ok (h.childNodes_eq hbc hbd)]
      by_cases hemp : listing fs (l.chain b) = []
      · have hno : ¬((fs.nodeAt b).isDir = true ∧ listing fs (l.chain b) ≠ []) := fun hc => hc.2 hemp
        rw [if_neg hno, hemp]
        rfl
      · have hyes : (fs.nodeAt b).isDir = true ∧ listing fs (l.chain b) ≠ [] := ⟨hbd, hemp⟩
        have hne : (!((listing fs (l.chain b)).map fun b => (b, fs.nodeAt b)).isEmpty) = true := by
          simpa using hemp
        rw [if_pos hyes, if_pos hne]
        rfl
    · have hno : ¬((fs.nodeAt b).isDir = true ∧ listing fs (l.chain b) ≠ []) := fun hc => hbd hc.1
      rw [if_neg hbd, if_neg hno]
      rfl
  · rw [if_neg hm, if_neg hm]
    by_cases hbd : (fs.nodeAt b).isDir = true
    · rw [if_pos hbd, if_pos hbd]
      rfl
    · rw [if_neg hbd, if_neg hbd]
      rfl

end Inv

end Origel.RedoxFs
