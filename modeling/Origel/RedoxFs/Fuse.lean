import Origel.RedoxFs.Overlay
import Origel.RedoxFs.Scheme

/-! The attributes that the FUSE front end reports, beside those of the scheme. -/
namespace Origel.RedoxFs

open Origel.Lib FileSystem

variable {fs fs' fs₁ : FileSystem} {b c d p t x mode offset len n nb rest : Nat} {l l' : Layout}
  {op : Op} {e e' : Extent} {es es' : List Extent} {buf : List UInt8} {err : Option Errno}

namespace Fuse

inductive FileType where
  | Directory
  | RegularFile
  deriving DecidableEq

structure Timespec where
  sec : Int
  nsec : Int
  deriving DecidableEq

def CREATE_TIME : Timespec := ⟨0, 0⟩

structure FileAttr where
  ino : Nat
  size : Nat
  blocks : Nat
  atime : Timespec
  mtime : Timespec
  ctime : Timespec
  crtime : Timespec
  kind : FileType
  perm : Nat
  nlink : Nat
  uid : Nat
  gid : Nat
  rdev : Nat
  flags : Nat
  deriving DecidableEq

/-- `extents[0]` -/
def first (n : Node) : Extent := n.extents.headD Extent.default

def nodeAttr (n : Nat × Node) : FileAttr where
  ino := n.1
  size := (first n.2).length
  blocks := wrap64 ((first n.2).length + 511) / 512
  atime := CREATE_TIME
  mtime := CREATE_TIME
  ctime := CREATE_TIME
  crtime := CREATE_TIME
  kind := if n.2.isDir then .Directory else .RegularFile
  perm := n.2.mode &&& Node.MODE_PERM
  nlink := 1
  uid := n.2.uid
  gid := n.2.gid
  rdev := 0
  flags := 0

def lookup (parentBlock : Nat) (name : String) : FsM FileAttr := do
  return nodeAttr (← findNode name parentBlock)

def getattr (block : Nat) : FsM FileAttr := do
  return nodeAttr (← node block)

end Fuse

/-- The FUSE front end reports the length that the scheme reports and that reads deliver, and the
sectors it takes. -/
def FrontEndsAgree (fs : FileSystem) (t : Nat) : Prop :=
  ∃ attr stat, Fuse.getattr t fs = .ok attr fs ∧ statBlock t fs = .ok stat fs ∧
    attr.size = stat.size ∧ nodeLen t fs = .ok attr.size fs ∧
    attr.blocks = (stat.size + 511) / 512 ∧
    ∀ offset buf, offset ≤ stat.size → ∃ out,
      readNode t offset buf fs = .ok (out, min buf.length (stat.size - offset)) fs

/-- All bytes are in the first extent of the first node. -/
def InFirstExtent (fs : FileSystem) (t : Nat) : Prop :=
  ∀ e ∈ (extentsOf fs (chainOf fs t)).tail, e.length = 0

/-- The fresh blocks lie at an end of the extent, or it is not in use. -/
def Joins (nb rest : Nat) (e : Extent) : Prop :=
  e.length = 0 ∨ (rest % 512 = 0 ∧ e.block = nb + rest / 512) ∨
    e.block + (e.length + 511) / 512 = nb

/-- A safe call after which a file that grows is still in one piece. -/
def Contiguous (fs : FileSystem) (op : Op) : Prop :=
  Safe fs op ∧ match op with
    | .writeNode t offset buf => ∀ nb es,
      0 < missing fs (chainOf fs t) (wrap64 (offset + buf.length)) →
      takeExtent ((missing fs (chainOf fs t) (wrap64 (offset + buf.length)) + 511) / 512)
        fs.freeNode.extents = some (nb, es) →
      Joins nb (missing fs (chainOf fs t) (wrap64 (offset + buf.length))) (Fuse.first (fs.nodeAt t))
    | _ => True

/-- Every file is one node with one extent in use at most. -/
def AllSingle (fs : FileSystem) (l : Layout) : Prop :=
  ∀ p, l.chain p ≠ [] → (fs.nodeAt p).isDir = false →
    l.chain p = [p] ∧ cellsOf (fs.nodeAt p).extents.tail = []

theorem extents_first (fs : FileSystem) (t : Nat) :
    (fs.nodeAt t).extents = Fuse.first (fs.nodeAt t) :: (fs.nodeAt t).extents.tail := by
  have hcount := (nodeAt_valid fs t).count
  rw [Fuse.first]
  cases hes : (fs.nodeAt t).extents with
  | nil =>
    rw [hes] at hcount
    cases hcount
  | cons e es => rfl

namespace Inv

theorem chain_cons (h : Inv fs l) (ht : l.chain t ≠ []) : ∃ post, l.chain t = t :: post := by
  have hc := (h.object t ht).chain
  cases hcs : l.chain t with
  | nil => exact (ht hcs).elim
  | cons c post =>
    rw [hcs] at hc
    exact ⟨post, by rw [hc.1]⟩

theorem extentsOf_chain (h : Inv fs l) (ht : l.chain t ≠ []) :
    extentsOf fs (chainOf fs t) =
      Fuse.first (fs.nodeAt t) :: (extentsOf fs (chainOf fs t)).tail := by
  obtain ⟨post, hpost⟩ := h.chain_cons ht
  rw [h.chainOf_eq ht, hpost, extentsOf_cons]
  have hfirst := extents_first fs t
  generalize Fuse.first (fs.nodeAt t) = e at hfirst
  rw [hfirst]
  rfl

theorem nodeLen_first (h : Inv fs l) (ht : l.chain t ≠ []) :
    nodeLen t fs = .ok ((Fuse.first (fs.nodeAt t)).length +
      (cellsOf (extentsOf fs (chainOf fs t)).tail).length) fs := by
  have hes := h.extentsOf_chain ht
  rw [nodeLen_run (h.object t ht).chain (fun _ hc => h.within hc) ht (h.fuel t), ← h.chainOf_eq ht, length_cellsOf]
  rw [hes, List.map_cons, List.sum_cons, List.tail_cons]

theorem getattr_run (h : Inv fs l) (ht : l.chain t ≠ []) :
    Fuse.getattr t fs = .ok (Fuse.nodeAttr (t, fs.nodeAt t)) fs := by
  rw [Fuse.getattr, bind_ok (node_run (h.within_head ht))]
  rfl

/-- The front ends agree on the files that are stored in one extent, and on no others. -/
theorem frontEndsAgree_iff (h : Inv fs l) (ht : l.chain t ≠ []) :
    FrontEndsAgree fs t ↔ InFirstExtent fs t := by
  have hlen := h.nodeLen_first ht
  have hes := h.extentsOf_chain ht
  constructor
  · rintro ⟨attr, stat, hattr, -, -, hsize, -⟩
    obtain rfl : Fuse.nodeAttr (t, fs.nodeAt t) = attr := by
      rw [h.getattr_run ht] at hattr
      exact (EStateM.Result.ok.inj hattr).1
    rw [hsize] at hlen
    have hfirst : (Fuse.nodeAttr (t, fs.nodeAt t)).size = (Fuse.first (fs.nodeAt t)).length := rfl
    have hnil : cellsOf (extentsOf fs (chainOf fs t)).tail = [] := by
      have := EStateM.Result.ok.inj hlen
      apply List.eq_nil_of_length_eq_zero
      omega
    exact cellsOf_eq_nil.mp hnil
  · intro hone
    have hnil := cellsOf_eq_nil.mpr hone
    rw [hnil, List.length_nil, Nat.add_zero] at hlen
    have hlt : (Fuse.first (fs.nodeAt t)).length + 511 < 2 ^ 64 := by
      apply h.lengths_lt (h.head_mem ht)
      rw [extents_first fs t]
      exact List.mem_cons_self ..
    have hpk : Packed (extentsOf fs (l.chain t)) := by
      rw [← h.chainOf_eq ht, hes]
      exact ⟨fun hne => (hne hnil).elim, packed_of_nil hnil⟩
    have hcont : (content fs (l.chain t)).length = (Fuse.first (fs.nodeAt t)).length := by
      have := h.nodeLen_eq ht
      rw [hlen, h.contentOf_eq ht] at this
      exact (EStateM.Result.ok.inj this).1.symm
    have hstat : statBlock t fs = .ok ⟨(fs.nodeAt t).mode, (fs.nodeAt t).uid, (fs.nodeAt t).gid,
        (Fuse.first (fs.nodeAt t)).length⟩ fs := by
      rw [statBlock, bind_ok (node_run (h.within_head ht)), bind_ok hlen]
      rfl
    refine ⟨Fuse.nodeAttr (t, fs.nodeAt t), _, h.getattr_run ht, hstat, rfl, hlen, ?_, fun offset buf hoff => ?_⟩
    · rw [Fuse.nodeAttr]
      dsimp only
      rw [wrap64_of_lt hlt]
    · rw [h.readNode_tidy ht hpk (Or.inl (by rw [← length_content h.base.block, hcont]; exact hoff)),
        hcont]
      exact ⟨_, rfl⟩

end Inv

/-- Blocks that join the first extent change no other. -/
theorem insertExtent_joins (h : insertExtent nb rest (e :: es) = some es') (he : 512 ∣ e.length)
    (hstop : nb + rest / 512 < 2 ^ 64) (hes : e.block + e.length / 512 < 2 ^ 64) (hj : Joins nb rest e) :
    es'.tail = es := by
  rw [insertExtent, wrap64_of_lt hstop, wrap64_of_lt hes] at h
  by_cases h0 : e.length = 0
  · rw [if_pos h0] at h
    cases h
    rfl
  rw [if_neg h0] at h
  by_cases hb : rest % 512 = 0 ∧ e.block = nb + rest / 512
  · rw [if_pos hb] at h
    cases h
    rfl
  rw [if_neg hb] at h
  have ha : e.length % 512 = 0 ∧ e.block + e.length / 512 = nb := by
    rcases hj with hj | hj | hj
    · exact (h0 hj).elim
    · exact (hb hj).elim
    · exact ⟨Nat.mod_eq_zero_of_dvd he, by omega⟩
  rw [if_pos ha] at h
  cases h
  rfl

/-- Blocks that do not join the first extent go to another. -/
theorem insertExtent_apart (h : insertExtent nb rest (e :: es) = some es')
    (hstop : nb + rest / 512 < 2 ^ 64) (hes : e.block + e.length / 512 < 2 ^ 64)
    (hj : ¬Joins nb rest e) : insertExtent nb rest es = some es'.tail := by
  rw [insertExtent, wrap64_of_lt hstop, wrap64_of_lt hes] at h
  have h0 : ¬e.length = 0 := fun h0 => hj (Or.inl h0)
  have hb : ¬(rest % 512 = 0 ∧ e.block = nb + rest / 512) := fun hb => hj (Or.inr (Or.inl hb))
  have ha : ¬(e.length % 512 = 0 ∧ e.block + e.length / 512 = nb) :=
    fun ha => hj (Or.inr (Or.inr (by omega)))
  rw [if_neg h0, if_neg hb, if_neg ha] at h
  obtain ⟨r, hr, rfl⟩ := Option.map_eq_some_iff.mp h
  exact hr

/-- Whatever takes up a stretch of blocks is in use. -/
theorem insertExtent_used (h : insertExtent nb rest es = some es') (hpos : 0 < rest) :
    cellsOf es' ≠ [] := by
  obtain ⟨l, e, e', r, rfl, rfl, hp, -⟩ := insertExtent_some h
  intro hnil
  have hz : e'.length = 0 := cellsOf_eq_nil.mp hnil e' (by simp)
  cases hp with
  | empty => exact absurd hz (by dsimp only; omega)
  | before h0 => exact absurd hz (by dsimp only; omega)
  | after h0 => exact absurd hz (by dsimp only; omega)

theorem joins_grown (h : Grown e e') : Joins nb rest e' ↔ Joins nb rest e := by
  obtain ⟨hb, hlo, hhi⟩ := h
  have hc : (e'.length + 511) / 512 = (e.length + 511) / 512 := by omega
  have hz : e'.length = 0 ↔ e.length = 0 := by omega
  rw [Joins, Joins, hb, hc, hz]

/-- A file in one piece stays so exactly if the fresh blocks join it. -/
theorem Ensured.single_iff (h : Ensured fs l t len fs' l') (hinv : Inv fs l)
    (hchain : l.chain t = [t]) (hone : cellsOf (fs.nodeAt t).extents.tail = []) :
    (∀ nb es, 0 < missing fs [t] len →
      takeExtent ((missing fs [t] len + 511) / 512) fs.freeNode.extents = some (nb, es) →
      Joins nb (missing fs [t] len) (Fuse.first (fs.nodeAt t))) ↔
    l'.chain t = [t] ∧ cellsOf (fs'.nodeAt t).extents.tail = [] := by
  obtain ⟨pre, c, fs₁, hcs, hrw, hes, hcase⟩ := h.grown
  obtain ⟨rfl, rfl⟩ : pre = [] ∧ c = t := by
    rw [hchain] at hcs
    cases pre with
    | nil => exact ⟨rfl, by simpa using hcs.symm⟩
    | cons x xs => simp at hcs
  have hmem : c ∈ l.chain c := by simp [hchain]
  have hlt := hinv.lengths_lt hmem
  rw [hchain] at hcase hrw hes
  have hgrown : List.Forall₂ Grown (fs.nodeAt c).extents (fs₁.nodeAt c).extents := by
    obtain ⟨k, hk⟩ := hrw.extents (List.mem_singleton_self c)
    rw [hk]
    exact ensureExtents_grown hlt k
  have hsplit := extents_first fs c
  generalize Fuse.first (fs.nodeAt c) = e at hsplit ⊢
  generalize hr : (fs.nodeAt c).extents.tail = r at hsplit hone
  have hends := hinv.grown_stop_lt hmem hgrown
  rw [hsplit] at hgrown
  cases hx : (fs₁.nodeAt c).extents with
  | nil =>
    rw [hx] at hgrown
    cases hgrown
  | cons e₁ r₁ =>
  rw [hx] at hgrown hends
  have hends := hends e₁ (by simp)
  obtain ⟨hg, hgs⟩ := List.forall₂_cons.mp hgrown
  have hone₁ : cellsOf r₁ = [] := (cellsOf_grown_nil hgs).mpr hone
  rcases hcase with ⟨hz, rfl, rfl⟩ | ⟨hpos, nb, es, htake, happ⟩
  · have hpos : ¬0 < missing fs [c] len := by omega
    rw [hx]
    exact ⟨fun _ => ⟨hchain, hone₁⟩, fun _ _ _ h0 => (hpos h0).elim⟩
  have hal : 512 ∣ e₁.length := by
    have hfill : extentsOf fs₁ [c] = filledUp (extentsOf fs [c]) := by
      have hall : ∀ x ∈ extentsOf fs [c], x.length + 511 < 2 ^ 64 := by
        rw [← hchain]
        exact hinv.extents_lt
      rw [hes, ensureExtents_filledUp hall hpos]
    have hc := filledUp_nodes hfill c (List.mem_singleton_self c)
    rw [hx, hsplit] at hc
    rw [(List.cons.inj hc).1]
    exact Nat.dvd_mul_right ..
  have hcond : (∀ nb es, 0 < missing fs [c] len →
      takeExtent ((missing fs [c] len + 511) / 512) fs.freeNode.extents = some (nb, es) →
      Joins nb (missing fs [c] len) e) ↔ Joins nb (missing fs [c] len) e₁ := by
    rw [joins_grown hg]
    refine ⟨fun hall => hall nb es hpos htake, fun hj nb' es' _ htake' => ?_⟩
    rw [htake] at htake'
    cases htake'
    exact hj
  have hstop := hinv.fresh_stop_lt htake
  rw [hcond]
  generalize missing fs [c] len = rest at hpos happ hstop ⊢
  generalize l'.chain c = cs' at happ ⊢
  cases happ with
  | placed hin _ hc =>
    rw [hx] at hin
    refine ⟨fun hj => ⟨rfl, ?_⟩, fun ⟨_, hnil⟩ => ?_⟩
    · rw [hc, insertExtent_joins hin hal hstop hends hj, hone₁]
    · by_contra hj
      rw [hc] at hnil
      exact insertExtent_used (insertExtent_apart hin hstop hends hj) hpos hnil
  | extended hin =>
    -- a node with an unused extent has room
    have hcount := (nodeAt_valid fs₁ c).count
    rw [hx] at hin hcount
    cases r₁ with
    | nil => cases hcount
    | cons x r₁ =>
      have hblocked := insertExtent_none.mp hin x (by simp)
      exact (hblocked.1 (cellsOf_eq_nil.mp hone₁ x (by simp))).elim

theorem Wrote.single_iff (h : Wrote fs l t len fs' l') (hinv : Inv fs l)
    (hfile : (fs.nodeAt t).isDir = false) (hchain : l.chain t = [t])
    (hone : cellsOf (fs.nodeAt t).extents.tail = []) :
    (∀ nb es, 0 < missing fs [t] len →
      takeExtent ((missing fs [t] len + 511) / 512) fs.freeNode.extents = some (nb, es) →
      Joins nb (missing fs [t] len) (Fuse.first (fs.nodeAt t))) ↔
    l'.chain t = [t] ∧ cellsOf (fs'.nodeAt t).extents.tail = [] := by
  obtain ⟨fs₁, hens, ha⟩ := h.ensured
  have hfile₁ : (fs₁.nodeAt t).isDir = false := (Node.isDir_attrs hens.touches.attrs).trans hfile
  obtain ⟨hnodes, -⟩ := hens.touches.inv.agree_data hfile₁ ha fun x hx => hx
  rw [hnodes t t (hens.touches.inv.head_mem hens.chain_ne_nil)]
  exact hens.single_iff hinv hchain hone

theorem cellsOf_tail_truncate (h : cellsOf es.tail = []) (len : Nat) :
    cellsOf (truncateExtents len es).2.1.tail = [] := by
  cases es with
  | nil => rfl
  | cons e es =>
    rw [List.tail_cons] at h
    rw [truncateExtents]
    split
    · rw [List.tail_cons, cellsOf_truncate, h, List.take_nil]
    · rw [List.tail_cons, cellsOf_truncate, h, List.take_nil]

theorem cellsOf_tail_filledUp (h : cellsOf es.tail = []) : cellsOf (filledUp es).tail = [] := by
  cases es with
  | nil => rfl
  | cons e es => exact (cellsOf_grown_nil (filledUp_grown es)).mpr h

/-- A contiguous call keeps every file in one piece. -/
theorem Outcome.single (h : Outcome fs l op err fs' l') (hinv : Inv fs l) (hl : op.Legal fs)
    (hcon : Contiguous fs op) (hone : AllSingle fs l) : AllSingle fs' l' := by
  intro p hp hfile'
  by_cases hlp : l.chain p = []
  · obtain ⟨hself, hempty⟩ := h.new_head (hinv.target hl) hlp hp
    refine ⟨hself, ?_⟩
    rw [hempty]
    exact cellsOf_replicate 14
  have hfile : (fs.nodeAt p).isDir = false := (h.isDir hinv hlp hp).symm.trans hfile'
  obtain ⟨hchain, htail⟩ := hone p hlp hfile
  by_cases hpt : p = op.target
  · subst hpt
    cases h with
    | refused => exact ⟨hchain, htail⟩
    | created => exact absurd (hl.2.1.symm.trans hfile) (by decide)
    | unnamed => exact absurd (hl.2.1.symm.trans hfile) (by decide)
    | removed => exact absurd (hl.2.symm.trans hfile) (by decide)
    | unsplit => exact absurd (hl.2.symm.trans hfile) (by decide)
    | @wrote t offset buf _ _ h =>
      have hjoin := hcon.2
      dsimp only [Op.target] at hjoin hchain htail ⊢
      rw [hinv.chainOf_eq (p := t) hlp, hchain] at hjoin
      exact (h.single_iff hinv hfile hchain htail).mp hjoin
    | @filled t offset buf _ h =>
      refine ⟨hchain, ?_⟩
      dsimp only [Op.target] at hchain htail ⊢
      rw [h.extents t (by simp [hchain])]
      exact cellsOf_tail_filledUp htail
    | @cut t len _ _ hrw =>
      refine ⟨hchain, ?_⟩
      dsimp only [Op.target] at hchain htail ⊢
      obtain ⟨k, hk⟩ := hrw.extents (show t ∈ l.chain t by simp [hchain])
      rw [hk]
      exact cellsOf_tail_truncate htail k
    | @attr t perm uid gid _ _ _ _ hn =>
      refine ⟨hchain, ?_⟩
      dsimp only [Op.target] at htail ⊢
      rw [hn, Node.setAttr]
      exact htail
  · obtain ⟨hsame, -⟩ := h.other hinv hpt hlp hp
    rw [hsame, (h.other_own hinv hpt hlp hp).1]
    exact ⟨hchain, htail⟩

theorem create_single {disk : Disk} (hsize : disk.size < 2 ^ 64) (hc : create disk = .ok fs) :
    AllSingle fs freshLayout := by
  intro p hp hfile
  have hp1 : p = 1 := by
    by_contra hne
    exact hp (if_neg hne)
  rw [hp1, (create_inv hsize hc).rootDir] at hfile
  cases hfile

/-- Contiguous runs keep the files in one piece each. -/
theorem run_contiguous {disk : Disk} {fs₀ : FileSystem} {ops : List Op} (hsize : disk.size < 2 ^ 64)
    (hc : create disk = .ok fs₀) (hrun : Run (Op.Step Contiguous) fs₀ ops fs) :
    ∃ l, Inv fs l ∧ AllSingle fs l := by
  refine hrun.invariant (I := fun fs => ∃ l, Inv fs l ∧ AllSingle fs l) ?_
    ⟨freshLayout, create_inv hsize hc, create_single hsize hc⟩
  rintro fs op fs' ⟨hl, hcon, err, hr⟩ ⟨l, h, hone⟩
  obtain ⟨l', hout⟩ := h.outcome hl hcon.1 hr
  exact ⟨l', (hout.inv h).1, hout.single h hl hcon hone⟩

theorem AllSingle.inFirstExtent (h : AllSingle fs l) (hinv : Inv fs l) (ht : l.chain t ≠ [])
    (hfile : (fs.nodeAt t).isDir = false) : InFirstExtent fs t := by
  obtain ⟨hchain, htail⟩ := h t ht hfile
  rw [InFirstExtent, hinv.chainOf_eq ht, hchain, extentsOf_cons, extentsOf_nil, List.append_nil]
  exact cellsOf_eq_nil.mp htail

/-- After every contiguous run the two front ends agree on every file; after any safe run they agree
on just those files and directories that are stored in one extent. -/
theorem front_ends_agree {disk : Disk} {fs₀ : FileSystem} {ops : List Op}
    (hsize : disk.size < 2 ^ 64) (hc : create disk = .ok fs₀) :
    (Run (Op.Step Contiguous) fs₀ ops fs →
      ∀ t, Reach fs t → (fs.nodeAt t).isDir = false → FrontEndsAgree fs t) ∧
    (Run (Op.Step Safe) fs₀ ops fs →
      ∀ t, Reach fs t → (FrontEndsAgree fs t ↔ InFirstExtent fs t)) := by
  constructor
  · intro hrun t ht hfile
    obtain ⟨l, h, hone⟩ := run_contiguous hsize hc hrun
    have hlt := h.reach ht
    exact (h.frontEndsAgree_iff hlt).mpr (hone.inFirstExtent h hlt hfile)
  · intro hrun t ht
    obtain ⟨l, h, -⟩ := Reachable.inv ⟨disk, fs₀, ops, hsize, hc, hrun⟩
    exact h.frontEndsAgree_iff (h.reach ht)

/-- A file is made and gets two sectors. -/
theorem front_ends_agree_on_first_write : ∃ fs₀ fs, create (blankDisk 7) = .ok fs₀ ∧
    Run (Op.Step Contiguous) fs₀
      [.createNode plainFile "a" 1, .writeNode 4 0 (List.replicate 600 1)] fs ∧
    Reach fs 4 ∧ FrontEndsAgree fs 4 := by
  have hsize : (blankDisk 7).size < 2 ^ 64 := by decide
  obtain ⟨fs₀, hc⟩ := create_ok (show 4 * 512 ≤ (blankDisk 7).size by decide)
  have hinv₀ := create_inv hsize hc
  have hm : plainFile < 2 ^ 16 := by decide
  obtain ⟨fs₁, l, hok, -, hfirst⟩ := first_node (n := 7) "a" rfl (by omega) (by omega) hc hm
  have hne : l.chain 4 ≠ [] := by simp [hfirst.chain]
  have hfile : (fs₁.nodeAt 4).isDir = false := by
    rw [hfirst.node]
    decide
  have hempty : (fs₁.nodeAt 4).extents = List.replicate 15 Extent.default := by
    rw [hfirst.node]
    rfl
  have hlen : 0 + (List.replicate 600 (1 : UInt8)).length = 600 := by
    rw [List.length_replicate]
  have htake : takeExtent ((600 + 511) / 512) fs₁.freeNode.extents =
      some (5, ⟨7, 0⟩ :: List.replicate 14 Extent.default) := by
    rw [hfirst.free]
    decide
  obtain ⟨fs, l', hok', hwrote, hchain, -, -, -⟩ := hfirst.inv.writeNode_first hlen hfirst.chain
    hfile hempty (by omega) (by omega) htake
  have hstep₁ : Op.Step Contiguous fs₀ (.createNode plainFile "a" 1) fs₁ :=
    ⟨⟨hinv₀.reach_root, hinv₀.rootDir, hm⟩, ⟨trivial, trivial⟩, none, .ok (bind_ok hok)⟩
  have hcon : Contiguous fs₁ (.writeNode 4 0 (List.replicate 600 1)) := by
    refine ⟨?_, fun nb es _ _ => Or.inl ?_⟩
    · rw [Safe, hlen, wrap64_of_lt (by omega), hfirst.inv.chainOf_eq hne, hfirst.chain,
        missing_empty hempty (by omega)]
      omega
    · rw [Fuse.first, hempty]
      rfl
  have hstep₂ : Op.Step Contiguous fs₁ (.writeNode 4 0 (List.replicate 600 1)) fs :=
    ⟨⟨hfirst.reach, hfile, by omega, by rw [List.length_replicate]; omega⟩, hcon, none,
      .ok (bind_ok hok')⟩
  have hrun := Run.cons hstep₁ (.cons hstep₂ .nil)
  have hroot : l'.chain 1 = [1] := (hwrote.touches.chain 1 (by omega)).trans hfirst.rootChain
  have hreach : Reach fs 4 := by
    refine hwrote.touches.inv.reach_listed hroot ?_
    rw [hwrote.touches.agree.nodeAt (hfirst.inv.domain_disjoint (show 1 ≠ 4 by omega)
      (mem_own_of_chain (by simp [hfirst.rootChain]))), hfirst.root]
    exact List.mem_append_left _ (by decide)
  refine ⟨fs₀, fs, hc, hrun, hreach, ?_⟩
  exact (front_ends_agree hsize hc).1 hrun 4 hreach
    ((Node.isDir_attrs hwrote.touches.attrs).trans hfile)

/-- A file gets a sector, another file is made behind it, and the first gets another sector: it is
1024 bytes long, and the FUSE front end says 512. -/
theorem front_ends_differ_after_second_write : ∃ fs₀ fs, create (blankDisk 8) = .ok fs₀ ∧
    Run (Op.Step Safe) fs₀ [.createNode plainFile "a" 1, .writeNode 4 0 (List.replicate 512 1),
      .createNode plainFile "b" 1, .writeNode 4 512 (List.replicate 512 2)] fs ∧
    Reach fs 4 ∧ (fs.nodeAt 4).isDir = false ∧ ¬FrontEndsAgree fs 4 := by
  have hsize : (blankDisk 8).size < 2 ^ 64 := by decide
  obtain ⟨fs₀, hc⟩ := create_ok (show 4 * 512 ≤ (blankDisk 8).size by decide)
  have hinv₀ := create_inv hsize hc
  have hm : plainFile < 2 ^ 16 := by decide
  obtain ⟨fs₁, l₁, hok₁, -, hfirst⟩ := first_node (n := 8) "a" rfl (by omega) (by omega) hc hm
  have hne₁ : l₁.chain 4 ≠ [] := by simp [hfirst.chain]
  have hfile₁ : (fs₁.nodeAt 4).isDir = false := by
    rw [hfirst.node]
    decide
  have hempty : (fs₁.nodeAt 4).extents = List.replicate 15 Extent.default := by
    rw [hfirst.node]
    rfl
  have hlen₂ : 0 + (List.replicate 512 (1 : UInt8)).length = 512 := by
    rw [List.length_replicate]
  have htake₂ : takeExtent ((512 + 511) / 512) fs₁.freeNode.extents =
      some (5, ⟨6, 1024⟩ :: List.replicate 14 Extent.default) := by
    rw [hfirst.free]
    decide
  obtain ⟨fs₂, l₂, hok₂, hwrote₂, hchain₂, hfree₂, hext₂, -⟩ :=
    hfirst.inv.writeNode_first hlen₂ hfirst.chain hfile₁ hempty (by omega) (by omega) htake₂
  have hinv₂ := hwrote₂.touches.inv
  have hfile₂ := (Node.isDir_attrs hwrote₂.touches.attrs).trans hfile₁
  have hroot₂ : l₂.chain 1 = [1] := (hwrote₂.touches.chain 1 (by omega)).trans hfirst.rootChain
  have hrootext₂ : (fs₂.nodeAt 1).extents = ⟨4, 512⟩ :: List.replicate 14 Extent.default := by
    rw [hwrote₂.touches.agree.nodeAt (hfirst.inv.domain_disjoint (show 1 ≠ 4 by omega)
      (mem_own_of_chain (by simp [hfirst.rootChain]))), hfirst.root]
  have hname₂ : (fs₂.nodeAt 4).nameStr = some "a" := by
    rw [Node.nameStr_attrs hwrote₂.touches.attrs, hfirst.node]
    exact Node.nameStr_new (by decide) (by decide)
  have hlist₂ : listing fs₂ (l₂.chain 1) = [4] := by
    rw [hroot₂, listing_cons, listing_nil, hrootext₂]
    decide
  have habsent : RedoxFs.lookup fs₂ "b" (listing fs₂ (l₂.chain 1)) = none := by
    rw [hlist₂, RedoxFs.lookup]
    simp [hname₂]
  have htake₃ : takeExtent 1 fs₂.freeNode.extents =
      some (6, ⟨7, 512⟩ :: List.replicate 14 Extent.default) := by
    rw [hfree₂]
    decide
  have hins₃ : insertExtent 6 512 (fs₂.nodeAt 1).extents =
      some (⟨4, 512⟩ :: ⟨6, 512⟩ :: List.replicate 13 Extent.default) := by
    rw [hrootext₂]
    decide
  obtain ⟨fs₃, l₃, hok₃, hcreated, hroot₃, hfree₃, hrootn₃, hag₃⟩ := hinv₂.createNode_short "b"
    hinv₂.rootChain hinv₂.rootDir hm habsent htake₃ hins₃ ⟨rfl, by decide⟩
  have hinv₃ := hcreated.inv
  have hchain₃ : l₃.chain 4 = [4] := (hcreated.chain 4 (by omega) (by omega)).trans hchain₂
  have hne₃ : l₃.chain 4 ≠ [] := by simp [hchain₃]
  have hn₃ : fs₃.nodeAt 4 = fs₂.nodeAt 4 := hag₃.nodeAt (by omega)
  have hext₃ : (fs₃.nodeAt 4).extents = ⟨5, 512⟩ :: List.replicate 14 Extent.default := by
    rw [hn₃, hext₂]
  have hfile₃ : (fs₃.nodeAt 4).isDir = false := by
    rw [hn₃, hfile₂]
  have hreach₃ : Reach fs₃ 4 := by
    refine hinv₃.reach_listed (hroot₃.trans hroot₂) ?_
    rw [hrootn₃]
    exact List.mem_append_left _ (by decide)
  have hm₃ : missing fs₃ [4] 1024 = 512 := by
    rw [missing, extentsOf_cons, extentsOf_nil, List.append_nil, hext₃]
    decide
  have hlen₄ : 512 + (List.replicate 512 (2 : UInt8)).length = 1024 := by
    rw [List.length_replicate]
  have htake₄ : takeExtent 1 fs₃.freeNode.extents =
      some (7, ⟨8, 0⟩ :: List.replicate 14 Extent.default) := by
    rw [hfree₃]
    decide
  have hins₄ : insertExtent 7 512 (filledUp (fs₃.nodeAt 4).extents) =
      some (⟨5, 512⟩ :: ⟨7, 512⟩ :: List.replicate 13 Extent.default) := by
    rw [hext₃]
    decide
  obtain ⟨fs₄, l₄, hok₄, hens, hchain₄, -, hnode₄, -⟩ := hinv₃.nodeEnsureLen_short hchain₃ hfile₃
    (by rw [hm₃]; omega) (by rw [hm₃]; omega) (by rw [hm₃]; exact htake₄) (by rw [hm₃]; exact hins₄)
    ⟨rfl, by decide⟩
  have hfile₄ : (fs₄.nodeAt 4).isDir = false := (Node.isDir_attrs hens.touches.attrs).trans hfile₃
  have hes₄ : extentsOf fs₄ (l₄.chain 4) =
      ⟨5, 512⟩ :: ⟨7, 512⟩ :: List.replicate 13 Extent.default := by
    rw [hchain₄, extentsOf_cons, extentsOf_nil, List.append_nil, hnode₄]
  have hpk : Packed (extentsOf fs₄ (l₄.chain 4)) := by
    rw [hes₄]
    exact ⟨fun _ => by decide, fun hc => (hc (cellsOf_replicate 13)).elim,
      packed_of_nil (cellsOf_replicate 13)⟩
  have hcont₄ : (content fs₄ (l₄.chain 4)).length = 1024 := by
    rw [length_content hens.touches.inv.base.block, fileCells, hes₄, length_cellsOf]
    decide
  obtain ⟨fs, hrun₅, ha, hnodes, -⟩ := hens.touches.inv.writeBytes_content 512
    (List.replicate 512 2) hens.chain_ne_nil hfile₄ hpk (by rw [hcont₄, hlen₄])
  have hwrote := hens.wrote hfile₃ ha
  have hinv := hwrote.touches.inv
  have hw : writeNode 4 512 (List.replicate 512 2) fs₃ =
      .ok (List.replicate 512 (2 : UInt8)).length fs := by
    rw [writeNode_eq, hlen₄, wrap64_of_lt (by omega), bind_ok hok₄, hrun₅]
  have hstep₁ : Op.Step Safe fs₀ (.createNode plainFile "a" 1) fs₁ :=
    ⟨⟨hinv₀.reach_root, hinv₀.rootDir, hm⟩, trivial, none, .ok (bind_ok hok₁)⟩
  have hstep₂ : Op.Step Safe fs₁ (.writeNode 4 0 (List.replicate 512 1)) fs₂ := by
    refine ⟨⟨hfirst.reach, hfile₁, by omega, by rw [List.length_replicate]; omega⟩, ?_, none,
      .ok (bind_ok hok₂)⟩
    rw [Safe, hlen₂, wrap64_of_lt (by omega), hfirst.inv.chainOf_eq hne₁, hfirst.chain,
      missing_empty hempty (by omega)]
    omega
  have hstep₃ : Op.Step Safe fs₂ (.createNode plainFile "b" 1) fs₃ :=
    ⟨⟨hinv₂.reach_root, hinv₂.rootDir, hm⟩, trivial, none, .ok (bind_ok hok₃)⟩
  have hstep₄ : Op.Step Safe fs₃ (.writeNode 4 512 (List.replicate 512 2)) fs := by
    refine ⟨⟨hreach₃, hfile₃, by omega, by rw [List.length_replicate]; omega⟩, ?_, none,
      .ok (bind_ok hw)⟩
    rw [Safe, hlen₄, wrap64_of_lt (by omega), hinv₃.chainOf_eq hne₃, hchain₃, hm₃]
    omega
  have hreach : Reach fs 4 := by
    have hroot₅ : l₄.chain 1 = [1] := (hens.touches.chain 1 (by omega)).trans (hroot₃.trans hroot₂)
    refine hinv.reach_listed hroot₅ ?_
    rw [hwrote.touches.agree.nodeAt (hinv₃.domain_disjoint (show 1 ≠ 4 by omega)
      (mem_own_of_chain (by simp [hroot₃, hroot₂]))), hrootn₃]
    exact List.mem_append_left _ (by decide)
  refine ⟨fs₀, fs, hc, .cons hstep₁ (.cons hstep₂ (.cons hstep₃ (.cons hstep₄ .nil))), hreach,
    (Node.isDir_attrs hwrote.touches.attrs).trans hfile₃, fun hagree => ?_⟩
  have hone := (hinv.frontEndsAgree_iff hens.chain_ne_nil).mp hagree
  have hsame : extentsOf fs (l₄.chain 4) = extentsOf fs₄ (l₄.chain 4) :=
    extentsOf_congr fun c hc => by rw [hnodes 4 c hc]
  rw [InFirstExtent, hinv.chainOf_eq hens.chain_ne_nil, hsame, hes₄] at hone
  exact absurd (hone ⟨7, 512⟩ (by simp)) (by decide)

end Origel.RedoxFs
