import Origel.Lib.Ownership
import Origel.RedoxFs.Walk

/-! Who owns which block: the invariant behind exclusive ownership, and the moves that keep it. -/
namespace Origel.RedoxFs

open Origel.Lib FileSystem

variable {fs fs' : FileSystem} {b c p t : Nat} {n : Node} {cs held' pre : List Nat}
  {es : List Extent}

/-- The owners of blocks: an object is a file or a directory, known by its first block. -/
inductive Owner where
  | reserved
  | free
  | held
  | object (head : Nat)

/-- The node chain of each object, and the blocks in the caller's hands. -/
structure Layout where
  chain : Nat → List Nat
  held : List Nat

/-- An object gets another chain. -/
def Layout.set (l : Layout) (h : Nat) (cs held : List Nat) : Layout :=
  ⟨Function.update l.chain h cs, held⟩

variable {l : Layout}

@[simp] theorem Layout.set_held (h : Nat) (cs held : List Nat) : (l.set h cs held).held = held := rfl

@[simp] theorem Layout.set_chain_self (h : Nat) (cs held : List Nat) :
    (l.set h cs held).chain h = cs := Function.update_self ..

theorem Layout.set_chain_ne {h k : Nat} {cs held : List Nat} (hk : k ≠ h) :
    (l.set h cs held).chain k = l.chain k := Function.update_of_ne hk ..

/-- The blocks listed along a chain. -/
def listing (fs : FileSystem) (cs : List Nat) : List Nat := spans (extentsOf fs cs)

/-- A file owns what it lists; a directory only names it. -/
def own (fs : FileSystem) (l : Layout) : Owner → List Nat
  | .reserved => [0, 2, 3]
  | .free => spans fs.freeNode.extents
  | .held => l.held
  | .object h => l.chain h ++ if (fs.nodeAt h).isDir then [] else listing fs (l.chain h)

def entries (fs : FileSystem) (l : Layout) (h : Nat) : List Nat :=
  if (fs.nodeAt h).isDir then listing fs (l.chain h) else []

/-- The fixed places, and a free list in one node. -/
structure Base (fs : FileSystem) : Prop where
  block : fs.block = 0
  root : fs.header.2.root = 1
  free : fs.header.2.free = 2
  size : fs.disk.size < 2 ^ 64
  next : (fs.nodeAt 2).next = 0
  fits : ∀ e ∈ (fs.nodeAt 2).extents, e.Fits fs.disk.size

/-- A file or directory from its first block on; a directory lists whole sectors. -/
structure Object (fs : FileSystem) (h : Nat) (cs : List Nat) : Prop where
  chain : Chain fs.nodeAt h cs
  fits : ∀ c ∈ cs, ∀ e ∈ (fs.nodeAt c).extents, e.Fits fs.disk.size
  aligned : (fs.nodeAt h).isDir = true → ∀ c ∈ cs, ∀ e ∈ (fs.nodeAt c).extents, 512 ∣ e.length

structure Inv (fs : FileSystem) (l : Layout) : Prop where
  base : Base fs
  object : ∀ h, l.chain h ≠ [] → Object fs h (l.chain h)
  rootChain : l.chain 1 ≠ []
  rootDir : (fs.nodeAt 1).isDir = true
  inside : ∀ o, o ≠ .free → ∀ b ∈ own fs l o, 512 * b + 512 ≤ fs.disk.size
  exclusive : Exclusive (own fs l)
  listed : Exclusive (entries fs l)
  entryHead : ∀ h, ∀ b ∈ entries fs l h, l.chain b ≠ [] ∧ b ≠ 1

theorem Base.freeNode (h : Base fs) : fs.freeNode = fs.nodeAt 2 := by
  rw [FileSystem.freeNode, h.free]

theorem Base.within (h : Base fs) (hb : 512 * b < fs.disk.size) : fs.Within b := by
  have hsize := h.size
  rw [FileSystem.Within, h.block]
  omega

theorem Base.congr {T : Nat → Prop} (h : Base fs) (ha : Agree T fs fs')
    (hfree : fs'.nodeAt 2 = fs.nodeAt 2) : Base fs' := by
  obtain ⟨h1, h2, h3, h4, h5, h6⟩ := h
  rw [← hfree] at h5 h6
  rw [← ha.size] at h4 h6
  exact ⟨ha.block.trans h1, by rw [ha.header, h2], by rw [ha.header, h3], h4, h5, h6⟩

theorem Object.head_mem (h : Object fs p cs) (hne : cs ≠ []) : p ∈ cs := by
  have hc := h.chain
  cases cs with
  | nil => exact (hne rfl).elim
  | cons c cs =>
    obtain ⟨rfl, -⟩ := hc
    exact List.mem_cons_self

theorem Object.congr (h : Object fs p cs) (hs : fs'.disk.size = fs.disk.size)
    (hn : ∀ c ∈ cs, fs'.nodeAt c = fs.nodeAt c) : Object fs' p cs where
  chain := h.chain.congr fun c hc => by rw [hn c hc]
  fits c hc := by
    rw [hn c hc, hs]
    exact h.fits c hc
  aligned hd c hc := by
    rw [hn p (h.head_mem (List.ne_nil_of_mem hc))] at hd
    rw [hn c hc]
    exact h.aligned hd c hc

theorem mem_listing : b ∈ listing fs cs ↔ ∃ c ∈ cs, b ∈ spans (fs.nodeAt c).extents := by
  simp only [listing, extentsOf, spans, List.mem_flatMap]
  constructor
  · rintro ⟨e, ⟨c, hc, he⟩, hb⟩
    exact ⟨c, hc, e, he, hb⟩
  · rintro ⟨c, hc, e, he, hb⟩
    exact ⟨e, ⟨c, hc, he⟩, hb⟩

@[simp] theorem listing_nil : listing fs [] = [] := rfl

@[simp] theorem listing_cons :
    listing fs (c :: cs) = spans (fs.nodeAt c).extents ++ listing fs cs := spans_append

@[simp] theorem listing_append {cs' : List Nat} :
    listing fs (cs ++ cs') = listing fs cs ++ listing fs cs' := by
  simp [listing, extentsOf]

theorem listing_congr (h : ∀ c ∈ cs, (fs'.nodeAt c).extents = (fs.nodeAt c).extents) :
    listing fs' cs = listing fs cs := by
  rw [listing, listing, extentsOf_congr h]

theorem entries_of_dir (h : (fs.nodeAt p).isDir = true) :
    entries fs l p = listing fs (l.chain p) := by
  simp [entries, h]

theorem own_of_dir (h : (fs.nodeAt p).isDir = true) : own fs l (.object p) = l.chain p := by
  simp [own, h]

theorem own_of_file (h : (fs.nodeAt p).isDir = false) :
    own fs l (.object p) = l.chain p ++ listing fs (l.chain p) := by
  simp [own, h]

theorem chain_of_entry (hb : b ∈ entries fs l p) : l.chain p ≠ [] := by
  intro hnil
  rw [entries, hnil, listing_nil, ite_self] at hb
  cases hb

theorem chain_of_own (hb : b ∈ own fs l (.object p)) : l.chain p ≠ [] := by
  intro hnil
  rw [own, hnil, listing_nil, ite_self] at hb
  cases hb

theorem own_free : own fs l .free = spans fs.freeNode.extents := rfl

theorem own_free_congr {l' : Layout} (h : fs'.freeNode = fs.freeNode) :
    own fs' l' .free = own fs l .free := by
  simp only [own, h]

theorem mem_own_of_chain (h : c ∈ l.chain p) : c ∈ own fs l (.object p) :=
  List.mem_append_left _ h

namespace Inv

theorem head_mem (h : Inv fs l) (hp : l.chain p ≠ []) : p ∈ l.chain p :=
  (h.object p hp).head_mem hp

theorem chain_ne_two (h : Inv fs l) (hc : c ∈ l.chain p) : c ≠ 2 := by
  rintro rfl
  have hr : 2 ∈ own fs l .reserved := by simp [own]
  cases h.exclusive.disjoint _ _ 2 hr (mem_own_of_chain hc)

theorem chain_disjoint (h : Inv fs l) (hc : c ∈ l.chain p) (hc' : c ∈ l.chain t) : p = t := by
  have he := h.exclusive.disjoint _ _ c (mem_own_of_chain hc) (mem_own_of_chain (p := t) hc')
  simpa using he

theorem nodup_chain (h : Inv fs l) (p : Nat) : (l.chain p).Nodup :=
  (List.nodup_append.mp (h.exclusive.nodup (.object p))).1

theorem chain_inside (h : Inv fs l) (hc : c ∈ l.chain p) : 512 * c + 512 ≤ fs.disk.size :=
  h.inside (.object p) (by simp) c (mem_own_of_chain hc)

theorem within (h : Inv fs l) (hc : c ∈ l.chain p) : fs.Within c := by
  have := h.chain_inside hc
  exact h.base.within (by omega)

theorem within_head (h : Inv fs l) (hp : l.chain p ≠ []) : fs.Within p := h.within (h.head_mem hp)

theorem within_free (h : Inv fs l) : fs.Within fs.header.2.free := by
  have := h.inside .reserved (by simp) 2 (by simp [own])
  rw [h.base.free]
  exact h.base.within (by omega)

theorem listed_lt (h : Inv fs l) (hb : b ∈ listing fs (l.chain p)) : 512 * b < fs.disk.size := by
  obtain ⟨c, hc, hb⟩ := mem_listing.mp hb
  obtain ⟨e, he, hb⟩ := List.mem_flatMap.mp hb
  have hfits := (h.object p (List.ne_nil_of_mem hc)).fits c hc e he
  exact (hfits.mem_span hb).2

theorem within_listed (h : Inv fs l) (hb : b ∈ listing fs (l.chain p)) : fs.Within b :=
  h.base.within (h.listed_lt hb)

/-- The walks along a chain stay on the disk, wherever the extents of its nodes lead. -/
theorem near (h : Inv fs l) (p : Nat) : Near fs (l.chain p) := by
  refine ⟨fun c hc => h.within hc, fun b hb => ?_⟩
  obtain ⟨c, hc, hb⟩ := List.mem_flatMap.mp hb
  obtain ⟨e, he, hb⟩ := List.mem_flatMap.mp hb
  have hfits := (h.object p (List.ne_nil_of_mem hc)).fits c hc e he
  rw [Extent.blocks_eq (hfits.plain h.base.size)] at hb
  obtain ⟨x, hx, rfl⟩ := List.mem_map.mp hb
  obtain ⟨i, hi, rfl⟩ := List.mem_map.mp (List.mem_of_mem_filter hx)
  have hi := List.mem_range.mp hi
  have hspan : e.block + i ∈ e.span := Extent.mem_span.mpr ⟨Nat.le_add_right _ _, by omega⟩
  exact h.base.within (hfits.mem_span hspan).2

/-- A chain is shorter than the fuel of the walks along it. -/
theorem fuel (h : Inv fs l) (p : Nat) : (l.chain p).length < fs.fuel := by
  have hsub : (l.chain p).Subperm (List.range (fs.disk.size / 512)) := by
    apply List.subperm_of_subset (h.nodup_chain p)
    intro c hc
    have := h.chain_inside hc
    rw [List.mem_range]
    omega
  have hlen := hsub.length_le
  rw [List.length_range] at hlen
  unfold FileSystem.fuel
  omega

/-- An object whose nodes are untouched owns and names the same blocks. -/
theorem own_object (h : Inv fs l) (l' : Layout) (hc : l'.chain p = l.chain p)
    (hn : ∀ c ∈ l.chain p, fs'.nodeAt c = fs.nodeAt c) :
    own fs' l' (.object p) = own fs l (.object p) ∧ entries fs' l' p = entries fs l p := by
  have hl : listing fs' (l.chain p) = listing fs (l.chain p) :=
    listing_congr fun c hc => by rw [hn c hc]
  by_cases hp : l.chain p = []
  · simp [own, entries, hp, hc]
  · simp only [own, entries, hl, hc, hn p (h.head_mem hp)]
    exact ⟨trivial, trivial⟩

/-- One object and the caller's hands exchange blocks, and the object may name fresh ones. -/
theorem update {T : Nat → Prop} {l' : Layout} (h : Inv fs l) (xs : List Nat) (ha : Agree T fs fs')
    (hfree : ¬T 2)
    (hother : ∀ p, p ≠ t → l'.chain p = l.chain p ∧ ∀ c ∈ l.chain p, ¬T c)
    (hobj : l'.chain t ≠ [] → Object fs' t (l'.chain t))
    (hroot : t = 1 → l'.chain 1 ≠ [] ∧ (fs'.nodeAt 1).isDir = true)
    (hown : (own fs' l' (.object t) ++ l'.held).Subperm (own fs l (.object t) ++ l.held))
    (hx : xs.Nodup)
    (hfresh : ∀ x ∈ xs, (∀ p, x ∉ entries fs l p) ∧ l'.chain x ≠ [] ∧ x ≠ 1)
    (hent : (entries fs' l' t).Subperm (xs ++ entries fs l t))
    (hkeep : l'.chain t = [] → ∀ p, t ∉ entries fs l p) : Inv fs' l' := by
  have hn : ∀ p, p ≠ t → ∀ c ∈ l.chain p, fs'.nodeAt c = fs.nodeAt c :=
    fun p hp c hc => ha.nodeAt ((hother p hp).2 c hc)
  have hf : fs'.nodeAt 2 = fs.nodeAt 2 := ha.nodeAt hfree
  have hsame : ∀ p, p ≠ t → own fs' l' (.object p) = own fs l (.object p) ∧
      entries fs' l' p = entries fs l p := fun p hp => h.own_object _ (hother p hp).1 (hn p hp)
  have hfs : own fs' l' .free = own fs l .free := by
    simp only [own, h.base.freeNode, (h.base.congr ha hf).freeNode, hf]
  constructor
  case base => exact h.base.congr ha hf
  case object =>
    intro p hp
    by_cases hpt : p = t
    · rw [hpt] at hp ⊢
      exact hobj hp
    · rw [(hother p hpt).1] at hp ⊢
      exact (h.object p hp).congr ha.size (hn p hpt)
  case rootChain =>
    by_cases h1 : t = 1
    · exact (hroot h1).1
    · rw [(hother 1 (Ne.symm h1)).1]
      exact h.rootChain
  case rootDir =>
    by_cases h1 : t = 1
    · exact (hroot h1).2
    · rw [hn 1 (Ne.symm h1) 1 (h.head_mem h.rootChain)]
      exact h.rootDir
  case inside =>
    have both : ∀ b, b ∈ own fs' l' (.object t) ++ l'.held → 512 * b + 512 ≤ fs.disk.size := by
      intro b hb
      rcases List.mem_append.mp (hown.subset hb) with hb | hb
      · exact h.inside (.object t) (by simp) b hb
      · exact h.inside .held (by simp) b hb
    intro o ho b hb
    rw [ha.size]
    cases o with
    | reserved => exact h.inside .reserved (by simp) b hb
    | free => exact (ho rfl).elim
    | held => exact both b (List.mem_append_right _ hb)
    | object p =>
      by_cases hpt : p = t
      · rw [hpt] at hb
        exact both b (List.mem_append_left _ hb)
      · rw [(hsame p hpt).1] at hb
        exact h.inside (.object p) (by simp) b hb
  case exclusive =>
    refine h.exclusive.move (i := .object t) (j := .held) (by simp) hown ?_
    intro o ht hh
    cases o with
    | reserved => rfl
    | free => exact hfs
    | held => exact (hh rfl).elim
    | object p => exact (hsame p fun hp => ht (by rw [hp])).1
  case listed =>
    exact h.listed.add hx (fun x hx => (hfresh x hx).1) hent fun p hp => (hsame p hp).2
  case entryHead =>
    have old : ∀ p b, b ∈ entries fs l p → l'.chain b ≠ [] ∧ b ≠ 1 := by
      intro p b hb
      obtain ⟨hc, h1⟩ := h.entryHead p b hb
      refine ⟨?_, h1⟩
      by_cases hbt : b = t
      · intro hnil
        rw [hbt] at hnil hb
        exact hkeep hnil p hb
      · rw [(hother b hbt).1]
        exact hc
    intro p b hb
    by_cases hpt : p = t
    · rw [hpt] at hb
      rcases List.mem_append.mp (hent.subset hb) with hb | hb
      · exact (hfresh b hb).2
      · exact old t b hb
    · rw [(hsame p hpt).2] at hb
      exact old p b hb

theorem chain_two (h : Inv fs l) : l.chain 2 = [] := by
  by_contra hne
  exact h.chain_ne_two (h.head_mem hne) rfl

/-- A write outside the chains and the free node. -/
theorem congr {T : Nat → Prop} (h : Inv fs l) (ha : Agree T fs fs') (hfree : ¬T 2)
    (hT : ∀ p, ∀ c ∈ l.chain p, ¬T c) : Inv fs' l := by
  have hsame := h.own_object (p := 2) l rfl fun c hc => ha.nodeAt (hT 2 c hc)
  refine h.update (t := 2) [] ha hfree (fun p _ => ⟨rfl, hT p⟩) ?_ (by simp) ?_ List.nodup_nil
    (by simp) ?_ ?_
  · intro hne
    exact (hne h.chain_two).elim
  · rw [hsame.1]
  · rw [hsame.2, List.nil_append]
  · intro _ p hp
    exact (h.entryHead p 2 hp).1 h.chain_two

/-- The caller forgets blocks. -/
theorem forget (h : Inv fs l) (hs : held'.Subperm l.held) : Inv fs { l with held := held' } := by
  have hc := h.chain_two
  refine h.update (t := 2) [] (Agree.refl (fun _ => False) fs) (by simp)
    (fun p _ => ⟨rfl, by simp⟩) ?_ (by simp) ?_ List.nodup_nil (by simp) ?_ ?_
  · intro hne
    exact (hne hc).elim
  · simpa [own, hc] using hs
  · rw [List.nil_append]
    exact List.Subperm.refl _
  · intro _ p hp
    exact (h.entryHead p 2 hp).1 hc

/-- The nodes of a file are rewritten: it trades listed blocks with the caller. -/
theorem rewriteFile (h : Inv fs l) (held' : List Nat) (hne : l.chain t ≠ []) (hfile : (fs.nodeAt t).isDir = false)
    (ha : Agree (· ∈ l.chain t) fs fs')
    (hnext : ∀ c ∈ l.chain t, (fs'.nodeAt c).next = (fs.nodeAt c).next)
    (hfile' : (fs'.nodeAt t).isDir = false)
    (hfits : ∀ c ∈ l.chain t, ∀ e ∈ (fs'.nodeAt c).extents, e.Fits fs.disk.size)
    (hmove : (listing fs' (l.chain t) ++ held').Subperm (listing fs (l.chain t) ++ l.held)) :
    Inv fs' { l with held := held' } := by
  refine h.update (t := t) [] ha (fun h2 => h.chain_ne_two h2 rfl) ?_ ?_ ?_ ?_ List.nodup_nil
    (by simp) ?_ ?_
  · intro p hp
    exact ⟨rfl, fun c hc hct => hp (h.chain_disjoint hc hct)⟩
  · intro _
    refine ⟨(h.object t hne).chain.congr hnext, ?_, ?_⟩
    · rw [ha.size]
      exact hfits
    · intro hd
      rw [hfile'] at hd
      cases hd
  · intro h1
    rw [h1, h.rootDir] at hfile
    cases hfile
  · rw [own_of_file hfile', own_of_file hfile, List.append_assoc, List.append_assoc]
    exact (List.subperm_append_left _).mpr hmove
  · simp [entries, hfile', hfile]
  · intro hnil
    exact (hne hnil).elim

/-- The nodes of a directory are rewritten: it may drop names and take fresh ones. -/
theorem rewriteDir (h : Inv fs l) (xs : List Nat) (hne : l.chain t ≠ [])
    (hdir : (fs.nodeAt t).isDir = true) (ha : Agree (· ∈ l.chain t) fs fs')
    (hnext : ∀ c ∈ l.chain t, (fs'.nodeAt c).next = (fs.nodeAt c).next)
    (hdir' : (fs'.nodeAt t).isDir = true)
    (hfits : ∀ c ∈ l.chain t, ∀ e ∈ (fs'.nodeAt c).extents, e.Fits fs.disk.size ∧ 512 ∣ e.length)
    (hx : xs.Nodup) (hfresh : ∀ x ∈ xs, (∀ p, x ∉ entries fs l p) ∧ l.chain x ≠ [] ∧ x ≠ 1)
    (hmove : (listing fs' (l.chain t)).Subperm (xs ++ listing fs (l.chain t))) : Inv fs' l := by
  refine h.update (t := t) xs ha (fun h2 => h.chain_ne_two h2 rfl) ?_ ?_ ?_ ?_ hx hfresh ?_ ?_
  · intro p hp
    exact ⟨rfl, fun c hc hct => hp (h.chain_disjoint hc hct)⟩
  · intro _
    refine ⟨(h.object t hne).chain.congr hnext, ?_, ?_⟩
    · rw [ha.size]
      exact fun c hc e he => (hfits c hc e he).1
    · exact fun _ c hc e he => (hfits c hc e he).2
  · rintro rfl
    exact ⟨hne, hdir'⟩
  · rw [own_of_dir hdir', own_of_dir hdir]
  · rw [entries_of_dir hdir', entries_of_dir hdir]
    exact hmove
  · intro hnil
    exact (hne hnil).elim

/-- Editing the free list leaves the objects alone. -/
theorem own_setFree (h : Inv fs l) (l' : Layout) (hv : ValidExtents es) (hc : l'.chain p = l.chain p) :
    own (fs.setExtents 2 es) l' (.object p) = own fs l (.object p) ∧
      entries (fs.setExtents 2 es) l' p = entries fs l p := by
  have ha : Agree (· = 2) fs (fs.setExtents 2 es) := Agree.setExtents hv rfl
  exact h.own_object _ hc fun c hc => ha.nodeAt (h.chain_ne_two hc)

/-- The free list and the caller exchange blocks. -/
theorem setFree (h : Inv fs l) (hv : ValidExtents es) (hfits : ∀ e ∈ es, e.Fits fs.disk.size)
    (hmove : (spans es ++ held').Subperm (spans fs.freeNode.extents ++ l.held))
    (hin : ∀ b ∈ held', 512 * b + 512 ≤ fs.disk.size) :
    Inv (fs.setExtents 2 es) { l with held := held' } := by
  have ha : Agree (· = 2) fs (fs.setExtents 2 es) := Agree.setExtents hv rfl
  have hn : ∀ p, ∀ c ∈ l.chain p, (fs.setExtents 2 es).nodeAt c = fs.nodeAt c :=
    fun p c hc => ha.nodeAt (h.chain_ne_two hc)
  have h2 : (fs.setExtents 2 es).nodeAt 2 = { fs.nodeAt 2 with extents := es } := by
    rw [nodeAt_setExtents hv, Function.update_self]
  have hsame := fun p => h.own_setFree { l with held := held' } (p := p) hv rfl
  have hb := h.base
  have hbase : Base (fs.setExtents 2 es) :=
    ⟨hb.block, hb.root, hb.free, hb.size, by rw [h2]; exact hb.next, by rw [h2]; exact hfits⟩
  constructor
  case base => exact hbase
  case object =>
    intro p hp
    exact (h.object p hp).congr ha.size (hn p)
  case rootChain => exact h.rootChain
  case rootDir =>
    rw [hn 1 1 (h.head_mem h.rootChain)]
    exact h.rootDir
  case inside =>
    intro o ho b hb
    cases o with
    | reserved => exact h.inside .reserved (by simp) b hb
    | free => exact (ho rfl).elim
    | held => exact hin b hb
    | object p =>
      rw [(hsame p).1] at hb
      exact h.inside (.object p) (by simp) b hb
  case exclusive =>
    refine h.exclusive.move (i := .free) (j := .held) (by simp) ?_ ?_
    · simpa only [own, hbase.freeNode, h2] using hmove
    · intro o hf hh
      cases o with
      | reserved => rfl
      | free => exact (hf rfl).elim
      | held => exact (hh rfl).elim
      | object p => exact (hsame p).1
  case listed =>
    have he : entries (fs.setExtents 2 es) { l with held := held' } = entries fs l :=
      funext fun p => (hsame p).2
    rw [he]
    exact h.listed
  case entryHead =>
    intro p b hb
    rw [(hsame p).2] at hb
    exact h.entryHead p b hb

theorem held_unowned (h : Inv fs l) (hb : b ∈ l.held) : l.chain b = [] ∧ ∀ p, b ∉ l.chain p := by
  have hno : ∀ p, b ∉ l.chain p := by
    intro p hc
    have hh : b ∈ own fs l .held := hb
    cases h.exclusive.disjoint _ _ b hh (mem_own_of_chain hc)
  refine ⟨?_, hno⟩
  by_contra hne
  exact hno b (h.head_mem hne)

theorem held_bounds (h : Inv fs l) (hb : b ∈ l.held) : b ≠ 0 ∧ b ≠ 2 ∧ b < 2 ^ 64 := by
  have hin := h.inside .held (by simp) b hb
  have hsize := h.base.size
  have hno : b ∉ own fs l .reserved := by
    intro hr
    have hh : b ∈ own fs l .held := hb
    cases h.exclusive.disjoint _ _ b hh hr
  refine ⟨?_, ?_, by omega⟩
  · rintro rfl
    exact hno (by simp [own])
  · rintro rfl
    exact hno (by simp [own])

/-- Linking a block in hand keeps all but the `next` of the old nodes, and lists nothing new. -/
theorem link_nodes (h : Inv fs l) (hc : c ∈ l.chain t) (hb : b ∈ l.held) :
    (fs.link c b).nodeAt b = Node.default ∧
      (fs.link c b).nodeAt c = { fs.nodeAt c with next := b } ∧
      Agree (fun x => x = c ∨ x = b) fs (fs.link c b) := by
  obtain ⟨-, -, hlt⟩ := h.held_bounds hb
  have hbc : c ≠ b := fun he => (h.held_unowned hb).2 t (he ▸ hc)
  refine ⟨?_, ?_, Agree.link hlt ⟨Or.inl rfl, Or.inr rfl⟩⟩
  · rw [nodeAt_link hlt, Function.update_self]
  · rw [nodeAt_link hlt, Function.update_of_ne hbc, Function.update_self]

theorem link_old (h : Inv fs l) (hc : c ∈ l.chain t) (hb : b ∈ l.held) {d : Nat}
    (hd : d ∈ l.chain t) : ∃ x, (fs.link c b).nodeAt d = { fs.nodeAt d with next := x } := by
  obtain ⟨-, hnc, ha⟩ := h.link_nodes hc hb
  by_cases hdc : d = c
  · rw [hdc]
    exact ⟨b, hnc⟩
  · refine ⟨(fs.nodeAt d).next, ha.nodeAt ?_⟩
    rintro (he | rfl)
    · exact hdc he
    · exact (h.held_unowned hb).2 t hd

theorem link_extents (h : Inv fs l) (hc : c ∈ l.chain t) (hb : b ∈ l.held) {d : Nat}
    (hd : d ∈ l.chain t) : ((fs.link c b).nodeAt d).extents = (fs.nodeAt d).extents := by
  obtain ⟨x, hx⟩ := h.link_old hc hb hd
  rw [hx]

theorem listing_link (h : Inv fs l) (hc : c ∈ l.chain t) (hb : b ∈ l.held) :
    listing (fs.link c b) (l.chain t ++ [b]) = listing fs (l.chain t) := by
  obtain ⟨hnb, -, -⟩ := h.link_nodes hc hb
  rw [listing_append, listing_cons, listing_nil, hnb, listing_congr fun d => h.link_extents hc hb]
  have hz : spans Node.default.extents = [] := spans_replicate 15
  rw [hz, List.append_nil, List.append_nil]

theorem isDir_link (h : Inv fs l) (hc : c ∈ l.chain t) (hb : b ∈ l.held) :
    ((fs.link c b).nodeAt t).isDir = (fs.nodeAt t).isDir := by
  obtain ⟨x, hx⟩ := h.link_old hc hb (h.head_mem (List.ne_nil_of_mem hc))
  exact Node.isDir_congr (by rw [hx])

/-- A block in hand becomes the last node of an object. -/
theorem link (h : Inv fs l) (hcs : l.chain t = pre ++ [c]) (hb : l.held.Perm (b :: held')) :
    Inv (fs.link c b) (l.set t (l.chain t ++ [b]) held') := by
  have hbh : b ∈ l.held := hb.mem_iff.mpr (by simp)
  obtain ⟨hb0, hb2, -⟩ := h.held_bounds hbh
  have hbno := (h.held_unowned hbh).2
  have hct : c ∈ l.chain t := by simp [hcs]
  have ho := h.object t (List.ne_nil_of_mem hct)
  obtain ⟨hnb, hnc, ha⟩ := h.link_nodes hct hbh
  have hext := fun d hd => h.link_extents hct hbh (d := d) hd
  have hdir := h.isDir_link hct hbh
  have hlist := h.listing_link hct hbh
  have hold : ∀ d ∈ l.chain t ++ [b], ∀ e ∈ ((fs.link c b).nodeAt d).extents,
      d ∈ l.chain t ∧ e ∈ (fs.nodeAt d).extents ∨ e = Extent.default := by
    intro d hd e he
    rcases List.mem_append.mp hd with hd | hd
    · rw [hext d hd] at he
      exact Or.inl ⟨hd, he⟩
    · rw [List.mem_singleton.mp hd, hnb] at he
      exact Or.inr (Node.eq_default_of_mem he)
  have hchain : Chain (fs.link c b).nodeAt t (l.chain t ++ [b]) := by
    have hold := ho.chain
    rw [hcs] at hold ⊢
    refine hold.extend hb0 ?_ (by rw [hnc]) (by rw [hnb]; rfl)
    intro x hx
    have hnd := h.nodup_chain t
    rw [hcs, List.nodup_append] at hnd
    have hxc : x ≠ c := hnd.2.2 x hx c (by simp)
    have hxb : x ≠ b := fun he => hbno t (by rw [hcs, ← he]; simp [hx])
    rw [ha.nodeAt (by rintro (h | h); exacts [hxc h, hxb h])]
  refine h.update (t := t) [] ha ?_ ?_ ?_ ?_ ?_ List.nodup_nil (by simp) ?_ ?_
  · rintro (h2 | h2)
    · exact h.chain_ne_two hct h2.symm
    · exact hb2 h2.symm
  · intro p hp
    refine ⟨Layout.set_chain_ne hp, ?_⟩
    rintro d hd (rfl | rfl)
    · exact hp (h.chain_disjoint hd hct)
    · exact hbno p hd
  · intro _
    rw [Layout.set_chain_self]
    refine ⟨hchain, ?_, ?_⟩
    · intro d hd e he
      rcases hold d hd e he with ⟨hd, he⟩ | rfl
      · exact ho.fits d hd e he
      · exact Extent.fits_default _
    · intro hisd d hd e he
      rw [hdir] at hisd
      rcases hold d hd e he with ⟨hd, he⟩ | rfl
      · exact ho.aligned hisd d hd e he
      · exact ⟨0, rfl⟩
  · rintro rfl
    rw [Layout.set_chain_self, hdir]
    exact ⟨by simp, h.rootDir⟩
  · simp only [own, Layout.set_chain_self, hlist, hdir, Layout.set_held]
    generalize (if (fs.nodeAt t).isDir then [] else listing fs (l.chain t)) = ys
    have hp : (l.chain t ++ ys ++ l.held).Perm (l.chain t ++ [b] ++ ys ++ held') := by
      refine (List.Perm.append_left _ hb).trans ?_
      simp only [List.append_assoc, List.singleton_append]
      exact List.Perm.append_left _ List.perm_middle
    exact hp.symm.subperm
  · simp only [entries, Layout.set_chain_self, hlist, hdir, List.nil_append]
    exact List.Subperm.refl _
  · rw [Layout.set_chain_self]
    intro hnil
    simp at hnil

/-- Linking names nothing new. -/
theorem entries_link (h : Inv fs l) (hc : c ∈ l.chain t) (hb : b ∈ l.held) (p : Nat) :
    entries (fs.link c b) (l.set t (l.chain t ++ [b]) held') p = entries fs l p := by
  by_cases hp : p = t
  · simp only [hp, entries, Layout.set_chain_self, h.listing_link hc hb, h.isDir_link hc hb]
  · refine (h.own_object _ (Layout.set_chain_ne hp) ?_).2
    intro d hd
    obtain ⟨-, -, ha⟩ := h.link_nodes hc hb
    apply ha.nodeAt
    rintro (rfl | rfl)
    · exact hp (h.chain_disjoint hd hc)
    · exact (h.held_unowned hb).2 p hd

/-- A block in hand that holds an empty node becomes an object. -/
theorem adopt (h : Inv fs l) (hb : l.held.Perm (b :: held')) (hnext : (fs.nodeAt b).next = 0)
    (he : ∀ e ∈ (fs.nodeAt b).extents, e = Extent.default) : Inv fs (l.set b [b] held') := by
  have hbh : b ∈ l.held := hb.mem_iff.mpr (by simp)
  obtain ⟨hb0, hb2, hlt⟩ := h.held_bounds hbh
  have hnil := (h.held_unowned hbh).1
  have hlist : listing fs [b] = [] := by
    rw [listing_cons, listing_nil, List.append_nil]
    exact spans_eq_nil fun e hm => by rw [he e hm]; rfl
  refine h.update (t := b) [] (Agree.refl (fun _ => False) fs) (by simp) ?_ ?_ ?_ ?_
    List.nodup_nil (by simp) ?_ ?_
  · intro p hp
    exact ⟨Layout.set_chain_ne hp, by simp⟩
  · intro _
    rw [Layout.set_chain_self]
    refine ⟨⟨rfl, hb0, hnext⟩, ?_, ?_⟩
    · intro c hc e hm
      rw [List.mem_singleton.mp hc] at hm
      rw [he e hm]
      exact Extent.fits_default _
    · intro _ c hc e hm
      rw [List.mem_singleton.mp hc] at hm
      rw [he e hm]
      exact ⟨0, rfl⟩
  · rintro rfl
    exact (h.rootChain hnil).elim
  · simp only [own, Layout.set_chain_self, hlist, ite_self, hnil, listing_nil, Layout.set_held]
    simpa using hb.symm.subperm
  · simp [entries, hlist, hnil]
  · rw [Layout.set_chain_self]
    intro hc
    cases hc

/-- An object nobody names is given up; its first block stays in hand. -/
theorem drop (h : Inv fs l) (hb : l.chain b ≠ []) (hno : ∀ p, b ∉ entries fs l p) (h1 : b ≠ 1) :
    Inv fs (l.set b [] (b :: l.held)) := by
  refine h.update (t := b) [] (Agree.refl (fun _ => False) fs) (by simp) ?_ ?_ ?_ ?_
    List.nodup_nil (by simp) ?_ ?_
  · intro p hp
    exact ⟨Layout.set_chain_ne hp, by simp⟩
  · rw [Layout.set_chain_self]
    intro hc
    exact (hc rfl).elim
  · intro hb1
    exact (h1 hb1).elim
  · simp only [own, Layout.set_chain_self, listing_nil, ite_self, Layout.set_held, List.nil_append]
    have hone : List.Subperm [b] (l.chain b ++ if (fs.nodeAt b).isDir then [] else
        listing fs (l.chain b)) := by
      rw [List.singleton_subperm_iff]
      exact mem_own_of_chain (h.head_mem hb)
    exact hone.append (List.Subperm.refl l.held)
  · simp [entries]
  · exact fun _ => hno

end Inv

end Origel.RedoxFs
