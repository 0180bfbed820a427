import Origel.RedoxFs.Short

/-! A directory is a map from names to nodes, over all runs that give only names a node can hold. -/
namespace Origel.RedoxFs

open Origel.Lib FileSystem

variable {fs fs' : FileSystem} {b c d p q t mode : Nat} {bs bs' : List Nat} {l l' : Layout} {op : Op}
  {name other : String} {err : Option Errno}

/-- The name field of a node holds the name whole. -/
def Storable (name : String) : Prop := (utf8 name).length ≤ 246 ∧ 0 ∉ utf8 name

/-- A safe call that gives no other names. -/
def Named (fs : FileSystem) (op : Op) : Prop :=
  Safe fs op ∧ match op with
    | .createNode _ name _ => Storable name
    | _ => True

/-- What `find_node` makes of a name. -/
def resolve (fs : FileSystem) (d : Nat) (name : String) : Except Fault (Nat × Node) :=
  match findNode name d fs with
  | .ok child _ => .ok child
  | .error e _ => .error e

/-- The directory `d` is a finite map: its children have different names, a name is refused just
when a child has it, and making and removing a name changes what that name stands for only. -/
structure IsMap (fs : FileSystem) (d : Nat) : Prop where
  apart : ∃ children, childNodes d fs = .ok children fs ∧ (children.map fun c => c.2.nameStr).Nodup
  taken : ∀ mode name, mode < 2 ^ 16 →
    ((∃ fs', createNode mode name d fs = .error (.errno .EEXIST) fs') ↔
      ∃ children, childNodes d fs = .ok children fs ∧ ∃ c ∈ children, c.2.nameStr = some name)
  made : ∀ mode name child fs', mode < 2 ^ 16 → Named fs (.createNode mode name d) →
    createNode mode name d fs = .ok child fs' →
    resolve fs' d name = .ok child ∧ ∀ other, other ≠ name → resolve fs' d other = resolve fs d other
  gone : ∀ mode name fs', Named fs (.removeNode mode name d) →
    removeNode mode name d fs = .ok () fs' →
    resolve fs' d name = .error (.errno .ENOENT) ∧
      ∀ other, other ≠ name → resolve fs' d other = resolve fs d other

/-- The blocks hold nodes of different names. -/
def Apart (fs : FileSystem) (bs : List Nat) : Prop := (bs.map fun b => (fs.nodeAt b).nameStr).Nodup

/-- A name among different names is found by search. -/
theorem lookup_iff (h : Apart fs bs) :
    lookup fs name bs = some b ↔ b ∈ bs ∧ (fs.nodeAt b).nameStr = some name := by
  induction bs with
  | nil => simp [lookup]
  | cons c bs ih =>
    rw [Apart, List.map_cons, List.nodup_cons] at h
    rw [lookup, List.find?_cons]
    by_cases hc : (fs.nodeAt c).nameStr = some name
    · rw [decide_eq_true hc]
      constructor
      · rintro ⟨⟩
        exact ⟨List.mem_cons_self, hc⟩
      · rintro ⟨hmem, hb⟩
        rcases List.mem_cons.mp hmem with rfl | hmem
        · rfl
        · exact (h.1 (List.mem_map.mpr ⟨b, hmem, hb.trans hc.symm⟩)).elim
    · rw [decide_eq_false hc]
      refine (ih h.2).trans ⟨fun hb => ⟨List.mem_cons_of_mem c hb.1, hb.2⟩, ?_⟩
      rintro ⟨hmem, hb⟩
      rcases List.mem_cons.mp hmem with rfl | hmem
      · exact (hc hb).elim
      · exact ⟨hmem, hb⟩

theorem lookup_none (h : lookup fs name bs = none) (hb : b ∈ bs) :
    (fs.nodeAt b).nameStr ≠ some name := by
  intro hn
  exact absurd (decide_eq_true hn) (List.find?_eq_none.mp h b hb)

theorem Apart.subperm (h : Apart fs bs) (hs : bs'.Subperm bs)
    (hn : ∀ b ∈ bs', (fs'.nodeAt b).nameStr = (fs.nodeAt b).nameStr) : Apart fs' bs' := by
  obtain ⟨cs, hperm, hsub⟩ := hs
  rw [Apart, List.map_congr_left hn, ← (hperm.map _).nodup_iff]
  exact List.Nodup.sublist (hsub.map _) h

/-- The call is about an object, and one that changes a length about a file. -/
def Op.Apt (fs : FileSystem) (l : Layout) (op : Op) : Prop :=
  l.chain op.target ≠ [] ∧ match op with
    | .writeNode t _ _ => (fs.nodeAt t).isDir = false
    | .nodeSetLen t _ => (fs.nodeAt t).isDir = false
    | _ => True

theorem Inv.apt (h : Inv fs l) (hl : op.Legal fs) : op.Apt fs l := by
  refine ⟨h.target hl, ?_⟩
  cases op with
  | writeNode => exact hl.2.1
  | nodeSetLen => exact hl.2.1
  | createNode => trivial
  | removeNode => trivial
  | setAttr => trivial

/-- The names of a directory become fewer, or one is made. -/
theorem Outcome.entries_cases (h : Outcome fs l op err fs' l') (hinv : Inv fs l) (hapt : op.Apt fs l)
    (d : Nat) : (entries fs' l' d).Subperm (entries fs l d) ∨
      ∃ mode name b, op = .createNode mode name d ∧
        lookup fs name (listing fs (l.chain d)) = none ∧
        Created fs l d b (Node.new mode name d) fs' l' := by
  by_cases hd' : l'.chain d = []
  · left
    rw [entries, hd', listing_nil, ite_self]
    exact List.nil_subperm
  by_cases hd : l.chain d = []
  · -- a new object has no entries yet
    left
    obtain ⟨hself, hempty⟩ := h.new_head hapt.1 hd hd'
    have hnil : listing fs' (l'.chain d) = [] := by
      rw [hself, listing_cons, listing_nil, List.append_nil, hempty]
      exact spans_replicate 15
    rw [entries, hnil, ite_self]
    exact List.nil_subperm
  by_cases hdt : d = op.target
  · subst hdt
    have hdir := h.isDir hinv hd hd'
    by_cases hisdir : (fs.nodeAt op.target).isDir = true
    · rw [entries_of_dir hisdir, entries_of_dir (hdir.trans hisdir)]
      cases h with
      | refused => exact Or.inl (List.Subperm.refl _)
      | created hname h => exact Or.inr ⟨_, _, _, rfl, hname, h⟩
      | @unnamed mode name d _ _ _ _ ha =>
        left
        have hsame : listing fs' (l.chain d) = listing fs (l.chain d) := by
          refine listing_congr fun c hc => ?_
          rw [ha.nodeAt]
          rintro (h2 | hfree)
          · exact hinv.chain_ne_two hc h2
          · cases hinv.exclusive.disjoint _ _ _ hfree (mem_own_of_chain hc)
        exact (List.Perm.of_eq hsame).subperm
      | removed _ _ _ h =>
        exact Or.inl ((List.sublist_cons_self ..).subperm.trans h.listing.symm.subperm)
      | unsplit _ _ h => exact Or.inl h.listing
      | wrote => exact absurd (hisdir.symm.trans hapt.2) (by decide)
      | filled => exact absurd (hisdir.symm.trans hapt.2) (by decide)
      | cut => exact absurd (hisdir.symm.trans hapt.2) (by decide)
      | @attr t perm uid gid _ _ _ ha hn =>
        left
        have hsame : listing fs' (l.chain t) = listing fs (l.chain t) := by
          refine listing_congr fun c _ => ?_
          by_cases hct : c = t
          · rw [hct, hn, Node.setAttr]
          · rw [ha.nodeAt hct]
        exact (List.Perm.of_eq hsame).subperm
    · left
      rw [entries, hdir, if_neg hisdir]
      exact List.nil_subperm
  · left
    rw [(h.other_own hinv hdt hd hd').2.2]

/-- All directories have names that differ. -/
def AllApart (fs : FileSystem) (l : Layout) : Prop := ∀ d, Apart fs (entries fs l d)

theorem Created.entries (h : Created fs l d b (Node.new mode name d) fs' l')
    (hdir : (fs.nodeAt d).isDir = true) :
    (RedoxFs.entries fs' l' d).Perm (b :: RedoxFs.entries fs l d) := by
  rw [entries_of_dir hdir, entries_of_dir ((Node.isDir_attrs h.attrs).trans hdir)]
  exact h.listing

/-- A call that gives names a node can hold keeps the names of each directory apart. -/
theorem Outcome.apart (h : Outcome fs l op err fs' l') (hinv : Inv fs l) (hl : op.Legal fs)
    (hn : Named fs op) (ha : AllApart fs l) : AllApart fs' l' := by
  intro d
  have hinv' := (h.inv hinv).1
  -- what was and still is listed has kept its name
  have hkept : ∀ q ∈ entries fs l d, q ∈ entries fs' l' d →
      (fs'.nodeAt q).nameStr = (fs.nodeAt q).nameStr := fun q hq hq' =>
    h.nameStr hinv (hinv.entryHead d q hq).1 (hinv'.entryHead d q hq').1
  rcases h.entries_cases hinv (hinv.apt hl) d with hsub | ⟨mode, name, b, rfl, hname, hc⟩
  · exact (ha d).subperm hsub fun q hq => hkept q (hsub.subset hq) hq
  · have hperm := hc.entries hl.2.1
    rw [← entries_of_dir hl.2.1] at hname
    have hb : (fs'.nodeAt b).nameStr = some name := by
      rw [hc.node]
      exact Node.nameStr_new hn.2.1 hn.2.2
    have hsame : ∀ q ∈ entries fs l d, (fs'.nodeAt q).nameStr = (fs.nodeAt q).nameStr :=
      fun q hq => hkept q hq (hperm.mem_iff.mpr (List.mem_cons_of_mem b hq))
    rw [Apart, (hperm.map _).nodup_iff, List.map_cons, List.nodup_cons, hb,
      List.map_congr_left hsame]
    refine ⟨?_, ha d⟩
    intro hmem
    obtain ⟨q, hq, hqn⟩ := List.mem_map.mp hmem
    exact lookup_none hname hq hqn

theorem Reachable.apart (h : Reachable Named fs) : ∃ l, Inv fs l ∧ AllApart fs l := by
  apply h.invariant
  · intro disk fs hsize hc
    refine ⟨freshLayout, create_inv hsize hc, fun d => ?_⟩
    obtain ⟨-, -, -, -, -, h1, -, -⟩ := create_spec hsize hc
    have hext : ∀ e ∈ (fs.nodeAt 1).extents, e = Extent.default := by
      rw [h1]
      exact fun e he => Node.extents_new he
    rw [entries_fresh hext]
    exact List.nodup_nil
  · intro fs op fs' err hl hn hr ih
    obtain ⟨l, hinv, ha⟩ := ih
    obtain ⟨l', hout⟩ := hinv.outcome hl hn.1 hr
    exact ⟨l', (hout.inv hinv).1, hout.apart hinv hl hn ha⟩

namespace Inv

/-- No directory in reach lists itself: it hangs on another one. -/
theorem not_self (h : Inv fs l) (hd : Reach fs d) : d ∉ entries fs l d := by
  induction hd with
  | root =>
    intro hmem
    exact (h.entryHead _ _ hmem).2 h.base.root
  | @child d b hd hdir hb ih =>
    intro hmem
    rw [h.chainOf_eq (h.reach hd), h.children_eq hdir, ← entries_of_dir hdir] at hb
    have hdb := h.listed.disjoint b d b hmem hb
    exact ih (hdb ▸ hmem)

theorem resolve_eq (h : Inv fs l) (hd : l.chain d ≠ []) (hdir : (fs.nodeAt d).isDir = true)
    (name : String) : resolve fs d name = match lookup fs name (entries fs l d) with
      | some b => .ok (b, fs.nodeAt b)
      | none => .error (.errno .ENOENT) := by
  rw [resolve, h.findNode_eq name hd hdir, entries_of_dir hdir]
  cases lookup fs name (listing fs (l.chain d)) <;> rfl

/-- A name that the same nodes carry before and after stands for the same. -/
theorem resolve_congr (h : Inv fs l) (h' : Inv fs' l') (hd : l.chain d ≠ []) (hd' : l'.chain d ≠ [])
    (hdir : (fs.nodeAt d).isDir = true) (hdir' : (fs'.nodeAt d).isDir = true) (ha : AllApart fs l)
    (ha' : AllApart fs' l')
    (hname : ∀ q, q ∈ entries fs' l' d ∧ (fs'.nodeAt q).nameStr = some name ↔
      q ∈ entries fs l d ∧ (fs.nodeAt q).nameStr = some name)
    (hnode : ∀ q ∈ entries fs l d, q ∈ entries fs' l' d → fs'.nodeAt q = fs.nodeAt q) :
    resolve fs' d name = resolve fs d name := by
  have hlook : lookup fs' name (entries fs' l' d) = lookup fs name (entries fs l d) := by
    apply Option.ext
    intro q
    rw [lookup_iff (ha' d), lookup_iff (ha d)]
    exact hname q
  rw [h.resolve_eq hd hdir, h'.resolve_eq hd' hdir', hlook]
  cases hq : lookup fs name (entries fs l d) with
  | none => rfl
  | some q =>
    have hmem := ((lookup_iff (ha d)).mp hq).1
    rw [hq] at hlook
    have hmem' := ((lookup_iff (ha' d)).mp hlook).1
    dsimp only
    rw [hnode q hmem hmem']

/-- A name made and a name removed, for a directory in reach: all that differs is one entry. -/
theorem resolve_other (h : Inv fs l) (hout : Outcome fs l op err fs' l') (hl : op.Legal fs)
    (hn : Named fs op) (ha : AllApart fs l) (ht : op.target = d) (hd : Reach fs d)
    (hdir : (fs.nodeAt d).isDir = true) (hd' : l'.chain d ≠ [])
    (hlist : ∀ q, q ≠ b → (q ∈ entries fs' l' d ↔ q ∈ entries fs l d))
    (hb : b ∈ entries fs l d → (fs.nodeAt b).nameStr = some name)
    (hb' : b ∈ entries fs' l' d → (fs'.nodeAt b).nameStr = some name) (hne : other ≠ name) :
    resolve fs' d other = resolve fs d other := by
  have h' := (hout.inv h).1
  have hdl := h.reach hd
  have hnode : ∀ q ∈ entries fs l d, q ∈ entries fs' l' d → fs'.nodeAt q = fs.nodeAt q := by
    intro q hq hq'
    have hqd : q ≠ op.target := by
      rintro rfl
      rw [ht] at hq
      exact h.not_self hd hq
    exact (hout.other_own h hqd (h.entryHead d q hq).1 (h'.entryHead d q hq').1).1
  refine h.resolve_congr h' hdl hd' hdir ((hout.isDir h hdl hd').trans hdir) ha
    (hout.apart h hl hn ha) (fun q => ?_) hnode
  by_cases hqb : q = b
  · subst hqb
    constructor
    · rintro ⟨hq, hqn⟩
      exact (hne (Option.some.inj (hqn.symm.trans (hb' hq)))).elim
    · rintro ⟨hq, hqn⟩
      exact (hne (Option.some.inj (hqn.symm.trans (hb hq)))).elim
  · constructor
    · rintro ⟨hq, hqn⟩
      have hq₀ := (hlist q hqb).mp hq
      exact ⟨hq₀, hnode q hq₀ hq ▸ hqn⟩
    · rintro ⟨hq, hqn⟩
      have hq₁ := (hlist q hqb).mpr hq
      exact ⟨hq₁, (hnode q hq hq₁).symm ▸ hqn⟩

theorem isMap_made (h : Inv fs l) (ha : AllApart fs l) (hd : Reach fs d)
    (hdir : (fs.nodeAt d).isDir = true) (hm : mode < 2 ^ 16)
    (hn : Named fs (.createNode mode name d)) {child : Nat × Node}
    (hok : createNode mode name d fs = .ok child fs') :
    resolve fs' d name = .ok child ∧
      ∀ other, other ≠ name → resolve fs' d other = resolve fs d other := by
  have hdl := h.reach hd
  have hl : (Op.createNode mode name d).Legal fs := ⟨hd, hdir, hm⟩
  cases hlook : lookup fs name (listing fs (l.chain d)) with
  | some b =>
    rw [h.createNode_exists hdl hdir hlook] at hok
    cases hok
  | none =>
    rw [h.createNode_absent mode hdl hdir hlook] at hok
    rcases h.makeNode_spec name hdl hdir hm with ⟨-, herr⟩ | ⟨-, fs₁, herr, -⟩ |
      ⟨b, fs₁, l', hok', hc⟩
    · rw [hok] at herr
      cases herr
    · rw [hok] at herr
      cases herr
    · rw [hok] at hok'
      cases hok'
      have hout : Outcome fs l (.createNode mode name d) none fs' l' := .created hlook hc
      have hdir' : (fs'.nodeAt d).isDir = true := (Node.isDir_attrs hc.attrs).trans hdir
      have hperm := hc.entries hdir
      have hb : b ∈ entries fs' l' d := hperm.mem_iff.mpr List.mem_cons_self
      have hd' : l'.chain d ≠ [] := chain_of_entry hb
      have hbn : (fs'.nodeAt b).nameStr = some name := by
        rw [hc.node]
        exact Node.nameStr_new hn.2.1 hn.2.2
      constructor
      · have hfound : lookup fs' name (entries fs' l' d) = some b :=
          (lookup_iff (hout.apart h hl hn ha d)).mpr ⟨hb, hbn⟩
        rw [hc.inv.resolve_eq hd' hdir', hfound]
        dsimp only
        rw [hc.node]
      · intro other hne
        refine h.resolve_other hout hl hn ha rfl hd hdir hd' (fun q hqb => ?_) (fun hold => ?_)
          (fun _ => hbn) hne
        · rw [hperm.mem_iff, List.mem_cons]
          exact or_iff_right hqb
        · exact ((h.entryHead d b hold).1 hc.fresh).elim

theorem isMap_gone (h : Inv fs l) (ha : AllApart fs l) (hd : Reach fs d)
    (hdir : (fs.nodeAt d).isDir = true) (hn : Named fs (.removeNode mode name d))
    (hok : removeNode mode name d fs = .ok () fs') :
    resolve fs' d name = .error (.errno .ENOENT) ∧
      ∀ other, other ≠ name → resolve fs' d other = resolve fs d other := by
  have hdl := h.reach hd
  have hl : (Op.removeNode mode name d).Legal fs := ⟨hd, hdir⟩
  obtain ⟨l', hout⟩ := h.outcome hl hn.1 (.ok hok)
  have ha' := hout.apart h hl hn ha
  cases id hout with
  | @removed _ _ _ b _ _ hrem hmem hbd hr =>
    obtain ⟨hlook, -, -⟩ := h.removes_mem hd hdir hrem
    rw [← entries_of_dir hdir] at hlook
    obtain ⟨hb, hbn⟩ := (lookup_iff (ha d)).mp hlook
    have hdir' : (fs'.nodeAt d).isDir = true := (Node.isDir_attrs hr.attrs).trans hdir
    have hperm : (entries fs l d).Perm (b :: entries fs' l' d) := by
      rw [entries_of_dir hdir, entries_of_dir hdir']
      exact hr.listing
    have hd' : l'.chain d ≠ [] := by
      obtain ⟨ext, hext, -⟩ := hr.grown
      rw [hext]
      exact fun hnil => hdl (List.append_eq_nil_iff.mp hnil).1
    have hgone : b ∉ entries fs' l' d := fun hb' => (hr.inv.entryHead d b hb').1 hr.self
    constructor
    · have hnone : lookup fs' name (entries fs' l' d) = none := by
        cases hq : lookup fs' name (entries fs' l' d) with
        | none => rfl
        | some q =>
          -- another node of that name was there before, beside the one removed
          obtain ⟨hq', hqn⟩ := (lookup_iff (ha' d)).mp hq
          have hq₀ : q ∈ entries fs l d := hperm.mem_iff.mpr (List.mem_cons_of_mem b hq')
          have hsame := hout.nameStr h (h.entryHead d q hq₀).1 (hr.inv.entryHead d q hq').1
          have hqb := (lookup_iff (ha d)).mpr ⟨hq₀, hsame.symm.trans hqn⟩
          rw [hlook] at hqb
          cases hqb
          exact (hgone hq').elim
      rw [hr.inv.resolve_eq hd' hdir', hnone]
    · intro other hne
      refine h.resolve_other hout hl hn ha rfl hd hdir hd' (fun q hqb => ?_) (fun _ => hbn)
        (fun hb' => (hgone hb').elim) hne
      rw [hperm.mem_iff, List.mem_cons]
      exact (or_iff_right hqb).symm

end Inv

/-- After every run that gives only names a node can hold, every directory is a finite map. -/
theorem directory_is_map (h : Reachable Named fs) (hd : Reach fs d)
    (hdir : (fs.nodeAt d).isDir = true) : IsMap fs d := by
  obtain ⟨l, hinv, ha⟩ := h.apart
  have hdl := hinv.reach hd
  have hchildren := hinv.childNodes_eq hdl hdir
  rw [← entries_of_dir hdir] at hchildren
  constructor
  case apart =>
    refine ⟨_, hchildren, ?_⟩
    rw [List.map_map]
    exact ha d
  case taken =>
    intro mode name hm
    constructor
    · rintro ⟨fs', hex⟩
      refine ⟨_, hchildren, ?_⟩
      cases hlook : lookup fs name (listing fs (l.chain d)) with
      | some b =>
        rw [← entries_of_dir hdir] at hlook
        obtain ⟨hb, hbn⟩ := (lookup_iff (ha d)).mp hlook
        exact ⟨_, List.mem_map.mpr ⟨b, hb, rfl⟩, hbn⟩
      | none =>
        rw [hinv.createNode_absent mode hdl hdir hlook] at hex
        rcases hinv.makeNode_spec name hdl hdir hm with ⟨-, herr⟩ | ⟨-, fs₁, herr, -⟩ |
          ⟨b, fs₁, l', hok, -⟩
        · rw [hex] at herr
          cases herr
        · rw [hex] at herr
          cases herr
        · rw [hex] at hok
          cases hok
    · rintro ⟨children, hrun, c, hc, hcn⟩
      rw [hchildren] at hrun
      cases hrun
      obtain ⟨b, hb, rfl⟩ := List.mem_map.mp hc
      have hlook := (lookup_iff (ha d)).mpr ⟨hb, hcn⟩
      rw [entries_of_dir hdir] at hlook
      exact ⟨fs, hinv.createNode_exists hdl hdir hlook⟩
  case made =>
    intro mode name child fs' hm hn hok
    exact hinv.isMap_made ha hd hdir hm hn hok
  case gone =>
    intro mode name fs' hn hok
    exact hinv.isMap_gone ha hd hdir hn hok

theorem directory_is_map_after_create : ∃ fs₀ fs, create (blankDisk 8) = .ok fs₀ ∧
    Run (Op.Step Named) fs₀ [.createNode plainFile "a" 1] fs ∧ IsMap fs 1 := by
  have hsize : (blankDisk 8).size < 2 ^ 64 := by decide
  obtain ⟨fs₀, hc⟩ := create_ok (show 4 * 512 ≤ (blankDisk 8).size by decide)
  have hinv₀ := create_inv hsize hc
  have hm : plainFile < 2 ^ 16 := by decide
  obtain ⟨fs, l, hok, -, hfirst⟩ := first_node (n := 8) "a" rfl (by omega) (by omega) hc hm
  have hstep : Op.Step Named fs₀ (.createNode plainFile "a" 1) fs :=
    ⟨⟨hinv₀.reach_root, hinv₀.rootDir, hm⟩, ⟨trivial, by decide, by decide⟩, none, .ok (bind_ok hok)⟩
  refine ⟨fs₀, fs, hc, .cons hstep .nil, ?_⟩
  exact directory_is_map ⟨_, fs₀, _, hsize, hc, .cons hstep .nil⟩ hfirst.inv.reach_root
    hfirst.inv.rootDir

/-- A name with a zero byte is cut there: it is not found again, and can be made once more, so that
the root has two files named `a`. -/
theorem cut_name_is_made_twice : ∃ fs₀ fs₁ fs₂ child₁ child₂, create (blankDisk 8) = .ok fs₀ ∧
    createNode plainFile "a\x00b" 1 fs₀ = .ok child₁ fs₁ ∧
    resolve fs₁ 1 "a\x00b" = .error (.errno .ENOENT) ∧
    createNode plainFile "a\x00b" 1 fs₁ = .ok child₂ fs₂ ∧
    childNodes 1 fs₂ = .ok [child₁, child₂] fs₂ ∧
    child₁.2.nameStr = some "a" ∧ child₂.2.nameStr = some "a" := by
  have hsize : (blankDisk 8).size < 2 ^ 64 := by decide
  obtain ⟨fs₀, hc⟩ := create_ok (show 4 * 512 ≤ (blankDisk 8).size by decide)
  have hm : plainFile < 2 ^ 16 := by decide
  have hname : (Node.new plainFile "a\x00b" 1).nameStr = some "a" := by
    rw [Node.nameStr, fromUtf8_eq_some]
    decide
  obtain ⟨fs₁, l₁, hok₁, -, hfirst⟩ := first_node (n := 8) "a\x00b" rfl (by omega) (by omega) hc hm
  have hinv₁ := hfirst.inv
  have hlist₁ : entries fs₁ l₁ 1 = [4] := by
    rw [entries_of_dir hinv₁.rootDir, hfirst.rootChain, listing_cons, listing_nil, hfirst.root]
    decide
  have habsent : lookup fs₁ "a\x00b" [4] = none := by
    rw [lookup]
    simp [hfirst.node, hname]
  obtain ⟨fs₂, l₂, hok₂, hcreated, hroot₂, -, hext₂, hn₂⟩ :=
    hfirst.second (by omega) (by omega) hm habsent
  have hinv₂ := hcreated.inv
  have hlist₂ : listing fs₂ (l₂.chain 1) = [4, 5] := by
    rw [hroot₂, listing_cons, listing_nil, hext₂]
    decide
  refine ⟨fs₀, fs₁, fs₂, _, _, hc, hok₁, ?_, hok₂, ?_, hname, hname⟩
  · rw [hinv₁.resolve_eq hinv₁.rootChain hinv₁.rootDir, hlist₁, habsent]
  · rw [hinv₂.childNodes_eq hinv₂.rootChain hinv₂.rootDir, hlist₂, List.map_cons, List.map_cons,
      hn₂, hfirst.node, hcreated.node]
    rfl

end Origel.RedoxFs
