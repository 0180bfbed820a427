import Origel.RedoxFs.Rights

/-! What `open` creates, against what the path leads to before and after. -/
namespace Origel.RedoxFs

open Origel.Lib FileSystem

variable {fs fs' : FileSystem} {s s' : FileScheme} {b c d p x mode uid gid flags id : Nat}
  {l l' : Layout} {op : Op} {name part path : String} {parts rest : List String} {bs ds : List Nat}
  {o : Option Nat} {url : List UInt8} {err : Option Errno} {reply : Reply}

/-- The block that a path leads to through directories. -/
def pathTo (fs : FileSystem) : Nat → List String → Option Nat
  | b, [] => some b
  | b, part :: parts =>
    if (fs.nodeAt b).isDir then
      (lookup fs part (children fs (chainOf fs b))).bind fun c => pathTo fs c parts
    else none

/-- A component before the last one does not exist. -/
def Misses (fs : FileSystem) (path : String) : Prop := pathTo fs 1 (partsOf path).dropLast = none

/-- The path leads to a directory that does not list its last name, and nothing stands against making
it. -/
def Makes (fs : FileSystem) (path : String) (flags uid gid : Nat) : Prop :=
  ∃ ds d, Walked fs uid gid path ds none ∧ ds.getLast? = some d ∧
    (fs.nodeAt d).permission uid gid Node.MODE_WRITE = true ∧ Spacious fs (chainOf fs d) ∧
    Grants { Node.new (madeMode flags) (FileScheme.lastPart path) d with uid := uid, gid := gid } flags
      uid gid

/-- Whatever `open` opens, the path leads to right after; and it reports a missing component. -/
structure OpensPath (s : FileScheme) (url : List UInt8) (flags uid gid : Nat) : Prop where
  opened : ∀ id s', Answers (Request.openUrl url flags uid gid).run s (.ok (.num id)) s' →
    ∃ res nodes, s'.files id = some res ∧ pathNodes (FileScheme.urlPath url) s'.fs =
      .ok (nodes, .ok (res.block, s'.fs.nodeAt res.block)) s'.fs
  missing : Misses s.fs (FileScheme.urlPath url) →
    ∃ s', Answers (Request.openUrl url flags uid gid).run s (.error .ENOENT) s' ∧ s'.fs = s.fs

theorem pathTo_eq (hdirs : ∀ x ∈ (follow fs b parts).1, (fs.nodeAt x).isDir = true) :
    pathTo fs b parts = (follow fs b parts).2 := by
  induction parts generalizing b with
  | nil => rfl
  | cons part parts ih =>
    rw [follow] at hdirs ⊢
    rw [pathTo]
    cases hl : lookup fs part (children fs (chainOf fs b)) with
    | none => simp
    | some c =>
      rw [hl] at hdirs
      dsimp only at hdirs ⊢
      rw [if_pos (hdirs b (by simp)), Option.bind_some]
      exact ih fun x hx => hdirs x (by simp [hx])

theorem follow_of_pathTo (h : pathTo fs b parts = some d) : (follow fs b parts).2 = some d ∧
    ∀ x ∈ (follow fs b parts).1, (fs.nodeAt x).isDir = true := by
  induction parts generalizing b with
  | nil => exact ⟨h, by simp [follow]⟩
  | cons part parts ih =>
    rw [pathTo] at h
    by_cases hdir : (fs.nodeAt b).isDir = true
    · rw [if_pos hdir] at h
      obtain ⟨c, hl, hc⟩ := Option.bind_eq_some_iff.mp h
      obtain ⟨hend, hdirs⟩ := ih hc
      rw [follow, hl]
      refine ⟨hend, fun x hx => ?_⟩
      rcases List.mem_cons.mp hx with rfl | hx
      · exact hdir
      · exact hdirs x hx
    · rw [if_neg hdir] at h
      cases h

theorem pathTo_dropLast (h : pathTo fs b parts.dropLast = none) : pathTo fs b parts = none := by
  induction parts generalizing b with
  | nil => cases h
  | cons part parts ih =>
    cases parts with
    | nil => cases h
    | cons part' parts =>
      rw [List.dropLast_cons_cons, pathTo] at h
      rw [pathTo]
      split at h
      · rename_i hdir
        rw [if_pos hdir]
        rw [Option.bind_eq_none_iff] at h ⊢
        intro c hc
        exact ih (h c hc)
      · rename_i hdir
        exact if_neg hdir

/-- A path with a missing component leads nowhere. -/
theorem Walked.none_of_misses (h : Walked fs uid gid path ds o) (hm : Misses fs path) : o = none := by
  have hdirs : ∀ x ∈ (follow fs 1 (partsOf path)).1, (fs.nodeAt x).isDir = true := by
    rw [h.leads]
    exact h.dirs
  have hend := pathTo_eq hdirs
  rw [pathTo_dropLast hm, h.leads] at hend
  exact hend.symm

theorem follow_append (h : (follow fs b parts).2 = some d) : follow fs b (parts ++ rest) =
    ((follow fs b parts).1 ++ (follow fs d rest).1, (follow fs d rest).2) := by
  induction parts generalizing b with
  | nil =>
    cases h
    rfl
  | cons part parts ih =>
    rw [follow] at h
    rw [List.cons_append, follow, follow]
    cases hl : lookup fs part (children fs (chainOf fs b)) with
    | none =>
      rw [hl] at h
      cases h
    | some c =>
      rw [hl] at h
      dsimp only at h ⊢
      rw [ih h]
      rfl

theorem follow_congr (h : ∀ x ∈ (follow fs b parts).1, ∀ name,
    lookup fs' name (children fs' (chainOf fs' x)) = lookup fs name (children fs (chainOf fs x))) :
    follow fs' b parts = follow fs b parts := by
  induction parts generalizing b with
  | nil => rfl
  | cons part parts ih =>
    rw [follow] at h
    rw [follow, follow]
    cases hl : lookup fs part (children fs (chainOf fs b)) with
    | none =>
      rw [hl] at h
      rw [h b (by simp), hl]
    | some c =>
      rw [hl] at h
      dsimp only at h ⊢
      rw [h b (by simp), hl]
      dsimp only
      rw [ih fun x hx => h x (by simp [hx])]

theorem follow_one (part : String) : follow fs d [part] =
    ([d], lookup fs part (children fs (chainOf fs d))) := by
  rw [follow]
  cases lookup fs part (children fs (chainOf fs d)) with
  | none => rfl
  | some c => rfl

/-- A path that leads to nothing, but misses no component before the last, ends in a directory that
does not list its last name. -/
theorem Walked.last (h : Walked fs uid gid path ds none) (hd : ds.getLast? = some d)
    (hlead : ¬Misses fs path) : ∃ init, partsOf path = init ++ [FileScheme.lastPart path] ∧
      (FileScheme.lastPart path).isEmpty = false ∧ (follow fs 1 init).2 = some d ∧
      (∀ x ∈ (follow fs 1 init).1, (fs.nodeAt x).isDir = true) ∧ ds = (follow fs 1 init).1 ++ [d] ∧
      lookup fs (FileScheme.lastPart path) (children fs (chainOf fs d)) = none := by
  have hleads := h.leads
  have hlast : FileScheme.lastPart path = (partsOf path).getLast?.getD "" := rfl
  have hfull : ∀ part ∈ partsOf path, part.isEmpty = false := by
    intro part hpart
    simpa using List.of_mem_filter hpart
  rw [Misses] at hlead
  rcases List.eq_nil_or_concat (partsOf path) with hnil | ⟨init, part, hparts⟩
  · rw [hnil] at hleads
    cases hleads
  · rw [List.concat_eq_append] at hparts
    rw [hparts, List.getLast?_concat, Option.getD_some] at hlast
    rw [hparts] at hleads hlead
    rw [List.dropLast_concat] at hlead
    obtain ⟨e, he⟩ := Option.ne_none_iff_exists'.mp hlead
    obtain ⟨hend, hdirs⟩ := follow_of_pathTo he
    rw [follow_append hend, follow_one] at hleads
    obtain ⟨rfl, hnone⟩ := Prod.mk.inj hleads
    obtain rfl : e = d := by simpa using hd
    rw [hlast]
    exact ⟨init, hparts, hfull part (by simp [hparts]), hend, hdirs, rfl, hnone⟩

/-- What a path passes on its way lies above its end. -/
theorem above_of_follow (hb : Reach fs b)
    (hdirs : ∀ x ∈ (follow fs b parts).1, (fs.nodeAt x).isDir = true)
    (h : (follow fs b parts).2 = some d) (hx : x ∈ (follow fs b parts).1) : Above fs x d := by
  have hall : ∀ {b}, Reach fs b → (∀ x ∈ (follow fs b parts).1, (fs.nodeAt x).isDir = true) →
      (follow fs b parts).2 = some d →
      (b = d ∨ Above fs b d) ∧ ∀ x ∈ (follow fs b parts).1, Above fs x d := by
    clear hb hdirs h hx
    induction parts with
    | nil =>
      rintro b - - ⟨⟩
      exact ⟨Or.inl rfl, by simp [follow]⟩
    | cons part parts ih =>
      intro b hb hdirs h
      rw [follow] at hdirs h ⊢
      cases hl : lookup fs part (children fs (chainOf fs b)) with
      | none =>
        rw [hl] at h
        cases h
      | some c =>
        rw [hl] at hdirs h
        dsimp only at hdirs h ⊢
        have hlist : Lists fs b c := ⟨hb, hdirs b (by simp), List.mem_of_find?_eq_some hl⟩
        obtain ⟨hc, hrest⟩ := ih (.child hb hlist.2.1 hlist.2.2) (fun x hx => hdirs x (by simp [hx])) h
        have hbd : Above fs b d := by
          rcases hc with rfl | hc
          · exact .single hlist
          · exact .head hlist hc
        refine ⟨Or.inr hbd, fun x hx => ?_⟩
        rcases List.mem_cons.mp hx with rfl | hx
        · exact hbd
        · exact hrest x hx
  exact (hall hb hdirs h).2 x hx

/-- The tree has no cycles. -/
theorem Inv.above_irrefl (h : Inv fs l) (hd : Reach fs d) : ¬Above fs d d := by
  induction hd with
  | root =>
    rw [h.base.root]
    exact h.above_root
  | @child d b hd hdir hb ih =>
    intro habove
    have hlist : Lists fs d b := ⟨hd, hdir, hb⟩
    rcases h.above_listed (h.lists_iff.mp hlist).2 habove with rfl | hbd
    · exact ih habove
    · exact ih (.head hlist hbd)

theorem lookup_congr (h : ∀ b ∈ bs, (fs'.nodeAt b).nameStr = (fs.nodeAt b).nameStr) :
    lookup fs' name bs = lookup fs name bs := by
  induction bs with
  | nil => rfl
  | cons b bs ih =>
    rw [lookup, lookup, List.find?_cons, List.find?_cons, h b (by simp)]
    rw [lookup, lookup] at ih
    rw [ih fun x hx => h x (by simp [hx])]

/-- A name that one block carries is found there. -/
theorem lookup_single (hb : b ∈ bs) (hn : (fs.nodeAt b).nameStr = some name)
    (hone : ∀ x ∈ bs, (fs.nodeAt x).nameStr = some name → x = b) : lookup fs name bs = some b := by
  cases hl : lookup fs name bs with
  | none => exact (lookup_none hl hb hn).elim
  | some x =>
    have hx := List.mem_of_find?_eq_some hl
    have hxn : (fs.nodeAt x).nameStr = some name := by simpa using List.find?_some hl
    rw [hone x hx hxn]

theorem Inv.lookup_eq (h : Inv fs l) (hd : l.chain d ≠ []) (hdir : (fs.nodeAt d).isDir = true) :
    lookup fs name (children fs (chainOf fs d)) = lookup fs name (entries fs l d) := by
  rw [h.chainOf_eq hd, h.children_eq hdir, entries_of_dir hdir]

/-- A call that removes nothing keeps the names of every directory it is not about. -/
theorem Outcome.lookup_kept (h : Outcome fs l op err fs' l') (hinv : Inv fs l) (hp : p ≠ op.target)
    (hl : l.chain p ≠ []) (hdir : (fs.nodeAt p).isDir = true)
    (hno : ∀ mode name d, op ≠ .removeNode mode name d) :
    lookup fs' name (children fs' (chainOf fs' p)) = lookup fs name (children fs (chainOf fs p)) := by
  have hinv' := (h.inv hinv).1
  have hstay : ∀ q, l.chain q ≠ [] → l'.chain q ≠ [] := fun q hq =>
    h.chain_stays hq fun mode name d hop => (hno mode name d hop).elim
  have hl' := hstay p hl
  rw [hinv.lookup_eq hl hdir, hinv'.lookup_eq hl' ((h.isDir hinv hl hl').trans hdir),
    (h.other_own hinv hp hl hl').2.2]
  refine lookup_congr fun q hq => ?_
  have hq := (hinv.entryHead p q hq).1
  exact h.nameStr hinv hq (hstay q hq)

namespace Made

theorem outcome (hm : Made fs l path flags uid gid d b fs' l') : ∃ fs₁,
    Created fs l d b (Node.new (madeMode flags) (FileScheme.lastPart path) d) fs₁ l' ∧
    Outcome fs l (.createNode (madeMode flags) (FileScheme.lastPart path) d) none fs₁ l' ∧
    Outcome fs₁ l' (.setAttr b (madeMode flags) uid gid) none fs' l' := by
  obtain ⟨fs₁, hc, hattr⟩ := hm.created
  exact ⟨fs₁, hc, .created hm.absent hc, hattr⟩

/-- The other directories list what they listed. -/
theorem lookup_other (hm : Made fs l path flags uid gid d b fs' l') (hinv : Inv fs l) (hp : p ≠ d)
    (hl : l.chain p ≠ []) (hdir : (fs.nodeAt p).isDir = true) :
    lookup fs' name (children fs' (chainOf fs' p)) = lookup fs name (children fs (chainOf fs p)) := by
  obtain ⟨fs₁, hc, hout, hattr⟩ := hm.outcome
  have hl' : l'.chain p ≠ [] := hout.chain_stays hl nofun
  have hpb : p ≠ b := by
    rintro rfl
    exact hl hc.fresh
  exact (hattr.lookup_kept hc.inv hpb hl' ((hout.isDir hinv hl hl').trans hdir) nofun).trans
    (hout.lookup_kept hinv hp hl hdir nofun)

theorem isDir (hm : Made fs l path flags uid gid d b fs' l') (hinv : Inv fs l) (hl : l.chain p ≠ []) :
    (fs'.nodeAt p).isDir = (fs.nodeAt p).isDir := by
  obtain ⟨fs₁, hc, hout, hattr⟩ := hm.outcome
  have hl' : l'.chain p ≠ [] := hout.chain_stays hl nofun
  exact (hattr.isDir hc.inv hl' hl').trans (hout.isDir hinv hl hl')

/-- The directory finds the new node under its name, if the node carries it. -/
theorem lookup_self (hm : Made fs l path flags uid gid d b fs' l') (hinv : Inv fs l)
    (hl : l.chain d ≠ []) (hdir : (fs.nodeAt d).isDir = true) :
    lookup fs' (FileScheme.lastPart path) (children fs' (chainOf fs' d)) =
      if (fs'.nodeAt b).nameStr = some (FileScheme.lastPart path) then some b else none := by
  obtain ⟨fs₁, hc, hout, hattr⟩ := hm.outcome
  have hinv' := (hattr.inv hc.inv).1
  have hstay : ∀ q, l.chain q ≠ [] → l'.chain q ≠ [] := fun q hq => hout.chain_stays hq nofun
  have hl' := hstay d hl
  have hdir₁ : (fs₁.nodeAt d).isDir = true := (hout.isDir hinv hl hl').trans hdir
  have hdb : d ≠ b := by
    rintro rfl
    exact hl hc.fresh
  have hentries : (entries fs' l' d).Perm (b :: entries fs l d) := by
    rw [(hattr.other_own hc.inv hdb hl' hl').2.2]
    exact hc.entries hdir
  -- nothing listed before carries the name
  have hold : ∀ q ∈ entries fs l d, (fs'.nodeAt q).nameStr ≠ some (FileScheme.lastPart path) := by
    intro q hq
    have hql := (hinv.entryHead d q hq).1
    rw [hattr.nameStr hc.inv (hstay q hql) (hstay q hql), hout.nameStr hinv hql (hstay q hql)]
    rw [entries_of_dir hdir] at hq
    exact lookup_none hm.absent hq
  rw [hinv'.lookup_eq hl' ((hm.isDir hinv hl).trans hdir)]
  by_cases hn : (fs'.nodeAt b).nameStr = some (FileScheme.lastPart path)
  · rw [if_pos hn]
    refine lookup_single (hentries.mem_iff.mpr List.mem_cons_self) hn fun x hx hxn => ?_
    rcases List.mem_cons.mp (hentries.mem_iff.mp hx) with rfl | hx
    · rfl
    · exact (hold x hx hxn).elim
  · rw [if_neg hn]
    refine List.find?_eq_none.mpr fun x hx hxn => ?_
    have hxn : (fs'.nodeAt x).nameStr = some (FileScheme.lastPart path) := by simpa using hxn
    rcases List.mem_cons.mp (hentries.mem_iff.mp hx) with rfl | hx
    · exact hn hxn
    · exact hold x hx hxn

/-- The path leads the same way after the creation, and one step further. -/
theorem follow (hm : Made fs l path flags uid gid d b fs' l') (hinv : Inv fs l)
    (hw : Walked fs uid gid path ds none) (hd : ds.getLast? = some d) (hlead : ¬Misses fs path) :
    RedoxFs.follow fs' 1 (partsOf path) =
      (ds, lookup fs' (FileScheme.lastPart path) (children fs' (chainOf fs' d))) := by
  obtain ⟨init, hparts, -, hend, hdirs, rfl, -⟩ := hw.last hd hlead
  have hreach := (hw.reach hinv).1
  have hsame : RedoxFs.follow fs' 1 init = RedoxFs.follow fs 1 init := by
    refine follow_congr fun x hx name => ?_
    have hxd : x ≠ d := by
      rintro rfl
      exact hinv.above_irrefl (hreach x (by simp)) (above_of_follow hinv.reach_root hdirs hend hx)
    exact hm.lookup_other hinv hxd (hinv.reach (hreach x (List.mem_append_left _ hx))) (hdirs x hx)
  rw [hparts, follow_append (hsame ▸ hend), follow_one, hsame]

theorem inv (hm : Made fs l path flags uid gid d b fs' l') : Inv fs' l' := by
  obtain ⟨fs₁, hc, -, hattr⟩ := hm.outcome
  exact (hattr.inv hc.inv).1

/-- What the path is looked up as after the creation. -/
theorem pathNodes (hm : Made fs l path flags uid gid d b fs' l') (hinv : Inv fs l)
    (hw : Walked fs uid gid path ds none) (hd : ds.getLast? = some d) (hlead : ¬Misses fs path) :
    RedoxFs.pathNodes path fs' = .ok (ds.map fun x => (x, fs'.nodeAt x), found fs'
      (if (fs'.nodeAt b).nameStr = some (FileScheme.lastPart path) then some b else none)) fs' := by
  have hreach := (hw.reach hinv).1
  have hdm := List.mem_of_getLast? hd
  have hfollow := hm.follow hinv hw hd hlead
  rw [hm.lookup_self hinv (hinv.reach (hreach d hdm)) (hw.dirs d hdm)] at hfollow
  have hdirs : ∀ x ∈ (RedoxFs.follow fs' 1 (partsOf path)).1, (fs'.nodeAt x).isDir = true := by
    rw [hfollow]
    intro x hx
    exact (hm.isDir hinv (hinv.reach (hreach x hx))).trans (hw.dirs x hx)
  have hrun := hm.inv.pathNodes_run hdirs
  rw [hfollow] at hrun
  exact hrun

end Made

theorem Node.nameStr_owner (n : Node) (uid gid : Nat) :
    ({ n with uid := uid, gid := gid } : Node).nameStr = n.nameStr := rfl

theorem madeResource_block : (madeResource path b flags).block = b := by
  rw [madeResource]
  split
  · rfl
  · rfl

/-- A path leads to its file also when that has been truncated. -/
theorem Walked.pathNodes_cut {len : Nat} (h : Walked fs uid gid path ds (some b)) (hinv : Inv fs l)
    (hfile : (fs.nodeAt b).isDir = false) (hout : Outcome fs l (.nodeSetLen b len) none fs' l') :
    pathNodes path fs' = .ok (ds.map fun x => (x, fs'.nodeAt x), .ok (b, fs'.nodeAt b)) fs' := by
  have hreach := (h.reach hinv).1
  have hfollow : follow fs' 1 (partsOf path) = (ds, some b) := by
    rw [follow_congr, h.leads]
    rw [h.leads]
    intro x hx name
    have hxb : x ≠ b := by
      rintro rfl
      rw [h.dirs x hx] at hfile
      cases hfile
    exact hout.lookup_kept hinv hxb (hinv.reach (hreach x hx)) (h.dirs x hx) nofun
  have hdirs : ∀ x ∈ (follow fs' 1 (partsOf path)).1, (fs'.nodeAt x).isDir = true := by
    rw [hfollow]
    intro x hx
    have hxl := hinv.reach (hreach x hx)
    exact (hout.isDir hinv hxl (hout.chain_stays hxl nofun)).trans (h.dirs x hx)
  have hrun := (hout.inv hinv).1.pathNodes_run hdirs
  rw [hfollow] at hrun
  exact hrun

/-- Where the path leads to nothing, `open` never reports that, and what it returns it has made. -/
theorem Inv.ends_create (h : Inv s.fs l) (hu : uid < 2 ^ 32) (hg : gid < 2 ^ 32)
    (hcreat : flags &&& O_CREAT = O_CREAT)
    (hnone : ∀ ds o, Walked s.fs uid gid (FileScheme.urlPath url) ds o → o = none) :
    Ends (Request.openUrl url flags uid gid).run s (Back fun r _ => r ≠ .error .ENOENT ∧
      ∀ reply, r = .ok reply → Makes s.fs (FileScheme.urlPath url) flags uid gid) := by
  apply ends_reply
  rw [FileScheme.openUrl_eq]
  refine FileScheme.ends_walked h (fun e he => ?_) fun ds o hw => ?_
  · rcases he with rfl | rfl
    · exact ⟨by rintro ⟨⟩, by rintro _ ⟨⟩⟩
    · exact ⟨by rintro ⟨⟩, by rintro _ ⟨⟩⟩
  obtain rfl := hnone ds o hw
  obtain ⟨hreach, -⟩ := hw.reach h
  have hds : ∀ d ∈ ds, l.chain d ≠ [] ∧ (s.fs.nodeAt d).isDir = true :=
    fun d hd => ⟨h.reach (hreach d hd), hw.dirs d hd⟩
  unfold FileScheme.openNode
  simp only [found, true_and]
  rw [if_pos hcreat]
  refine FileScheme.ends_seq (FileScheme.ends_openCreate h hds hu hg) ?_ ?_
  · rintro res s' (⟨-, e, he, -⟩ | ⟨d, l', hd, hwrite, -, ⟨e, he, -⟩ |
      ⟨hspace, b, hm, ⟨he, -⟩ | ⟨-, hgr⟩⟩⟩)
    · cases he
    · cases he
    · cases he
    · rw [← h.chainOf_eq (hds d (List.mem_of_getLast? hd)).1] at hspace
      rw [hm.node] at hgr
      exact FileScheme.ends_addFile ⟨by rintro ⟨⟩, fun _ _ => ⟨ds, d, hw, hd, hwrite, hspace, hgr⟩⟩
  · have hno : ∀ e : Errno, e ≠ .ENOENT → (Except.error e : Except Errno Reply) ≠ .error .ENOENT :=
      fun e hne heq => hne (Except.error.inj heq)
    rintro e s' (⟨-, e', he, hne⟩ | ⟨d, l', -, -, -, ⟨e', he, hne, -⟩ | ⟨-, b, -, ⟨he, -⟩ | ⟨hres, -⟩⟩⟩)
    · cases he
      exact ⟨hno _ hne, by rintro _ ⟨⟩⟩
    · cases he
      exact ⟨hno _ hne, by rintro _ ⟨⟩⟩
    · cases he
      exact ⟨by rintro ⟨⟩, by rintro _ ⟨⟩⟩
    · cases hres

/-- `open` makes a name that nothing stands against. -/
theorem Makes.run (hmakes : Makes s.fs (FileScheme.urlPath url) flags uid gid) (h : Inv s.fs l)
    (hu : uid < 2 ^ 32) (hg : gid < 2 ^ 32) (hcreat : flags &&& O_CREAT = O_CREAT)
    (hlead : ¬Misses s.fs (FileScheme.urlPath url)) :
    ∃ ds d b fs' l', Walked s.fs uid gid (FileScheme.urlPath url) ds none ∧ ds.getLast? = some d ∧
      Made s.fs l (FileScheme.urlPath url) flags uid gid d b fs' l' ∧
      Answers (Request.openUrl url flags uid gid).run s (.ok (.num s.nextId))
        ((s.withFs fs').added (madeResource (FileScheme.urlPath url) b flags)) := by
  obtain ⟨ds, d, hw, hd, hwrite, hspace, hgr⟩ := hmakes
  have hdm := List.mem_of_getLast? hd
  have hdl := h.reach ((hw.reach h).1 d hdm)
  have hdir := hw.dirs d hdm
  obtain ⟨-, -, hname, -, -, -, habsent⟩ := hw.last hd hlead
  rw [h.chainOf_eq hdl, h.children_eq hdir] at habsent
  rw [h.chainOf_eq hdl] at hspace
  rcases h.makeNode_cases (FileScheme.lastPart (FileScheme.urlPath url)) hdl hdir
    (madeMode_lt flags) with ⟨hno, -⟩ | ⟨hno, -⟩ | ⟨-, b, fs₁, l', hok, hc⟩
  · exact (hspace.1 hno).elim
  · exact (hspace.2 hno).elim
  · have hrun := (h.createNode_absent (madeMode flags) hdl hdir habsent).trans hok
    obtain ⟨hattr, hnode⟩ := hc.made (madeMode_lt flags) hu hg
    exact ⟨ds, d, b, _, l', hw, hd, ⟨habsent, ⟨fs₁, hc, hattr⟩, hnode⟩,
      .ok (bind_of_ok (FileScheme.openUrl_makes h hw hd hwrite hname hcreat hrun
        hc.within hgr))⟩

/-- A resource is added for the block that the path leads to. -/
theorem opened_added {res : Resource} {nodes : List (Nat × Node)} (hb : res.block = b)
    (hpath : pathNodes path fs = .ok (nodes, .ok (b, fs.nodeAt b)) fs) :
    ∃ res' nodes, ((s.withFs fs).added res).files s.nextId = some res' ∧
      pathNodes path ((s.withFs fs).added res).fs =
        .ok (nodes, .ok (res'.block, ((s.withFs fs).added res).fs.nodeAt res'.block))
          ((s.withFs fs).added res).fs := by
  subst hb
  exact ⟨res, nodes, FileScheme.added_self (s.withFs fs) res, hpath⟩

/-- After every safe run, `open` with `O_CREAT` opens what its path then leads to, and reports a
missing component, just when no component before the last is missing, and no name is made that a
node cannot hold. -/
theorem open_creates_at_path (h : Reachable Safe s.fs) (hu : uid < 2 ^ 32) (hg : gid < 2 ^ 32)
    (hcreat : flags &&& O_CREAT = O_CREAT) : OpensPath s url flags uid gid ↔
      ¬Misses s.fs (FileScheme.urlPath url) ∧
        (Makes s.fs (FileScheme.urlPath url) flags uid gid →
          Storable (FileScheme.lastPart (FileScheme.urlPath url))) := by
  obtain ⟨l, hinv, -⟩ := h.inv
  constructor
  · intro hopens
    have hlead : ¬Misses s.fs (FileScheme.urlPath url) := by
      intro hm
      obtain ⟨s', ha, -⟩ := hopens.missing hm
      exact (ha.of_ends (hinv.ends_create hu hg hcreat fun ds o hw => hw.none_of_misses hm)).1 rfl
    refine ⟨hlead, fun hmakes => ?_⟩
    obtain ⟨ds, d, b, fs', l', hw, hd, hm, ha⟩ := hmakes.run hinv hu hg hcreat hlead
    obtain ⟨res, nodes, -, hpath⟩ := hopens.opened _ _ ha
    have hrun := hm.pathNodes hinv hw hd hlead
    by_cases hn : (fs'.nodeAt b).nameStr = some (FileScheme.lastPart (FileScheme.urlPath url))
    · exact Node.nameStr_fits (nodeAt_valid fs' b).name hn
    · rw [if_neg hn] at hrun
      cases hrun.symm.trans hpath
  · rintro ⟨hlead, hstore⟩
    refine ⟨fun id s' ha => ?_, fun hm => (hlead hm).elim⟩
    obtain ⟨l', hans⟩ := ha.of_ends (hinv.ends_openUrl hu hg)
    have hfound : ∀ {b ds}, Walked s.fs uid gid (FileScheme.urlPath url) ds (some b) →
        pathNodes (FileScheme.urlPath url) s.fs =
          .ok (ds.map fun x => (x, s.fs.nodeAt x), .ok (b, s.fs.nodeAt b)) s.fs := by
      intro b ds hw
      have hrun : pathNodes (FileScheme.urlPath url) s.fs = _ :=
        hinv.pathNodes_run (by rw [hw.leads]; exact hw.dirs)
      rw [hw.leads] at hrun
      exact hrun
    cases hans with
    | openedDir hw => exact opened_added (s := s) rfl (hfound hw)
    | openedFile hw => exact opened_added (s := s) rfl (hfound hw)
    | truncated hw hfile _ _ hout => exact opened_added rfl (hw.pathNodes_cut hinv hfile hout)
    | @made _ _ _ _ d b ds fs' l' hw hd hm hgr =>
      have hnone : ∀ ds' o, Walked s.fs uid gid (FileScheme.urlPath url) ds' o → o = none := by
        intro ds' o hw'
        exact (Prod.mk.inj (hw'.leads.symm.trans hw.leads)).2
      have hmakes := (ha.of_ends (hinv.ends_create hu hg hcreat hnone)).2 _ rfl
      obtain ⟨hlen, hzero⟩ := hstore hmakes
      have hrun := hm.pathNodes hinv hw hd hlead
      have hname : (fs'.nodeAt b).nameStr = some (FileScheme.lastPart (FileScheme.urlPath url)) := by
        rw [hm.node, Node.nameStr_owner]
        exact Node.nameStr_new hlen hzero
      rw [if_pos hname] at hrun
      exact opened_added madeResource_block hrun
    | removed hreq => rcases hreq with ⟨hc, -⟩ | ⟨hc, -⟩ <;> cases hc
    | told hreq => rcases hreq with ⟨_, _, hc⟩ | ⟨_, hc⟩ | ⟨_, hc⟩ <;> cases hc

/-- A file opened in the root of a new disk is found there. -/
theorem first_open_creates_at_path : ∃ fs s', create (blankDisk 7) = .ok fs ∧
    OpensPath (FileScheme.new "disk" fs) [97] makeFlags 0 0 ∧
    Answers (Request.openUrl [97] makeFlags 0 0).run (FileScheme.new "disk" fs) (.ok (.num 1)) s' := by
  have hsize : (blankDisk 7).size < 2 ^ 64 := by decide
  obtain ⟨fs, hc⟩ := create_ok (show 4 * 512 ≤ (blankDisk 7).size by decide)
  obtain ⟨fs', l', -, hans⟩ := open_first (n := 7) rfl (by omega) (by omega) hc "disk"
  have hlead : ¬Misses fs (FileScheme.urlPath [97]) := by
    rw [Misses, parts_a]
    exact Option.some_ne_none 1
  have hlast : FileScheme.lastPart (FileScheme.urlPath [97]) = "a" := by
    change (partsOf (FileScheme.urlPath [97])).getLast?.getD "" = "a"
    rw [parts_a]
    rfl
  refine ⟨fs, _, hc, ?_, hans⟩
  refine (open_creates_at_path ⟨_, fs, _, hsize, hc, .nil⟩ (by omega) (by omega) (by decide)).mpr
    ⟨hlead, fun _ => ?_⟩
  rw [hlast]
  exact ⟨by decide, by decide⟩

theorem parts_xy : partsOf (FileScheme.urlPath [120, 47, 121]) = ["x", "y"] := by decide +kernel

/-- `x/y` is opened on a disk without `x`: it makes `y` in the root. -/
theorem missing_parent_is_passed_over : ∃ fs s', create (blankDisk 7) = .ok fs ∧
    Misses fs (FileScheme.urlPath [120, 47, 121]) ∧
    Answers (Request.openUrl [120, 47, 121] makeFlags 0 0).run (FileScheme.new "disk" fs)
      (.ok (.num 1)) s' ∧
    (s'.fs.nodeAt 4).nameStr = some "y" ∧ 4 ∈ children s'.fs (chainOf s'.fs 1) ∧
    ¬OpensPath (FileScheme.new "disk" fs) [120, 47, 121] makeFlags 0 0 := by
  have hsize : (blankDisk 7).size < 2 ^ 64 := by decide
  obtain ⟨fs, hc⟩ := create_ok (show 4 * 512 ≤ (blankDisk 7).size by decide)
  have hinv := create_inv hsize hc
  obtain ⟨fs', l', hok, hcreated, hfirst⟩ := first_node (n := 7) "y" rfl (by omega) (by omega) hc
    (show madeMode makeFlags < 2 ^ 16 by decide)
  have habsent : ∀ name, lookup fs name (children fs (chainOf fs 1)) = none := by
    intro name
    rw [hinv.chainOf_eq hinv.rootChain, hinv.children_eq hinv.rootDir,
      listing_fresh (by decide) hc]
    rfl
  have hmiss : Misses fs (FileScheme.urlPath [120, 47, 121]) := by
    rw [Misses, parts_xy, List.dropLast_cons_cons, pathTo, if_pos hinv.rootDir, habsent]
    rfl
  have hfollow : follow fs 1 (partsOf (FileScheme.urlPath [120, 47, 121])) = ([1], none) := by
    rw [parts_xy, follow, habsent]
  have hlast : FileScheme.lastPart (FileScheme.urlPath [120, 47, 121]) = "y" := by
    change (partsOf (FileScheme.urlPath [120, 47, 121])).getLast?.getD "" = "y"
    rw [parts_xy]
    rfl
  have hrun : FileScheme.openUrl [120, 47, 121] makeFlags 0 0 (FileScheme.new "disk" fs) = _ :=
    FileScheme.openUrl_made hinv hfollow
      (fun d hd => by rw [List.mem_singleton.mp hd]; exact hinv.rootDir) rfl (by rw [hlast]; decide)
      (by decide) ⟨rfl, rfl⟩ (by rw [hlast]; exact hok) hcreated.node hcreated.within
  have hans := Answers.ok (x := (Request.openUrl [120, 47, 121] makeFlags 0 0).run) (bind_of_ok hrun)
  have hname : (fs'.nodeAt 4).nameStr = some "y" := by
    rw [hfirst.node]
    exact Node.nameStr_new (by decide) (by decide)
  have hlisted : 4 ∈ children fs' (chainOf fs' 1) := by
    rw [hfirst.inv.chainOf_eq hfirst.inv.rootChain, hfirst.inv.children_eq hfirst.inv.rootDir,
      hfirst.rootChain, listing_cons, listing_nil, hfirst.root]
    decide
  refine ⟨fs, _, hc, hmiss, hans, hname, hlisted, fun hopens => ?_⟩
  obtain ⟨s', ha, -⟩ := hopens.missing hmiss
  cases hans with
  | ok h =>
    cases ha with
    | error h' =>
      rw [h] at h'
      cases h'

end Origel.RedoxFs
