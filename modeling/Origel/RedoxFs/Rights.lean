import Mathlib.Logic.Relation
import Origel.RedoxFs.Handles

/-! What a handle may do, against what its file granted when it was opened. -/
namespace Origel.RedoxFs

open Origel.Lib FileSystem Relation

variable {fs fs' : FileSystem} {s s' : FileScheme} {a b c d p x mode uid gid flags id : Nat}
  {l l' : Layout} {op : Op} {path : String} {parts : List String} {ds : List Nat} {o : Option Nat}
  {err : Option Errno} {req : Request} {r : Except Errno Reply}

/-- The directory lists the block. -/
def Lists (fs : FileSystem) (d b : Nat) : Prop :=
  Reach fs d ∧ (fs.nodeAt d).isDir = true ∧ b ∈ children fs (chainOf fs d)

/-- The ancestor directories of a block. -/
def Above (fs : FileSystem) : Nat → Nat → Prop := TransGen (Lists fs)

/-- Who has opened what, and what the file system was then. -/
structure Opening where
  fs : FileSystem
  uid : Nat
  gid : Nat
  block : Nat

/-- The ancestors let the opener search them, and the file granted the operation. -/
structure Opening.Permits (o : Opening) (op : Nat) : Prop where
  search : ∀ a, Above o.fs a o.block → (o.fs.nodeAt a).permission o.uid o.gid Node.MODE_EXEC = true
  file : (o.fs.nodeAt o.block).permission o.uid o.gid op = true

/-- A session with a record of the opening each handle comes from. -/
structure Audit where
  session : Session
  openings : Nat → Opening

namespace Audit

def start (name : String) (fs : FileSystem) : Audit :=
  ⟨Session.start name fs, fun _ => ⟨fs, 0, 0, 0⟩⟩

def scheme (w : Audit) : FileScheme := w.session.scheme

/-- An open is recorded under its handle, and a copy comes from the opening of its original. -/
def recorded (w : Audit) (req : Request) (r : Except Errno Reply) (s' : FileScheme) : Nat → Opening :=
  match req, r with
  | .openUrl _ _ uid gid, .ok (.num id) =>
    match s'.files id with
    | some res => Function.update w.openings id ⟨s'.fs, uid, gid, res.block⟩
    | none => w.openings
  | .dup old _, .ok (.num id) => Function.update w.openings id (w.openings old)
  | _, _ => w.openings

noncomputable def next (w : Audit) (req : Request) (r : Except Errno Reply) (s' : FileScheme) :
    Audit :=
  ⟨w.session.next req r s', w.recorded req r s'⟩

/-- One request that meets `P`. -/
def Step (P : FileScheme → Request → Prop) (w : Audit) (req : Request) (w' : Audit) : Prop :=
  req.Typed ∧ P w.scheme req ∧ ∃ r s', Answers req.run w.scheme r s' ∧ w' = w.next req r s'

end Audit

/-- The flags of a handle that reads or writes are not set. -/
def Unflagged (s : FileScheme) (req : Request) : Prop :=
  ∀ id arg f, req = .fcntl id F_SETFL arg → s.files id = some (.file f) →
    f.canRead = false ∧ f.canWrite = false

/-- The request leaves every handle it is made through what it may do. -/
def RightsKept (s : FileScheme) (req : Request) (s' : FileScheme) : Prop :=
  ∀ id cmd arg f f', req = .fcntl id cmd arg → s.files id = some (.file f) →
    s'.files id = some (.file f') → f'.canRead = f.canRead ∧ f'.canWrite = f.canWrite

/-- Bytes are read and changes are made only with the rights granted at the opening. -/
structure Controlled (w : Audit) (req : Request) (r : Except Errno Reply) (s' : FileScheme) :
    Prop where
  reads : ∀ id buf f out n, req = .read id buf → w.scheme.files id = some (.file f) →
    r = .ok (.bytes out n) → (w.openings id).Permits Node.MODE_READ
  writes : ∀ id, (∃ buf, req = .write id buf) ∨ (∃ len, req = .ftruncate id len) →
    (∃ reply, r = .ok reply) ∨ s'.fs ≠ w.scheme.fs → (w.openings id).Permits Node.MODE_WRITE
  truncates : ∀ url flags uid gid p, req = .openUrl url flags uid gid → Reach w.scheme.fs p →
    (w.scheme.fs.nodeAt p).isDir = false → contentOf s'.fs p ≠ contentOf w.scheme.fs p →
    ∃ id, r = .ok (.num id) ∧ (w.recorded req r s' id).block = p ∧
      (w.recorded req r s' id).Permits Node.MODE_WRITE

namespace Inv

theorem lists_iff (h : Inv fs l) : Lists fs d b ↔ Reach fs d ∧ b ∈ entries fs l d := by
  constructor
  · rintro ⟨hreach, hdir, hb⟩
    rw [h.chainOf_eq (h.reach hreach), h.children_eq hdir, ← entries_of_dir hdir] at hb
    exact ⟨hreach, hb⟩
  · rintro ⟨hreach, hb⟩
    have hdir : (fs.nodeAt d).isDir = true := by
      by_contra hno
      rw [entries, if_neg hno] at hb
      cases hb
    refine ⟨hreach, hdir, ?_⟩
    rw [h.chainOf_eq (h.reach hreach), h.children_eq hdir, ← entries_of_dir hdir]
    exact hb

/-- A block hangs on one directory. -/
theorem lists_unique (h : Inv fs l) (hc : Lists fs c b) (hd : b ∈ entries fs l d) : c = d :=
  h.listed.disjoint c d b (h.lists_iff.mp hc).2 hd

theorem above_root (h : Inv fs l) : ¬Above fs a 1 := by
  have hroot : ∀ d, ¬Lists fs d 1 := fun d hd =>
    (h.entryHead d 1 (h.lists_iff.mp hd).2).2 rfl
  intro ha
  cases ha with
  | single hd => exact hroot a hd
  | tail _ hd => exact hroot _ hd

/-- The ancestors of an entry are its directory and the ancestors of that. -/
theorem above_listed (h : Inv fs l) (hd : b ∈ entries fs l d) (ha : Above fs a b) :
    a = d ∨ Above fs a d := by
  cases ha with
  | single hab => exact Or.inl (h.lists_unique hab hd)
  | tail hac hcb =>
    rw [h.lists_unique hcb hd] at hac
    exact Or.inr hac

/-- The ancestors of what a path leads through and to are passed on the way, or lie above its start. -/
theorem above_follow (h : Inv fs l) (hb : Reach fs b)
    (hdirs : ∀ x ∈ (follow fs b parts).1, (fs.nodeAt x).isDir = true)
    (hx : x ∈ (follow fs b parts).1 ∨ (follow fs b parts).2 = some x) (ha : Above fs a x) :
    a ∈ (follow fs b parts).1 ∨ Above fs a b := by
  induction parts generalizing b with
  | nil =>
    right
    rcases hx with hx | hx
    · cases hx
    · cases hx
      exact ha
  | cons part parts ih =>
    rw [follow] at hdirs hx ⊢
    cases hl : lookup fs part (children fs (chainOf fs b)) with
    | none =>
      rw [hl] at hx
      right
      rcases hx with hx | hx
      · rw [List.mem_singleton.mp hx] at ha
        exact ha
      · cases hx
    | some c =>
      rw [hl] at hdirs hx
      dsimp only at hdirs hx ⊢
      have hlist : Lists fs b c := ⟨hb, hdirs b (by simp), List.mem_of_find?_eq_some hl⟩
      have hdeeper : x ∈ (follow fs c parts).1 ∨ (follow fs c parts).2 = some x →
          a ∈ b :: (follow fs c parts).1 ∨ Above fs a b := by
        intro hx
        have hc : Reach fs c := .child hb hlist.2.1 hlist.2.2
        rcases ih hc (fun y hy => hdirs y (by simp [hy])) hx with ha | ha
        · exact Or.inl (List.mem_cons_of_mem b ha)
        · rcases h.above_listed (h.lists_iff.mp hlist).2 ha with rfl | ha
          · exact Or.inl List.mem_cons_self
          · exact Or.inr ha
      rcases hx with hx | hx
      · rcases List.mem_cons.mp hx with rfl | hx
        · exact Or.inr ha
        · exact hdeeper (Or.inl hx)
      · exact hdeeper (Or.inr hx)

end Inv

theorem Walked.above (h : Walked fs uid gid path ds o) (hinv : Inv fs l) (hx : x ∈ ds ∨ o = some x)
    (ha : Above fs a x) : a ∈ ds := by
  have hdirs : ∀ y ∈ (follow fs 1 (partsOf path)).1, (fs.nodeAt y).isDir = true := by
    rw [h.leads]
    exact h.dirs
  have hpassed := hinv.above_follow (a := a) (x := x) hinv.reach_root hdirs
  rw [h.leads] at hpassed
  exact (hpassed hx ha).resolve_right hinv.above_root

/-- No call gives an object of old another ancestor. -/
theorem Outcome.above_back (h : Outcome fs l op err fs' l') (hinv : Inv fs l) (hapt : op.Apt fs l)
    (ha : Above fs' a b) (hb : l.chain b ≠ []) : Above fs a b := by
  have hinv' := (h.inv hinv).1
  have hback : ∀ {d b}, Lists fs' d b → l.chain b ≠ [] → Lists fs d b ∧ l.chain d ≠ [] := by
    intro d b hd hb
    obtain ⟨hreach, hent⟩ := hinv'.lists_iff.mp hd
    have hent₀ := h.entries_back hinv hapt hent hb
    have hne := chain_of_entry hent₀
    exact ⟨hinv.lists_iff.mpr ⟨h.reach_back hinv hapt hreach hne, hent₀⟩, hne⟩
  induction ha with
  | single hd => exact .single (hback hd hb).1
  | tail _ hd ih =>
    obtain ⟨hd', hne⟩ := hback hd hb
    exact .tail (ih hne) hd'

/-- Only a change of attributes changes what a node grants. -/
theorem Outcome.permission (h : Outcome fs l op err fs' l') (hinv : Inv fs l) (hp : l.chain p ≠ [])
    (hp' : l'.chain p ≠ []) (hno : ∀ perm uid gid, op ≠ .setAttr p perm uid gid) (perm : Nat) :
    (fs'.nodeAt p).permission uid gid perm = (fs.nodeAt p).permission uid gid perm := by
  rcases h.node_cases hinv hp hp' with hattrs | ⟨perm, uid, gid, rfl, -⟩
  · exact Node.permission_attrs hattrs ..
  · exact (hno perm uid gid rfl).elim

/-- A path that has led to a block permits what the block grants. -/
theorem Walked.permits {perm : Nat} (h : Walked fs uid gid path ds (some b)) (hinv : Inv fs l)
    (hp : (fs.nodeAt b).permission uid gid perm = true) : Opening.Permits ⟨fs, uid, gid, b⟩ perm :=
  ⟨fun _ ha => h.exec _ (h.above hinv (Or.inr rfl) ha), hp⟩

/-- It still does when the file has been truncated. -/
theorem Walked.permits_cut {perm len : Nat} (h : Walked fs uid gid path ds (some b))
    (hinv : Inv fs l) (hfile : (fs.nodeAt b).isDir = false)
    (hout : Outcome fs l (.nodeSetLen b len) none fs' l')
    (hp : (fs.nodeAt b).permission uid gid perm = true) : Opening.Permits ⟨fs', uid, gid, b⟩ perm := by
  obtain ⟨hreach, hend⟩ := h.reach hinv
  have hb := hinv.reach (hend b rfl)
  have hsame : ∀ p perm, Reach fs p →
      (fs'.nodeAt p).permission uid gid perm = (fs.nodeAt p).permission uid gid perm := by
    intro p perm hr
    have hp := hinv.reach hr
    exact hout.permission hinv hp (hout.chain_stays hp nofun) nofun perm
  constructor
  case search =>
    intro a ha
    have hmem := h.above hinv (Or.inr rfl) (hout.above_back hinv ⟨hb, hfile⟩ ha hb)
    exact (hsame a _ (hreach a hmem)).trans (h.exec a hmem)
  case file => exact (hsame b _ (hend b rfl)).trans hp

/-- What `open` has made hangs on the directory the path has led to, which could be searched. -/
theorem Made.permits {perm : Nat} (hm : Made fs l path flags uid gid d b fs' l') (hinv : Inv fs l)
    (hw : Walked fs uid gid path ds none) (hd : ds.getLast? = some d)
    (hp : (fs'.nodeAt b).permission uid gid perm = true) : Opening.Permits ⟨fs', uid, gid, b⟩ perm := by
  refine ⟨fun a ha => ?_, hp⟩
  have hreach := (hw.reach hinv).1
  have hdm := List.mem_of_getLast? hd
  have hdl := hinv.reach (hreach d hdm)
  obtain ⟨fs₁, hc, hattr⟩ := hm.created
  have hout : Outcome fs l (.createNode (madeMode flags) (FileScheme.lastPart path) d) none fs₁ l' :=
    .created hm.absent hc
  have hb : l'.chain b ≠ [] := by simp [hc.self]
  have hdir : (fs.nodeAt d).isDir = true := hw.dirs d hdm
  have ha₁ := hattr.above_back hc.inv ⟨hb, trivial⟩ ha hb
  have hent : b ∈ entries fs₁ l' d := (hc.entries hdir).mem_iff.mpr List.mem_cons_self
  have hmem : a ∈ ds := by
    rcases hc.inv.above_listed hent ha₁ with rfl | had
    · exact hdm
    · exact hw.above hinv (Or.inl hdm) (hout.above_back hinv ⟨hdl, trivial⟩ had hdl)
  have hal := hinv.reach (hreach a hmem)
  have hal' : l'.chain a ≠ [] := hout.chain_stays hal nofun
  have hab : b ≠ a := by
    rintro rfl
    exact hal hc.fresh
  calc (fs'.nodeAt a).permission uid gid Node.MODE_EXEC
      = (fs₁.nodeAt a).permission uid gid Node.MODE_EXEC :=
        hattr.permission hc.inv hal' hal' (fun _ _ _ heq => hab (Op.setAttr.inj heq).1) _
    _ = (fs.nodeAt a).permission uid gid Node.MODE_EXEC := hout.permission hinv hal hal' nofun _
    _ = true := hw.exec a hmem

/-- The invariant of audits: a handle may do what the opening it comes from permits. -/
structure Rightful (w : Audit) (l : Layout) : Prop where
  tracks : Tracks w.session l
  block : ∀ id res, w.scheme.files id = some res → (w.openings id).block = res.block
  read : ∀ id f, w.scheme.files id = some (.file f) → f.canRead = true →
    (w.openings id).Permits Node.MODE_READ
  write : ∀ id f, w.scheme.files id = some (.file f) → f.canWrite = true →
    (w.openings id).Permits Node.MODE_WRITE

/-- The resource is about the same block and may do no more. -/
structure Resource.Weakens (res res' : Resource) : Prop where
  block : res'.block = res.block
  rights : ∀ f', res' = .file f' → ∃ f, res = .file f ∧ (f'.canRead = true → f.canRead = true) ∧
    (f'.canWrite = true → f.canWrite = true)

theorem Resource.Weakens.refl (res : Resource) : res.Weakens res :=
  ⟨rfl, fun f hf => ⟨f, hf, fun h => h, fun h => h⟩⟩

section Step

variable {w : Audit} {res res' : Resource}

/-- Each handle comes from the opening it came from, and may do no more than before. -/
theorem Rightful.kept (h : Rightful w l) (ht : Tracks (w.next req r s').session l')
    (ho : w.recorded req r s' = w.openings)
    (hfiles : ∀ id res', s'.files id = some res' →
      ∃ res, w.scheme.files id = some res ∧ res.Weakens res') : Rightful (w.next req r s') l' := by
  have hopen : (w.next req r s').openings = w.openings := ho
  constructor
  case tracks => exact ht
  case block =>
    intro id res' hres'
    obtain ⟨res, hres, hweak⟩ := hfiles id res' hres'
    rw [hopen, hweak.block]
    exact h.block id res hres
  case read =>
    intro id f' hf' hc
    obtain ⟨res, hres, hweak⟩ := hfiles id _ hf'
    obtain ⟨f, rfl, hread, -⟩ := hweak.rights f' rfl
    rw [hopen]
    exact h.read id f hres (hread hc)
  case write =>
    intro id f' hf' hc
    obtain ⟨res, hres, hweak⟩ := hfiles id _ hf'
    obtain ⟨f, rfl, -, hwrite⟩ := hweak.rights f' rfl
    rw [hopen]
    exact h.write id f hres (hwrite hc)

/-- A handle is added that comes from an opening which permits what it may do. -/
theorem Rightful.added (h : Rightful w l) (ht : Tracks (w.next req r s').session l') (o : Opening)
    (hfiles : s'.files = Function.update w.scheme.files id (some res))
    (ho : w.recorded req r s' = Function.update w.openings id o) (hblock : o.block = res.block)
    (hread : ∀ f, res = .file f → f.canRead = true → o.Permits Node.MODE_READ)
    (hwrite : ∀ f, res = .file f → f.canWrite = true → o.Permits Node.MODE_WRITE) :
    Rightful (w.next req r s') l' := by
  have hopen : (w.next req r s').openings = Function.update w.openings id o := ho
  have hcases : ∀ i x, s'.files i = some x →
      i = id ∧ x = res ∧ (w.next req r s').openings i = o ∨
      w.scheme.files i = some x ∧ (w.next req r s').openings i = w.openings i := by
    intro i x hx
    rw [hfiles] at hx
    rw [hopen]
    by_cases hi : i = id
    · subst hi
      rw [Function.update_self] at hx
      exact Or.inl ⟨rfl, (Option.some.inj hx).symm, Function.update_self ..⟩
    · rw [Function.update_of_ne hi] at hx
      exact Or.inr ⟨hx, Function.update_of_ne hi ..⟩
  constructor
  case tracks => exact ht
  case block =>
    intro i x hx
    rcases hcases i x hx with ⟨-, rfl, hi⟩ | ⟨hx, hi⟩
    · rw [hi, hblock]
    · rw [hi]
      exact h.block i x hx
  case read =>
    intro i f hf hc
    rcases hcases i _ hf with ⟨-, hres, hi⟩ | ⟨hf, hi⟩
    · rw [hi]
      exact hread f hres.symm hc
    · rw [hi]
      exact h.read i f hf hc
  case write =>
    intro i f hf hc
    rcases hcases i _ hf with ⟨-, hres, hi⟩ | ⟨hf, hi⟩
    · rw [hi]
      exact hwrite f hres.symm hc
    · rw [hi]
      exact h.write i f hf hc

/-- The scheme's table, with one resource moved on. -/
theorem weakens_moved {files : Nat → Option Resource} (hres : files id = some res)
    (hweak : res.Weakens res') : ∀ i x', Function.update files id (some res') i = some x' →
      ∃ x, files i = some x ∧ x.Weakens x' := by
  intro i x' hx
  by_cases hi : i = id
  · subst hi
    rw [Function.update_self] at hx
    cases hx
    exact ⟨res, hres, hweak⟩
  · rw [Function.update_of_ne hi] at hx
    exact ⟨x', hx, .refl x'⟩

theorem weakens_setSeek (res : Resource) (pos : Nat) : res.Weakens (res.setSeek pos) := by
  refine ⟨Resource.setSeek_block res pos, fun f' hf' => ?_⟩
  cases res with
  | dir f => cases hf'
  | file f =>
    cases hf'
    exact ⟨f, rfl, fun h => h, fun h => h⟩

/-- No access bit is left when the flags are set. -/
theorem FileResource.setFl (f : FileResource) (arg : Nat) :
    ∃ f', f.fcntl F_SETFL arg = .ok (f', 0) ∧ f'.block = f.block ∧ f'.canRead = false ∧
      f'.canWrite = false := by
  have hnone : (arg ^^^ (arg &&& O_ACCMODE)) &&& O_ACCMODE = 0 := by
    rw [Nat.and_xor_distrib_right, Nat.and_assoc, Nat.and_self, Nat.xor_self]
  refine ⟨{ f with flags := arg ^^^ (arg &&& O_ACCMODE) }, rfl, rfl, ?_, ?_⟩
  · rw [canRead, hnone]
    rfl
  · rw [canWrite, hnone]
    rfl

theorem weakens_fcntl {f f' : FileResource} {cmd arg n : Nat} (h : f.fcntl cmd arg = .ok (f', n)) :
    (Resource.file f).Weakens (.file f') := by
  by_cases hget : cmd = F_GETFL
  · rw [FileResource.fcntl, if_pos hget] at h
    cases h
    exact .refl _
  by_cases hset : cmd = F_SETFL
  · subst hset
    obtain ⟨g, hrun, hb, hr, hw⟩ := f.setFl arg
    rw [hrun] at h
    cases h
    refine ⟨hb, fun f'' hf => ?_⟩
    cases hf
    refine ⟨f, rfl, fun hc => ?_, fun hc => ?_⟩
    · rw [hr] at hc
      cases hc
    · rw [hw] at hc
      cases hc
  · rw [FileResource.fcntl, if_neg hget, if_neg hset] at h
    cases h

theorem Grants.canRead {n : Node} (h : Grants n flags uid gid)
    (hc : (FileResource.new path b flags).canRead = true) :
    n.permission uid gid Node.MODE_READ = true := h.read (of_decide_eq_true hc).symm

theorem Grants.canWrite {n : Node} (h : Grants n flags uid gid)
    (hc : (FileResource.new path b flags).canWrite = true) :
    n.permission uid gid Node.MODE_WRITE = true := h.write (of_decide_eq_true hc).symm

theorem madeResource_file {f : FileResource} (h : madeResource path b flags = .file f) :
    f = FileResource.new path b flags := by
  rw [madeResource] at h
  split at h
  · cases h
  · cases h
    rfl

theorem Audit.recorded_added (w : Audit) (url : List UInt8) (flags uid gid : Nat) (s : FileScheme)
    (res : Resource) : w.recorded (.openUrl url flags uid gid) (.ok (.num s.nextId)) (s.added res) =
      Function.update w.openings s.nextId ⟨s.fs, uid, gid, res.block⟩ := by
  rw [recorded, FileScheme.added_self]
  rfl

/-- A request that removes nothing open keeps every handle within its opening. -/
theorem Rightful.step (h : Rightful w l) (ha : Answer w.scheme l req r s' l')
    (hk : Keeping w.scheme req) : Rightful (w.next req r s') l' := by
  have ht := h.tracks.step ha hk
  have hinv := h.tracks.inv
  have hsame : ∀ id res', w.scheme.files id = some res' →
      ∃ res, w.scheme.files id = some res ∧ res.Weakens res' :=
    fun id res hres => ⟨res, hres, .refl res⟩
  cases ha with
  | refused e =>
    have ho : w.recorded req (.error e) w.scheme = w.openings := by
      cases req <;> rfl
    exact h.kept ht ho hsame
  | @openedDir url data flags uid gid b ds =>
    exact h.added ht _ rfl (w.recorded_added url flags uid gid w.scheme _) rfl nofun nofun
  | @openedFile url flags uid gid b ds hw hfile hgr =>
    refine h.added ht _ rfl (w.recorded_added url flags uid gid w.scheme _) rfl ?_ ?_
    · rintro f hf hc
      obtain rfl := Resource.file.inj hf
      exact hw.permits hinv (hgr.canRead hc)
    · rintro f hf hc
      obtain rfl := Resource.file.inj hf
      exact hw.permits hinv (hgr.canWrite hc)
  | @truncated url flags uid gid b ds fs' l' hw hfile hgr hperm hout =>
    refine h.added ht _ rfl (w.recorded_added url flags uid gid (w.scheme.withFs fs') _) rfl ?_ ?_
    · rintro f hf hc
      obtain rfl := Resource.file.inj hf
      exact hw.permits_cut hinv hfile hout (hgr.canRead hc)
    · rintro f hf hc
      obtain rfl := Resource.file.inj hf
      exact hw.permits_cut hinv hfile hout hperm
  | @made url flags uid gid d b ds fs' l' hw hd hm hgr =>
    refine h.added ht _ rfl (w.recorded_added url flags uid gid (w.scheme.withFs fs') _) rfl ?_ ?_
    · intro f hf hc
      rw [hf]
      obtain rfl := madeResource_file hf
      exact hm.permits hinv hw hd (hgr.canRead hc)
    · intro f hf hc
      rw [hf]
      obtain rfl := madeResource_file hf
      exact hm.permits hinv hw hd (hgr.canWrite hc)
  | madeOnly => exact h.kept ht rfl hsame
  | unmade => exact h.kept ht rfl hsame
  | modeSet => exact h.kept ht rfl hsame
  | removed hreq =>
    rcases hreq with ⟨rfl, -⟩ | ⟨rfl, -⟩
    · exact h.kept ht rfl hsame
    · exact h.kept ht rfl hsame
  | unremoved hreq =>
    rcases hreq with ⟨rfl, -⟩ | ⟨rfl, -⟩
    · exact h.kept ht rfl hsame
    · exact h.kept ht rfl hsame
  | @duped id buf res hres =>
    refine h.added ht (w.openings id) rfl rfl (h.block id res hres) ?_ ?_
    · rintro f rfl hc
      exact h.read id f hres hc
    · rintro f rfl hc
      exact h.write id f hres hc
  | readDir hr => exact h.kept ht rfl (weakens_moved hr ⟨rfl, nofun⟩)
  | readFile hr =>
    exact h.kept ht rfl (weakens_moved hr (weakens_setSeek (.file _) _))
  | wrote hr => exact h.kept ht rfl (weakens_moved hr (weakens_setSeek (.file _) _))
  | unwritten => exact h.kept ht rfl hsame
  | cut => exact h.kept ht rfl hsame
  | sought hr => exact h.kept ht rfl (weakens_moved hr (weakens_setSeek _ _))
  | flagged hr hf => exact h.kept ht rfl (weakens_moved hr (weakens_fcntl hf))
  | stat => exact h.kept ht rfl hsame
  | told hreq =>
    rcases hreq with ⟨id, buf, rfl⟩ | ⟨id, rfl⟩ | ⟨id, rfl⟩
    · exact h.kept ht rfl hsame
    · exact h.kept ht rfl hsame
    · exact h.kept ht rfl hsame
  | closed hr =>
    refine h.kept ht rfl fun i x hx => ?_
    have hx : Function.update w.scheme.files _ none i = some x := hx
    rw [Function.update_apply] at hx
    split at hx
    · cases hx
    · exact ⟨x, hx, .refl x⟩

end Step

theorem Outcome.contentOf_other (h : Outcome fs l op err fs' l') (hinv : Inv fs l)
    (hp : p ≠ op.target) (hl : l.chain p ≠ []) (hfile : (fs.nodeAt p).isDir = false)
    (hno : ∀ mode name d, op ≠ .removeNode mode name d) : contentOf fs' p = contentOf fs p := by
  have hl' := h.chain_stays hl fun mode name d hop => (hno mode name d hop).elim
  rw [(h.inv hinv).1.contentOf_eq hl', hinv.contentOf_eq hl]
  exact (h.other_content hinv hp hl hl' hfile).1

/-- What `open` makes changes no file. -/
theorem Made.contents (hm : Made fs l path flags uid gid d b fs' l') (hinv : Inv fs l)
    (hdir : (fs.nodeAt d).isDir = true) (hp : l.chain p ≠ []) (hfile : (fs.nodeAt p).isDir = false) :
    contentOf fs' p = contentOf fs p := by
  obtain ⟨fs₁, hc, hattr⟩ := hm.created
  have hout : Outcome fs l (.createNode (madeMode flags) (FileScheme.lastPart path) d) none fs₁ l' :=
    .created hm.absent hc
  have hpd : p ≠ d := by
    rintro rfl
    rw [hdir] at hfile
    cases hfile
  have hpb : p ≠ b := by
    rintro rfl
    exact hp hc.fresh
  have hp' := hout.chain_stays hp nofun
  have hfile' := (hout.isDir hinv hp hp').trans hfile
  exact (hattr.contentOf_other hc.inv hpb hp' hfile' nofun).trans
    (hout.contentOf_other hinv hpd hp hfile nofun)

theorem Rightful.controlled {w : Audit} (h : Rightful w l) (ha : Answer w.scheme l req r s' l') :
    Controlled w req r s' := by
  have hinv := h.tracks.inv
  constructor
  case reads =>
    rintro id buf f out n rfl hf rfl
    cases ha with
    | readDir hr =>
      rw [hr] at hf
      cases hf
    | readFile hr hc => exact h.read id _ hr hc
    | told hreq => rcases hreq with ⟨_, _, hc⟩ | ⟨_, hc⟩ | ⟨_, hc⟩ <;> cases hc
  case writes =>
    rintro id (⟨buf, rfl⟩ | ⟨len, rfl⟩) heffect
    · cases ha with
      | refused =>
        rcases heffect with ⟨_, hr⟩ | hfs
        · cases hr
        · exact (hfs rfl).elim
      | removed hreq => rcases hreq with ⟨hc, -⟩ | ⟨hc, -⟩ <;> cases hc
      | unremoved hreq => rcases hreq with ⟨hc, -⟩ | ⟨hc, -⟩ <;> cases hc
      | wrote hr hc => exact h.write id _ hr hc
      | unwritten hr hc => exact h.write id _ hr hc
      | told hreq => rcases hreq with ⟨_, _, hc⟩ | ⟨_, hc⟩ | ⟨_, hc⟩ <;> cases hc
    · cases ha with
      | refused =>
        rcases heffect with ⟨_, hr⟩ | hfs
        · cases hr
        · exact (hfs rfl).elim
      | removed hreq => rcases hreq with ⟨hc, -⟩ | ⟨hc, -⟩ <;> cases hc
      | unremoved hreq => rcases hreq with ⟨hc, -⟩ | ⟨hc, -⟩ <;> cases hc
      | cut hr hc => exact h.write id _ hr hc
      | told hreq => rcases hreq with ⟨_, _, hc⟩ | ⟨_, hc⟩ | ⟨_, hc⟩ <;> cases hc
  case truncates =>
    rintro url flags uid gid p rfl hp hfile hne
    have hl := hinv.reach hp
    cases ha with
    | refused => exact (hne rfl).elim
    | openedDir => exact (hne rfl).elim
    | openedFile => exact (hne rfl).elim
    | @truncated _ _ _ _ b ds fs' l' hw hbfile hgr hperm hout =>
      have hpb : p = b := by
        by_contra hpb
        exact hne (hout.contentOf_other hinv hpb hl hfile (by rintro _ _ _ ⟨⟩))
      have ho : w.recorded (.openUrl url flags uid gid) (.ok (.num w.scheme.nextId)) _ = _ :=
        w.recorded_added url flags uid gid (w.scheme.withFs fs')
          (.file (FileResource.new (FileScheme.urlPath url) b flags))
      refine ⟨_, rfl, ?_⟩
      rw [ho, FileScheme.withFs, Function.update_self]
      exact ⟨hpb.symm, hw.permits_cut hinv hbfile hout hperm⟩
    | made hw hd hm =>
      exact (hne (hm.contents hinv (hw.dirs _ (List.mem_of_getLast? hd)) hl hfile)).elim
    | madeOnly hw hd hm =>
      exact (hne (hm.contents hinv (hw.dirs _ (List.mem_of_getLast? hd)) hl hfile)).elim
    | @unmade _ _ _ _ d ds e fs' l' hw hd hout =>
      have hpd : p ≠ d := by
        rintro rfl
        rw [hw.dirs _ (List.mem_of_getLast? hd)] at hfile
        cases hfile
      exact (hne (hout.contentOf_other hinv hpd hl hfile (by rintro _ _ _ ⟨⟩))).elim
    | removed hreq => rcases hreq with ⟨hc, -⟩ | ⟨hc, -⟩ <;> cases hc
    | unremoved hreq => rcases hreq with ⟨hc, -⟩ | ⟨hc, -⟩ <;> cases hc
    | told hreq => rcases hreq with ⟨_, _, hc⟩ | ⟨_, hc⟩ | ⟨_, hc⟩ <;> cases hc

theorem fcntl_run {f f' : FileResource} {cmd arg n : Nat} (hf : s.files id = some (.file f))
    (hrun : f.fcntl cmd arg = .ok (f', n)) :
    (Request.fcntl id cmd arg).run s = .ok (.num n) (s.moved id (.file f')) := by
  have hfcntl : FileScheme.fcntl id cmd arg s = _ := bind_of_ok (FileScheme.file_run hf)
  have hlift : FileScheme.lift ((Resource.file f).fcntl cmd arg) s = .ok (.file f', n) s := by
    rw [Resource.fcntl, hrun]
    rfl
  exact bind_of_ok (hfcntl.trans (bind_of_ok hlift))

/-- What `fcntl` leaves behind its handle. -/
theorem fcntl_file {f : FileResource} {cmd arg : Nat}
    (ha : Answers (Request.fcntl id cmd arg).run s r s') (hf : s.files id = some (.file f)) :
    ∃ g, s'.files id = some (.file g) ∧
      ((∃ n, f.fcntl cmd arg = .ok (g, n)) ∨ (∃ e, f.fcntl cmd arg = .error e) ∧ g = f) := by
  cases hg : f.fcntl cmd arg with
  | ok p =>
    obtain ⟨g, n⟩ := p
    have hdone := fcntl_run hf hg
    refine ⟨g, ?_, Or.inl ⟨n, rfl⟩⟩
    cases ha with
    | ok h =>
      rw [hdone] at h
      cases h
      exact Function.update_self ..
    | error h =>
      rw [hdone] at h
      cases h
  | error e =>
    have hrun : FileScheme.fcntl id cmd arg s = _ := bind_of_ok (FileScheme.file_run hf)
    have hlift : FileScheme.lift ((Resource.file f).fcntl cmd arg) s = .error (.errno e) s := by
      rw [Resource.fcntl, hg]
      rfl
    have hdone : (Request.fcntl id cmd arg).run s = .error (.errno e) s :=
      bind_of_error (hrun.trans (bind_of_error hlift))
    refine ⟨f, ?_, Or.inr ⟨⟨e, rfl⟩, rfl⟩⟩
    cases ha with
    | ok h =>
      rw [hdone] at h
      cases h
    | error h =>
      rw [hdone] at h
      cases h
      exact hf

/-- `fcntl` keeps the rights of its handle, unless it sets the flags of one that has any. -/
theorem rights_kept_iff (ha : Answers req.run s r s') : RightsKept s req s' ↔ Unflagged s req := by
  constructor
  · rintro hkept id arg f rfl hf
    obtain ⟨f', hset, -, hread, hwrite⟩ := f.setFl arg
    obtain ⟨g, hg, ⟨n, hrun⟩ | ⟨⟨e, hrun⟩, -⟩⟩ := fcntl_file ha hf
    · rw [hset] at hrun
      cases hrun
      obtain ⟨hr, hw⟩ := hkept id F_SETFL arg f f' rfl hf hg
      exact ⟨hr.symm.trans hread, hw.symm.trans hwrite⟩
    · rw [hset] at hrun
      cases hrun
  · rintro hun id cmd arg f f' rfl hf hf'
    obtain ⟨g, hg, hrun⟩ := fcntl_file ha hf
    rw [hf'] at hg
    cases hg
    by_cases hset : cmd = F_SETFL
    · subst hset
      obtain ⟨g, hdone, -, hread, hwrite⟩ := f.setFl arg
      obtain ⟨hr, hw⟩ := hun id arg f rfl hf
      rcases hrun with ⟨n, hrun⟩ | ⟨-, rfl⟩
      · rw [hdone] at hrun
        cases hrun
        exact ⟨hread.trans hr.symm, hwrite.trans hw.symm⟩
      · exact ⟨rfl, rfl⟩
    · rcases hrun with ⟨n, hrun⟩ | ⟨-, rfl⟩
      · rw [FileResource.fcntl, if_neg hset] at hrun
        split at hrun
        · cases hrun
          exact ⟨rfl, rfl⟩
        · cases hrun
      · exact ⟨rfl, rfl⟩

theorem rightful_start {disk : Disk} (hsize : disk.size < 2 ^ 64) (hc : create disk = .ok fs)
    (name : String) : Rightful (Audit.start name fs) freshLayout :=
  ⟨tracks_start hsize hc name, nofun, nofun, nofun⟩

theorem Audit.run_rightful {disk : Disk} {name : String} {reqs : List Request} {w : Audit}
    (hsize : disk.size < 2 ^ 64) (hc : create disk = .ok fs)
    (hrun : Run (Audit.Step Keeping) (Audit.start name fs) reqs w) : ∃ l, Rightful w l := by
  refine hrun.invariant (I := fun w => ∃ l, Rightful w l) ?_ ⟨_, rightful_start hsize hc name⟩
  rintro w req w' ⟨ht, hk, r, s', ha, rfl⟩ ⟨l, h⟩
  obtain ⟨l', hans⟩ := h.tracks.inv.answer h.tracks.handled ht hk.1 ha
  exact ⟨l', h.step hans hk⟩

/-- In every audit that removes nothing open, each handle stands for the file of the opening it comes
from, the next request reads and changes files within what was granted at the openings only, and it
keeps the rights of its handle just when it sets no flags of a handle with rights. -/
theorem access_is_controlled {disk : Disk} {name : String} {reqs : List Request} {w : Audit}
    (hsize : disk.size < 2 ^ 64) (hc : create disk = .ok fs)
    (hrun : Run (Audit.Step Keeping) (Audit.start name fs) reqs w) :
    Identity w.session ∧
      (∀ id res, w.scheme.files id = some res → (w.openings id).block = res.block) ∧
      ∀ req r s', req.Typed → SafeRequest w.scheme req → Answers req.run w.scheme r s' →
        Confined w.scheme req r s' ∧ Controlled w req r s' ∧
          (RightsKept w.scheme req s' ↔ Unflagged w.scheme req) := by
  obtain ⟨l, h⟩ := Audit.run_rightful hsize hc hrun
  refine ⟨h.tracks.identity, h.block, fun req r s' ht hs ha => ?_⟩
  obtain ⟨l', hans⟩ := h.tracks.inv.answer h.tracks.handled ht hs ha
  exact ⟨hans.confined h.tracks.inv h.tracks.handled, h.controlled hans, rights_kept_iff ha⟩

/-- The file that a handle has just made is read and written within what it grants. -/
theorem first_open_is_controlled : ∃ fs w, create (blankDisk 7) = .ok fs ∧
    Run (Audit.Step Keeping) (Audit.start "disk" fs) [.openUrl [97] makeFlags 0 0] w ∧
    w.scheme.files 1 ≠ none ∧ Identity w.session ∧
    ∀ req r s', req.Typed → SafeRequest w.scheme req → Answers req.run w.scheme r s' →
      Controlled w req r s' ∧ (RightsKept w.scheme req s' ↔ Unflagged w.scheme req) := by
  have hsize : (blankDisk 7).size < 2 ^ 64 := by decide
  obtain ⟨fs, hc⟩ := create_ok (show 4 * 512 ≤ (blankDisk 7).size by decide)
  obtain ⟨fs', l', -, hans⟩ := open_first (n := 7) rfl (by omega) (by omega) hc "disk"
  have hstep : Audit.Step Keeping (Audit.start "disk" fs) (.openUrl [97] makeFlags 0 0) _ :=
    ⟨⟨by omega, by omega⟩, ⟨trivial, trivial⟩, _, _, hans, rfl⟩
  obtain ⟨hid, -, hnext⟩ := access_is_controlled hsize hc (.cons hstep .nil)
  exact ⟨fs, _, hc, .cons hstep .nil, Option.some_ne_none _, hid,
    fun req r s' ht hs ha => (hnext req r s' ht hs ha).2⟩

/-- The flags of a handle are set to none: it was opened to read and to write, and does neither now. -/
theorem set_flags_take_rights : ∃ fs s s' f f', create (blankDisk 7) = .ok fs ∧
    Answers (Request.openUrl [97] makeFlags 0 0).run (FileScheme.new "disk" fs) (.ok (.num 1)) s ∧
    s.files 1 = some (.file f) ∧ f.canRead = true ∧ f.canWrite = true ∧
    Answers (Request.fcntl 1 F_SETFL 0).run s (.ok (.num 0)) s' ∧
    s'.files 1 = some (.file f') ∧ f'.canRead = false ∧ f'.canWrite = false := by
  obtain ⟨fs, hc⟩ := create_ok (show 4 * 512 ≤ (blankDisk 7).size by decide)
  obtain ⟨fs', l', -, hans⟩ := open_first (n := 7) rfl (by omega) (by omega) hc "disk"
  have hf : (((FileScheme.new "disk" fs).withFs fs').added (madeResource (FileScheme.urlPath [97]) 4
      makeFlags)).files 1 = some (.file (FileResource.new (FileScheme.urlPath [97]) 4 makeFlags)) := by
    rfl
  obtain ⟨f', hset, -, hread, hwrite⟩ :=
    (FileResource.new (FileScheme.urlPath [97]) 4 makeFlags).setFl 0
  exact ⟨fs, _, _, _, f', hc, hans, hf, by decide, by decide, .ok (fcntl_run hf hset), rfl, hread,
    hwrite⟩

end Origel.RedoxFs
