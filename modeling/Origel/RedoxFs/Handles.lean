import Origel.RedoxFs.Conservation
import Origel.RedoxFs.Names
import Origel.RedoxFs.Superuser

/-! Handles and the objects they were opened for. -/
namespace Origel.RedoxFs

open Origel.Lib FileSystem

variable {fs fs' : FileSystem} {s s' : FileScheme} {b c d p q t x mode uid gid flags : Nat}
  {l l' : Layout} {op : Op} {buf : List UInt8} {name path : String} {err : Option Errno}
  {req : Request} {r : Except Errno Reply}

/-- No call puts an object into a directory that was not there before, except the created one. -/
theorem Outcome.entries_back (h : Outcome fs l op err fs' l') (hinv : Inv fs l) (hapt : op.Apt fs l)
    (hq : q ∈ entries fs' l' d) (hold : l.chain q ≠ []) : q ∈ entries fs l d := by
  rcases h.entries_cases hinv hapt d with hsub | ⟨mode, name, b, rfl, -, hc⟩
  · exact hsub.subset hq
  · have hdir : (fs.nodeAt d).isDir = true := by
      by_contra hno
      rw [entries, Node.isDir_attrs hc.attrs, if_neg hno] at hq
      cases hq
    rcases List.mem_cons.mp ((hc.entries hdir).mem_iff.mp hq) with rfl | hq
    · exact (hold hc.fresh).elim
    · exact hq

/-- What was out of reach stays so. -/
theorem Outcome.reach_back (h : Outcome fs l op err fs' l') (hinv : Inv fs l) (hapt : op.Apt fs l)
    (hp : Reach fs' p) (hold : l.chain p ≠ []) : Reach fs p := by
  have hinv' := (h.inv hinv).1
  induction hp with
  | root =>
    rw [hinv'.base.root]
    exact hinv.reach_root
  | @child d q hd hdir hq ih =>
    rw [hinv'.chainOf_eq (hinv'.reach hd), hinv'.children_eq hdir, ← entries_of_dir hdir] at hq
    have hent := h.entries_back hinv hapt hq hold
    exact hinv.reach_entry (ih (chain_of_entry hent)) hent

/-- Every object but a removed one stays. -/
theorem Outcome.chain_stays (h : Outcome fs l op err fs' l')
    (hp : l.chain p ≠ [])
    (hnot : ∀ mode name d, op = .removeNode mode name d → ¬Removes fs mode name d p) :
    l'.chain p ≠ [] := by
  cases h with
  | refused => exact hp
  | @created mode name d b _ _ _ h =>
    have hpb : p ≠ b := by
      rintro rfl
      exact hp h.fresh
    by_cases hpd : p = d
    · obtain ⟨ext, hext, -⟩ := h.grown
      rw [hpd, hext]
      rw [hpd] at hp
      exact fun hnil => hp (List.append_eq_nil_iff.mp hnil).1
    · rw [h.chain p hpb hpd]
      exact hp
  | unnamed => exact hp
  | @removed mode name d b _ _ hb _ _ h =>
    have hpb : p ≠ b := by
      rintro rfl
      exact hnot mode name d rfl hb
    by_cases hpd : p = d
    · obtain ⟨ext, hext, -⟩ := h.grown
      rw [hpd, hext]
      rw [hpd] at hp
      exact fun hnil => hp (List.append_eq_nil_iff.mp hnil).1
    · rw [h.chain p hpb hpd]
      exact hp
  | unsplit => exact hp
  | @wrote t offset buf _ _ h =>
    by_cases hpt : p = t
    · obtain ⟨fs₁, hens, -⟩ := h.ensured
      rw [hpt]
      exact hens.chain_ne_nil
    · rw [h.touches.chain p hpt]
      exact hp
  | filled => exact hp
  | cut => exact hp
  | attr => exact hp

/-- The object that an open resolved to: its block, when it came into the tree, and for a directory
the names listed then. -/
structure Origin where
  block : Nat
  stamp : Nat
  data : List UInt8

/-- A scheme with a record of when the object of a block came into the tree, and of what each handle
was opened for. -/
structure Session where
  scheme : FileScheme
  clock : Nat
  stamps : Nat → Nat
  origin : Nat → Origin

def Resource.data : Resource → List UInt8
  | dir r => r.data
  | file _ => []

namespace Session

def start (name : String) (fs : FileSystem) : Session :=
  ⟨FileScheme.new name fs, 1, fun _ => 0, fun _ => ⟨0, 0, []⟩⟩

open Classical in
/-- Blocks that come into the tree get the time. -/
noncomputable def stamped (w : Session) (fs' : FileSystem) : Nat → Nat := fun b =>
  if Reach fs' b ∧ ¬Reach w.scheme.fs b then w.clock else w.stamps b

/-- An open records what its handle is for, and a copy is for the same. -/
noncomputable def recorded (w : Session) (req : Request) (r : Except Errno Reply) (s' : FileScheme) :
    Nat → Origin :=
  match req, r with
  | .openUrl .., .ok (.num id) =>
    match s'.files id with
    | some res => Function.update w.origin id ⟨res.block, w.stamped s'.fs res.block, res.data⟩
    | none => w.origin
  | .dup old _, .ok (.num id) => Function.update w.origin id (w.origin old)
  | _, _ => w.origin

noncomputable def next (w : Session) (req : Request) (r : Except Errno Reply) (s' : FileScheme) :
    Session where
  scheme := s'
  clock := w.clock + 1
  stamps := w.stamped s'.fs
  origin := w.recorded req r s'

/-- One request that meets `P`. -/
def Step (P : FileScheme → Request → Prop) (w : Session) (req : Request) (w' : Session) : Prop :=
  req.Typed ∧ P w.scheme req ∧ ∃ r s', Answers req.run w.scheme r s' ∧ w' = w.next req r s'

end Session

/-- Nothing that is removed is open. -/
def RemovesClosed (s : FileScheme) (mode uid gid : Nat) (url : List UInt8) : Prop :=
  ∀ ds b d name, Walked s.fs uid gid (FileScheme.urlPath url) ds (some b) → ds.getLast? = some d →
    (s.fs.nodeAt d).permission uid gid Node.MODE_WRITE = true →
    (s.fs.nodeAt b).permission uid gid Node.MODE_WRITE = true →
    Removes s.fs mode name d b → ∀ id r, s.files id = some r → r.block ≠ b

/-- A safe request that removes nothing that is open. -/
def Keeping (s : FileScheme) (req : Request) : Prop :=
  SafeRequest s req ∧ match req with
    | .rmdir url uid gid => RemovesClosed s Node.MODE_DIR uid gid url
    | .unlink url uid gid => RemovesClosed s Node.MODE_FILE uid gid url
    | _ => True

/-- What the handles stand for is what they were opened for, and no block of it belongs to anything
else. -/
structure Identity (w : Session) : Prop where
  same : ∀ id r, w.scheme.files id = some r →
    w.origin id = ⟨r.block, w.stamps r.block, r.data⟩
  apart : ∀ id r o, w.scheme.files id = some r → Live w.scheme.fs o → o ≠ .object r.block →
    ∀ x ∈ uses w.scheme.fs [] (.object r.block), x ∉ uses w.scheme.fs [] o

/-- The handle a request is made through. -/
def Request.handle : Request → Option Nat
  | dup id _ => some id
  | read id _ => some id
  | write id _ => some id
  | lseek id _ _ => some id
  | fcntl id _ _ => some id
  | fpath id _ => some id
  | fstat id => some id
  | fstatvfs id => some id
  | fsync id => some id
  | ftruncate id _ => some id
  | close id => some id
  | _ => none

/-- A request through a handle changes nothing but the object of the handle, delivers bytes of its
sectors only, and reports its attributes and its length; what a directory handle delivers is what
the directory listed when it was opened. -/
structure Confined (s : FileScheme) (req : Request) (r : Except Errno Reply) (s' : FileScheme) :
    Prop where
  changes : ∀ id res, req.handle = some id → s.files id = some res →
    ∀ p, Reach s.fs p → p ≠ res.block → Reach s'.fs p ∧ s'.fs.nodeAt p = s.fs.nodeAt p ∧
      uses s'.fs [] (.object p) = uses s.fs [] (.object p) ∧
      children s'.fs (chainOf s'.fs p) = children s.fs (chainOf s.fs p) ∧
      ((s.fs.nodeAt p).isDir = false → contentOf s'.fs p = contentOf s.fs p)
  reads : ∀ id buf res out n, req = .read id buf → s.files id = some (.file res) →
    r = .ok (.bytes out n) → ∃ cells : List Nat,
      (∀ x ∈ cells, x / 512 ∈ uses s.fs [] (.object res.block)) ∧
      out = overlay buf 0 (cells.map s.fs.disk.bytes) ∧ n = cells.length
  reports : ∀ id res stat, req = .fstat id → s.files id = some res → r = .ok (.stat stat) →
    stat = ⟨(s.fs.nodeAt res.block).mode, (s.fs.nodeAt res.block).uid, (s.fs.nodeAt res.block).gid,
      (contentOf s.fs res.block).length⟩
  lists : ∀ id buf res out n, req = .read id buf → s.files id = some (.dir res) →
    r = .ok (.bytes out n) → (out, n) = fill buf (res.data.drop res.seek)
  opens : ∀ url flags uid gid id res, req = .openUrl url flags uid gid → r = .ok (.num id) →
    s'.files id = some (.dir res) → res.data = [] ∨
      res.data = FileScheme.dirData ((children s.fs (chainOf s.fs res.block)).map fun c =>
        (c, s.fs.nodeAt c)) []

/-- The object of a block is still there, of the same kind, and no newer. -/
structure Stay (fs : FileSystem) (l : Layout) (fs' : FileSystem) (l' : Layout) (p : Nat) : Prop where
  chain : l'.chain p ≠ []
  kind : (fs'.nodeAt p).isDir = (fs.nodeAt p).isDir
  back : Reach fs' p → Reach fs p

theorem Outcome.stay (h : Outcome fs l op err fs' l') (hinv : Inv fs l) (hapt : op.Apt fs l)
    (hp : l.chain p ≠ [])
    (hnot : ∀ mode name d, op = .removeNode mode name d → ¬Removes fs mode name d p) :
    Stay fs l fs' l' p := by
  have hp' := h.chain_stays hp hnot
  exact ⟨hp', h.isDir hinv hp hp', fun hr => h.reach_back hinv hapt hr hp⟩

theorem Walked.entry {ds : List Nat} (h : Walked fs uid gid path ds (some b))
    (hd : ds.getLast? = some d) (hname : (fs.nodeAt b).nameStr = some name) :
    lookup fs name (children fs (chainOf fs d)) = some b := by
  have hb : (follow fs 1 (partsOf path)).2 = some b := by rw [h.leads]
  have hl : (follow fs 1 (partsOf path)).1.getLast? = some d := by rw [h.leads, hd]
  obtain ⟨part, -, hlook⟩ := follow_last hb hl
  have hpart : (fs.nodeAt b).nameStr = some part := by
    simpa using List.find?_some hlook
  rw [hname] at hpart
  cases hpart
  exact hlook

theorem Made.stay (h : Made fs l path flags uid gid d b fs' l') (hinv : Inv fs l)
    (hd : l.chain d ≠ []) (hp : l.chain p ≠ []) : Inv fs' l' ∧ Stay fs l fs' l' p := by
  obtain ⟨fs₁, hc, hattr⟩ := h.created
  have hout : Outcome fs l (.createNode _ _ d) none fs₁ l' := .created h.absent hc
  have hinv₁ := hc.inv
  obtain ⟨hc₁, hk₁, hr₁⟩ := hout.stay hinv ⟨hd, trivial⟩ hp nofun
  obtain ⟨hc₂, hk₂, hr₂⟩ := hattr.stay hinv₁ ⟨by simp [Op.target, hc.self], trivial⟩ hc₁ nofun
  exact ⟨(hattr.inv hinv₁).1, hc₂, hk₂.trans hk₁, fun hr => hr₁ (hr₂ hr)⟩

/-- A request that removes nothing open leaves the objects of all handles in place. -/
theorem Answer.stays (h : Answer s l req r s' l') (hinv : Inv s.fs l) (hh : Handled s l)
    (hk : Keeping s req) :
    Inv s'.fs l' ∧ ∀ id res, s.files id = some res → Stay s.fs l s'.fs l' res.block := by
  have hsame : Inv s.fs l ∧ ∀ id res, s.files id = some res → Stay s.fs l s.fs l res.block :=
    ⟨hinv, fun id res hres => ⟨(hh id res hres).1, rfl, fun h => h⟩⟩
  -- one call that is no removal
  have hone : ∀ {op err fs' l'}, Outcome s.fs l op err fs' l' → op.Apt s.fs l →
      (∀ mode name d, op ≠ .removeNode mode name d) →
      Inv fs' l' ∧ ∀ id res, s.files id = some res → Stay s.fs l fs' l' res.block := by
    intro op err fs' l' hout hapt hno
    refine ⟨(hout.inv hinv).1, fun id res hres => ?_⟩
    exact hout.stay hinv hapt (hh id res hres).1 fun mode name d hop => (hno mode name d hop).elim
  have hlast : ∀ {ds : List Nat} {o d uid gid path}, Walked s.fs uid gid path ds o →
      ds.getLast? = some d → l.chain d ≠ [] :=
    fun hw hd => hinv.reach ((hw.reach hinv).1 _ (List.mem_of_getLast? hd))
  have hremove : ∀ {mode uid gid : Nat} {url ds b d name err fs' l'},
      RemovesClosed s mode uid gid url →
      Walked s.fs uid gid (FileScheme.urlPath url) ds (some b) → ds.getLast? = some d →
      (s.fs.nodeAt b).nameStr = some name →
      (s.fs.nodeAt d).permission uid gid Node.MODE_WRITE = true →
      (s.fs.nodeAt b).permission uid gid Node.MODE_WRITE = true →
      Outcome s.fs l (.removeNode mode name d) err fs' l' →
      Inv fs' l' ∧ ∀ id res, s.files id = some res → Stay s.fs l fs' l' res.block := by
    intro mode uid gid url ds b d name err fs' l' hclosed hw hd hname hdw hbw hout
    refine ⟨(hout.inv hinv).1, fun id res hres => ?_⟩
    refine hout.stay hinv ⟨hlast hw hd, trivial⟩ (hh id res hres).1 fun mode' name' d' hop hrem => ?_
    cases hop
    have hb : b = res.block := by
      have := hw.entry hd hname
      rw [hrem.1] at this
      exact (Option.some.inj this).symm
    rw [← hb] at hrem
    exact hclosed ds b d name hw hd hdw hbw hrem id res hres hb.symm
  cases h with
  | refused => exact hsame
  | openedDir => exact hsame
  | openedFile => exact hsame
  | truncated hw hfile hgr hperm hout =>
    exact hone hout ⟨hinv.reach ((hw.reach hinv).2 _ rfl), hfile⟩ nofun
  | made hw hd hm hgr =>
    have hd' := hlast hw hd
    exact ⟨(hm.stay hinv hd' hd').1, fun id res hres => (hm.stay hinv hd' (hh id res hres).1).2⟩
  | madeOnly hw hd hm hgr =>
    have hd' := hlast hw hd
    exact ⟨(hm.stay hinv hd' hd').1, fun id res hres => (hm.stay hinv hd' (hh id res hres).1).2⟩
  | unmade hw hd hout => exact hone hout ⟨hlast hw hd, trivial⟩ nofun
  | modeSet hw howner hout =>
    exact hone hout ⟨hinv.reach ((hw.reach hinv).2 _ rfl), trivial⟩ nofun
  | removed hreq hw hd hname hdw hbw hout =>
    rcases hreq with ⟨rfl, rfl⟩ | ⟨rfl, rfl⟩
    · exact hremove hk.2 hw hd hname hdw hbw hout
    · exact hremove hk.2 hw hd hname hdw hbw hout
  | unremoved hreq hw hd hname hdw hbw hout =>
    rcases hreq with ⟨rfl, rfl⟩ | ⟨rfl, rfl⟩
    · exact hremove hk.2 hw hd hname hdw hbw hout
    · exact hremove hk.2 hw hd hname hdw hbw hout
  | duped => exact hsame
  | readDir => exact hsame
  | readFile => exact hsame
  | wrote hr hc hout => exact hone hout (hh _ _ hr) nofun
  | unwritten hr hc hout => exact hone hout (hh _ _ hr) nofun
  | cut hr hc hout => exact hone hout (hh _ _ hr) nofun
  | sought => exact hsame
  | flagged => exact hsame
  | stat => exact hsame
  | told => exact hsame
  | closed => exact hsame

/-- The invariant of sessions that remove nothing open. -/
structure Tracks (w : Session) (l : Layout) : Prop where
  inv : Inv w.scheme.fs l
  handled : Handled w.scheme l
  origin : ∀ id r, w.scheme.files id = some r → w.origin id = ⟨r.block, w.stamps r.block, r.data⟩

section Step

variable {w : Session} {res res' : Resource} {id : Nat}

theorem Stay.stamped (h : Stay w.scheme.fs l s'.fs l' p) : w.stamped s'.fs p = w.stamps p :=
  if_neg fun hr => hr.2 (h.back hr.1)

/-- The table is kept. -/
theorem Tracks.same (h : Tracks w l) (hinv : Inv s'.fs l')
    (hst : ∀ id res, w.scheme.files id = some res → Stay w.scheme.fs l s'.fs l' res.block)
    (hfiles : s'.files = w.scheme.files) (ho : w.recorded req r s' = w.origin) :
    Tracks (w.next req r s') l' := by
  refine ⟨hinv, fun id res hres => ?_, fun id res hres => ?_⟩
  · rw [Session.next, hfiles] at hres
    have hs := hst id res hres
    exact ⟨hs.chain, hs.kind.trans (h.handled id res hres).2⟩
  · rw [Session.next, hfiles] at hres
    rw [Session.next]
    dsimp only
    rw [ho, h.origin id res hres, (hst id res hres).stamped]

/-- The resource behind a handle changes, but not what it is about. -/
theorem Tracks.moved (h : Tracks w l) (hinv : Inv s'.fs l')
    (hst : ∀ id res, w.scheme.files id = some res → Stay w.scheme.fs l s'.fs l' res.block)
    (hres : w.scheme.files id = some res)
    (hfiles : s'.files = Function.update w.scheme.files id (some res'))
    (hb : res'.block = res.block) (hk : res'.isDir = res.isDir) (hdata : res'.data = res.data)
    (ho : w.recorded req r s' = w.origin) : Tracks (w.next req r s') l' := by
  refine ⟨hinv, fun i x hx => ?_, fun i x hx => ?_⟩
  · rw [Session.next, hfiles] at hx
    by_cases hi : i = id
    · rw [hi, Function.update_self] at hx
      cases hx
      have hs := hst id res hres
      rw [hb, hk]
      exact ⟨hs.chain, hs.kind.trans (h.handled id res hres).2⟩
    · rw [Function.update_of_ne hi] at hx
      have hs := hst i x hx
      exact ⟨hs.chain, hs.kind.trans (h.handled i x hx).2⟩
  · rw [Session.next, hfiles] at hx
    rw [Session.next]
    dsimp only
    rw [ho]
    by_cases hi : i = id
    · rw [hi, Function.update_self] at hx
      cases hx
      rw [hi, h.origin id res hres, hb, hdata, (hst id res hres).stamped]
    · rw [Function.update_of_ne hi] at hx
      rw [h.origin i x hx, (hst i x hx).stamped]

/-- A resource is added, with a record of what it is about. -/
theorem Tracks.added (h : Tracks w l) (res : Resource) (hinv : Inv s'.fs l')
    (hst : ∀ id res, w.scheme.files id = some res → Stay w.scheme.fs l s'.fs l' res.block)
    (hobj : l'.chain res.block ≠ []) (hk : (s'.fs.nodeAt res.block).isDir = res.isDir)
    (hfiles : s'.files = Function.update w.scheme.files id (some res))
    (ho : w.recorded req r s' =
      Function.update w.origin id ⟨res.block, w.stamped s'.fs res.block, res.data⟩) :
    Tracks (w.next req r s') l' := by
  refine ⟨hinv, fun i x hx => ?_, fun i x hx => ?_⟩
  · rw [Session.next, hfiles] at hx
    by_cases hi : i = id
    · rw [hi, Function.update_self] at hx
      cases hx
      exact ⟨hobj, hk⟩
    · rw [Function.update_of_ne hi] at hx
      have hs := hst i x hx
      exact ⟨hs.chain, hs.kind.trans (h.handled i x hx).2⟩
  · rw [Session.next, hfiles] at hx
    rw [Session.next]
    dsimp only
    rw [ho]
    by_cases hi : i = id
    · rw [hi, Function.update_self] at hx
      cases hx
      rw [hi, Function.update_self]
    · rw [Function.update_of_ne hi] at hx
      rw [Function.update_of_ne hi, h.origin i x hx, (hst i x hx).stamped]

theorem Tracks.closed (h : Tracks w l) (hinv : Inv s'.fs l')
    (hst : ∀ id res, w.scheme.files id = some res → Stay w.scheme.fs l s'.fs l' res.block)
    (hfiles : s'.files = Function.update w.scheme.files id none)
    (ho : w.recorded req r s' = w.origin) : Tracks (w.next req r s') l' := by
  have hold : ∀ i x, s'.files i = some x → w.scheme.files i = some x := by
    intro i x hx
    rw [hfiles] at hx
    by_cases hi : i = id
    · rw [hi, Function.update_self] at hx
      cases hx
    · rw [Function.update_of_ne hi] at hx
      exact hx
  refine ⟨hinv, fun i x hx => ?_, fun i x hx => ?_⟩
  · have hs := hst i x (hold i x hx)
    exact ⟨hs.chain, hs.kind.trans (h.handled i x (hold i x hx)).2⟩
  · rw [Session.next]
    dsimp only
    rw [ho, h.origin i x (hold i x hx), (hst i x (hold i x hx)).stamped]

theorem madeMode_type (flags : Nat) : madeMode flags &&& Node.MODE_TYPE =
    if flags &&& O_DIRECTORY = O_DIRECTORY then Node.MODE_DIR else Node.MODE_FILE := by
  have h0 : Node.MODE_PERM &&& Node.MODE_TYPE = 0 := by decide
  rw [madeMode, Nat.and_or_distrib_right, Nat.and_assoc, h0, Nat.and_zero, Nat.or_zero]
  split
  · decide
  · decide

theorem Made.resource (h : Made fs l path flags uid gid d b fs' l') :
    l'.chain (madeResource path b flags).block ≠ [] ∧
      (fs'.nodeAt (madeResource path b flags).block).isDir = (madeResource path b flags).isDir := by
  obtain ⟨fs₁, hc, -⟩ := h.created
  have hne : l'.chain b ≠ [] := by simp [hc.self]
  have hdir : (fs'.nodeAt b).isDir = decide (flags &&& O_DIRECTORY = O_DIRECTORY) := by
    have hmode : (fs'.nodeAt b).isDir = decide (madeMode flags &&& Node.MODE_TYPE = Node.MODE_DIR) := by
      rw [h.node]
      rfl
    rw [hmode, decide_eq_decide, madeMode_type]
    by_cases hf : flags &&& O_DIRECTORY = O_DIRECTORY
    · rw [if_pos hf]
      exact ⟨fun _ => hf, fun _ => rfl⟩
    · rw [if_neg hf]
      exact ⟨fun hm => absurd hm (by decide), fun h => (hf h).elim⟩
  rw [madeResource]
  by_cases hf : flags &&& O_DIRECTORY = O_DIRECTORY
  · rw [if_pos hf]
    refine ⟨hne, hdir.trans ?_⟩
    simp only [hf]
    rfl
  · rw [if_neg hf]
    refine ⟨hne, hdir.trans ?_⟩
    simp only [hf]
    rfl

/-- A request that removes nothing open keeps the record true. -/
theorem Tracks.step (h : Tracks w l) (ha : Answer w.scheme l req r s' l')
    (hk : Keeping w.scheme req) : Tracks (w.next req r s') l' := by
  obtain ⟨hinv, hst⟩ := ha.stays h.inv h.handled hk
  have hnew : ∀ res : Resource, (Function.update w.scheme.files w.scheme.nextId (some res))
      w.scheme.nextId = some res := fun res => Function.update_self ..
  cases ha with
  | refused e =>
    have ho : w.recorded req (.error e) w.scheme = w.origin := by
      cases req <;> rfl
    exact h.same hinv hst rfl ho
  | @openedDir url data flags uid gid b ds hw hdir hdata =>
    refine h.added (.dir (DirResource.new _ b data)) hinv hst ?_ hdir rfl ?_
    · exact h.inv.reach ((hw.reach h.inv).2 b rfl)
    · rw [Session.recorded]
      dsimp only [FileScheme.added]
      rw [hnew]
  | @openedFile url flags uid gid b ds hw hfile hgr =>
    refine h.added (.file (FileResource.new _ b flags)) hinv hst ?_ hfile rfl ?_
    · exact h.inv.reach ((hw.reach h.inv).2 b rfl)
    · rw [Session.recorded]
      dsimp only [FileScheme.added]
      rw [hnew]
  | @truncated url flags uid gid b ds fs' l' hw hfile hgr hperm hout =>
    have hb := h.inv.reach ((hw.reach h.inv).2 b rfl)
    have hs := hout.stay h.inv ⟨hb, hfile⟩ hb nofun
    refine h.added (.file (FileResource.new _ b flags)) hinv hst hs.chain
      (hs.kind.trans hfile) rfl ?_
    rw [Session.recorded]
    dsimp only [FileScheme.added, FileScheme.withFs]
    rw [hnew]
  | @made url flags uid gid d b ds fs' l' hw hd hm hgr =>
    obtain ⟨hobj, hkind⟩ := hm.resource
    refine h.added (madeResource _ b flags) hinv hst hobj hkind rfl ?_
    rw [Session.recorded]
    dsimp only [FileScheme.added, FileScheme.withFs]
    rw [hnew]
  | madeOnly => exact h.same hinv hst rfl rfl
  | unmade => exact h.same hinv hst rfl rfl
  | modeSet => exact h.same hinv hst rfl rfl
  | removed hreq =>
    rcases hreq with ⟨rfl, -⟩ | ⟨rfl, -⟩
    · exact h.same hinv hst rfl rfl
    · exact h.same hinv hst rfl rfl
  | unremoved hreq =>
    rcases hreq with ⟨rfl, -⟩ | ⟨rfl, -⟩
    · exact h.same hinv hst rfl rfl
    · exact h.same hinv hst rfl rfl
  | @duped id buf res hres =>
    have hs := hst id res hres
    refine h.added res hinv hst hs.chain (hs.kind.trans (h.handled id res hres).2) rfl ?_
    rw [Session.recorded]
    dsimp only [FileScheme.added]
    have hstamp : w.stamped w.scheme.fs res.block = w.stamps res.block := hs.stamped
    rw [h.origin id res hres, hstamp]
  | readDir hr => exact h.moved hinv hst hr rfl rfl rfl rfl rfl
  | readFile hr => exact h.moved hinv hst hr rfl rfl rfl rfl rfl
  | wrote hr => exact h.moved hinv hst hr rfl rfl rfl rfl rfl
  | unwritten => exact h.same hinv hst rfl rfl
  | cut => exact h.same hinv hst rfl rfl
  | @sought id offset whence pos res hr =>
    refine h.moved hinv hst hr rfl (Resource.setSeek_block ..) (Resource.setSeek_isDir ..) ?_ rfl
    cases res with
    | dir res => rfl
    | file res => rfl
  | @flagged id cmd arg n res res' hr hf =>
    have hb : res'.block = res.block := by
      rw [FileResource.fcntl] at hf
      split at hf
      · cases hf
        rfl
      · split at hf
        · cases hf
          rfl
        · cases hf
    exact h.moved hinv hst hr rfl hb rfl rfl rfl
  | stat => exact h.same hinv hst rfl rfl
  | told hreq =>
    rcases hreq with ⟨id, buf, rfl⟩ | ⟨id, rfl⟩ | ⟨id, rfl⟩
    · exact h.same hinv hst rfl rfl
    · exact h.same hinv hst rfl rfl
    · exact h.same hinv hst rfl rfl
  | closed hr => exact h.closed hinv hst rfl rfl

end Step

theorem Inv.uses_object {held : List Nat} (h : Inv fs l) (hp : l.chain p ≠ []) :
    uses fs held (.object p) = own fs l (.object p) := by
  rw [uses, h.chainOf_eq hp]
  rfl

theorem Tracks.identity {w : Session} (h : Tracks w l) : Identity w := by
  refine ⟨h.origin, fun id res o hres ho hne x hx hx' => ?_⟩
  have hinv := h.inv
  rw [hinv.uses_object (h.handled id res hres).1] at hx
  have hnot : ∀ o', o' ≠ .object res.block → x ∉ own w.scheme.fs l o' :=
    fun o' hne' hm => hne' (hinv.exclusive.disjoint _ _ x hm hx)
  cases o with
  | reserved =>
    obtain rfl : x = 0 := by simpa [uses] using hx'
    exact hnot .reserved (by simp) (by simp [own])
  | free =>
    rw [hinv.uses_free] at hx'
    rcases List.mem_cons.mp hx' with rfl | hx'
    · exact hnot .reserved (by simp) (by simp [own])
    · exact hnot .free (by simp) hx'
  | held => cases hx'
  | object q =>
    rw [hinv.uses_object (hinv.reach ho)] at hx'
    exact hnot (.object q) hne hx'

/-- A call on a file leaves everything else in reach as it is. -/
theorem Outcome.confined (h : Outcome fs l op err fs' l') (hinv : Inv fs l)
    (hfile : (fs.nodeAt op.target).isDir = false)
    (hno : ∀ mode name d, op ≠ .removeNode mode name d) (hp : Reach fs p) (hne : p ≠ op.target) :
    Reach fs' p ∧ fs'.nodeAt p = fs.nodeAt p ∧
      uses fs' [] (.object p) = uses fs [] (.object p) ∧
      children fs' (chainOf fs' p) = children fs (chainOf fs p) ∧
      ((fs.nodeAt p).isDir = false → contentOf fs' p = contentOf fs p) := by
  have hinv' := (h.inv hinv).1
  have hstay : ∀ q, l.chain q ≠ [] → l'.chain q ≠ [] := fun q hq =>
    h.chain_stays hq fun mode name d hop => (hno mode name d hop).elim
  have hlp := hinv.reach hp
  obtain ⟨hn, hown, -⟩ := h.other_own hinv hne hlp (hstay p hlp)
  obtain ⟨hchain, T, ha, hT⟩ := h.other hinv hne hlp (hstay p hlp)
  refine ⟨?_, hn, ?_, ?_, fun hpfile => ?_⟩
  · refine hinv.reach_after (b := 0) hinv' (fun d q hq _ => ⟨?_, ?_⟩) hp ?_
    · exact (hinv.object d (chain_of_entry hq)).chain.ne_zero (hinv.head_mem (chain_of_entry hq))
    · have hdt : d ≠ op.target := by
        rintro rfl
        rw [entries, hfile] at hq
        cases hq
      have hd := chain_of_entry hq
      rw [(h.other_own hinv hdt hd (hstay d hd)).2.2]
      exact hq
    · exact (hinv.object p hlp).chain.ne_zero (hinv.head_mem hlp)
  · rw [hinv'.uses_object (hstay p hlp), hinv.uses_object hlp, hown]
  · rw [hinv'.chainOf_eq (hstay p hlp), hinv.chainOf_eq hlp, hchain]
    exact List.flatMap_congr fun c hc => by rw [ha.nodeAt (hT c (mem_own_of_chain hc))]
  · rw [hinv'.contentOf_eq (hstay p hlp), hinv.contentOf_eq hlp]
    exact (h.other_content hinv hne hlp (hstay p hlp) hpfile).1

theorem Answer.confined (h : Answer s l req r s' l') (hinv : Inv s.fs l) (hh : Handled s l) :
    Confined s req r s' := by
  have hsame : ∀ p, Reach s.fs p → Reach s.fs p ∧ s.fs.nodeAt p = s.fs.nodeAt p ∧
      uses s.fs [] (.object p) = uses s.fs [] (.object p) ∧
      children s.fs (chainOf s.fs p) = children s.fs (chainOf s.fs p) ∧
      ((s.fs.nodeAt p).isDir = false → contentOf s.fs p = contentOf s.fs p) :=
    fun p hp => ⟨hp, rfl, rfl, rfl, fun _ => rfl⟩
  constructor
  case changes =>
    intro id res hid hres p hp hne
    cases h with
    | truncated | made | madeOnly | unmade | modeSet => cases hid
    | removed hreq | unremoved hreq =>
      rcases hreq with ⟨rfl, -⟩ | ⟨rfl, -⟩
      · cases hid
      · cases hid
    | wrote hr _ hout | unwritten hr _ hout | cut hr _ hout =>
      cases hid
      rw [hr] at hres
      cases hres
      exact hout.confined hinv (hh _ _ hr).2 nofun hp hne
    | _ => exact hsame p hp
  case reads =>
    rintro id buf res out n rfl hres rfl
    cases h with
    | readDir hr =>
      rw [hr] at hres
      cases hres
    | @readFile _ _ _ cells hr _ hcells =>
      rw [hr] at hres
      cases hres
      refine ⟨cells, fun x hx => ?_, rfl, rfl⟩
      obtain ⟨hne, hfile⟩ := hh id _ hr
      rw [hinv.uses_object (p := res.block) hne, own_of_file (p := res.block) hfile]
      exact List.mem_append_right _ (hcells x hx)
    | told hreq => rcases hreq with ⟨_, _, hc⟩ | ⟨_, hc⟩ | ⟨_, hc⟩ <;> cases hc
  case reports =>
    rintro id res stat rfl hres rfl
    cases h with
    | stat hr =>
      rw [hr] at hres
      cases hres
      rfl
    | told hreq => rcases hreq with ⟨_, _, hc⟩ | ⟨_, hc⟩ | ⟨_, hc⟩ <;> cases hc
  case lists =>
    rintro id buf res out n rfl hres rfl
    cases h with
    | readDir hr =>
      rw [hr] at hres
      cases hres
      rfl
    | readFile hr =>
      rw [hr] at hres
      cases hres
    | told hreq => rcases hreq with ⟨_, _, hc⟩ | ⟨_, hc⟩ | ⟨_, hc⟩ <;> cases hc
  case opens =>
    rintro url flags uid gid id res rfl rfl hres
    have hnew : ∀ {fs' res'}, ((s.withFs fs').added res').files s.nextId = some (.dir res) →
        res' = .dir res := fun {fs' res'} h =>
      Option.some.inj ((FileScheme.added_self (s.withFs fs') res').symm.trans h)
    cases h with
    | openedDir _ _ hdata =>
      obtain rfl := Resource.dir.inj (hnew hres)
      exact hdata.imp_right fun h => h.2
    | openedFile => cases hnew hres
    | truncated => cases hnew hres
    | made =>
      have hmade := hnew hres
      rw [madeResource] at hmade
      split at hmade
      · obtain rfl := Resource.dir.inj hmade
        exact Or.inl rfl
      · cases hmade
    | removed hreq => rcases hreq with ⟨hc, -⟩ | ⟨hc, -⟩ <;> cases hc
    | told hreq => rcases hreq with ⟨_, _, hc⟩ | ⟨_, hc⟩ | ⟨_, hc⟩ <;> cases hc

theorem tracks_start {disk : Disk} (hsize : disk.size < 2 ^ 64) (hc : create disk = .ok fs)
    (name : String) : Tracks (Session.start name fs) freshLayout :=
  ⟨create_inv hsize hc, nofun, nofun⟩

theorem Session.run_tracks {disk : Disk} {reqs : List Request} {w : Session}
    (hsize : disk.size < 2 ^ 64) (hc : create disk = .ok fs)
    (hrun : Run (Session.Step Keeping) (Session.start name fs) reqs w) : ∃ l, Tracks w l := by
  refine hrun.invariant (I := fun w => ∃ l, Tracks w l) ?_ ⟨_, tracks_start hsize hc name⟩
  rintro w req w' ⟨ht, hk, r, s', ha, rfl⟩ ⟨l, h⟩
  obtain ⟨l', hans⟩ := h.inv.answer h.handled ht hk.1 ha
  exact ⟨l', h.step hans hk⟩

/-- In every session that removes nothing open, each handle stands for the object it was opened for,
and the next request through it is about that object only. -/
theorem handles_keep_identity {disk : Disk} {reqs : List Request} {w : Session}
    (hsize : disk.size < 2 ^ 64) (hc : create disk = .ok fs)
    (hrun : Run (Session.Step Keeping) (Session.start name fs) reqs w) :
    Identity w ∧ ∀ req r s', req.Typed → SafeRequest w.scheme req →
      Answers req.run w.scheme r s' → Confined w.scheme req r s' := by
  obtain ⟨l, h⟩ := Session.run_tracks hsize hc hrun
  refine ⟨h.identity, fun req r s' ht hs ha => ?_⟩
  obtain ⟨l', hans⟩ := h.inv.answer h.handled ht hs ha
  exact hans.confined h.inv h.handled

/-- Flags that make a plain file. -/
def makeFlags : Nat := O_CREAT ||| O_RDWR ||| 0o644

theorem parts_a : partsOf (FileScheme.urlPath [97]) = ["a"] := by decide +kernel

theorem parts_b : partsOf (FileScheme.urlPath [98]) = ["b"] := by decide +kernel

/-- The superuser opens a new file on a new disk: its handle is `1`, for block `4`. -/
theorem open_first {disk : Disk} {n : Nat} (hd : disk.size = 512 * n) (hn : 5 ≤ n)
    (hsize : 512 * n < 2 ^ 64) (hc : create disk = .ok fs) (name : String) :
    ∃ fs' l', FirstNode disk n (madeMode makeFlags) "a" fs' l' ∧
      Answers (Request.openUrl [97] makeFlags 0 0).run (FileScheme.new name fs) (.ok (.num 1))
        (((FileScheme.new name fs).withFs fs').added
          (madeResource (FileScheme.urlPath [97]) 4 makeFlags)) := by
  have hinv := create_inv (show disk.size < 2 ^ 64 by omega) hc
  have hm : madeMode makeFlags < 2 ^ 16 := by decide
  obtain ⟨fs', l', hok, hcreated, hfirst⟩ := first_node "a" hd hn hsize hc hm
  refine ⟨fs', l', hfirst, .ok ?_⟩
  have habsent : lookup fs "a" (listing fs (freshLayout.chain 1)) = none := by
    rw [listing_fresh (by omega) hc]
    rfl
  have hrun := FileScheme.openUrl_root (s := FileScheme.new name fs) hinv parts_a (by decide)
    (by decide) habsent hok hcreated
  exact bind_of_ok hrun

/-- The only handle of a session stands for the file it has made. -/
theorem first_open_keeps_identity : ∃ fs w, create (blankDisk 7) = .ok fs ∧
    Run (Session.Step Keeping) (Session.start "disk" fs) [.openUrl [97] makeFlags 0 0] w ∧
    w.scheme.files 1 ≠ none ∧ Identity w := by
  have hsize : (blankDisk 7).size < 2 ^ 64 := by decide
  obtain ⟨fs, hc⟩ := create_ok (show 4 * 512 ≤ (blankDisk 7).size by decide)
  obtain ⟨fs', l', -, hans⟩ := open_first (n := 7) rfl (by omega) (by omega) hc "disk"
  have hstep : Session.Step Keeping (Session.start "disk" fs) (.openUrl [97] makeFlags 0 0) _ :=
    ⟨⟨by omega, by omega⟩, ⟨trivial, trivial⟩, _, _, hans, rfl⟩
  refine ⟨fs, _, hc, .cons hstep .nil, Option.some_ne_none _, ?_⟩
  exact (handles_keep_identity hsize hc (.cons hstep .nil)).1

/-- The file is removed: its block is free, and the next to be taken. -/
theorem FirstNode.remove {disk : Disk} {n : Nat} (h : FirstNode disk n mode "a" fs l)
    (hmode : mode &&& Node.MODE_TYPE = Node.MODE_FILE) (hn : 5 < n) (hsize : 512 * n < 2 ^ 64) :
    Removes fs Node.MODE_FILE "a" 1 4 ∧ Room fs (l.chain 1) 4 ∧
    ∃ fs' l', removeNode Node.MODE_FILE "a" 1 fs = .ok () fs' ∧ Inv fs' l' ∧ l'.chain 1 = [1] ∧
      l'.chain 4 = [] ∧ (fs'.nodeAt 1).extents = List.replicate 15 Extent.default ∧
      fs'.freeNode.extents = ⟨4, 512 * (n - 4)⟩ :: List.replicate 14 Extent.default := by
  have hname : (fs.nodeAt 4).nameStr = some "a" := by
    rw [h.node]
    exact Node.nameStr_new (by decide) (by decide)
  have hlist : children fs (chainOf fs 1) = [4] := by
    rw [h.inv.chainOf_eq h.inv.rootChain, h.inv.children_eq h.inv.rootDir, h.rootChain, listing_cons,
      listing_nil, h.root]
    decide
  have hkind : (fs.nodeAt 4).mode &&& Node.MODE_TYPE = Node.MODE_FILE := by
    rw [h.node]
    exact hmode
  have hremoves : Removes fs Node.MODE_FILE "a" 1 4 := by
    refine ⟨?_, hkind, fun hd => ?_⟩
    · rw [hlist, lookup]
      simp [hname]
    · rw [Node.isDir, hkind] at hd
      exact absurd hd (by decide)
  have hout : removeExtent 4 1 (fs.nodeAt 1).extents =
      some (List.replicate 15 Extent.default, none) := by
    rw [h.root]
    decide
  have hlen : ¬512 * (n - 5) = 0 := by omega
  have hsum : 512 * (n - 5) + 512 = 512 * (n - 4) := by omega
  have hins : insertExtent 4 512 fs.freeNode.extents =
      some (⟨4, 512 * (n - 4)⟩ :: List.replicate 14 Extent.default) := by
    rw [h.free, insertExtent]
    simp only [hlen, if_false, hsum]
    rfl
  have hv : ValidExtents (⟨4, 512 * (n - 4)⟩ :: List.replicate 14 Extent.default) := by
    refine ⟨rfl, fun e he => ?_⟩
    rcases List.mem_cons.mp he with rfl | he
    · exact ⟨by dsimp only; omega, by dsimp only; omega⟩
    · rw [List.eq_of_mem_replicate he]
      decide
  obtain ⟨hroom, fs', l', hok, hremoved, hchain, hfree, hroot, -, -⟩ :=
    h.inv.removeNode_short h.inv.reach_root h.inv.rootDir hremoves hout hins hv
  exact ⟨hremoves, hroom, fs', l', hok, hremoved.inv, hchain.trans h.rootChain, hremoved.self,
    by rw [hroot], hfree⟩

/-- A file is opened and removed, and another one made: the old handle now stands for the new file. -/
theorem removed_file_lends_its_handle : ∃ fs w, create (blankDisk 7) = .ok fs ∧
    Run (Session.Step SafeRequest) (Session.start "disk" fs)
      [.openUrl [97] makeFlags 0 0, .unlink [97] 0 0, .openUrl [98] makeFlags 0 0] w ∧
    (∃ r, w.scheme.files 1 = some (.file r) ∧ (w.scheme.fs.nodeAt r.block).nameStr = some "b") ∧
    ¬Identity w := by
  have hsize : (blankDisk 7).size < 2 ^ 64 := by decide
  obtain ⟨fs, hc⟩ := create_ok (show 4 * 512 ≤ (blankDisk 7).size by decide)
  obtain ⟨fs₁, l₁, hfirst, hans₁⟩ := open_first (n := 7) rfl (by omega) (by omega) hc "disk"
  obtain ⟨hremoves, hroom, fs₂, l₂, hok₂, hinv₂, hroot₂, hgone₂, hext₂, hfree₂⟩ :=
    hfirst.remove (by decide) (by omega) (by omega)
  -- the path of the first file leads to it
  have hfollow : follow fs₁ 1 (partsOf (FileScheme.urlPath [97])) = ([1], some 4) := by
    rw [parts_a, follow, hremoves.1]
    rfl
  have hsafe : ∀ ds b d name, follow fs₁ 1 (partsOf (FileScheme.urlPath [97])) = (ds, some b) →
      ds.getLast? = some d → (fs₁.nodeAt b).nameStr = some name →
      Safe fs₁ (.removeNode Node.MODE_FILE name d) := by
    rintro ds b d name hf hd hn c hc'
    rw [hfollow] at hf
    cases hf
    obtain rfl : 1 = d := Option.some.inj hd
    obtain rfl : 4 = c := by
      have hname : (fs₁.nodeAt 4).nameStr = some "a" := by
        rw [hfirst.node]
        exact Node.nameStr_new (by decide) (by decide)
      rw [hn] at hname
      cases hname
      exact Option.some.inj (hremoves.1.symm.trans hc'.1)
    rw [hfirst.inv.chainOf_eq hfirst.inv.rootChain]
    exact hroom
  generalize hs₁ : ((FileScheme.new "disk" fs).withFs fs₁).added
    (madeResource (FileScheme.urlPath [97]) 4 makeFlags) = s₁ at hans₁
  have hfs₁ : s₁.fs = fs₁ := by rw [← hs₁]; rfl
  have hid₁ : s₁.nextId = 2 := by rw [← hs₁]; rfl
  have hres₁ : s₁.files 1 = some (.file (FileResource.new (FileScheme.urlPath [97]) 4 makeFlags)) := by
    rw [← hs₁]
    rfl
  have hans₂ : Answers (Request.unlink [97] 0 0).run s₁ (.ok (.num 0)) (s₁.withFs fs₂) := by
    have hinv₁ : Inv s₁.fs l₁ := hfs₁ ▸ hfirst.inv
    have hnode : s₁.fs.nodeAt 4 = Node.new (madeMode makeFlags) "a" 1 := hfs₁ ▸ hfirst.node
    have hname : (s₁.fs.nodeAt 4).nameStr = some "a" := by
      rw [hnode]
      exact Node.nameStr_new (by decide) (by decide)
    have hfile : (s₁.fs.nodeAt 4).isDir = false := by
      rw [hnode]
      decide
    refine .ok (bind_of_ok (FileScheme.unlink_run hinv₁ (hfs₁ ▸ hfollow) ?_ rfl hfile hname
      (hfs₁ ▸ hok₂)))
    intro d hd
    rw [List.mem_singleton.mp hd]
    exact hinv₁.rootDir
  -- the second file gets the block of the first
  have htake : takeExtent 1 fs₂.freeNode.extents =
      some (4, ⟨5, 1024⟩ :: List.replicate 14 Extent.default) := by
    rw [hfree₂]
    decide
  have hins : insertExtent 4 512 (fs₂.nodeAt 1).extents =
      some (⟨4, 512⟩ :: List.replicate 14 Extent.default) := by
    rw [hext₂]
    decide
  have habsent : lookup fs₂ "b" (listing fs₂ (l₂.chain 1)) = none := by
    rw [hroot₂, listing_cons, listing_nil, hext₂]
    rfl
  obtain ⟨fs₃, l₃, hok₃, hcreated, hroot₃, -, hrootn₃, -⟩ := hinv₂.createNode_short "b"
    hinv₂.rootChain hinv₂.rootDir (show madeMode makeFlags < 2 ^ 16 by decide) habsent htake hins
    ⟨rfl, by decide⟩
  have hans₃ : Answers (Request.openUrl [98] makeFlags 0 0).run (s₁.withFs fs₂) (.ok (.num 2))
      ((s₁.withFs fs₃).added (madeResource (FileScheme.urlPath [98]) 4 makeFlags)) := by
    have hrun := FileScheme.openUrl_root (s := s₁.withFs fs₂) hinv₂ parts_b (by decide) (by decide)
      habsent hok₃ hcreated
    have hid : (s₁.withFs fs₂).nextId = 2 := hid₁
    rw [hid] at hrun
    exact .ok (bind_of_ok hrun)
  have hstep₁ : Session.Step SafeRequest (Session.start "disk" fs) (.openUrl [97] makeFlags 0 0)
      ((Session.start "disk" fs).next (.openUrl [97] makeFlags 0 0) (.ok (.num 1)) s₁) :=
    ⟨⟨by omega, by omega⟩, trivial, _, _, hans₁, rfl⟩
  have horigin : ∃ k ≤ 1, ((Session.start "disk" fs).next (.openUrl [97] makeFlags 0 0)
      (.ok (.num 1)) s₁).origin 1 = ⟨4, k, []⟩ := by
    refine ⟨(Session.start "disk" fs).stamped s₁.fs 4, ?_, ?_⟩
    · rw [Session.stamped]
      split
      · exact le_refl 1
      · exact Nat.zero_le 1
    · simp only [Session.next, Session.recorded, hres₁]
      rw [Function.update_self]
      rfl
  have hclock : ((Session.start "disk" fs).next (.openUrl [97] makeFlags 0 0)
      (.ok (.num 1)) s₁).clock = 2 := rfl
  have hscheme : ((Session.start "disk" fs).next (.openUrl [97] makeFlags 0 0)
      (.ok (.num 1)) s₁).scheme = s₁ := rfl
  generalize (Session.start "disk" fs).next (.openUrl [97] makeFlags 0 0) (.ok (.num 1)) s₁ = w₁
    at hstep₁ horigin hclock hscheme
  obtain ⟨s, clock, stamps, origin⟩ := w₁
  dsimp only at horigin hclock hscheme
  subst hclock hscheme
  obtain ⟨k, hk, horigin⟩ := horigin
  have hstep₂ : Session.Step SafeRequest ⟨s, 2, stamps, origin⟩ (.unlink [97] 0 0)
      ((⟨s, 2, stamps, origin⟩ : Session).next (.unlink [97] 0 0) (.ok (.num 0)) (s.withFs fs₂)) :=
    ⟨trivial, by rw [← hfs₁] at hsafe; exact hsafe, _, _, hans₂, rfl⟩
  have hstep₃ := (⟨⟨by omega, by omega⟩, trivial, _, _, hans₃, rfl⟩ : Session.Step SafeRequest
    ((⟨s, 2, stamps, origin⟩ : Session).next (.unlink [97] 0 0) (.ok (.num 0)) (s.withFs fs₂))
    (.openUrl [98] makeFlags 0 0) _)
  have hhandle : ((s.withFs fs₃).added (madeResource (FileScheme.urlPath [98]) 4 makeFlags)).files 1 =
      some (.file (FileResource.new (FileScheme.urlPath [97]) 4 makeFlags)) := by
    have hne : 1 ≠ (s.withFs fs₃).nextId := by
      rw [FileScheme.withFs, hid₁]
      decide
    exact (Function.update_of_ne hne _ _).trans hres₁
  refine ⟨fs, _, hc, .cons hstep₁ (.cons hstep₂ (.cons hstep₃ .nil)), ⟨_, hhandle, ?_⟩, fun hid => ?_⟩
  · have hname : (fs₃.nodeAt 4).nameStr = some "b" := by
      rw [hcreated.node]
      exact Node.nameStr_new (by decide) (by decide)
    exact hname
  · have hnew : Reach fs₃ 4 := by
      refine hcreated.inv.reach_listed (hroot₃.trans hroot₂) ?_
      rw [hrootn₃]
      exact List.mem_append_left _ (by decide)
    have hold : ¬Reach fs₂ 4 := fun hr => hinv₂.reach hr hgone₂
    have hsame := hid.same 1 _ hhandle
    have hstamp : k = 3 := by
      have h2 : ((s.withFs fs₃).added
          (madeResource (FileScheme.urlPath [98]) 4 makeFlags)).files 2 = some
          (madeResource (FileScheme.urlPath [98]) 4 makeFlags) := by
        have := FileScheme.added_self (s.withFs fs₃)
          (madeResource (FileScheme.urlPath [98]) 4 makeFlags)
        rw [show (s.withFs fs₃).nextId = 2 from hid₁] at this
        exact this
      simp only [Session.next, Session.recorded, h2] at hsame
      rw [Function.update_of_ne (by decide), horigin] at hsame
      have hk := congrArg Origin.stamp hsame
      dsimp only [FileResource.new, Resource.block] at hk
      rw [hk, Session.stamped]
      exact if_pos ⟨hnew, hold⟩
    omega

end Origel.RedoxFs
