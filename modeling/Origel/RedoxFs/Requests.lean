import Origel.RedoxFs.Paths
import Origel.RedoxFs.Scheme

/-! Everything a request to the scheme can do to a well laid out file system and to the open
resources. -/
namespace Origel.RedoxFs

open Origel.Lib FileSystem

variable {fs fs' : FileSystem} {s s' : FileScheme} {b c d p t mode uid gid flags : Nat}
  {l l' : Layout} {op : Op} {ops : List Op} {buf : List UInt8} {name path : String}
  {err : Option Errno} {α : Type}

/-- The requests of the scheme, with their arguments. -/
inductive Request where
  | openUrl (url : List UInt8) (flags uid gid : Nat)
  | chmod (url : List UInt8) (mode uid gid : Nat)
  | rmdir (url : List UInt8) (uid gid : Nat)
  | unlink (url : List UInt8) (uid gid : Nat)
  | dup (id : Nat) (buf : List UInt8)
  | read (id : Nat) (buf : List UInt8)
  | write (id : Nat) (buf : List UInt8)
  | lseek (id pos whence : Nat)
  | fcntl (id cmd arg : Nat)
  | fpath (id : Nat) (buf : List UInt8)
  | fstat (id : Nat)
  | fstatvfs (id : Nat)
  | fsync (id : Nat)
  | ftruncate (id len : Nat)
  | close (id : Nat)

inductive Reply where
  | num (n : Nat)
  | bytes (buf : List UInt8) (n : Nat)
  | stat (stat : Stat)
  | statVfs (stat : FileScheme.StatVfs)

namespace Request

def run : Request → SchemeM Reply
  | openUrl url flags uid gid => return .num (← FileScheme.openUrl url flags uid gid)
  | chmod url mode uid gid => return .num (← FileScheme.chmod url mode uid gid)
  | rmdir url uid gid => return .num (← FileScheme.rmdir url uid gid)
  | unlink url uid gid => return .num (← FileScheme.unlink url uid gid)
  | dup id buf => return .num (← FileScheme.dup id buf)
  | read id buf => do
    let (out, n) ← FileScheme.read id buf
    return .bytes out n
  | write id buf => return .num (← FileScheme.write id buf)
  | lseek id pos whence => return .num (← FileScheme.lseek id pos whence)
  | fcntl id cmd arg => return .num (← FileScheme.fcntl id cmd arg)
  | fpath id buf => do
    let (out, n) ← FileScheme.fpath id buf
    return .bytes out n
  | fstat id => return .stat (← FileScheme.fstat id)
  | fstatvfs id => return .statVfs (← FileScheme.fstatvfs id)
  | fsync id => return .num (← FileScheme.fsync id)
  | ftruncate id len => return .num (← FileScheme.ftruncate id len)
  | close id => return .num (← FileScheme.close id)

end Request

/-- A request that comes back, with a reply or an error number. -/
inductive Answers (x : SchemeM α) (s : FileScheme) : Except Errno α → FileScheme → Prop
  | ok {a : α} {s' : FileScheme} (h : x s = .ok a s') : Answers x s (.ok a) s'
  | error {e : Errno} {s' : FileScheme} (h : x s = .error (.errno e) s') : Answers x s (.error e) s'

/-- A postcondition for the computations that come back. -/
def Back (Q : Except Errno α → FileScheme → Prop) : Except Fault α → FileScheme → Prop
  | .ok a, s => Q (.ok a) s
  | .error (.errno e), s => Q (.error e) s
  | .error .crash, _ => True

theorem Answers.of_ends {x : SchemeM α} {Q : Except Errno α → FileScheme → Prop}
    {r : Except Errno α} (h : Answers x s r s') (hx : Ends x s (Back Q)) : Q r s' := by
  cases h with
  | ok h => exact hx.1 _ _ h
  | error h => exact hx.2 _ _ h

/-- The path leads through directories that may be searched. -/
structure Walked (fs : FileSystem) (uid gid : Nat) (path : String) (ds : List Nat)
    (o : Option Nat) : Prop where
  leads : follow fs 1 (partsOf path) = (ds, o)
  dirs : ∀ d ∈ ds, (fs.nodeAt d).isDir = true
  exec : ∀ d ∈ ds, (fs.nodeAt d).permission uid gid Node.MODE_EXEC = true

/-- The node grants what the flags ask for. -/
structure Grants (n : Node) (flags uid gid : Nat) : Prop where
  read : flags &&& O_ACCMODE = O_RDONLY ∨ flags &&& O_ACCMODE = O_RDWR →
    n.permission uid gid Node.MODE_READ = true
  write : flags &&& O_ACCMODE = O_WRONLY ∨ flags &&& O_ACCMODE = O_RDWR →
    n.permission uid gid Node.MODE_WRITE = true

namespace FileScheme

/-- The table with one more resource. -/
def added (s : FileScheme) (r : Resource) : FileScheme :=
  { s with nextId := wrap64 (s.nextId + 1), files := Function.update s.files s.nextId (some r) }

/-- The table with another resource behind a handle. -/
def moved (s : FileScheme) (id : Nat) (r : Resource) : FileScheme :=
  { s with files := Function.update s.files id (some r) }

def closed (s : FileScheme) (id : Nat) : FileScheme :=
  { s with files := Function.update s.files id none }

def withFs (s : FileScheme) (fs : FileSystem) : FileScheme := { s with fs := fs }

theorem onFs_ok {x : FsM α} {a : α} (h : x s.fs = .ok a fs') : onFs x s = .ok a (s.withFs fs') := by
  rw [onFs, h]
  rfl

theorem onFs_error {x : FsM α} {e : Fault} (h : x s.fs = .error e fs') :
    onFs x s = .error e (s.withFs fs') := by
  rw [onFs, h]
  rfl

/-- The bytes under a resource: what the directory listed, or what the file holds. -/
def bytes (s : FileScheme) : Resource → List UInt8
  | .dir r => r.data
  | .file r => contentOf s.fs r.block

@[simp] theorem added_fs (s : FileScheme) (r : Resource) : (s.added r).fs = s.fs := rfl

theorem added_self (s : FileScheme) (r : Resource) : (s.added r).files s.nextId = some r :=
  Function.update_self ..

theorem moved_self (s : FileScheme) (id : Nat) (r : Resource) : (s.moved id r).files id = some r :=
  Function.update_self ..

@[simp] theorem moved_fs (s : FileScheme) (id : Nat) (r : Resource) : (s.moved id r).fs = s.fs := rfl

@[simp] theorem closed_fs (s : FileScheme) (id : Nat) : (s.closed id).fs = s.fs := rfl

@[simp] theorem withFs_fs (s : FileScheme) (fs : FileSystem) : (s.withFs fs).fs = fs := rfl

@[simp] theorem withFs_files (s : FileScheme) (fs : FileSystem) : (s.withFs fs).files = s.files := rfl

/-- A read of the file system leaves the scheme alone. -/
theorem ends_onFs_reads {x : FsM α} (h : Reads x) :
    Ends (onFs x) s fun r s' => s' = s ∧ (∀ a, r = .ok a → x s.fs = .ok a s.fs) ∧
      ∀ e, r = .error e → x s.fs = .error e s.fs := by
  cases hx : x s.fs with
  | ok a fs =>
    obtain rfl := h.ok hx
    have hrun : onFs x s = .ok a s := by
      rw [onFs, hx]
    refine ends_of_ok hrun ⟨rfl, fun b hb => ?_, nofun⟩
    cases hb
    rfl
  | error e fs =>
    obtain rfl := h.error hx
    have hrun : onFs x s = .error e s := by
      rw [onFs, hx]
    refine ends_of_error hrun ⟨rfl, nofun, fun e he => ?_⟩
    cases he
    rfl

theorem ends_checkPath (uid gid : Nat) (ns : List (Nat × Node)) :
    Ends (checkPath uid gid ns) s fun r s' => s' = s ∧
      (∀ e, r = .error e → e = .errno .EACCES ∨ e = .errno .ENOTDIR) ∧ (r = .ok () →
      ∀ n ∈ ns, n.2.isDir = true ∧ n.2.permission uid gid Node.MODE_EXEC = true) := by
  induction ns with
  | nil => exact ends_pure ⟨rfl, nofun, fun _ n hn => nomatch hn⟩
  | cons n ns ih =>
    by_cases hp : n.2.permission uid gid Node.MODE_EXEC = true
    · by_cases hd : n.2.isDir = true
      · have hrun : checkPath uid gid (n :: ns) = checkPath uid gid ns := by
          rw [checkPath]
          simp [hp, hd]
        rw [hrun]
        refine ih.mono fun r s' ⟨hs, hc, hall⟩ => ⟨hs, hc, fun hr m hm => ?_⟩
        rcases List.mem_cons.mp hm with rfl | hm
        · exact ⟨hd, hp⟩
        · exact hall hr m hm
      · have hrun : checkPath uid gid (n :: ns) s = .error (.errno .ENOTDIR) s := by
          rw [checkPath]
          simp [hp, hd]
          rfl
        refine ends_of_error hrun ⟨rfl, fun e he => ?_, nofun⟩
        cases he
        exact Or.inr rfl
    · have hrun : checkPath uid gid (n :: ns) s = .error (.errno .EACCES) s := by
        rw [checkPath]
        simp [hp]
        rfl
      refine ends_of_error hrun ⟨rfl, fun e he => ?_, nofun⟩
      cases he
      exact Or.inl rfl

end FileScheme

namespace Resource

def isDir : Resource → Bool
  | dir _ => true
  | file _ => false

/-- The resource with another position. -/
def setSeek : Resource → Nat → Resource
  | dir r, pos => dir { r with seek := pos }
  | file r, pos => file { r with seek := pos }

/-- The position of the resource. -/
def pos : Resource → Nat
  | dir r => r.seek
  | file r => r.seek

@[simp] theorem setSeek_block (r : Resource) (pos : Nat) : (r.setSeek pos).block = r.block := by
  cases r with
  | dir r => rfl
  | file r => rfl

@[simp] theorem setSeek_isDir (r : Resource) (pos : Nat) : (r.setSeek pos).isDir = r.isDir := by
  cases r with
  | dir r => rfl
  | file r => rfl

end Resource

/-- The mode and the resource of what `open` creates. -/
def madeMode (flags : Nat) : Nat :=
  (if flags &&& O_DIRECTORY = O_DIRECTORY then Node.MODE_DIR else Node.MODE_FILE) |||
    (flags % 2 ^ 16 &&& Node.MODE_PERM)

def madeResource (path : String) (b flags : Nat) : Resource :=
  if flags &&& O_DIRECTORY = O_DIRECTORY then .dir (DirResource.new path b [])
  else .file (FileResource.new path b flags)

/-- What `open` leaves when it has created `b` in the directory `d`. -/
structure Made (fs : FileSystem) (l : Layout) (path : String) (flags uid gid d b : Nat)
    (fs' : FileSystem) (l' : Layout) : Prop where
  absent : lookup fs (FileScheme.lastPart path) (listing fs (l.chain d)) = none
  created : ∃ fs₁, Created fs l d b (Node.new (madeMode flags) (FileScheme.lastPart path) d) fs₁ l' ∧
    Outcome fs₁ l' (.setAttr b (madeMode flags) uid gid) none fs' l'
  node : fs'.nodeAt b = { Node.new (madeMode flags) (FileScheme.lastPart path) d with
    uid := uid, gid := gid }

/-- The ways a request can end. -/
inductive Answer (s : FileScheme) (l : Layout) :
    Request → Except Errno Reply → FileScheme → Layout → Prop
  | refused {req : Request} (e : Errno) : Answer s l req (.error e) s l
  | openedDir {url data : List UInt8} {flags uid gid b : Nat} {ds : List Nat}
      (hw : Walked s.fs uid gid (FileScheme.urlPath url) ds (some b))
      (hdir : (s.fs.nodeAt b).isDir = true)
      (hdata : data = [] ∨ (s.fs.nodeAt b).permission uid gid Node.MODE_READ = true ∧
        data = FileScheme.dirData ((children s.fs (chainOf s.fs b)).map fun c =>
          (c, s.fs.nodeAt c)) []) :
      Answer s l (.openUrl url flags uid gid) (.ok (.num s.nextId))
        (s.added (.dir (DirResource.new (FileScheme.urlPath url) b data))) l
  | openedFile {url : List UInt8} {flags uid gid b : Nat} {ds : List Nat}
      (hw : Walked s.fs uid gid (FileScheme.urlPath url) ds (some b))
      (hfile : (s.fs.nodeAt b).isDir = false) (hgr : Grants (s.fs.nodeAt b) flags uid gid) :
      Answer s l (.openUrl url flags uid gid) (.ok (.num s.nextId))
        (s.added (.file (FileResource.new (FileScheme.urlPath url) b flags))) l
  | truncated {url : List UInt8} {flags uid gid b : Nat} {ds : List Nat} {fs' : FileSystem}
      {l' : Layout} (hw : Walked s.fs uid gid (FileScheme.urlPath url) ds (some b))
      (hfile : (s.fs.nodeAt b).isDir = false) (hgr : Grants (s.fs.nodeAt b) flags uid gid)
      (hperm : (s.fs.nodeAt b).permission uid gid Node.MODE_WRITE = true)
      (hout : Outcome s.fs l (.nodeSetLen b 0) none fs' l') :
      Answer s l (.openUrl url flags uid gid) (.ok (.num s.nextId))
        ((s.withFs fs').added (.file (FileResource.new (FileScheme.urlPath url) b flags))) l'
  | made {url : List UInt8} {flags uid gid d b : Nat} {ds : List Nat} {fs' : FileSystem}
      {l' : Layout} (hw : Walked s.fs uid gid (FileScheme.urlPath url) ds none)
      (hd : ds.getLast? = some d) (hm : Made s.fs l (FileScheme.urlPath url) flags uid gid d b fs' l')
      (hgr : Grants (fs'.nodeAt b) flags uid gid) :
      Answer s l (.openUrl url flags uid gid) (.ok (.num s.nextId))
        ((s.withFs fs').added (madeResource (FileScheme.urlPath url) b flags)) l'
  | madeOnly {url : List UInt8} {flags uid gid d b : Nat} {ds : List Nat} {fs' : FileSystem}
      {l' : Layout} (hw : Walked s.fs uid gid (FileScheme.urlPath url) ds none)
      (hd : ds.getLast? = some d) (hm : Made s.fs l (FileScheme.urlPath url) flags uid gid d b fs' l')
      (hgr : ¬Grants (fs'.nodeAt b) flags uid gid) :
      Answer s l (.openUrl url flags uid gid) (.error .EACCES) (s.withFs fs') l'
  | unmade {url : List UInt8} {flags uid gid d : Nat} {ds : List Nat} {e : Errno} {fs' : FileSystem}
      {l' : Layout} (hw : Walked s.fs uid gid (FileScheme.urlPath url) ds none)
      (hd : ds.getLast? = some d)
      (hout : Outcome s.fs l (.createNode (madeMode flags)
        (FileScheme.lastPart (FileScheme.urlPath url)) d) (some e) fs' l') :
      Answer s l (.openUrl url flags uid gid) (.error e) (s.withFs fs') l'
  | modeSet {url : List UInt8} {mode uid gid b : Nat} {ds : List Nat} {fs' : FileSystem}
      (hw : Walked s.fs uid gid (FileScheme.urlPath url) ds (some b))
      (howner : (s.fs.nodeAt b).uid = uid ∨ uid = 0)
      (hout : Outcome s.fs l (.setAttr b mode (s.fs.nodeAt b).uid (s.fs.nodeAt b).gid) none fs' l) :
      Answer s l (.chmod url mode uid gid) (.ok (.num 0)) (s.withFs fs') l
  | removed {req : Request} {url : List UInt8} {mode uid gid d b : Nat} {name : String}
      {ds : List Nat} {fs' : FileSystem} {l' : Layout}
      (hreq : req = .rmdir url uid gid ∧ mode = Node.MODE_DIR ∨
        req = .unlink url uid gid ∧ mode = Node.MODE_FILE)
      (hw : Walked s.fs uid gid (FileScheme.urlPath url) ds (some b)) (hd : ds.getLast? = some d)
      (hname : (s.fs.nodeAt b).nameStr = some name)
      (hdw : (s.fs.nodeAt d).permission uid gid Node.MODE_WRITE = true)
      (hbw : (s.fs.nodeAt b).permission uid gid Node.MODE_WRITE = true)
      (hout : Outcome s.fs l (.removeNode mode name d) none fs' l') :
      Answer s l req (.ok (.num 0)) (s.withFs fs') l'
  | unremoved {req : Request} {url : List UInt8} {mode uid gid d b : Nat} {name : String}
      {ds : List Nat} {e : Errno} {fs' : FileSystem} {l' : Layout}
      (hreq : req = .rmdir url uid gid ∧ mode = Node.MODE_DIR ∨
        req = .unlink url uid gid ∧ mode = Node.MODE_FILE)
      (hw : Walked s.fs uid gid (FileScheme.urlPath url) ds (some b)) (hd : ds.getLast? = some d)
      (hname : (s.fs.nodeAt b).nameStr = some name)
      (hdw : (s.fs.nodeAt d).permission uid gid Node.MODE_WRITE = true)
      (hbw : (s.fs.nodeAt b).permission uid gid Node.MODE_WRITE = true)
      (hout : Outcome s.fs l (.removeNode mode name d) (some e) fs' l') :
      Answer s l req (.error e) (s.withFs fs') l'
  | duped {id : Nat} {buf : List UInt8} {r : Resource} (hr : s.files id = some r) :
      Answer s l (.dup id buf) (.ok (.num s.nextId)) (s.added r) l
  | readDir {id : Nat} {buf : List UInt8} {r : DirResource} (hr : s.files id = some (.dir r)) :
      Answer s l (.read id buf) (.ok (.bytes (r.read buf).2.1 (r.read buf).2.2))
        (s.moved id (.dir (r.read buf).1)) l
  | readFile {id : Nat} {buf : List UInt8} {r : FileResource} {cells : List Nat}
      (hr : s.files id = some (.file r)) (hc : r.canRead = true)
      (hcells : ∀ x ∈ cells, x / 512 ∈ listing s.fs (l.chain r.block)) :
      Answer s l (.read id buf)
        (.ok (.bytes (overlay buf 0 (cells.map s.fs.disk.bytes)) cells.length))
        (s.moved id (.file { r with seek := r.seek + cells.length })) l
  | wrote {id n : Nat} {buf : List UInt8} {r : FileResource} {fs' : FileSystem} {l' : Layout}
      (hr : s.files id = some (.file r)) (hc : r.canWrite = true)
      (hout : Outcome s.fs l (.writeNode r.block r.seek buf) none fs' l') :
      Answer s l (.write id buf) (.ok (.num n))
        ((s.withFs fs').moved id (.file { r with seek := r.seek + n })) l'
  | unwritten {id : Nat} {buf : List UInt8} {r : FileResource} {e : Errno} {fs' : FileSystem}
      {l' : Layout} (hr : s.files id = some (.file r)) (hc : r.canWrite = true)
      (hout : Outcome s.fs l (.writeNode r.block r.seek buf) (some e) fs' l') :
      Answer s l (.write id buf) (.error e) (s.withFs fs') l'
  | cut {id len : Nat} {r : FileResource} {fs' : FileSystem} {l' : Layout}
      (hr : s.files id = some (.file r)) (hc : r.canWrite = true)
      (hout : Outcome s.fs l (.nodeSetLen r.block len) none fs' l') :
      Answer s l (.ftruncate id len) (.ok (.num 0)) (s.withFs fs') l'
  | sought {id offset whence pos : Nat} {r : Resource} (hr : s.files id = some r) :
      Answer s l (.lseek id offset whence) (.ok (.num pos)) (s.moved id (r.setSeek pos)) l
  | flagged {id cmd arg n : Nat} {r r' : FileResource} (hr : s.files id = some (.file r))
      (hf : r.fcntl cmd arg = .ok (r', n)) :
      Answer s l (.fcntl id cmd arg) (.ok (.num n)) (s.moved id (.file r')) l
  | stat {id : Nat} {r : Resource} (hr : s.files id = some r) :
      Answer s l (.fstat id) (.ok (.stat ⟨(s.fs.nodeAt r.block).mode, (s.fs.nodeAt r.block).uid,
        (s.fs.nodeAt r.block).gid, (contentOf s.fs r.block).length⟩)) s l
  | told {req : Request} {reply : Reply}
      (hreq : (∃ id buf, req = .fpath id buf) ∨ (∃ id, req = .fstatvfs id) ∨ ∃ id, req = .fsync id) :
      Answer s l req (.ok reply) s l
  | closed {id : Nat} {r : Resource} (hr : s.files id = some r) :
      Answer s l (.close id) (.ok (.num 0)) (s.closed id) l

/-- Every open resource is about an object of its kind. -/
def Handled (s : FileScheme) (l : Layout) : Prop :=
  ∀ id r, s.files id = some r →
    l.chain r.block ≠ [] ∧ (s.fs.nodeAt r.block).isDir = r.isDir

/-- The calls that a request makes are safe. -/
def SafeRequest (s : FileScheme) : Request → Prop
  | .write id buf => ∀ r, s.files id = some (.file r) → Safe s.fs (.writeNode r.block r.seek buf)
  | .rmdir url _ _ => ∀ ds b d name,
    follow s.fs 1 (partsOf (FileScheme.urlPath url)) = (ds, some b) → ds.getLast? = some d →
    (s.fs.nodeAt b).nameStr = some name → Safe s.fs (.removeNode Node.MODE_DIR name d)
  | .unlink url _ _ => ∀ ds b d name,
    follow s.fs 1 (partsOf (FileScheme.urlPath url)) = (ds, some b) → ds.getLast? = some d →
    (s.fs.nodeAt b).nameStr = some name → Safe s.fs (.removeNode Node.MODE_FILE name d)
  | _ => True

/-- Users and groups are 32-bit numbers. -/
def Request.Typed : Request → Prop
  | .openUrl _ _ uid gid => uid < 2 ^ 32 ∧ gid < 2 ^ 32
  | _ => True

namespace FileScheme

variable {β : Type} {Q : Except Errno β → FileScheme → Prop}

theorem ends_fail {e : Errno} (h : Q (.error e) s) : Ends (fail e : SchemeM β) s (Back Q) :=
  ends_of_error rfl h

theorem ends_addFile {r : Resource} {Q : Except Errno Nat → FileScheme → Prop}
    (h : Q (.ok s.nextId) (s.added r)) : Ends (addFile r) s (Back Q) := ends_of_ok rfl h

theorem back_error {P : Except Errno α → FileScheme → Prop} {e : Fault}
    (h : Back P (.error e) s) (hPQ : ∀ e, P (.error e) s → Q (.error e) s) :
    Back Q (.error e) s := by
  cases e with
  | errno e => exact hPQ e h
  | crash => trivial

/-- Two steps that both come back. -/
theorem ends_seq {x : SchemeM α} {f : α → SchemeM β} {P : Except Errno α → FileScheme → Prop}
    (h : Ends x s (Back P)) (hok : ∀ a s', P (.ok a) s' → Ends (f a) s' (Back Q))
    (herr : ∀ e s', P (.error e) s' → Q (.error e) s') : Ends (x >>= f) s (Back Q) :=
  h.bind hok fun _ s' he => back_error he fun e => herr e s'

/-- The path is looked up and its directories are checked. -/
theorem ends_walked {g : List (Nat × Node) → Except Errno (Nat × Node) → SchemeM β}
    (h : Inv s.fs l) (hrefused : ∀ e, e = .EACCES ∨ e = .ENOTDIR → Q (.error e) s)
    (hg : ∀ ds o, Walked s.fs uid gid path ds o →
      Ends (g (ds.map fun b => (b, s.fs.nodeAt b)) (found s.fs o)) s (Back Q)) :
    Ends (do
      let x ← onFs (pathNodes path)
      checkPath uid gid x.1
      g x.1 x.2) s (Back Q) := by
  refine (ends_onFs_reads (reads_pathNodes path)).bind ?_ ?_
  · rintro ⟨ns, res⟩ s' ⟨rfl, hrun, -⟩
    refine (ends_checkPath uid gid ns).bind ?_ ?_
    · rintro ⟨⟩ s'' ⟨rfl, -, hall⟩
      have hall := hall rfl
      obtain ⟨rfl, rfl⟩ := h.pathNodes_spec (hrun _ rfl) fun n hn => (hall n hn).1
      refine hg _ _ ⟨rfl, fun d hd => ?_, fun d hd => ?_⟩
      · exact (hall _ (List.mem_map_of_mem hd)).1
      · exact (hall _ (List.mem_map_of_mem hd)).2
    · rintro e s'' ⟨rfl, he, -⟩
      rcases he e rfl with rfl | rfl
      · exact hrefused _ (Or.inl rfl)
      · exact hrefused _ (Or.inr rfl)
  · rintro e s' ⟨rfl, -, hrun⟩
    rw [pathNodes_error (hrun e rfl)]
    trivial

/-- An early `return Err`. -/
theorem ends_guard {c : Prop} [Decidable c] {e : Errno} {x : SchemeM β} (hc : c → Q (.error e) s)
    (hx : ¬c → Ends x s (Back Q)) : Ends (do
      if c then
        fail e
      x) s (Back Q) := by
  by_cases h : c
  · rw [if_pos h]
    exact ends_of_error rfl (hc h)
  · rw [if_neg h]
    exact hx h

theorem ends_openDir (h : Inv s.fs l) (hb : l.chain b ≠ []) :
    Ends (openDir path (b, s.fs.nodeAt b) flags uid gid) s (Back fun r s' => s' = s ∧
      ∀ res, r = .ok res → ∃ data, res = .dir (DirResource.new path b data) ∧
        (data = [] ∨ (s.fs.nodeAt b).permission uid gid Node.MODE_READ = true ∧
          data = dirData ((children s.fs (chainOf s.fs b)).map fun c => (c, s.fs.nodeAt c)) [])) := by
  rw [openDir]
  refine ends_guard (fun _ => ⟨rfl, nofun⟩) fun _ => ?_
  split
  · refine ends_guard (fun _ => ⟨rfl, nofun⟩) fun hp => ?_
    have hperm : (s.fs.nodeAt b).permission uid gid Node.MODE_READ = true := by simpa using hp
    refine (ends_onFs_reads (reads_childNodes b)).bind ?_ ?_
    · rintro cs s' ⟨rfl, hrun, -⟩
      have hcs := hrun cs rfl
      rw [childNodes_run (h.object b hb).chain (h.near b) (h.fuel b), ← h.chainOf_eq hb] at hcs
      cases hcs
      refine ends_pure ⟨rfl, fun res hres => ?_⟩
      cases hres
      exact ⟨_, rfl, Or.inr ⟨hperm, rfl⟩⟩
    · rintro e s' ⟨rfl, -⟩
      cases e with
      | errno e => exact ⟨rfl, nofun⟩
      | crash => trivial
  · split
    · refine ends_pure ⟨rfl, fun res hres => ?_⟩
      cases hres
      exact ⟨[], rfl, Or.inl rfl⟩
    · exact ends_fail ⟨rfl, nofun⟩

/-- The access checks pass for a node that grants what is asked, and for no other. -/
theorem ends_checkAccess {n : Node} : Ends (checkAccess n flags uid gid) s (Back fun r s' =>
    s' = s ∧ (r = .ok () → Grants n flags uid gid) ∧
      ∀ e, r = .error e → e = .EACCES ∧ ¬Grants n flags uid gid) := by
  rw [checkAccess]
  refine ends_guard (fun hc => ⟨rfl, nofun, fun e he => ?_⟩) fun hr => ?_
  · cases he
    refine ⟨rfl, fun hg => ?_⟩
    have := hg.read hc.1
    simp [this] at hc
  by_cases hw : (flags &&& O_ACCMODE = O_WRONLY ∨ flags &&& O_ACCMODE = O_RDWR) ∧
      !n.permission uid gid Node.MODE_WRITE
  · rw [if_pos hw]
    refine ends_fail ⟨rfl, nofun, fun e he => ?_⟩
    cases he
    refine ⟨rfl, fun hg => ?_⟩
    have := hg.write hw.1
    simp [this] at hw
  · rw [if_neg hw]
    refine ends_pure ⟨rfl, fun _ => ⟨fun h => ?_, fun h => ?_⟩, nofun⟩
    · by_contra hp
      exact hr ⟨h, by simpa using hp⟩
    · by_contra hp
      exact hw ⟨h, by simpa using hp⟩

theorem ends_openFile (h : Inv s.fs l) (hb : l.chain b ≠ [])
    (hfile : (s.fs.nodeAt b).isDir = false) :
    Ends (openFile path (b, s.fs.nodeAt b) flags uid gid) s (Back fun r s' =>
      (∀ e, r = .error e → s' = s) ∧ ∀ res, r = .ok res →
        res = .file (FileResource.new path b flags) ∧ Grants (s.fs.nodeAt b) flags uid gid ∧
        (s' = s ∨ (s.fs.nodeAt b).permission uid gid Node.MODE_WRITE = true ∧
          s' = s.withFs s'.fs ∧ Outcome s.fs l (.nodeSetLen b 0) none s'.fs l)) := by
  rw [openFile]
  refine ends_guard (fun _ => ⟨fun _ _ => rfl, nofun⟩) fun _ => ?_
  refine ends_seq ends_checkAccess ?_ fun e s' he => ⟨fun _ _ => he.1, nofun⟩
  rintro ⟨⟩ s' ⟨rfl, hgr, -⟩
  have hgr := hgr rfl
  split
  · refine ends_guard (fun _ => ⟨fun _ _ => rfl, nofun⟩) fun hp => ?_
    have hperm : (s'.fs.nodeAt b).permission uid gid Node.MODE_WRITE = true := by simpa using hp
    obtain ⟨fs₁, hok, hinv, hrw, hes⟩ := h.nodeSetLen_spec 0 hb hfile
    have hrun : onFs (nodeSetLen b 0) s' = .ok () (s'.withFs fs₁) := by
      rw [onFs, hok]
      rfl
    have hends : Ends (onFs (nodeSetLen b 0)) s' (Back fun r s'' => r = .ok () ∧ s'' = s'.withFs fs₁) :=
      ends_of_ok hrun ⟨rfl, rfl⟩
    refine ends_seq hends ?_ fun e s'' he => nomatch he.1
    rintro ⟨⟩ s'' ⟨-, rfl⟩
    refine ends_pure ⟨fun e he => (nomatch he), fun res hres => ?_⟩
    cases hres
    exact ⟨rfl, hgr, Or.inr ⟨hperm, rfl, .cut hinv hrw hes⟩⟩
  · refine ends_pure ⟨fun e he => (nomatch he), fun res hres => ?_⟩
    cases hres
    exact ⟨rfl, hgr, Or.inl rfl⟩

end FileScheme

theorem madeMode_lt (flags : Nat) : madeMode flags < 2 ^ 16 := by
  rw [madeMode]
  apply Nat.or_lt_two_pow
  · split
    · decide
    · decide
  · exact Nat.lt_of_le_of_lt Nat.and_le_right (by decide)

theorem withPerm_self (h : mode < 2 ^ 16) : withPerm mode mode = mode := by
  have hall : Node.MODE_TYPE ||| Node.MODE_PERM = 2 ^ 16 - 1 := by decide
  rw [withPerm, ← Nat.and_or_distrib_left, hall, Nat.and_two_pow_sub_one_eq_mod, Nat.mod_eq_of_lt h]

/-- How `create_node` ends. -/
theorem Inv.createNode_cases (h : Inv fs l) (name : String) (hd : l.chain d ≠ [])
    (hdir : (fs.nodeAt d).isDir = true) (hm : mode < 2 ^ 16) :
    (∃ e fs₁ l₁, createNode mode name d fs = .error (.errno e) fs₁ ∧ e ≠ .ENOENT ∧
      Outcome fs l (.createNode mode name d) (some e) fs₁ l₁) ∨
    ∃ b fs₁ l₁, createNode mode name d fs = .ok (b, Node.new mode name d) fs₁ ∧
      Spacious fs (l.chain d) ∧ lookup fs name (listing fs (l.chain d)) = none ∧
      Created fs l d b (Node.new mode name d) fs₁ l₁ := by
  cases hlook : lookup fs name (listing fs (l.chain d)) with
  | some b =>
    left
    exact ⟨_, _, _, h.createNode_exists hd hdir hlook, nofun, .refused _⟩
  | none =>
    have hrun := h.createNode_absent mode hd hdir hlook
    rcases h.makeNode_cases name hd hdir hm with ⟨-, herr⟩ | ⟨hc, fs₁, herr, hinv, ha⟩ |
      ⟨hspace, b, fs₁, l', hok, hcreated⟩
    · exact Or.inl ⟨_, _, _, hrun.trans herr, nofun, .refused _⟩
    · exact Or.inl ⟨_, _, _, hrun.trans herr, nofun, .unnamed hlook hc hinv ha⟩
    · exact Or.inr ⟨b, fs₁, l', hrun.trans hok, hspace, rfl, hcreated⟩

theorem Outcome.setAttr_layout {perm : Nat} (h : Outcome fs l (.setAttr b perm uid gid) none fs' l') :
    l' = l := by
  cases h with
  | attr => rfl

/-- What is written over a created node sets its owner. -/
theorem Created.made {n : Node} {fs₁ : FileSystem} (h : Created fs l d b n fs₁ l')
    (hm : n.mode < 2 ^ 16) (hu : uid < 2 ^ 32) (hg : gid < 2 ^ 32) :
    Outcome fs₁ l' (.setAttr b n.mode uid gid) none
        (fs₁.writeNodeAt b { n with uid := uid, gid := gid }) l' ∧
      (fs₁.writeNodeAt b { n with uid := uid, gid := gid }).nodeAt b =
        { n with uid := uid, gid := gid } := by
  have hne : l'.chain b ≠ [] := by simp [h.self]
  have hset : (fs₁.nodeAt b).setAttr n.mode uid gid = { n with uid := uid, gid := gid } := by
    rw [h.node, Node.setAttr, withPerm_self hm]
  have hrun : (Op.setAttr b n.mode uid gid).run fs₁ =
      .ok () (fs₁.writeNodeAt b { n with uid := uid, gid := gid }) := by
    rw [← hset]
    exact Op.setAttr_run h.within
  obtain ⟨l'', hout⟩ := h.inv.outcome_setAttr hne hu hg (.ok hrun)
  rw [hout.setAttr_layout] at hout
  refine ⟨hout, ?_⟩
  generalize fs₁.writeNodeAt b _ = fs₂ at hout ⊢
  cases hout with
  | attr _ _ _ hn => rw [hn, hset]

theorem FileScheme.ends_openCreate {ds : List Nat} (h : Inv s.fs l)
    (hds : ∀ d ∈ ds, l.chain d ≠ [] ∧ (s.fs.nodeAt d).isDir = true) (hu : uid < 2 ^ 32)
    (hg : gid < 2 ^ 32) :
    Ends (openCreate path (ds.map fun b => (b, s.fs.nodeAt b)) flags uid gid) s (Back fun r s' =>
      (s' = s ∧ ∃ e, r = .error e ∧ e ≠ .ENOENT) ∨
      ∃ d l', ds.getLast? = some d ∧ (s.fs.nodeAt d).permission uid gid Node.MODE_WRITE = true ∧
        s' = s.withFs s'.fs ∧ ((∃ e, r = .error e ∧ e ≠ .ENOENT ∧
          Outcome s.fs l (.createNode (madeMode flags) (lastPart path) d) (some e) s'.fs l') ∨
        Spacious s.fs (l.chain d) ∧ ∃ b, Made s.fs l path flags uid gid d b s'.fs l' ∧
          (r = .error .EACCES ∧ ¬Grants (s'.fs.nodeAt b) flags uid gid ∨
            r = .ok (madeResource path b flags) ∧ Grants (s'.fs.nodeAt b) flags uid gid))) := by
  rw [openCreate]
  refine ends_guard (fun _ => Or.inl ⟨rfl, _, rfl, nofun⟩) fun _ => ?_
  cases hlast : ds.getLast? with
  | none =>
    rw [List.getLast?_map, hlast]
    exact ends_fail (Or.inl ⟨rfl, _, rfl, nofun⟩)
  | some d =>
  obtain ⟨hd, hdir⟩ := hds d (List.mem_of_getLast? hlast)
  rw [List.getLast?_map, hlast]
  refine ends_guard (fun _ => Or.inl ⟨rfl, _, rfl, nofun⟩) fun hwrite => ?_
  have hwrite : (s.fs.nodeAt d).permission uid gid Node.MODE_WRITE = true := by simpa using hwrite
  have hm := madeMode_lt flags
  have hmode : ((if flags &&& O_DIRECTORY = O_DIRECTORY then Node.MODE_DIR else Node.MODE_FILE) |||
    (flags % 2 ^ 16 &&& Node.MODE_PERM)) = madeMode flags := rfl
  dsimp only
  rw [hmode]
  rcases h.createNode_cases (lastPart path) hd hdir hm with ⟨e, fs₁, l₁, herr, hne, hout⟩ |
    ⟨b, fs₁, l₁, hok, hspace, hlook, hc⟩
  · have hrun : onFs (createNode (madeMode flags) (lastPart path) d) s =
        .error (.errno e) (s.withFs fs₁) := by
      rw [onFs, herr]
      rfl
    have hends : Ends (onFs (createNode (madeMode flags) (lastPart path) d)) s
        (Back fun r s' => r = .error e ∧ s' = s.withFs fs₁) := ends_of_error hrun ⟨rfl, rfl⟩
    refine ends_seq hends (fun a s' ha => nomatch ha.1) fun e' s' he => ?_
    obtain ⟨he, rfl⟩ := he
    cases he
    exact Or.inr ⟨d, l₁, rfl, hwrite, rfl, Or.inl ⟨e, rfl, hne, hout⟩⟩
  · obtain ⟨hattr, hnode⟩ := hc.made hm hu hg
    have hrun : onFs (createNode (madeMode flags) (lastPart path) d) s =
        .ok (b, Node.new (madeMode flags) (lastPart path) d) (s.withFs fs₁) := by
      rw [onFs, hok]
      rfl
    have hends : Ends (onFs (createNode (madeMode flags) (lastPart path) d)) s (Back fun r s' =>
        r = .ok (b, Node.new (madeMode flags) (lastPart path) d) ∧ s' = s.withFs fs₁) :=
      ends_of_ok hrun ⟨rfl, rfl⟩
    refine ends_seq hends ?_ fun e s' he => nomatch he.1
    rintro a s' ⟨ha, rfl⟩
    cases ha
    have hmade : Made s.fs l path flags uid gid d b (fs₁.writeNodeAt b
        { Node.new (madeMode flags) (lastPart path) d with uid := uid, gid := gid }) l₁ :=
      ⟨hlook, ⟨fs₁, hc, hattr⟩, hnode⟩
    have hends : Ends (onFs (writeAt b ({ Node.new (madeMode flags) (lastPart path) d with
        uid := uid, gid := gid } : Node).encode)) (s.withFs fs₁) (Back fun r s' =>
        (∀ e, r ≠ .error e) ∧ s' = s.withFs (fs₁.writeNodeAt b
          { Node.new (madeMode flags) (lastPart path) d with uid := uid, gid := gid })) :=
      ends_of_ok (onFs_ok (writeAt_node hc.within _)) ⟨nofun, rfl⟩
    refine ends_seq hends ?_ fun e s' he => (he.1 e rfl).elim
    rintro a s' ⟨-, rfl⟩
    generalize fs₁.writeNodeAt b _ = fs₂ at hmade ⊢
    refine ends_seq ends_checkAccess ?_ ?_
    · rintro ⟨⟩ s'' ⟨rfl, hgr, -⟩
      have hgr := hgr rfl
      rw [← hmade.node] at hgr
      split
      · rename_i hdirf
        refine ends_pure (Or.inr ⟨d, l₁, rfl, hwrite, rfl, Or.inr ⟨hspace, b, hmade, Or.inr ⟨?_, hgr⟩⟩⟩)
        rw [madeResource, if_pos hdirf]
      · rename_i hdirf
        refine ends_pure (Or.inr ⟨d, l₁, rfl, hwrite, rfl, Or.inr ⟨hspace, b, hmade, Or.inr ⟨?_, hgr⟩⟩⟩)
        rw [madeResource, if_neg hdirf]
    · rintro e s'' ⟨rfl, -, hno⟩
      obtain ⟨rfl, hdenied⟩ := hno e rfl
      rw [← hmade.node] at hdenied
      exact Or.inr ⟨d, l₁, rfl, hwrite, rfl, Or.inr ⟨hspace, b, hmade, Or.inl ⟨rfl, hdenied⟩⟩⟩

theorem Walked.reach {ds : List Nat} {o : Option Nat} (h : Walked fs uid gid path ds o)
    (hinv : Inv fs l) : (∀ d ∈ ds, Reach fs d) ∧ ∀ b, o = some b → Reach fs b := by
  have hdirs : ∀ d ∈ (follow fs 1 (partsOf path)).1, (fs.nodeAt d).isDir = true := by
    rw [h.leads]
    exact h.dirs
  have hf := follow_reach hinv.reach_root hdirs
  rw [h.leads] at hf
  exact hf

/-- The reply of a request is made from the result of its method. -/
theorem ends_reply {β : Type} {x : SchemeM α} {f : α → β} {Q : Except Errno β → FileScheme → Prop}
    (h : Ends x s (Back fun r s' => Q (r.map f) s')) : Ends (do return f (← x)) s (Back Q) :=
  FileScheme.ends_seq h (fun _ _ ha => ends_pure ha) fun _ _ he => he

namespace FileScheme

/-- `open` after its path is looked up and checked. -/
def openNode (path : String) (flags uid gid : Nat) (nodes : List (Nat × Node))
    (res : Except Errno (Nat × Node)) : SchemeM Nat := do
  let resource ← match res with
    | .ok n =>
      if flags &&& (O_CREAT ||| O_EXCL) = O_CREAT ||| O_EXCL then
        fail .EEXIST
      else if n.2.isDir then
        openDir path n flags uid gid
      else
        openFile path n flags uid gid
    | .error err =>
      if err = .ENOENT ∧ flags &&& O_CREAT = O_CREAT then
        openCreate path nodes flags uid gid
      else
        fail err
  addFile resource

theorem openUrl_eq (url : List UInt8) (flags uid gid : Nat) : openUrl url flags uid gid = (do
    let x ← onFs (pathNodes (urlPath url))
    checkPath uid gid x.1
    openNode (urlPath url) flags uid gid x.1 x.2) := rfl

/-- `chmod` after its path is looked up and checked. -/
def setMode (mode uid : Nat) : Except Errno (Nat × Node) → SchemeM Nat
  | .ok n =>
    if n.2.uid = uid ∨ uid = 0 then do
      let _ ← onFs (writeAt n.1 ({ n.2 with
        mode := (n.2.mode &&& Node.MODE_TYPE) ||| (mode &&& Node.MODE_PERM) } : Node).encode)
      return 0
    else
      fail .EPERM
  | .error e => fail e

theorem chmod_eq (url : List UInt8) (mode uid gid : Nat) : chmod url mode uid gid = (do
    let x ← onFs (pathNodes (urlPath url))
    checkPath uid gid x.1
    setMode mode uid x.2) := by
  unfold chmod
  congr 1
  funext x
  obtain ⟨ns, res⟩ := x
  cases res with
  | ok n => rfl
  | error e => rfl

end FileScheme

namespace Inv

theorem ends_openUrl {url : List UInt8} (h : Inv s.fs l) (hu : uid < 2 ^ 32) (hg : gid < 2 ^ 32) :
    Ends (Request.openUrl url flags uid gid).run s
      (Back fun r s' => ∃ l', Answer s l (.openUrl url flags uid gid) r s' l') := by
  apply ends_reply
  rw [FileScheme.openUrl_eq]
  refine FileScheme.ends_walked h (fun e _ => ⟨l, .refused e⟩) fun ds o hw => ?_
  unfold FileScheme.openNode
  obtain ⟨hreach, hend⟩ := hw.reach h
  cases o with
  | some b =>
    have hb := h.reach (hend b rfl)
    simp only [found]
    by_cases hx : flags &&& (O_CREAT ||| O_EXCL) = O_CREAT ||| O_EXCL
    · rw [if_pos hx]
      exact ends_of_error rfl ⟨l, .refused _⟩
    rw [if_neg hx]
    by_cases hdir : (s.fs.nodeAt b).isDir = true
    · rw [if_pos hdir]
      refine FileScheme.ends_seq (FileScheme.ends_openDir h hb) ?_ ?_
      · rintro res s' ⟨rfl, hres⟩
        obtain ⟨data, rfl, hdata⟩ := hres res rfl
        exact FileScheme.ends_addFile ⟨l, .openedDir hw hdir hdata⟩
      · rintro e s' ⟨rfl, -⟩
        exact ⟨l, .refused e⟩
    · rw [if_neg hdir]
      have hfile : (s.fs.nodeAt b).isDir = false := by simpa using hdir
      refine FileScheme.ends_seq (FileScheme.ends_openFile h hb hfile) ?_ ?_
      · rintro res s' ⟨-, hres⟩
        obtain ⟨rfl, hgr, rfl | ⟨hperm, hs, hout⟩⟩ := hres res rfl
        · exact FileScheme.ends_addFile ⟨l, .openedFile hw hfile hgr⟩
        · rw [hs]
          exact FileScheme.ends_addFile ⟨l, .truncated hw hfile hgr hperm hout⟩
      · rintro e s' ⟨hs, -⟩
        rw [hs e rfl]
        exact ⟨l, .refused e⟩
  | none =>
    simp only [found, true_and]
    by_cases hc : flags &&& O_CREAT = O_CREAT
    · rw [if_pos hc]
      have hds : ∀ d ∈ ds, l.chain d ≠ [] ∧ (s.fs.nodeAt d).isDir = true :=
        fun d hd => ⟨h.reach (hreach d hd), hw.dirs d hd⟩
      refine FileScheme.ends_seq (FileScheme.ends_openCreate h hds hu hg) ?_ ?_
      · rintro res s' (⟨-, e, he, -⟩ | ⟨d, l', hd, -, hs, ⟨e, he, -⟩ |
          ⟨-, b, hm, ⟨he, -⟩ | ⟨hres, hgr⟩⟩⟩)
        · cases he
        · cases he
        · cases he
        · cases hres
          rw [hs]
          exact FileScheme.ends_addFile ⟨l', .made hw hd hm hgr⟩
      · rintro e s' (⟨rfl, -⟩ | ⟨d, l', hd, -, hs, ⟨e', he, -, hout⟩ |
          ⟨-, b, hm, ⟨he, hgr⟩ | ⟨hres, -⟩⟩⟩)
        · exact ⟨l, .refused e⟩
        · cases he
          rw [hs]
          exact ⟨l', .unmade hw hd hout⟩
        · cases he
          rw [hs]
          exact ⟨l', .madeOnly hw hd hm hgr⟩
        · cases hres
    · rw [if_neg hc]
      exact ends_of_error rfl ⟨l, .refused _⟩

theorem ends_chmod {url : List UInt8} (h : Inv s.fs l) :
    Ends (Request.chmod url mode uid gid).run s
      (Back fun r s' => ∃ l', Answer s l (.chmod url mode uid gid) r s' l') := by
  apply ends_reply
  rw [FileScheme.chmod_eq]
  refine FileScheme.ends_walked (g := fun _ => FileScheme.setMode mode uid) h
    (fun e _ => ⟨l, .refused e⟩) fun ds o hw => ?_
  cases o with
  | none => exact ends_of_error rfl ⟨l, .refused _⟩
  | some b =>
    have hb := h.reach ((hw.reach h).2 b rfl)
    have hvalid := nodeAt_valid s.fs b
    simp only [found, FileScheme.setMode]
    by_cases howner : (s.fs.nodeAt b).uid = uid ∨ uid = 0
    · rw [if_pos howner]
      have hrun : (Op.setAttr b mode (s.fs.nodeAt b).uid (s.fs.nodeAt b).gid).run s.fs =
          .ok () (s.fs.writeNodeAt b { s.fs.nodeAt b with
            mode := ((s.fs.nodeAt b).mode &&& Node.MODE_TYPE) ||| (mode &&& Node.MODE_PERM) }) :=
        Op.setAttr_run (h.within_head hb)
      obtain ⟨l', hout⟩ := h.outcome_setAttr hb hvalid.uid hvalid.gid (.ok hrun)
      rw [hout.setAttr_layout] at hout
      have hends : Ends (FileScheme.onFs (writeAt b ({ s.fs.nodeAt b with
          mode := ((s.fs.nodeAt b).mode &&& Node.MODE_TYPE) ||| (mode &&& Node.MODE_PERM) } : Node).encode))
          s (Back fun r s' => (∀ e, r ≠ .error e) ∧ s' = s.withFs (s.fs.writeNodeAt b { s.fs.nodeAt b with
            mode := ((s.fs.nodeAt b).mode &&& Node.MODE_TYPE) ||| (mode &&& Node.MODE_PERM) })) :=
        ends_of_ok (FileScheme.onFs_ok (writeAt_node (h.within_head hb) _)) ⟨fun _ he => (by cases he), rfl⟩
      refine FileScheme.ends_seq hends ?_ fun e s' he => (he.1 e rfl).elim
      rintro a s' ⟨-, rfl⟩
      exact ends_of_ok rfl ⟨l, .modeSet hw howner hout⟩
    · rw [if_neg howner]
      exact ends_of_error rfl ⟨l, .refused _⟩

/-- What `remove_node` can do when `unlink` and `rmdir` call it. -/
theorem ends_removeNode (h : Inv s.fs l) (hd : Reach s.fs d) (hdir : (s.fs.nodeAt d).isDir = true)
    (hsafe : Safe s.fs (.removeNode mode name d)) :
    Ends (FileScheme.onFs (removeNode mode name d)) s (Back fun r s' => s' = s.withFs s'.fs ∧
      ∃ l', Outcome s.fs l (.removeNode mode name d)
        (match r with
          | .ok _ => none
          | .error e => some e) s'.fs l') := by
  cases hrun : removeNode mode name d s.fs with
  | ok a fs₁ =>
    have hon : FileScheme.onFs (removeNode mode name d) s = .ok a (s.withFs fs₁) := by
      rw [FileScheme.onFs, hrun]
      rfl
    exact ends_of_ok hon ⟨rfl, h.outcome_removeNode hd hdir hsafe (.ok hrun)⟩
  | error e fs₁ =>
    have hon : FileScheme.onFs (removeNode mode name d) s = .error e (s.withFs fs₁) := by
      rw [FileScheme.onFs, hrun]
      rfl
    cases e with
    | errno e => exact ends_of_error hon ⟨rfl, h.outcome_removeNode hd hdir hsafe (.error hrun)⟩
    | crash => exact ends_of_error hon trivial

theorem ends_removeUrl {url : List UInt8} {wantDir : Bool} {wrong : Errno} {req : Request}
    (h : Inv s.fs l)
    (hreq : req = .rmdir url uid gid ∧ mode = Node.MODE_DIR ∨
      req = .unlink url uid gid ∧ mode = Node.MODE_FILE)
    (hsafe : ∀ ds b d name, follow s.fs 1 (partsOf (FileScheme.urlPath url)) = (ds, some b) →
      ds.getLast? = some d → (s.fs.nodeAt b).nameStr = some name →
      Safe s.fs (.removeNode mode name d)) :
    Ends (FileScheme.removeUrl wantDir mode wrong url uid gid) s
      (Back fun r s' => ∃ l', Answer s l req (r.map Reply.num) s' l') := by
  have hno : ∀ e, ∃ l', Answer s l req (Except.map Reply.num (.error e)) s l' :=
    fun e => ⟨l, .refused e⟩
  rw [FileScheme.removeUrl]
  refine (FileScheme.ends_onFs_reads (reads_pathNodes _)).bind ?_ ?_
  · rintro ⟨ns, res⟩ s' ⟨rfl, hrun, -⟩
    cases res with
    | error e => exact ends_of_error rfl (hno e)
    | ok child =>
    refine (FileScheme.ends_checkPath uid gid ns).bind ?_ ?_
    · rintro ⟨⟩ s'' ⟨rfl, -, hall⟩
      have hall := hall rfl
      obtain ⟨hns, hres⟩ := h.pathNodes_spec (hrun _ rfl) fun n hn => (hall n hn).1
      cases hf : follow s''.fs 1 (partsOf (FileScheme.urlPath url)) with
      | mk ds o =>
      rw [hf] at hns hres
      cases o with
      | none => cases hres
      | some b =>
      obtain rfl : child = (b, s''.fs.nodeAt b) := Except.ok.inj hres
      have hw : Walked s''.fs uid gid (FileScheme.urlPath url) ds (some b) := by
        refine ⟨hf, fun d hd => ?_, fun d hd => ?_⟩
        · exact (hall (d, _) (hns ▸ List.mem_map_of_mem hd)).1
        · exact (hall (d, _) (hns ▸ List.mem_map_of_mem hd)).2
      rw [hns, List.getLast?_map]
      cases hlast : ds.getLast? with
      | none => exact ends_of_error rfl (hno _)
      | some d =>
      have hdm := List.mem_of_getLast? hlast
      refine FileScheme.ends_guard (fun _ => hno _) fun hdw => ?_
      have hdw : (s''.fs.nodeAt d).permission uid gid Node.MODE_WRITE = true := by simpa using hdw
      dsimp only
      split
      · refine FileScheme.ends_guard (fun _ => hno _) fun hbw => ?_
        have hbw : (s''.fs.nodeAt b).permission uid gid Node.MODE_WRITE = true := by simpa using hbw
        cases hname : (s''.fs.nodeAt b).nameStr with
        | none => exact ends_of_error rfl (hno _)
        | some name =>
          refine FileScheme.ends_seq (h.ends_removeNode ((hw.reach h).1 d hdm) (hw.dirs d hdm)
            (hsafe ds b d name hf hlast hname)) ?_ ?_
          · rintro ⟨⟩ t ⟨ht, l', hout⟩
            rw [ht]
            exact ends_pure ⟨l', .removed hreq hw hlast hname hdw hbw hout⟩
          · rintro e t ⟨ht, l', hout⟩
            rw [ht]
            exact ⟨l', .unremoved hreq hw hlast hname hdw hbw hout⟩
      · exact ends_of_error rfl (hno _)
    · rintro e s'' ⟨rfl, he, -⟩
      rcases he e rfl with rfl | rfl
      · exact hno _
      · exact hno _
  · rintro e s' ⟨rfl, -⟩
    cases e with
    | errno e => exact hno e
    | crash => trivial

end Inv

namespace FileScheme

variable {β : Type} {Q : Except Errno β → FileScheme → Prop} {id : Nat}

theorem file_run {r : Resource} (hr : s.files id = some r) : file id s = .ok r s := by
  unfold file
  rw [bind_of_ok (show (get : SchemeM FileScheme) s = .ok s s from rfl)]
  simp only [hr]
  rfl

theorem file_none (hr : s.files id = none) : file id s = .error (.errno .EBADF) s := by
  unfold file
  rw [bind_of_ok (show (get : SchemeM FileScheme) s = .ok s s from rfl)]
  simp only [hr]
  rfl

/-- A request on a handle is refused unless a resource is behind it. -/
theorem ends_file {f : Resource → SchemeM β} (hno : Q (.error .EBADF) s)
    (hf : ∀ r, s.files id = some r → Ends (f r) s (Back Q)) : Ends (file id >>= f) s (Back Q) := by
  cases hr : s.files id with
  | none =>
    refine (ends_of_error (Q := fun r s' => r = .error (.errno .EBADF) ∧ s' = s) (file_none hr)
      ⟨rfl, rfl⟩).bind (fun a s' ha => nomatch ha.1) ?_
    rintro e s' ⟨he, rfl⟩
    cases he
    exact hno
  | some r =>
    refine (ends_of_ok (Q := fun a s' => a = .ok r ∧ s' = s) (file_run hr) ⟨rfl, rfl⟩).bind ?_
      fun e s' he => nomatch he.1
    rintro a s' ⟨ha, rfl⟩
    cases ha
    exact hf r hr

/-- A step on the file system whose outcome is known. -/
theorem ends_onFs_ok {x : FsM α} {f : α → SchemeM β} {a : α} (h : x s.fs = .ok a fs')
    (hf : Ends (f a) (s.withFs fs') (Back Q)) : Ends (onFs x >>= f) s (Back Q) := by
  refine (ends_of_ok (Q := fun b s' => b = .ok a ∧ s' = s.withFs fs') (onFs_ok h) ⟨rfl, rfl⟩).bind ?_
    fun e s' he => nomatch he.1
  rintro b s' ⟨hb, rfl⟩
  cases hb
  exact hf

theorem ends_onFs_error {x : FsM α} {f : α → SchemeM β} {e : Fault} (h : x s.fs = .error e fs')
    (hQ : Back Q (.error e) (s.withFs fs')) : Ends (onFs x >>= f) s (Back Q) := by
  refine (ends_of_error (Q := fun b s' => b = .error e ∧ s' = s.withFs fs') (onFs_error h)
    ⟨rfl, rfl⟩).bind (fun a s' ha => nomatch ha.1) ?_
  rintro e' s' ⟨he, rfl⟩
  cases he
  exact hQ

end FileScheme

theorem Resource.dup_eq {r r' : Resource} (h : r.dup buf = .ok r') : r' = r := by
  cases r with
  | dir r =>
    cases h
    rfl
  | file r =>
    rw [Resource.dup, FileResource.dup] at h
    split at h
    · cases h
    · cases h
      rfl

section Handles

variable {id : Nat}

theorem ends_dup : Ends (Request.dup id buf).run s
    (Back fun r s' => ∃ l', Answer s l (.dup id buf) r s' l') := by
  apply ends_reply
  rw [FileScheme.dup]
  refine FileScheme.ends_file ⟨l, .refused _⟩ fun r hr => ?_
  cases hd : r.dup buf with
  | error e => exact ends_of_error rfl ⟨l, .refused e⟩
  | ok r' =>
    rw [Resource.dup_eq hd]
    exact FileScheme.ends_addFile ⟨l, .duped hr⟩

theorem ends_close : Ends (Request.close id).run s
    (Back fun r s' => ∃ l', Answer s l (.close id) r s' l') := by
  apply ends_reply
  rw [FileScheme.close]
  refine FileScheme.ends_file ⟨l, .refused _⟩ fun r hr => ?_
  exact ends_of_ok rfl ⟨l, .closed hr⟩

theorem ends_fsync : Ends (Request.fsync id).run s
    (Back fun r s' => ∃ l', Answer s l (.fsync id) r s' l') := by
  apply ends_reply
  rw [FileScheme.fsync]
  refine FileScheme.ends_file ⟨l, .refused _⟩ fun r hr => ?_
  cases r with
  | dir r => exact ends_of_error rfl ⟨l, .refused _⟩
  | file r => exact ends_of_ok rfl ⟨l, .told (Or.inr (Or.inr ⟨id, rfl⟩))⟩

theorem ends_fpath : Ends (Request.fpath id buf).run s
    (Back fun r s' => ∃ l', Answer s l (.fpath id buf) r s' l') := by
  rw [Request.run, FileScheme.fpath]
  refine FileScheme.ends_seq (P := fun r s' => s' = s) ?_ ?_ ?_
  · exact FileScheme.ends_file rfl fun r hr => ends_of_ok rfl rfl
  · rintro ⟨out, n⟩ s' rfl
    exact ends_pure ⟨l, .told (Or.inl ⟨id, buf, rfl⟩)⟩
  · rintro e s' rfl
    exact ⟨l, .refused e⟩

theorem ends_fstatvfs : Ends (Request.fstatvfs id).run s
    (Back fun r s' => ∃ l', Answer s l (.fstatvfs id) r s' l') := by
  apply ends_reply
  rw [FileScheme.fstatvfs]
  refine FileScheme.ends_file ⟨l, .refused _⟩ fun r hr => ?_
  change Ends (FileScheme.onFs (nodeLen s.fs.header.2.free) >>= _) s _
  refine (FileScheme.ends_onFs_reads (reads_nodeLen _)).bind ?_ ?_
  · rintro n s' ⟨rfl, -⟩
    exact ends_pure ⟨l, .told (Or.inr (Or.inl ⟨id, rfl⟩))⟩
  · rintro e s' ⟨rfl, -⟩
    cases e with
    | errno e => exact ⟨l, .refused e⟩
    | crash => trivial

theorem ends_fcntl {cmd arg : Nat} : Ends (Request.fcntl id cmd arg).run s
    (Back fun r s' => ∃ l', Answer s l (.fcntl id cmd arg) r s' l') := by
  apply ends_reply
  rw [FileScheme.fcntl]
  refine FileScheme.ends_file ⟨l, .refused _⟩ fun r hr => ?_
  cases r with
  | dir r => exact ends_of_error rfl ⟨l, .refused _⟩
  | file r =>
    rw [Resource.fcntl]
    cases hf : r.fcntl cmd arg with
    | error e => exact ends_of_error rfl ⟨l, .refused e⟩
    | ok p =>
      obtain ⟨r', n⟩ := p
      exact ends_of_ok rfl ⟨l, .flagged hr hf⟩

end Handles

namespace Inv

variable {id : Nat}

theorem ends_fstat (h : Inv s.fs l) (hh : Handled s l) : Ends (Request.fstat id).run s
    (Back fun r s' => ∃ l', Answer s l (.fstat id) r s' l') := by
  apply ends_reply
  rw [FileScheme.fstat]
  refine FileScheme.ends_file ⟨l, .refused _⟩ fun r hr => ?_
  have hrun : r.stat s.fs = .ok ⟨(s.fs.nodeAt r.block).mode, (s.fs.nodeAt r.block).uid,
      (s.fs.nodeAt r.block).gid, (contentOf s.fs r.block).length⟩ s.fs := by
    rw [Resource.stat, statBlock, bind_ok (node_run (h.within_head (hh id r hr).1)), bind_ok (h.nodeLen_eq (hh id r hr).1)]
    rfl
  exact ends_of_ok (FileScheme.onFs_ok hrun) ⟨l, .stat hr⟩

/-- A seek moves a resource to the target in its bytes. -/
theorem lseek_run {r : Resource} (h : Inv s.fs l) (hr : l.chain r.block ≠ []) (offset whence : Nat) :
    r.lseek offset whence s.fs =
      match seekTarget (s.bytes r).length r.pos offset whence with
      | .ok target => .ok (r.setSeek target, target) s.fs
      | .error e => .error (.errno e) s.fs := by
  cases r with
  | dir r =>
    have hseek : r.lseek offset whence = (seekTarget r.data.length r.seek offset whence).map
        fun target => ({ r with seek := target }, target) := rfl
    rw [Resource.lseek, hseek, FileScheme.bytes, Resource.pos]
    cases seekTarget r.data.length r.seek offset whence with
    | ok target => rfl
    | error e => rfl
  | file r =>
    rw [FileScheme.bytes, Resource.pos]
    have hseek : r.lseek offset whence s.fs =
        (match seekTarget (contentOf s.fs r.block).length r.seek offset whence with
        | .ok target => .ok ({ r with seek := target }, target) s.fs
        | .error e => .error (.errno e) s.fs) := by
      rw [FileResource.lseek]
      refine (bind_ok (h.nodeLen_eq hr)).trans ?_
      dsimp only [Resource.block]
      cases seekTarget (contentOf s.fs r.block).length r.seek offset whence with
      | ok target => rfl
      | error e => rfl
    cases ht : seekTarget (contentOf s.fs r.block).length r.seek offset whence with
    | error e =>
      rw [ht] at hseek
      exact bind_error hseek
    | ok target =>
      rw [ht] at hseek
      exact bind_ok hseek

theorem ends_lseek {pos whence : Nat} (h : Inv s.fs l) (hh : Handled s l) :
    Ends (Request.lseek id pos whence).run s
      (Back fun r s' => ∃ l', Answer s l (.lseek id pos whence) r s' l') := by
  apply ends_reply
  rw [FileScheme.lseek]
  refine FileScheme.ends_file ⟨l, .refused _⟩ fun r hr => ?_
  have hrun := h.lseek_run (hh id r hr).1 pos whence
  cases ht : seekTarget (s.bytes r).length r.pos pos whence with
  | error e =>
    rw [ht] at hrun
    exact FileScheme.ends_onFs_error hrun ⟨l, .refused e⟩
  | ok target =>
    rw [ht] at hrun
    exact FileScheme.ends_onFs_ok hrun (ends_of_ok rfl ⟨l, .sought hr⟩)

theorem ends_read (h : Inv s.fs l) (hh : Handled s l) : Ends (Request.read id buf).run s
    (Back fun r s' => ∃ l', Answer s l (.read id buf) r s' l') := by
  rw [Request.run, FileScheme.read, bind_assoc]
  refine FileScheme.ends_file ⟨l, .refused _⟩ fun r hr => ?_
  rw [bind_assoc]
  cases r with
  | dir r =>
    have hrun : (Resource.dir r).read buf s.fs = .ok (.dir (r.read buf).1, (r.read buf).2) s.fs := rfl
    exact FileScheme.ends_onFs_ok hrun (ends_of_ok rfl ⟨l, .readDir hr⟩)
  | file r =>
    by_cases hc : r.canRead = true
    · rcases h.readNode_own (hh id _ hr).1 r.seek buf with hcrash | ⟨cells, hcells, -, hok⟩
      · have hrun : r.read buf s.fs = .error .crash s.fs := by
          rw [FileResource.read, if_pos hc]
          exact bind_error hcrash
        exact FileScheme.ends_onFs_error (bind_error hrun) trivial
      · have hrun : r.read buf s.fs = .ok ({ r with seek := r.seek + cells.length },
            overlay buf 0 (cells.map s.fs.disk.bytes), cells.length) s.fs := by
          rw [FileResource.read, if_pos hc]
          exact bind_ok hok
        exact FileScheme.ends_onFs_ok (bind_ok hrun) (ends_of_ok rfl ⟨l, .readFile hr hc hcells⟩)
    · have hrun : r.read buf s.fs = .error (.errno .EBADF) s.fs := by
        rw [FileResource.read, if_neg hc]
        rfl
      exact FileScheme.ends_onFs_error (bind_error hrun) ⟨l, .refused _⟩

theorem ends_write (h : Inv s.fs l) (hh : Handled s l) (hsafe : SafeRequest s (.write id buf)) :
    Ends (Request.write id buf).run s
      (Back fun r s' => ∃ l', Answer s l (.write id buf) r s' l') := by
  apply ends_reply
  rw [FileScheme.write]
  refine FileScheme.ends_file ⟨l, .refused _⟩ fun r hr => ?_
  cases r with
  | dir r =>
    have hrun : (Resource.dir r).write buf s.fs = .error (.errno .EBADF) s.fs := rfl
    exact FileScheme.ends_onFs_error hrun ⟨l, .refused _⟩
  | file r =>
    by_cases hc : r.canWrite = true
    · obtain ⟨hne, hfile⟩ := hh id _ hr
      have hs := hsafe r hr
      have hchain : chainOf s.fs r.block = l.chain r.block := h.chainOf_eq hne
      rw [Safe, hchain] at hs
      cases hw : writeNode r.block r.seek buf s.fs with
      | ok n fs₁ =>
        obtain ⟨l', hout⟩ := h.outcome_writeNode hne hfile hs (.ok (bind_ok hw))
        have hrun : r.write buf s.fs = .ok ({ r with seek := r.seek + n }, n) fs₁ := by
          rw [FileResource.write, if_pos hc]
          exact bind_ok hw
        exact FileScheme.ends_onFs_ok (bind_ok hrun) (ends_of_ok rfl ⟨l', .wrote hr hc hout⟩)
      | error e fs₁ =>
        have hrun : r.write buf s.fs = .error e fs₁ := by
          rw [FileResource.write, if_pos hc]
          exact bind_error hw
        refine FileScheme.ends_onFs_error (bind_error hrun) ?_
        cases e with
        | errno e =>
          obtain ⟨l', hout⟩ := h.outcome_writeNode hne hfile hs (.error (bind_error hw))
          exact ⟨l', .unwritten hr hc hout⟩
        | crash => trivial
    · have hrun : r.write buf s.fs = .error (.errno .EBADF) s.fs := by
        rw [FileResource.write, if_neg hc]
        rfl
      exact FileScheme.ends_onFs_error (bind_error hrun) ⟨l, .refused _⟩

theorem ends_ftruncate {len : Nat} (h : Inv s.fs l) (hh : Handled s l) :
    Ends (Request.ftruncate id len).run s
      (Back fun r s' => ∃ l', Answer s l (.ftruncate id len) r s' l') := by
  apply ends_reply
  rw [FileScheme.ftruncate]
  refine FileScheme.ends_file ⟨l, .refused _⟩ fun r hr => ?_
  cases r with
  | dir r => exact ends_of_error rfl ⟨l, .refused _⟩
  | file r =>
    by_cases hc : r.canWrite = true
    · obtain ⟨hne, hfile⟩ := hh id _ hr
      obtain ⟨fs₁, hok, hinv, hrw, hes⟩ := h.nodeSetLen_spec len hne hfile
      have hrun : r.truncate len s.fs = .ok 0 fs₁ := by
        rw [FileResource.truncate, if_pos hc]
        exact bind_ok hok
      exact ends_of_ok (FileScheme.onFs_ok hrun) ⟨l, .cut hr hc (.cut hinv hrw hes)⟩
    · have hrun : r.truncate len s.fs = .error (.errno .EBADF) s.fs := by
        rw [FileResource.truncate, if_neg hc]
        rfl
      exact ends_of_error (FileScheme.onFs_error hrun) ⟨l, .refused _⟩

/-- A safe request on resources of the right kinds ends in one of these ways. -/
theorem answer {req : Request} {r : Except Errno Reply} (h : Inv s.fs l) (hh : Handled s l)
    (ht : req.Typed) (hs : SafeRequest s req) (ha : Answers req.run s r s') :
    ∃ l', Answer s l req r s' l' := by
  apply ha.of_ends
  cases req with
  | openUrl url flags uid gid => exact h.ends_openUrl ht.1 ht.2
  | chmod url mode uid gid => exact h.ends_chmod
  | rmdir url uid gid => exact ends_reply (h.ends_removeUrl (Or.inl ⟨rfl, rfl⟩) hs)
  | unlink url uid gid => exact ends_reply (h.ends_removeUrl (Or.inr ⟨rfl, rfl⟩) hs)
  | dup id buf => exact ends_dup
  | read id buf => exact h.ends_read hh
  | write id buf => exact h.ends_write hh hs
  | lseek id pos whence => exact h.ends_lseek hh
  | fcntl id cmd arg => exact ends_fcntl
  | fpath id buf => exact ends_fpath
  | fstat id => exact h.ends_fstat hh
  | fstatvfs id => exact ends_fstatvfs
  | fsync id => exact ends_fsync
  | ftruncate id len => exact h.ends_ftruncate hh
  | close id => exact ends_close

end Inv

end Origel.RedoxFs
