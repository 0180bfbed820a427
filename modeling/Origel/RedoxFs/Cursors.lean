import Origel.Kernel.Seeks
import Origel.RedoxFs.Handles
import Origel.RedoxFs.Sectors
import Origel.RedoxFs.Stale

/-! Handles as cursors over the bytes they were opened on. -/
namespace Origel.RedoxFs

open Origel.Lib FileSystem
open Origel.Kernel.Seeks (target clamp)

/-- The calls through a handle that depend on its position or on the bytes under it. -/
inductive HandleCall where
  | read (id : Nat) (buf : List UInt8)
  | write (id : Nat) (buf : List UInt8)
  | lseek (id offset whence : Nat)
  | ftruncate (id len : Nat)
  | dup (id : Nat) (buf : List UInt8)

def HandleCall.request : HandleCall → Request
  | read id buf => .read id buf
  | write id buf => .write id buf
  | lseek id offset whence => .lseek id offset whence
  | ftruncate id len => .ftruncate id len
  | dup id buf => .dup id buf

namespace FileScheme

/-- What a call answers, and the scheme after it. -/
def respond (s : FileScheme) (c : HandleCall) : Except Fault Reply × FileScheme :=
  match c.request.run s with
  | .ok a s' => (.ok a, s')
  | .error e s' => (.error e, s')

end FileScheme

namespace Resource

def readable : Resource → Bool
  | dir _ => true
  | file r => r.canRead

def writable : Resource → Bool
  | dir _ => false
  | file r => r.canWrite

end Resource

/-- Cursors over the bytes of files: what each file holds, and the open resources, whose positions are
the cursors. -/
structure Cursors where
  content : Nat → List UInt8
  files : Nat → Option Resource
  nextId : Nat

namespace Cursors

def bytes (c : Cursors) : Resource → List UInt8
  | .dir r => r.data
  | .file r => c.content r.block

/-- The cursors with one elsewhere. -/
def moved (c : Cursors) (id : Nat) (r : Resource) (pos : Nat) : Cursors :=
  { c with files := Function.update c.files id (some (r.setSeek pos)) }

theorem moved_self (c : Cursors) (id : Nat) (r : Resource) (pos : Nat) :
    (c.moved id r pos).files id = some (r.setSeek pos) := Function.update_self ..

def put (c : Cursors) (block : Nat) (bytes : List UInt8) : Cursors :=
  { c with content := Function.update c.content block bytes }

theorem put_self (c : Cursors) (block : Nat) (bytes : List UInt8) :
    (c.put block bytes).content block = bytes := Function.update_self ..

def refuse (c : Cursors) (e : Errno) : Except Fault Reply × Cursors := (.error (.errno e), c)

/-- A call through a handle, with the resource behind it. -/
def through (c : Cursors) (id : Nat) (f : Resource → Except Fault Reply × Cursors) :
    Except Fault Reply × Cursors :=
  match c.files id with
  | some r => f r
  | none => c.refuse .EBADF

/-- What a call is to answer: reads and writes start at the cursor and move it by what they count, and
a seek moves it to its target. -/
def respond (c : Cursors) : HandleCall → Except Fault Reply × Cursors
  | .read id buf => c.through id fun r =>
    if r.readable then
      let count := min buf.length ((c.bytes r).length - r.pos)
      (.ok (.bytes (overlay buf 0 (((c.bytes r).drop r.pos).take buf.length)) count),
        c.moved id r (r.pos + count))
    else c.refuse .EBADF
  | .write id buf => c.through id fun r =>
    if r.writable then
      let gap := List.replicate (r.pos - (c.bytes r).length) 0
      (.ok (.num buf.length),
        (c.put r.block (overlay (c.bytes r ++ gap) r.pos buf)).moved id r (r.pos + buf.length))
    else c.refuse .EBADF
  | .lseek id offset whence => c.through id fun r =>
    match target (c.bytes r).length r.pos offset whence with
    | some pos => (.ok (.num pos), c.moved id r pos)
    | none => c.refuse .EINVAL
  | .ftruncate id len => c.through id fun r =>
    if r.writable then
      let tail := List.replicate (len - (c.bytes r).length) 0
      (.ok (.num 0), c.put r.block ((c.bytes r).take len ++ tail))
    else c.refuse .EBADF
  | .dup id buf => c.through id fun r =>
    match r.dup buf with
    | .ok r' => (.ok (.num c.nextId),
        { c with nextId := wrap64 (c.nextId + 1), files := Function.update c.files c.nextId (some r') })
    | .error e => c.refuse e

end Cursors

/-- The cursors that a scheme stands for. -/
def FileScheme.cursors (s : FileScheme) : Cursors := ⟨contentOf s.fs, s.files, s.nextId⟩

/-- The answer to a seek as the kernel's schemes give it. -/
def kernelReply : Except Kernel.Seeks.Errno (Kernel.Seeks.Handle × Nat) → Except Fault Reply
  | .ok (_, pos) => .ok (.num pos)
  | .error .EINVAL => .error (.errno .EINVAL)

/-- What the kernel's schemes answer to a seek over the same bytes. -/
def siblings (data : List UInt8) (pos offset whence : Nat) : List (Except Fault Reply) :=
  let h : Kernel.Seeks.Handle := ⟨data, pos⟩
  [kernelReply (Kernel.Seeks.InitFsScheme.seek h offset whence),
    kernelReply (Kernel.Seeks.EnvScheme.seek h offset whence),
    kernelReply (Kernel.Seeks.DiskScheme.seek h offset whence)]

/-- The scheme answers a call as the cursors do, and a seek as the kernel's schemes do. -/
def Agrees (p : FileScheme × Cursors) (c : HandleCall) : Prop :=
  (p.1.respond c).1 = (p.2.respond c).1 ∧
    ∀ id offset whence r, c = .lseek id offset whence → p.2.files id = some r →
      ∀ answer ∈ siblings (p.2.bytes r) r.pos offset whence, answer = (p.1.respond c).1

/-- A write that starts in the file or at its end, finds room, and lets the file grow at its end. -/
structure InPlace (fs : FileSystem) (t offset : Nat) (buf : List UInt8) : Prop where
  tidy : Tidy fs (chainOf fs t)
  inside : offset ≤ (contentOf fs t).length
  fits : offset + buf.length < 2 ^ 64
  safe : missing fs (chainOf fs t) (offset + buf.length) + 511 < 2 ^ 64
  room : ¬NoSpace fs (chainOf fs t) (offset + buf.length)
  atEnd : GrowsAtEnd fs (chainOf fs t) (offset + buf.length)

/-- A call that reads from a sector on, writes in place, cuts, or seeks the front. -/
def Plain (s : FileScheme) : HandleCall → Prop
  | .read id _ => ∀ r, s.files id = some (.file r) → r.canRead →
    OnSector (extentsOf s.fs (chainOf s.fs r.block)) r.seek
  | .write id buf => ∀ r, s.files id = some (.file r) → r.canWrite → InPlace s.fs r.block r.seek buf
  | .lseek id offset whence => ∀ r, s.files id = some r →
    ∀ pos, target (s.bytes r).length r.pos offset whence = some pos →
      pos = 0 ∧ (s.bytes r).length < 2 ^ 63
  | .ftruncate id len => ∀ r, s.files id = some (.file r) → r.canWrite →
    len ≤ (contentOf s.fs r.block).length
  | .dup _ _ => True

variable {fs fs' : FileSystem} {s s' : FileScheme} {c : Cursors} {call : HandleCall} {l l' : Layout}
  {id offset whence len pos n : Nat} {buf out : List UInt8} {r r' : Resource} {α : Type}

namespace FileScheme

theorem respond_ok {a : Reply} (h : call.request.run s = .ok a s') : s.respond call = (.ok a, s') := by
  rw [respond, h]

theorem respond_error {e : Fault} (h : call.request.run s = .error e s') :
    s.respond call = (.error e, s') := by
  rw [respond, h]

/-- The common shape of `read`, `write` and `lseek`: what the resource does is done, and the resource
put back. -/
theorem change_run {x : Resource → FsM (Resource × α)} {a : α} (hr : s.files id = some r)
    (hx : x r s.fs = .ok (r', a) fs') :
    (do
      let (r, reply) ← onFs (x (← file id))
      setFile id r
      return reply : SchemeM α) s = .ok a ((s.withFs fs').moved id r') :=
  (bind_of_ok (file_run hr)).trans (bind_of_ok (onFs_ok hx))

theorem change_error {x : Resource → FsM (Resource × α)} {e : Fault} (hr : s.files id = some r)
    (hx : x r s.fs = .error e fs') :
    (do
      let (r, reply) ← onFs (x (← file id))
      setFile id r
      return reply : SchemeM α) s = .error e (s.withFs fs') :=
  (bind_of_ok (file_run hr)).trans (bind_of_error (onFs_error hx))

theorem respond_read (hr : s.files id = some r) (hx : r.read buf s.fs = .ok (r', out, n) fs') :
    s.respond (.read id buf) = (.ok (.bytes out n), (s.withFs fs').moved id r') :=
  respond_ok (bind_of_ok (change_run hr hx : read id buf s = _))

theorem respond_read_error {e : Fault} (hr : s.files id = some r)
    (hx : r.read buf s.fs = .error e fs') : s.respond (.read id buf) = (.error e, s.withFs fs') :=
  respond_error (bind_of_error (change_error hr hx : read id buf s = _))

theorem respond_write (hr : s.files id = some r) (hx : r.write buf s.fs = .ok (r', n) fs') :
    s.respond (.write id buf) = (.ok (.num n), (s.withFs fs').moved id r') :=
  respond_ok (bind_of_ok (change_run hr hx : write id buf s = _))

theorem respond_write_error {e : Fault} (hr : s.files id = some r)
    (hx : r.write buf s.fs = .error e fs') : s.respond (.write id buf) = (.error e, s.withFs fs') :=
  respond_error (bind_of_error (change_error hr hx : write id buf s = _))

theorem respond_lseek (hr : s.files id = some r)
    (hx : r.lseek offset whence s.fs = .ok (r', n) fs') :
    s.respond (.lseek id offset whence) = (.ok (.num n), (s.withFs fs').moved id r') :=
  respond_ok (bind_of_ok (change_run hr hx : lseek id offset whence s = _))

theorem respond_lseek_error {e : Fault} (hr : s.files id = some r)
    (hx : r.lseek offset whence s.fs = .error e fs') :
    s.respond (.lseek id offset whence) = (.error e, s.withFs fs') :=
  respond_error (bind_of_error (change_error hr hx : lseek id offset whence s = _))

theorem respond_ftruncate (hr : s.files id = some r) (hx : r.truncate len s.fs = .ok n fs') :
    s.respond (.ftruncate id len) = (.ok (.num n), s.withFs fs') := by
  have hrun : ftruncate id len s = .ok n (s.withFs fs') :=
    (bind_of_ok (file_run hr)).trans (onFs_ok hx)
  exact respond_ok (bind_of_ok hrun)

theorem respond_ftruncate_error {e : Fault} (hr : s.files id = some r)
    (hx : r.truncate len s.fs = .error e fs') :
    s.respond (.ftruncate id len) = (.error e, s.withFs fs') := by
  have hrun : ftruncate id len s = .error e (s.withFs fs') :=
    (bind_of_ok (file_run hr)).trans (onFs_error hx)
  exact respond_error (bind_of_error hrun)

theorem respond_dup (hr : s.files id = some r) : s.respond (.dup id buf) =
    match r.dup buf with
    | .ok r' => (.ok (.num s.nextId), s.added r')
    | .error e => (.error (.errno e), s) := by
  have hrun : dup id buf s = (do addFile (← lift (r.dup buf)) : SchemeM Nat) s :=
    bind_of_ok (file_run hr)
  cases hd : r.dup buf with
  | ok r' =>
    rw [hd] at hrun
    exact respond_ok (bind_of_ok hrun)
  | error e =>
    rw [hd] at hrun
    exact respond_error (bind_of_error hrun)

/-- Without a resource behind the handle, all calls are refused. -/
theorem respond_none (h : ∀ id, call.request.handle = some id → s.files id = none) :
    s.respond call = (.error (.errno .EBADF), s) := by
  cases call with
  | read id buf =>
    have hrun : read id buf s = .error (.errno .EBADF) s := bind_of_error (file_none (h id rfl))
    exact respond_error (bind_of_error hrun)
  | write id buf =>
    have hrun : write id buf s = .error (.errno .EBADF) s := bind_of_error (file_none (h id rfl))
    exact respond_error (bind_of_error hrun)
  | lseek id offset whence =>
    have hrun : lseek id offset whence s = .error (.errno .EBADF) s :=
      bind_of_error (file_none (h id rfl))
    exact respond_error (bind_of_error hrun)
  | ftruncate id len =>
    have hrun : ftruncate id len s = .error (.errno .EBADF) s := bind_of_error (file_none (h id rfl))
    exact respond_error (bind_of_error hrun)
  | dup id buf =>
    have hrun : dup id buf s = .error (.errno .EBADF) s := bind_of_error (file_none (h id rfl))
    exact respond_error (bind_of_error hrun)

end FileScheme

/-- Wherever it is to go, a seek goes to the front. -/
theorem seekTarget_front {size : Nat} (hsize : size < 2 ^ 63)
    (ht : target size pos offset whence = some n) : seekTarget size pos offset whence = .ok 0 := by
  have hfront : ∀ z : Int, asU64 (min 0 (max (asI64 size) z)) = 0 := by
    intro z
    rw [asI64_of_lt hsize, Int.min_eq_left (by omega)]
    rfl
  rw [seekTarget, hfront, hfront, hfront]
  rcases Kernel.Seeks.target_some ht with rfl | rfl | rfl
  · rfl
  · rfl
  · rfl

theorem seekTarget_none {size : Nat} (ht : target size pos offset whence = none) :
    seekTarget size pos offset whence = .error .EINVAL := by
  obtain ⟨hset, hcur, hend⟩ := Kernel.Seeks.target_none ht
  exact (if_neg hset).trans ((if_neg hcur).trans (if_neg hend))

/-- The cursors are those of the scheme: the same table, and the bytes of every open file. -/
structure Follows (s : FileScheme) (l : Layout) (c : Cursors) : Prop where
  inv : Inv s.fs l
  handled : Handled s l
  files : c.files = s.files
  nextId : c.nextId = s.nextId
  content : ∀ id r, s.files id = some (.file r) → c.content r.block = contentOf s.fs r.block

/-- The scheme and the cursors answer the same, and the cursors are still those of the scheme. -/
def Matches (s : FileScheme) (c : Cursors) (call : HandleCall) : Prop :=
  (s.respond call).1 = (c.respond call).1 ∧ ∃ l, Follows (s.respond call).2 l (c.respond call).2

theorem Matches.intro {answer : Except Fault Reply} {c' : Cursors} (hs : s.respond call = (answer, s'))
    (hc : c.respond call = (answer, c')) (h : Follows s' l c') : Matches s c call := by
  rw [Matches, hs, hc]
  exact ⟨rfl, l, h⟩

namespace Follows

theorem of_cursors (h : Inv s.fs l) (hh : Handled s l) : Follows s l s.cursors :=
  ⟨h, hh, rfl, rfl, fun _ _ _ => rfl⟩

theorem bytes_eq (h : Follows s l c) (hr : s.files id = some r) : c.bytes r = s.bytes r := by
  cases r with
  | dir r => rfl
  | file r => exact h.content id r hr

theorem through_eq (h : Follows s l c) (hr : s.files id = some r)
    (f : Resource → Except Fault Reply × Cursors) : c.through id f = f r := by
  rw [Cursors.through, h.files, hr]

/-- One place of the table gets another resource for something open. -/
theorem retable {c' : Cursors} {i : Nat} (h : Follows s l c) (hfs : s'.fs = s.fs)
    (htable : s'.files = Function.update s.files i (some r')) (hr : s.files id = some r)
    (hblock : r'.block = r.block) (hdir : r'.isDir = r.isDir) (hfiles : c'.files = s'.files)
    (hnext : c'.nextId = s'.nextId) (hcontent : c'.content = c.content) : Follows s' l c' := by
  have hold : ∀ j x, s'.files j = some x →
      ∃ k y, s.files k = some y ∧ y.block = x.block ∧ y.isDir = x.isDir := by
    intro j x hx
    rw [htable] at hx
    by_cases hj : j = i
    · rw [hj, Function.update_self] at hx
      cases hx
      exact ⟨id, r, hr, hblock.symm, hdir.symm⟩
    · rw [Function.update_of_ne hj] at hx
      exact ⟨j, x, hx, rfl, rfl⟩
  refine ⟨hfs ▸ h.inv, fun j x hx => ?_, hfiles, hnext, fun j x hx => ?_⟩
  · obtain ⟨k, y, hy, hb, hd⟩ := hold j x hx
    rw [← hb, ← hd, hfs]
    exact h.handled k y hy
  · obtain ⟨k, y, hy, hb, hd⟩ := hold j (.file x) hx
    cases y with
    | dir y => cases hd
    | file y =>
      have hb' : y.block = x.block := hb
      rw [← hb', hfs, hcontent]
      exact h.content k y hy

theorem moved (h : Follows s l c) (hr : s.files id = some r) (pos : Nat) :
    Follows (s.moved id (r.setSeek pos)) l (c.moved id r pos) := by
  refine h.retable rfl rfl hr (r.setSeek_block pos) (r.setSeek_isDir pos) ?_ h.nextId rfl
  rw [Cursors.moved, h.files]
  rfl

theorem duped (h : Follows s l c) (hr : s.files id = some r) : Follows (s.added r) l
    { c with nextId := wrap64 (c.nextId + 1), files := Function.update c.files c.nextId (some r) } := by
  refine h.retable rfl rfl hr rfl rfl ?_ ?_ rfl
  · rw [h.files, h.nextId]
    rfl
  · rw [h.nextId]
    rfl

/-- The bytes of one file have become others. -/
theorem changed {op : Op} {bytes : List UInt8} (h : Follows s l c)
    (hout : Outcome s.fs l op none fs' l') (hkeep : ∀ mode name d, op ≠ .removeNode mode name d)
    (hself : contentOf fs' op.target = bytes) : Follows (s.withFs fs') l' (c.put op.target bytes) := by
  have hinv' := (hout.inv h.inv).1
  have hstays : ∀ p, l.chain p ≠ [] → l'.chain p ≠ [] :=
    fun p hp => hout.chain_stays hp fun mode name d hop => (hkeep mode name d hop).elim
  refine ⟨hinv', fun id r hr => ?_, h.files, h.nextId, fun id r hr => ?_⟩
  · obtain ⟨hp, hkind⟩ := h.handled id r hr
    exact ⟨hstays _ hp, (hout.isDir h.inv hp (hstays _ hp)).trans hkind⟩
  · have hp : l.chain r.block ≠ [] := (h.handled id (.file r) hr).1
    have hfile : (s.fs.nodeAt r.block).isDir = false := (h.handled id (.file r) hr).2
    change Function.update c.content op.target bytes r.block = contentOf fs' r.block
    by_cases hb : r.block = op.target
    · rw [hb, Function.update_self, hself]
    · rw [Function.update_of_ne hb, h.content id r hr, hinv'.contentOf_eq (hstays _ hp),
        h.inv.contentOf_eq hp]
      exact (hout.other_content h.inv hb hp (hstays _ hp) hfile).1.symm

theorem refuse {e : Errno} (h : Follows s l c) (hs : s.respond call = (.error (.errno e), s))
    (hc : c.respond call = c.refuse e) : Matches s c call := .intro hs hc h

theorem refused (h : Follows s l c) (hid : call.request.handle = some id) (hr : s.files id = none) :
    Matches s c call := by
  have hs : s.respond call = (.error (.errno .EBADF), s) := by
    refine FileScheme.respond_none fun i hi => ?_
    rw [hid] at hi
    cases hi
    exact hr
  have hc : ∀ f, c.through id f = c.refuse .EBADF := by
    intro f
    rw [Cursors.through, h.files, hr]
  cases call with
  | read i buf =>
    cases hid
    exact h.refuse hs (hc _)
  | write i buf =>
    cases hid
    exact h.refuse hs (hc _)
  | lseek i offset whence =>
    cases hid
    exact h.refuse hs (hc _)
  | ftruncate i len =>
    cases hid
    exact h.refuse hs (hc _)
  | dup i buf =>
    cases hid
    exact h.refuse hs (hc _)

theorem read_step (h : Follows s l c) (hr : s.files id = some r) (hp : Plain s (.read id buf)) :
    Matches s c (.read id buf) := by
  have hc : c.respond (.read id buf) = _ := h.through_eq hr _
  rw [h.bytes_eq hr] at hc
  cases r with
  | dir r =>
    have hx : (Resource.dir r).read buf s.fs = .ok
        ((Resource.dir r).setSeek (r.seek + min buf.length (r.data.length - r.seek)),
          overlay buf 0 ((r.data.drop r.seek).take buf.length),
          min buf.length (r.data.length - r.seek)) s.fs := by
      rw [← List.length_drop]
      rfl
    exact .intro (FileScheme.respond_read hr hx) hc (h.moved hr _)
  | file r =>
    have hne : l.chain r.block ≠ [] := (h.handled id _ hr).1
    by_cases hcan : r.canRead = true
    · rw [if_pos (show (Resource.file r).readable = true from hcan)] at hc
      have hon := hp r hr hcan
      rw [h.inv.chainOf_eq hne] at hon
      have hrun : r.read buf s.fs = .ok
          ({ r with seek := r.seek + min buf.length ((contentOf s.fs r.block).length - r.seek) },
            overlay buf 0 (((contentOf s.fs r.block).drop r.seek).take buf.length),
            min buf.length ((contentOf s.fs r.block).length - r.seek)) s.fs := by
        rw [FileResource.read, if_pos hcan]
        exact bind_ok (h.inv.readNode_onSector hne buf hon)
      have hx : (Resource.file r).read buf s.fs = .ok ((Resource.file r).setSeek _, _) s.fs :=
        bind_ok hrun
      exact .intro (FileScheme.respond_read hr hx) hc (h.moved hr _)
    · rw [if_neg (show ¬(Resource.file r).readable = true from hcan)] at hc
      have hx : (Resource.file r).read buf s.fs = .error (.errno .EBADF) s.fs := by
        rw [Resource.read, FileResource.read, if_neg hcan]
        rfl
      exact h.refuse (FileScheme.respond_read_error hr hx) hc

theorem write_step (h : Follows s l c) (hr : s.files id = some r) (hp : Plain s (.write id buf)) :
    Matches s c (.write id buf) := by
  have hc : c.respond (.write id buf) = _ := h.through_eq hr _
  rw [h.bytes_eq hr] at hc
  cases r with
  | dir r =>
    have hx : (Resource.dir r).write buf s.fs = .error (.errno .EBADF) s.fs := rfl
    exact h.refuse (FileScheme.respond_write_error hr hx) hc
  | file r =>
    have hne : l.chain r.block ≠ [] := (h.handled id _ hr).1
    have hfile : (s.fs.nodeAt r.block).isDir = false := (h.handled id _ hr).2
    by_cases hcan : r.canWrite = true
    · rw [if_pos (show (Resource.file r).writable = true from hcan)] at hc
      obtain ⟨htidy, hin, hfit, hsafe, hroom, hend⟩ := hp r hr hcan
      rw [h.inv.chainOf_eq hne] at htidy hsafe hroom hend
      rcases h.inv.writeNode_tidy hne hfile hfit hsafe htidy hend with
        ⟨fs', -, -, hok, -⟩ | ⟨fs', -, hfill⟩
      · obtain ⟨-, hnew, l', hwrote, hne'⟩ :=
          h.inv.wrote_overlay hne hfile htidy hin hfit hsafe hend hok
        have hgap : r.seek - (contentOf s.fs r.block).length = 0 := by omega
        have hrun : r.write buf s.fs = .ok ({ r with seek := r.seek + buf.length }, buf.length) fs' := by
          rw [FileResource.write, if_pos hcan]
          exact bind_ok hok
        have hx : (Resource.file r).write buf s.fs = .ok ((Resource.file r).setSeek _, _) fs' :=
          bind_ok hrun
        have hout : Outcome s.fs l (.writeNode r.block r.seek buf) none fs' l' := by
          rw [← wrap64_of_lt hfit] at hwrote
          exact .wrote hwrote
        have hnew' : contentOf fs' r.block = overlay (contentOf s.fs r.block ++
            List.replicate (r.seek - (contentOf s.fs r.block).length) 0) r.seek buf := by
          rw [hnew, hgap, List.replicate_zero, List.append_nil]
        have hnext := h.changed hout (by rintro _ _ _ ⟨⟩) hnew'
        exact .intro (FileScheme.respond_write hr hx) hc (hnext.moved hr _)
      · have hno : NoSpace s.fs (l.chain r.block) (r.seek + buf.length) :=
          hfill.cause.imp_left fun hc => ⟨hfill.short, hc.1⟩
        exact (hroom hno).elim
    · rw [if_neg (show ¬(Resource.file r).writable = true from hcan)] at hc
      have hx : (Resource.file r).write buf s.fs = .error (.errno .EBADF) s.fs := by
        rw [Resource.write, FileResource.write, if_neg hcan]
        rfl
      exact h.refuse (FileScheme.respond_write_error hr hx) hc

theorem lseek_front (h : Follows s l c) (hr : s.files id = some r)
    (ht : target (s.bytes r).length r.pos offset whence = some n) (hsize : (s.bytes r).length < 2 ^ 63) :
    s.respond (.lseek id offset whence) = (.ok (.num 0), s.moved id (r.setSeek 0)) := by
  have hrun := h.inv.lseek_run (h.handled id r hr).1 offset whence
  rw [seekTarget_front hsize ht] at hrun
  exact FileScheme.respond_lseek hr hrun

theorem lseek_step (h : Follows s l c) (hr : s.files id = some r)
    (hp : Plain s (.lseek id offset whence)) : Matches s c (.lseek id offset whence) := by
  have hc : c.respond (.lseek id offset whence) = _ := h.through_eq hr _
  rw [h.bytes_eq hr] at hc
  cases ht : target (s.bytes r).length r.pos offset whence with
  | some pos =>
    obtain ⟨rfl, hsize⟩ := hp r hr pos ht
    rw [ht] at hc
    exact .intro (h.lseek_front hr ht hsize) hc (h.moved hr 0)
  | none =>
    rw [ht] at hc
    have hrun := h.inv.lseek_run (h.handled id r hr).1 offset whence
    rw [seekTarget_none ht] at hrun
    exact h.refuse (FileScheme.respond_lseek_error hr hrun) hc

theorem ftruncate_step (h : Follows s l c) (hr : s.files id = some r)
    (hp : Plain s (.ftruncate id len)) : Matches s c (.ftruncate id len) := by
  have hc : c.respond (.ftruncate id len) = _ := h.through_eq hr _
  rw [h.bytes_eq hr] at hc
  cases r with
  | dir r =>
    have hx : (Resource.dir r).truncate len s.fs = .error (.errno .EBADF) s.fs := rfl
    exact h.refuse (FileScheme.respond_ftruncate_error hr hx) hc
  | file r =>
    have hne : l.chain r.block ≠ [] := (h.handled id _ hr).1
    have hfile : (s.fs.nodeAt r.block).isDir = false := (h.handled id _ hr).2
    by_cases hcan : r.canWrite = true
    · rw [if_pos (show (Resource.file r).writable = true from hcan)] at hc
      have hlen := hp r hr hcan
      obtain ⟨fs', hok, hinv, hrw, hes, hcut, -⟩ := h.inv.nodeSetLen_content len hne hfile
      have hx : (Resource.file r).truncate len s.fs = .ok 0 fs' := by
        rw [Resource.truncate, FileResource.truncate, if_pos hcan]
        exact bind_ok hok
      have hgap : len - (contentOf s.fs r.block).length = 0 := by omega
      have hnew : contentOf fs' r.block = (contentOf s.fs r.block).take len ++
          List.replicate (len - (contentOf s.fs r.block).length) 0 := by
        rw [hinv.contentOf_eq hne, hcut, ← h.inv.contentOf_eq hne, hgap, List.replicate_zero,
          List.append_nil]
      have hout : Outcome s.fs l (.nodeSetLen r.block len) none fs' l := .cut hinv hrw hes
      exact .intro (FileScheme.respond_ftruncate hr hx) hc
        (h.changed hout (by rintro _ _ _ ⟨⟩) hnew)
    · rw [if_neg (show ¬(Resource.file r).writable = true from hcan)] at hc
      have hx : (Resource.file r).truncate len s.fs = .error (.errno .EBADF) s.fs := by
        rw [Resource.truncate, FileResource.truncate, if_neg hcan]
        rfl
      exact h.refuse (FileScheme.respond_ftruncate_error hr hx) hc

theorem dup_step (h : Follows s l c) (hr : s.files id = some r) : Matches s c (.dup id buf) := by
  have hc : c.respond (.dup id buf) = _ := h.through_eq hr _
  have hs : s.respond (.dup id buf) = _ := FileScheme.respond_dup hr
  cases hd : r.dup buf with
  | ok r' =>
    obtain rfl := Resource.dup_eq hd
    rw [hd] at hc hs
    rw [h.nextId] at hc
    have hnext := h.duped hr
    rw [h.nextId] at hnext
    exact .intro hs hc hnext
  | error e =>
    rw [hd] at hc hs
    exact h.refuse hs hc

/-- A plain call is answered as the cursors answer it. -/
theorem step (h : Follows s l c) (hp : Plain s call) : Matches s c call := by
  cases call with
  | read id buf =>
    cases hr : s.files id with
    | some r => exact h.read_step hr hp
    | none => exact h.refused rfl hr
  | write id buf =>
    cases hr : s.files id with
    | some r => exact h.write_step hr hp
    | none => exact h.refused rfl hr
  | lseek id offset whence =>
    cases hr : s.files id with
    | some r => exact h.lseek_step hr hp
    | none => exact h.refused rfl hr
  | ftruncate id len =>
    cases hr : s.files id with
    | some r => exact h.ftruncate_step hr hp
    | none => exact h.refused rfl hr
  | dup id buf =>
    cases hr : s.files id with
    | some r => exact h.dup_step hr
    | none => exact h.refused rfl hr

/-- Where a seek is plain, the kernel's schemes answer it in the same way. -/
theorem siblings_agree (h : Follows s l c) (hp : Plain s (.lseek id offset whence))
    (hr : s.files id = some r) : ∀ answer ∈ siblings (c.bytes r) r.pos offset whence,
      answer = (s.respond (.lseek id offset whence)).1 := by
  have hc : c.respond (.lseek id offset whence) = _ := h.through_eq hr _
  have hsame : ∀ k : Kernel.Seeks.Handle, k.data = c.bytes r → k.seek = r.pos →
      kernelReply (k.move offset whence) = (c.respond (.lseek id offset whence)).1 := by
    intro k hdata hseek
    rw [Kernel.Seeks.Handle.move, hdata, hseek, hc]
    cases ht : target (c.bytes r).length r.pos offset whence with
    | none => rw [Kernel.Seeks.seekWithin_none ht]; rfl
    | some pos =>
      rw [h.bytes_eq hr] at ht ⊢
      obtain ⟨rfl, hsize⟩ := hp r hr pos ht
      rw [Kernel.Seeks.seekWithin_front hsize ht]
      rfl
  intro answer hanswer
  rw [(h.step hp).1]
  simp only [siblings, List.mem_cons, List.not_mem_nil, or_false] at hanswer
  rcases hanswer with rfl | rfl | rfl
  · exact hsame _ rfl rfl
  · exact hsame _ rfl rfl
  · exact hsame _ rfl rfl

end Follows

/-- The scheme after a call, and with it the cursors. -/
def FileScheme.after (s : FileScheme) (call : HandleCall) : FileScheme := (s.respond call).2

def both (p : FileScheme × Cursors) (call : HandleCall) : FileScheme × Cursors :=
  (p.1.after call, (p.2.respond call).2)

theorem Follows.run {calls : List HandleCall} (h : Follows s l c)
    (hplain : Each FileScheme.after Plain s calls) : Each both Agrees (s, c) calls := by
  induction calls generalizing s l c with
  | nil => trivial
  | cons call calls ih =>
    obtain ⟨hsame, l', hnext⟩ := h.step hplain.1
    refine ⟨⟨hsame, fun id offset whence r hcall hr => ?_⟩, ih hnext hplain.2⟩
    subst hcall
    exact h.siblings_agree hplain.1 (h.files ▸ hr)

/-- In every session that removes nothing open, every sequence of plain calls through handles is
answered as cursors over the bytes of the files answer it. -/
theorem handles_are_cursors {disk : Disk} {name : String} {reqs : List Request} {w : Session}
    {calls : List HandleCall} (hsize : disk.size < 2 ^ 64) (hc : create disk = .ok fs)
    (hrun : Run (Session.Step Keeping) (Session.start name fs) reqs w)
    (hplain : Each FileScheme.after Plain w.scheme calls) :
    Each both Agrees (w.scheme, w.scheme.cursors) calls := by
  obtain ⟨l, h⟩ := Session.run_tracks hsize hc hrun
  exact (Follows.of_cursors h.inv h.handled).run hplain

/-- The handle of a new file. -/
def newFile : FileResource := FileResource.new (FileScheme.urlPath [97]) 4 makeFlags

/-- A file is made on a small disk, and three bytes find room in it. -/
theorem new_file : ∃ fs w l, create (blankDisk 7) = .ok fs ∧
    Run (Session.Step Keeping) (Session.start "disk" fs) [.openUrl [97] makeFlags 0 0] w ∧
    Follows w.scheme l w.scheme.cursors ∧ w.scheme.files 1 = some (.file newFile) ∧
    contentOf w.scheme.fs newFile.block = [] ∧ Plain w.scheme (.write 1 [1, 2, 3]) := by
  have hsize : (blankDisk 7).size < 2 ^ 64 := by decide
  obtain ⟨fs, hc⟩ := create_ok (show 4 * 512 ≤ (blankDisk 7).size by decide)
  obtain ⟨fs', l', hfirst, hans⟩ := open_first (n := 7) rfl (by omega) (by omega) hc "disk"
  have hstep : Session.Step Keeping (Session.start "disk" fs) (.openUrl [97] makeFlags 0 0) _ :=
    ⟨⟨by omega, by omega⟩, ⟨trivial, trivial⟩, _, _, hans, rfl⟩
  obtain ⟨l, h⟩ := Session.run_tracks hsize hc (.cons hstep .nil)
  have hempty : (fs'.nodeAt 4).extents = List.replicate 15 Extent.default := by
    rw [hfirst.node]
    rfl
  have hnone : contentOf fs' 4 = [] := hfirst.inv.contentOf_empty hfirst.chain hempty
  refine ⟨fs, _, l, hc, .cons hstep .nil, .of_cursors h.inv h.handled, rfl, hnone, ?_⟩
  intro r hr _
  cases hr
  have hch : chainOf fs' 4 = [4] := by
    rw [hfirst.inv.chainOf_eq (by simp [hfirst.chain]), hfirst.chain]
  have hord : InOrder fs' (.writeNode 4 0 [1, 2, 3]) :=
    hfirst.inv.inOrder_first hfirst.chain hempty (by decide) (by decide)
  have hm : missing fs' [4] 3 = 3 := missing_empty hempty (by omega)
  have htake : takeExtent ((3 + 511) / 512) fs'.freeNode.extents =
      some (5, ⟨6, 512⟩ :: List.replicate 14 Extent.default) := by
    rw [hfirst.free]
    decide
  refine ⟨?_, Nat.zero_le _, by decide, ?_, ?_, hord.2⟩
  · change Tidy fs' (chainOf fs' 4)
    rw [hch]
    exact tidy_empty hempty
  · change missing fs' (chainOf fs' 4) 3 + 511 < 2 ^ 64
    rw [hch, hm]
    omega
  · change ¬NoSpace fs' (chainOf fs' 4) 3
    rw [hch, NoSpace, CannotList, hm]
    rintro (⟨-, hno⟩ | ⟨-, c, nb, es, -, hsome, hone, -⟩)
    · rw [htake] at hno
      cases hno
    · rw [htake] at hsome
      cases hsome
      exact absurd hone (by decide)

/-- A file after a write in place: the buffer lies over its bytes, and its cursor is behind it. -/
theorem Follows.written {r : FileResource} (h : Follows s l c) (hr : s.files id = some (.file r))
    (hcan : r.canWrite = true) (hp : Plain s (.write id buf)) :
    ∃ l', Follows (s.after (.write id buf)) l' (c.respond (.write id buf)).2 ∧
      (s.after (.write id buf)).files id = some (.file { r with seek := r.seek + buf.length }) ∧
      contentOf (s.after (.write id buf)).fs r.block = overlay (contentOf s.fs r.block) r.seek buf := by
  obtain ⟨-, l', hnext⟩ := h.step hp
  have hin := (hp r hr hcan).inside
  have hgap : r.seek - (contentOf s.fs r.block).length = 0 := by omega
  have hc : c.respond (.write id buf) = _ := h.through_eq hr _
  rw [if_pos (show (Resource.file r).writable = true from hcan), h.bytes_eq hr] at hc
  have hfiles : (s.after (.write id buf)).files id =
      some (.file { r with seek := r.seek + buf.length }) := by
    refine (congrFun hnext.files id).symm.trans ?_
    rw [hc]
    exact Cursors.moved_self ..
  refine ⟨l', hnext, hfiles, (hnext.content id _ hfiles).symm.trans ?_⟩
  rw [hc]
  refine (Cursors.put_self c r.block _).trans ?_
  change overlay (contentOf s.fs r.block ++
    List.replicate (r.seek - (contentOf s.fs r.block).length) 0) r.seek buf = _
  rw [hgap, List.replicate_zero, List.append_nil]

/-- The new file after the write: its cursor is behind the three bytes. -/
theorem new_file_written (h : Follows s l c) (hr : s.files 1 = some (.file newFile))
    (hempty : contentOf s.fs newFile.block = []) (hp : Plain s (.write 1 [1, 2, 3])) :
    ∃ l', Follows (s.after (.write 1 [1, 2, 3])) l' (c.respond (.write 1 [1, 2, 3])).2 ∧
      (s.after (.write 1 [1, 2, 3])).files 1 = some (.file { newFile with seek := 3 }) ∧
      (s.after (.write 1 [1, 2, 3])).bytes (.file { newFile with seek := 3 }) = [1, 2, 3] := by
  obtain ⟨l', hnext, hfiles, hcont⟩ := h.written hr (by decide) hp
  refine ⟨l', hnext, hfiles, hcont.trans ?_⟩
  rw [hempty]
  rfl

/-- Three bytes are written to a new file, its front is sought, and they are read. -/
theorem handles_are_cursors_new_file : ∃ fs w, create (blankDisk 7) = .ok fs ∧
    Run (Session.Step Keeping) (Session.start "disk" fs) [.openUrl [97] makeFlags 0 0] w ∧
    Each both Agrees (w.scheme, w.scheme.cursors)
      [.write 1 [1, 2, 3], .lseek 1 0 SEEK_SET, .read 1 [0, 0, 0, 0]] := by
  have hsize : (blankDisk 7).size < 2 ^ 64 := by decide
  obtain ⟨fs, w, l, hc, hrun, h, hr, hempty, hp⟩ := new_file
  obtain ⟨l₁, h₁, hr₁, hbytes₁⟩ := new_file_written h hr hempty hp
  refine ⟨fs, w, hc, hrun, handles_are_cursors hsize hc hrun ⟨hp, ?_, ?_, trivial⟩⟩
  · intro r hr' pos ht
    rw [hr₁] at hr'
    cases hr'
    rw [hbytes₁] at ht ⊢
    cases ht
    exact ⟨rfl, by decide⟩
  · intro r hr' _
    have ht : target 3 3 0 SEEK_SET = some 0 := by decide
    have hfront := h₁.lseek_front hr₁ (by rw [hbytes₁]; exact ht) (by rw [hbytes₁]; decide)
    have hfiles : ((w.scheme.after (.write 1 [1, 2, 3])).after (.lseek 1 0 SEEK_SET)).files 1 =
        some (.file newFile) := by
      rw [FileScheme.after, hfront]
      exact FileScheme.moved_self ..
    rw [hfiles] at hr'
    cases hr'
    intro sz _
    exact ⟨Nat.zero_le _, .inl rfl⟩

/-- Three bytes are written to a new file and the second is sought: the answer, and the position, is
the front. -/
theorem seek_goes_to_front : ∃ fs w, create (blankDisk 7) = .ok fs ∧
    Run (Session.Step Keeping) (Session.start "disk" fs) [.openUrl [97] makeFlags 0 0] w ∧
    ¬Each both Agrees (w.scheme, w.scheme.cursors) [.write 1 [1, 2, 3], .lseek 1 1 SEEK_SET] := by
  obtain ⟨fs, w, l, hc, hrun, h, hr, hempty, hp⟩ := new_file
  obtain ⟨l₁, h₁, hr₁, hbytes₁⟩ := new_file_written h hr hempty hp
  refine ⟨fs, w, hc, hrun, fun heach => ?_⟩
  have hsame := heach.2.1.1
  have ht : target 3 3 1 SEEK_SET = some 1 := by decide
  have hfront := h₁.lseek_front hr₁ (by rw [hbytes₁]; exact ht) (by rw [hbytes₁]; decide)
  have hc₁ : (w.scheme.cursors.respond (.write 1 [1, 2, 3])).2.respond (.lseek 1 1 SEEK_SET) = _ :=
    h₁.through_eq hr₁ _
  rw [h₁.bytes_eq hr₁, hbytes₁] at hc₁
  change ((w.scheme.after (.write 1 [1, 2, 3])).respond (.lseek 1 1 SEEK_SET)).1 =
    ((w.scheme.cursors.respond (.write 1 [1, 2, 3])).2.respond (.lseek 1 1 SEEK_SET)).1 at hsame
  rw [hfront, hc₁] at hsame
  have hnum : (Except.ok (Reply.num 0) : Except Fault Reply) = .ok (.num 1) := hsame
  cases hnum

end Origel.RedoxFs
