import Origel.Lib.Store
import Origel.Lib.Run
import Origel.Lib.Table
import Origel.Kernel.UserScheme

/-! What the scheme daemons share: the dispatch of a packet to the method it asks for. -/
namespace Origel.Daemon

open Origel.Lib
open Origel.Kernel.UserScheme (Packet mux)

/-- A method of `SchemeMut` that a packet can ask for. -/
inductive Method where
  | openUrl | chmod | rmdir | unlink | dup | read | write | seek | fcntl | fevent | fmap | fpath
  | fstat | fstatvfs | fsync | ftruncate | close
  deriving DecidableEq, Repr

def method (a : Nat) : Option Method :=
  if a = SYS_OPEN then some .openUrl
  else if a = SYS_CHMOD then some .chmod
  else if a = SYS_RMDIR then some .rmdir
  else if a = SYS_UNLINK then some .unlink
  else if a = SYS_DUP then some .dup
  else if a = SYS_READ then some .read
  else if a = SYS_WRITE then some .write
  else if a = SYS_LSEEK then some .seek
  else if a = SYS_FCNTL then some .fcntl
  else if a = SYS_FEVENT then some .fevent
  else if a = SYS_FMAP then some .fmap
  else if a = SYS_FPATH then some .fpath
  else if a = SYS_FSTAT then some .fstat
  else if a = SYS_FSTATVFS then some .fstatvfs
  else if a = SYS_FSYNC then some .fsync
  else if a = SYS_FTRUNCATE then some .ftruncate
  else if a = SYS_CLOSE then some .close
  else none

/-- What a choice gives that is not its first case comes from the others. -/
theorem of_ite_some {c : Prop} [Decidable c] {x y : Method} {rest : Option Method}
    (h : (if c then some x else rest) = some y) (hne : x ≠ y) : rest = some y := by
  by_cases hc : c
  · rw [if_pos hc] at h
    exact (hne (Option.some.inj h)).elim
  · rwa [if_neg hc] at h

theorem method_eq_read {a : Nat} : method a = some .read ↔ a = SYS_READ := by
  constructor
  · intro h
    unfold method at h
    iterate 5 replace h := of_ite_some h (by decide)
    by_contra hne
    rw [if_neg hne] at h
    iterate 11 replace h := of_ite_some h (by decide)
    cases h
  · rintro rfl
    decide

theorem eq_open_of_method {a : Nat} (h : method a = some .openUrl) : a = SYS_OPEN := by
  unfold method at h
  by_contra hne
  rw [if_neg hne] at h
  iterate 16 replace h := of_ite_some h (by decide)
  cases h

/-- A call that is over: the state after it, what it returns, and the bytes it has put into the
buffer of the caller. -/
structure Done (σ : Type) where
  state : σ
  result : Except Nat Nat
  bytes : List UInt8

def fail {σ : Type} (s : σ) (errno : Nat) : Done σ := ⟨s, .error errno, []⟩

def succeed {σ : Type} (s : σ) (value : Nat) : Done σ := ⟨s, .ok value, []⟩

/-- `SchemeMut`, with what its methods do where a scheme has none of its own. A buffer to fill is
given by its length. -/
structure SchemeMut (σ : Type) where
  openUrl (s : σ) (url : List UInt8) (flags uid gid : Nat) : Done σ := fail s ENOENT
  chmod (s : σ) (path : List UInt8) (mode uid gid : Nat) : Done σ := fail s ENOENT
  rmdir (s : σ) (path : List UInt8) (uid gid : Nat) : Done σ := fail s ENOENT
  unlink (s : σ) (path : List UInt8) (uid gid : Nat) : Done σ := fail s ENOENT
  dup (s : σ) (id : Nat) (buf : List UInt8) : Done σ := fail s EBADF
  read (s : σ) (id len : Nat) : Done σ := fail s EBADF
  write (s : σ) (id : Nat) (buf : List UInt8) : Done σ := fail s EBADF
  seek (s : σ) (id pos whence : Nat) : Done σ := fail s EBADF
  fcntl (s : σ) (id cmd arg : Nat) : Done σ := fail s EBADF
  fevent (s : σ) (id flags : Nat) : Done σ := fail s EBADF
  fmap (s : σ) (id offset size : Nat) : Done σ := fail s EBADF
  fpath (s : σ) (id len : Nat) : Done σ := fail s EBADF
  fstat (s : σ) (id : Nat) : Done σ := fail s EBADF
  fstatvfs (s : σ) (id : Nat) : Done σ := fail s EBADF
  fsync (s : σ) (id : Nat) : Done σ := fail s EBADF
  ftruncate (s : σ) (id len : Nat) : Done σ := fail s EBADF
  close (s : σ) (id : Nat) : Done σ := fail s EBADF

/-- `SchemeMut::handle`, with the memory of the caller as the packet shows it. -/
def SchemeMut.handle {σ : Type} (m : SchemeMut σ) (memory : Nat → UInt8) (s : σ) (p : Packet) :
    Done σ :=
  match method p.a with
  | some .openUrl => m.openUrl s (load memory p.b p.c) p.d p.uid p.gid
  | some .chmod => m.chmod s (load memory p.b p.c) (p.d % 2 ^ 16) p.uid p.gid
  | some .rmdir => m.rmdir s (load memory p.b p.c) p.uid p.gid
  | some .unlink => m.unlink s (load memory p.b p.c) p.uid p.gid
  | some .dup => m.dup s p.b (load memory p.c p.d)
  | some .read => m.read s p.b p.d
  | some .write => m.write s p.b (load memory p.c p.d)
  | some .seek => m.seek s p.b p.c p.d
  | some .fcntl => m.fcntl s p.b p.c p.d
  | some .fevent => m.fevent s p.b p.c
  | some .fmap => m.fmap s p.b p.c p.d
  | some .fpath => m.fpath s p.b p.d
  | some .fstat => if sizeOfStat ≤ p.d then m.fstat s p.b else fail s EFAULT
  | some .fstatvfs => if sizeOfStatVfs ≤ p.d then m.fstatvfs s p.b else fail s EFAULT
  | some .fsync => m.fsync s p.b
  | some .ftruncate => m.ftruncate s p.b p.c
  | some .close => m.close s p.b
  | none => fail s ENOSYS

/-- The rule for the schemes that leave `chmod`, `rmdir`, `unlink`, `seek`, `fmap`, `fstat`, `fstatvfs`
and `ftruncate` as they are. -/
theorem SchemeMut.handle_of {σ : Type} {memory : Nat → UInt8} {s : σ} {p : Packet} {P : Done σ → Prop}
    {openUrl : σ → List UInt8 → Nat → Nat → Nat → Done σ} {dup write : σ → Nat → List UInt8 → Done σ}
    {read fevent fpath : σ → Nat → Nat → Done σ} {fcntl : σ → Nat → Nat → Nat → Done σ}
    {fsync close : σ → Nat → Done σ} (hfail : ∀ errno, errno ≠ EWOULDBLOCK → P (fail s errno))
    (hopen : method p.a = some .openUrl → P (openUrl s (load memory p.b p.c) p.d p.uid p.gid))
    (hdup : method p.a = some .dup → P (dup s p.b (load memory p.c p.d)))
    (hread : method p.a = some .read → P (read s p.b p.d))
    (hwrite : method p.a = some .write → P (write s p.b (load memory p.c p.d)))
    (hfcntl : P (fcntl s p.b p.c p.d)) (hfevent : P (fevent s p.b p.c)) (hfpath : P (fpath s p.b p.d))
    (hfsync : P (fsync s p.b)) (hclose : method p.a = some .close → P (close s p.b)) :
    P (SchemeMut.handle { openUrl, dup, read, write, fcntl, fevent, fpath, fsync, close } memory s p) := by
  have hbadf : P (fail s EBADF) := hfail EBADF (by decide)
  have hnoent : P (fail s ENOENT) := hfail ENOENT (by decide)
  have hfault : P (fail s EFAULT) := hfail EFAULT (by decide)
  unfold SchemeMut.handle
  cases hm : method p.a with
  | none => exact hfail ENOSYS (by decide)
  | some m =>
    cases m with
    | openUrl => exact hopen hm
    | dup => exact hdup hm
    | read => exact hread hm
    | write => exact hwrite hm
    | fcntl => exact hfcntl
    | fevent => exact hfevent
    | fpath => exact hfpath
    | fsync => exact hfsync
    | close => exact hclose hm
    | fstat =>
      dsimp only
      split
      · exact hbadf
      · exact hfault
    | fstatvfs =>
      dsimp only
      split
      · exact hbadf
      · exact hfault
    | seek | fmap | ftruncate => exact hbadf
    | chmod | rmdir | unlink => exact hnoent

/-- A packet written to the scheme file, with the bytes the caller finds in its buffer. -/
structure Reply where
  packet : Packet
  bytes : List UInt8
  deriving DecidableEq, Repr

/-- The packet that tells of data to read. -/
def notice (id size : Nat) : Reply :=
  ⟨⟨0, 0, 0, 0, SYS_FEVENT, id, EVENT_READ, size⟩, []⟩

/-- The bytes that fit into a buffer of `len` bytes. -/
def copied (len : Nat) (data : List UInt8) : List UInt8 := data.take len

/-- The loop that answers parked reads with queued data, in `udp_event` and `ip_event` -/
def answer : List Packet → List (List UInt8) → List Packet × List (List UInt8) × List Reply
  | p :: todo, front :: data =>
    let bytes := copied p.d front
    let (todo, data, replies) := answer todo data
    (todo, data, ⟨{ p with a := bytes.length }, bytes⟩ :: replies)
  | todo, data => (todo, data, [])

/-- What tells of the data at the front of a queue, if that is asked for. -/
def notices (events id : Nat) (data : List (List UInt8)) : List Reply :=
  if events &&& EVENT_READ = EVENT_READ then
    match data with
    | front :: _ => [notice id front.length]
    | [] => []
  else []

end Origel.Daemon
