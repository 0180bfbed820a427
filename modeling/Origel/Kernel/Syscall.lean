import Origel.Kernel.Paging
import Origel.Kernel.UserScheme
import Origel.Numbers

/-! System calls: the dispatch by number, the check of the caller's pointers, the packet that goes to
a scheme, and the encoding of results in one word. -/
namespace Origel.Kernel.Syscall

open Paging UserScheme

/-- A result that has gone through one word. -/
def cross (r : Except Nat Nat) : Except Nat Nat := demux (mux r)

/-- The results that one word has a place for: an error number from 1 to 131, or a value that is not
minus such a number. -/
def Encodable : Except Nat Nat → Prop
  | .ok v => v < 2 ^ 64 - 131
  | .error e => 1 ≤ e ∧ e ≤ 131

/-- The low half of a value is not minus an error number. -/
def LowHalfPlain : Except Nat Nat → Prop
  | .ok v => v % 2 ^ 32 ≤ 2 ^ 32 - 132
  | .error _ => True

theorem cross_error {e : Nat} (h1 : 1 ≤ e) (h2 : e ≤ 131) : cross (.error e) = .error e := by
  have hmod : (2 ^ 64 - e) % 2 ^ 32 = 2 ^ 32 - e := by omega
  rw [cross, mux, demux, hmod, if_pos (by omega)]
  congr 1
  omega

/-- A value comes through, or is lost for good: the errors it turns into come through. -/
theorem cross_ok (v : Nat) : cross (.ok v) = .ok v ∧ v % 2 ^ 32 ≤ 2 ^ 32 - 132 ∨
    ∃ e, 1 ≤ e ∧ e ≤ 131 ∧ cross (.ok v) = .error e ∧ 2 ^ 32 - 132 < v % 2 ^ 32 := by
  rw [cross, mux, demux]
  by_cases h : 2 ^ 32 - 132 < v % 2 ^ 32
  · rw [if_pos h]
    exact .inr ⟨_, by omega, by omega, rfl, h⟩
  · rw [if_neg h]
    exact .inl ⟨rfl, by omega⟩

theorem cross_iterate_error {e : Nat} (h1 : 1 ≤ e) (h2 : e ≤ 131) (n : Nat) :
    cross^[n] (.error e) = .error e :=
  Function.iterate_fixed (cross_error h1 h2) n

/-- However often it crosses a boundary, a result stays what it is iff its low half is plain. -/
theorem result_encoding_faithful_iff (r : Except Nat Nat) (h : Encodable r) (n : Nat) :
    cross^[n + 1] r = r ↔ LowHalfPlain r := by
  cases r with
  | error e =>
    rw [cross_iterate_error h.1 h.2]
    exact iff_of_true rfl trivial
  | ok v =>
    rcases cross_ok v with ⟨hsame, hv⟩ | ⟨e, h1, h2, herr, hv⟩
    · rw [Function.iterate_fixed hsame]
      exact iff_of_true rfl hv
    · rw [Function.iterate_succ_apply, herr, cross_iterate_error h1 h2]
      refine iff_of_false nofun fun hplain => ?_
      rw [LowHalfPlain] at hplain
      omega

/-- A position in a file. -/
theorem position_comes_through : cross^[2] (.ok 4096) = .ok 4096 :=
  (result_encoding_faithful_iff (.ok 4096) (by rw [Encodable]; omega) 1).mpr
    (by rw [LowHalfPlain]; omega)

/-- The last byte below 4 GiB is taken for `EPERM`. -/
theorem position_turned_into_error :
    Encodable (.ok (2 ^ 32 - 1)) ∧ demux (mux (.ok (2 ^ 32 - 1))) = .error 1 := by
  refine ⟨?_, ?_⟩
  · rw [Encodable]
    omega
  · rw [mux, demux]
    norm_num

/-- The registers of a call. -/
structure Registers where
  a : Nat
  b : Nat
  c : Nat
  d : Nat
  e : Nat
  f : Nat
  stack : Nat
  word : ∀ x ∈ [a, b, c, d, e, f, stack], x < 2 ^ 64

structure Slice where
  ptr : Nat
  len : Nat
  deriving DecidableEq, Repr

/-- `validate`: every page from the first address to the last has the flags. -/
def validate (m : Mapper) (address size : Nat) (flags : EntryFlags) : Bool :=
  (pagesOf address size).all fun page =>
    match m.translatePageFlags page with
    | some pageFlags => pageFlags &&& flags = flags
    | none => false

/-- `validate_slice` and `validate_slice_mut` of `len` elements of `elem` bytes. An empty slice
points nowhere. -/
def validateSlice (m : Mapper) (elem ptr len : Nat) (flags : EntryFlags) : Except Nat Slice :=
  if len = 0 then .ok ⟨1, 0⟩
  else if validate m ptr (len * elem % 2 ^ 64) flags then .ok ⟨ptr, len⟩
  else .error EFAULT

/-- The handlers that the dispatch calls, with their arguments. -/
inductive Call where
  | close (fd : Nat)
  | fevent (fd flags : Nat)
  | funmap (address : Nat)
  | openPath (path : Slice) (flags : Nat)
  | chmod (path : Slice) (mode : Nat)
  | rmdir (path : Slice)
  | unlink (path : Slice)
  | schedYield
  | nanosleep (req : Slice) (rem : Option Slice)
  | clockGettime (clock : Nat) (time : Slice)
  | futex (addr : Slice) (op val val2 addr2 : Nat)
  | brk (address : Nat)
  | getpid
  | clone (flags stack : Nat)
  | exit (status : Nat)
  | kill (pid sig : Nat)
  | waitpid (pid status options : Nat)
  | chdir (path : Slice)
  | exec (path args : Slice)
  | iopl (level stack : Nat)
  | getcwd (buf : Slice)
  | getegid
  | getens
  | geteuid
  | getgid
  | getns
  | getuid
  | mkns (names : Slice)
  | setreuid (ruid euid : Nat)
  | setrens (rns ens : Nat)
  | setregid (rgid egid : Nat)
  | pipe2 (fds : Slice) (flags : Nat)
  | physalloc (size : Nat)
  | physfree (address size : Nat)
  | physmap (address size flags : Nat)
  | physunmap (address : Nat)
  | virttophys (address : Nat)

/-- Where a call ends up. -/
inductive Target where
  | call (c : Call)
  | fileOp (a fd c d : Nat)
  | dup (fd : Nat) (buf : Slice)
  | unreachable

/-- The calls that are about a file. -/
def fileClass (m : Mapper) (r : Registers) : Except Nat Target :=
  if r.a &&& SYS_ARG = SYS_ARG_SLICE then do
    let slice ← validateSlice m 1 r.c r.d PRESENT
    return .fileOp r.a r.b slice.ptr slice.len
  else if r.a &&& SYS_ARG = SYS_ARG_MSLICE then do
    let slice ← validateSlice m 1 r.c r.d (PRESENT ||| WRITABLE)
    return .fileOp r.a r.b slice.ptr slice.len
  else if r.a = SYS_CLOSE then return .call (.close r.b)
  else if r.a = SYS_DUP then return .dup r.b (← validateSlice m 1 r.c r.d PRESENT)
  else if r.a = SYS_FEVENT then return .call (.fevent r.b r.c)
  else if r.a = SYS_FUNMAP then return .call (.funmap r.b)
  else return .fileOp r.a r.b r.c r.d

/-- The calls that are about a path. -/
def pathClass (m : Mapper) (r : Registers) : Except Nat Target := do
  if r.a = SYS_OPEN then return .call (.openPath (← validateSlice m 1 r.b r.c PRESENT) r.d)
  else if r.a = SYS_CHMOD then
    return .call (.chmod (← validateSlice m 1 r.b r.c PRESENT) (r.d % 2 ^ 16))
  else if r.a = SYS_RMDIR then return .call (.rmdir (← validateSlice m 1 r.b r.c PRESENT))
  else if r.a = SYS_UNLINK then return .call (.unlink (← validateSlice m 1 r.b r.c PRESENT))
  else return .unreachable

/-- All other calls. -/
def otherClass (m : Mapper) (r : Registers) : Except Nat Target := do
  if r.a = SYS_YIELD then return .call .schedYield
  else if r.a = SYS_NANOSLEEP then
    let req ← validateSlice m 16 r.b 1 PRESENT
    return .call (.nanosleep req (validateSlice m 16 r.c 1 (PRESENT ||| WRITABLE)).toOption)
  else if r.a = SYS_CLOCK_GETTIME then
    return .call (.clockGettime r.b (← validateSlice m 16 r.c 1 (PRESENT ||| WRITABLE)))
  else if r.a = SYS_FUTEX then
    return .call (.futex (← validateSlice m 4 r.b 1 (PRESENT ||| WRITABLE)) r.c (r.d % 2 ^ 32) r.e r.f)
  else if r.a = SYS_BRK then return .call (.brk r.b)
  else if r.a = SYS_GETPID then return .call .getpid
  else if r.a = SYS_CLONE then return .call (.clone r.b r.stack)
  else if r.a = SYS_EXIT then return .call (.exit ((r.b &&& 0xFF) <<< 8))
  else if r.a = SYS_KILL then return .call (.kill r.b r.c)
  else if r.a = SYS_WAITPID then return .call (.waitpid r.b r.c r.d)
  else if r.a = SYS_CHDIR then return .call (.chdir (← validateSlice m 1 r.b r.c PRESENT))
  else if r.a = SYS_EXECVE then
    let path ← validateSlice m 1 r.b r.c PRESENT
    return .call (.exec path (← validateSlice m 16 r.d r.e PRESENT))
  else if r.a = SYS_IOPL then return .call (.iopl r.b r.stack)
  else if r.a = SYS_GETCWD then
    return .call (.getcwd (← validateSlice m 1 r.b r.c (PRESENT ||| WRITABLE)))
  else if r.a = SYS_GETEGID then return .call .getegid
  else if r.a = SYS_GETENS then return .call .getens
  else if r.a = SYS_GETEUID then return .call .geteuid
  else if r.a = SYS_GETGID then return .call .getgid
  else if r.a = SYS_GETNS then return .call .getns
  else if r.a = SYS_GETUID then return .call .getuid
  else if r.a = SYS_MKNS then return .call (.mkns (← validateSlice m 16 r.b r.c PRESENT))
  else if r.a = SYS_SETREUID then return .call (.setreuid (r.b % 2 ^ 32) (r.c % 2 ^ 32))
  else if r.a = SYS_SETRENS then return .call (.setrens r.b r.c)
  else if r.a = SYS_SETREGID then return .call (.setregid (r.b % 2 ^ 32) (r.c % 2 ^ 32))
  else if r.a = SYS_PIPE2 then
    return .call (.pipe2 (← validateSlice m 8 r.b 2 (PRESENT ||| WRITABLE)) r.c)
  else if r.a = SYS_PHYSALLOC then return .call (.physalloc r.b)
  else if r.a = SYS_PHYSFREE then return .call (.physfree r.b r.c)
  else if r.a = SYS_PHYSMAP then return .call (.physmap r.b r.c r.d)
  else if r.a = SYS_PHYSUNMAP then return .call (.physunmap r.b)
  else if r.a = SYS_VIRTTOPHYS then return .call (.virttophys r.b)
  else throw ENOSYS

/-- The matches of `syscall` -/
def inner (m : Mapper) (r : Registers) : Except Nat Target :=
  if r.a &&& SYS_CLASS = SYS_CLASS_FILE then fileClass m r
  else if r.a &&& SYS_CLASS = SYS_CLASS_PATH then pathClass m r
  else otherClass m r

/-- What a packet asks a scheme for. -/
inductive SchemeOp where
  | openPath (path : Slice) (flags uid gid : Nat)
  | chmod (path : Slice) (mode uid gid : Nat)
  | rmdir (path : Slice) (uid gid : Nat)
  | unlink (path : Slice) (uid gid : Nat)
  | dup (id : Nat) (buf : Slice)
  | read (id : Nat) (buf : Slice)
  | write (id : Nat) (buf : Slice)
  | seek (id pos whence : Nat)
  | fcntl (id cmd arg : Nat)
  | fevent (id flags : Nat)
  | fmap (id offset size : Nat)
  | fpath (id : Nat) (buf : Slice)
  | fstat (id : Nat) (stat : Nat)
  | fstatvfs (id : Nat) (stat : Nat)
  | fsync (id : Nat)
  | ftruncate (id len : Nat)
  | close (id : Nat)

/-- The match of `Scheme::handle` -/
def handle (p : Packet) : Except Nat SchemeOp :=
  if p.a = SYS_OPEN then .ok (.openPath ⟨p.b, p.c⟩ p.d p.uid p.gid)
  else if p.a = SYS_CHMOD then .ok (.chmod ⟨p.b, p.c⟩ (p.d % 2 ^ 16) p.uid p.gid)
  else if p.a = SYS_RMDIR then .ok (.rmdir ⟨p.b, p.c⟩ p.uid p.gid)
  else if p.a = SYS_UNLINK then .ok (.unlink ⟨p.b, p.c⟩ p.uid p.gid)
  else if p.a = SYS_DUP then .ok (.dup p.b ⟨p.c, p.d⟩)
  else if p.a = SYS_READ then .ok (.read p.b ⟨p.c, p.d⟩)
  else if p.a = SYS_WRITE then .ok (.write p.b ⟨p.c, p.d⟩)
  else if p.a = SYS_LSEEK then .ok (.seek p.b p.c p.d)
  else if p.a = SYS_FCNTL then .ok (.fcntl p.b p.c p.d)
  else if p.a = SYS_FEVENT then .ok (.fevent p.b p.c)
  else if p.a = SYS_FMAP then .ok (.fmap p.b p.c p.d)
  else if p.a = SYS_FPATH then .ok (.fpath p.b ⟨p.c, p.d⟩)
  else if p.a = SYS_FSTAT then
    if p.d ≥ sizeOfStat then .ok (.fstat p.b p.c) else .error EFAULT
  else if p.a = SYS_FSTATVFS then
    if p.d ≥ sizeOfStatVfs then .ok (.fstatvfs p.b p.c) else .error EFAULT
  else if p.a = SYS_FSYNC then .ok (.fsync p.b)
  else if p.a = SYS_FTRUNCATE then .ok (.ftruncate p.b p.c)
  else if p.a = SYS_CLOSE then .ok (.close p.b)
  else .error ENOSYS

/-- The memory an operation is given: the bytes of a slice or a structure, and whether it may write
there. -/
def SchemeOp.memory : SchemeOp → Option (Slice × Bool)
  | openPath path .. | chmod path .. | rmdir path .. | unlink path .. => some (path, false)
  | dup _ buf | write _ buf => some (buf, false)
  | read _ buf | fpath _ buf => some (buf, true)
  | fstat _ stat => some (⟨stat, sizeOfStat⟩, true)
  | fstatvfs _ stat => some (⟨stat, sizeOfStatVfs⟩, true)
  | _ => none

/-- The rest of the kernel, over its states `σ`: the active page table, the current context and its
files, the schemes and what they do, and the handlers. A handler that gives no result does not come
back to the caller, as `exit` and a successful `exec`. `chdir` and `exec` send packets of their own,
with buffers of their own; these are no pointers of the caller. -/
structure System (σ : Type) where
  table : σ → Mapper
  /-- `pid`, `euid` and `egid` -/
  current : σ → Option (Nat × Nat × Nat)
  /-- The scheme and the number of an open file of the current context. -/
  file : σ → Nat → Option (Nat × Nat)
  scheme : σ → Nat → Bool
  serve : Nat → SchemeOp → σ → Except Nat Nat × σ
  /-- `add_file` of the current context, of a scheme and a number. -/
  addFile : Nat → Nat → σ → Option Nat × σ
  call : Call → σ → Option (Except Nat Nat) × σ

inductive Outcome where
  | returns (value : Nat)
  | leaves
  | unreachable
  deriving DecidableEq, Repr

/-- How a call ends, with the packet that it has delivered of the caller's and what the scheme has been
asked for, by this packet or without one. -/
structure Report (σ : Type) where
  outcome : Outcome
  packet : Option Packet
  op : Option SchemeOp
  state : σ

variable {σ : Type} {k : System σ} {s : σ} {r : Registers} {m : Mapper}

/-- The context that calls, with the scheme and the number of its file -/
def System.opened (k : System σ) (s : σ) (fd : Nat) : Except Nat ((Nat × Nat × Nat) × Nat × Nat) :=
  match k.current s with
  | none => .error ESRCH
  | some context =>
    match k.file s fd with
    | none => .error EBADF
    | some file => if k.scheme s file.1 then .ok (context, file) else .error EBADF

/-- `file_op` -/
def System.fileOp (k : System σ) (s : σ) (a fd c d : Nat) : Report σ :=
  match k.opened s fd with
  | .error e => ⟨.returns (mux (.error e)), none, none, s⟩
  | .ok ((pid, uid, gid), scheme, number) =>
    let packet : Packet := ⟨0, pid, uid, gid, a, number, c, d⟩
    match handle packet with
    | .error e => ⟨.returns (mux (demux (mux (.error e)))), some packet, none, s⟩
    | .ok op =>
      let (result, s') := k.serve scheme op s
      ⟨.returns (mux (demux (mux result))), some packet, some op, s'⟩

/-- `dup` -/
def System.dup (k : System σ) (s : σ) (fd : Nat) (buf : Slice) : Report σ :=
  match k.opened s fd with
  | .error e => ⟨.returns (mux (.error e)), none, none, s⟩
  | .ok (_, scheme, number) =>
    let op : SchemeOp := .dup number buf
    match k.serve scheme op s with
    | (.error e, s') => ⟨.returns (mux (.error e)), none, some op, s'⟩
    | (.ok newId, s') =>
      match k.current s' with
      | none => ⟨.returns (mux (.error ESRCH)), none, some op, s'⟩
      | some _ =>
        match k.addFile scheme newId s' with
        | (none, s'') => ⟨.returns (mux (.error EMFILE)), none, some op, s''⟩
        | (some fd', s'') => ⟨.returns (mux (.ok fd')), none, some op, s''⟩

/-- `syscall` -/
def System.syscall (k : System σ) (r : Registers) (s : σ) : Report σ :=
  match inner (k.table s) r with
  | .error e => ⟨.returns (mux (.error e)), none, none, s⟩
  | .ok .unreachable => ⟨.unreachable, none, none, s⟩
  | .ok (.fileOp a fd c d) => k.fileOp s a fd c d
  | .ok (.dup fd buf) => k.dup s fd buf
  | .ok (.call c) =>
    match k.call c s with
    | (none, s') => ⟨.leaves, none, none, s'⟩
    | (some result, s') => ⟨.returns (mux result), none, none, s'⟩

/-- The range is one of addresses, and all its pages have the flags. -/
def Validated (m : Mapper) (slice : Slice) (flags : EntryFlags) : Prop :=
  slice.len = 0 ∨ slice.ptr + slice.len ≤ 2 ^ 64 ∧ ∀ page, slice.ptr / PAGE_SIZE ≤ page →
    page ≤ (slice.ptr + slice.len - 1) / PAGE_SIZE →
    ∃ pageFlags, m.translatePageFlags page = some pageFlags ∧ pageFlags &&& flags = flags

/-- The numbers whose packets have a pointer, and the flags that its pages need. -/
def pointerFlags (a : Nat) : Option EntryFlags :=
  if a = SYS_READ ∨ a = SYS_FPATH ∨ a = SYS_FSTAT ∨ a = SYS_FSTATVFS then some (PRESENT ||| WRITABLE)
  else if a = SYS_WRITE ∨ a = SYS_DUP then some PRESENT
  else none

/-- The call comes to an end, and what it has delivered to a scheme points to memory that the page
table has for it. -/
structure Guarded (m : Mapper) (rep : Report σ) : Prop where
  reached : rep.outcome ≠ .unreachable
  pointers : ∀ p flags, rep.packet = some p → pointerFlags p.a = some flags →
    Validated m ⟨p.c, p.d⟩ flags
  /-- The memory that the scheme is given, with a packet or for a `dup` -/
  memory : ∀ op mem, rep.op = some op → op.memory = some mem →
    Validated m mem.1 (if mem.2 then PRESENT ||| WRITABLE else PRESENT)

/-- A number of the path class that the dispatch does not list. -/
def Unlisted (a : Nat) : Prop :=
  a &&& SYS_CLASS = SYS_CLASS_PATH ∧ a ≠ SYS_OPEN ∧ a ≠ SYS_CHMOD ∧ a ≠ SYS_RMDIR ∧ a ≠ SYS_UNLINK

/-- A range that goes past the last address, for a file that is there, where the pages between the
first and the wrapped last one pass. -/
def Overlong (k : System σ) (s : σ) (r : Registers) : Prop :=
  2 ^ 64 < r.c + r.d ∧ (∃ file, k.opened s r.b = .ok file) ∧
    ∃ flags, pointerFlags r.a = some flags ∧ validate (k.table s) r.c r.d flags = true

/-- A pointer comes with a number of the file class, and with an argument that is a slice, unless it is
`DUP`. -/
theorem pointerFlags_some {a : Nat} {flags : EntryFlags} (h : pointerFlags a = some flags) :
    a &&& SYS_CLASS = SYS_CLASS_FILE ∧
      (a &&& SYS_ARG = SYS_ARG_SLICE ∧ flags = PRESENT ∧ a ≠ SYS_DUP ∨
        a &&& SYS_ARG = SYS_ARG_MSLICE ∧ flags = PRESENT ||| WRITABLE ∧ a ≠ SYS_DUP ∨
        a = SYS_DUP) := by
  unfold pointerFlags at h
  split at h
  · rename_i ha
    cases h
    rcases ha with rfl | rfl | rfl | rfl <;>
      exact ⟨by decide, .inr (.inl ⟨by decide, rfl, by decide⟩)⟩
  · split at h
    · rename_i ha
      cases h
      rcases ha with rfl | rfl
      · exact ⟨by decide, .inl ⟨by decide, rfl, by decide⟩⟩
      · exact ⟨by decide, .inr (.inr rfl)⟩
    · cases h

/-- What a scheme makes of a packet of the file class is in the range of its pointer. -/
theorem handle_memory {p : Packet} {op : SchemeOp} {mem : Slice × Bool}
    (ha : p.a &&& SYS_CLASS = SYS_CLASS_FILE) (h : handle p = .ok op) (hm : op.memory = some mem) :
    pointerFlags p.a = some (if mem.2 then PRESENT ||| WRITABLE else PRESENT) ∧
      mem.1.ptr = p.c ∧ mem.1.len ≤ p.d := by
  have hpath : ∀ {b}, b &&& SYS_CLASS ≠ SYS_CLASS_FILE → p.a ≠ b := by
    rintro b hb rfl
    exact hb ha
  rw [handle, if_neg (hpath (by decide)), if_neg (hpath (by decide)), if_neg (hpath (by decide)),
    if_neg (hpath (by decide))] at h
  by_cases hdup : p.a = SYS_DUP
  · rw [if_pos hdup] at h
    cases h
    cases hm
    exact ⟨by rw [hdup]; rfl, rfl, le_refl _⟩
  rw [if_neg hdup] at h
  by_cases hread : p.a = SYS_READ
  · rw [if_pos hread] at h
    cases h
    cases hm
    exact ⟨by rw [hread]; rfl, rfl, le_refl _⟩
  rw [if_neg hread] at h
  by_cases hwrite : p.a = SYS_WRITE
  · rw [if_pos hwrite] at h
    cases h
    cases hm
    exact ⟨by rw [hwrite]; rfl, rfl, le_refl _⟩
  rw [if_neg hwrite] at h
  by_cases hseek : p.a = SYS_LSEEK
  · rw [if_pos hseek] at h
    cases h
    cases hm
  rw [if_neg hseek] at h
  by_cases hfcntl : p.a = SYS_FCNTL
  · rw [if_pos hfcntl] at h
    cases h
    cases hm
  rw [if_neg hfcntl] at h
  by_cases hfevent : p.a = SYS_FEVENT
  · rw [if_pos hfevent] at h
    cases h
    cases hm
  rw [if_neg hfevent] at h
  by_cases hfmap : p.a = SYS_FMAP
  · rw [if_pos hfmap] at h
    cases h
    cases hm
  rw [if_neg hfmap] at h
  by_cases hfpath : p.a = SYS_FPATH
  · rw [if_pos hfpath] at h
    cases h
    cases hm
    exact ⟨by rw [hfpath]; rfl, rfl, le_refl _⟩
  rw [if_neg hfpath] at h
  by_cases hfstat : p.a = SYS_FSTAT
  · rw [if_pos hfstat] at h
    by_cases hsize : p.d ≥ sizeOfStat
    · rw [if_pos hsize] at h
      cases h
      cases hm
      exact ⟨by rw [hfstat]; rfl, rfl, hsize⟩
    · rw [if_neg hsize] at h
      cases h
  rw [if_neg hfstat] at h
  by_cases hvfs : p.a = SYS_FSTATVFS
  · rw [if_pos hvfs] at h
    by_cases hsize : p.d ≥ sizeOfStatVfs
    · rw [if_pos hsize] at h
      cases h
      cases hm
      exact ⟨by rw [hvfs]; rfl, rfl, hsize⟩
    · rw [if_neg hsize] at h
      cases h
  rw [if_neg hvfs] at h
  by_cases hfsync : p.a = SYS_FSYNC
  · rw [if_pos hfsync] at h
    cases h
    cases hm
  rw [if_neg hfsync] at h
  by_cases hftruncate : p.a = SYS_FTRUNCATE
  · rw [if_pos hftruncate] at h
    cases h
    cases hm
  rw [if_neg hftruncate] at h
  by_cases hclose : p.a = SYS_CLOSE
  · rw [if_pos hclose] at h
    cases h
    cases hm
  rw [if_neg hclose] at h
  cases h

theorem Validated.sub {slice slice' : Slice} {flags : EntryFlags} (h : Validated m slice flags)
    (hptr : slice'.ptr = slice.ptr) (hlen : slice'.len ≤ slice.len) : Validated m slice' flags := by
  rcases h with h0 | ⟨hfit, hpages⟩
  · exact .inl (by omega)
  · refine .inr ⟨by omega, fun page hfirst hlast => ?_⟩
    rw [hptr] at hfirst hlast
    refine hpages page hfirst (hlast.trans (Nat.div_le_div_right ?_))
    omega

/-- The check of a range is the check of its pages, unless it goes past the last address. -/
theorem validated_iff {c d : Nat} {flags : EntryFlags} {slice : Slice} (hc : c < 2 ^ 64)
    (hd : d < 2 ^ 64) (h : validateSlice m 1 c d flags = .ok slice) :
    Validated m slice flags ↔ c + d ≤ 2 ^ 64 := by
  unfold validateSlice at h
  by_cases h0 : d = 0
  · rw [if_pos h0] at h
    cases h
    exact iff_of_true (.inl rfl) (by omega)
  · rw [if_neg h0, Nat.mul_one, Nat.mod_eq_of_lt hd] at h
    split at h
    · rename_i hv
      cases h
      constructor
      · rintro (hlen | ⟨hfit, -⟩)
        · exact (h0 hlen).elim
        · exact hfit
      · intro hfit
        refine .inr ⟨hfit, fun page hfirst hlast => ?_⟩
        have hpage := List.all_eq_true.mp hv page ((mem_pagesOf (by omega) hfit).mpr ⟨hfirst, hlast⟩)
        split at hpage
        · rename_i pageFlags hflags
          exact ⟨pageFlags, hflags, by simpa using hpage⟩
        · cases hpage
    · cases h

/-- A file operation is guarded if its range is, where it has one. -/
theorem fileOp_guarded_iff {a fd c d : Nat} (ha : a &&& SYS_CLASS = SYS_CLASS_FILE) :
    Guarded m (k.fileOp s a fd c d) ↔ ∀ file flags, k.opened s fd = .ok file →
      pointerFlags a = some flags → Validated m ⟨c, d⟩ flags := by
  unfold System.fileOp
  cases hf : k.opened s fd with
  | error e => exact iff_of_true ⟨nofun, nofun, nofun⟩ nofun
  | ok file =>
    obtain ⟨⟨pid, uid, gid⟩, scheme, number⟩ := file
    have hpointers : ∀ {rep : Report σ}, rep.packet = some ⟨0, pid, uid, gid, a, number, c, d⟩ →
        Guarded m rep → ∀ file flags, Except.ok (ε := Nat) ((pid, uid, gid), scheme, number) = .ok file →
          pointerFlags a = some flags → Validated m ⟨c, d⟩ flags := by
      intro rep hpacket hguarded file flags _ hflags
      exact hguarded.pointers _ flags hpacket hflags
    dsimp only
    cases hop : handle ⟨0, pid, uid, gid, a, number, c, d⟩ with
    | error e =>
      refine ⟨hpointers rfl, fun h => ⟨nofun, ?_, nofun⟩⟩
      rintro p flags heq hflags
      cases heq
      exact h _ flags rfl hflags
    | ok op =>
      refine ⟨hpointers rfl, fun h => ⟨nofun, ?_, ?_⟩⟩
      · rintro p flags heq hflags
        cases heq
        exact h _ flags rfl hflags
      · rintro op' mem heq hmem
        cases heq
        obtain ⟨hflags, hptr, hlen⟩ := handle_memory ha hop hmem
        exact (h _ _ rfl hflags).sub hptr hlen

theorem dup_op {fd : Nat} {buf : Slice} {file : (Nat × Nat × Nat) × Nat × Nat} (h : k.opened s fd = .ok file) :
    (k.dup s fd buf).op = some (.dup file.2.2 buf) := by
  obtain ⟨context, scheme, number⟩ := file
  unfold System.dup
  rw [h]
  dsimp only
  split
  · rfl
  · split
    · rfl
    · split <;> rfl

theorem dup_plain {fd : Nat} {buf : Slice} :
    (k.dup s fd buf).outcome ≠ .unreachable ∧ (k.dup s fd buf).packet = none := by
  unfold System.dup
  split
  · exact ⟨nofun, rfl⟩
  · dsimp only
    split
    · exact ⟨nofun, rfl⟩
    · split
      · exact ⟨nofun, rfl⟩
      · split <;> exact ⟨nofun, rfl⟩

/-- A `dup` is guarded if its slice is, where there is a scheme to give it to. -/
theorem dup_guarded_iff {fd : Nat} {buf : Slice} :
    Guarded m (k.dup s fd buf) ↔ ∀ file, k.opened s fd = .ok file → Validated m buf PRESENT := by
  constructor
  · intro h file hfile
    exact h.memory _ (buf, false) (dup_op hfile) rfl
  · intro h
    refine ⟨dup_plain.1, ?_, ?_⟩
    · intro p flags hp
      rw [dup_plain.2] at hp
      cases hp
    · intro op mem hop hmem
      cases hfile : k.opened s fd with
      | error e =>
        unfold System.dup at hop
        rw [hfile] at hop
        cases hop
      | ok file =>
        rw [dup_op hfile] at hop
        cases hop
        cases hmem
        exact h file hfile

/-- The dispatch goes to a handler, or fails. -/
def ToHandler (x : Except Nat Target) : Prop := ∀ t, x = .ok t → ∃ c, t = .call c

theorem toHandler_return (c : Call) : ToHandler (return .call c) := by
  rintro t h
  cases h
  exact ⟨c, rfl⟩

theorem toHandler_throw (e : Nat) : ToHandler (throw e) := nofun

theorem toHandler_bind {x : Except Nat Slice} {f : Slice → Except Nat Target}
    (h : ∀ slice, ToHandler (f slice)) : ToHandler (x >>= f) := by
  intro t ht
  cases x with
  | error e => cases ht
  | ok slice => exact h slice t ht

theorem toHandler_ite {P : Prop} [Decidable P] {x y : Except Nat Target} (hx : P → ToHandler x)
    (hy : ¬P → ToHandler y) : ToHandler (if P then x else y) := by
  by_cases h : P
  · rw [if_pos h]
    exact hx h
  · rw [if_neg h]
    exact hy h

theorem otherClass_toHandler (m : Mapper) (r : Registers) : ToHandler (otherClass m r) := by
  unfold otherClass
  repeat
    refine toHandler_ite (fun _ => ?_) fun _ => ?_
    · first
        | exact toHandler_return _
        | exact toHandler_bind fun _ => toHandler_return _
        | exact toHandler_bind fun _ => toHandler_bind fun _ => toHandler_return _
  exact toHandler_throw _

theorem pathClass_toHandler (h : ¬Unlisted r.a) (ha : r.a &&& SYS_CLASS = SYS_CLASS_PATH) :
    ToHandler (pathClass m r) := by
  unfold pathClass
  repeat
    refine toHandler_ite (fun _ => toHandler_bind fun _ => toHandler_return _) fun _ => ?_
  exact (h ⟨ha, by assumption, by assumption, by assumption, by assumption⟩).elim

/-- Without a slice, a call about a file that is no `dup` goes to a handler, or to the scheme as it is. -/
theorem fileClass_rest (hs : r.a &&& SYS_ARG ≠ SYS_ARG_SLICE) (hm : r.a &&& SYS_ARG ≠ SYS_ARG_MSLICE)
    (hdup : r.a ≠ SYS_DUP) :
    ToHandler (fileClass m r) ∨ fileClass m r = .ok (.fileOp r.a r.b r.c r.d) := by
  unfold fileClass
  rw [if_neg hs, if_neg hm]
  by_cases hclose : r.a = SYS_CLOSE
  · rw [if_pos hclose]
    exact .inl (toHandler_return _)
  rw [if_neg hclose, if_neg hdup]
  by_cases hfevent : r.a = SYS_FEVENT
  · rw [if_pos hfevent]
    exact .inl (toHandler_return _)
  rw [if_neg hfevent]
  by_cases hfunmap : r.a = SYS_FUNMAP
  · rw [if_pos hfunmap]
    exact .inl (toHandler_return _)
  rw [if_neg hfunmap]
  exact .inr rfl

theorem guarded_of_toHandler (h : ToHandler (inner (k.table s) r)) : Guarded m (k.syscall r s) := by
  unfold System.syscall
  cases hi : inner (k.table s) r with
  | error e => exact ⟨nofun, nofun, nofun⟩
  | ok t =>
    obtain ⟨c, rfl⟩ := h t hi
    dsimp only
    split
    · exact ⟨nofun, nofun, nofun⟩
    · exact ⟨nofun, nofun, nofun⟩

/-- A call that hands a slice on to a scheme is guarded unless the range is too long. -/
theorem slice_guarded_iff (flags : EntryFlags) (target : Slice → Target)
    (hslice : inner (k.table s) r = do
      let slice ← validateSlice (k.table s) 1 r.c r.d flags
      return target slice)
    (htarget : ∀ slice, inner (k.table s) r = .ok (target slice) →
      (Guarded (k.table s) (k.syscall r s) ↔ ∀ file flags', k.opened s r.b = .ok file →
        pointerFlags r.a = some flags' → Validated (k.table s) slice flags'))
    (hflags : ∀ flags', pointerFlags r.a = some flags' → flags' = flags) :
    Guarded (k.table s) (k.syscall r s) ↔ ¬Overlong k s r := by
  have hc : r.c < 2 ^ 64 := r.word r.c (by simp)
  have hd : r.d < 2 ^ 64 := r.word r.d (by simp)
  cases hv : validateSlice (k.table s) 1 r.c r.d flags with
  | error e =>
    rw [hv] at hslice
    refine iff_of_true (guarded_of_toHandler ?_) ?_
    · rw [hslice]
      exact nofun
    · rintro ⟨-, -, flags', hp, hvalid⟩
      cases hflags flags' hp
      unfold validateSlice at hv
      rw [Nat.mul_one, Nat.mod_eq_of_lt hd, hvalid] at hv
      split at hv
      · cases hv
      · cases hv
  | ok slice =>
    rw [hv] at hslice
    rw [htarget slice hslice]
    constructor
    · rintro h ⟨hlong, ⟨file, hfile⟩, flags', hpf, -⟩
      have hval := h file flags' hfile hpf
      cases hflags flags' hpf
      have := (validated_iff hc hd hv).mp hval
      omega
    · intro h file flags' hfile hpf
      cases hflags flags' hpf
      refine (validated_iff hc hd hv).mpr ?_
      by_contra hlong
      refine h ⟨by omega, ⟨file, hfile⟩, _, hpf, ?_⟩
      unfold validateSlice at hv
      rw [Nat.mul_one, Nat.mod_eq_of_lt hd] at hv
      split at hv
      · omega
      · split at hv
        · assumption
        · cases hv

theorem fileOp_slice_guarded_iff (ha : r.a &&& SYS_CLASS = SYS_CLASS_FILE) (slice : Slice)
    (h : inner (k.table s) r = .ok (.fileOp r.a r.b slice.ptr slice.len)) :
    Guarded (k.table s) (k.syscall r s) ↔ ∀ file flags, k.opened s r.b = .ok file →
      pointerFlags r.a = some flags → Validated (k.table s) slice flags := by
  have hrun : k.syscall r s = k.fileOp s r.a r.b slice.ptr slice.len := by
    unfold System.syscall
    rw [h]
  rw [hrun, fileOp_guarded_iff ha]

theorem dup_slice_guarded_iff (ha : r.a = SYS_DUP) (slice : Slice)
    (h : inner (k.table s) r = .ok (.dup r.b slice)) :
    Guarded (k.table s) (k.syscall r s) ↔ ∀ file flags, k.opened s r.b = .ok file →
      pointerFlags r.a = some flags → Validated (k.table s) slice flags := by
  have hrun : k.syscall r s = k.dup s r.b slice := by
    unfold System.syscall
    rw [h]
  rw [hrun, dup_guarded_iff, ha]
  constructor
  · intro h file flags hfile hflags
    cases hflags
    exact h file hfile
  · intro h file hfile
    exact h file _ hfile rfl

/-- A kernel with one context, one file, and an empty page table. -/
def bareSystem : System Unit where
  table _ := ⟨fun _ => none, []⟩
  current _ := some (1, 0, 0)
  file _ fd := if fd = 0 then some (0, 0) else none
  scheme _ _ := true
  serve _ _ s := (.ok 0, s)
  addFile _ _ s := (some 1, s)
  call _ s := (some (.ok 0), s)

/-- A read of nearly all memory from the second page on goes to the scheme without any check. -/
example : (bareSystem.syscall ⟨SYS_READ, 0, 4096, 2 ^ 64 - 4095, 0, 0, 0, by decide⟩ ()).packet =
    some ⟨0, 1, 0, 0, SYS_READ, 0, 4096, 2 ^ 64 - 4095⟩ := by
  decide

/-- A `dup` gives it to the scheme, too. -/
example : ((bareSystem.syscall ⟨SYS_DUP, 0, 4096, 2 ^ 64 - 4095, 0, 0, 0, by decide⟩ ()).op.bind
    SchemeOp.memory) = some (⟨4096, 2 ^ 64 - 4095⟩, false) := by
  decide

end Origel.Kernel.Syscall
