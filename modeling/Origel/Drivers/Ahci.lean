import Origel.Kernel.Seeks
import Origel.Lib.Run
import Origel.Lib.Splice
import Origel.Net.Socket

/-! The disks of an AHCI controller, and the scheme over them. -/
namespace Origel.Ahci

open Origel.Lib

inductive Errno where
  | EACCES
  | EBADF
  | EINVAL
  | EIO
  | ENOENT
  deriving DecidableEq, Repr

/-- A disk: its bytes, the size that it gives for itself, and the buffer that transfers go through. -/
structure Disk where
  bytes : List UInt8
  size : Nat
  buf : List UInt8
  whole : bytes.length % 512 = 0
  room : buf.length = 512 * 256

namespace Disk

variable (works : Nat → Bool)

/-- `ata_dma` of so many sectors at a block, from the disk to the buffer; none where its assertion
fails. -/
def ataDmaRead (d : Disk) (works : Bool) (block sectors : Nat) : Option (Except Errno Disk) :=
  if h : 0 < sectors ∧ sectors < 256 then
    if hdisk : works ∧ 512 * (block + sectors) ≤ d.bytes.length then
      some (.ok { d with
        buf := splice d.buf 0 ((d.bytes.drop (512 * block)).take (512 * sectors))
        room := by
          have hroom := d.room
          have hlength : ((d.bytes.drop (512 * block)).take (512 * sectors)).length ≤ 512 * sectors :=
            List.length_take_le _ _
          rw [splice_length (by omega), hroom] })
    else some (.error Errno.EIO)
  else none

/-- `ata_dma` from the buffer to the disk -/
def ataDmaWrite (d : Disk) (works : Bool) (block sectors : Nat) : Option (Except Errno Disk) :=
  if h : 0 < sectors ∧ sectors < 256 then
    if hdisk : works ∧ 512 * (block + sectors) ≤ d.bytes.length then
      some (.ok { d with
        bytes := splice d.bytes (512 * block) (d.buf.take (512 * sectors))
        whole := by
          have hroom := d.room
          have hlength : (d.buf.take (512 * sectors)).length ≤ 512 * sectors := List.length_take_le _ _
          rw [splice_length (by omega), d.whole] })
    else some (.error Errno.EIO)
  else none

/-- `ptr::copy` from the front of `src` to a place in `dst` -/
def copyTo (dst : List UInt8) (offset : Nat) (src : List UInt8) (count : Nat) : List UInt8 :=
  splice dst offset (src.take count)

/-- `ptr::copy` from a place in `src` to the front of the buffer -/
def fill (d : Disk) (src : List UInt8) (offset count : Nat) (h : count ≤ 512 * 256) : Disk :=
  { d with
    buf := splice d.buf 0 ((src.drop offset).take count)
    room := by
      have hroom := d.room
      have hlength : ((src.drop offset).take count).length ≤ count := List.length_take_le _ _
      rw [splice_length (by omega), hroom] }

/-- The loop of `Disk::read`, and what follows it: the count or an error, the disk and the buffer -/
def readFrom (block sectors sector : Nat) (d : Disk) (buffer : List UInt8) :
    Option (Except Errno Nat × Disk × List UInt8) :=
  if _h : 255 ≤ sectors - sector then
    match d.ataDmaRead (works sector) (block + sector) 255 with
    | none => none
    | some (.error err) => some (.error err, d, buffer)
    | some (.ok d) =>
      readFrom block sectors (sector + 255) d (copyTo buffer (512 * sector) d.buf (512 * 255))
  else if sector < sectors then
    match d.ataDmaRead (works sector) (block + sector) (sectors - sector) with
    | none => none
    | some (.error err) => some (.error err, d, buffer)
    | some (.ok d) =>
      some (.ok (512 * (sector + (sectors - sector))), d,
        copyTo buffer (512 * sector) d.buf (512 * (sectors - sector)))
  else some (.ok (512 * sector), d, buffer)
termination_by sectors - sector
decreasing_by omega

def read (d : Disk) (block : Nat) (buffer : List UInt8) : Option (Except Errno Nat × Disk × List UInt8) :=
  readFrom works block (buffer.length / 512) 0 d buffer

/-- The loop of `Disk::write`, and what follows it -/
def writeFrom (block sectors sector : Nat) (d : Disk) (buffer : List UInt8) :
    Option (Except Errno Nat × Disk) :=
  if _h : 255 ≤ sectors - sector then
    let d := d.fill buffer (512 * sector) (512 * 255) (by decide)
    match d.ataDmaWrite (works sector) (block + sector) 255 with
    | none => none
    | some (.error err) => some (.error err, d)
    | some (.ok d) => writeFrom block sectors (sector + 255) d buffer
  else if sector < sectors then
    let d := d.fill buffer (512 * sector) (512 * (sectors - sector)) (by omega)
    match d.ataDmaWrite (works sector) (block + sector) (sectors - sector) with
    | none => none
    | some (.error err) => some (.error err, d)
    | some (.ok d) => some (.ok (512 * (sector + (sectors - sector))), d)
  else some (.ok (512 * sector), d)
termination_by sectors - sector
decreasing_by omega

def write (d : Disk) (block : Nat) (buffer : List UInt8) : Option (Except Errno Nat × Disk) :=
  writeFrom works block (buffer.length / 512) 0 d buffer

end Disk

/-- A `DiskScheme`: a handle is one of the disks, and a position. -/
structure DiskScheme (disks : Nat) where
  disk : Fin disks → Disk
  handles : Nat → Option (Fin disks × Nat)
  nextId : Nat

inductive Call where
  | openDisk (path : List UInt8) (uid : Nat)
  | dup (id : Nat)
  | read (id : Nat) (buf : List UInt8) (works : Nat → Bool)
  | write (id : Nat) (buf : List UInt8) (works : Nat → Bool)
  | seek (id pos whence : Nat)
  | close (id : Nat)

/-- What a call returns, the state behind it, and the buffer of a read -/
structure Reply (disks : Nat) where
  value : Except Errno Nat
  scheme : DiskScheme disks
  buf : List UInt8 := []

namespace DiskScheme

variable {disks : Nat} (s : DiskScheme disks)

/-- `str::from_utf8` and `parse` of a path: what is not ASCII is no digit -/
def parsePath (path : List UInt8) : Option Nat :=
  Net.parseUnsigned (2 ^ 64) (path.map fun b => Char.ofNat b.toNat)

/-- A handle under a new number -/
def insert (handle : Fin disks × Nat) : Reply disks :=
  ⟨.ok s.nextId, { s with
    handles := Function.update s.handles s.nextId (some handle)
    nextId := (s.nextId + 1) % 2 ^ 64 }, []⟩

def fail (err : Errno) : Reply disks := ⟨.error err, s, []⟩

def openDisk (path : List UInt8) (uid : Nat) : Reply disks :=
  if uid = 0 then
    match parsePath path with
    | none => s.fail .ENOENT
    | some i => if h : i < disks then s.insert (⟨i, h⟩, 0) else s.fail .ENOENT
  else s.fail .EACCES

def dup (id : Nat) : Reply disks :=
  match s.handles id with
  | none => s.fail .EBADF
  | some handle => s.insert handle

def read (id : Nat) (buf : List UInt8) (works : Nat → Bool) : Option (Reply disks) :=
  match s.handles id with
  | none => some { s.fail .EBADF with buf }
  | some (i, pos) =>
    match (s.disk i).read works (pos / 512) buf with
    | none => none
    | some (.error err, d, buf) =>
      some ⟨.error err, { s with disk := Function.update s.disk i d }, buf⟩
    | some (.ok count, d, buf) =>
      some ⟨.ok count, { s with
        disk := Function.update s.disk i d
        handles := Function.update s.handles id (some (i, pos + count)) }, buf⟩

def write (id : Nat) (buf : List UInt8) (works : Nat → Bool) : Option (Reply disks) :=
  match s.handles id with
  | none => some (s.fail .EBADF)
  | some (i, pos) =>
    match (s.disk i).write works (pos / 512) buf with
    | none => none
    | some (.error err, d) => some ⟨.error err, { s with disk := Function.update s.disk i d }, []⟩
    | some (.ok count, d) =>
      some ⟨.ok count, { s with
        disk := Function.update s.disk i d
        handles := Function.update s.handles id (some (i, pos + count)) }, []⟩

def seek (id pos whence : Nat) : Reply disks :=
  match s.handles id with
  | none => s.fail .EBADF
  | some (i, position) =>
    match Kernel.Seeks.seekWithin (s.disk i).size position pos whence with
    | .error _ => s.fail .EINVAL
    | .ok position =>
      ⟨.ok position, { s with handles := Function.update s.handles id (some (i, position)) }, []⟩

def close (id : Nat) : Reply disks :=
  match s.handles id with
  | none => s.fail .EBADF
  | some _ => ⟨.ok 0, { s with handles := Function.update s.handles id none }, []⟩

def call : Call → Option (Reply disks)
  | .openDisk path uid => some (s.openDisk path uid)
  | .dup id => some (s.dup id)
  | .read id buf works => s.read id buf works
  | .write id buf works => s.write id buf works
  | .seek id pos whence => some (s.seek id pos whence)
  | .close id => some (s.close id)

/-- The state behind a call; a panic ends the scheme as it is. -/
def next (c : Call) : DiskScheme disks :=
  match s.call c with
  | none => s
  | some reply => reply.scheme

end DiskScheme

section Transfers

namespace Disk

variable {d d' : Disk} {works : Nat → Bool} {w : Bool} {block sectors sector n : Nat}
  {buffer : List UInt8}

theorem take_buf_length (d : Disk) (hn : n < 256) : (d.buf.take (512 * n)).length = 512 * n := by
  have hroom := d.room
  exact List.length_take_of_le (by omega)

theorem ataDmaRead_cases (d : Disk) (w : Bool) (block : Nat) (hn : 0 < n ∧ n < 256) :
    d.ataDmaRead w block n = some (.error Errno.EIO) ∨
      ∃ d', d.ataDmaRead w block n = some (.ok d') ∧ d'.bytes = d.bytes ∧
        512 * (block + n) ≤ d.bytes.length ∧
        d'.buf.take (512 * n) = (d.bytes.drop (512 * block)).take (512 * n) := by
  rw [ataDmaRead, dif_pos hn]
  by_cases hdisk : w ∧ 512 * (block + n) ≤ d.bytes.length
  · rw [dif_pos hdisk]
    refine .inr ⟨_, rfl, rfl, hdisk.2, ?_⟩
    have hroom := d.room
    have hlength : ((d.bytes.drop (512 * block)).take (512 * n)).length = 512 * n := by
      rw [List.length_take, List.length_drop]
      omega
    have htake := @take_splice _ d.buf ((d.bytes.drop (512 * block)).take (512 * n)) 0 (by omega)
    rw [hlength, Nat.zero_add] at htake
    exact htake
  · rw [dif_neg hdisk]
    exact .inl rfl

theorem ataDmaWrite_cases (d : Disk) (w : Bool) (block : Nat) (hn : 0 < n ∧ n < 256) :
    d.ataDmaWrite w block n = some (.error Errno.EIO) ∨
      ∃ d', d.ataDmaWrite w block n = some (.ok d') ∧ 512 * (block + n) ≤ d.bytes.length ∧
        d'.bytes = splice d.bytes (512 * block) (d.buf.take (512 * n)) := by
  rw [ataDmaWrite, dif_pos hn]
  by_cases hdisk : w ∧ 512 * (block + n) ≤ d.bytes.length
  · rw [dif_pos hdisk]
    exact .inr ⟨_, rfl, hdisk.2, rfl⟩
  · rw [dif_neg hdisk]
    exact .inl rfl

theorem fill_take (d : Disk) (hn : n < 256) (hbuffer : 512 * (sector + n) ≤ buffer.length) :
    (d.fill buffer (512 * sector) (512 * n) (by omega)).buf.take (512 * n) =
      (buffer.drop (512 * sector)).take (512 * n) := by
  have hroom := d.room
  have hlength : ((buffer.drop (512 * sector)).take (512 * n)).length = 512 * n := by
    rw [List.length_take, List.length_drop]
    omega
  have htake := @take_splice _ d.buf ((buffer.drop (512 * sector)).take (512 * n)) 0 (by omega)
  rw [hlength, Nat.zero_add] at htake
  exact htake

/-- The buffer up to a sector is what is on the disk from the block on. -/
def Filled (d : Disk) (block sector : Nat) (buffer : List UInt8) : Prop :=
  buffer.take (512 * sector) = (d.bytes.drop (512 * block)).take (512 * sector)

/-- A piece of a read goes on where the last one ended. -/
theorem Filled.copyTo (hfilled : Filled d block sector buffer) (hn : n < 256)
    (hbuffer : 512 * (sector + n) ≤ buffer.length)
    (hslice : d'.buf.take (512 * n) = (d.bytes.drop (512 * (block + sector))).take (512 * n)) :
    Filled d block (sector + n) (Disk.copyTo buffer (512 * sector) d'.buf (512 * n)) ∧
      (Disk.copyTo buffer (512 * sector) d'.buf (512 * n)).length = buffer.length := by
  have hlength := d'.take_buf_length hn
  constructor
  · have htake := @take_splice _ buffer (d'.buf.take (512 * n)) (512 * sector) (by omega)
    rw [hlength, hfilled] at htake
    have happend := take_drop_append d.bytes (512 * block) (512 * sector) (512 * n)
    rw [← Nat.mul_add 512 block sector, ← Nat.mul_add 512 sector n] at happend
    rw [Filled, happend, ← hslice, ← htake, Nat.mul_add]
    rfl
  · exact splice_length (by omega)

/-- The disk `d` is `d₀` with the sectors from the block on replaced by the front of the buffer. -/
def Written (d₀ : Disk) (block sector : Nat) (buffer : List UInt8) (d : Disk) : Prop :=
  d.bytes = splice d₀.bytes (512 * block) (buffer.take (512 * sector))

/-- A piece of a write goes on where the last one ended. -/
theorem Written.fill {d₀ : Disk} (hwritten : Written d₀ block sector buffer d) (hn : n < 256)
    (hbuffer : 512 * (sector + n) ≤ buffer.length)
    (hrange : sector = 0 ∨ 512 * (block + sector) ≤ d₀.bytes.length)
    (hin : 512 * (block + sector + n) ≤ d.bytes.length)
    (hbytes : d'.bytes = splice d.bytes (512 * (block + sector))
      ((d.fill buffer (512 * sector) (512 * n) (by omega)).buf.take (512 * n))) :
    Written d₀ block (sector + n) buffer d' ∧ 512 * (block + (sector + n)) ≤ d₀.bytes.length := by
  have hfront : (buffer.take (512 * sector)).length = 512 * sector :=
    List.length_take_of_le (Nat.le_trans (Nat.mul_le_mul_left 512 (Nat.le_add_right sector n)) hbuffer)
  have hlength : d.bytes.length = d₀.bytes.length := by
    rw [hwritten]
    rcases hrange with rfl | hrange
    · rw [Nat.mul_zero, List.take_zero, splice_nil]
    · rw [splice_length (by rwa [hfront, ← Nat.mul_add])]
  rw [hlength] at hin
  refine ⟨?_, by rwa [← Nat.add_assoc]⟩
  have hback : ((buffer.drop (512 * sector)).take (512 * n)).length = 512 * n := by
    rw [List.length_take, List.length_drop]
    omega
  have hplace : 512 * (block + sector) = 512 * block + (buffer.take (512 * sector)).length := by
    rw [hfront, Nat.mul_add]
  rw [Written, hbytes, fill_take d hn hbuffer, hwritten, hplace,
    splice_splice (by rw [hfront, hback, ← Nat.mul_add, ← Nat.mul_add]; exact hin), ← List.take_add,
    ← Nat.mul_add]

/-- What a read comes to: it does not panic, the disk stays, and if it succeeds all whole sectors of the
buffer are filled. -/
theorem readFrom_spec (hsector : sector ≤ sectors) (hbuffer : 512 * sectors ≤ buffer.length)
    (hfilled : Filled d block sector buffer)
    (hrange : sector = 0 ∨ 512 * (block + sector) ≤ d.bytes.length) :
    ∃ r d' buffer', readFrom works block sectors sector d buffer = some (r, d', buffer') ∧
      d'.bytes = d.bytes ∧ ∀ count, r = .ok count → count = 512 * sectors ∧
        Filled d block sectors buffer' ∧ (sectors = 0 ∨ 512 * (block + sectors) ≤ d.bytes.length) := by
  induction hleft : sectors - sector using Nat.strongRecOn generalizing sector d buffer with
  | _ left ih =>
    subst hleft
    rw [readFrom]
    by_cases hfull : 255 ≤ sectors - sector
    · rw [dif_pos hfull]
      rcases d.ataDmaRead_cases (works sector) (block + sector) (n := 255) (by decide) with
        hdma | ⟨d₁, hdma, hbytes, hin, hslice⟩
      · rw [hdma]
        exact ⟨_, _, _, rfl, rfl, fun count h => by cases h⟩
      · have hle : sector + 255 ≤ sectors := by omega
        obtain ⟨hnext, hlength⟩ := hfilled.copyTo (n := 255) (by decide)
          (Nat.le_trans (Nat.mul_le_mul_left 512 hle) hbuffer) hslice
        have hnext' : Filled d₁ block (sector + 255)
            (Disk.copyTo buffer (512 * sector) d₁.buf (512 * 255)) := by rwa [Filled, hbytes]
        obtain ⟨r, d', buffer', hread, hsame, hok⟩ := ih (sectors - (sector + 255)) (by omega)
          hle (by rw [hlength]; exact hbuffer) hnext' (.inr (by rw [hbytes, ← Nat.add_assoc]; exact hin)) rfl
        rw [hdma]
        refine ⟨r, d', buffer', hread, hsame.trans hbytes, ?_⟩
        rwa [Filled, hbytes] at hok
    · rw [dif_neg hfull]
      by_cases htail : sector < sectors
      · rw [if_pos htail]
        rcases d.ataDmaRead_cases (works sector) (block + sector) (n := sectors - sector)
          (by omega) with hdma | ⟨d₁, hdma, hbytes, hin, hslice⟩
        · rw [hdma]
          exact ⟨_, _, _, rfl, rfl, fun count h => by cases h⟩
        · have hend : sector + (sectors - sector) = sectors := by omega
          obtain ⟨hnext, -⟩ := hfilled.copyTo (n := sectors - sector) (by omega) (by omega) hslice
          rw [hend] at hnext
          rw [hdma]
          refine ⟨_, d₁, _, rfl, hbytes, fun count h => ⟨?_, hnext, .inr (by omega)⟩⟩
          cases h
          rw [hend]
      · obtain rfl : sector = sectors := by omega
        rw [if_neg htail]
        refine ⟨_, d, buffer, rfl, rfl, fun count h => ⟨?_, hfilled, hrange⟩⟩
        cases h
        rfl

/-- What a write comes to: it does not panic, and if it succeeds all whole sectors of the buffer are on
the disk. -/
theorem writeFrom_spec {d₀ : Disk} (hsector : sector ≤ sectors) (hbuffer : 512 * sectors ≤ buffer.length)
    (hwritten : Written d₀ block sector buffer d)
    (hrange : sector = 0 ∨ 512 * (block + sector) ≤ d₀.bytes.length) :
    ∃ r d', writeFrom works block sectors sector d buffer = some (r, d') ∧
      ∀ count, r = .ok count → count = 512 * sectors ∧
        Written d₀ block sectors buffer d' ∧
        (sectors = 0 ∨ 512 * (block + sectors) ≤ d₀.bytes.length) := by
  induction hleft : sectors - sector using Nat.strongRecOn generalizing sector d with
  | _ left ih =>
    subst hleft
    rw [writeFrom]
    by_cases hfull : 255 ≤ sectors - sector
    · rw [dif_pos hfull]
      have hle : sector + 255 ≤ sectors := by omega
      have hpiece := Nat.le_trans (Nat.mul_le_mul_left 512 hle) hbuffer
      simp only
      rcases ataDmaWrite_cases (d.fill buffer (512 * sector) (512 * 255) (by decide)) (works sector)
        (block + sector) (n := 255) (by decide) with hdma | ⟨d₁, hdma, hin, hbytes⟩
      · rw [hdma]
        exact ⟨_, _, rfl, fun count h => by cases h⟩
      · rw [hdma]
        have hnext := hwritten.fill (n := 255) (by decide) hpiece hrange hin hbytes
        exact ih (sectors - (sector + 255)) (by omega) hle hnext.1 (.inr hnext.2) rfl
    · rw [dif_neg hfull]
      by_cases htail : sector < sectors
      · rw [if_pos htail]
        have hend : sector + (sectors - sector) = sectors := by omega
        have hpiece : 512 * (sector + (sectors - sector)) ≤ buffer.length := by rwa [hend]
        simp only
        rcases ataDmaWrite_cases (d.fill buffer (512 * sector) (512 * (sectors - sector)) (by omega))
          (works sector) (block + sector) (n := sectors - sector) (by omega) with
          hdma | ⟨d₁, hdma, hin, hbytes⟩
        · rw [hdma]
          exact ⟨_, _, rfl, fun count h => by cases h⟩
        · rw [hdma]
          have hnext := hwritten.fill (n := sectors - sector) (by omega) hpiece hrange hin hbytes
          rw [hend] at hnext
          refine ⟨_, d₁, rfl, fun count h => ⟨?_, hnext.1, .inr hnext.2⟩⟩
          cases h
          rw [hend]
      · obtain rfl : sector = sectors := by omega
        rw [if_neg htail]
        refine ⟨_, d, rfl, fun count h => ⟨?_, hwritten, hrange⟩⟩
        cases h
        rfl

theorem read_spec (d : Disk) (works : Nat → Bool) (block : Nat) (buffer : List UInt8) :
    ∃ r d' buffer', d.read works block buffer = some (r, d', buffer') ∧ d'.bytes = d.bytes ∧
      ∀ count, r = .ok count → count = 512 * (buffer.length / 512) ∧
        buffer'.take count = (d.bytes.drop (512 * block)).take count ∧
        (count = 0 ∨ 512 * block + count ≤ d.bytes.length) := by
  obtain ⟨r, d', buffer', hread, hbytes, hok⟩ := @readFrom_spec d works block (buffer.length / 512) 0
    buffer (Nat.zero_le _) (Nat.mul_div_le _ _) rfl (.inl rfl)
  refine ⟨r, d', buffer', hread, hbytes, fun count hr => ?_⟩
  obtain ⟨rfl, hfilled, hrange⟩ := hok count hr
  exact ⟨rfl, hfilled, hrange.imp (fun h => by rw [h]) fun h => by rwa [Nat.mul_add] at h⟩

theorem write_spec (d : Disk) (works : Nat → Bool) (block : Nat) (buffer : List UInt8) :
    ∃ r d', d.write works block buffer = some (r, d') ∧
      ∀ count, r = .ok count → count = 512 * (buffer.length / 512) ∧
        d'.bytes = splice d.bytes (512 * block) (buffer.take count) ∧
        (count = 0 ∨ 512 * block + count ≤ d.bytes.length) := by
  have hstart : Written d block 0 buffer d := by
    rw [Written, Nat.mul_zero, List.take_zero, splice_nil]
  obtain ⟨r, d', hwrite, hok⟩ := @writeFrom_spec d works block (buffer.length / 512) 0
    buffer d (Nat.zero_le _) (Nat.mul_div_le _ _) hstart (.inl rfl)
  refine ⟨r, d', hwrite, fun count hr => ?_⟩
  obtain ⟨rfl, hwritten, hrange⟩ := hok count hr
  exact ⟨rfl, hwritten, hrange.imp (fun h => by rw [h]) fun h => by rwa [Nat.mul_add] at h⟩

end Disk

end Transfers

namespace DiskScheme

variable {disks : Nat} (s : DiskScheme disks)

/-- A call does not panic; if it reads or writes it moves no position but that of its handle, by the
count that it returns, and otherwise no disk changes. -/
def Advances (c : Call) : Prop :=
  ∃ reply, s.call c = some reply ∧
    match c with
    | .read id _ _ | .write id _ _ =>
      match reply.value with
      | .ok n => ∃ i pos, s.handles id = some (i, pos) ∧
          reply.scheme.handles = Function.update s.handles id (some (i, pos + n))
      | .error _ => reply.scheme.handles = s.handles
    | _ => reply.scheme.disk = s.disk

/-- A read gives what is on the disk at the position, a write changes just that, and both go on while
there is something. -/
def Transfers (c : Call) : Prop :=
  ∀ reply n, s.call c = some reply → reply.value = .ok n →
    match c with
    | .read id buf _ => ∀ i pos, s.handles id = some (i, pos) →
        n ≤ buf.length ∧ (n = 0 ∨ pos + n ≤ (s.disk i).bytes.length) ∧
        reply.buf.take n = ((s.disk i).bytes.drop pos).take n ∧
        (∀ j, (reply.scheme.disk j).bytes = (s.disk j).bytes) ∧
        (buf ≠ [] → pos < (s.disk i).bytes.length → n ≠ 0)
    | .write id buf _ => ∀ i pos, s.handles id = some (i, pos) →
        n ≤ buf.length ∧ (n = 0 ∨ pos + n ≤ (s.disk i).bytes.length) ∧
        (reply.scheme.disk i).bytes = splice (s.disk i).bytes pos (buf.take n) ∧
        (∀ j, j ≠ i → (reply.scheme.disk j).bytes = (s.disk j).bytes) ∧
        (buf ≠ [] → pos < (s.disk i).bytes.length → n ≠ 0)
    | _ => True

/-- The buffer has a whole sector, and the position is that of a sector; or there is nothing to do. -/
def WholeSectors (buf : List UInt8) (pos length : Nat) : Prop :=
  if 512 ≤ buf.length then pos % 512 = 0 else buf = [] ∨ length ≤ pos

def Aligned : Call → Prop
  | .read id buf _ | .write id buf _ =>
    ∀ i pos, s.handles id = some (i, pos) → WholeSectors buf pos (s.disk i).bytes.length
  | _ => True

end DiskScheme

section Scheme

open DiskScheme

variable {disks : Nat} {s : DiskScheme disks}

/-- Whole sectors at the position of one: what is counted in sectors is counted in bytes. -/
theorem place_of_whole {buf : List UInt8} {pos length n : Nat} (h : WholeSectors buf pos length)
    (hn : n = 512 * (buf.length / 512)) :
    (n = 0 ∨ 512 * (pos / 512) = pos) ∧ n ≤ buf.length ∧ (buf ≠ [] → pos < length → n ≠ 0) := by
  rw [WholeSectors] at h
  split at h
  · exact ⟨by omega, by omega, by omega⟩
  · refine ⟨by omega, by omega, fun hbuf hpos => ?_⟩
    rcases h with h | h
    · exact absurd h hbuf
    · omega

theorem call_advances (s : DiskScheme disks) (c : Call) : s.Advances c := by
  cases c with
  | openDisk path uid =>
    refine ⟨_, rfl, ?_⟩
    simp only [openDisk]
    split
    · split
      · rfl
      · split <;> rfl
    · rfl
  | dup id =>
    refine ⟨_, rfl, ?_⟩
    simp only [dup]
    split <;> rfl
  | seek id pos whence =>
    refine ⟨_, rfl, ?_⟩
    simp only [DiskScheme.seek]
    split
    · rfl
    · split <;> rfl
  | close id =>
    refine ⟨_, rfl, ?_⟩
    simp only [close]
    split <;> rfl
  | read id buf works =>
    rw [Advances, call, DiskScheme.read]
    cases hid : s.handles id with
    | none => exact ⟨_, rfl, rfl⟩
    | some handle =>
      obtain ⟨i, pos⟩ := handle
      obtain ⟨r, d', buffer', hread, -, -⟩ := (s.disk i).read_spec works (pos / 512) buf
      simp only [hread]
      cases r with
      | error err => exact ⟨_, rfl, rfl⟩
      | ok count => exact ⟨_, rfl, i, pos, hid, rfl⟩
  | write id buf works =>
    rw [Advances, call, DiskScheme.write]
    cases hid : s.handles id with
    | none => exact ⟨_, rfl, rfl⟩
    | some handle =>
      obtain ⟨i, pos⟩ := handle
      obtain ⟨r, d', hwrite, -⟩ := (s.disk i).write_spec works (pos / 512) buf
      simp only [hwrite]
      cases r with
      | error err => exact ⟨_, rfl, rfl⟩
      | ok count => exact ⟨_, rfl, i, pos, hid, rfl⟩

theorem transfers_of_aligned (c : Call) (h : s.Aligned c) : s.Transfers c := by
  rintro reply n hcall hn
  cases c with
  | read id buf works =>
    intro i pos hid
    have hwhole : WholeSectors buf pos (s.disk i).bytes.length := h i pos hid
    obtain ⟨r, d', buffer', hread, hbytes, hok⟩ := (s.disk i).read_spec works (pos / 512) buf
    simp only [call, DiskScheme.read, hid, hread] at hcall
    cases r with
    | error err =>
      cases hcall
      cases hn
    | ok count =>
      cases hcall
      cases hn
      obtain ⟨hcount, hdata, hrange⟩ := hok n rfl
      obtain ⟨hplace, hle, hmore⟩ := place_of_whole hwhole hcount
      refine ⟨hle, ?_, ?_, fun j => ?_, hmore⟩
      · rcases hplace with hzero | hplace
        · exact .inl hzero
        · rwa [hplace] at hrange
      · rcases hplace with rfl | hplace
        · rfl
        · rwa [hplace] at hdata
      · by_cases hj : j = i
        · subst hj
          exact (congrArg Disk.bytes (Function.update_self j d' s.disk)).trans hbytes
        · exact congrArg Disk.bytes (Function.update_of_ne hj d' s.disk)
  | write id buf works =>
    intro i pos hid
    have hwhole : WholeSectors buf pos (s.disk i).bytes.length := h i pos hid
    obtain ⟨r, d', hwrite, hok⟩ := (s.disk i).write_spec works (pos / 512) buf
    simp only [call, DiskScheme.write, hid, hwrite] at hcall
    cases r with
    | error err =>
      cases hcall
      cases hn
    | ok count =>
      cases hcall
      cases hn
      obtain ⟨hcount, hdata, hrange⟩ := hok n rfl
      obtain ⟨hplace, hle, hmore⟩ := place_of_whole hwhole hcount
      refine ⟨hle, ?_, ?_, fun j hj => ?_, hmore⟩
      · rcases hplace with hzero | hplace
        · exact .inl hzero
        · rwa [hplace] at hrange
      · apply (congrArg Disk.bytes (Function.update_self i d' s.disk)).trans
        rw [hdata]
        rcases hplace with rfl | hplace
        · rw [List.take_zero, splice_nil, splice_nil]
        · rw [hplace]
      · exact congrArg Disk.bytes (Function.update_of_ne hj d' s.disk)
  | _ => trivial

/-- In every run no call panics and reads and writes advance only their own position by what they
return; what they return is what they have transferred, as long as whole sectors are read and written. -/
theorem disk_is_bytes (s : DiskScheme disks) (calls : List Call) :
    Each DiskScheme.next DiskScheme.Advances s calls ∧
      (Each DiskScheme.next DiskScheme.Aligned s calls →
        Each DiskScheme.next DiskScheme.Transfers s calls) := by
  constructor
  · exact each_of_step (I := fun _ => True) (fun _ _ _ => trivial) (fun s c _ => call_advances s c) trivial
  · exact each_of_each (I := fun _ => True) (fun _ _ _ _ => trivial)
      (fun s c _ h => transfers_of_aligned c h) trivial

end Scheme

/-- A disk of one sector -/
def oneSector : Disk where
  bytes := List.replicate 512 7
  size := 512
  buf := List.replicate (512 * 256) 0
  whole := by rw [List.length_replicate]
  room := List.length_replicate

def oneSectorScheme : DiskScheme 1 := ⟨fun _ => oneSector, fun _ => some (0, 0), 1⟩

theorem disk_is_bytes_sector :
    Each DiskScheme.next DiskScheme.Transfers oneSectorScheme
      [.read 0 (List.replicate 512 0) fun _ => true] := by
  refine (disk_is_bytes oneSectorScheme _).2 ⟨?_, trivial⟩
  rintro i pos ⟨⟩
  rw [DiskScheme.WholeSectors, if_pos (Nat.le_of_eq List.length_replicate.symm)]

/-- A byte is asked for, and none is read. -/
theorem short_buffer_reads_nothing :
    ¬∀ (s : DiskScheme 1) (calls : List Call), Each DiskScheme.next DiskScheme.Transfers s calls := by
  intro h
  have htransfers := (h oneSectorScheme [.read 0 [0] fun _ => true]).1
  have hread : oneSectorScheme.call (.read 0 [0] fun _ => true) =
      some ⟨.ok 0, { oneSectorScheme with
        disk := Function.update oneSectorScheme.disk 0 oneSector
        handles := Function.update oneSectorScheme.handles 0 (some (0, 0)) }, [0]⟩ := by
    simp [DiskScheme.call, DiskScheme.read, oneSectorScheme, Disk.read, Disk.readFrom]
  have hmore := (htransfers _ 0 hread rfl 0 0 rfl).2.2.2.2
  have hlength : oneSector.bytes.length = 512 := List.length_replicate
  exact hmore (by decide) (Nat.lt_of_lt_of_eq (by decide) hlength.symm) rfl

end Origel.Ahci
