import Origel.Lib.Lru
import Origel.RedoxFs.Node

/-! The write-through block cache in front of a disk that may fail at any call. -/
namespace Origel.RedoxFs

open Origel.Lib

/-- The trait `Disk`: a transfer ends with the bytes read, or the count written, or an error. -/
class DiskTrait (T : Type) where
  readAt : T → Nat → Nat → Except Errno (List UInt8) × T
  writeAt : T → Nat → List UInt8 → Except Errno Nat × T

/-- A call that succeeds transfers the whole buffer. -/
structure Transfers (T : Type) [DiskTrait T] (bytes : T → Nat → UInt8) : Prop where
  readOk : ∀ {t block n xs t'}, DiskTrait.readAt t block n = (.ok xs, t') →
    xs = load (bytes t) (512 * block) n ∧ bytes t' = bytes t
  writeOk : ∀ {t block buffer k t'}, DiskTrait.writeAt t block buffer = (.ok k, t') →
    k = buffer.length ∧ bytes t' = store (bytes t) (512 * block) buffer

/-- A call that fails leaves the bytes as they are. -/
structure FailsCleanly (T : Type) [DiskTrait T] (bytes : T → Nat → UInt8) : Prop where
  readError : ∀ {t : T} {block n e t'}, DiskTrait.readAt t block n = (.error e, t') →
    bytes t' = bytes t
  writeError : ∀ {t : T} {block buffer e t'}, DiskTrait.writeAt t block buffer = (.error e, t') →
    bytes t' = bytes t

structure Cache (T : Type) where
  inner : T
  cache : LruCache Nat (List UInt8)

namespace Cache

variable {T : Type}

def new (inner : T) (capacity : Nat) : Cache T := ⟨inner, LruCache.new capacity⟩

/-- `buffer[512 * i .. min(512 * i + 512, len)]` -/
def slice (buffer : List UInt8) (i : Nat) : List UInt8 := (buffer.drop (512 * i)).take 512

/-- The first loop of `read_at`: the cached blocks are copied until one is missing. -/
def copyCached (block : Nat) : List Nat → LruCache Nat (List UInt8) → List UInt8 → Nat →
    Bool × LruCache Nat (List UInt8) × List UInt8 × Nat
  | [], cache, buffer, count => (false, cache, buffer, count)
  | i :: is, cache, buffer, count =>
    match cache.getMut (block + i) with
    | (some cacheBuf, cache) =>
      let copied := cacheBuf.take (slice buffer i).length
      copyCached block is cache (overlay buffer (512 * i) copied) (count + copied.length)
    | (none, cache) => (true, cache, buffer, count)

/-- The loop that files a buffer's blocks, each padded to a whole sector. -/
def fileBlocks (block : Nat) (buffer : List UInt8) : List Nat → LruCache Nat (List UInt8) → Nat →
    LruCache Nat (List UInt8) × Nat
  | [], cache, count => (cache, count)
  | i :: is, cache, count =>
    let s := slice buffer i
    fileBlocks block buffer is (cache.insert (block + i) (s ++ List.replicate (512 - s.length) 0))
      (count + s.length)

def blockIndices (buffer : List UInt8) : List Nat := List.range ((buffer.length + 511) / 512)

variable [DiskTrait T]

/-- The buffer after the call and the count returned. -/
def readAt (c : Cache T) (block : Nat) (buffer : List UInt8) :
    Except Errno (List UInt8 × Nat) × Cache T :=
  match copyCached block (blockIndices buffer) c.cache buffer 0 with
  | (false, cache, buffer, count) => (.ok (buffer, count), { c with cache := cache })
  | (true, cache, buffer, _) =>
    match DiskTrait.readAt c.inner block buffer.length with
    | (.error e, inner) => (.error e, ⟨inner, cache⟩)
    | (.ok buffer, inner) =>
      let filed := fileBlocks block buffer (blockIndices buffer) cache 0
      (.ok (buffer, filed.2), ⟨inner, filed.1⟩)

def writeAt (c : Cache T) (block : Nat) (buffer : List UInt8) : Except Errno Nat × Cache T :=
  match DiskTrait.writeAt c.inner block buffer with
  | (.error e, inner) => (.error e, { c with inner := inner })
  | (.ok _, inner) =>
    let filed := fileBlocks block buffer (blockIndices buffer) c.cache 0
    (.ok filed.2, ⟨inner, filed.1⟩)

/-- Every cached block is the block on the disk. -/
def Coherent (bytes : T → Nat → UInt8) (c : Cache T) : Prop :=
  ∀ p ∈ c.cache.map, p.2 = load (bytes c.inner) (512 * p.1) 512

/-- The bytes a block shows: the cached ones, else those of the disk. -/
def visible (bytes : T → Nat → UInt8) (c : Cache T) (block : Nat) : List UInt8 :=
  ((c.cache.getMut block).1).getD (load (bytes c.inner) (512 * block) 512)

theorem slice_of_aligned {buffer : List UInt8} {i : Nat} (h : 512 * (i + 1) ≤ buffer.length) :
    (slice buffer i).length = 512 := by
  simp [slice]
  omega

theorem mem_blockIndices {buffer : List UInt8} {i : Nat} (ha : 512 ∣ buffer.length)
    (h : i ∈ blockIndices buffer) : 512 * (i + 1) ≤ buffer.length := by
  simp only [blockIndices, List.mem_range] at h
  omega

/-- Blocks cut from a whole number of sectors are filed unpadded. -/
theorem fileBlocks_count {block : Nat} {buffer : List UInt8} {is : List Nat}
    {cache : LruCache Nat (List UInt8)} {count : Nat}
    (h : ∀ i ∈ is, 512 * (i + 1) ≤ buffer.length) :
    (fileBlocks block buffer is cache count).2 = count + 512 * is.length := by
  induction is generalizing cache count with
  | nil => simp [fileBlocks]
  | cons i is ih =>
    have hs := slice_of_aligned (h i (by simp))
    rw [fileBlocks, ih fun j hj => h j (by simp [hj]), hs, List.length_cons]
    omega

/-- Filing replaces the entries of the blocks filed and keeps or forgets the others. -/
theorem mem_fileBlocks {block : Nat} {buffer : List UInt8} {is : List Nat}
    {cache : LruCache Nat (List UInt8)} {count : Nat} {p : Nat × List UInt8}
    (h : ∀ i ∈ is, 512 * (i + 1) ≤ buffer.length)
    (hp : p ∈ (fileBlocks block buffer is cache count).1.map) :
    (∃ i ∈ is, p = (block + i, slice buffer i)) ∨ p ∈ cache.map ∧ ∀ i ∈ is, p.1 ≠ block + i := by
  induction is generalizing cache count with
  | nil => exact Or.inr ⟨hp, by simp⟩
  | cons i is ih =>
    have hs := slice_of_aligned (h i (by simp))
    rcases ih (fun j hj => h j (by simp [hj])) hp with ⟨j, hj, rfl⟩ | ⟨hc, hne⟩
    · exact Or.inl ⟨j, by simp [hj], rfl⟩
    · rcases LruCache.mem_insert hc with rfl | ⟨hc, hk⟩
      · exact Or.inl ⟨i, by simp, by simp [hs]⟩
      · exact Or.inr ⟨hc, by simpa using ⟨hk, hne⟩⟩

theorem slice_load {m : Nat → UInt8} {block n i : Nat} (h : 512 * (i + 1) ≤ n) :
    slice (load m (512 * block) n) i = load m (512 * (block + i)) 512 := by
  obtain ⟨k, rfl⟩ : ∃ k, n = 512 * i + (512 + k) := ⟨n - 512 * (i + 1), by omega⟩
  rw [slice, load_add, List.drop_left' (by simp), load_add, List.take_left' (by simp),
    Nat.mul_add]

/-- Filing what the disk holds keeps the cache coherent with it. -/
theorem coherent_fileBlocks {m m' : Nat → UInt8} {block : Nat} {buffer : List UInt8}
    {cache : LruCache Nat (List UInt8)} {count : Nat} (ha : 512 ∣ buffer.length)
    (hb : buffer = load m' (512 * block) buffer.length)
    (hm : ∀ x, x < 512 * block ∨ 512 * block + buffer.length ≤ x → m' x = m x)
    (hc : ∀ p ∈ cache.map, p.2 = load m (512 * p.1) 512) :
    ∀ p ∈ (fileBlocks block buffer (blockIndices buffer) cache count).1.map,
      p.2 = load m' (512 * p.1) 512 := by
  intro p hp
  rcases mem_fileBlocks (fun i hi => mem_blockIndices ha hi) hp with ⟨i, hi, rfl⟩ | ⟨hp, hne⟩
  · have h := mem_blockIndices ha hi
    conv_lhs => rw [hb]
    exact slice_load (by simpa using h)
  · rw [hc p hp]
    apply List.map_congr_left
    intro x hx
    obtain ⟨j, hj, rfl⟩ := List.mem_range'.mp hx
    refine (hm _ ?_).symm
    by_contra hin
    refine hne (p.1 - block) ?_ ?_
    · rw [blockIndices, List.mem_range]
      omega
    · omega

/-- The loop over cached blocks leaves coherent entries, and when it reaches its end the buffer
holds the disk's bytes. -/
theorem copyCached_spec {m : Nat → UInt8} {block : Nat} {cache : LruCache Nat (List UInt8)}
    (hc : ∀ p ∈ cache.map, p.2 = load m (512 * p.1) 512) {k i : Nat} {buffer : List UInt8}
    {failed : Bool} {cache' : LruCache Nat (List UInt8)} {buffer' : List UInt8} {count' : Nat}
    (hlen : buffer.length = 512 * (i + k))
    (hpre : buffer.take (512 * i) = load m (512 * block) (512 * i))
    (h : copyCached block (List.range' i k) cache buffer (512 * i) =
      (failed, cache', buffer', count')) :
    (∀ p ∈ cache'.map, p.2 = load m (512 * p.1) 512) ∧ buffer'.length = buffer.length ∧
      (failed = false → buffer' = load m (512 * block) buffer.length ∧ count' = buffer.length) := by
  induction k generalizing i cache buffer with
  | zero =>
    simp only [List.range'_zero, copyCached, Prod.mk.injEq] at h
    obtain ⟨_, rfl, rfl, rfl⟩ := h
    refine ⟨hc, rfl, fun _ => ⟨?_, by omega⟩⟩
    rw [← List.take_of_length_le (by omega : buffer.length ≤ 512 * i), hpre]
    congr 1
    simp
  | succ k ih =>
    simp only [List.range'_succ, copyCached] at h
    split at h
    · rename_i v c₁ hget
      have hv : v = load m (512 * (block + i)) 512 := by
        have hmem : (block + i, v) ∈ cache.map := LruCache.getMut_some (by rw [hget])
        exact hc _ hmem
      have hs : (slice buffer i).length = 512 := slice_of_aligned (by omega)
      have hvt : v.take (slice buffer i).length = v := by
        rw [hs, List.take_of_length_le (by simp [hv])]
      have hvl : v.length = 512 := by simp [hv]
      have hol : (overlay buffer (512 * i) v).length = buffer.length := by
        simp [overlay, hvl]
        omega
      rw [hvt, hvl, show 512 * i + 512 = 512 * (i + 1) by omega] at h
      have hc₁ : ∀ p ∈ c₁.map, p.2 = load m (512 * p.1) 512 := by
        intro p hp
        exact hc p (LruCache.mem_getMut (by rw [hget]; exact hp))
      have hpre₁ : (overlay buffer (512 * i) v).take (512 * (i + 1)) =
          load m (512 * block) (512 * (i + 1)) := by
        rw [overlay, hpre, List.take_append_of_le_length (by simp [hvl]; omega),
          List.take_of_length_le (by simp [hvl]; omega), hv, Nat.mul_add 512 i 1, Nat.mul_one,
          load_add, Nat.mul_add]
      obtain ⟨h1, h2, h3⟩ := ih hc₁ (by omega) hpre₁ h
      exact ⟨h1, by omega, fun hf => by rw [← hol]; exact h3 hf⟩
    · rename_i c₁ hget
      simp only [Prod.mk.injEq] at h
      obtain ⟨rfl, rfl, rfl, rfl⟩ := h
      refine ⟨?_, rfl, by simp⟩
      intro p hp
      exact hc p (LruCache.mem_getMut (by rw [hget]; exact hp))

variable {bytes : T → Nat → UInt8} {c c' : Cache T} {block : Nat} {buffer : List UInt8}

theorem blockIndices_eq (k : Nat) (h : buffer.length = 512 * k) :
    blockIndices buffer = List.range' 0 k := by
  rw [blockIndices, h, List.range_eq_range']
  congr 1
  omega

/-- A cached read that succeeds returns the disk's bytes; none changes, and the cache stays
coherent. -/
theorem readAt_spec (ht : Transfers T bytes) (hf : FailsCleanly T bytes) (hc : c.Coherent bytes)
    (ha : 512 ∣ buffer.length) {r : Except Errno (List UInt8 × Nat)}
    (h : c.readAt block buffer = (r, c')) :
    c'.Coherent bytes ∧ bytes c'.inner = bytes c.inner ∧
      ((r = .ok (load (bytes c.inner) (512 * block) buffer.length, buffer.length) ∧
          (c'.inner = c.inner ∨ ∃ xs,
            DiskTrait.readAt c.inner block buffer.length = (.ok xs, c'.inner))) ∨
        ∃ e, r = .error e ∧
          DiskTrait.readAt c.inner block buffer.length = (.error e, c'.inner)) := by
  obtain ⟨k, hk⟩ := ha
  have hk : buffer.length = 512 * k := by omega
  have hmap : ∀ p ∈ c.cache.map, p.2 = load (bytes c.inner) (512 * p.1) 512 := hc
  unfold readAt at h
  rw [blockIndices_eq k hk] at h
  split at h <;> rename_i hcopy
  all_goals
    have hstart : buffer.take (512 * 0) = load (bytes c.inner) (512 * block) (512 * 0) := by
      simp [load]
    obtain ⟨hcc, hbl, hok⟩ := copyCached_spec hmap (by rw [hk, Nat.zero_add]) hstart hcopy
  · simp only [Prod.mk.injEq] at h
    obtain ⟨rfl, rfl⟩ := h
    obtain ⟨rfl, rfl⟩ := hok rfl
    exact ⟨hcc, rfl, .inl ⟨rfl, .inl rfl⟩⟩
  · rw [hbl] at h
    split at h <;> rename_i hread <;> simp only [Prod.mk.injEq] at h <;> obtain ⟨rfl, rfl⟩ := h
    · have hm := hf.readError hread
      exact ⟨by intro p hp; rw [hm]; exact hcc p hp, hm, .inr ⟨_, rfl, hread⟩⟩
    · rename_i buf inner
      obtain ⟨rfl, hm⟩ := ht.readOk hread
      refine ⟨?_, hm, .inl ⟨?_, .inr ⟨_, hread⟩⟩⟩
      · apply coherent_fileBlocks (m := bytes c.inner) (by simp; omega) (by simp [hm]) (by simp [hm]) hcc
      · rw [fileBlocks_count (fun i hi => mem_blockIndices (by simp; omega) hi), blockIndices,
          List.length_range, length_load]
        refine congrArg Except.ok (Prod.ext rfl ?_)
        change 0 + 512 * ((buffer.length + 511) / 512) = buffer.length
        omega

/-- A cached write is the disk's own: one that succeeds writes through, and the cache stays
coherent. -/
theorem writeAt_spec (ht : Transfers T bytes) (hf : FailsCleanly T bytes) (hc : c.Coherent bytes)
    (ha : 512 ∣ buffer.length) {r : Except Errno Nat} (h : c.writeAt block buffer = (r, c')) :
    c'.Coherent bytes ∧ DiskTrait.writeAt c.inner block buffer = (r, c'.inner) := by
  unfold writeAt at h
  split at h <;> rename_i hwrite <;> simp only [Prod.mk.injEq] at h <;> obtain ⟨rfl, rfl⟩ := h
  · have hm := hf.writeError hwrite
    exact ⟨by intro p hp; rw [hm]; exact hc p hp, hwrite⟩
  · obtain ⟨rfl, hm⟩ := ht.writeOk hwrite
    refine ⟨?_, ?_⟩
    · apply coherent_fileBlocks (m := bytes c.inner) ha
      · rw [hm, load_store_same]
      · intro x hx
        rw [hm]
        rcases hx with hx | hx
        · exact store_of_lt hx
        · exact store_of_ge hx
      · exact hc
    · rw [hwrite, fileBlocks_count (fun i hi => mem_blockIndices ha hi), blockIndices,
        List.length_range]
      refine Prod.ext (congrArg Except.ok ?_) rfl
      omega

omit [DiskTrait T] in
theorem visible_of_coherent (hc : c.Coherent bytes) (b : Nat) :
    c.visible bytes b = load (bytes c.inner) (512 * b) 512 := by
  unfold visible
  cases h : (c.cache.getMut b).1 with
  | none => rfl
  | some v => exact hc _ (LruCache.getMut_some h)

end Cache

/-- A call on a disk. A read hands in the buffer to fill. -/
inductive Transfer where
  | read (block : Nat) (buffer : List UInt8)
  | write (block : Nat) (buffer : List UInt8)

namespace Transfer

def buffer : Transfer → List UInt8
  | read _ b | write _ b => b

@[simp] theorem buffer_read (block : Nat) (b : List UInt8) : (read block b).buffer = b := rfl

@[simp] theorem buffer_write (block : Nat) (b : List UInt8) : (write block b).buffer = b := rfl

/-- What the call returns: the buffer after it, and the count. -/
abbrev Reply := Except Errno (List UInt8 × Nat)

/-- The call on the disk alone, when it succeeds: the reply and the bytes of the disk after it. -/
def direct (m : Nat → UInt8) : Transfer → (List UInt8 × Nat) × (Nat → UInt8)
  | read block b => ((load m (512 * block) b.length, b.length), m)
  | write block b => ((b, b.length), store m (512 * block) b)

variable {T : Type} [DiskTrait T]

/-- The call made on the disk itself. -/
def onDisk (d : T) : Transfer → Reply × T
  | read block b => ((DiskTrait.readAt d block b.length).1.map fun xs => (xs, xs.length),
      (DiskTrait.readAt d block b.length).2)
  | write block b => ((DiskTrait.writeAt d block b).1.map fun n => (b, n),
      (DiskTrait.writeAt d block b).2)

def cached (c : Cache T) : Transfer → Reply × Cache T
  | read block b => c.readAt block b
  | write block b => ((c.writeAt block b).1.map fun n => (b, n), (c.writeAt block b).2)

end Transfer

section Runs

variable {T : Type} [DiskTrait T]

/-- The replies of a sequence of calls through the cache, and the cache after them. -/
def cachedRun : Cache T → List Transfer → List Transfer.Reply × Cache T
  | c, [] => ([], c)
  | c, t :: ts =>
    let step := t.cached c
    let rest := cachedRun step.2 ts
    (step.1 :: rest.1, rest.2)

/-- The replies of the same calls made on the disk alone, and the disk after them. -/
def diskRun : T → List Transfer → List Transfer.Reply × T
  | d, [] => ([], d)
  | d, t :: ts =>
    let step := t.onDisk d
    let rest := diskRun step.2 ts
    (step.1 :: rest.1, rest.2)

/-- The replies to a sequence of calls by someone in front of the disk: a read that is answered
with no call on the disk gives what the disk holds (`held`), every other call is made on the disk
and answered as the disk answers; `held` changes by the writes that succeed and by nothing else. -/
inductive DirectRun :
    T → (Nat → UInt8) → List Transfer → List Transfer.Reply → T → (Nat → UInt8) → Prop
  | nil {d m} : DirectRun d m [] [] d m
  | held {d m block b ts rs d' m'} (h : DirectRun d m ts rs d' m') :
      DirectRun d m (.read block b :: ts)
        (.ok ((Transfer.read block b).direct m).1 :: rs) d' m'
  | ok {d d₁ m t ts rs d' m'} (hd : t.onDisk d = (.ok (t.direct m).1, d₁))
      (h : DirectRun d₁ (t.direct m).2 ts rs d' m') :
      DirectRun d m (t :: ts) (.ok (t.direct m).1 :: rs) d' m'
  | error {d d₁ m t e ts rs d' m'} (hd : t.onDisk d = (.error e, d₁))
      (h : DirectRun d₁ m ts rs d' m') : DirectRun d m (t :: ts) (.error e :: rs) d' m'

variable {bytes : T → Nat → UInt8} {c : Cache T} {t : Transfer}

/-- What one call through the cache is: a read from the blocks held, a call on the disk that
succeeds, or one that fails. -/
inductive CachedStep (bytes : T → Nat → UInt8) (c : Cache T) (t : Transfer) : Prop
  | held {block b} (ht : t = .read block b) (hr : (t.cached c).1 = .ok (t.direct (bytes c.inner)).1)
      (hd : (t.cached c).2.inner = c.inner)
  | ok (hr : (t.cached c).1 = .ok (t.direct (bytes c.inner)).1)
      (hd : t.onDisk c.inner = (.ok (t.direct (bytes c.inner)).1, (t.cached c).2.inner))
      (hm : bytes (t.cached c).2.inner = (t.direct (bytes c.inner)).2)
  | error {e} (hr : (t.cached c).1 = .error e)
      (hd : t.onDisk c.inner = (.error e, (t.cached c).2.inner))
      (hm : bytes (t.cached c).2.inner = bytes c.inner)

theorem cached_step (ht : Transfers T bytes) (hf : FailsCleanly T bytes) (hc : c.Coherent bytes)
    (ha : 512 ∣ t.buffer.length) : (t.cached c).2.Coherent bytes ∧ CachedStep bytes c t := by
  cases t with
  | read block b =>
    rw [Transfer.buffer_read] at ha
    obtain ⟨h1, h2, h3⟩ := Cache.readAt_spec ht hf hc ha
      (Prod.mk.eta.symm : c.readAt block b = ((c.readAt block b).1, (c.readAt block b).2))
    refine ⟨h1, ?_⟩
    rcases h3 with ⟨hr, hd | ⟨xs, hd⟩⟩ | ⟨e, hr, hd⟩
    · exact .held rfl hr hd
    · obtain ⟨rfl, -⟩ := ht.readOk hd
      exact .ok hr (by simp [Transfer.onDisk, hd, Except.map, Transfer.direct, Transfer.cached]) h2
    · exact .error hr (by simp [Transfer.onDisk, hd, Except.map, Transfer.cached]) h2
  | write block b =>
    rw [Transfer.buffer_write] at ha
    obtain ⟨h1, h2⟩ := Cache.writeAt_spec ht hf hc ha
      (Prod.mk.eta.symm : c.writeAt block b = ((c.writeAt block b).1, (c.writeAt block b).2))
    refine ⟨h1, ?_⟩
    cases hr : (c.writeAt block b).1 with
    | ok n =>
      rw [hr] at h2
      obtain ⟨rfl, hm⟩ := ht.writeOk h2
      exact .ok (by simp [Transfer.cached, hr, Except.map, Transfer.direct])
        (by simp [Transfer.onDisk, h2, Except.map, Transfer.direct, Transfer.cached]) hm
    | error e =>
      rw [hr] at h2
      exact .error (e := e) (by simp [Transfer.cached, hr, Except.map])
        (by simp [Transfer.onDisk, h2, Except.map, Transfer.cached]) (hf.writeError h2)

theorem cachedRun_direct (ht : Transfers T bytes) (hf : FailsCleanly T bytes) (ts : List Transfer)
    (hc : c.Coherent bytes) (ha : ∀ t ∈ ts, 512 ∣ t.buffer.length) :
    (cachedRun c ts).2.Coherent bytes ∧
      DirectRun c.inner (bytes c.inner) ts (cachedRun c ts).1 (cachedRun c ts).2.inner
        (bytes (cachedRun c ts).2.inner) := by
  induction ts generalizing c with
  | nil => exact ⟨hc, .nil⟩
  | cons t ts ih =>
    obtain ⟨hc', hstep⟩ := cached_step ht hf hc (ha t (by simp))
    obtain ⟨hcoh, hrun⟩ := ih hc' fun u hu => ha u (by simp [hu])
    refine ⟨hcoh, ?_⟩
    cases hstep with
    | held hread hr hd =>
      subst hread
      rw [hd] at hrun
      simpa only [cachedRun, hr] using DirectRun.held hrun
    | ok hr hd hm =>
      rw [hm] at hrun
      simpa only [cachedRun, hr] using DirectRun.ok hd hrun
    | error hr hd hm =>
      rw [hm] at hrun
      simpa only [cachedRun, hr] using DirectRun.error hd hrun

end Runs

/-- A disk whose `n`-th call fails when the script says so. -/
structure ScriptedDisk where
  bytes : Nat → UInt8
  script : Nat → Bool
  calls : Nat

instance : DiskTrait ScriptedDisk where
  readAt d block n :=
    (if d.script d.calls then .error Errno.EIO else .ok (load d.bytes (512 * block) n),
      { d with calls := d.calls + 1 })
  writeAt d block buffer :=
    if d.script d.calls then (.error Errno.EIO, { d with calls := d.calls + 1 })
    else (.ok buffer.length,
      { d with bytes := store d.bytes (512 * block) buffer, calls := d.calls + 1 })

theorem scriptedDisk_transfers : Transfers ScriptedDisk ScriptedDisk.bytes where
  readOk := by
    intro t block n xs t' h
    simp only [DiskTrait.readAt, Prod.mk.injEq] at h
    obtain ⟨h, rfl⟩ := h
    split at h <;> cases h
    exact ⟨rfl, rfl⟩
  writeOk := by
    intro t block buffer k t' h
    simp only [DiskTrait.writeAt] at h
    split at h <;> cases h
    exact ⟨rfl, rfl⟩

theorem scriptedDisk_failsCleanly : FailsCleanly ScriptedDisk ScriptedDisk.bytes where
  readError := by
    intro t block n e t' h
    simp only [DiskTrait.readAt, Prod.mk.injEq] at h
    obtain ⟨-, rfl⟩ := h
    rfl
  writeError := by
    intro t block buffer e t' h
    simp only [DiskTrait.writeAt] at h
    split at h <;> cases h
    rfl

def scriptedTransfers : List Transfer :=
  [.write 1 (List.replicate 1024 3), .read 1 (List.replicate 1024 0)]

/-- A disk that breaks down in its writes from the `n`-th on: one stores its bytes and then
fails. -/
structure TornDisk where
  bytes : Nat → UInt8
  good : Nat

instance : DiskTrait TornDisk where
  readAt d block n := (.ok (load d.bytes (512 * block) n), d)
  writeAt d block buffer :=
    (if d.good = 0 then .error Errno.EIO else .ok buffer.length,
      { bytes := store d.bytes (512 * block) buffer, good := d.good - 1 })

theorem tornDisk_transfers : Transfers TornDisk TornDisk.bytes where
  readOk := by
    intro t block n xs t' h
    cases h
    exact ⟨rfl, rfl⟩
  writeOk := by
    intro t block buffer k t' h
    simp only [DiskTrait.writeAt, Prod.mk.injEq] at h
    obtain ⟨h, rfl⟩ := h
    split at h <;> cases h
    exact ⟨rfl, rfl⟩

def threes : List UInt8 := List.replicate 512 3

def fours : List UInt8 := List.replicate 512 4

section Torn

variable {d : TornDisk} {cache : LruCache Nat (List UInt8)} {b v : List UInt8} {n : Nat}

theorem slice_block (hb : b.length = 512) : Cache.slice b 0 = b := by
  rw [Cache.slice, Nat.mul_zero, List.drop_zero, ← hb, List.take_length]

theorem blockIndices_block (hb : b.length = 512) : Cache.blockIndices b = [0] := by
  rw [Cache.blockIndices, hb]
  rfl

theorem cached_write_block (hb : b.length = 512) :
    (Transfer.write 0 b).cached ⟨d, cache⟩ =
      if d.good = 0 then (.error Errno.EIO, ⟨⟨store d.bytes 0 b, 0⟩, cache⟩)
      else (.ok (b, 512), ⟨⟨store d.bytes 0 b, d.good - 1⟩, cache.insert 0 b⟩) := by
  by_cases hg : d.good = 0
  · simp [Transfer.cached, Cache.writeAt, DiskTrait.writeAt, hg, Except.map]
  · simp [Transfer.cached, Cache.writeAt, DiskTrait.writeAt, hg, Except.map,
      blockIndices_block hb, Cache.fileBlocks, slice_block hb, hb]

theorem cached_read_block (hb : b.length = 512) (hv : v.length = 512) :
    ((Transfer.read 0 b).cached ⟨d, ⟨[(0, v)], n⟩⟩).1 = .ok (v, 512) := by
  have htake : v.take 512 = v := by rw [← hv, List.take_length]
  have hdrop : b.drop 512 = [] := by rw [← hb, List.drop_length]
  simp [Transfer.cached, Cache.readAt, blockIndices_block hb, Cache.copyCached, LruCache.getMut,
    slice_block hb, overlay, hv, hb, htake, hdrop]

/-- A block written well and then torn is answered from the cache. -/
theorem cachedRun_torn (hv : v.length = 512) (hb : b.length = 512) {zeros : List UInt8}
    (hz : zeros.length = 512) :
    (cachedRun (Cache.new (⟨fun _ => 0, 1⟩ : TornDisk) 1)
        [.write 0 v, .write 0 b, .read 0 zeros]).1 =
      [.ok (v, 512), .error Errno.EIO, .ok (v, 512)] := by
  simp [cachedRun, Cache.new, LruCache.new, cached_write_block hv, cached_write_block hb,
    LruCache.insert, cached_read_block hz hv]

/-- The disk alone answers with what the torn write has stored. -/
theorem diskRun_torn (hv : v.length = 512) (hb : b.length = 512) {zeros : List UInt8}
    (hz : zeros.length = 512) :
    (diskRun (⟨fun _ => 0, 1⟩ : TornDisk) [.write 0 v, .write 0 b, .read 0 zeros]).1 =
      [.ok (v, 512), .error Errno.EIO, .ok (b, 512)] := by
  have hload : load (store (store (fun _ => 0) 0 v) 0 b) 0 512 = b := by
    conv_lhs => rw [← hb]
    exact load_store_same _ _ _
  simp [diskRun, Transfer.onDisk, DiskTrait.writeAt, DiskTrait.readAt, Except.map, hv, hb, hz, hload]

/-- A block that is in no cache shows what a torn write has stored. -/
theorem visible_torn (hb : b.length = 512) :
    ((Transfer.write 0 b).cached (Cache.new (⟨fun _ => 0, 0⟩ : TornDisk) 1)).1 =
        .error Errno.EIO ∧
      ((Transfer.write 0 b).cached (Cache.new (⟨fun _ => 0, 0⟩ : TornDisk) 1)).2.visible
        TornDisk.bytes 0 = b := by
  have hload : load (store (fun _ => 0) 0 b) 0 512 = b := by
    conv_lhs => rw [← hb]
    exact load_store_same _ _ _
  rw [Cache.new, cached_write_block hb, if_pos rfl]
  exact ⟨rfl, hload⟩

end Torn

end Origel.RedoxFs
