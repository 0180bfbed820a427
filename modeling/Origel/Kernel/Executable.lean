import Origel.Kernel.Memory
import Origel.Lib.Store

/-! Executables: their headers, as they lie in the file, and the segments that `exec` maps and fills. -/
namespace Origel.Kernel.Executable

open Origel.Lib Origel.Kernel.Paging

def KERNEL_HEAP_SIZE : Nat := 256 * 1024 * 1024
def KERNEL_PERCPU_OFFSET : Nat := 0xC0000000
def KERNEL_PERCPU_SIZE : Nat := 64 * 1024
def USER_TCB_OFFSET : Nat := 0xB0000000
def USER_ARG_OFFSET : Nat := USER_OFFSET + PML4_SIZE / 2
def USER_STACK_OFFSET : Nat := USER_GRANT_OFFSET + PML4_SIZE
def USER_TLS_OFFSET : Nat := USER_STACK_OFFSET + PML4_SIZE

def SIZEOF_EHDR : Nat := 64
def ELFMAG : List UInt8 := [0x7F, 0x45, 0x4C, 0x46]
def EI_CLASS : Nat := 4
def ELFCLASS64 : UInt8 := 2

/-- The size of a `ProgramHeader` -/
def PHDR_SIZE : Nat := 56

def PT_LOAD : Nat := 1
def PT_TLS : Nat := 7
def PF_X : Nat := 1
def PF_W : Nat := 2
def PF_R : Nat := 4

abbrev Data := List UInt8

/-- The number in so many bytes of the data. -/
def field (data : Data) (offset size : Nat) : Nat := ofLe ((data.drop offset).take size)

/-- The fields of the header that are read. -/
structure Elf where
  data : Data
  eEntry : Nat
  ePhoff : Nat
  ePhentsize : Nat
  ePhnum : Nat
  deriving DecidableEq

inductive ElfError where
  | notEnoughData (len : Nat)
  | invalidMagic (magic : List UInt8)
  | invalidArchitecture (cls : Option UInt8)
  deriving DecidableEq

/-- `Elf::from` -/
def fromData (data : Data) : Except ElfError Elf :=
  if data.length < SIZEOF_EHDR then .error (.notEnoughData data.length)
  else if data.take 4 ≠ ELFMAG then .error (.invalidMagic (data.take 4))
  else if data[EI_CLASS]? ≠ some ELFCLASS64 then .error (.invalidArchitecture data[EI_CLASS]?)
  else .ok ⟨data, field data 24 8, field data 32 8, field data 54 2, field data 56 2⟩

structure ProgramHeader where
  pType : Nat
  pFlags : Nat
  pOffset : Nat
  pVaddr : Nat
  pFilesz : Nat
  pMemsz : Nat
  deriving DecidableEq

def ProgramHeader.at (data : Data) (offset : Nat) : ProgramHeader where
  pType := field data offset 4
  pFlags := field data (offset + 4) 4
  pOffset := field data (offset + 8) 8
  pVaddr := field data (offset + 16) 8
  pFilesz := field data (offset + 32) 8
  pMemsz := field data (offset + 40) 8

namespace Elf

/-- Where the pointer to a program header points, from the start of the data. -/
def offset (elf : Elf) (i : Nat) : Nat := (elf.ePhoff + i * elf.ePhentsize) % 2 ^ 64

/-- `ElfSegments::next`; none where the header is not in the data -/
def segment (elf : Elf) (i : Nat) : Option ProgramHeader :=
  if elf.offset i + PHDR_SIZE ≤ elf.data.length then some (.at elf.data (elf.offset i)) else none

/-- The program headers that are in the data. -/
def segments (elf : Elf) : List ProgramHeader := (List.range elf.ePhnum).filterMap elf.segment

end Elf

/-- What `exec` makes: the regions of the image, and the segment for thread-local storage. -/
structure Image where
  machine : Machine
  image : List Memory
  tls : Option (Nat × Nat × Nat)

/-- The source of a copy; none where it is not in the data -/
def sourceBytes (data : Data) (offset count : Nat) : Option (List UInt8) :=
  if count = 0 ∨ offset + count ≤ data.length then some ((data.drop offset).take count) else none

/-- Bytes are written at an address; none where one is not mapped -/
def writeBytes (m : Mapper) : List UInt8 → Nat → Bytes → Option Bytes
  | [], _, bytes => some bytes
  | b :: bs, address, bytes => do
    let frame ← m.translatePage (address % 2 ^ 64 / PAGE_SIZE)
    writeBytes m bs (address + 1)
      (Function.update bytes frame (Function.update (bytes frame) (address % PAGE_SIZE) b))

/-- What a segment may be used for: if it is executable, it is not writable. -/
def segmentFlags (pFlags : Nat) : EntryFlags :=
  let flags := NO_EXECUTE ||| USER_ACCESSIBLE
  let flags := if pFlags &&& PF_R = PF_R then flags ||| PRESENT else flags
  if pFlags &&& PF_X = PF_X then flags &&& ~~~NO_EXECUTE
  else if pFlags &&& PF_W = PF_W then flags ||| WRITABLE
  else flags

/-- A region is mapped, filled, and given its flags; none where a page is mapped, the source is not there
or an address is not mapped -/
def fill (start size : Nat) (source : Option (List UInt8)) (flags : EntryFlags) (s : Image) :
    Option Image := do
  let (memory, k) ← Memory.new start size (NO_EXECUTE ||| WRITABLE) true true s.machine
  let source ← source
  let bytes ← writeBytes k.mapper source start k.bytes
  let (memory, k) ← memory.remap flags { k with bytes }
  some { s with machine := k, image := s.image ++ [memory] }

def loadSegment (data : Data) (ph : ProgramHeader) (s : Image) : Option Image :=
  if ph.pType = PT_LOAD then
    fill ph.pVaddr ph.pMemsz (sourceBytes data ph.pOffset ph.pFilesz) (segmentFlags ph.pFlags) s
  else if ph.pType = PT_TLS then do
    let (memory, k) ← Memory.new USER_TCB_OFFSET 4096 (NO_EXECUTE ||| WRITABLE ||| USER_ACCESSIBLE) true true
      s.machine
    let bytes ← writeBytes k.mapper (toLe 8 (USER_TLS_OFFSET + ph.pMemsz)) USER_TCB_OFFSET k.bytes
    some ⟨{ k with bytes }, s.image ++ [memory], some (ph.pVaddr, ph.pFilesz, ph.pMemsz)⟩
  else some s

/-- The loop over segments; none where it reads outside of the data, writes where nothing is mapped, or
maps a page that is mapped -/
def loadSegments (elf : Elf) : List Nat → Image → Option Image
  | [], s => some s
  | i :: is, s => do
    let ph ← elf.segment i
    let s ← loadSegment elf.data ph s
    loadSegments elf is s

def load (elf : Elf) (s : Image) : Option Image := loadSegments elf (List.range elf.ePhnum) s

/-- The arguments, the last one first -/
def argBytes (args : List Data) : Data := args.reverse.flatten

/-- The arguments are put behind the segments. Heap, stack and thread-local storage are mapped in between,
in slots of their own. -/
def loadArgs (args : List Data) (s : Image) : Option Image :=
  if (argBytes args).length > 0 then
    fill USER_ARG_OFFSET (argBytes args).length (some (argBytes args)) (NO_EXECUTE ||| USER_ACCESSIBLE) s
  else some s

namespace ProgramHeader

/-- What is mapped for a segment. -/
def region (ph : ProgramHeader) : Option (Nat × Nat) :=
  if ph.pType = PT_LOAD then some (ph.pVaddr, ph.pMemsz)
  else if ph.pType = PT_TLS then some (USER_TCB_OFFSET, 4096)
  else none

def pages (ph : ProgramHeader) : List Nat :=
  match ph.region with
  | some (start, size) => pagesOf start size
  | none => []

end ProgramHeader

/-- What `exec` finds when it comes to the segments: the CPUs with the size of their data, which lie in the
slot of the image in every page table; the regions of the image that another context has, too, which are
not unmapped with it; and the arguments, which have been copied to the heap of the kernel. -/
structure Start where
  cpus : Nat
  percpu : Nat
  shared : List (Nat × Nat)
  args : List Data
  fits : (argBytes args).length ≤ KERNEL_HEAP_SIZE

namespace Start

/-- The pages that are mapped -/
def kept (w : Start) : List Nat :=
  (List.range w.cpus).flatMap (fun cpu => pagesOf (KERNEL_PERCPU_OFFSET + KERNEL_PERCPU_SIZE * cpu) w.percpu) ++
    w.shared.flatMap fun r => pagesOf r.1 r.2

def argPages (w : Start) : List Nat := pagesOf USER_ARG_OFFSET (argBytes w.args).length

/-- These pages of the slot of the image are mapped, and no others. -/
def Ready (w : Start) (m : Mapper) : Prop :=
  ∀ page, page < PML4_SIZE / PAGE_SIZE → (m.entryAt page = none ↔ page ∉ w.kept)

end Start

/-- The headers and what is read for segments lie in the data, and what is mapped lies in the slot of the
image. However many frames there are, nothing is mapped where something is, and with frames enough every
load comes to its end. -/
structure Confined (w : Start) (elf : Elf) : Prop where
  headers : ∀ i, i < elf.ePhnum → elf.offset i + PHDR_SIZE ≤ elf.data.length
  file : ∀ ph ∈ elf.segments, ph.region ≠ none → ∀ o, ph.pOffset ≤ o → o < ph.pOffset + ph.pFilesz →
    o < elf.data.length
  sizes : ∀ ph ∈ elf.segments, ph.region ≠ none → ph.pFilesz ≤ ph.pMemsz
  slot : ∀ ph ∈ elf.segments, ∀ start size, ph.region = some (start, size) →
    (∀ a, start ≤ a → a < start + size → a < PML4_SIZE) ∧
    ∀ page ∈ pagesOf start size, page < PML4_SIZE / PAGE_SIZE
  once : ∀ is i rest, is ++ i :: rest = List.range elf.ePhnum → ∀ s s', w.Ready s.machine.mapper →
    loadSegments elf is s = some s' → ∀ ph, elf.segment i = some ph →
      ∀ p ∈ ph.pages, s'.machine.mapper.entryAt p = none
  arguments : ∀ s s', w.Ready s.machine.mapper → load elf s = some s' →
    ∀ p ∈ w.argPages, s'.machine.mapper.entryAt p = none
  loads : ∀ s : Image, w.Ready s.machine.mapper →
    4 * ((elf.segments.flatMap ProgramHeader.pages).length + w.argPages.length) ≤
      s.machine.mapper.free.length → ∃ s', load elf s = some s' ∧ (loadArgs w.args s').isSome = true

/-- The first and the last page of a region that has any. -/
def span (start size : Nat) : Option (Nat × Nat) :=
  if size = 0 ∧ start % PAGE_SIZE = 0 then none
  else some (start / PAGE_SIZE, (start + size - 1) / PAGE_SIZE)

/-- The first and the last page of a segment. -/
def ProgramHeader.span (ph : ProgramHeader) : Option (Nat × Nat) :=
  ph.region.bind fun r => Executable.span r.1 r.2

/-- A region that is mapped inside of the slot of the image. -/
def InSlot (start size : Nat) : Prop :=
  if size = 0 then start ≠ 0 ∧ (start % PAGE_SIZE = 0 ∨ start < PML4_SIZE) else start + size ≤ PML4_SIZE

/-- Header fields that fit the file, each other, and the pages that are taken or are to be taken. -/
structure Tame (w : Start) (elf : Elf) : Prop where
  table : elf.ePhnum = 0 ∨
    elf.ePhoff + (elf.ePhnum - 1) * elf.ePhentsize + PHDR_SIZE ≤ elf.data.length
  file : ∀ ph ∈ elf.segments, ph.region ≠ none →
    ph.pFilesz = 0 ∨ ph.pOffset + ph.pFilesz ≤ elf.data.length
  sizes : ∀ ph ∈ elf.segments, ph.region ≠ none → ph.pFilesz ≤ ph.pMemsz
  slot : ∀ ph ∈ elf.segments, ph.pType = PT_LOAD → InSlot ph.pVaddr ph.pMemsz
  apart : (elf.segments.filterMap ProgramHeader.span).Pairwise fun a b => a.2 < b.1 ∨ b.2 < a.1
  clear : ∀ r ∈ elf.segments.filterMap ProgramHeader.span, ∀ page ∈ w.kept ++ w.argPages,
    page < r.1 ∨ r.2 < page
  room : ∀ page ∈ w.argPages, page ∉ w.kept

variable {elf : Elf} {data : Data} {ph : ProgramHeader} {s s' : Image} {m m₁ m' : Mapper} {k k' : Machine}
  {start size page i n : Nat} {flags : EntryFlags} {phs : List ProgramHeader} {w : Start}
  {source : Option (List UInt8)} {pages pages' : List Nat}

theorem field_lt (data : Data) (offset size : Nat) : field data offset size < 256 ^ size := by
  have hlen : ((data.drop offset).take size).length ≤ size := by
    rw [List.length_take]
    omega
  exact Nat.lt_of_lt_of_le (ofLe_lt _) (Nat.pow_le_pow_right (by decide) hlen)

theorem mem_segments (h : ph ∈ elf.segments) : ∃ i, elf.segment i = some ph := by
  obtain ⟨i, -, hi⟩ := List.mem_filterMap.mp h
  exact ⟨i, hi⟩

theorem mem_segments_lt (h : ph ∈ elf.segments) : ph.pVaddr < 2 ^ 64 ∧ ph.pMemsz < 2 ^ 64 := by
  obtain ⟨i, hi⟩ := mem_segments h
  rw [Elf.segment] at hi
  split at hi
  · cases hi
    exact ⟨field_lt _ _ 8, field_lt _ _ 8⟩
  · cases hi

/-- The table of headers lies in the data when its last header does. -/
theorem headers_iff (hlen : elf.data.length < 2 ^ 63) (hoff : elf.ePhoff < 2 ^ 64)
    (hsize : elf.ePhentsize < 2 ^ 16) (hnum : elf.ePhnum < 2 ^ 16) :
    (∀ i, i < elf.ePhnum → elf.offset i + PHDR_SIZE ≤ elf.data.length) ↔ elf.ePhnum = 0 ∨
      elf.ePhoff + (elf.ePhnum - 1) * elf.ePhentsize + PHDR_SIZE ≤ elf.data.length := by
  have hlast : (elf.ePhnum - 1) * elf.ePhentsize < 2 ^ 32 := by
    have hmul := Nat.mul_le_mul (show elf.ePhnum - 1 ≤ 2 ^ 16 - 1 by omega)
      (show elf.ePhentsize ≤ 2 ^ 16 - 1 by omega)
    omega
  constructor
  · intro h
    by_cases hzero : elf.ePhnum = 0
    · exact .inl hzero
    · have hfirst := h 0 (by omega)
      have hend := h (elf.ePhnum - 1) (by omega)
      rw [Elf.offset, Nat.zero_mul, Nat.add_zero, Nat.mod_eq_of_lt hoff] at hfirst
      rw [Elf.offset, Nat.mod_eq_of_lt (by omega)] at hend
      exact .inr hend
  · rintro (hzero | hend) i hi
    · omega
    · have hle : i * elf.ePhentsize ≤ (elf.ePhnum - 1) * elf.ePhentsize :=
        Nat.mul_le_mul_right _ (by omega)
      rw [Elf.offset, Nat.mod_eq_of_lt (by omega)]
      omega

theorem file_iff {offset count len : Nat} : (∀ o, offset ≤ o → o < offset + count → o < len) ↔
    count = 0 ∨ offset + count ≤ len := by
  constructor
  · intro h
    by_cases hzero : count = 0
    · exact .inl hzero
    · have hlast := h (offset + count - 1) (by omega) (by omega)
      exact .inr (by omega)
  · rintro (hzero | hle) o hlo hhi <;> omega

theorem lastPage_zero : lastPage 0 0 = 2 ^ 52 - 1 := by decide

theorem slot_iff (hstart : start < 2 ^ 64) :
    ((∀ a, start ≤ a → a < start + size → a < PML4_SIZE) ∧
      ∀ page ∈ pagesOf start size, page < PML4_SIZE / PAGE_SIZE) ↔ InSlot start size := by
  have hslot : PML4_SIZE = 2 ^ 39 := by decide
  have hpages : PML4_SIZE / PAGE_SIZE = 2 ^ 27 := by decide
  rw [InSlot, hpages, hslot]
  by_cases hsize : size = 0
  · rw [if_pos hsize]
    subst hsize
    constructor
    · rintro ⟨-, hall⟩
      by_cases hzero : start = 0
      · subst hzero
        have hmem : 2 ^ 52 - 1 ∈ pagesOf 0 0 := by
          rw [pagesOf, mem_pagesFrom, lastPage_zero]
          exact ⟨by decide, Nat.le_refl _⟩
        have hlt := hall _ hmem
        omega
      · refine ⟨hzero, ?_⟩
        by_cases haligned : start % PAGE_SIZE = 0
        · exact .inl haligned
        · have hmem : start / PAGE_SIZE ∈ pagesOf start 0 := by
            rw [pagesOf, mem_pagesFrom, lastPage]
            simp only [PAGE_SIZE] at haligned ⊢
            omega
          have hlt := hall _ hmem
          simp only [PAGE_SIZE] at hlt
          exact .inr (by omega)
    · rintro ⟨hzero, hcase⟩
      refine ⟨fun a hle hlt => by omega, ?_⟩
      intro page hpage
      rw [pagesOf, mem_pagesFrom, lastPage] at hpage
      simp only [PAGE_SIZE] at hpage hcase
      omega
  · rw [if_neg hsize]
    constructor
    · rintro ⟨hall, -⟩
      have hlast := hall (start + size - 1) (by omega) (by omega)
      omega
    · intro hle
      refine ⟨fun a _ hlt => by omega, ?_⟩
      intro page hpage
      rw [mem_pagesOf (by omega) (by omega)] at hpage
      simp only [PAGE_SIZE] at hpage
      omega

/-- The pages of a region in the slot lie between its first and its last one. -/
theorem mem_pagesOf_iff (hstart : start < 2 ^ 64) (h : InSlot start size) :
    page ∈ pagesOf start size ↔ ∃ r, span start size = some r ∧ r.1 ≤ page ∧ page ≤ r.2 := by
  have hslot : PML4_SIZE = 2 ^ 39 := by decide
  rw [InSlot, hslot] at h
  rw [span]
  by_cases hsize : size = 0
  · rw [if_pos hsize] at h
    subst hsize
    rw [pagesOf, mem_pagesFrom, lastPage]
    by_cases haligned : start % PAGE_SIZE = 0
    · rw [if_pos ⟨rfl, haligned⟩]
      simp only [PAGE_SIZE] at haligned ⊢
      constructor
      · intro hpage
        omega
      · rintro ⟨r, hr, -⟩
        cases hr
    · rw [if_neg fun hboth => haligned hboth.2]
      simp only [PAGE_SIZE, Option.some.injEq, exists_eq_left'] at haligned ⊢
      omega
  · rw [if_neg hsize] at h
    rw [if_neg fun hboth => hsize hboth.1, mem_pagesOf (by omega) (by omega)]
    simp only [Option.some.injEq, exists_eq_left']

theorem span_le {r : Nat × Nat} (h : span start size = some r) : r.1 ≤ r.2 := by
  rw [span] at h
  split at h
  · cases h
  · rename_i hnot
    cases h
    simp only [PAGE_SIZE] at hnot ⊢
    omega

/-- These pages, which were not mapped, have come to be mapped, and no others. -/
structure Maps (m : Mapper) (pages : List Nat) (m' : Mapper) : Prop where
  unused : ∀ p ∈ pages, m.entryAt p = none
  mapped : ∀ p ∈ pages, m'.entryAt p ≠ none
  kept : ∀ q, m.entryAt q ≠ none → m'.entryAt q ≠ none
  outside : (∀ p ∈ pages, p < 2 ^ 36) → ∀ q, q < 2 ^ 36 → q ∉ pages → m.entryAt q = none → m'.entryAt q = none

namespace Maps

theorem nil : Maps m [] m := ⟨nofun, nofun, fun _ => id, fun _ _ _ _ => id⟩

theorem trans (h : Maps m pages m₁) (h' : Maps m₁ pages' m') : Maps m (pages ++ pages') m' where
  unused p hp := by
    rcases List.mem_append.mp hp with hp | hp
    · exact h.unused p hp
    · by_contra hold
      exact h.kept p hold (h'.unused p hp)
  mapped p hp := by
    rcases List.mem_append.mp hp with hp | hp
    · exact h'.kept p (h.mapped p hp)
    · exact h'.mapped p hp
  kept q hq := h'.kept q (h.kept q hq)
  outside hlow q hq hnot hnone := by
    rw [List.mem_append, not_or] at hnot
    have hnone₁ := h.outside (fun p hp => hlow p (List.mem_append_left _ hp)) q hq hnot.1 hnone
    exact h'.outside (fun p hp => hlow p (List.mem_append_right _ hp)) q hq hnot.2 hnone₁

/-- A change of what is mapped already -/
theorem congr (h : Maps m pages m₁) (hall : ∀ q, m'.entryAt q = none ↔ m₁.entryAt q = none) :
    Maps m pages m' where
  unused := h.unused
  mapped p hp hnone := h.mapped p hp ((hall p).mp hnone)
  kept q hq hnone := h.kept q hq ((hall q).mp hnone)
  outside hlow q hq hnot hnone := (hall q).mpr (h.outside hlow q hq hnot hnone)

theorem mapPages (h : m.mapPages flags pages = some m') : Maps m pages m' := by
  induction pages generalizing m with
  | nil =>
    cases h
    exact nil
  | cons page pages ih =>
    obtain ⟨m₁, h₁, h⟩ := Option.bind_eq_some_iff.mp h
    obtain ⟨frame, free, -, -, hnone, hall⟩ := map_some h₁
    have hone : Maps m [page] m₁ := by
      refine ⟨?_, ?_, ?_, ?_⟩
      · intro p hp
        cases List.mem_singleton.mp hp
        exact hnone
      · intro p hp
        cases List.mem_singleton.mp hp
        simp [hall]
      · intro q hq
        rw [hall]
        split
        · exact Option.some_ne_none _
        · exact hq
      · intro hlow q hq hnot hnone'
        rw [hall, if_neg, hnone']
        rw [index_of_lt (hlow page (List.mem_singleton_self _)), index_of_lt hq]
        exact fun heq => hnot (List.mem_singleton.mpr heq.symm)
    exact hone.trans (ih h)

end Maps

theorem new_some {r : Memory} (h : Memory.new start size flags true true k = some (r, k')) :
    r = ⟨start, size, flags⟩ ∧ Maps k.mapper (pagesOf start size) k'.mapper := by
  obtain ⟨k₁, hmap, h⟩ := Option.bind_eq_some_iff.mp h
  cases h
  obtain ⟨mapper, hpages, hmap⟩ := Option.bind_eq_some_iff.mp hmap
  rw [if_pos rfl] at hmap
  split at hmap
  · obtain ⟨bytes, -, hmap⟩ := Option.bind_eq_some_iff.mp hmap
    cases hmap
    exact ⟨rfl, .mapPages hpages⟩
  · cases hmap

/-- A region can be mapped where nothing is, with frames enough. -/
theorem new_isSome (hw : flags &&& WRITABLE = WRITABLE) (hunused : ∀ p ∈ pagesOf start size, k.mapper.entryAt p = none)
    (hlow : ∀ p ∈ pagesOf start size, p < 2 ^ 36)
    (hrange : ∀ a, start ≤ a → a < start + size → a % 2 ^ 64 / PAGE_SIZE ∈ pagesOf start size)
    (hfree : n + 4 * (pagesOf start size).length ≤ k.mapper.free.length) :
    ∃ k', Memory.new start size flags true true k = some (⟨start, size, flags⟩, k') ∧
      n ≤ k'.mapper.free.length := by
  obtain ⟨m', hpages, hfree', -⟩ := mapPages_isSome flags hunused hlow (nodup_pagesFrom _ _) hfree
  have hmapped := (Maps.mapPages hpages).mapped
  obtain ⟨bytes, hzero⟩ := zeroFill_isSome (m := m') start size k.bytes fun a hle hlt => by
    simpa [Mapper.translatePage] using hmapped _ (hrange a hle hlt)
  refine ⟨⟨m', bytes⟩, ?_, hfree'⟩
  simp only [Memory.new, Memory.map, Memory.pages]
  rw [hpages]
  simp [hw, hzero]

theorem writeBytes_isSome (bs : List UInt8) (address : Nat) (bytes : Bytes)
    (h : ∀ a, address ≤ a → a < address + bs.length → m.translatePage (a % 2 ^ 64 / PAGE_SIZE) ≠ none) :
    ∃ bytes', writeBytes m bs address bytes = some bytes' := by
  induction bs generalizing address bytes with
  | nil => exact ⟨bytes, rfl⟩
  | cons b bs ih =>
    rw [List.length_cons] at h
    obtain ⟨frame, hf⟩ := Option.ne_none_iff_exists'.mp (h address (Nat.le_refl _) (by omega))
    obtain ⟨bytes', hb⟩ := ih (address + 1)
      (Function.update bytes frame (Function.update (bytes frame) (address % PAGE_SIZE) b))
      fun a hle hlt => h a (by omega) (by omega)
    refine ⟨bytes', ?_⟩
    rw [writeBytes, hf]
    exact hb

theorem fill_some (h : fill start size source flags s = some s') :
    Maps s.machine.mapper (pagesOf start size) s'.machine.mapper := by
  obtain ⟨⟨r, k⟩, hnew, h⟩ := Option.bind_eq_some_iff.mp h
  obtain ⟨source, -, h⟩ := Option.bind_eq_some_iff.mp h
  obtain ⟨bytes, -, h⟩ := Option.bind_eq_some_iff.mp h
  obtain ⟨⟨r', k'⟩, hremap, h⟩ := Option.bind_eq_some_iff.mp h
  cases h
  obtain ⟨mapper, hpages, hremap⟩ := Option.bind_eq_some_iff.mp hremap
  cases hremap
  exact (new_some hnew).2.congr (remapPages_some hpages).2

/-- Exactly the pages of a segment are mapped for it. -/
theorem loadSegment_some (h : loadSegment data ph s = some s') :
    Maps s.machine.mapper ph.pages s'.machine.mapper := by
  rw [loadSegment] at h
  rw [ProgramHeader.pages, ProgramHeader.region]
  split at h
  · rename_i hload
    rw [if_pos hload]
    exact fill_some h
  · rename_i hload
    rw [if_neg hload]
    split at h
    · rename_i htls
      obtain ⟨⟨r, k⟩, hnew, h⟩ := Option.bind_eq_some_iff.mp h
      obtain ⟨bytes, -, h⟩ := Option.bind_eq_some_iff.mp h
      cases h
      rw [if_pos htls]
      exact (new_some hnew).2
    · rename_i htls
      cases h
      rw [if_neg htls]
      exact .nil

/-- An address of a region in the slot is in a page of it. -/
theorem address_mem_pages (h : InSlot start size) {a : Nat} (hle : start ≤ a) (hlt : a < start + size) :
    a % 2 ^ 64 / PAGE_SIZE ∈ pagesOf start size := by
  have hslot : PML4_SIZE = 2 ^ 39 := by decide
  rw [InSlot, if_neg (by omega), hslot] at h
  rw [mem_pagesOf (by omega) (by omega), Nat.mod_eq_of_lt (by omega)]
  simp only [PAGE_SIZE]
  omega

theorem inSlot_tcb : InSlot USER_TCB_OFFSET 4096 := by
  rw [InSlot]
  decide

/-- The file and the memory of a segment are as they should be. -/
structure Fitting (data : Data) (ph : ProgramHeader) : Prop where
  file : ph.region ≠ none → ph.pFilesz = 0 ∨ ph.pOffset + ph.pFilesz ≤ data.length
  sizes : ph.region ≠ none → ph.pFilesz ≤ ph.pMemsz
  start : ph.pVaddr < 2 ^ 64
  slot : ph.pType = PT_LOAD → InSlot ph.pVaddr ph.pMemsz

theorem Fitting.inSlot (h : Fitting data ph) (hr : ph.region = some (start, size)) :
    start < 2 ^ 64 ∧ InSlot start size := by
  rw [ProgramHeader.region] at hr
  split at hr
  · rename_i hload
    cases hr
    exact ⟨h.start, h.slot hload⟩
  · split at hr
    · cases hr
      exact ⟨by decide, inSlot_tcb⟩
    · cases hr

theorem Fitting.low (h : Fitting data ph) {p : Nat} (hp : p ∈ ph.pages) : p < PML4_SIZE / PAGE_SIZE := by
  rw [ProgramHeader.pages] at hp
  split at hp
  · rename_i start size hr
    obtain ⟨hstart, hslot⟩ := h.inSlot hr
    exact ((slot_iff hstart).mpr hslot).2 p hp
  · cases hp

theorem low_of_slot (h : page < PML4_SIZE / PAGE_SIZE) : page < 2 ^ 36 := by
  simp only [PML4_SIZE, PAGE_SIZE] at h
  omega

/-- A region of the slot is filled where its pages are free. -/
theorem fill_isSome {bs : List UInt8} (hstart : start < 2 ^ 64) (hslot : InSlot start size)
    (hsource : source = some bs) (hsize : bs.length ≤ size)
    (hunused : ∀ p ∈ pagesOf start size, s.machine.mapper.entryAt p = none)
    (hfree : n + 4 * (pagesOf start size).length ≤ s.machine.mapper.free.length) :
    ∃ s', fill start size source flags s = some s' ∧ n ≤ s'.machine.mapper.free.length := by
  have hlow : ∀ p ∈ pagesOf start size, p < 2 ^ 36 := fun p hp => low_of_slot (((slot_iff hstart).mpr hslot).2 p hp)
  obtain ⟨k, hnew, hfree'⟩ := new_isSome
    (show (NO_EXECUTE ||| WRITABLE) &&& WRITABLE = WRITABLE by decide) hunused hlow
    (fun a => address_mem_pages hslot) hfree
  have hmapped := (new_some hnew).2.mapped
  obtain ⟨bytes, hwrite⟩ := writeBytes_isSome (m := k.mapper) bs start k.bytes fun a hle hlt => by
    simpa [Mapper.translatePage] using hmapped _ (address_mem_pages hslot hle (by omega))
  obtain ⟨m', hremap⟩ := remapPages_isSome flags hmapped
  refine ⟨⟨⟨m', bytes⟩, s.image ++ [⟨start, size, flags⟩], s.tls⟩, ?_, (remapPages_some hremap).1 ▸ hfree'⟩
  rw [fill, hnew, hsource]
  simp [hwrite, Memory.remap, Memory.pages, hremap]

/-- A fitting segment is loaded where its pages are free. -/
theorem loadSegment_isSome (h : Fitting data ph)
    (hunused : ∀ p ∈ ph.pages, s.machine.mapper.entryAt p = none)
    (hfree : n + 4 * ph.pages.length ≤ s.machine.mapper.free.length) :
    ∃ s', loadSegment data ph s = some s' ∧ n ≤ s'.machine.mapper.free.length := by
  have hregion := h.file
  have hsizes := h.sizes
  rw [ProgramHeader.pages, ProgramHeader.region] at hunused hfree
  rw [ProgramHeader.region] at hregion hsizes
  rw [loadSegment]
  split
  · rename_i hload
    rw [if_pos hload] at hunused hfree hregion hsizes
    refine fill_isSome h.start (h.slot hload) (if_pos (hregion (Option.some_ne_none _))) ?_ hunused hfree
    rw [List.length_take]
    exact (Nat.min_le_left _ _).trans (hsizes (Option.some_ne_none _))
  · rename_i hload
    rw [if_neg hload] at hunused hfree
    split
    · rename_i htls
      rw [if_pos htls] at hunused hfree
      have hlow : ∀ p ∈ pagesOf USER_TCB_OFFSET 4096, p < 2 ^ 36 := fun p hp =>
        low_of_slot (((slot_iff (by decide)).mpr inSlot_tcb).2 p hp)
      obtain ⟨k, hnew, hfree'⟩ := new_isSome
        (show (NO_EXECUTE ||| WRITABLE ||| USER_ACCESSIBLE) &&& WRITABLE = WRITABLE by decide) hunused hlow
        (fun a => address_mem_pages inSlot_tcb) hfree
      have hmapped := (new_some hnew).2.mapped
      obtain ⟨bytes, hwrite⟩ := writeBytes_isSome (m := k.mapper) (toLe 8 (USER_TLS_OFFSET + ph.pMemsz))
        USER_TCB_OFFSET k.bytes fun a hle hlt => by
          rw [length_toLe] at hlt
          have hend : a < USER_TCB_OFFSET + 4096 := Nat.lt_trans hlt (Nat.add_lt_add_left (by decide) _)
          simpa [Mapper.translatePage] using hmapped _ (address_mem_pages inSlot_tcb hle hend)
      refine ⟨⟨⟨k.mapper, bytes⟩,
        s.image ++ [⟨USER_TCB_OFFSET, 4096, NO_EXECUTE ||| WRITABLE ||| USER_ACCESSIBLE⟩],
        some (ph.pVaddr, ph.pFilesz, ph.pMemsz)⟩, ?_, hfree'⟩
      rw [hnew]
      simp [hwrite]
    · exact ⟨s, rfl, by omega⟩

/-- No two segments share a page. -/
def Disjoint (phs : List ProgramHeader) : Prop :=
  phs.Pairwise fun a b => ∀ p ∈ a.pages, p ∉ b.pages

/-- When the loop comes to its end, the pages of all segments have been mapped, none of them twice. -/
theorem loadSegments_some {is : List Nat} (h : loadSegments elf is s = some s') :
    Maps s.machine.mapper ((is.filterMap elf.segment).flatMap ProgramHeader.pages) s'.machine.mapper ∧
      Disjoint (is.filterMap elf.segment) := by
  induction is generalizing s with
  | nil =>
    cases h
    exact ⟨.nil, .nil⟩
  | cons i is ih =>
    obtain ⟨ph, hph, h⟩ := Option.bind_eq_some_iff.mp h
    obtain ⟨s₁, hload, h⟩ := Option.bind_eq_some_iff.mp h
    have hmaps := loadSegment_some hload
    obtain ⟨hrest, hdisjoint⟩ := ih h
    rw [List.filterMap_cons_some hph, List.flatMap_cons]
    refine ⟨hmaps.trans hrest, .cons ?_ hdisjoint⟩
    intro ph' hph' p hp hp'
    exact hmaps.mapped p hp (hrest.unused p (List.mem_flatMap.mpr ⟨ph', hph', hp'⟩))

/-- Segments that fit and share no page are loaded one after the other. -/
theorem loadSegments_isSome {is : List Nat} (hin : ∀ i ∈ is, elf.segment i ≠ none)
    (hfit : ∀ ph ∈ is.filterMap elf.segment, Fitting elf.data ph)
    (hunused : ∀ ph ∈ is.filterMap elf.segment, ∀ p ∈ ph.pages, s.machine.mapper.entryAt p = none)
    (hdisjoint : Disjoint (is.filterMap elf.segment))
    (hfree : n + 4 * ((is.filterMap elf.segment).flatMap ProgramHeader.pages).length ≤
      s.machine.mapper.free.length) :
    ∃ s', loadSegments elf is s = some s' ∧ n ≤ s'.machine.mapper.free.length := by
  induction is generalizing s with
  | nil => exact ⟨s, rfl, by simpa using hfree⟩
  | cons i is ih =>
    obtain ⟨ph, hph⟩ := Option.ne_none_iff_exists'.mp (hin i List.mem_cons_self)
    rw [List.filterMap_cons_some hph] at hfit hunused hdisjoint hfree
    rw [List.flatMap_cons, List.length_append] at hfree
    obtain ⟨hapart, hdisjoint⟩ := List.pairwise_cons.mp hdisjoint
    obtain ⟨s₁, hload, hfree₁⟩ := loadSegment_isSome (hfit ph List.mem_cons_self)
      (n := n + 4 * ((is.filterMap elf.segment).flatMap ProgramHeader.pages).length)
      (hunused ph List.mem_cons_self) (by omega)
    have hlow : ∀ ph' ∈ ph :: is.filterMap elf.segment, ∀ p ∈ ph'.pages, p < 2 ^ 36 := fun ph' hph' p hp =>
      low_of_slot ((hfit ph' hph').low hp)
    obtain ⟨s', hs', hfree'⟩ := ih (fun j hj => hin j (List.mem_cons_of_mem _ hj))
      (fun ph' hph' => hfit ph' (List.mem_cons_of_mem _ hph')) (fun ph' hph' p hp =>
        (loadSegment_some hload).outside (hlow ph List.mem_cons_self) p
          (hlow ph' (List.mem_cons_of_mem _ hph') p hp) (fun hin => hapart ph' hph' p hin hp)
          (hunused ph' (List.mem_cons_of_mem _ hph') p hp)) hdisjoint hfree₁
    refine ⟨s', ?_, hfree'⟩
    rw [loadSegments, hph]
    simp [hload, hs']

/-- The arguments lie in the slot. -/
theorem inSlot_args (w : Start) : InSlot USER_ARG_OFFSET (argBytes w.args).length := by
  have hfits := w.fits
  have harg : USER_ARG_OFFSET = 2 ^ 38 := by decide
  have hslot : PML4_SIZE = 2 ^ 39 := by decide
  simp only [KERNEL_HEAP_SIZE] at hfits
  rw [InSlot, harg, hslot]
  split
  · exact ⟨by decide, .inl (by decide)⟩
  · omega

theorem argPages_low (h : page ∈ w.argPages) : page < PML4_SIZE / PAGE_SIZE :=
  ((slot_iff (by decide)).mpr (inSlot_args w)).2 page h

theorem loadArgs_some (h : loadArgs w.args s = some s') : ∀ p ∈ w.argPages, s.machine.mapper.entryAt p = none := by
  rw [loadArgs] at h
  split at h
  · exact (fill_some h).unused
  · rename_i hempty
    have hzero : (argBytes w.args).length = 0 := by omega
    have hnone : pagesOf USER_ARG_OFFSET 0 = [] := by decide +kernel
    rw [Start.argPages, hzero, hnone]
    exact nofun

theorem loadArgs_isSome (hunused : ∀ p ∈ w.argPages, s.machine.mapper.entryAt p = none)
    (hfree : 4 * w.argPages.length ≤ s.machine.mapper.free.length) : (loadArgs w.args s).isSome = true := by
  rw [Start.argPages] at hunused hfree
  rw [loadArgs]
  split
  · have hfill : ∃ s', fill USER_ARG_OFFSET (argBytes w.args).length (some (argBytes w.args))
        (NO_EXECUTE ||| USER_ACCESSIBLE) s = some s' ∧ 0 ≤ s'.machine.mapper.free.length :=
      fill_isSome (by decide) (inSlot_args w) rfl (Nat.le_refl _) hunused ((Nat.zero_add _).trans_le hfree)
    obtain ⟨s', hs', -⟩ := hfill
    rw [hs']
    rfl
  · rfl

theorem Fitting.mem_pages (h : Fitting data ph) :
    page ∈ ph.pages ↔ ∃ r, ph.span = some r ∧ r.1 ≤ page ∧ page ≤ r.2 := by
  cases hr : ph.region with
  | none => simp [ProgramHeader.pages, ProgramHeader.span, hr]
  | some r =>
    obtain ⟨start, size⟩ := r
    obtain ⟨hstart, hslot⟩ := h.inSlot hr
    simp only [ProgramHeader.pages, ProgramHeader.span, hr, Option.bind_some]
    exact mem_pagesOf_iff hstart hslot

theorem disjoint_iff (hfit : ∀ ph ∈ phs, Fitting data ph) : Disjoint phs ↔
    (phs.filterMap ProgramHeader.span).Pairwise fun a b => a.2 < b.1 ∨ b.2 < a.1 := by
  rw [List.pairwise_filterMap, Disjoint]
  have hle : ∀ (ph : ProgramHeader) r, ph.span = some r → r.1 ≤ r.2 := by
    intro ph r hr
    obtain ⟨region, -, hspan⟩ := Option.bind_eq_some_iff.mp hr
    exact span_le hspan
  constructor
  · intro h
    refine h.imp_of_mem ?_
    intro a b ha hb hab r hr r' hr'
    have hra := hle a r hr
    have hrb := hle b r' hr'
    by_contra hmeet
    have hmax : ∃ p, r.1 ≤ p ∧ p ≤ r.2 ∧ r'.1 ≤ p ∧ p ≤ r'.2 := ⟨max r.1 r'.1, by omega⟩
    obtain ⟨p, h1, h2, h3, h4⟩ := hmax
    exact hab p ((hfit a ha).mem_pages.mpr ⟨r, hr, h1, h2⟩) ((hfit b hb).mem_pages.mpr ⟨r', hr', h3, h4⟩)
  · intro h
    refine h.imp_of_mem ?_
    intro a b ha hb hab p hpa hpb
    obtain ⟨r, hr, h1, h2⟩ := (hfit a ha).mem_pages.mp hpa
    obtain ⟨r', hr', h3, h4⟩ := (hfit b hb).mem_pages.mp hpb
    have := hab r hr r' hr'
    omega

/-- There is a machine that is ready, with as many frames as are wanted. -/
theorem exists_ready (w : Start) (n : Nat) :
    ∃ s : Image, w.Ready s.machine.mapper ∧ n ≤ s.machine.mapper.free.length := by
  obtain ⟨pages, hnodup, hmem⟩ : ∃ pages : List Nat, pages.Nodup ∧
      ∀ p, p ∈ pages ↔ p < PML4_SIZE / PAGE_SIZE ∧ p ∈ w.kept := by
    refine ⟨(List.range (PML4_SIZE / PAGE_SIZE)).filter (· ∈ w.kept), List.nodup_range.filter _, fun p => ?_⟩
    rw [List.mem_filter, List.mem_range, decide_eq_true_iff]
  have hlow : ∀ p ∈ pages, p < 2 ^ 36 := fun p hp => low_of_slot ((hmem p).mp hp).1
  obtain ⟨m, hpages, hfree, hout⟩ := mapPages_isSome (m := ⟨fun _ => none, List.replicate (n + 4 * pages.length) 0⟩)
    (n := n) PRESENT (fun _ _ => rfl) hlow hnodup (by rw [List.length_replicate])
  refine ⟨⟨⟨m, fun _ _ => 0⟩, [], none⟩, ?_, hfree⟩
  intro page hpage
  constructor
  · intro hnone hkept
    exact (Maps.mapPages hpages).mapped page ((hmem page).mpr ⟨hpage, hkept⟩) hnone
  · intro hkept
    exact hout page (low_of_slot hpage) fun hp => hkept ((hmem page).mp hp).2

/-- `Elf::from` takes numbers of two and of eight bytes from the header. -/
theorem fromData_ok (h : fromData data = .ok elf) :
    elf.data = data ∧ elf.ePhoff < 2 ^ 64 ∧ elf.ePhentsize < 2 ^ 16 ∧ elf.ePhnum < 2 ^ 16 := by
  rw [fromData] at h
  split at h
  · cases h
  · split at h
    · cases h
    · split at h
      · cases h
      · cases h
        exact ⟨rfl, field_lt _ _ 8, field_lt _ _ 2, field_lt _ _ 2⟩

theorem Confined.slot_load (h : Confined w elf) (hph : ph ∈ elf.segments) (hload : ph.pType = PT_LOAD) :
    InSlot ph.pVaddr ph.pMemsz := by
  have hregion : ph.region = some (ph.pVaddr, ph.pMemsz) := if_pos hload
  exact (slot_iff (mem_segments_lt hph).1).mp (h.slot ph hph _ _ hregion)

theorem Tame.fitting (h : Tame w elf) (hph : ph ∈ elf.segments) : Fitting elf.data ph :=
  ⟨h.file ph hph, h.sizes ph hph, (mem_segments_lt hph).1, h.slot ph hph⟩

theorem mem_segment_pages : page ∈ elf.segments.flatMap ProgramHeader.pages ↔ ∃ ph ∈ elf.segments, page ∈ ph.pages :=
  List.mem_flatMap

/-- What a load that comes to its end shows of the pages -/
theorem Tame.of_loads {s'' : Image} (hfit : ∀ ph ∈ elf.segments, Fitting elf.data ph)
    (hready : w.Ready s.machine.mapper) (hload : load elf s = some s') (hargs : loadArgs w.args s' = some s'') :
    Disjoint elf.segments ∧ (∀ r ∈ elf.segments.filterMap ProgramHeader.span,
      ∀ page ∈ w.kept ++ w.argPages, page < r.1 ∨ r.2 < page) ∧ ∀ page ∈ w.argPages, page ∉ w.kept := by
  obtain ⟨hmaps, hdisjoint⟩ := loadSegments_some hload
  have hunused := loadArgs_some hargs
  refine ⟨hdisjoint, ?_, ?_⟩
  · intro r hr page hpage
    obtain ⟨ph, hph, hspan⟩ := List.mem_filterMap.mp hr
    by_contra hmeet
    have hin : page ∈ ph.pages := (hfit ph hph).mem_pages.mpr ⟨r, hspan, by omega, by omega⟩
    have hall := mem_segment_pages.mpr ⟨ph, hph, hin⟩
    rcases List.mem_append.mp hpage with hkept | harg
    · exact (hready page ((hfit ph hph).low hin)).mp (hmaps.unused page hall) hkept
    · exact hmaps.mapped page hall (hunused page harg)
  · intro page harg
    refine (hready page (argPages_low harg)).mp ?_
    by_contra hold
    exact hmaps.kept page hold (hunused page harg)

/-- The pages of the segments and of the arguments are free when they are needed. -/
theorem Tame.unused (h : Tame w elf) (hready : w.Ready s.machine.mapper) (hph : ph ∈ elf.segments)
    (hp : page ∈ ph.pages) : page ∉ w.argPages ∧ s.machine.mapper.entryAt page = none := by
  obtain ⟨r, hspan, h1, h2⟩ := (h.fitting hph).mem_pages.mp hp
  have hclear := h.clear r (List.mem_filterMap.mpr ⟨ph, hph, hspan⟩) page
  refine ⟨fun harg => ?_, (hready page ((h.fitting hph).low hp)).mpr fun hkept => ?_⟩
  · have := hclear (List.mem_append_right _ harg)
    omega
  · have := hclear (List.mem_append_left _ hkept)
    omega

theorem Tame.args_unused (h : Tame w elf) (hready : w.Ready s.machine.mapper) (hload : load elf s = some s')
    (hp : page ∈ w.argPages) : s'.machine.mapper.entryAt page = none := by
  have hlow : ∀ p ∈ elf.segments.flatMap ProgramHeader.pages, p < 2 ^ 36 := by
    intro p hp
    obtain ⟨ph, hph, hp⟩ := mem_segment_pages.mp hp
    exact low_of_slot ((h.fitting hph).low hp)
  refine (loadSegments_some hload).1.outside hlow page (low_of_slot (argPages_low hp)) ?_
    ((hready page (argPages_low hp)).mpr (h.room page hp))
  intro hin
  obtain ⟨ph, hph, hin⟩ := mem_segment_pages.mp hin
  exact (h.unused hready hph hin).1 hp

/-- A file with a header that says so many program headers follow, and nothing else in the header. -/
def headerOf (phnum : Nat) : Data :=
  ELFMAG ++ [ELFCLASS64] ++ List.replicate 27 0 ++ toLe 8 64 ++ List.replicate 14 0 ++ toLe 2 56 ++
    toLe 2 phnum ++ List.replicate 6 0

/-- One segment: the whole file, at an address that is usual. -/
def oneSegment : Data :=
  headerOf 1 ++ toLe 4 PT_LOAD ++ toLe 4 (PF_R + PF_X) ++ toLe 8 0 ++ toLe 8 0x400000 ++ toLe 8 0 ++
    toLe 8 120 ++ toLe 8 120 ++ toLe 8 4096

/-- One CPU with a page of data, and a program that has one argument -/
def oneCpu : Start := ⟨1, 4096, [], [[0x61]], by decide⟩

end Origel.Kernel.Executable
