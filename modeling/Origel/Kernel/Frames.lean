import Mathlib.Data.List.Basic
import Origel.Kernel.Paging
import Origel.Lib.Run

/-! Physical memory: the allocator that goes up through the free areas of the memory map. -/
namespace Origel.Kernel.Frames

open Origel.Lib
open Paging (PAGE_SIZE)

def MEMORY_AREA_FREE : Nat := 1

/-- An entry of the memory map. Its `acpi` field is not read. -/
structure MemoryArea where
  baseAddr : Nat
  length : Nat
  type : Nat
  deriving DecidableEq, Repr

namespace MemoryArea

def firstFrame (area : MemoryArea) : Nat := area.baseAddr / PAGE_SIZE

/-- The frame of `base_addr + length - 1` -/
def lastFrame (area : MemoryArea) : Nat :=
  (area.baseAddr + area.length + (2 ^ 64 - 1)) % 2 ^ 64 / PAGE_SIZE

def Has (area : MemoryArea) (byte : Nat) : Prop :=
  area.baseAddr ≤ byte ∧ byte < area.baseAddr + area.length

end MemoryArea

/-- `Iterator::min_by_key`: the first of the elements with the least key -/
def minByKey {α : Type} (key : α → Nat) : List α → Option α
  | [] => none
  | x :: l =>
    match minByKey key l with
    | none => some x
    | some y => if key x ≤ key y then some x else some y

structure AreaFrameAllocator where
  nextFreeFrame : Nat
  currentArea : Option MemoryArea
  areas : List MemoryArea
  kernelStart : Nat
  kernelEnd : Nat
  deriving DecidableEq, Repr

namespace AreaFrameAllocator

/-- Areas that are free and are not behind. -/
def candidates (a : AreaFrameAllocator) : List MemoryArea :=
  (a.areas.filter (·.type = MEMORY_AREA_FREE)).filter (·.lastFrame ≥ a.nextFreeFrame)

def chooseNextArea (a : AreaFrameAllocator) : AreaFrameAllocator :=
  match minByKey MemoryArea.baseAddr a.candidates with
  | some area =>
    { a with
      currentArea := some area
      nextFreeFrame := if a.nextFreeFrame < area.firstFrame then area.firstFrame else a.nextFreeFrame }
  | none => { a with currentArea := none }

def new (kernelStart kernelEnd : Nat) (areas : List MemoryArea) : AreaFrameAllocator :=
  chooseNextArea ⟨0, none, areas, kernelStart / PAGE_SIZE, kernelEnd / PAGE_SIZE⟩

/-- The frame is used by the kernel. -/
def inKernel (a : AreaFrameAllocator) (frame : Nat) : Bool :=
  frame ≥ a.kernelStart ∧ frame ≤ a.kernelEnd

/-- `allocate_frames`, with no result when so many calls of itself are not enough -/
def allocateFrames : Nat → AreaFrameAllocator → Nat → Option (Option Nat × AreaFrameAllocator)
  | 0, _, _ => none
  | fuel + 1, a, count =>
    if count = 0 then some (none, a)
    else
      match a.currentArea with
      | none => some (none, a)
      | some area =>
        let startFrame := a.nextFreeFrame
        let endFrame := (a.nextFreeFrame + (count - 1)) % 2 ^ 64
        if endFrame > area.lastFrame then allocateFrames fuel a.chooseNextArea count
        else if a.inKernel startFrame ∨ a.inKernel endFrame then
          allocateFrames fuel { a with nextFreeFrame := (a.kernelEnd + 1) % 2 ^ 64 } count
        else some (some startFrame, { a with nextFreeFrame := (a.nextFreeFrame + count) % 2 ^ 64 })

end AreaFrameAllocator

open AreaFrameAllocator

/-- A call with its count, and what it returned. -/
abbrev Call := Nat × Option Nat

def Step (P : Nat → Prop) (a : AreaFrameAllocator) (call : Call) (a' : AreaFrameAllocator) : Prop :=
  P call.1 ∧ ∃ fuel, allocateFrames fuel a call.1 = some (call.2, a')

/-- Frames from the first one, so many. -/
structure Range where
  start : Nat
  count : Nat
  deriving DecidableEq, Repr

def Range.Has (r : Range) (frame : Nat) : Prop := r.start ≤ frame ∧ frame < r.start + r.count

def returned (calls : List Call) : List Range :=
  calls.filterMap fun call => call.2.map fun start => ⟨start, call.1⟩

/-- The byte lies in a free area. -/
def FreeByte (areas : List MemoryArea) (byte : Nat) : Prop :=
  ∃ area ∈ areas, area.type = MEMORY_AREA_FREE ∧ area.Has byte

/-- No frame is returned twice, none is the kernel's, and every byte of each is free. -/
structure Safe (areas : List MemoryArea) (kernelStart kernelEnd : Nat) (rs : List Range) : Prop where
  disjoint : rs.Pairwise fun r r' => ∀ frame, r.Has frame → ¬ r'.Has frame
  kernel : ∀ r ∈ rs, ∀ frame, r.Has frame →
    ¬ (kernelStart / PAGE_SIZE ≤ frame ∧ frame ≤ kernelEnd / PAGE_SIZE)
  free : ∀ r ∈ rs, ∀ byte, r.Has (byte / PAGE_SIZE) → FreeByte areas byte

/-- Free areas are not empty, end in the address space, and the frames that they touch are free. -/
structure Whole (areas : List MemoryArea) : Prop where
  nonempty : ∀ area ∈ areas, area.type = MEMORY_AREA_FREE → 0 < area.length
  ends : ∀ area ∈ areas, area.type = MEMORY_AREA_FREE → area.baseAddr + area.length ≤ 2 ^ 64
  free : ∀ area ∈ areas, area.type = MEMORY_AREA_FREE → ∀ byte,
    area.firstFrame ≤ byte / PAGE_SIZE → byte / PAGE_SIZE ≤ area.lastFrame → FreeByte areas byte

/-- The count does not wrap around, and a request in a free area that lies on both sides of the kernel
is too small to do so. -/
structure Modest (areas : List MemoryArea) (kernelStart kernelEnd : Nat) (count : Nat) : Prop where
  small : count + 2 ^ 52 ≤ 2 ^ 64
  around : ∀ area ∈ areas, area.type = MEMORY_AREA_FREE →
    area.firstFrame < kernelStart → kernelStart ≤ kernelEnd → kernelEnd < area.lastFrame →
    count ≤ kernelEnd - kernelStart + 2

variable {a a' : AreaFrameAllocator} {areas : List MemoryArea} {area : MemoryArea}
  {count fuel kernelStart kernelEnd : Nat} {result : Option Nat} {calls : List Call}

theorem mem_of_minByKey {α : Type} {key : α → Nat} {l : List α} {x : α}
    (h : minByKey key l = some x) : x ∈ l := by
  induction l generalizing x with
  | nil => cases h
  | cons y l ih =>
    rw [minByKey] at h
    split at h
    · cases h
      exact List.mem_cons_self
    · rename_i z hz
      split at h
      · cases h
        exact List.mem_cons_self
      · cases h
        exact List.mem_cons_of_mem _ (ih hz)

theorem Whole.lastFrame_eq (h : Whole areas) (hmem : area ∈ areas) (hfree : area.type = MEMORY_AREA_FREE) :
    area.lastFrame = (area.baseAddr + area.length - 1) / PAGE_SIZE := by
  have hpos := h.nonempty area hmem hfree
  have hend := h.ends area hmem hfree
  have hwrap : (area.baseAddr + area.length + (2 ^ 64 - 1)) % 2 ^ 64 =
      area.baseAddr + area.length - 1 := by omega
  rw [MemoryArea.lastFrame, hwrap]

theorem Whole.lastFrame_lt (h : Whole areas) (hmem : area ∈ areas) (hfree : area.type = MEMORY_AREA_FREE) :
    area.lastFrame < 2 ^ 52 := by
  have hend := h.ends area hmem hfree
  have hpos := h.nonempty area hmem hfree
  rw [h.lastFrame_eq hmem hfree, PAGE_SIZE]
  omega

theorem Whole.firstFrame_lt (h : Whole areas) (hmem : area ∈ areas) (hfree : area.type = MEMORY_AREA_FREE) :
    area.firstFrame < 2 ^ 52 := by
  have hend := h.ends area hmem hfree
  have hpos := h.nonempty area hmem hfree
  rw [MemoryArea.firstFrame, PAGE_SIZE]
  omega

/-- The allocator is in a free area, or has none. -/
structure Inv (a : AreaFrameAllocator) : Prop where
  area : ∀ area, a.currentArea = some area →
    area ∈ a.areas ∧ area.type = MEMORY_AREA_FREE ∧ area.firstFrame ≤ a.nextFreeFrame
  next : a.nextFreeFrame ≤ 2 ^ 52
  kernel : a.kernelEnd < 2 ^ 52

/-- What stays, and that the allocator only goes up. -/
structure Onward (a a' : AreaFrameAllocator) : Prop where
  areas : a'.areas = a.areas
  kernelStart : a'.kernelStart = a.kernelStart
  kernelEnd : a'.kernelEnd = a.kernelEnd
  next : a.nextFreeFrame ≤ a'.nextFreeFrame

theorem Onward.refl (a : AreaFrameAllocator) : Onward a a := ⟨rfl, rfl, rfl, Nat.le_refl _⟩

theorem Onward.trans {a'' : AreaFrameAllocator} (h : Onward a a') (h' : Onward a' a'') : Onward a a'' :=
  ⟨h'.areas.trans h.areas, h'.kernelStart.trans h.kernelStart, h'.kernelEnd.trans h.kernelEnd,
    Nat.le_trans h.next h'.next⟩

theorem chooseNextArea_onward (a : AreaFrameAllocator) : Onward a a.chooseNextArea := by
  rw [chooseNextArea]
  split
  · refine ⟨rfl, rfl, rfl, ?_⟩
    dsimp only
    split <;> omega
  · exact ⟨rfl, rfl, rfl, Nat.le_refl _⟩

theorem Inv.chooseNextArea (hwhole : Whole a.areas) (hnext : a.nextFreeFrame ≤ 2 ^ 52)
    (hkernel : a.kernelEnd < 2 ^ 52) : Inv a.chooseNextArea := by
  rw [AreaFrameAllocator.chooseNextArea]
  split
  · rename_i area hmin
    have hmem := mem_of_minByKey hmin
    simp only [candidates, List.mem_filter, decide_eq_true_eq] at hmem
    obtain ⟨⟨hmem, hfree⟩, -⟩ := hmem
    have hfirst := hwhole.firstFrame_lt hmem hfree
    refine ⟨?_, ?_, hkernel⟩
    · intro area' harea
      cases harea
      refine ⟨hmem, hfree, ?_⟩
      dsimp only
      split <;> omega
    · dsimp only
      split <;> omega
  · exact ⟨nofun, hnext, hkernel⟩

theorem Inv.advance {frame : Nat} (h : Inv a) (hup : a.nextFreeFrame ≤ frame) (hframe : frame ≤ 2 ^ 52) :
    Inv { a with nextFreeFrame := frame } ∧ Onward a { a with nextFreeFrame := frame } := by
  refine ⟨⟨?_, hframe, h.kernel⟩, rfl, rfl, rfl, hup⟩
  intro area harea
  obtain ⟨hmem, hfree, hfirst⟩ := h.area area harea
  exact ⟨hmem, hfree, Nat.le_trans hfirst hup⟩

/-- A range that one call returns. -/
structure Granted (a : AreaFrameAllocator) (r : Range) : Prop where
  above : a.nextFreeFrame ≤ r.start
  inside : ∃ area ∈ a.areas, area.type = MEMORY_AREA_FREE ∧ area.firstFrame ≤ r.start ∧
    r.start + r.count ≤ area.lastFrame + 1
  kernel : ∀ frame, r.Has frame → ¬ (a.kernelStart ≤ frame ∧ frame ≤ a.kernelEnd)

theorem Granted.of_onward {r : Range} (h : Granted a' r) (ho : Onward a a') : Granted a r := by
  refine ⟨Nat.le_trans ho.next h.above, ?_, ?_⟩
  · rw [← ho.areas]
    exact h.inside
  · rw [← ho.kernelStart, ← ho.kernelEnd]
    exact h.kernel

theorem allocateFrames_spec (h : Inv a) (hwhole : Whole a.areas)
    (hmodest : Modest a.areas a.kernelStart a.kernelEnd count)
    (heq : allocateFrames fuel a count = some (result, a')) : Inv a' ∧ Onward a a' ∧
      ∀ start, result = some start → Granted a ⟨start, count⟩ ∧ start + count ≤ a'.nextFreeFrame := by
  induction fuel generalizing a with
  | zero => cases heq
  | succ fuel ih =>
    rw [allocateFrames] at heq
    split at heq
    · cases heq
      exact ⟨h, .refl _, nofun⟩
    · rename_i hcount
      split at heq
      · cases heq
        exact ⟨h, .refl _, nofun⟩
      · rename_i area harea
        obtain ⟨hmem, hfree, hfirst⟩ := h.area area harea
        have hlast := hwhole.lastFrame_lt hmem hfree
        have hnext := h.next
        have hsmall := hmodest.small
        have hend : (a.nextFreeFrame + (count - 1)) % 2 ^ 64 = a.nextFreeFrame + (count - 1) :=
          Nat.mod_eq_of_lt (by omega)
        dsimp only at heq
        rw [hend] at heq
        -- the two branches that try again go on with an allocator that has moved up
        have hagain : ∀ b, Inv b → Onward a b → allocateFrames fuel b count = some (result, a') →
            Inv a' ∧ Onward a a' ∧ ∀ start, result = some start →
              Granted a ⟨start, count⟩ ∧ start + count ≤ a'.nextFreeFrame := by
          intro b hb ho hrest
          obtain ⟨hinv, ho', hgranted⟩ := ih hb (ho.areas ▸ hwhole)
            (by rw [ho.areas, ho.kernelStart, ho.kernelEnd]; exact hmodest) hrest
          refine ⟨hinv, ho.trans ho', ?_⟩
          intro start hstart
          obtain ⟨hg, hle⟩ := hgranted start hstart
          exact ⟨hg.of_onward ho, hle⟩
        split at heq
        · exact hagain _ (Inv.chooseNextArea hwhole h.next h.kernel) (chooseNextArea_onward a) heq
        · rename_i hfits
          have hkernel := h.kernel
          split at heq
          · rename_i hin
            have hup : a.nextFreeFrame ≤ a.kernelEnd := by
              simp only [inKernel, decide_eq_true_eq] at hin
              omega
            have hwrap : (a.kernelEnd + 1) % 2 ^ 64 = a.kernelEnd + 1 := Nat.mod_eq_of_lt (by omega)
            rw [hwrap] at heq
            obtain ⟨hb, ho⟩ := h.advance (show a.nextFreeFrame ≤ a.kernelEnd + 1 by omega) (by omega)
            exact hagain _ hb ho heq
          · rename_i hout
            have hwrap : (a.nextFreeFrame + count) % 2 ^ 64 = a.nextFreeFrame + count :=
              Nat.mod_eq_of_lt (by omega)
            rw [hwrap] at heq
            cases heq
            obtain ⟨hb, ho⟩ := h.advance (show a.nextFreeFrame ≤ a.nextFreeFrame + count by omega) (by omega)
            refine ⟨hb, ho, ?_⟩
            intro start hstart
            cases hstart
            refine ⟨⟨Nat.le_refl _, ⟨area, hmem, hfree, hfirst, ?_⟩, ?_⟩, Nat.le_refl _⟩
            · dsimp only
              omega
            · -- neither end is in the kernel, so the range would have to reach around it
              rintro frame ⟨hlo, hhi⟩ ⟨hks, hke⟩
              have haround := hmodest.around area hmem hfree
              simp only [inKernel, decide_eq_true_eq, not_or] at hout
              dsimp only at hlo hhi
              omega

theorem new_onward (kernelStart kernelEnd : Nat) (areas : List MemoryArea) :
    (new kernelStart kernelEnd areas).areas = areas ∧
    (new kernelStart kernelEnd areas).kernelStart = kernelStart / PAGE_SIZE ∧
    (new kernelStart kernelEnd areas).kernelEnd = kernelEnd / PAGE_SIZE := by
  have h := chooseNextArea_onward ⟨0, none, areas, kernelStart / PAGE_SIZE, kernelEnd / PAGE_SIZE⟩
  exact ⟨h.areas, h.kernelStart, h.kernelEnd⟩

/-- The ranges of a run lie above each other, each where it may be. -/
theorem run_granted (h : Inv a) (hwhole : Whole a.areas)
    (hrun : Run (Step (Modest a.areas a.kernelStart a.kernelEnd)) a calls a') :
    (∀ r ∈ returned calls, Granted a r) ∧
    (returned calls).Pairwise fun r r' => r.start + r.count ≤ r'.start := by
  generalize hareas : a.areas = areas at hrun hwhole
  generalize hks : a.kernelStart = kernelStart at hrun
  generalize hke : a.kernelEnd = kernelEnd at hrun
  induction hrun with
  | nil => exact ⟨nofun, .nil⟩
  | @cons a b a' call calls hstep hrest ih =>
    subst hareas hks hke
    obtain ⟨hmodest, fuel, heq⟩ := hstep
    obtain ⟨hb, ho, hgranted⟩ := allocateFrames_spec h hwhole hmodest heq
    obtain ⟨hlater, hpairs⟩ := ih hb ho.areas ho.kernelStart ho.kernelEnd
    obtain ⟨count, result⟩ := call
    cases result with
    | none => exact ⟨fun r hr => (hlater r hr).of_onward ho, hpairs⟩
    | some start =>
      obtain ⟨hg, hle⟩ := hgranted start rfl
      refine ⟨?_, .cons ?_ hpairs⟩
      · intro r hr
        rcases List.mem_cons.mp hr with rfl | hr
        · exact hg
        · exact (hlater r hr).of_onward ho
      · intro r hr
        exact Nat.le_trans hle (hlater r hr).above

/-- One free area of sixteen frames; the kernel has two of them. -/
def oneArea : List MemoryArea := [⟨0, 65536, MEMORY_AREA_FREE⟩]

theorem oneArea_whole : Whole oneArea where
  nonempty area hmem _ := by
    cases List.mem_singleton.mp hmem
    decide
  ends area hmem _ := by
    cases List.mem_singleton.mp hmem
    decide
  free area hmem _ byte _ hlast := by
    cases List.mem_singleton.mp hmem
    refine ⟨_, hmem, rfl, Nat.zero_le _, ?_⟩
    have hend : MemoryArea.lastFrame ⟨0, 65536, MEMORY_AREA_FREE⟩ = 15 := by decide
    rw [hend, PAGE_SIZE] at hlast
    dsimp only
    omega

/-- With a memory map whose free areas consist of free frames, and requests that do not reach around the
kernel, physical memory is given out once and is free. -/
theorem allocated_frames_safe (areas : List MemoryArea) (kernelStart kernelEnd : Nat)
    (hend : kernelEnd < 2 ^ 64) (hwhole : Whole areas) {calls : List Call} {a : AreaFrameAllocator}
    (hrun : Run (Step (Modest areas (kernelStart / PAGE_SIZE) (kernelEnd / PAGE_SIZE)))
      (new kernelStart kernelEnd areas) calls a) :
    Safe areas kernelStart kernelEnd (returned calls) := by
  obtain ⟨hareas, hks, hke⟩ := new_onward kernelStart kernelEnd areas
  have hinv : Inv (new kernelStart kernelEnd areas) := by
    refine Inv.chooseNextArea hwhole (Nat.zero_le _) ?_
    simp only [PAGE_SIZE]
    omega
  obtain ⟨hgranted, hpairs⟩ := run_granted hinv (hareas.symm ▸ hwhole)
    (by rw [hareas, hks, hke]; exact hrun)
  refine ⟨hpairs.imp ?_, ?_, ?_⟩
  · rintro r r' hle frame ⟨-, hlt⟩ ⟨hge, -⟩
    omega
  · intro r hr
    rw [← hks, ← hke]
    exact (hgranted r hr).kernel
  · rintro r hr byte ⟨hlo, hhi⟩
    obtain ⟨area, hmem, hfree, hfirst, hlast⟩ := (hgranted r hr).inside
    rw [hareas] at hmem
    exact hwhole.free area hmem hfree byte (by omega) (by omega)

/-- Two frames below the kernel, and one after it. -/
theorem frames_beside_kernel : Safe oneArea 8192 12288 [⟨0, 2⟩, ⟨4, 1⟩] := by
  have hmodest : ∀ count, count ≤ 2 → Modest oneArea (8192 / PAGE_SIZE) (12288 / PAGE_SIZE) count := by
    intro count hcount
    refine ⟨by omega, fun _ _ _ _ _ _ => ?_⟩
    simp only [PAGE_SIZE]
    omega
  have hfirst : allocateFrames 1 (new 8192 12288 oneArea) 2 =
      some (some 0, ⟨2, some ⟨0, 65536, MEMORY_AREA_FREE⟩, oneArea, 2, 3⟩) := by decide
  have hsecond : allocateFrames 2 ⟨2, some ⟨0, 65536, MEMORY_AREA_FREE⟩, oneArea, 2, 3⟩ 1 =
      some (some 4, ⟨5, some ⟨0, 65536, MEMORY_AREA_FREE⟩, oneArea, 2, 3⟩) := by decide
  have hrun : Run (Step (Modest oneArea (8192 / PAGE_SIZE) (12288 / PAGE_SIZE)))
      (new 8192 12288 oneArea) [(2, some 0), (1, some 4)] _ :=
    .cons ⟨hmodest 2 (by decide), 1, hfirst⟩ (.cons ⟨hmodest 1 (by decide), 2, hsecond⟩ .nil)
  exact allocated_frames_safe oneArea 8192 12288 (by decide) oneArea_whole hrun

/-- A request for eight frames is given the kernel's among them. -/
theorem request_around_kernel : ∃ calls a,
    Run (Step fun _ => True) (new 8192 12288 oneArea) calls a ∧
      ¬ Safe oneArea 8192 12288 (returned calls) := by
  have hcall : allocateFrames 1 (new 8192 12288 oneArea) 8 =
      some (some 0, ⟨8, some ⟨0, 65536, MEMORY_AREA_FREE⟩, oneArea, 2, 3⟩) := by decide
  refine ⟨[(8, some 0)], _, .cons ⟨trivial, 1, hcall⟩ .nil, ?_⟩
  intro h
  exact h.kernel ⟨0, 8⟩ List.mem_cons_self 2 ⟨by decide, by decide⟩ (by decide)

end Origel.Kernel.Frames
