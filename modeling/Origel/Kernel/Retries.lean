import Origel.Lib.Loop
import Origel.Kernel.Frames

/-! The requests for frames that the allocator answers, and those that it retries for ever. -/
namespace Origel.Kernel.Frames

open Lib Relation AreaFrameAllocator
open Paging (PAGE_SIZE)

/-- There are so many frames in a row, from the next free frame on, in a free area and beside the
kernel. -/
def Fits (a : AreaFrameAllocator) (count : Nat) : Prop :=
  0 < count ∧ ∃ area ∈ a.areas, area.type = MEMORY_AREA_FREE ∧
    ∃ start, a.nextFreeFrame ≤ start ∧ area.firstFrame ≤ start ∧ start + (count - 1) ≤ area.lastFrame ∧
      ∀ frame, Range.Has ⟨start, count⟩ frame → ¬(a.kernelStart ≤ frame ∧ frame ≤ a.kernelEnd)

/-- The call returns: frames where there are some to be had, and nothing otherwise. -/
def Meets (a : AreaFrameAllocator) (count : Nat) : Prop :=
  ∃ fuel result a', allocateFrames fuel a count = some (result, a') ∧
    (result.isSome ↔ Fits a count)

/-- The last of the frames that a request would get -/
abbrev endFrame (a : AreaFrameAllocator) (count : Nat) : Nat :=
  (a.nextFreeFrame + (count - 1)) % 2 ^ 64

/-- The current area goes on up to the last frame. -/
def Room (a : AreaFrameAllocator) (count : Nat) : Prop :=
  ∃ area, a.currentArea = some area ∧ endFrame a count ≤ area.lastFrame

/-- The kernel has the first or the last frame. -/
abbrev Touches (a : AreaFrameAllocator) (count : Nat) : Prop :=
  a.inKernel a.nextFreeFrame ∨ a.inKernel (endFrame a count)

/-- The allocator after the kernel -/
def pastKernel (a : AreaFrameAllocator) : AreaFrameAllocator :=
  { a with nextFreeFrame := (a.kernelEnd + 1) % 2 ^ 64 }

/-- Where the search for an area comes to, which passes over areas without a frame. -/
inductive Seeks (count : Nat) : AreaFrameAllocator → Option AreaFrameAllocator → Prop
  | nothing {a : AreaFrameAllocator} (h : a.chooseNextArea.currentArea = none) : Seeks count a none
  | found {a : AreaFrameAllocator} {area : MemoryArea} (h : a.chooseNextArea.currentArea = some area)
      (hhas : area.firstFrame ≤ area.lastFrame ∨ Room a.chooseNextArea count) :
      Seeks count a (some a.chooseNextArea)
  | skip {a : AreaFrameAllocator} {area : MemoryArea} {r : Option AreaFrameAllocator}
      (h : a.chooseNextArea.currentArea = some area) (hempty : area.lastFrame < area.firstFrame)
      (hroom : ¬Room a.chooseNextArea count) (hrest : Seeks count a.chooseNextArea r) : Seeks count a r

/-- Where a request is tried: in the current area, or where that has no room in the next one. -/
def Places (count : Nat) (a : AreaFrameAllocator) (r : Option AreaFrameAllocator) : Prop :=
  (Room a count ∧ r = some a) ∨ (¬Room a count ∧ Seeks count a r)

/-- The area has so many frames from the next free one on, all in front of the kernel or all behind it. -/
def Holds (a : AreaFrameAllocator) (area : MemoryArea) (count : Nat) : Prop :=
  let first := max a.nextFreeFrame area.firstFrame
  first + count ≤ area.lastFrame + 1 ∧
      (first + count ≤ a.kernelStart ∨ a.kernelEnd < first ∨ a.kernelEnd < a.kernelStart) ∨
    max first (a.kernelEnd + 1) + count ≤ area.lastFrame + 1

/-- The frames of a request lie in the current area, which is a free one. -/
def Own (a : AreaFrameAllocator) (count : Nat) : Prop :=
  ∃ area, a.currentArea = some area ∧ area ∈ a.areas ∧ area.type = MEMORY_AREA_FREE ∧
    area.firstFrame ≤ a.nextFreeFrame ∧ a.nextFreeFrame + count ≤ area.lastFrame + 1

/-- The kernel lies between the first and the last frame. -/
def Around (a : AreaFrameAllocator) (count : Nat) : Prop :=
  a.nextFreeFrame < a.kernelStart ∧ a.kernelStart ≤ a.kernelEnd ∧ a.kernelEnd + 1 < a.nextFreeFrame + count

/-- A request that gets the next frames should get some. It gets free ones; where the kernel is among
them, there are as many behind it in some area. The current area may also be none of the free ones, or begin
behind the next frame, after a request that wrapped around: then some area has the frames. -/
def Serves (a : AreaFrameAllocator) (count : Nat) : Prop :=
  Own a count ∧ (Around a count → ∃ area ∈ a.areas, area.type = MEMORY_AREA_FREE ∧
      max (a.kernelEnd + 1) area.firstFrame + count ≤ area.lastFrame + 1) ∨
    ¬Own a count ∧ ∃ area ∈ a.areas, area.type = MEMORY_AREA_FREE ∧ Holds a area count

/-- What is found after the kernel, which `b` was not yet behind, suits the request, if anything is. -/
def SuitsAfter (b : AreaFrameAllocator) (count : Nat) : Option AreaFrameAllocator → Prop
  | none => True
  | some c => Room c count ∧ ¬Touches c count ∧ b.nextFreeFrame ≤ b.kernelEnd ∧ Serves c count

/-- What is found suits the request, if anything is, or where the kernel is in the way what is found after
it does. -/
def Suits (count : Nat) : Option AreaFrameAllocator → Prop
  | none => True
  | some b => Room b count ∧ (¬Touches b count → Serves b count) ∧
    (Touches b count → ∃ r, Places count (pastKernel b) r ∧ SuitsAfter b count r)

/-- The request is for no frames, or there are none for it and there is no current area, or what is found
suits it. -/
def Served (a : AreaFrameAllocator) (count : Nat) : Prop :=
  count = 0 ∨
    (a.currentArea = none ∧ ∀ area ∈ a.areas, area.type = MEMORY_AREA_FREE → ¬Holds a area count) ∨
    (a.currentArea ≠ none ∧ ∃ r, Places count a r ∧ Suits count r)

/-- One call, without the calls of itself -/
def attempt (count : Nat) (a : AreaFrameAllocator) :
    (Option Nat × AreaFrameAllocator) ⊕ AreaFrameAllocator :=
  if count = 0 then .inl (none, a)
  else
    match a.currentArea with
    | none => .inl (none, a)
    | some area =>
      let startFrame := a.nextFreeFrame
      let endFrame := (a.nextFreeFrame + (count - 1)) % 2 ^ 64
      if endFrame > area.lastFrame then .inr a.chooseNextArea
      else if a.inKernel startFrame ∨ a.inKernel endFrame then
        .inr { a with nextFreeFrame := (a.kernelEnd + 1) % 2 ^ 64 }
      else .inl (some startFrame, { a with nextFreeFrame := (a.nextFreeFrame + count) % 2 ^ 64 })

/-- What a call returns -/
def Gives (a : AreaFrameAllocator) (count : Nat) (result : Option Nat) : Prop :=
  ∃ a', Yields (attempt count) a (result, a')

variable {a b c : AreaFrameAllocator} {area : MemoryArea} {count fuel : Nat} {result : Option Nat}
  {r : Option AreaFrameAllocator}

theorem attempt_zero : attempt 0 a = .inl (none, a) := rfl

theorem attempt_none (harea : a.currentArea = none) : attempt count a = .inl (none, a) := by
  rw [attempt, harea]
  exact ite_self _

theorem attempt_full (hcount : count ≠ 0) (harea : a.currentArea = some area)
    (hend : endFrame a count > area.lastFrame) : attempt count a = .inr a.chooseNextArea := by
  rw [attempt, if_neg hcount, harea]
  exact if_pos hend

theorem attempt_kernel (hcount : count ≠ 0) (harea : a.currentArea = some area)
    (hend : ¬endFrame a count > area.lastFrame) (htouch : Touches a count) :
    attempt count a = .inr (pastKernel a) := by
  obtain ⟨_, _, _, _, _⟩ := a
  cases harea
  rw [attempt, if_neg hcount]
  exact (if_neg hend).trans (if_pos htouch)

theorem attempt_frame (hcount : count ≠ 0) (harea : a.currentArea = some area)
    (hend : ¬endFrame a count > area.lastFrame) (htouch : ¬Touches a count) : attempt count a =
      .inl (some a.nextFreeFrame, { a with nextFreeFrame := (a.nextFreeFrame + count) % 2 ^ 64 }) := by
  obtain ⟨_, _, _, _, _⟩ := a
  cases harea
  rw [attempt, if_neg hcount]
  exact (if_neg hend).trans (if_neg htouch)

theorem allocateFrames_eq (fuel : Nat) (a : AreaFrameAllocator) (count : Nat) :
    allocateFrames fuel a count = loop (attempt count) fuel a := by
  induction fuel generalizing a with
  | zero => rfl
  | succ fuel ih =>
    rw [loop, allocateFrames]
    by_cases hcount : count = 0
    · subst hcount
      rfl
    · rw [if_neg hcount]
      cases harea : a.currentArea with
      | none => rw [attempt_none harea]
      | some area =>
        by_cases hend : endFrame a count > area.lastFrame
        · rw [attempt_full hcount harea hend]
          exact (if_pos hend).trans (ih _)
        · by_cases htouch : Touches a count
          · rw [attempt_kernel hcount harea hend htouch]
            obtain ⟨_, _, _, _, _⟩ := a
            cases harea
            exact (if_neg hend).trans ((if_pos htouch).trans (ih _))
          · rw [attempt_frame hcount harea hend htouch]
            obtain ⟨_, _, _, _, _⟩ := a
            cases harea
            exact (if_neg hend).trans (if_neg htouch)

theorem meets_iff : Meets a count ↔ ∃ result, Gives a count result ∧ (result.isSome ↔ Fits a count) := by
  constructor
  · rintro ⟨fuel, result, a', heq, hfits⟩
    rw [allocateFrames_eq] at heq
    exact ⟨result, ⟨a', fuel, heq⟩, hfits⟩
  · rintro ⟨result, ⟨a', fuel, heq⟩, hfits⟩
    rw [← allocateFrames_eq] at heq
    exact ⟨fuel, result, a', heq, hfits⟩

theorem gives_of_end {a' : AreaFrameAllocator} {result' : Option Nat}
    (h : attempt count a = .inl (result, a')) : Gives a count result' ↔ result' = result := by
  constructor
  · rintro ⟨b, hb⟩
    exact congrArg Prod.fst ((yields_iff_of_end h).mp hb)
  · rintro rfl
    exact ⟨a', (yields_iff_of_end h).mpr rfl⟩

theorem gives_iff (h : ReflTransGen (Again (attempt count)) a b) :
    Gives a count result ↔ Gives b count result :=
  exists_congr fun _ => yields_iff h

theorem not_gives (h : TransGen (Again (attempt count)) a a) : ¬Gives a count result := by
  rintro ⟨a', ha⟩
  exact not_yields_of_cycle h ha

theorem gives_zero : Gives a 0 result ↔ result = none := gives_of_end attempt_zero

theorem gives_nothing (h : a.currentArea = none) : Gives a count result ↔ result = none :=
  gives_of_end (attempt_none h)

theorem gives_frame (hcount : count ≠ 0) (hroom : Room a count) (htouch : ¬Touches a count) :
    Gives a count result ↔ result = some a.nextFreeFrame := by
  obtain ⟨area, harea, hend⟩ := hroom
  exact gives_of_end (attempt_frame hcount harea (Nat.not_lt.mpr hend) htouch)

theorem again_full (hcount : count ≠ 0) (harea : a.currentArea ≠ none) (hroom : ¬Room a count) :
    Again (attempt count) a a.chooseNextArea := by
  obtain ⟨area, harea⟩ := Option.ne_none_iff_exists'.mp harea
  have hend : endFrame a count > area.lastFrame := Nat.not_le.mp fun hend => hroom ⟨area, harea, hend⟩
  exact attempt_full hcount harea hend

theorem again_kernel (hcount : count ≠ 0) (hroom : Room a count) (htouch : Touches a count) :
    Again (attempt count) a (pastKernel a) := by
  obtain ⟨area, harea, hend⟩ := hroom
  exact attempt_kernel hcount harea (Nat.not_lt.mpr hend) htouch

theorem minByKey_eq_none {α : Type} {key : α → Nat} {l : List α} (h : minByKey key l = none) :
    l = [] := by
  cases l with
  | nil => rfl
  | cons x l =>
    rw [minByKey] at h
    split at h
    · cases h
    · split at h
      · cases h
      · cases h

theorem minByKey_le {α : Type} {key : α → Nat} {l : List α} {x y : α} (h : minByKey key l = some x)
    (hy : y ∈ l) : key x ≤ key y := by
  induction l generalizing x y with
  | nil => cases hy
  | cons z l ih =>
    rw [minByKey] at h
    split at h
    · rename_i hnone
      cases h
      rw [minByKey_eq_none hnone] at hy
      cases List.mem_singleton.mp hy
      exact Nat.le_refl _
    · rename_i w hw
      have hrest : ∀ y ∈ l, key w ≤ key y := fun y hy => ih hw hy
      split at h
      · rename_i hle
        cases h
        rcases List.mem_cons.mp hy with rfl | hy
        · exact Nat.le_refl _
        · exact Nat.le_trans hle (hrest y hy)
      · rename_i hnle
        cases h
        rcases List.mem_cons.mp hy with rfl | hy
        · omega
        · exact hrest y hy

/-- The least element is the least of those that remain with it. -/
theorem minByKey_filter {α : Type} {key : α → Nat} {l : List α} {x : α} {p : α → Bool}
    (h : minByKey key l = some x) (hx : p x = true) : minByKey key (l.filter p) = some x := by
  induction l generalizing x with
  | nil => cases h
  | cons y l ih =>
    rw [minByKey] at h
    split at h
    · rename_i hnone
      cases h
      rw [minByKey_eq_none hnone, List.filter_cons_of_pos hx]
      rfl
    · rename_i z hz
      split at h
      · rename_i hle
        cases h
        rw [List.filter_cons_of_pos hx, minByKey]
        split
        · rfl
        · rename_i w hw
          have hmem := (List.mem_filter.mp (mem_of_minByKey hw)).1
          exact if_pos (Nat.le_trans hle (minByKey_le hz hmem))
      · rename_i hnle
        cases h
        have hrest := ih hz hx
        by_cases hy : p y = true
        · rw [List.filter_cons_of_pos hy, minByKey, hrest]
          exact if_neg hnle
        · rw [List.filter_cons_of_neg hy]
          exact hrest

/-- What the choice of an area does. -/
theorem chooseNextArea_some (h : a.chooseNextArea.currentArea = some area) :
    minByKey MemoryArea.baseAddr a.candidates = some area ∧ a.nextFreeFrame ≤ area.lastFrame ∧
      a.chooseNextArea.nextFreeFrame = max a.nextFreeFrame area.firstFrame := by
  rw [chooseNextArea] at h ⊢
  split at h
  · rename_i area' hmin
    cases h
    have hmem := mem_of_minByKey hmin
    simp only [candidates, List.mem_filter, decide_eq_true_eq] at hmem
    rw [hmin]
    refine ⟨rfl, hmem.2, ?_⟩
    dsimp only
    split <;> omega
  · cases h

/-- After a choice, the candidates are those that it has not left behind. -/
theorem candidates_chooseNextArea (a : AreaFrameAllocator) : a.chooseNextArea.candidates =
    a.candidates.filter (·.lastFrame ≥ a.chooseNextArea.nextFreeFrame) := by
  have honward := chooseNextArea_onward a
  rw [candidates, candidates, honward.areas]
  refine Eq.trans (List.filter_congr ?_) List.filter_filter.symm
  intro area _
  have hnext := honward.next
  rw [← Bool.decide_and, decide_eq_decide]
  omega

/-- An area with a frame is chosen again and again. -/
theorem chooseNextArea_stays (h : a.chooseNextArea.currentArea = some area)
    (hhas : area.firstFrame ≤ area.lastFrame) : a.chooseNextArea.chooseNextArea = a.chooseNextArea := by
  obtain ⟨hmin, hlast, hnext⟩ := chooseNextArea_some h
  have hagain : minByKey MemoryArea.baseAddr a.chooseNextArea.candidates = some area := by
    rw [candidates_chooseNextArea]
    apply minByKey_filter hmin
    rw [decide_eq_true_eq, hnext]
    exact Nat.max_le.mpr ⟨hlast, hhas⟩
  have hnot : ¬a.chooseNextArea.nextFreeFrame < area.firstFrame := by
    rw [hnext]
    omega
  generalize hb : a.chooseNextArea = b at h hagain hnot ⊢
  rw [chooseNextArea, hagain]
  dsimp only
  rw [if_neg hnot, ← h]

/-- The search for an area ends. -/
theorem seeks_total (count : Nat) (a : AreaFrameAllocator) : ∃ r, Seeks count a r := by
  induction hm : a.candidates.length using Nat.strongRecOn generalizing a with
  | ind n ih =>
    cases harea : a.chooseNextArea.currentArea with
    | none => exact ⟨none, .nothing harea⟩
    | some area =>
      by_cases hfound : area.firstFrame ≤ area.lastFrame ∨ Room a.chooseNextArea count
      · exact ⟨_, .found harea hfound⟩
      · rw [not_or, Nat.not_le] at hfound
        obtain ⟨hempty, hroom⟩ := hfound
        obtain ⟨hmin, -, hnext⟩ := chooseNextArea_some harea
        -- an area without a frame is left behind by its own start
        have hless : a.chooseNextArea.candidates.length < n := by
          rw [← hm, candidates_chooseNextArea]
          apply List.length_filter_lt_length_iff_exists.mpr
          refine ⟨area, mem_of_minByKey hmin, ?_⟩
          rw [decide_eq_true_eq, hnext]
          omega
        obtain ⟨r, hr⟩ := ih _ hless a.chooseNextArea rfl
        exact ⟨r, .skip harea hempty hroom hr⟩

/-- The retries come to where the search comes to. -/
theorem Seeks.reaches (hcount : count ≠ 0) (harea : a.currentArea ≠ none) (hroom : ¬Room a count)
    (h : Seeks count a r) : ∃ b, TransGen (Again (attempt count)) a b ∧
      ((r = none ∧ b.currentArea = none) ∨ r = some b) := by
  induction h with
  | nothing h => exact ⟨_, .single (again_full hcount harea hroom), .inl ⟨rfl, h⟩⟩
  | found => exact ⟨_, .single (again_full hcount harea hroom), .inr rfl⟩
  | skip h _ hroom' _ ih =>
    obtain ⟨b, hreach, hb⟩ := ih (by rw [h]; nofun) hroom'
    exact ⟨b, .head (again_full hcount harea hroom) hreach, hb⟩

/-- Where the search has found an area that has no room, it finds it for ever. -/
theorem Seeks.stuck (hcount : count ≠ 0) (h : Seeks count a (some b)) (hroom : ¬Room b count) :
    ¬Gives b count result := by
  generalize hr : some b = r at h
  induction h with
  | nothing => cases hr
  | found h hhas =>
    cases hr
    rcases hhas with hhas | hhas
    · apply not_gives
      have hagain := again_full hcount (by rw [h]; nofun) hroom
      rw [chooseNextArea_stays h hhas] at hagain
      exact .single hagain
    · exact (hroom hhas).elim
  | skip _ _ _ _ ih => exact ih hr

theorem places_total (count : Nat) (a : AreaFrameAllocator) : ∃ r, Places count a r := by
  by_cases hroom : Room a count
  · exact ⟨some a, .inl ⟨hroom, rfl⟩⟩
  · obtain ⟨r, hr⟩ := seeks_total count a
    exact ⟨r, .inr ⟨hroom, hr⟩⟩

theorem Places.reaches (hcount : count ≠ 0) (harea : a.currentArea ≠ none) (h : Places count a r) :
    ∃ b, ReflTransGen (Again (attempt count)) a b ∧
      ((r = none ∧ b.currentArea = none) ∨ r = some b) := by
  rcases h with ⟨hroom, rfl⟩ | ⟨hroom, hseeks⟩
  · exact ⟨a, .refl, .inr rfl⟩
  · obtain ⟨b, hreach, hb⟩ := hseeks.reaches hcount harea hroom
    exact ⟨b, hreach.to_reflTransGen, hb⟩

theorem Places.gives_none (hcount : count ≠ 0) (harea : a.currentArea ≠ none)
    (h : Places count a none) : Gives a count result ↔ result = none := by
  obtain ⟨b, hreach, ⟨-, hb⟩ | hb⟩ := h.reaches hcount harea
  · exact (gives_iff hreach).trans (gives_nothing hb)
  · cases hb

theorem Places.gives_some (hcount : count ≠ 0) (harea : a.currentArea ≠ none)
    (h : Places count a (some b)) : Gives a count result ↔ Gives b count result := by
  obtain ⟨b', hreach, ⟨hb, -⟩ | hb⟩ := h.reaches hcount harea
  · cases hb
  · cases hb
    exact gives_iff hreach

theorem Places.stuck (hcount : count ≠ 0) (h : Places count a (some b)) (hroom : ¬Room b count) :
    ¬Gives b count result := by
  rcases h with ⟨hroom', hb⟩ | ⟨-, hseeks⟩
  · cases hb
    exact (hroom hroom').elim
  · exact hseeks.stuck hcount hroom

theorem Seeks.onward (h : Seeks count a (some b)) : Onward a b := by
  generalize hr : some b = r at h
  induction h with
  | nothing => cases hr
  | found =>
    cases hr
    exact chooseNextArea_onward _
  | skip _ _ _ _ ih => exact (chooseNextArea_onward _).trans (ih hr)

theorem lastFrame_lt (area : MemoryArea) : area.lastFrame < 2 ^ 52 := by
  rw [MemoryArea.lastFrame, PAGE_SIZE]
  omega

/-- What the search finds begins at a frame that there is. -/
theorem Seeks.next_lt (hbase : ∀ area ∈ a.areas, area.baseAddr < 2 ^ 64)
    (h : Seeks count a (some b)) : b.nextFreeFrame < 2 ^ 52 := by
  generalize hr : some b = r at h
  induction h with
  | nothing => cases hr
  | @found a area harea =>
    cases hr
    obtain ⟨hmin, hlast, hnext⟩ := chooseNextArea_some harea
    have hmem := mem_of_minByKey hmin
    simp only [candidates, List.mem_filter] at hmem
    have hlow := hbase area hmem.1.1
    have hend := lastFrame_lt area
    have hfirst : area.firstFrame < 2 ^ 52 := by
      rw [MemoryArea.firstFrame, PAGE_SIZE]
      omega
    omega
  | @skip a _ _ _ _ _ _ ih =>
    apply ih _ hr
    rw [(chooseNextArea_onward a).areas]
    exact hbase

theorem Seeks.congr (h : Seeks count a r) (heq : b.chooseNextArea = a.chooseNextArea) :
    Seeks count b r := by
  cases h with
  | nothing hnone => exact .nothing (heq ▸ hnone)
  | found harea hhas =>
    rw [← heq] at harea hhas ⊢
    exact .found harea hhas
  | skip harea hempty hroom hrest =>
    rw [← heq] at harea hroom hrest
    exact .skip harea hempty hroom hrest

theorem chooseNextArea_area (a : AreaFrameAllocator) (area : Option MemoryArea) :
    AreaFrameAllocator.chooseNextArea { a with currentArea := area } = a.chooseNextArea := rfl

theorem Fits.count_le (h : Fits a count) : count ≤ 2 ^ 52 := by
  obtain ⟨hpos, area, -, -, start, -, -, hlast, -⟩ := h
  have hend := lastFrame_lt area
  omega

theorem pastKernel_next (hkernel : a.kernelEnd < 2 ^ 52) :
    (pastKernel a).nextFreeFrame = a.kernelEnd + 1 := Nat.mod_eq_of_lt (by omega)

/-- Frames in a row that are not the kernel's are all in front of it or all behind it. -/
theorem beside_iff {start : Nat} (hcount : 0 < count) :
    (∀ frame, Range.Has ⟨start, count⟩ frame → ¬(a.kernelStart ≤ frame ∧ frame ≤ a.kernelEnd)) ↔
      start + count ≤ a.kernelStart ∨ a.kernelEnd < start ∨ a.kernelEnd < a.kernelStart := by
  simp only [Range.Has]
  constructor
  · intro h
    have hmax := h (max start a.kernelStart)
    omega
  · intro h frame hframe hkernel
    omega

theorem fits_iff (hcount : count ≠ 0) :
    Fits a count ↔ ∃ area ∈ a.areas, area.type = MEMORY_AREA_FREE ∧ Holds a area count := by
  have hpos : 0 < count := Nat.pos_of_ne_zero hcount
  simp only [Fits, Holds, beside_iff hpos, and_iff_right hpos]
  refine exists_congr fun area => and_congr_right fun _ => and_congr_right fun _ => ?_
  constructor
  · rintro ⟨start, hnext, hfirst, hlast, hbeside⟩
    omega
  · rintro (⟨hlast, hbeside⟩ | hlast)
    · exact ⟨max a.nextFreeFrame area.firstFrame, by omega, by omega, by omega, hbeside⟩
    · exact ⟨max (max a.nextFreeFrame area.firstFrame) (a.kernelEnd + 1), by omega, by omega, by omega, by omega⟩

/-- The area that is chosen begins before all that there are frames in. -/
theorem fits_chooseNextArea (h : a.chooseNextArea.currentArea = some area) :
    Fits a count ↔ Fits a.chooseNextArea count := by
  obtain ⟨hmin, -, hnext⟩ := chooseNextArea_some h
  have honward := chooseNextArea_onward a
  rw [Fits, Fits, honward.areas, honward.kernelStart, honward.kernelEnd, hnext]
  refine and_congr_right fun hpos => exists_congr fun area' => and_congr_right fun harea =>
    and_congr_right fun hfree => exists_congr fun start => ?_
  constructor
  · rintro ⟨hstart, hfirst, hlast, hbeside⟩
    have hcandidate : area' ∈ a.candidates := by
      simp only [candidates, List.mem_filter, decide_eq_true_eq]
      exact ⟨⟨harea, hfree⟩, by omega⟩
    have hbase := minByKey_le hmin hcandidate
    have hle : area.firstFrame ≤ area'.firstFrame := Nat.div_le_div_right hbase
    exact ⟨by omega, hfirst, hlast, hbeside⟩
  · rintro ⟨hstart, hfirst, hlast, hbeside⟩
    exact ⟨by omega, hfirst, hlast, hbeside⟩

theorem Seeks.fits_iff (h : Seeks count a (some b)) : Fits a count ↔ Fits b count := by
  generalize hr : some b = r at h
  induction h with
  | nothing => cases hr
  | found h =>
    cases hr
    exact fits_chooseNextArea h
  | skip h _ _ _ ih => exact (fits_chooseNextArea h).trans (ih hr)

/-- Where the search finds nothing, there is nothing. -/
theorem Seeks.not_fits (h : Seeks count a none) : ¬Fits a count := by
  generalize hr : none = r at h
  induction h with
  | @nothing a h =>
    rintro ⟨hpos, area, harea, hfree, start, hnext, -, hlast, -⟩
    rw [chooseNextArea] at h
    split at h
    · cases h
    · rename_i hmin
      have hcandidate : area ∈ a.candidates := by
        simp only [candidates, List.mem_filter, decide_eq_true_eq]
        exact ⟨⟨harea, hfree⟩, by omega⟩
      rw [minByKey_eq_none hmin] at hcandidate
      cases hcandidate
  | found => cases hr
  | skip h _ _ _ ih => exact fun hfits => ih hr ((fits_chooseNextArea h).mp hfits)

theorem Places.fits_iff (h : Places count a (some b)) : Fits a count ↔ Fits b count := by
  rcases h with ⟨-, hb⟩ | ⟨-, hseeks⟩
  · cases hb
    exact Iff.rfl
  · exact hseeks.fits_iff

theorem Places.not_fits (h : Places count a none) : ¬Fits a count := by
  rcases h with ⟨-, hb⟩ | ⟨-, hseeks⟩
  · cases hb
  · exact hseeks.not_fits

/-- A request that the kernel is in the way of has its frames behind it, if there are any. -/
theorem fits_pastKernel (hkernel : b.kernelEnd < 2 ^ 52) (htouch : Touches b count) :
    Fits b count ↔ b.nextFreeFrame ≤ b.kernelEnd ∧ Fits (pastKernel b) count := by
  have hpast := pastKernel_next hkernel
  have hend : endFrame b count = (b.nextFreeFrame + (count - 1)) % 2 ^ 64 := rfl
  simp only [Touches, inKernel, decide_eq_true_eq] at htouch
  rw [Fits, Fits, hpast]
  constructor
  · rintro ⟨hpos, area, harea, hfree, start, hnext, hfirst, hlast, hbeside⟩
    have hframe := lastFrame_lt area
    have hrow := (beside_iff hpos).mp hbeside
    exact ⟨by omega, hpos, area, harea, hfree, start, by omega, hfirst, hlast, hbeside⟩
  · rintro ⟨hnot, hpos, area, harea, hfree, start, hnext, hfirst, hlast, hbeside⟩
    exact ⟨hpos, area, harea, hfree, start, by omega, hfirst, hlast, hbeside⟩

/-- Frames that are given should be. -/
theorem serves_iff (hcount : count ≠ 0) (htouch : ¬Touches a count) : Fits a count ↔ Serves a count := by
  rw [Serves, fits_iff hcount]
  by_cases hown : Own a count
  · simp only [hown, true_and, not_true_eq_false, false_and, or_false]
    obtain ⟨area, -, harea, hfree, hfirst, hlast⟩ := hown
    have hframe := lastFrame_lt area
    have hend : endFrame a count = a.nextFreeFrame + (count - 1) := Nat.mod_eq_of_lt (by omega)
    simp only [Touches, inKernel, decide_eq_true_eq, hend] at htouch
    simp only [Around, Holds]
    constructor
    · rintro ⟨area', harea', hfree', hholds⟩ haround
      exact ⟨area', harea', hfree', by omega⟩
    · intro h
      by_cases haround : a.nextFreeFrame < a.kernelStart ∧ a.kernelStart ≤ a.kernelEnd ∧
          a.kernelEnd + 1 < a.nextFreeFrame + count
      · obtain ⟨area', harea', hfree', hbehind⟩ := h haround
        exact ⟨area', harea', hfree', .inr (by omega)⟩
      · clear h
        exact ⟨area, harea, hfree, .inl ⟨by omega, by omega⟩⟩
  · simp only [hown, false_and, not_false_eq_true, true_and, false_or]

theorem Room.current (h : Room a count) : a.currentArea ≠ none := by
  obtain ⟨area, harea, -⟩ := h
  rw [harea]
  nofun

/-- Where the kernel is in the way once more, the end of the request has wrapped around. -/
theorem Places.wraps (hkernel : b.kernelEnd < 2 ^ 52) (hbase : ∀ area ∈ b.areas, area.baseAddr < 2 ^ 64)
    (h : Places count (pastKernel b) (some c)) (htouch : Touches c count) : 2 ^ 52 < count := by
  have hpast := pastKernel_next hkernel
  have hbounds : b.kernelEnd < c.nextFreeFrame ∧ c.nextFreeFrame ≤ 2 ^ 52 ∧
      c.kernelEnd = b.kernelEnd := by
    rcases h with ⟨-, hc⟩ | ⟨-, hseeks⟩
    · cases hc
      exact ⟨by omega, by omega, rfl⟩
    · have hup := hseeks.onward.next
      exact ⟨by omega, Nat.le_of_lt (hseeks.next_lt (show ∀ area ∈ (pastKernel b).areas, _ from hbase)), hseeks.onward.kernelEnd⟩
  obtain ⟨hlow, hhigh, hend⟩ := hbounds
  have hend' : endFrame c count = (c.nextFreeFrame + (count - 1)) % 2 ^ 64 := rfl
  simp only [Touches, inKernel, decide_eq_true_eq] at htouch
  omega

/-- In that case the call does not return without frames. -/
theorem Places.not_none (hcount : count ≠ 0) (h : Places count (pastKernel b) (some c))
    (hroom : Room c count) (htouch : Touches c count) : ¬Gives c count none := by
  have hagain := again_kernel hcount hroom htouch
  rcases h with ⟨-, hc⟩ | ⟨-, hseeks⟩
  · cases hc
    exact not_gives (.single hagain)
  · have hpast : (pastKernel c).chooseNextArea = (pastKernel b).chooseNextArea := by
      have honward := hseeks.onward
      have heq : pastKernel c = { pastKernel b with currentArea := c.currentArea } := by
        rw [pastKernel, honward.areas, honward.kernelStart, honward.kernelEnd]
        rfl
      rw [heq, chooseNextArea_area]
    have harea : (pastKernel c).currentArea ≠ none := hroom.current
    by_cases hroom' : Room (pastKernel c) count
    · by_cases htouch' : Touches (pastKernel c) count
      · rw [gives_iff (.single hagain)]
        exact not_gives (.single (again_kernel hcount hroom' htouch'))
      · rw [gives_iff (.single hagain), gives_frame hcount hroom' htouch']
        nofun
    · obtain ⟨d, hreach, ⟨hd, -⟩ | hd⟩ := (hseeks.congr hpast).reaches hcount harea hroom'
      · cases hd
      · cases hd
        exact not_gives (.head hagain hreach)

/-- What a call returns is right exactly where the one result it can have is. -/
theorem right_iff {fits : Prop} {x : Option Nat} (h : ∀ result, Gives a count result ↔ result = x) :
    (∃ result, Gives a count result ∧ (result.isSome ↔ fits)) ↔ (x.isSome ↔ fits) := by
  constructor
  · rintro ⟨result, hgives, hright⟩
    rwa [(h result).mp hgives] at hright
  · intro hright
    exact ⟨x, (h x).mpr rfl, hright⟩

/-- The call returns what it should from this state on, where the request fits or not. -/
abbrev Right (a : AreaFrameAllocator) (count : Nat) (fits : Prop) : Prop :=
  ∃ result, Gives a count result ∧ (result.isSome ↔ fits)

theorem suitsAfter_iff (hcount : count ≠ 0) (hkernel : b.kernelEnd < 2 ^ 52)
    (hbase : ∀ area ∈ b.areas, area.baseAddr < 2 ^ 64) (harea : b.currentArea ≠ none)
    (htouch : Touches b count) (h : Places count (pastKernel b) r) :
    Right (pastKernel b) count (Fits b count) ↔ SuitsAfter b count r := by
  have harea' : (pastKernel b).currentArea ≠ none := harea
  have hfits := fits_pastKernel hkernel htouch
  cases r with
  | none =>
    rw [Right, right_iff fun result => h.gives_none hcount harea']
    exact iff_of_true ⟨nofun, fun hf => (h.not_fits (hfits.mp hf).2).elim⟩ trivial
  | some c =>
    simp only [Right, h.gives_some hcount harea', SuitsAfter]
    by_cases hroom : Room c count
    · by_cases htouch' : Touches c count
      · have hnot : ¬Fits b count := fun hf => by
          have hle := hf.count_le
          have hlt := h.wraps hkernel hbase htouch'
          omega
        refine iff_of_false ?_ fun hall => hall.2.1 htouch'
        rintro ⟨result, hgives, hright⟩
        cases result with
        | none => exact h.not_none hcount hroom htouch' hgives
        | some frame => exact hnot (hright.mp rfl)
      · rw [right_iff fun result => gives_frame hcount hroom htouch', hfits, h.fits_iff,
          serves_iff hcount htouch']
        simp [hroom, htouch']
    · refine iff_of_false ?_ fun hall => hroom hall.1
      rintro ⟨result, hgives, -⟩
      exact h.stuck hcount hroom hgives

theorem suits_iff (hcount : count ≠ 0) (hkernel : a.kernelEnd < 2 ^ 52)
    (hbase : ∀ area ∈ a.areas, area.baseAddr < 2 ^ 64) (harea : a.currentArea ≠ none)
    (h : Places count a r) : Right a count (Fits a count) ↔ Suits count r := by
  cases r with
  | none =>
    rw [Right, right_iff fun result => h.gives_none hcount harea]
    exact iff_of_true ⟨nofun, fun hf => (h.not_fits hf).elim⟩ trivial
  | some b =>
    have honward : Onward a b := by
      rcases h with ⟨-, hb⟩ | ⟨-, hseeks⟩
      · cases hb
        exact .refl a
      · exact hseeks.onward
    simp only [Right, h.gives_some hcount harea, h.fits_iff, Suits]
    by_cases hroom : Room b count
    · by_cases htouch : Touches b count
      · have hpast : ∀ r', Places count (pastKernel b) r' →
            (Right b count (Fits b count) ↔ SuitsAfter b count r') := by
          intro r' hr'
          rw [← suitsAfter_iff hcount (honward.kernelEnd ▸ hkernel) (honward.areas ▸ hbase)
            hroom.current htouch hr']
          simp only [Right, gives_iff (.single (again_kernel hcount hroom htouch))]
        constructor
        · intro hright
          obtain ⟨r', hr'⟩ := places_total count (pastKernel b)
          exact ⟨hroom, fun hnot => (hnot htouch).elim, fun _ => ⟨r', hr', (hpast r' hr').mp hright⟩⟩
        · rintro ⟨-, -, hafter⟩
          obtain ⟨r', hr', hsuits⟩ := hafter htouch
          exact (hpast r' hr').mpr hsuits
      · rw [right_iff fun result => gives_frame hcount hroom htouch, serves_iff hcount htouch]
        simp [hroom, htouch]
    · refine iff_of_false ?_ fun hall => hroom hall.1
      rintro ⟨result, hgives, -⟩
      exact h.stuck hcount hroom hgives

/-- A call returns what it should exactly where what is found suits the request. -/
theorem allocateFrames_meets_iff (a : AreaFrameAllocator) (count : Nat) (hkernel : a.kernelEnd < 2 ^ 52)
    (hbase : ∀ area ∈ a.areas, area.baseAddr < 2 ^ 64) : Meets a count ↔ Served a count := by
  rw [meets_iff, Served]
  by_cases hcount : count = 0
  · subst hcount
    rw [right_iff fun result => gives_zero]
    exact iff_of_true ⟨nofun, fun h => (Nat.lt_irrefl 0 h.1).elim⟩ (.inl rfl)
  · by_cases harea : a.currentArea = none
    · rw [right_iff fun result => gives_nothing harea, fits_iff hcount]
      simp [hcount, harea]
    · have hsuits : ∀ r, Places count a r → (Right a count (Fits a count) ↔ Suits count r) :=
        fun r hr => suits_iff hcount hkernel hbase harea hr
      constructor
      · intro hright
        obtain ⟨r, hr⟩ := places_total count a
        exact .inr (.inr ⟨harea, r, hr, (hsuits r hr).mp hright⟩)
      · rintro (h | ⟨h, -⟩ | ⟨-, r, hr, h⟩)
        · exact (hcount h).elim
        · exact (harea h).elim
        · exact (hsuits r hr).mpr h

/-- Two frames from an area of sixteen -/
theorem allocateFrames_meets_iff_two : Meets (new 8192 12288 oneArea) 2 := by
  have hbase : ∀ area ∈ (new 8192 12288 oneArea).areas, area.baseAddr < 2 ^ 64 := by decide
  have hroom : Room (new 8192 12288 oneArea) 2 := ⟨⟨0, 65536, MEMORY_AREA_FREE⟩, by decide, by decide⟩
  have htouch : ¬Touches (new 8192 12288 oneArea) 2 := by decide
  have hserves : Serves (new 8192 12288 oneArea) 2 := by
    refine .inl ⟨⟨_, rfl, List.mem_cons_self, rfl, by decide, by decide⟩, ?_⟩
    rintro ⟨-, -, hend⟩
    exact absurd hend (by decide)
  exact (allocateFrames_meets_iff _ 2 (by decide) hbase).mpr
    (.inr (.inr ⟨hroom.current, _, .inl ⟨hroom, rfl⟩, hroom, fun _ => hserves, fun h => (htouch h).elim⟩))

/-- Seventeen frames are asked for, and the one area has sixteen: the call never returns. -/
theorem request_retried_forever : ¬Meets (new 8192 12288 oneArea) 17 := by
  rw [meets_iff]
  rintro ⟨result, hgives, -⟩
  have harea : (new 8192 12288 oneArea).currentArea ≠ none := by decide
  have hroom : ¬Room (new 8192 12288 oneArea) 17 := by
    rintro ⟨area, heq, hle⟩
    cases heq
    exact absurd hle (by decide)
  have hagain := again_full (by decide) harea hroom
  exact not_gives (.single hagain) hgives

end Origel.Kernel.Frames
