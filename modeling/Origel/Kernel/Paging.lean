import Mathlib.Algebra.Group.Nat.Defs
import Mathlib.Data.List.Basic
import Mathlib.Logic.Function.Basic

/-! Page tables: four levels of tables, the frames they are made of, and pages mapped one at a
time. -/
namespace Origel.Kernel.Paging

def PAGE_SIZE : Nat := 4096

/-- What one entry of a fourth-level table maps: each part of user space has such a slot. -/
def PML4_SIZE : Nat := 0x0000008000000000
def USER_OFFSET : Nat := 0
def USER_HEAP_OFFSET : Nat := USER_OFFSET + PML4_SIZE
def USER_GRANT_OFFSET : Nat := USER_HEAP_OFFSET + PML4_SIZE

abbrev Frame := Nat

abbrev EntryFlags := UInt64

def PRESENT : EntryFlags := 1
def WRITABLE : EntryFlags := 2
def USER_ACCESSIBLE : EntryFlags := 4
def HUGE_PAGE : EntryFlags := 128
def NO_EXECUTE : EntryFlags := 0x8000000000000000

/-- An entry of the last level that is used. -/
structure Entry where
  frame : Frame
  flags : EntryFlags
  deriving DecidableEq, Repr

abbrev Table (α : Type) := Nat → Option α
abbrev Level1 := Table Entry
abbrev Level2 := Table Level1
abbrev Level3 := Table Level2
abbrev Level4 := Table Level3

def p4Index (page : Nat) : Nat := page / 2 ^ 27 % 512
def p3Index (page : Nat) : Nat := page / 2 ^ 18 % 512
def p2Index (page : Nat) : Nat := page / 2 ^ 9 % 512
def p1Index (page : Nat) : Nat := page % 512

/-- A page table and the frames that the allocator has still to give. It takes none back. -/
structure Mapper where
  p4 : Level4
  free : List Frame

/-- A missing table takes a frame, and is filled with zeros. -/
def nextTableCreate {α : Type} (t : Table (Table α)) (i : Nat) (free : List Frame) :
    Option (Table α × List Frame) :=
  match t i with
  | some next => some (next, free)
  | none =>
    match free with
    | _ :: free => some (fun _ => none, free)
    | [] => none

namespace Mapper

/-- The p1 table of a page, if it is there. -/
def p1Table (m : Mapper) (page : Nat) : Option Level1 := do
  let p3 ← m.p4 (p4Index page)
  let p2 ← p3 (p3Index page)
  p2 (p2Index page)

def entryAt (m : Mapper) (page : Nat) : Option Entry := do
  let p1 ← m.p1Table page
  p1 (p1Index page)

def translatePage (m : Mapper) (page : Nat) : Option Frame :=
  (m.entryAt page).map Entry.frame

/-- `Mapper::translate_page_flags`: an unused entry of a table that is there has no flags. -/
def translatePageFlags (m : Mapper) (page : Nat) : Option EntryFlags :=
  (m.p1Table page).map fun p1 => ((p1 (p1Index page)).map Entry.flags).getD 0

/-- The mapper with the tables on the way to a page put back. -/
def withPath (m : Mapper) (page : Nat) (p3 : Level3) (p2 : Level2) (p1 : Level1)
    (free : List Frame) : Mapper where
  p4 := Function.update m.p4 (p4Index page) (some
    (Function.update p3 (p3Index page) (some
      (Function.update p2 (p2Index page) (some p1)))))
  free := free

/-- `Mapper::map_to`; none where an assertion fails or frames run out -/
def mapTo (m : Mapper) (page : Nat) (frame : Frame) (flags : EntryFlags) : Option Mapper := do
  let (p3, free) ← nextTableCreate m.p4 (p4Index page) m.free
  let (p2, free) ← nextTableCreate p3 (p3Index page) free
  let (p1, free) ← nextTableCreate p2 (p2Index page) free
  match p1 (p1Index page) with
  | some _ => none
  | none =>
    let entry : Entry := ⟨frame, flags ||| PRESENT⟩
    some (m.withPath page p3 p2 (Function.update p1 (p1Index page) (some entry)) free)

def map (m : Mapper) (page : Nat) (flags : EntryFlags) : Option Mapper :=
  match m.free with
  | frame :: free => mapTo { m with free } page frame flags
  | [] => none

/-- `Mapper::remap`; none where the page is not mapped -/
def remap (m : Mapper) (page : Nat) (flags : EntryFlags) : Option Mapper := do
  let p3 ← m.p4 (p4Index page)
  let p2 ← p3 (p3Index page)
  let p1 ← p2 (p2Index page)
  let entry ← p1 (p1Index page)
  some (m.withPath page p3 p2
    (Function.update p1 (p1Index page) (some ⟨entry.frame, flags ||| PRESENT⟩)) m.free)

/-- `Mapper::unmap_return`; none where the page is not mapped -/
def unmapReturn (m : Mapper) (page : Nat) : Option (Frame × Mapper) := do
  let p3 ← m.p4 (p4Index page)
  let p2 ← p3 (p3Index page)
  let p1 ← p2 (p2Index page)
  let entry ← p1 (p1Index page)
  some (entry.frame, m.withPath page p3 p2 (Function.update p1 (p1Index page) none) m.free)

/-- `Mapper::unmap`: the allocator drops the frame that it is given. -/
def unmap (m : Mapper) (page : Nat) : Option Mapper :=
  (m.unmapReturn page).map Prod.snd

end Mapper

/-- `Page::range_inclusive` -/
def pagesFrom (first last : Nat) : List Nat := List.range' first (last + 1 - first)

/-- The page of the last address of a range, with the wrap that an empty range at 0 makes. -/
def lastPage (start size : Nat) : Nat := (start + size + (2 ^ 64 - 1)) % 2 ^ 64 / PAGE_SIZE

/-- The pages from the first address of a range to its last. -/
def pagesOf (start size : Nat) : List Nat := pagesFrom (start / PAGE_SIZE) (lastPage start size)

namespace Mapper

/-- Maps each page to the next frame; none where the frames do not suffice. -/
def mapFrames (m : Mapper) (flags : EntryFlags) : List Nat → List Frame → Option Mapper
  | [], _ => some m
  | _ :: _, [] => none
  | page :: pages, frame :: frames => do
    let m ← m.mapTo page frame flags
    m.mapFrames flags pages frames

def unmapPages (m : Mapper) : List Nat → Option Mapper
  | [] => some m
  | page :: pages => do
    let r ← m.unmapReturn page
    r.2.unmapPages pages

end Mapper

variable {m m' : Mapper} {page q : Nat} {frame : Frame} {flags : EntryFlags}

/-- The tables see 36 bits of a page number. -/
def index (page : Nat) : Nat := page % 2 ^ 36

theorem index_of_lt (h : page < 2 ^ 36) : index page = page := Nat.mod_eq_of_lt h

theorem index_eq_iff : index page = index q ↔ p4Index page = p4Index q ∧ p3Index page = p3Index q ∧
    p2Index page = p2Index q ∧ p1Index page = p1Index q := by
  unfold index p4Index p3Index p2Index p1Index
  omega

theorem entryAt_congr (h : index page = index q) : m.entryAt page = m.entryAt q := by
  obtain ⟨h4, h3, h2, h1⟩ := index_eq_iff.mp h
  rw [Mapper.entryAt, Mapper.entryAt, Mapper.p1Table, Mapper.p1Table, h4, h3, h2, h1]

theorem mem_pagesFrom {first last : Nat} : page ∈ pagesFrom first last ↔ first ≤ page ∧ page ≤ last := by
  rw [pagesFrom, List.mem_range'_1]
  omega

theorem nodup_pagesFrom (first last : Nat) : (pagesFrom first last).Nodup := List.nodup_range'

/-- What the tables hold after the path to a page is put back. -/
theorem entryAt_withPath {p3 : Level3} {p2 : Level2} {p1 : Level1} {free : List Frame}
    (h3 : ∀ i, i ≠ p3Index page → p3 i = (m.p4 (p4Index page)).bind (· i))
    (h2 : ∀ i, i ≠ p2Index page → p2 i = ((m.p4 (p4Index page)).bind (· (p3Index page))).bind (· i))
    (h1 : ∀ i, i ≠ p1Index page → p1 i = (m.p1Table page).bind (· i)) (q : Nat) :
    (m.withPath page p3 p2 p1 free).entryAt q =
      if index page = index q then p1 (p1Index page) else m.entryAt q := by
  by_cases e4 : p4Index q = p4Index page
  · by_cases e3 : p3Index q = p3Index page
    · by_cases e2 : p2Index q = p2Index page
      · by_cases e1 : p1Index q = p1Index page
        · rw [if_pos (index_eq_iff.mpr ⟨e4.symm, e3.symm, e2.symm, e1.symm⟩)]
          simp [Mapper.entryAt, Mapper.p1Table, Mapper.withPath, e4, e3, e2, e1]
        · rw [if_neg fun h => e1 (index_eq_iff.mp h).2.2.2.symm]
          simpa [Mapper.entryAt, Mapper.p1Table, Mapper.withPath, e4, e3, e2] using h1 _ e1
      · rw [if_neg fun h => e2 (index_eq_iff.mp h).2.2.1.symm]
        have := h2 _ e2
        simp [Mapper.entryAt, Mapper.p1Table, Mapper.withPath, e4, e3, Function.update_of_ne e2, this,
          Option.bind_assoc]
    · rw [if_neg fun h => e3 (index_eq_iff.mp h).2.1.symm]
      have := h3 _ e3
      simp [Mapper.entryAt, Mapper.p1Table, Mapper.withPath, e4, Function.update_of_ne e3, this,
        Option.bind_assoc]
  · rw [if_neg fun h => e4 (index_eq_iff.mp h).1.symm]
    simp [Mapper.entryAt, Mapper.p1Table, Mapper.withPath, Function.update_of_ne e4]

theorem nextTableCreate_apply {α : Type} {t : Table (Table α)} {i : Nat} {free free' : List Frame}
    {next : Table α} (h : nextTableCreate t i free = some (next, free')) (j : Nat) :
    next j = (t i).bind (· j) := by
  unfold nextTableCreate at h
  cases ht : t i with
  | some t' =>
    rw [ht] at h
    cases h
    rfl
  | none =>
    rw [ht] at h
    cases free with
    | nil => cases h
    | cons f free =>
      cases h
      rfl

/-- The frames that are left come at the end of the frames there were. -/
theorem nextTableCreate_free {α : Type} {t : Table (Table α)} {i : Nat} {free free' : List Frame}
    {next : Table α} (h : nextTableCreate t i free = some (next, free')) : free' <:+ free := by
  unfold nextTableCreate at h
  cases ht : t i with
  | some t' =>
    rw [ht] at h
    cases h
    exact List.suffix_refl _
  | none =>
    rw [ht] at h
    cases free with
    | nil => cases h
    | cons f free =>
      cases h
      exact List.suffix_cons _ _

theorem nextTableCreate_isSome {α : Type} (t : Table (Table α)) (i : Nat) {free : List Frame} {n : Nat}
    (h : n + 1 ≤ free.length) :
    ∃ next free', nextTableCreate t i free = some (next, free') ∧ n ≤ free'.length := by
  unfold nextTableCreate
  cases t i with
  | some next => exact ⟨next, free, rfl, by omega⟩
  | none =>
    cases free with
    | nil => simp at h
    | cons f free => exact ⟨fun _ => none, free, rfl, by simpa using h⟩

/-- An unused page can be mapped with three frames at hand, one for each missing table. -/
theorem mapTo_isSome {n : Nat} (frame : Frame) (flags : EntryFlags) (h : m.entryAt page = none)
    (hfree : n + 3 ≤ m.free.length) :
    ∃ m', m.mapTo page frame flags = some m' ∧ n ≤ m'.free.length := by
  obtain ⟨p3, free3, h3, hl3⟩ := nextTableCreate_isSome m.p4 (p4Index page) hfree
  obtain ⟨p2, free2, h2, hl2⟩ := nextTableCreate_isSome p3 (p3Index page) hl3
  obtain ⟨p1, free1, h1, hl1⟩ := nextTableCreate_isSome p2 (p2Index page) hl2
  have hunused : p1 (p1Index page) = none := by
    rw [nextTableCreate_apply h1, nextTableCreate_apply h2, nextTableCreate_apply h3]
    simpa [Mapper.entryAt, Mapper.p1Table, Option.bind_assoc] using h
  refine ⟨m.withPath page p3 p2 (Function.update p1 (p1Index page) (some ⟨frame, flags ||| PRESENT⟩))
    free1, ?_, hl1⟩
  unfold Mapper.mapTo
  simp only [h3, h2, h1, hunused, Option.bind_eq_bind, Option.bind_some]

/-- What `map_to` needs and does. -/
theorem mapTo_some (h : m.mapTo page frame flags = some m') :
    m.entryAt page = none ∧ m'.free <:+ m.free ∧
      ∀ q, m'.entryAt q =
        if index page = index q then some ⟨frame, flags ||| PRESENT⟩ else m.entryAt q := by
  unfold Mapper.mapTo at h
  obtain ⟨⟨p3, free3⟩, h3, h⟩ := Option.bind_eq_some_iff.mp h
  obtain ⟨⟨p2, free2⟩, h2, h⟩ := Option.bind_eq_some_iff.mp h
  obtain ⟨⟨p1, free1⟩, h1, h⟩ := Option.bind_eq_some_iff.mp h
  dsimp only at h3 h2 h1 h
  have e3 := nextTableCreate_apply h3
  have e2 : ∀ i, p2 i = ((m.p4 (p4Index page)).bind (· (p3Index page))).bind (· i) := by
    intro i
    rw [nextTableCreate_apply h2, e3]
  have e1 : ∀ i, p1 i = (m.p1Table page).bind (· i) := by
    intro i
    rw [nextTableCreate_apply h1, e2]
    simp [Mapper.p1Table, Option.bind_assoc]
  have hfree : free1 <:+ m.free :=
    (nextTableCreate_free h1).trans ((nextTableCreate_free h2).trans (nextTableCreate_free h3))
  cases hp : p1 (p1Index page) with
  | some e =>
    rw [hp] at h
    cases h
  | none =>
    rw [hp] at h
    cases h
    refine ⟨?_, hfree, fun q => ?_⟩
    · rw [Mapper.entryAt]
      exact (e1 _).symm.trans hp
    · rw [entryAt_withPath (fun i _ => e3 i) (fun i _ => e2 i)
        (fun i hi => (Function.update_of_ne hi _ _).trans (e1 i)), Function.update_self]

theorem map_some (h : m.map page flags = some m') :
    ∃ frame free, m.free = frame :: free ∧ m'.free <:+ free ∧ m.entryAt page = none ∧
      ∀ q, m'.entryAt q =
        if index page = index q then some ⟨frame, flags ||| PRESENT⟩ else m.entryAt q := by
  unfold Mapper.map at h
  cases hf : m.free with
  | nil =>
    rw [hf] at h
    cases h
  | cons frame free =>
    rw [hf] at h
    obtain ⟨hnone, hfree, hall⟩ := mapTo_some h
    exact ⟨frame, free, rfl, hfree, hnone, hall⟩

theorem map_isSome {n : Nat} (flags : EntryFlags) (h : m.entryAt page = none)
    (hfree : n + 4 ≤ m.free.length) : ∃ m', m.map page flags = some m' ∧ n ≤ m'.free.length := by
  unfold Mapper.map
  cases hf : m.free with
  | nil => simp [hf] at hfree
  | cons frame free =>
    have hlen : n + 3 ≤ free.length := by simpa [hf] using hfree
    exact mapTo_isSome (m := { m with free }) frame flags h hlen

theorem unmapReturn_isSome {e : Entry} (h : m.entryAt page = some e) :
    ∃ m', m.unmapReturn page = some (e.frame, m') ∧ m'.free = m.free ∧
      ∀ q, m'.entryAt q = if index page = index q then none else m.entryAt q := by
  obtain ⟨p1, hp1, he⟩ := Option.bind_eq_some_iff.mp h
  obtain ⟨p3, h3, hp1'⟩ := Option.bind_eq_some_iff.mp hp1
  obtain ⟨p2, h2, h1⟩ := Option.bind_eq_some_iff.mp hp1'
  refine ⟨m.withPath page p3 p2 (Function.update p1 (p1Index page) none) m.free, ?_, rfl, fun q => ?_⟩
  · simp [Mapper.unmapReturn, h3, h2, h1, he]
  · rw [entryAt_withPath (fun i _ => by simp [h3]) (fun i _ => by simp [h3, h2])
      (fun i hi => by rw [Function.update_of_ne hi, hp1]; rfl), Function.update_self]

theorem remap_isSome {e : Entry} (flags : EntryFlags) (h : m.entryAt page = some e) :
    ∃ m', m.remap page flags = some m' ∧ m'.free = m.free ∧ ∀ q, m'.entryAt q =
      if index page = index q then some ⟨e.frame, flags ||| PRESENT⟩ else m.entryAt q := by
  obtain ⟨p1, hp1, he⟩ := Option.bind_eq_some_iff.mp h
  obtain ⟨p3, h3, hp1'⟩ := Option.bind_eq_some_iff.mp hp1
  obtain ⟨p2, h2, h1⟩ := Option.bind_eq_some_iff.mp hp1'
  refine ⟨m.withPath page p3 p2
    (Function.update p1 (p1Index page) (some ⟨e.frame, flags ||| PRESENT⟩)) m.free, ?_, rfl, fun q => ?_⟩
  · simp [Mapper.remap, h3, h2, h1, he]
  · rw [entryAt_withPath (fun i _ => by simp [h3]) (fun i _ => by simp [h3, h2])
      (fun i hi => by rw [Function.update_of_ne hi, hp1]; rfl), Function.update_self]

/-- A page that was remapped was mapped. -/
theorem entryAt_of_remap (h : m.remap page flags = some m') : m.entryAt page ≠ none := by
  obtain ⟨p3, h3, h⟩ := Option.bind_eq_some_iff.mp h
  obtain ⟨p2, h2, h⟩ := Option.bind_eq_some_iff.mp h
  obtain ⟨p1, h1, h⟩ := Option.bind_eq_some_iff.mp h
  obtain ⟨e, he, -⟩ := Option.bind_eq_some_iff.mp h
  simp [Mapper.entryAt, Mapper.p1Table, h3, h2, h1, he]

theorem unmapReturn_none (h : m.entryAt page = none) : m.unmapReturn page = none := by
  unfold Mapper.unmapReturn
  cases h3 : m.p4 (p4Index page) with
  | none => rfl
  | some p3 =>
    cases h2 : p3 (p3Index page) with
    | none => simp [h2]
    | some p2 =>
      cases h1 : p2 (p2Index page) with
      | none => simp [h2, h1]
      | some p1 =>
        have he : p1 (p1Index page) = none := by
          simpa [Mapper.entryAt, Mapper.p1Table, h3, h2, h1] using h
        simp [h2, h1, he]

theorem mem_pagesOf {start size : Nat} (hpos : 0 < size) (hfit : start + size ≤ 2 ^ 64) :
    page ∈ pagesOf start size ↔
      start / PAGE_SIZE ≤ page ∧ page ≤ (start + size - 1) / PAGE_SIZE := by
  have hlast : (start + size + (2 ^ 64 - 1)) % 2 ^ 64 = start + size - 1 := by omega
  rw [pagesOf, mem_pagesFrom, lastPage, hlast]

/-- After a run of mappings the pages are mapped, and what was mapped is as it was. -/
theorem mapFrames_some {pages : List Nat} {frames : List Frame}
    (h : m.mapFrames flags pages frames = some m') :
    (∀ p ∈ pages, m'.entryAt p ≠ none) ∧ ∀ q, m.entryAt q ≠ none → m'.entryAt q = m.entryAt q := by
  induction pages generalizing m frames with
  | nil =>
    cases h
    exact ⟨fun p hp => (nomatch hp), fun q _ => rfl⟩
  | cons page pages ih =>
    cases frames with
    | nil => cases h
    | cons frame frames =>
      obtain ⟨m₁, h₁, h⟩ := Option.bind_eq_some_iff.mp h
      obtain ⟨hnone, -, hall⟩ := mapTo_some h₁
      obtain ⟨hmapped, hkept⟩ := ih h
      refine ⟨fun p hp => ?_, fun q hq => ?_⟩
      · rcases List.mem_cons.mp hp with rfl | hp
        · have hp : m₁.entryAt p ≠ none := by simp [hall]
          rwa [hkept p hp]
        · exact hmapped p hp
      · have heq : m₁.entryAt q = m.entryAt q := by
          rw [hall, if_neg]
          intro hidx
          exact hq ((entryAt_congr hidx).symm.trans hnone)
        rw [hkept q (heq ▸ hq), heq]

/-- A run of mappings leaves the other pages as they were. -/
theorem mapFrames_other {pages : List Nat} {frames : List Frame}
    (h : m.mapFrames flags pages frames = some m') (hq : index q ∉ pages.map index) :
    m'.entryAt q = m.entryAt q := by
  induction pages generalizing m frames with
  | nil =>
    cases h
    rfl
  | cons page pages ih =>
    rw [List.map_cons, List.mem_cons, not_or] at hq
    cases frames with
    | nil => cases h
    | cons frame frames =>
      obtain ⟨m₁, h₁, h⟩ := Option.bind_eq_some_iff.mp h
      rw [ih h hq.2, (mapTo_some h₁).2.2 q, if_neg (Ne.symm hq.1)]

/-- Unused pages, each once, can be mapped in a row. -/
theorem mapFrames_isSome {n : Nat} (pages : List Nat) (frames : List Frame) (flags : EntryFlags)
    (hunused : ∀ p ∈ pages, m.entryAt p = none) (hnodup : (pages.map index).Nodup)
    (hlen : pages.length ≤ frames.length) (hfree : n + 3 * pages.length ≤ m.free.length) :
    ∃ m', m.mapFrames flags pages frames = some m' ∧ n ≤ m'.free.length := by
  induction pages generalizing m frames with
  | nil => exact ⟨m, rfl, by simpa using hfree⟩
  | cons page pages ih =>
    cases frames with
    | nil => simp at hlen
    | cons frame frames =>
      rw [List.map_cons, List.nodup_cons] at hnodup
      rw [List.length_cons] at hfree hlen
      obtain ⟨m₁, h₁, hfree₁⟩ := mapTo_isSome (n := n + 3 * pages.length) frame flags
        (hunused page List.mem_cons_self) (by omega)
      obtain ⟨-, -, hall⟩ := mapTo_some h₁
      obtain ⟨m', h', hfree'⟩ := ih frames (fun p hp => by
        have hne : index page ≠ index p := fun heq => hnodup.1 (heq ▸ List.mem_map_of_mem hp)
        rw [hall, if_neg hne]
        exact hunused p (List.mem_cons_of_mem _ hp)) hnodup.2 (by simpa using hlen) hfree₁
      refine ⟨m', ?_, hfree'⟩
      rw [Mapper.mapFrames, h₁]
      exact h'

/-- Pages that are mapped, each once, can be unmapped in a row. -/
theorem unmapPages_run {pages : List Nat} (hmapped : ∀ p ∈ pages, m.entryAt p ≠ none)
    (hnodup : (pages.map index).Nodup) :
    ∃ m', m.unmapPages pages = some m' ∧ m'.free = m.free ∧
      ∀ q, m'.entryAt q = if index q ∈ pages.map index then none else m.entryAt q := by
  induction pages generalizing m with
  | nil => exact ⟨m, rfl, rfl, fun q => by simp⟩
  | cons page pages ih =>
    rw [List.map_cons, List.nodup_cons] at hnodup
    obtain ⟨e, he⟩ := Option.ne_none_iff_exists'.mp (hmapped page List.mem_cons_self)
    obtain ⟨m₁, h₁, hfree₁, hall₁⟩ := unmapReturn_isSome he
    obtain ⟨m', h', hfree', hall'⟩ := ih (fun p hp => by
      have hne : index page ≠ index p := fun heq => hnodup.1 (heq ▸ List.mem_map_of_mem hp)
      rw [hall₁, if_neg hne]
      exact hmapped p (List.mem_cons_of_mem _ hp)) hnodup.2
    refine ⟨m', ?_, hfree'.trans hfree₁, fun q => ?_⟩
    · rw [Mapper.unmapPages, h₁]
      exact h'
    · rw [hall', hall₁]
      by_cases hq : index q = index page
      · simp [hq]
      · simp [hq, Ne.symm hq]

/-- Pages that were unmapped in a row were mapped. -/
theorem mapped_of_unmapPages {pages : List Nat} (h : m.unmapPages pages = some m') :
    ∀ p ∈ pages, m.entryAt p ≠ none := by
  induction pages generalizing m with
  | nil => exact fun p hp => absurd hp List.not_mem_nil
  | cons page pages ih =>
    obtain ⟨⟨frame, m₁⟩, h₁, h⟩ := Option.bind_eq_some_iff.mp h
    have hpage : m.entryAt page ≠ none := fun hnone => by
      rw [unmapReturn_none hnone] at h₁
      cases h₁
    obtain ⟨e, he⟩ := Option.ne_none_iff_exists'.mp hpage
    obtain ⟨m₂, h₂, -, hall⟩ := unmapReturn_isSome he
    rw [h₂] at h₁
    cases h₁
    intro p hp
    rcases List.mem_cons.mp hp with rfl | hp
    · exact hpage
    · have hp₁ := ih h p hp
      rw [hall] at hp₁
      split at hp₁
      · exact absurd rfl hp₁
      · exact hp₁

end Origel.Kernel.Paging
