import Origel.Lib.Run
import Origel.Kernel.Paging

/-! Regions of memory: mapped when they are made, resized to any number of bytes, unmapped when they
are dropped. -/
namespace Origel.Kernel.Paging

open Origel.Lib

/-- A region, in the page table that it is mapped in. -/
structure Memory where
  start : Nat
  size : Nat
  flags : EntryFlags

/-- What the memory of the machine holds. -/
abbrev Bytes := Frame → Nat → UInt8

structure Machine where
  mapper : Mapper
  bytes : Bytes

namespace Mapper

/-- `map` for each page -/
def mapPages (m : Mapper) (flags : EntryFlags) : List Nat → Option Mapper
  | [] => some m
  | page :: pages => do
    let m ← m.map page flags
    m.mapPages flags pages

/-- `map` for each page that is not mapped -/
def growPages (m : Mapper) (flags : EntryFlags) : List Nat → Option Mapper
  | [] => some m
  | page :: pages =>
    match m.translatePage page with
    | none => do
      let m ← m.map page flags
      m.growPages flags pages
    | some _ => m.growPages flags pages

/-- `remap` for each page -/
def remapPages (m : Mapper) (flags : EntryFlags) : List Nat → Option Mapper
  | [] => some m
  | page :: pages => do
    let m ← m.remap page flags
    m.remapPages flags pages

/-- `unmap` for each page that is mapped -/
def shrinkPages (m : Mapper) : List Nat → Option Mapper
  | [] => some m
  | page :: pages =>
    match m.translatePage page with
    | some _ => do
      let m ← m.unmap page
      m.shrinkPages pages
    | none => m.shrinkPages pages

/-- `write_bytes(address, 0, count)`; none where an address is not mapped -/
def zeroFill (m : Mapper) : Nat → Nat → Bytes → Option Bytes
  | 0, _, bytes => some bytes
  | count + 1, address, bytes => do
    let frame ← m.translatePage (address % 2 ^ 64 / PAGE_SIZE)
    m.zeroFill count (address + 1)
      (Function.update bytes frame (Function.update (bytes frame) (address % PAGE_SIZE) 0))

end Mapper

namespace Memory

def pages (r : Memory) : List Nat := pagesOf r.start r.size

/-- `Memory::map` -/
def map (r : Memory) (flush clear : Bool) (k : Machine) : Option Machine := do
  let mapper ← k.mapper.mapPages r.flags r.pages
  if clear then
    if flush ∧ r.flags &&& WRITABLE = WRITABLE then
      let bytes ← mapper.zeroFill r.size r.start k.bytes
      some ⟨mapper, bytes⟩
    else none
  else some { k with mapper }

/-- `Memory::new` -/
def new (start size : Nat) (flags : EntryFlags) (flush clear : Bool) (k : Machine) :
    Option (Memory × Machine) := do
  let r : Memory := ⟨start, size, flags⟩
  let k ← r.map flush clear k
  some (r, k)

/-- `Memory::remap` -/
def remap (r : Memory) (newFlags : EntryFlags) (k : Machine) : Option (Memory × Machine) := do
  let mapper ← k.mapper.remapPages newFlags r.pages
  some ({ r with flags := newFlags }, { k with mapper })

/-- `Memory::resize` -/
def resize (r : Memory) (newSize : Nat) (flush clear : Bool) (k : Machine) :
    Option (Memory × Machine) :=
  if r.size < newSize then do
    let mapper ← k.mapper.growPages r.flags
      (pagesFrom ((r.start + r.size) % 2 ^ 64 / PAGE_SIZE) (lastPage r.start newSize))
    if clear then
      if flush then
        let bytes ← mapper.zeroFill (newSize - r.size) (r.start + r.size) k.bytes
        some ({ r with size := newSize }, ⟨mapper, bytes⟩)
      else none
    else some ({ r with size := newSize }, { k with mapper })
  else if newSize < r.size then do
    let mapper ← k.mapper.shrinkPages
      (pagesFrom ((r.start + newSize) % 2 ^ 64 / PAGE_SIZE) (lastPage r.start r.size))
    some ({ r with size := newSize }, { k with mapper })
  else some ({ r with size := newSize }, k)

/-- The drop of a region: each page is unmapped; none where one is not mapped. -/
def drop (r : Memory) (k : Machine) : Option Machine := do
  let mapper ← k.mapper.unmapPages r.pages
  some { k with mapper }

/-- The page has an address of the region. -/
def Meets (r : Memory) (page : Nat) : Prop :=
  ∃ a, r.start ≤ a ∧ a < r.start + r.size ∧ a / PAGE_SIZE = page

end Memory

/-- The byte that a machine finds at an address. -/
def Machine.byteAt (k : Machine) (a : Nat) : Option UInt8 :=
  (k.mapper.translatePage (a / PAGE_SIZE)).map fun frame => k.bytes frame (a % PAGE_SIZE)

variable {m₀ m m' : Mapper} {page q a n : Nat} {flags : EntryFlags} {pages : List Nat}
  {P : Nat → Prop} {r r' : Memory} {k k' : Machine} {bytes bytes' : Bytes} {frame : Frame}

/-- The pages `P` are mapped over the table `m₀`, each to a frame of its own. -/
structure Held (m₀ m : Mapper) (P : Nat → Prop) : Prop where
  low : ∀ p, P p → p < 2 ^ 36
  nodup : m.free.Nodup
  outside : ∀ p, p < 2 ^ 36 → ¬ P p → m.entryAt p = m₀.entryAt p
  inside : ∀ p, P p → m₀.entryAt p = none ∧ ∃ e, m.entryAt p = some e ∧ e.frame ∉ m.free
  apart : ∀ p p', P p → P p' → m.translatePage p = m.translatePage p' → p = p'

/-- Unused pages, each once, can be mapped in a row. -/
theorem mapPages_isSome {n : Nat} (flags : EntryFlags) (hunused : ∀ p ∈ pages, m.entryAt p = none)
    (hlow : ∀ p ∈ pages, p < 2 ^ 36) (hnodup : pages.Nodup) (hfree : n + 4 * pages.length ≤ m.free.length) :
    ∃ m', m.mapPages flags pages = some m' ∧ n ≤ m'.free.length ∧
      ∀ q, q < 2 ^ 36 → q ∉ pages → m'.entryAt q = m.entryAt q := by
  induction pages generalizing m with
  | nil => exact ⟨m, rfl, by simpa using hfree, fun _ _ _ => rfl⟩
  | cons page pages ih =>
    rw [List.nodup_cons] at hnodup
    rw [List.length_cons] at hfree
    obtain ⟨m₁, h₁, hfree₁⟩ := map_isSome (n := n + 4 * pages.length) flags
      (hunused page List.mem_cons_self) (by omega)
    obtain ⟨frame, free, -, -, -, hall⟩ := map_some h₁
    have hpage := hlow page List.mem_cons_self
    have hother : ∀ q, q < 2 ^ 36 → q ≠ page → m₁.entryAt q = m.entryAt q := by
      intro q hq hne
      rw [hall, if_neg]
      rw [index_of_lt hpage, index_of_lt hq]
      exact Ne.symm hne
    obtain ⟨m', h', hfree', hout⟩ := ih (fun p hp => by
      rw [hother p (hlow p (List.mem_cons_of_mem _ hp)) fun heq => hnodup.1 (heq ▸ hp)]
      exact hunused p (List.mem_cons_of_mem _ hp)) (fun p hp => hlow p (List.mem_cons_of_mem _ hp))
      hnodup.2 hfree₁
    refine ⟨m', by simp [Mapper.mapPages, h₁, h'], hfree', ?_⟩
    intro q hq hnot
    rw [List.mem_cons, not_or] at hnot
    rw [hout q hq hnot.2, hother q hq hnot.1]

/-- A remapped page is mapped when it was. -/
theorem remapPages_some (h : m.remapPages flags pages = some m') :
    m'.free = m.free ∧ ∀ q, m'.entryAt q = none ↔ m.entryAt q = none := by
  induction pages generalizing m with
  | nil =>
    cases h
    exact ⟨rfl, fun _ => Iff.rfl⟩
  | cons page pages ih =>
    obtain ⟨m₁, h₁, h⟩ := Option.bind_eq_some_iff.mp h
    obtain ⟨e, he⟩ := Option.ne_none_iff_exists'.mp (entryAt_of_remap h₁)
    obtain ⟨m₂, h₂, hfree₂, hall⟩ := remap_isSome flags he
    cases h₁.symm.trans h₂
    obtain ⟨hfree, hrest⟩ := ih h
    refine ⟨hfree.trans hfree₂, fun q => (hrest q).trans ?_⟩
    rw [hall]
    split
    · rename_i hidx
      rw [← entryAt_congr hidx, he]
      simp
    · exact Iff.rfl

theorem remapPages_isSome (flags : EntryFlags) (hmapped : ∀ p ∈ pages, m.entryAt p ≠ none) :
    ∃ m', m.remapPages flags pages = some m' := by
  induction pages generalizing m with
  | nil => exact ⟨m, rfl⟩
  | cons page pages ih =>
    obtain ⟨e, he⟩ := Option.ne_none_iff_exists'.mp (hmapped page List.mem_cons_self)
    obtain ⟨m₁, h₁, -, hall⟩ := remap_isSome flags he
    obtain ⟨m', h'⟩ := ih (m := m₁) fun p hp => by
      rw [hall]
      split
      · exact Option.some_ne_none _
      · exact hmapped p (List.mem_cons_of_mem _ hp)
    exact ⟨m', by simp [Mapper.remapPages, h₁, h']⟩

namespace Held

theorem congr {P' : Nat → Prop} (h : Held m₀ m P) (hp : ∀ p, P' p ↔ P p) : Held m₀ m P' := by
  have : P' = P := funext fun p => propext (hp p)
  rwa [this]

theorem mapped (h : Held m₀ m P) (hp : P page) : m.entryAt page ≠ none := by
  obtain ⟨-, e, he, -⟩ := h.inside page hp
  simp [he]

theorem map (h : Held m₀ m P) (hlow : page < 2 ^ 36) (hm : m.map page flags = some m') :
    Held m₀ m' (fun p => P p ∨ p = page) ∧ ∀ p, P p → m'.entryAt p = m.entryAt p := by
  obtain ⟨frame, free, hfree, hsuffix, hnone, hall⟩ := map_some hm
  have hnew : ¬ P page := fun hp => h.mapped hp hnone
  have hnodup := h.nodup
  rw [hfree, List.nodup_cons] at hnodup
  have hframe : frame ∉ m'.free := fun hin => hnodup.1 (hsuffix.subset hin)
  have hidx : ∀ p, p < 2 ^ 36 → (index page = index p ↔ page = p) := by
    intro p hp
    rw [index_of_lt hlow, index_of_lt hp]
  have hold : ∀ p, P p → m'.entryAt p = m.entryAt p := by
    intro p hp
    rw [hall, if_neg]
    rw [hidx p (h.low p hp)]
    rintro rfl
    exact hnew hp
  have hself : m'.entryAt page = some ⟨frame, flags ||| PRESENT⟩ := by simp [hall]
  have hother : ∀ p, P p → m'.translatePage p ≠ some frame := by
    intro p hp heq
    obtain ⟨-, e, he, hin⟩ := h.inside p hp
    rw [Mapper.translatePage, hold p hp, he] at heq
    cases heq
    exact hin (hfree ▸ List.mem_cons_self)
  refine ⟨⟨?_, hsuffix.sublist.nodup hnodup.2, ?_, ?_, ?_⟩, hold⟩
  · rintro p (hp | rfl)
    · exact h.low p hp
    · exact hlow
  · intro p hp hout
    rw [hall, if_neg]
    · exact h.outside p hp fun hin => hout (.inl hin)
    · rw [hidx p hp]
      rintro rfl
      exact hout (.inr rfl)
  · rintro p (hp | rfl)
    · obtain ⟨h₀, e, he, hin⟩ := h.inside p hp
      refine ⟨h₀, e, (hold p hp).trans he, fun hin' => hin ?_⟩
      exact hfree ▸ List.mem_cons_of_mem _ (hsuffix.subset hin')
    · refine ⟨?_, _, hself, hframe⟩
      rw [← h.outside p hlow hnew, hnone]
  · have hself' : m'.translatePage page = some frame := by simp [Mapper.translatePage, hself]
    rintro p p' (hp | rfl) (hp' | rfl) heq
    · rw [Mapper.translatePage, Mapper.translatePage, hold p hp, hold p' hp'] at heq
      exact h.apart p p' hp hp' heq
    · exact absurd (heq.trans hself') (hother p hp)
    · exact absurd (heq.symm.trans hself') (hother p' hp')
    · rfl

theorem unmapReturn (h : Held m₀ m P) (hp : P page) :
    ∃ frame m', m.unmapReturn page = some (frame, m') ∧ Held m₀ m' (fun p => P p ∧ p ≠ page) ∧
      ∀ p, P p → p ≠ page → m'.entryAt p = m.entryAt p := by
  obtain ⟨h₀, e, he, -⟩ := h.inside page hp
  obtain ⟨m', hm', hfree, hall⟩ := unmapReturn_isSome he
  have hlow := h.low page hp
  have hkept : ∀ p, p < 2 ^ 36 → p ≠ page → m'.entryAt p = m.entryAt p := by
    intro p hlt hne
    rw [hall, if_neg]
    rw [index_of_lt hlow, index_of_lt hlt]
    exact hne.symm
  refine ⟨e.frame, m', hm', ⟨fun p hp' => h.low p hp'.1, hfree ▸ h.nodup, ?_, ?_, ?_⟩,
    fun p hp' hne => hkept p (h.low p hp') hne⟩
  · intro p hlt hout
    by_cases hne : p = page
    · subst hne
      rw [hall, if_pos rfl, h₀]
    · rw [hkept p hlt hne]
      exact h.outside p hlt fun hin => hout ⟨hin, hne⟩
  · rintro p ⟨hp', hne⟩
    obtain ⟨hp₀, e', he', hin⟩ := h.inside p hp'
    exact ⟨hp₀, e', (hkept p (h.low p hp') hne).trans he', hfree ▸ hin⟩
  · rintro p p' ⟨hp₁, hne₁⟩ ⟨hp₂, hne₂⟩ heq
    rw [Mapper.translatePage, Mapper.translatePage, hkept p (h.low p hp₁) hne₁,
      hkept p' (h.low p' hp₂) hne₂] at heq
    exact h.apart p p' hp₁ hp₂ heq

/-- Pages that only this region may have are mapped in a row. -/
theorem growPages (h : Held m₀ m P) (hlow : ∀ p ∈ pages, p < 2 ^ 36)
    (hours : ∀ p ∈ pages, ¬ P p → m₀.entryAt p = none) (hm : m.growPages flags pages = some m') :
    Held m₀ m' (fun p => P p ∨ p ∈ pages) ∧ ∀ p, P p → m'.entryAt p = m.entryAt p := by
  induction pages generalizing m P with
  | nil =>
    cases hm
    exact ⟨h.congr fun p => by simp, fun p _ => rfl⟩
  | cons page pages ih =>
    have hlow' : ∀ p ∈ pages, p < 2 ^ 36 := fun p hp => hlow p (List.mem_cons_of_mem _ hp)
    unfold Mapper.growPages at hm
    split at hm
    next =>
      obtain ⟨m₁, hm₁, hm⟩ := Option.bind_eq_some_iff.mp hm
      obtain ⟨h₁, hkept₁⟩ := h.map (hlow page List.mem_cons_self) hm₁
      obtain ⟨h', hkept'⟩ := ih h₁ hlow'
        (fun p hp hout => hours p (List.mem_cons_of_mem _ hp) fun hin => hout (.inl hin)) hm
      refine ⟨h'.congr fun p => ?_, fun p hp => (hkept' p (.inl hp)).trans (hkept₁ p hp)⟩
      rw [List.mem_cons, or_assoc]
    next frame htrans =>
      have hp : P page := by
        by_contra hout
        have hnone := h.outside page (hlow page List.mem_cons_self) hout
        rw [hours page List.mem_cons_self hout] at hnone
        simp [Mapper.translatePage, hnone] at htrans
      obtain ⟨h', hkept'⟩ := ih h hlow' (fun p hp => hours p (List.mem_cons_of_mem _ hp)) hm
      refine ⟨h'.congr fun p => ?_, hkept'⟩
      rw [List.mem_cons]
      constructor
      · rintro (hin | rfl | hin)
        · exact .inl hin
        · exact .inl hp
        · exact .inr hin
      · rintro (hin | hin)
        · exact .inl hin
        · exact .inr (.inr hin)

theorem mapPages (h : Held m₀ m P) (hlow : ∀ p ∈ pages, p < 2 ^ 36)
    (hm : m.mapPages flags pages = some m') : Held m₀ m' (fun p => P p ∨ p ∈ pages) := by
  induction pages generalizing m P with
  | nil =>
    cases hm
    exact h.congr fun p => by simp
  | cons page pages ih =>
    obtain ⟨m₁, hm₁, hm⟩ := Option.bind_eq_some_iff.mp hm
    obtain ⟨h₁, -⟩ := h.map (hlow page List.mem_cons_self) hm₁
    refine (ih h₁ (fun p hp => hlow p (List.mem_cons_of_mem _ hp)) hm).congr fun p => ?_
    rw [List.mem_cons, or_assoc]

/-- Pages of the region are unmapped in a row, whether it is first asked if they are mapped or
not. -/
theorem unmapAll (h : Held m₀ m P) (hpages : ∀ p ∈ pages, P p) (hnodup : pages.Nodup) :
    ∃ m', m.shrinkPages pages = some m' ∧ m.unmapPages pages = some m' ∧
      Held m₀ m' (fun p => P p ∧ p ∉ pages) ∧ ∀ p, P p → p ∉ pages → m'.entryAt p = m.entryAt p := by
  induction pages generalizing m P with
  | nil => exact ⟨m, rfl, rfl, h.congr fun p => by simp, fun p _ _ => rfl⟩
  | cons page pages ih =>
    rw [List.nodup_cons] at hnodup
    have hp : P page := hpages page List.mem_cons_self
    obtain ⟨frame, m₁, hm₁, h₁, hkept₁⟩ := h.unmapReturn hp
    obtain ⟨m', hshrink, hunmap, h', hkept'⟩ := ih h₁ (fun p hin =>
      ⟨hpages p (List.mem_cons_of_mem _ hin), fun heq => hnodup.1 (heq ▸ hin)⟩) hnodup.2
    refine ⟨m', ?_, ?_, h'.congr fun p => ?_, fun p hp hout => ?_⟩
    · obtain ⟨frame', htrans⟩ : ∃ frame, m.translatePage page = some frame := by
        obtain ⟨-, e, he, -⟩ := h.inside page hp
        exact ⟨e.frame, by simp [Mapper.translatePage, he]⟩
      simp [Mapper.shrinkPages, htrans, Mapper.unmap, hm₁, hshrink]
    · simp [Mapper.unmapPages, hm₁, hunmap]
    · rw [List.mem_cons]
      tauto
    · rw [List.mem_cons, not_or] at hout
      exact (hkept' p ⟨hp, hout.1⟩ hout.2).trans (hkept₁ p hp hout.1)

end Held

/-- Bytes that no address of the range leads to stay. -/
theorem zeroFill_other {count address : Nat} (h : m.zeroFill count address bytes = some bytes')
    {offset : Nat} (hno : ∀ a, address ≤ a → a < address + count → a % PAGE_SIZE = offset →
      m.translatePage (a % 2 ^ 64 / PAGE_SIZE) ≠ some frame) :
    bytes' frame offset = bytes frame offset := by
  induction count generalizing address bytes with
  | zero =>
    cases h
    rfl
  | succ count ih =>
    obtain ⟨f, hf, h⟩ := Option.bind_eq_some_iff.mp h
    rw [ih h fun a ha hlt => hno a (by omega) (by omega)]
    by_cases hframe : frame = f
    · subst hframe
      rw [Function.update_self]
      by_cases hoff : offset = address % PAGE_SIZE
      · exact absurd hf (hno address (Nat.le_refl _) (by omega) hoff.symm)
      · rw [Function.update_of_ne hoff]
    · rw [Function.update_of_ne hframe]

theorem zeroFill_isSome (address count : Nat) (bytes : Bytes)
    (h : ∀ a, address ≤ a → a < address + count → m.translatePage (a % 2 ^ 64 / PAGE_SIZE) ≠ none) :
    ∃ bytes', m.zeroFill count address bytes = some bytes' := by
  induction count generalizing address bytes with
  | zero => exact ⟨bytes, rfl⟩
  | succ count ih =>
    obtain ⟨frame, hf⟩ := Option.ne_none_iff_exists'.mp (h address (Nat.le_refl _) (by omega))
    obtain ⟨bytes', hb⟩ := ih (address + 1)
      (Function.update bytes frame (Function.update (bytes frame) (address % PAGE_SIZE) 0))
      fun a hle hlt => h a (by omega) (by omega)
    refine ⟨bytes', ?_⟩
    simp only [Mapper.zeroFill, hf]
    exact hb

theorem growPages_one (h : m.entryAt page = none) (hmap : m.map page flags = some m') :
    m.growPages flags [page] = some m' := by
  have htrans : m.translatePage page = none := by simp [Mapper.translatePage, h]
  simp [Mapper.growPages, htrans, hmap]

theorem meets_iff (hpos : 0 < r.size) :
    r.Meets page ↔ r.start / 4096 ≤ page ∧ page ≤ (r.start + r.size - 1) / 4096 := by
  constructor
  · rintro ⟨a, hle, hlt, rfl⟩
    unfold PAGE_SIZE
    omega
  · rintro ⟨hle, hlt⟩
    by_cases hfirst : page = r.start / 4096
    · exact ⟨r.start, by omega, by omega, hfirst.symm⟩
    · refine ⟨page * 4096, by omega, by omega, ?_⟩
      unfold PAGE_SIZE
      omega

theorem not_meets (hz : r.size = 0) : ¬ r.Meets page := by
  rintro ⟨a, hle, hlt, -⟩
  omega

/-- The region and the table agree: the pages it meets are mapped for it, over what was there. -/
structure Mapped (m₀ : Mapper) (r : Memory) (k : Machine) : Prop where
  below : r.start + r.size ≤ 2 ^ 47
  empty : r.size = 0 → 4096 ∣ r.start ∧ 0 < r.start
  held : Held m₀ k.mapper r.Meets

/-- What a region may start as. -/
def Sane (start size : Nat) : Prop :=
  start + size ≤ 2 ^ 47 ∧ (size = 0 → 4096 ∣ start ∧ 0 < start)

/-- What a region may be resized to: it stays in user space, a smaller one ends at a page, and a
larger one takes pages that nothing else has. -/
def Whole (r : Memory) (k : Machine) (newSize : Nat) : Prop :=
  r.start + newSize ≤ 2 ^ 47 ∧
  (newSize < r.size → 4096 ∣ r.start + newSize ∧ 0 < r.start + newSize) ∧
  ∀ page, Memory.Meets { r with size := newSize } page → ¬ r.Meets page → k.mapper.entryAt page = none

theorem Sane.mem_pages (h : Sane r.start r.size) : page ∈ r.pages ↔ r.Meets page := by
  by_cases hz : r.size = 0
  · obtain ⟨hdvd, hpos⟩ := h.2 hz
    have hlast : (r.start + r.size + (2 ^ 64 - 1)) % 2 ^ 64 = r.start - 1 := by
      have := h.1
      omega
    rw [Memory.pages, pagesOf, mem_pagesFrom, lastPage, hlast, iff_false_right (not_meets hz)]
    unfold PAGE_SIZE
    omega
  · have hfit := h.1
    rw [Memory.pages, mem_pagesOf (by omega) (by omega), meets_iff (by omega)]
    rfl

theorem Mapped.sane (h : Mapped m₀ r k) : Sane r.start r.size := ⟨h.below, h.empty⟩

theorem new_mapped {start size : Nat} {flush clear : Bool} (hs : Sane start size)
    (hnodup : k.mapper.free.Nodup) (h : Memory.new start size flags flush clear k = some (r, k')) :
    Mapped k.mapper r k' := by
  obtain ⟨k₁, hmap, heq⟩ := Option.bind_eq_some_iff.mp h
  cases heq
  obtain ⟨mapper, hpages, hrest⟩ := Option.bind_eq_some_iff.mp hmap
  have hmapper : k'.mapper = mapper := by
    split at hrest
    · split at hrest
      · obtain ⟨bytes, -, heq⟩ := Option.bind_eq_some_iff.mp hrest
        cases heq
        rfl
      · cases hrest
    · cases hrest
      rfl
  have hstart : Held k.mapper k.mapper fun _ => False :=
    ⟨fun p hp => hp.elim, hnodup, fun p _ _ => rfl, fun p hp => hp.elim, fun p p' hp => hp.elim⟩
  have hmem : ∀ p, p ∈ Memory.pages ⟨start, size, flags⟩ ↔ Memory.Meets ⟨start, size, flags⟩ p :=
    fun p => Sane.mem_pages (r := ⟨start, size, flags⟩) hs
  have hlow : ∀ p ∈ Memory.pages ⟨start, size, flags⟩, p < 2 ^ 36 := by
    intro p hp
    obtain ⟨a, -, hlt, rfl⟩ := (hmem p).mp hp
    have := hs.1
    unfold PAGE_SIZE
    dsimp only at hlt
    omega
  refine ⟨hs.1, hs.2, ?_⟩
  rw [hmapper]
  refine (hstart.mapPages hlow hpages).congr fun p => ?_
  rw [← hmem p, false_or]

/-- The pages after a region has grown. -/
theorem meets_grow {newSize : Nat} (page : Nat) (hlt : r.size < newSize)
    (hfit : r.start + newSize ≤ 2 ^ 47) :
    Memory.Meets { r with size := newSize } page ↔ r.Meets page ∨ page ∈
      pagesFrom ((r.start + r.size) % 2 ^ 64 / PAGE_SIZE) (lastPage r.start newSize) := by
  have hlast : (r.start + newSize + (2 ^ 64 - 1)) % 2 ^ 64 = r.start + newSize - 1 := by omega
  have hfirst : (r.start + r.size) % 2 ^ 64 = r.start + r.size := by omega
  rw [meets_iff (r := { r with size := newSize }) (show 0 < newSize by omega), mem_pagesFrom, lastPage,
    hlast, hfirst]
  unfold PAGE_SIZE
  dsimp only
  by_cases hz : r.size = 0
  · simp [not_meets hz, hz]
  · rw [meets_iff (by omega)]
    omega

/-- The pages after a region has shrunk to the end of a page. -/
theorem meets_shrink {newSize : Nat} (page : Nat) (hlt : newSize < r.size) (hfit : r.start + r.size ≤ 2 ^ 47)
    (hdvd : 4096 ∣ r.start + newSize) :
    Memory.Meets { r with size := newSize } page ↔ r.Meets page ∧ page ∉
      pagesFrom ((r.start + newSize) % 2 ^ 64 / PAGE_SIZE) (lastPage r.start r.size) := by
  have hlast : (r.start + r.size + (2 ^ 64 - 1)) % 2 ^ 64 = r.start + r.size - 1 := by omega
  have hfirst : (r.start + newSize) % 2 ^ 64 = r.start + newSize := by omega
  rw [mem_pagesFrom, lastPage, hlast, hfirst, meets_iff (r := r) (by omega)]
  unfold PAGE_SIZE
  by_cases hz : newSize = 0
  · rw [iff_false_left (not_meets hz)]
    omega
  · rw [meets_iff (r := { r with size := newSize }) (show 0 < newSize by omega)]
    dsimp only
    omega

theorem resize_fst {newSize : Nat} {flush clear : Bool}
    (h : r.resize newSize flush clear k = some (r', k')) : r' = { r with size := newSize } := by
  unfold Memory.resize at h
  split at h
  · obtain ⟨mapper, -, hrest⟩ := Option.bind_eq_some_iff.mp h
    split at hrest
    · split at hrest
      · obtain ⟨bytes, -, heq⟩ := Option.bind_eq_some_iff.mp hrest
        cases heq
        rfl
      · cases hrest
    · cases hrest
      rfl
  · split at h
    · obtain ⟨mapper, -, heq⟩ := Option.bind_eq_some_iff.mp h
      cases heq
      rfl
    · cases h
      rfl

theorem translatePage_congr (h : m'.entryAt page = m.entryAt page) :
    m'.translatePage page = m.translatePage page := by
  rw [Mapper.translatePage, Mapper.translatePage, h]

/-- The addresses that two machines agree on. -/
def SameBelow (start size : Nat) (k k' : Machine) : Prop :=
  ∀ a, start ≤ a → a < start + size →
    k'.mapper.translatePage (a / PAGE_SIZE) = k.mapper.translatePage (a / PAGE_SIZE) ∧
    k'.byteAt a = k.byteAt a

theorem sameBelow_of_bytes {size : Nat} (hb : k'.bytes = k.bytes)
    (hkept : ∀ p, Memory.Meets { r with size } p → k'.mapper.entryAt p = k.mapper.entryAt p) :
    SameBelow r.start size k k' := by
  intro a hle' hlt
  have htrans := translatePage_congr (hkept (a / PAGE_SIZE) ⟨a, hle', hlt, rfl⟩)
  exact ⟨htrans, by rw [Machine.byteAt, Machine.byteAt, htrans, hb]⟩

/-- What growth adds is not where the region was: its bytes stay. -/
theorem sameBelow_of_zeroFill {newSize : Nat} (hlt : r.size < newSize)
    (hfit : r.start + newSize ≤ 2 ^ 47)
    (hheld : Held m₀ m' (Memory.Meets { r with size := newSize }))
    (hkept : ∀ p, r.Meets p → m'.entryAt p = k.mapper.entryAt p)
    (hz : m'.zeroFill (newSize - r.size) (r.start + r.size) k.bytes = some bytes') :
    SameBelow r.start r.size k ⟨m', bytes'⟩ := by
  intro a hle ha
  have hmeets : r.Meets (a / PAGE_SIZE) := ⟨a, hle, ha, rfl⟩
  have htrans := translatePage_congr (hkept _ hmeets)
  refine ⟨htrans, ?_⟩
  rw [Machine.byteAt, Machine.byteAt, htrans]
  cases hf : k.mapper.translatePage (a / PAGE_SIZE) with
  | none => rfl
  | some frame =>
    refine congrArg some (zeroFill_other hz fun b hb hblt hoff hbf => ?_)
    have hwrap : b % 2 ^ 64 = b := by omega
    rw [hwrap] at hbf
    -- the same frame is the same page, and then the same address
    have hpage := hheld.apart (b / PAGE_SIZE) (a / PAGE_SIZE)
      ⟨b, by dsimp only; omega, by dsimp only; omega, rfl⟩
      ⟨a, hle, by dsimp only; omega, rfl⟩ (by rw [hbf, htrans, hf])
    have hb := Nat.div_add_mod b PAGE_SIZE
    have ha' := Nat.div_add_mod a PAGE_SIZE
    rw [hpage, hoff] at hb
    omega

/-- A step of the run: what it keeps of the invariant and of the bytes. -/
theorem resize_mapped {newSize : Nat} {flush clear : Bool} (h : Mapped m₀ r k)
    (hw : Whole r k newSize) (hr : r.resize newSize flush clear k = some (r', k')) :
    Mapped m₀ r' k' ∧ SameBelow r.start (min r.size newSize) k k' := by
  obtain ⟨hfit, hend, hours⟩ := hw
  unfold Memory.resize at hr
  split at hr
  next hlt =>
    obtain ⟨mapper, hgrow, hrest⟩ := Option.bind_eq_some_iff.mp hr
    have hmeets := fun p => meets_grow p hlt hfit
    have hlow : ∀ p ∈ pagesFrom ((r.start + r.size) % 2 ^ 64 / PAGE_SIZE) (lastPage r.start newSize),
        p < 2 ^ 36 := by
      intro p hp
      obtain ⟨a, -, hlt', rfl⟩ := (hmeets p).mpr (.inr hp)
      unfold PAGE_SIZE
      dsimp only at hlt'
      omega
    obtain ⟨hheld, hkept⟩ := h.held.growPages hlow (fun p hp hout => by
      rw [← h.held.outside p (hlow p hp) hout]
      exact hours p ((hmeets p).mpr (.inr hp)) hout) hgrow
    replace hheld : Held m₀ mapper (Memory.Meets { r with size := newSize }) := hheld.congr hmeets
    have hmin : min r.size newSize = r.size := by omega
    rw [hmin]
    have hzero : newSize = 0 → 4096 ∣ r.start ∧ 0 < r.start := fun h0 => by omega
    split at hrest
    · split at hrest
      · obtain ⟨bytes, hz, heq⟩ := Option.bind_eq_some_iff.mp hrest
        cases heq
        exact ⟨⟨hfit, hzero, hheld⟩, sameBelow_of_zeroFill hlt hfit hheld hkept hz⟩
      · cases hrest
    · cases hrest
      exact ⟨⟨hfit, hzero, hheld⟩, sameBelow_of_bytes rfl hkept⟩
  next hge =>
    split at hr
    next hlt =>
      obtain ⟨hdvd, hpos⟩ := hend hlt
      have hmeets := fun p => meets_shrink p hlt h.below hdvd
      have hpages : ∀ p ∈ pagesFrom ((r.start + newSize) % 2 ^ 64 / PAGE_SIZE)
          (lastPage r.start r.size), r.Meets p := by
        intro p hp
        have hlast : (r.start + r.size + (2 ^ 64 - 1)) % 2 ^ 64 = r.start + r.size - 1 := by
          have := h.below
          omega
        rw [mem_pagesFrom, lastPage, hlast] at hp
        rw [meets_iff (by omega)]
        unfold PAGE_SIZE at hp
        omega
      obtain ⟨m', hshrink, -, hheld, hkept⟩ := h.held.unmapAll hpages (nodup_pagesFrom _ _)
      rw [hshrink] at hr
      cases hr
      have hmin : min r.size newSize = newSize := by omega
      rw [hmin]
      refine ⟨⟨hfit, fun h0 => ?_, hheld.congr hmeets⟩, ?_⟩
      · dsimp only at h0
        subst h0
        exact ⟨hdvd, hpos⟩
      · refine sameBelow_of_bytes rfl fun p hp => ?_
        obtain ⟨hin, hout⟩ := (hmeets p).mp hp
        exact hkept p hin hout
    next hle =>
      cases hr
      have heq : r.size = newSize := by omega
      subst heq
      exact ⟨h, fun a _ _ => ⟨rfl, rfl⟩⟩

theorem drop_mapped (h : Mapped m₀ r k) :
    ∃ m', r.drop k = some { k with mapper := m' } ∧ ∀ p, p < 2 ^ 36 → m'.entryAt p = m₀.entryAt p := by
  have hmem : ∀ p, p ∈ r.pages ↔ r.Meets p := fun p => h.sane.mem_pages
  obtain ⟨m', -, hunmap, hheld, -⟩ := h.held.unmapAll (fun p hp => (hmem p).mp hp) (nodup_pagesFrom _ _)
  refine ⟨m', by simp [Memory.drop, hunmap], fun p hp => hheld.outside p hp ?_⟩
  rintro ⟨hin, hout⟩
  exact hout ((hmem p).mpr hin)

/-- A resize that meets the condition and returns. -/
def Step (s : Memory × Machine) (call : Nat × Bool × Bool) (s' : Memory × Machine) : Prop :=
  Whole s.1 s.2 call.1 ∧ s.1.resize call.1 call.2.1 call.2.2 s.2 = some s'

/-- Where regions shrink to the ends of pages only, the pages mapped for a region are the pages it
meets, a resize keeps the bytes below both sizes, and the drop unmaps each page once. -/
theorem region_maps_its_pages {start size : Nat} {flush clear : Bool} {k₀ k₁ : Machine} {r₁ : Memory}
    {calls : List (Nat × Bool × Bool)} (hnodup : k₀.mapper.free.Nodup) (hs : Sane start size)
    (hnew : Memory.new start size flags flush clear k₀ = some (r₁, k₁))
    (hr : Run Step (r₁, k₁) calls (r, k)) :
    (∀ page, page < 2 ^ 36 →
      (r.Meets page → k₀.mapper.entryAt page = none ∧ k.mapper.entryAt page ≠ none) ∧
      (¬ r.Meets page → k.mapper.entryAt page = k₀.mapper.entryAt page)) ∧
    (∀ newSize flush clear r' k', Whole r k newSize → r.resize newSize flush clear k = some (r', k') →
      SameBelow r.start (min r.size newSize) k k') ∧
    ∃ m', r.drop k = some { k with mapper := m' } ∧
      ∀ page, page < 2 ^ 36 → m'.entryAt page = k₀.mapper.entryAt page := by
  have hmapped : Mapped k₀.mapper r k :=
    hr.invariant (I := fun s => Mapped k₀.mapper s.1 s.2)
      (fun _ _ _ hstep h => (resize_mapped h hstep.1 hstep.2).1) (new_mapped hs hnodup hnew)
  refine ⟨fun page hlow => ⟨fun hin => ?_, hmapped.held.outside page hlow⟩, ?_, drop_mapped hmapped⟩
  · exact ⟨(hmapped.held.inside page hin).1, hmapped.held.mapped hin⟩
  · intro newSize flush clear r' k' hw hres
    exact (resize_mapped hmapped hw hres).2

/-- A machine without a page mapped. -/
def blank : Machine := ⟨⟨fun _ => none, [1, 2, 3, 4, 5, 6, 7, 8]⟩, fun _ _ => 7⟩

theorem blank_entryAt (page : Nat) : blank.mapper.entryAt page = none := rfl

/-- The flags of a heap. -/
def heapFlags : EntryFlags := NO_EXECUTE ||| WRITABLE ||| USER_ACCESSIBLE

theorem new_heap : Memory.new USER_HEAP_OFFSET 0 heapFlags true false blank =
    some (⟨USER_HEAP_OFFSET, 0, heapFlags⟩, blank) := by
  have hpages : Memory.pages ⟨USER_HEAP_OFFSET, 0, heapFlags⟩ = [] := by decide
  simp [Memory.new, Memory.map, hpages, Mapper.mapPages]

theorem heap_first_page {newSize : Nat} (hpos : 0 < newSize) (hle : newSize ≤ 4096) :
    pagesFrom ((USER_HEAP_OFFSET + 0) % 2 ^ 64 / PAGE_SIZE) (lastPage USER_HEAP_OFFSET newSize) =
      [2 ^ 27] := by
  have hlast : lastPage USER_HEAP_OFFSET newSize = 2 ^ 27 := by
    unfold lastPage USER_HEAP_OFFSET USER_OFFSET PML4_SIZE PAGE_SIZE
    omega
  rw [hlast]
  decide

/-- A heap of one page. -/
theorem region_maps_its_pages_heap : ∃ r k m', Run Step (⟨USER_HEAP_OFFSET, 0, heapFlags⟩, blank)
    [(4096, true, false)] (r, k) ∧ k.mapper.entryAt (2 ^ 27) ≠ none ∧
    r.drop k = some { k with mapper := m' } := by
  obtain ⟨m', hm', -⟩ := map_isSome (n := 0) heapFlags (blank_entryAt (2 ^ 27)) (by decide)
  have hgrow : blank.mapper.growPages heapFlags [2 ^ 27] = some m' :=
    growPages_one (blank_entryAt _) hm'
  have hstep : Step (⟨USER_HEAP_OFFSET, 0, heapFlags⟩, blank) (4096, true, false)
      (⟨USER_HEAP_OFFSET, 4096, heapFlags⟩, { blank with mapper := m' }) := by
    refine ⟨⟨by decide, by decide, fun page _ _ => rfl⟩, ?_⟩
    simp only [Memory.resize]
    rw [if_pos (by decide), heap_first_page (by decide) (by decide), hgrow]
    rfl
  have hrun := Run.cons hstep .nil
  obtain ⟨hpages, -, m₂, hdrop, -⟩ := region_maps_its_pages (by decide) ⟨by decide, by decide⟩ new_heap hrun
  refine ⟨_, _, m₂, hrun, ((hpages (2 ^ 27) (by decide)).1 ?_).2, hdrop⟩
  exact ⟨USER_HEAP_OFFSET, by decide, by decide, by decide⟩

/-- A heap of two bytes, cut to one: the page of that byte is gone, and the drop panics. -/
theorem shrinking_inside_a_page_unmaps_it : ∃ r k r₁ k₁ r₂ k₂,
    Memory.new USER_HEAP_OFFSET 0 heapFlags true false blank = some (r, k) ∧
    r.resize 2 true true k = some (r₁, k₁) ∧ r₁.resize 1 true true k₁ = some (r₂, k₂) ∧
    r₂.Meets (2 ^ 27) ∧ k₂.mapper.entryAt (2 ^ 27) = none ∧ r₂.drop k₂ = none := by
  obtain ⟨m₁, hm₁, -⟩ := map_isSome (n := 0) heapFlags (blank_entryAt (2 ^ 27)) (by decide)
  obtain ⟨frame, -, -, -, -, hall⟩ := map_some hm₁
  have he : m₁.entryAt (2 ^ 27) = some ⟨frame, heapFlags ||| PRESENT⟩ := by rw [hall, if_pos rfl]
  have htrans : m₁.translatePage (2 ^ 27) = some frame := by rw [Mapper.translatePage, he]; rfl
  have hgrow : blank.mapper.growPages heapFlags [2 ^ 27] = some m₁ :=
    growPages_one (blank_entryAt _) hm₁
  obtain ⟨bytes, hzero⟩ : ∃ bytes, m₁.zeroFill 2 (USER_HEAP_OFFSET + 0) blank.bytes = some bytes := by
    have h0 : (USER_HEAP_OFFSET + 0) % 2 ^ 64 / PAGE_SIZE = 2 ^ 27 := by decide
    have h1 : (USER_HEAP_OFFSET + 0 + 1) % 2 ^ 64 / PAGE_SIZE = 2 ^ 27 := by decide
    exact ⟨_, by simp only [Mapper.zeroFill, h0, h1, htrans]; rfl⟩
  obtain ⟨m₂, hm₂, -, hall₂⟩ := unmapReturn_isSome he
  have hgone : m₂.entryAt (2 ^ 27) = none := by rw [hall₂, if_pos rfl]
  refine ⟨_, _, ⟨USER_HEAP_OFFSET, 2, heapFlags⟩, ⟨m₁, bytes⟩, ⟨USER_HEAP_OFFSET, 1, heapFlags⟩,
    ⟨m₂, bytes⟩, new_heap, ?_, ?_, ⟨USER_HEAP_OFFSET, by decide, by decide, by decide⟩, hgone, ?_⟩
  · simp only [Memory.resize]
    rw [if_pos (by decide), heap_first_page (by decide) (by decide), hgrow]
    simp only [Nat.add_zero] at hzero
    simp [hzero]
  · have hpages : pagesFrom ((USER_HEAP_OFFSET + 1) % 2 ^ 64 / PAGE_SIZE)
        (lastPage USER_HEAP_OFFSET 2) = [2 ^ 27] := by decide
    have hshrink : m₁.shrinkPages [2 ^ 27] = some m₂ := by
      simp only [Mapper.shrinkPages, htrans, Mapper.unmap, hm₂]
      rfl
    rw [Memory.resize, if_neg (by decide), if_pos (by decide), hpages, hshrink]
    rfl
  · have hpages : Memory.pages ⟨USER_HEAP_OFFSET, 1, heapFlags⟩ = [2 ^ 27] := by decide
    simp only [Memory.drop, hpages, Mapper.unmapPages, unmapReturn_none hgone]
    rfl

end Origel.Kernel.Paging
