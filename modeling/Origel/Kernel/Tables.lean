import Mathlib.Data.Nat.Bitwise
import Mathlib.Logic.Function.Basic
import Origel.Kernel.Paging
import Origel.Lib.Radix
import Origel.Lib.Run

/-! Page tables in memory: frames of 512 entries, linked by their numbers, and the map from pages to
frames that they stand for. -/
namespace Origel.Kernel.Tables

open Origel.Lib
open Origel.Kernel.Paging (Frame EntryFlags PRESENT WRITABLE USER_ACCESSIBLE HUGE_PAGE p4Index p3Index
  p2Index p1Index)

/-- `Entry`: a word of a table -/
abbrev Entry := UInt64

def ADDRESS_MASK : UInt64 := 0x000ffffffffff000

/-- All flags that have a name. -/
def ALL : EntryFlags := 0x80000000000001ff

namespace Entry

def isUnused (e : Entry) : Bool := e = 0

def address (e : Entry) : UInt64 := e &&& ADDRESS_MASK

/-- `EntryFlags::from_bits_truncate` -/
def flags (e : Entry) : EntryFlags := e &&& ALL

def contains (flags other : EntryFlags) : Bool := flags &&& other = other

def pointedFrame (e : Entry) : Option Frame :=
  if contains (flags e) PRESENT then some ((address e).toNat / 4096) else none

/-- `Table::next_table`: with the recursive mapping it is the table in the frame. -/
def nextTable (e : Entry) : Option Frame :=
  if contains (flags e) PRESENT ∧ ¬ contains (flags e) HUGE_PAGE then some ((address e).toNat / 4096)
  else none

/-- `Entry::set` -/
def of (frame : Frame) (flags : EntryFlags) : Entry := UInt64.ofNat (frame * 4096) ||| flags

end Entry

open Entry

abbrev Index := Fin 512

def p4 (page : Nat) : Index := ⟨p4Index page, Nat.mod_lt _ (by decide)⟩
def p3 (page : Nat) : Index := ⟨p3Index page, Nat.mod_lt _ (by decide)⟩
def p2 (page : Nat) : Index := ⟨p2Index page, Nat.mod_lt _ (by decide)⟩
def p1 (page : Nat) : Index := ⟨p1Index page, Nat.mod_lt _ (by decide)⟩

/-- The memory of tables, the frame of the fourth level, and the frames that the allocator has still to
give. -/
structure Mapper where
  mem : Frame → Index → Entry
  root : Frame
  free : List Frame

namespace Mapper

def nextTable (m : Mapper) (f : Frame) (i : Index) : Option Frame := Entry.nextTable (m.mem f i)

def set (m : Mapper) (f : Frame) (i : Index) (e : Entry) : Mapper :=
  { m with mem := Function.update m.mem f (Function.update (m.mem f) i e) }

/-- `Table::zero` -/
def zero (m : Mapper) (f : Frame) : Mapper := { m with mem := Function.update m.mem f fun _ => 0 }

def nextTableCreate (m : Mapper) (f : Frame) (i : Index) : Option (Frame × Mapper) :=
  match m.nextTable f i with
  | some g => some (g, m)
  | none =>
    if contains (flags (m.mem f i)) HUGE_PAGE then none
    else
      match m.free with
      | [] => none
      | frame :: free => do
        let m := { m with free }.set f i (.of frame (PRESENT ||| WRITABLE ||| USER_ACCESSIBLE))
        let g ← m.nextTable f i
        let m := m.zero g
        let g ← m.nextTable f i
        some (g, m)

def mapTo (m : Mapper) (page : Nat) (frame : Frame) (flags : EntryFlags) : Option Mapper := do
  let (t3, m) ← m.nextTableCreate m.root (p4 page)
  let (t2, m) ← m.nextTableCreate t3 (p3 page)
  let (t1, m) ← m.nextTableCreate t2 (p2 page)
  if isUnused (m.mem t1 (p1 page)) then some (m.set t1 (p1 page) (.of frame (flags ||| PRESENT)))
  else none

/-- The p1 table of a page, if it is there. -/
def p1Table (m : Mapper) (page : Nat) : Option Frame := do
  let t3 ← m.nextTable m.root (p4 page)
  let t2 ← m.nextTable t3 (p3 page)
  m.nextTable t2 (p2 page)

def remap (m : Mapper) (page : Nat) (flags : EntryFlags) : Option Mapper := do
  let t1 ← m.p1Table page
  let frame ← pointedFrame (m.mem t1 (p1 page))
  some (m.set t1 (p1 page) (.of frame (flags ||| PRESENT)))

def unmapReturn (m : Mapper) (page : Nat) : Option (Frame × Mapper) := do
  let t1 ← m.p1Table page
  let frame ← pointedFrame (m.mem t1 (p1 page))
  some (frame, m.set t1 (p1 page) 0)

/-- `Mapper::unmap`: the allocator drops the frame that it is given. -/
def unmap (m : Mapper) (page : Nat) : Option Mapper := (m.unmapReturn page).map Prod.snd

def translatePage (m : Mapper) (page : Nat) : Option Frame := do
  let t1 ← m.p1Table page
  pointedFrame (m.mem t1 (p1 page))

def translatePageFlags (m : Mapper) (page : Nat) : Option EntryFlags := do
  let t1 ← m.p1Table page
  some (flags (m.mem t1 (p1 page)))

end Mapper

inductive Op where
  | mapTo (page : Nat) (frame : Frame) (flags : EntryFlags)
  | remap (page : Nat) (flags : EntryFlags)
  | unmap (page : Nat)
  | unmapReturn (page : Nat)

def Op.page : Op → Nat
  | .mapTo page _ _ => page
  | .remap page _ => page
  | .unmap page => page
  | .unmapReturn page => page

/-- What a call makes of the tables and what it returns; none where it panics. -/
def Mapper.act (m : Mapper) : Op → Option (Option Frame × Mapper)
  | .mapTo page frame flags => (m.mapTo page frame flags).map (none, ·)
  | .remap page flags => (m.remap page flags).map (none, ·)
  | .unmap page => (m.unmap page).map (none, ·)
  | .unmapReturn page => (m.unmapReturn page).map fun r => (some r.1, r.2)

/-- The map that the tables are for. -/
abbrev PageMap := Nat → Option (Frame × EntryFlags)

def PageMap.act (map : PageMap) : Op → Option (Option Frame × PageMap)
  | .mapTo page frame flags =>
    match map page with
    | none => some (none, Function.update map page (some (frame, flags ||| PRESENT)))
    | some _ => none
  | .remap page flags =>
    (map page).map fun e => (none, Function.update map page (some (e.1, flags ||| PRESENT)))
  | .unmap page => (map page).map fun _ => (none, Function.update map page none)
  | .unmapReturn page => (map page).map fun e => (some e.1, Function.update map page none)

/-- A call with what it returned. -/
abbrev Call := Op × Option Frame

def MapStep (map : PageMap) (call : Call) (map' : PageMap) : Prop :=
  map.act call.1 = some (call.2, map')

/-- Page numbers of addresses whose upper bits are all as bit 47 is. -/
def Canonical (page : Nat) : Prop := page < 2 ^ 35 ∨ 2 ^ 52 - 2 ^ 35 ≤ page ∧ page < 2 ^ 52

/-- A page with a canonical address outside of the recursive slot. -/
def Ordinary (page : Nat) : Prop := Canonical page ∧ p4 page ≠ 511

/-- The page is an ordinary one, the frame has an address that an entry can hold, and the flags are
flags. -/
def Op.Valid : Op → Prop
  | .mapTo page frame flags => Ordinary page ∧ frame < 2 ^ 40 ∧ Entry.flags flags = flags
  | .remap page flags => Ordinary page ∧ Entry.flags flags = flags
  | .unmap page => Ordinary page
  | .unmapReturn page => Ordinary page

def Step (m : Mapper) (call : Call) (m' : Mapper) : Prop :=
  call.1.Valid ∧ m.act call.1 = some (call.2, m')

variable {frame : Nat} {fl : EntryFlags} {page q : Nat}

theorem toNat_ofNat_frame (h : frame < 2 ^ 40) : (UInt64.ofNat (frame * 4096)).toNat = frame * 2 ^ 12 := by
  have hsize : frame * 4096 < UInt64.size := by
    change frame * 4096 < 2 ^ 64
    omega
  rw [UInt64.toNat_ofNat_of_lt' hsize]
  rfl

theorem or_and_distrib (a b c : UInt64) : (a ||| b) &&& c = a &&& c ||| b &&& c := by
  apply UInt64.toNat_inj.mp
  simp only [UInt64.toNat_and, UInt64.toNat_or, Nat.and_or_distrib_right]

/-- The address of a frame has no bit among the flags. -/
theorem frame_and_all (h : frame < 2 ^ 40) : UInt64.ofNat (frame * 4096) &&& ALL = 0 := by
  have hall : ALL.toNat = (2 ^ 9 - 1) ||| 2 ^ 63 := by decide
  apply UInt64.toNat_inj.mp
  rw [UInt64.toNat_and, toNat_ofNat_frame h, hall]
  apply Nat.eq_of_testBit_eq
  intro i
  rw [Nat.testBit_and, Nat.testBit_mul_two_pow, Nat.testBit_or, Nat.testBit_two_pow_sub_one,
    Nat.testBit_two_pow]
  by_cases h9 : i < 9
  · have h12 : ¬ 12 ≤ i := by omega
    simp [h12]
  · by_cases h63 : 63 = i
    · subst h63
      have hbit : frame.testBit 51 = false := Nat.testBit_lt_two_pow (by omega)
      simp [hbit]
    · simp [h9, h63]

theorem frame_and_mask (h : frame < 2 ^ 40) :
    UInt64.ofNat (frame * 4096) &&& ADDRESS_MASK = UInt64.ofNat (frame * 4096) := by
  have hmask : ADDRESS_MASK.toNat = (2 ^ 40 - 1) * 2 ^ 12 := by decide
  apply UInt64.toNat_inj.mp
  rw [UInt64.toNat_and, toNat_ofNat_frame h, hmask]
  apply Nat.eq_of_testBit_eq
  intro i
  rw [Nat.testBit_and, Nat.testBit_mul_two_pow, Nat.testBit_mul_two_pow, Nat.testBit_two_pow_sub_one]
  by_cases h40 : i - 12 < 40
  · by_cases h12 : 12 ≤ i <;> simp [h12, h40]
  · have hle : 2 ^ 40 ≤ 2 ^ (i - 12) := Nat.pow_le_pow_right (by decide) (by omega)
    have hbit : frame.testBit (i - 12) = false := Nat.testBit_lt_two_pow (Nat.lt_of_lt_of_le h hle)
    simp [hbit]

/-- Flags have no bit in the address. -/
theorem flags_and_mask (h : flags fl = fl) : fl &&& ADDRESS_MASK = 0 := by
  have hdisjoint : ALL &&& ADDRESS_MASK = 0 := by decide
  rw [← h, flags, UInt64.and_assoc, hdisjoint, UInt64.and_zero]

theorem flags_of (hframe : frame < 2 ^ 40) (hfl : flags fl = fl) : flags (Entry.of frame fl) = fl := by
  rw [flags] at hfl
  rw [flags, Entry.of, or_and_distrib, frame_and_all hframe, hfl, UInt64.zero_or]

theorem address_of (hframe : frame < 2 ^ 40) (hfl : flags fl = fl) :
    (address (Entry.of frame fl)).toNat / 4096 = frame := by
  have haddress : address (Entry.of frame fl) = UInt64.ofNat (frame * 4096) := by
    rw [address, Entry.of, or_and_distrib, frame_and_mask hframe, flags_and_mask hfl,
      UInt64.or_zero]
  rw [haddress, toNat_ofNat_frame hframe]
  omega

theorem contains_or (a b : EntryFlags) : contains (a ||| b) b = true := by
  have hand : (a ||| b) &&& b = b := by
    apply UInt64.toNat_inj.mp
    apply Nat.eq_of_testBit_eq
    intro i
    rw [UInt64.toNat_and, UInt64.toNat_or, Nat.testBit_and, Nat.testBit_or]
    cases a.toNat.testBit i <;> cases b.toNat.testBit i <;> rfl
  exact decide_eq_true hand

theorem flags_or {a b : EntryFlags} (ha : flags a = a) (hb : flags b = b) : flags (a ||| b) = a ||| b := by
  rw [flags] at ha hb ⊢
  rw [or_and_distrib, ha, hb]

@[simp] theorem pointedFrame_zero : pointedFrame 0 = none := by decide

@[simp] theorem nextTable_zero : Entry.nextTable 0 = none := by decide

theorem pointedFrame_of (hframe : frame < 2 ^ 40) (hfl : flags fl = fl) (hp : contains fl PRESENT = true) :
    pointedFrame (Entry.of frame fl) = some frame := by
  rw [pointedFrame, flags_of hframe hfl, if_pos hp, address_of hframe hfl]

theorem of_ne_zero (hframe : frame < 2 ^ 40) (hfl : flags fl = fl) (hp : contains fl PRESENT = true) :
    Entry.of frame fl ≠ 0 := by
  intro hzero
  have hpointed := pointedFrame_of hframe hfl hp
  rw [hzero] at hpointed
  cases hpointed

/-- The entry of a new table leads to it. -/
theorem nextTable_of (hframe : frame < 2 ^ 40) :
    Entry.nextTable (.of frame (PRESENT ||| WRITABLE ||| USER_ACCESSIBLE)) = some frame := by
  have hfl : flags (PRESENT ||| WRITABLE ||| USER_ACCESSIBLE) = PRESENT ||| WRITABLE ||| USER_ACCESSIBLE := by
    decide
  rw [Entry.nextTable, flags_of hframe hfl, if_pos (by decide), address_of hframe hfl]

variable {m m' : Mapper} {f g t : Frame} {i j : Index} {e : Entry} {ρ π path : List Index}

theorem set_mem (m : Mapper) (f g : Frame) (i j : Index) (e : Entry) :
    (m.set f i e).mem g j = if g = f ∧ j = i then e else m.mem g j := by
  by_cases hg : g = f
  · subst hg
    by_cases hj : j = i
    · subst hj
      simp [Mapper.set]
    · simp [Mapper.set, hj]
  · simp [Mapper.set, hg]

theorem zero_mem (m : Mapper) (f g : Frame) (j : Index) :
    (m.zero f).mem g j = if g = f then 0 else m.mem g j := by
  by_cases hg : g = f
  · subst hg
    simp [Mapper.zero]
  · simp [Mapper.zero, hg]

/-- Paths to tables, outside of the recursive slot. -/
def Short (π : List Index) : Prop := π.length ≤ 3 ∧ π.head? ≠ some 511

theorem Short.of_append {σ : List Index} (h : Short (ρ ++ σ)) : Short ρ := by
  obtain ⟨hlen, hhead⟩ := h
  refine ⟨?_, ?_⟩
  · rw [List.length_append] at hlen
    omega
  · cases ρ with
    | nil => exact nofun
    | cons i ρ => exact hhead

/-- The tables are a tree, and none of them is free. -/
structure WellFormed (m : Mapper) : Prop where
  separate : Separate m.nextTable m.root Short
  nodup : m.free.Nodup
  small : ∀ f ∈ m.free, f < 2 ^ 40
  fresh : ∀ π f, Short π → follow m.nextTable m.root π = some f → f ∉ m.free

def pathOf (page : Nat) : List Index := [p4 page, p3 page, p2 page]

theorem Ordinary.short (h : Ordinary page) : Short (pathOf page) := by
  refine ⟨Nat.le_refl _, ?_⟩
  intro hhead
  exact h.2 (Option.some.inj hhead)

theorem p1Table_eq (m : Mapper) (page : Nat) :
    m.p1Table page = follow m.nextTable m.root (pathOf page) := by
  simp [Mapper.p1Table, pathOf, follow]

/-- The entry of a page, which is unused where there is no table. -/
def leaf (m : Mapper) (page : Nat) : Entry :=
  match m.p1Table page with
  | none => 0
  | some t => m.mem t (p1 page)

theorem leaf_of_some (h : m.p1Table page = some t) : leaf m page = m.mem t (p1 page) := by
  rw [leaf, h]

theorem leaf_of_none (h : m.p1Table page = none) : leaf m page = 0 := by
  rw [leaf, h]

/-- A new table takes the first frame that is free. -/
theorem nextTableCreate_new {free : List Frame} (hnone : m.nextTable f i = none)
    (hfree : m.free = frame :: free) (hframe : frame < 2 ^ 40) (hne : f ≠ frame)
    (heq : m.nextTableCreate f i = some (g, m')) : g = frame ∧ m'.root = m.root ∧ m'.free = free ∧
      ∀ t j, m'.mem t j = if t = frame then 0 else if t = f ∧ j = i then
        .of frame (PRESENT ||| WRITABLE ||| USER_ACCESSIBLE) else m.mem t j := by
  have hset : ({ m with free }.set f i (.of frame (PRESENT ||| WRITABLE ||| USER_ACCESSIBLE))).nextTable f i =
      some frame := by
    rw [Mapper.nextTable, set_mem, if_pos ⟨rfl, rfl⟩]
    exact nextTable_of hframe
  have hzero : (({ m with free }.set f i
      (.of frame (PRESENT ||| WRITABLE ||| USER_ACCESSIBLE))).zero frame).nextTable f i = some frame := by
    rw [Mapper.nextTable, zero_mem, if_neg hne]
    exact hset
  rw [Mapper.nextTableCreate, hnone] at heq
  dsimp only at heq
  split at heq
  · cases heq
  · rw [hfree] at heq
    simp only [hset, hzero, Option.bind_eq_bind, Option.bind_some, Option.some.injEq, Prod.mk.injEq] at heq
    obtain ⟨rfl, rfl⟩ := heq
    refine ⟨rfl, rfl, rfl, ?_⟩
    intro t j
    rw [zero_mem, set_mem]

/-- In the tree it is a graft. -/
theorem graft_of_new (hnone : m.nextTable f i = none) (hframe : frame < 2 ^ 40) (hne : f ≠ frame)
    (hentry : ∀ t j, m'.mem t j = if t = frame then 0 else if t = f ∧ j = i then
      .of frame (PRESENT ||| WRITABLE ||| USER_ACCESSIBLE) else m.mem t j) :
    Graft m.nextTable m'.nextTable f i frame := by
  refine ⟨hnone, ?_, ?_, ?_⟩
  · rw [Mapper.nextTable, hentry, if_neg hne, if_pos ⟨rfl, rfl⟩]
    exact nextTable_of hframe
  · intro j
    rw [Mapper.nextTable, hentry, if_pos rfl]
    exact nextTable_zero
  · intro t j ht hat
    rw [Mapper.nextTable, hentry, if_neg ht, if_neg fun hboth => hat hboth.1 hboth.2]
    rfl

namespace WellFormed

/-- A table is made where there is none: the tree stays a tree, and no entry of a page changes. -/
theorem create (h : WellFormed m) (hshort : Short (ρ ++ [i])) (hf : follow m.nextTable m.root ρ = some f)
    (heq : m.nextTableCreate f i = some (g, m')) : WellFormed m' ∧ m'.root = m.root ∧
      follow m'.nextTable m'.root (ρ ++ [i]) = some g ∧
      ∀ page, Ordinary page → leaf m' page = leaf m page := by
  cases hnext : m.nextTable f i with
  | some t =>
    rw [Mapper.nextTableCreate, hnext] at heq
    cases heq
    refine ⟨h, rfl, ?_, fun _ _ => rfl⟩
    rw [follow_snoc, hf]
    exact hnext
  | none =>
    have hρ : Short ρ := hshort.of_append
    cases hfree : m.free with
    | nil =>
      rw [Mapper.nextTableCreate, hnext, hfree] at heq
      dsimp only at heq
      split at heq <;> cases heq
    | cons frame free =>
      have hmem : frame ∈ m.free := hfree ▸ List.mem_cons_self
      have hne : f ≠ frame := fun heq => h.fresh ρ f hρ hf (heq ▸ hmem)
      have hframe := h.small frame hmem
      obtain ⟨hg, hroot, hrest, hentry⟩ := nextTableCreate_new hnext hfree hframe hne heq
      have hgraft := graft_of_new hnext hframe hne hentry
      have hclosed : ∀ (π : List Index) i, Short (π ++ [i]) → Short π := fun _ _ => Short.of_append
      have hnew : ∀ π, Short π → follow m.nextTable m.root π ≠ some frame :=
        fun π hπ hfollow => h.fresh π frame hπ hfollow hmem
      have hfollow : ∀ π, Short π → follow m'.nextTable m'.root π =
          if π = ρ ++ [i] then some frame else follow m.nextTable m.root π := by
        intro π hπ
        rw [hroot]
        exact hgraft.follow h.separate hclosed hnew hρ hf hπ
      have hnodup : frame ∉ free ∧ free.Nodup := List.nodup_cons.mp (hfree ▸ h.nodup)
      refine ⟨⟨?_, hrest ▸ hnodup.2, ?_, ?_⟩, hroot, ?_, ?_⟩
      · rw [hroot]
        exact hgraft.separate h.separate hclosed hnew hρ hf
      · intro t ht
        rw [hrest] at ht
        exact h.small t (hfree ▸ List.mem_cons_of_mem _ ht)
      · intro π t hπ ht
        rw [hfollow π hπ] at ht
        rw [hrest]
        split at ht
        · cases ht
          exact hnodup.1
        · intro hin
          exact h.fresh π t hπ ht (hfree ▸ List.mem_cons_of_mem _ hin)
      · rw [hfollow _ hshort, if_pos rfl, hg]
      · intro page hpage
        have htable : m'.p1Table page =
            if pathOf page = ρ ++ [i] then some frame else m.p1Table page := by
          rw [p1Table_eq, p1Table_eq, hfollow _ hpage.short]
        by_cases hpath : pathOf page = ρ ++ [i]
        · -- the table was not there, and is filled with zeros
          have hbefore : m.p1Table page = none := by
            rw [p1Table_eq, hpath, follow_snoc, hf]
            exact hnext
          rw [if_pos hpath] at htable
          rw [leaf_of_some htable, leaf_of_none hbefore, hentry, if_pos rfl]
        · rw [if_neg hpath] at htable
          cases ht : m.p1Table page with
          | none => rw [leaf_of_none ht, leaf_of_none (htable.trans ht)]
          | some t =>
            rw [leaf_of_some ht, leaf_of_some (htable.trans ht), hentry]
            rw [p1Table_eq] at ht
            have htnew : t ≠ frame := fun heq => hnew _ hpage.short (heq ▸ ht)
            have htf : t ≠ f := by
              rintro rfl
              have hsame := h.separate _ _ _ hpage.short hρ ht hf
              have hlen := hshort.1
              rw [← hsame] at hlen
              simp [pathOf] at hlen
            rw [if_neg htnew, if_neg fun hboth => htf hboth.1]

/-- A word of a last table is written: the tree stays as it is, and one page changes. -/
theorem write (h : WellFormed m) (hlen : path.length = 3) (hshort : Short path)
    (ht : follow m.nextTable m.root path = some t) (i : Index) (e : Entry) : WellFormed (m.set t i e) ∧
      ∀ page, Ordinary page →
        leaf (m.set t i e) page = if pathOf page = path ∧ p1 page = i then e else leaf m page := by
  have hfollow : ∀ π, Short π →
      follow (m.set t i e).nextTable (m.set t i e).root π = follow m.nextTable m.root π := by
    intro π hπ
    apply follow_congr
    intro ρ j σ g hsplit hg
    -- the path passes only tables that are higher up
    have hne : g ≠ t := by
      rintro rfl
      have hsame := h.separate ρ path g (hsplit ▸ hπ).of_append hshort hg ht
      have hle := hπ.1
      rw [hsplit, hsame, List.length_append, List.length_cons, hlen] at hle
      omega
    rw [Mapper.nextTable, set_mem, if_neg fun hboth => hne hboth.1]
    rfl
  refine ⟨⟨?_, h.nodup, h.small, ?_⟩, ?_⟩
  · intro π ρ g hπ hρ hg hg'
    rw [hfollow π hπ] at hg
    rw [hfollow ρ hρ] at hg'
    exact h.separate π ρ g hπ hρ hg hg'
  · intro π g hπ hg
    rw [hfollow π hπ] at hg
    exact h.fresh π g hπ hg
  · intro page hpage
    have htable : (m.set t i e).p1Table page = m.p1Table page := by
      rw [p1Table_eq, p1Table_eq, hfollow _ hpage.short]
    by_cases hpath : pathOf page = path
    · have hold : m.p1Table page = some t := by rw [p1Table_eq, hpath, ht]
      rw [leaf_of_some hold, leaf_of_some (htable.trans hold), set_mem]
      simp [hpath]
    · rw [if_neg fun hboth => hpath hboth.1]
      cases hold : m.p1Table page with
      | none => rw [leaf_of_none hold, leaf_of_none (htable.trans hold)]
      | some t' =>
        have hne : t' ≠ t := by
          rintro rfl
          rw [p1Table_eq] at hold
          exact hpath (h.separate _ _ _ hpage.short hshort hold ht)
        rw [leaf_of_some hold, leaf_of_some (htable.trans hold), set_mem, if_neg fun hboth => hne hboth.1]

end WellFormed

/-- The word that stands for an entry of the map. -/
def encode : Option (Frame × EntryFlags) → Entry
  | none => 0
  | some e => .of e.1 e.2

/-- Entries that a word can hold. -/
def Held (e : Frame × EntryFlags) : Prop :=
  e.1 < 2 ^ 40 ∧ flags e.2 = e.2 ∧ contains e.2 PRESENT = true

theorem held_of (hframe : frame < 2 ^ 40) (hfl : flags fl = fl) : Held (frame, fl ||| PRESENT) :=
  ⟨hframe, flags_or hfl (by decide), contains_or fl PRESENT⟩

/-- The tables stand for the map. -/
structure Represents (m : Mapper) (map : PageMap) : Prop where
  wellFormed : WellFormed m
  leaf : ∀ page, Ordinary page → leaf m page = encode (map page)
  held : ∀ page e, map page = some e → Held e

variable {map map' : PageMap} {op : Op} {ops : List Op} {result : Option Frame}

/-- Ordinary pages are told apart by their indices. -/
theorem Ordinary.eq (h : Ordinary page) (hq : Ordinary q) (hpath : pathOf page = pathOf q)
    (h1 : p1 page = p1 q) : page = q := by
  simp only [pathOf, List.cons.injEq, and_true] at hpath
  have hindex := Paging.index_eq_iff.mpr ⟨congrArg Fin.val hpath.1, congrArg Fin.val hpath.2.1,
    congrArg Fin.val hpath.2.2, congrArg Fin.val h1⟩
  have hc := h.1
  have hcq := hq.1
  simp only [Canonical, Paging.index] at hc hcq hindex
  omega

theorem translatePage_eq_leaf (m : Mapper) (page : Nat) :
    m.translatePage page = pointedFrame (leaf m page) := by
  cases ht : m.p1Table page with
  | none => simp [Mapper.translatePage, leaf_of_none ht, ht]
  | some t => simp [Mapper.translatePage, leaf_of_some ht, ht]

theorem translatePageFlags_eq_leaf (m : Mapper) (page : Nat) :
    m.translatePageFlags page = (m.p1Table page).map fun _ => flags (leaf m page) := by
  cases ht : m.p1Table page with
  | none => simp [Mapper.translatePageFlags, ht]
  | some t => simp [Mapper.translatePageFlags, leaf_of_some ht, ht]

theorem pointedFrame_encode {e : Option (Frame × EntryFlags)} (h : ∀ x, e = some x → Held x) :
    pointedFrame (encode e) = e.map Prod.fst := by
  cases e with
  | none => exact pointedFrame_zero
  | some x =>
    obtain ⟨hframe, hfl, hp⟩ := h x rfl
    exact pointedFrame_of hframe hfl hp

namespace Represents

theorem translatePage (h : Represents m map) (hpage : Ordinary page) :
    m.translatePage page = (map page).map Prod.fst := by
  rw [translatePage_eq_leaf, h.leaf page hpage]
  exact pointedFrame_encode (h.held page)

theorem translatePageFlags (h : Represents m map) (hpage : Ordinary page) :
    (∀ e, map page = some e → m.translatePageFlags page = some e.2) ∧
    (map page = none → m.translatePageFlags page = none ∨ m.translatePageFlags page = some 0) := by
  have hleaf := h.leaf page hpage
  rw [translatePageFlags_eq_leaf]
  constructor
  · intro e he
    obtain ⟨hframe, hfl, hp⟩ := h.held page e he
    rw [he] at hleaf
    cases ht : m.p1Table page with
    | none =>
      rw [leaf_of_none ht] at hleaf
      exact (of_ne_zero hframe hfl hp hleaf.symm).elim
    | some t =>
      rw [hleaf]
      exact congrArg some (flags_of hframe hfl)
  · intro hnone
    rw [hnone] at hleaf
    rw [hleaf]
    cases m.p1Table page with
    | none => exact .inl rfl
    | some t => exact .inr rfl

/-- One entry is written, in the tables and in the map. -/
theorem write (h : Represents m map) (hpage : Ordinary page) (ht : m.p1Table page = some t)
    {e : Option (Frame × EntryFlags)} (he : ∀ x, e = some x → Held x) :
    Represents (m.set t (p1 page) (encode e)) (Function.update map page e) := by
  rw [p1Table_eq] at ht
  obtain ⟨hwf, hleaf⟩ := h.wellFormed.write rfl hpage.short ht (p1 page) (encode e)
  refine ⟨hwf, ?_, ?_⟩
  · intro q hq
    rw [hleaf q hq]
    by_cases hqp : q = page
    · subst hqp
      simp
    · rw [Function.update_of_ne hqp, if_neg fun hboth => hqp (hq.eq hpage hboth.1 hboth.2)]
      exact h.leaf q hq
  · intro q x hx
    by_cases hqp : q = page
    · subst hqp
      rw [Function.update_self] at hx
      exact he x hx
    · rw [Function.update_of_ne hqp] at hx
      exact h.held q x hx

/-- A table on the way to a page is made, if it is missing. -/
theorem create (h : Represents m map) (hshort : Short (ρ ++ [i]))
    (hf : follow m.nextTable m.root ρ = some f) (heq : m.nextTableCreate f i = some (g, m')) :
    Represents m' map ∧ follow m'.nextTable m'.root (ρ ++ [i]) = some g := by
  obtain ⟨hwf, -, hfollow, hleaf⟩ := h.wellFormed.create hshort hf heq
  refine ⟨⟨hwf, ?_, h.held⟩, hfollow⟩
  intro page hpage
  rw [hleaf page hpage]
  exact h.leaf page hpage

theorem mapTo (h : Represents m map) (hpage : Ordinary page) (hframe : frame < 2 ^ 40)
    (hfl : flags fl = fl) (heq : m.mapTo page frame fl = some m') : map page = none ∧
      Represents m' (Function.update map page (some (frame, fl ||| PRESENT))) := by
  obtain ⟨⟨t3, m3⟩, h3, heq⟩ := Option.bind_eq_some_iff.mp heq
  obtain ⟨⟨t2, m2⟩, h2, heq⟩ := Option.bind_eq_some_iff.mp heq
  obtain ⟨⟨t1, m1⟩, h1, heq⟩ := Option.bind_eq_some_iff.mp heq
  dsimp only at h3 h2 h1 heq
  have hshort : Short [p4 page, p3 page, p2 page] := hpage.short
  have hshort2 : Short [p4 page, p3 page] := Short.of_append (σ := [p2 page]) hshort
  have hshort3 : Short [p4 page] := Short.of_append (σ := [p3 page]) hshort2
  obtain ⟨hr3, hf3⟩ := h.create (ρ := []) hshort3 rfl h3
  obtain ⟨hr2, hf2⟩ := hr3.create (ρ := [p4 page]) hshort2 hf3 h2
  obtain ⟨hr1, hf1⟩ := hr2.create (ρ := [p4 page, p3 page]) hshort hf2 h1
  have htable : m1.p1Table page = some t1 := (p1Table_eq m1 page).trans hf1
  split at heq
  · rename_i hunused
    cases heq
    refine ⟨?_, hr1.write (e := some (frame, fl ||| PRESENT)) hpage htable ?_⟩
    · have hleaf := hr1.leaf page hpage
      rw [leaf_of_some htable, of_decide_eq_true hunused] at hleaf
      cases hmap : map page with
      | none => rfl
      | some e =>
        obtain ⟨hframe', hfl', hp'⟩ := h.held page e hmap
        rw [hmap] at hleaf
        exact (of_ne_zero hframe' hfl' hp' hleaf.symm).elim
    · intro x hx
      cases hx
      exact held_of hframe hfl
  · cases heq

/-- What the calls on a mapped page find. -/
theorem mapped (h : Represents m map) (hpage : Ordinary page) (ht : m.p1Table page = some t)
    (hp : pointedFrame (m.mem t (p1 page)) = some frame) : ∃ fl, map page = some (frame, fl) := by
  have htranslate := h.translatePage hpage
  rw [translatePage_eq_leaf, leaf_of_some ht, hp] at htranslate
  obtain ⟨e, he, rfl⟩ := Option.map_eq_some_iff.mp htranslate.symm
  exact ⟨e.2, he⟩

theorem remap (h : Represents m map) (hpage : Ordinary page) (hfl : flags fl = fl)
    (heq : m.remap page fl = some m') : ∃ e, map page = some e ∧
      Represents m' (Function.update map page (some (e.1, fl ||| PRESENT))) := by
  obtain ⟨t, ht, heq⟩ := Option.bind_eq_some_iff.mp heq
  obtain ⟨frame, hp, heq⟩ := Option.bind_eq_some_iff.mp heq
  cases heq
  obtain ⟨fl', hmap⟩ := h.mapped hpage ht hp
  refine ⟨_, hmap, h.write (e := some (frame, fl ||| PRESENT)) hpage ht ?_⟩
  intro x hx
  cases hx
  exact held_of (h.held page _ hmap).1 hfl

theorem unmapReturn (h : Represents m map) (hpage : Ordinary page)
    (heq : m.unmapReturn page = some (frame, m')) : ∃ fl, map page = some (frame, fl) ∧
      Represents m' (Function.update map page none) := by
  obtain ⟨t, ht, heq⟩ := Option.bind_eq_some_iff.mp heq
  obtain ⟨frame, hp, heq⟩ := Option.bind_eq_some_iff.mp heq
  cases heq
  obtain ⟨fl, hmap⟩ := h.mapped hpage ht hp
  exact ⟨fl, hmap, h.write (e := none) hpage ht nofun⟩

/-- A call does to the tables what it does to the map. -/
theorem act (h : Represents m map) (hvalid : op.Valid) (heq : m.act op = some (result, m')) :
    ∃ map', map.act op = some (result, map') ∧ Represents m' map' := by
  cases op with
  | mapTo page frame fl =>
    obtain ⟨m₁, hact, ⟨⟩⟩ := Option.map_eq_some_iff.mp heq
    obtain ⟨hnone, hr⟩ := h.mapTo hvalid.1 hvalid.2.1 hvalid.2.2 hact
    refine ⟨_, ?_, hr⟩
    rw [PageMap.act, hnone]
  | remap page fl =>
    obtain ⟨m₁, hact, ⟨⟩⟩ := Option.map_eq_some_iff.mp heq
    obtain ⟨e, he, hr⟩ := h.remap hvalid.1 hvalid.2 hact
    refine ⟨_, ?_, hr⟩
    rw [PageMap.act, he]
    rfl
  | unmap page =>
    obtain ⟨m₁, hact, ⟨⟩⟩ := Option.map_eq_some_iff.mp heq
    obtain ⟨⟨frame, m₂⟩, hreturn, rfl⟩ := Option.map_eq_some_iff.mp hact
    obtain ⟨fl, he, hr⟩ := h.unmapReturn hvalid hreturn
    refine ⟨_, ?_, hr⟩
    rw [PageMap.act, he]
    rfl
  | unmapReturn page =>
    obtain ⟨⟨frame, m₁⟩, hact, ⟨⟩⟩ := Option.map_eq_some_iff.mp heq
    obtain ⟨fl, he, hr⟩ := h.unmapReturn hvalid hact
    refine ⟨_, ?_, hr⟩
    rw [PageMap.act, he]
    rfl

end Represents

theorem mapStep_other {call : Call} (h : MapStep map call map') (hq : q ≠ call.1.page) :
    map' q = map q := by
  obtain ⟨op, result⟩ := call
  cases op with
  | mapTo page frame fl =>
    simp only [MapStep, PageMap.act] at h
    split at h
    · cases h
      exact Function.update_of_ne hq _ _
    · cases h
  | remap page fl =>
    obtain ⟨e, -, ⟨⟩⟩ := Option.map_eq_some_iff.mp h
    exact Function.update_of_ne hq _ _
  | unmap page =>
    obtain ⟨e, -, ⟨⟩⟩ := Option.map_eq_some_iff.mp h
    exact Function.update_of_ne hq _ _
  | unmapReturn page =>
    obtain ⟨e, -, ⟨⟩⟩ := Option.map_eq_some_iff.mp h
    exact Function.update_of_ne hq _ _

theorem Represents.run {calls : List Call} (h : Represents m map) (hrun : Run Step m calls m') :
    ∃ map', Run MapStep map calls map' ∧ Represents m' map' := by
  induction hrun generalizing map with
  | nil => exact ⟨map, .nil, h⟩
  | cons hstep _ ih =>
    obtain ⟨map₁, hact, h₁⟩ := h.act hstep.1 hstep.2
    obtain ⟨map', hrest, h'⟩ := ih h₁
    exact ⟨map', .cons hact hrest, h'⟩

/-- A fourth-level table with nothing in it but its own entry stands for the empty map. -/
theorem represents_empty (hzero : ∀ i, i ≠ 511 → m.mem m.root i = 0) (hnodup : m.free.Nodup)
    (hsmall : ∀ f ∈ m.free, f < 2 ^ 40) (hroot : m.root ∉ m.free) : Represents m fun _ => none := by
  have hfollow : ∀ i π, Short (i :: π) → follow m.nextTable m.root (i :: π) = none := by
    intro i π hshort
    have hi : i ≠ 511 := fun heq => hshort.2 (congrArg some heq)
    rw [follow, Mapper.nextTable, hzero i hi, nextTable_zero]
    rfl
  refine ⟨⟨?_, hnodup, hsmall, ?_⟩, ?_, ?_⟩
  · intro π ρ f hπ hρ hf hf'
    cases π with
    | cons i π =>
      rw [hfollow i π hπ] at hf
      cases hf
    | nil =>
      cases ρ with
      | nil => rfl
      | cons i ρ =>
        rw [hfollow i ρ hρ] at hf'
        cases hf'
  · intro π f hπ hf
    cases π with
    | nil =>
      cases hf
      exact hroot
    | cons i π =>
      rw [hfollow i π hπ] at hf
      cases hf
  · intro page hpage
    apply leaf_of_none
    rw [p1Table_eq]
    exact hfollow _ _ hpage.short
  · intro page e he
    cases he

/-- Tables with nothing mapped, and three frames to take. -/
def unmapped : Mapper where
  mem f i := if f = 1 ∧ i = 511 then .of 1 (PRESENT ||| WRITABLE) else 0
  root := 1
  free := [2, 3, 4]

theorem unmapped_represents : Represents unmapped fun _ => none := by
  apply represents_empty
  · intro i hi
    exact if_neg fun hboth => hi hboth.2
  · decide
  · decide
  · decide

theorem ordinary_low (h : page < 2 ^ 27) : Ordinary page := by
  refine ⟨.inl (by omega), ?_⟩
  intro heq
  have hindex : p4Index page = 511 := congrArg Fin.val heq
  rw [p4Index, Nat.div_eq_of_lt h] at hindex
  cases hindex

/-- Through any sequence of calls the tables translate as the map does that the calls make; of a page
that is not mapped the flags are none or empty. A call for one page leaves the translation of the
others. -/
theorem tables_refine_map {m m' : Mapper} {map : PageMap} {calls : List Call} (h : Represents m map)
    (hrun : Run Step m calls m') : ∃ map', Run MapStep map calls map' ∧
      (∀ page, Ordinary page → m'.translatePage page = (map' page).map Prod.fst ∧
        (∀ e, map' page = some e → m'.translatePageFlags page = some e.2) ∧
        (map' page = none → m'.translatePageFlags page = none ∨ m'.translatePageFlags page = some 0)) ∧
      ∀ call m'' q, Step m' call m'' → Ordinary q → q ≠ call.1.page →
        m''.translatePage q = m'.translatePage q ∧
        (m'.translatePage q ≠ none → m''.translatePageFlags q = m'.translatePageFlags q) := by
  obtain ⟨map', hmap, h'⟩ := h.run hrun
  refine ⟨map', hmap, ?_, ?_⟩
  · intro page hpage
    exact ⟨h'.translatePage hpage, h'.translatePageFlags hpage⟩
  · intro call m'' q hstep hq hne
    obtain ⟨map'', hact, h''⟩ := h'.act hstep.1 hstep.2
    have hsame : map'' q = map' q := mapStep_other hact hne
    refine ⟨?_, ?_⟩
    · rw [h''.translatePage hq, h'.translatePage hq, hsame]
    · intro hsome
      rw [h'.translatePage hq] at hsome
      cases he : map' q with
      | none =>
        rw [he] at hsome
        exact (hsome rfl).elim
      | some e => rw [(h''.translatePageFlags hq).1 e (hsame.trans he), (h'.translatePageFlags hq).1 e he]

/-- One page is mapped. -/
theorem mapped_page_translates : ∃ m, Run Step unmapped [(.mapTo 0 9 WRITABLE, none)] m ∧
    m.translatePage 0 = some 9 ∧ m.translatePage 1 = none := by
  have hcall : (unmapped.mapTo 0 9 WRITABLE).isSome = true := by decide
  obtain ⟨m, hm⟩ := Option.isSome_iff_exists.mp hcall
  have hrun : Run Step unmapped [(.mapTo 0 9 WRITABLE, none)] m := by
    refine .cons ⟨⟨ordinary_low (by decide), by decide, by decide⟩, ?_⟩ .nil
    rw [Mapper.act, hm]
    rfl
  obtain ⟨map, hmap, htranslate, -⟩ := tables_refine_map unmapped_represents hrun
  cases hmap with
  | cons hstep hrest =>
    cases hrest
    cases hstep
    exact ⟨m, hrun, (htranslate 0 (ordinary_low (by decide))).1, (htranslate 1 (ordinary_low (by decide))).1⟩

/-- The page after it has flags, which are empty, although it is not mapped. -/
theorem unmapped_page_has_flags : Represents unmapped (fun _ => none) ∧ ∃ m map, Run Step unmapped [(.mapTo 0 9 WRITABLE, none)] m ∧
    Run MapStep (fun _ => none) [(.mapTo 0 9 WRITABLE, none)] map ∧ Ordinary 1 ∧
    m.translatePageFlags 1 ≠ (map 1).map Prod.snd := by
  have hcall : ((unmapped.mapTo 0 9 WRITABLE).bind (·.translatePageFlags 1)) = some 0 := by decide
  obtain ⟨m, hm, hflags⟩ := Option.bind_eq_some_iff.mp hcall
  refine ⟨unmapped_represents, m, _, .cons ⟨⟨ordinary_low (by decide), by decide, by decide⟩, ?_⟩ .nil,
    .cons rfl .nil, ordinary_low (by decide), ?_⟩
  · rw [Mapper.act, hm]
    rfl
  · rw [hflags]
    exact nofun

end Origel.Kernel.Tables
