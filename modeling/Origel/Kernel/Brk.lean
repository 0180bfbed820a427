import Origel.Kernel.Memory

/-! The break of the heap, and the slot of the heap in user space. -/
namespace Origel.Kernel.Paging

inductive Errno where
  | ENOMEM
  deriving DecidableEq, Repr

/-- A process, as far as its heap goes. -/
structure Process where
  heap : Option Memory
  machine : Machine

/-- `brk`; none where the kernel panics -/
def Process.brk (p : Process) (address : Nat) : Option (Except Errno Nat × Process) :=
  match p.heap with
  | none => none
  | some heap =>
    if address = 0 then some (.ok ((heap.start + heap.size) % 2 ^ 64), p)
    else if USER_HEAP_OFFSET ≤ address then do
      let r ← heap.resize (address - USER_HEAP_OFFSET) true true p.machine
      some (.ok address, ⟨some r.1, r.2⟩)
    else some (.error .ENOMEM, p)

variable {m m' : Mapper} {page q a : Nat} {flags : EntryFlags} {pages : List Nat} {p p' : Process}
  {heap : Memory} {k k' : Machine} {bytes bytes' : Bytes} {frame : Frame} {address : Nat}

/-- The tables on the way to a page that are not there. -/
def Mapper.tablesMissing (m : Mapper) (page : Nat) : Nat :=
  match m.p4 (p4Index page) with
  | none => 3
  | some p3 =>
    match p3 (p3Index page) with
    | none => 2
    | some p2 =>
      match p2 (p2Index page) with
      | none => 1
      | some _ => 0

/-- The tables of a page that are not tables of another. -/
def ownTables (page q : Nat) : Nat :=
  if p4Index page ≠ p4Index q then 3
  else if p3Index page ≠ p3Index q then 2
  else if p2Index page ≠ p2Index q then 1
  else 0

/-- The frames that the pages of a list take, in turn: one for each that is not mapped, and one for
each table that neither was there nor was made for a page before. -/
def framesNeeded (missing : Nat → Nat) (mapped : Nat → Bool) : List Nat → Nat
  | [] => 0
  | page :: pages =>
    if mapped page then framesNeeded missing mapped pages
    else 1 + missing page +
      framesNeeded (fun q => min (missing q) (ownTables page q)) mapped pages

/-- The frames that one table takes. -/
def missing {α : Type} (t : Option α) : Nat :=
  match t with
  | some _ => 0
  | none => 1

theorem nextTableCreate_frames {α : Type} (t : Table (Table α)) (i : Nat) (free : List Frame) :
    (free.length < missing (t i) → nextTableCreate t i free = none) ∧
    (missing (t i) ≤ free.length → ∃ next free', nextTableCreate t i free = some (next, free') ∧
      free'.length + missing (t i) = free.length) := by
  unfold nextTableCreate missing
  cases t i with
  | some next => exact ⟨fun h => absurd h (Nat.not_lt_zero _), fun _ => ⟨next, free, rfl, rfl⟩⟩
  | none =>
    cases free with
    | nil => exact ⟨fun _ => rfl, fun h => absurd h (by simp)⟩
    | cons f free => exact ⟨fun h => by simp at h, fun _ => ⟨_, free, rfl, by simp⟩⟩

/-- The p2 table of a page, if it is there. -/
def Mapper.p2Table (m : Mapper) (page : Nat) : Option Level2 := do
  let p3 ← m.p4 (p4Index page)
  p3 (p3Index page)

theorem tablesMissing_eq (m : Mapper) (page : Nat) : m.tablesMissing page =
    missing (m.p4 (p4Index page)) + missing (m.p2Table page) + missing (m.p1Table page) := by
  unfold Mapper.tablesMissing Mapper.p2Table Mapper.p1Table
  cases h4 : m.p4 (p4Index page) with
  | none => rfl
  | some p3 =>
    cases h3 : p3 (p3Index page) with
    | none => simp [h3, missing]
    | some p2 =>
      cases h2 : p2 (p2Index page) with
      | none => simp [h3, h2, missing]
      | some p1 => simp [h3, h2, missing]

theorem tablesMissing_withPath {p3 : Level3} {p2 : Level2} {p1 : Level1} {free : List Frame}
    (h3 : ∀ i, p3 i = (m.p4 (p4Index page)).bind (· i)) (h2 : ∀ i, p2 i = (p3 (p3Index page)).bind (· i))
    (q : Nat) : (m.withPath page p3 p2 p1 free).tablesMissing q =
      min (m.tablesMissing q) (ownTables page q) := by
  rw [tablesMissing_eq, tablesMissing_eq]
  simp only [Mapper.p2Table, Mapper.p1Table, Mapper.withPath, ownTables]
  by_cases e4 : p4Index page = p4Index q
  · by_cases e3 : p3Index page = p3Index q
    · by_cases e2 : p2Index page = p2Index q
      · simp [e4, e3, e2, missing]
      · rw [e4] at h3
        rw [e3, h3] at h2
        have hne : p2Index q ≠ p2Index page := fun h => e2 h.symm
        simp only [e4, e3, e2, Function.update_self, Function.update_of_ne hne, h2, ne_eq,
          not_true_eq_false, not_false_eq_true, if_true, if_false, Option.bind_some, Option.bind_eq_bind]
        cases m.p4 (p4Index q) with
        | none => simp [missing]
        | some t3 =>
          cases ht : t3 (p3Index q) with
          | none => simp [missing, ht]
          | some t2 =>
            cases ht2 : t2 (p2Index q) with
            | none => simp [missing, ht, ht2]
            | some t1 => simp [missing, ht, ht2]
    · rw [e4] at h3
      have hne : p3Index q ≠ p3Index page := fun h => e3 h.symm
      simp only [e4, e3, Function.update_self, Function.update_of_ne hne, h3, ne_eq,
        not_true_eq_false, not_false_eq_true, if_true, if_false, Option.bind_some, Option.bind_eq_bind]
      cases m.p4 (p4Index q) with
      | none => simp [missing]
      | some t3 =>
        cases ht : t3 (p3Index q) with
        | none => simp [missing, ht]
        | some t2 =>
          cases ht2 : t2 (p2Index q) with
          | none => simp [missing, ht, ht2]
          | some t1 => simp [missing, ht, ht2]
  · have hne : p4Index q ≠ p4Index page := fun h => e4 h.symm
    have hle : ∀ {α : Type} (t : Option α), missing t ≤ 1 := by
      intro α t
      cases t <;> simp [missing]
    have h1 := hle (m.p4 (p4Index q))
    have h2' := hle (m.p2Table q)
    have h3' := hle (m.p1Table q)
    simp only [e4, Function.update_of_ne hne, ne_eq, not_false_eq_true, if_true]
    exact (Nat.min_eq_left (Nat.add_le_add (Nat.add_le_add h1 h2') h3')).symm

/-- `map_to` takes a frame for each missing table, and no more. -/
theorem mapTo_frames (frame : Frame) (flags : EntryFlags) (h : m.entryAt page = none) :
    (m.free.length < m.tablesMissing page → m.mapTo page frame flags = none) ∧
    (m.tablesMissing page ≤ m.free.length → ∃ m', m.mapTo page frame flags = some m' ∧
      m'.free.length + m.tablesMissing page = m.free.length ∧
      ∀ q, m'.tablesMissing q = min (m.tablesMissing q) (ownTables page q)) := by
  rw [tablesMissing_eq]
  obtain ⟨hbad3, hok3⟩ := nextTableCreate_frames m.p4 (p4Index page) m.free
  by_cases hlen3 : m.free.length < missing (m.p4 (p4Index page))
  · exact ⟨fun _ => by simp [Mapper.mapTo, hbad3 hlen3], fun hle => by omega⟩
  obtain ⟨p3, free3, h3, hfree3⟩ := hok3 (by omega)
  have e3 := nextTableCreate_apply h3
  have hp2 : p3 (p3Index page) = m.p2Table page := e3 _
  obtain ⟨hbad2, hok2⟩ := nextTableCreate_frames p3 (p3Index page) free3
  rw [hp2] at hbad2 hok2
  by_cases hlen2 : free3.length < missing (m.p2Table page)
  · exact ⟨fun _ => by simp [Mapper.mapTo, h3, hbad2 hlen2], fun hle => by omega⟩
  obtain ⟨p2, free2, h2, hfree2⟩ := hok2 (by omega)
  have e2 := nextTableCreate_apply h2
  have hp1 : p2 (p2Index page) = m.p1Table page := by
    rw [e2, hp2]
    simp [Mapper.p1Table, Mapper.p2Table, Option.bind_assoc]
  obtain ⟨hbad1, hok1⟩ := nextTableCreate_frames p2 (p2Index page) free2
  rw [hp1] at hbad1 hok1
  by_cases hlen1 : free2.length < missing (m.p1Table page)
  · exact ⟨fun _ => by simp [Mapper.mapTo, h3, h2, hbad1 hlen1], fun hle => by omega⟩
  obtain ⟨p1, free1, h1, hfree1⟩ := hok1 (by omega)
  have hunused : p1 (p1Index page) = none := by
    rw [nextTableCreate_apply h1, hp1]
    exact h
  refine ⟨fun hlt => by omega, fun _ => ⟨_, by
    simp only [Mapper.mapTo, h3, h2, h1, hunused, Option.bind_eq_bind, Option.bind_some]
    rfl, ?_, fun q => tablesMissing_withPath e3 e2 q⟩⟩
  show free1.length + _ = _
  omega

theorem map_frames (flags : EntryFlags) (h : m.entryAt page = none) :
    (m.free.length < 1 + m.tablesMissing page → m.map page flags = none) ∧
    (1 + m.tablesMissing page ≤ m.free.length → ∃ m', m.map page flags = some m' ∧
      m'.free.length + (1 + m.tablesMissing page) = m.free.length ∧
      ∀ q, m'.tablesMissing q = min (m.tablesMissing q) (ownTables page q)) := by
  unfold Mapper.map
  cases hf : m.free with
  | nil => exact ⟨fun _ => rfl, fun hle => absurd hle (by simp)⟩
  | cons frame free =>
    obtain ⟨hbad, hok⟩ := mapTo_frames (m := { m with free }) frame flags h
    rw [List.length_cons]
    refine ⟨fun hlt => hbad ?_, fun hle => ?_⟩
    · change free.length < m.tablesMissing page
      omega
    · have hle' : m.tablesMissing page ≤ free.length := by omega
      obtain ⟨m', hm', hlen, hall⟩ := hok hle'
      refine ⟨m', hm', ?_, hall⟩
      change m'.free.length + m.tablesMissing page = free.length at hlen
      omega

/-- The pages can be mapped just where the frames suffice. -/
theorem growPages_isSome_iff (missing : Nat → Nat) (mapped : Nat → Bool) (flags : EntryFlags)
    (hnodup : (pages.map index).Nodup) (hmissing : ∀ q, missing q = m.tablesMissing q)
    (hmapped : ∀ q ∈ pages, mapped q = (m.entryAt q).isSome) :
    (∃ m', m.growPages flags pages = some m') ↔ framesNeeded missing mapped pages ≤ m.free.length := by
  induction pages generalizing m missing with
  | nil => simp [Mapper.growPages, framesNeeded]
  | cons page pages ih =>
    rw [List.map_cons, List.nodup_cons] at hnodup
    have hmapped' : ∀ q ∈ pages, mapped q = (m.entryAt q).isSome :=
      fun q hq => hmapped q (List.mem_cons_of_mem _ hq)
    unfold Mapper.growPages framesNeeded
    cases he : m.entryAt page with
    | some e =>
      have hin : mapped page = true := by simp [hmapped page List.mem_cons_self, he]
      have htrans : m.translatePage page = some e.frame := by simp [Mapper.translatePage, he]
      simp only [htrans, hin, if_true]
      exact ih missing hnodup.2 hmissing hmapped'
    | none =>
      have hin : mapped page = false := by simp [hmapped page List.mem_cons_self, he]
      have htrans : m.translatePage page = none := by simp [Mapper.translatePage, he]
      simp only [htrans, hin, Bool.false_eq_true, if_false, Option.bind_eq_bind]
      obtain ⟨hbad, hok⟩ := map_frames flags he
      rw [← hmissing] at hbad hok
      by_cases hlen : m.free.length < 1 + missing page
      · rw [hbad hlen]
        constructor
        · rintro ⟨m', hm'⟩
          cases hm'
        · intro hle
          omega
      · obtain ⟨m₁, hm₁, hfree, htables⟩ := hok (by omega)
        obtain ⟨frame, -, -, -, -, hall⟩ := map_some hm₁
        have hiff := ih (m := m₁) (fun q => min (missing q) (ownTables page q)) hnodup.2
          (fun q => by rw [htables, hmissing]) (fun q hq => by
            have hne : index page ≠ index q := fun heq => hnodup.1 (heq ▸ List.mem_map_of_mem hq)
            rw [hmapped' q hq, hall, if_neg hne])
        rw [hm₁, Option.bind_some, hiff]
        omega

/-- Growth maps its pages and leaves the others. -/
theorem growPages_some (h : m.growPages flags pages = some m') :
    (∀ q, m.entryAt q ≠ none → m'.entryAt q = m.entryAt q) ∧ (∀ q ∈ pages, m'.entryAt q ≠ none) ∧
      ∀ q, index q ∉ pages.map index → m'.entryAt q = m.entryAt q := by
  induction pages generalizing m with
  | nil =>
    cases h
    exact ⟨fun q _ => rfl, fun q hq => (nomatch hq), fun q _ => rfl⟩
  | cons page pages ih =>
    unfold Mapper.growPages at h
    cases he : m.entryAt page with
    | some e =>
      have htrans : m.translatePage page = some e.frame := by simp [Mapper.translatePage, he]
      rw [htrans] at h
      obtain ⟨hkept, hin, hout⟩ := ih h
      refine ⟨hkept, fun q hq => ?_, fun q hq => hout q fun hmem => hq (List.mem_cons_of_mem _ hmem)⟩
      rcases List.mem_cons.mp hq with rfl | hq
      · rw [hkept q (by simp [he]), he]
        simp
      · exact hin q hq
    | none =>
      have htrans : m.translatePage page = none := by simp [Mapper.translatePage, he]
      rw [htrans] at h
      obtain ⟨m₁, hm₁, h⟩ := Option.bind_eq_some_iff.mp h
      obtain ⟨frame, -, -, -, -, hall⟩ := map_some hm₁
      obtain ⟨hkept, hin, hout⟩ := ih h
      have hstay : ∀ q, index q ≠ index page → m₁.entryAt q = m.entryAt q := by
        intro q hne
        rw [hall, if_neg hne.symm]
      refine ⟨fun q hq => ?_, fun q hq => ?_, fun q hq => ?_⟩
      · have hne : index q ≠ index page := fun heq => hq ((entryAt_congr heq).trans he)
        rw [hkept q (hstay q hne ▸ hq), hstay q hne]
      · rcases List.mem_cons.mp hq with rfl | hq
        · have hself : m₁.entryAt q ≠ none := by simp [hall]
          rw [hkept q hself]
          exact hself
        · exact hin q hq
      · rw [List.map_cons, List.mem_cons, not_or] at hq
        rw [hout q hq.2, hstay q hq.1]

/-- Unmapping asks first, so it always comes to an end. -/
theorem shrinkPages_run (m : Mapper) (pages : List Nat) :
    ∃ m', m.shrinkPages pages = some m' ∧
      ∀ q, index q ∉ pages.map index → m'.entryAt q = m.entryAt q := by
  induction pages generalizing m with
  | nil => exact ⟨m, rfl, fun q _ => rfl⟩
  | cons page pages ih =>
    unfold Mapper.shrinkPages
    cases he : m.entryAt page with
    | none =>
      have htrans : m.translatePage page = none := by simp [Mapper.translatePage, he]
      obtain ⟨m', hm', hout⟩ := ih m
      rw [htrans]
      exact ⟨m', hm', fun q hq => hout q fun hmem => hq (List.mem_cons_of_mem _ hmem)⟩
    | some e =>
      have htrans : m.translatePage page = some e.frame := by simp [Mapper.translatePage, he]
      obtain ⟨m₁, hm₁, -, hall⟩ := unmapReturn_isSome he
      obtain ⟨m', hm', hout⟩ := ih m₁
      refine ⟨m', by simp [htrans, Mapper.unmap, hm₁, hm'], fun q hq => ?_⟩
      rw [List.map_cons, List.mem_cons, not_or] at hq
      rw [hout q hq.2, hall, if_neg (Ne.symm hq.1)]

/-- The pages of the slot of the heap have the fourth-level entry 1 to themselves. -/
theorem p4Index_heap (hlow : 2 ^ 27 ≤ page) (hhigh : page < 2 ^ 28) : p4Index page = 1 := by
  unfold p4Index
  omega

/-- What a call may leave: no mapping outside the slot of the heap is changed, and a byte that is
changed is one of a page in the slot. -/
structure Untouched (k k' : Machine) : Prop where
  mappings : ∀ page, p4Index page ≠ 1 → k'.mapper.entryAt page = k.mapper.entryAt page
  bytes : ∀ frame offset, k'.bytes frame offset ≠ k.bytes frame offset →
    ∃ a, USER_HEAP_OFFSET ≤ a ∧ a < USER_GRANT_OFFSET ∧ a % PAGE_SIZE = offset ∧
      k'.mapper.translatePage (a / PAGE_SIZE) = some frame

/-- The heap is in its slot. -/
def InSlot (heap : Memory) : Prop :=
  heap.start = USER_HEAP_OFFSET ∧ heap.start + heap.size ≤ USER_GRANT_OFFSET

/-- The call fails and changes nothing, or it leaves the heap in its slot and the rest alone. -/
def Separate (p : Process) (address : Nat) : Prop :=
  ∃ r p', p.brk address = some (r, p') ∧
    ((∃ e, r = .error e) ∧ p' = p ∨
      (∃ v, r = .ok v) ∧ (∃ heap, p'.heap = some heap ∧ InSlot heap) ∧ Untouched p.machine p'.machine)

/-- The pages that a heap of the new size adds. -/
def addedPages (heap : Memory) (newSize : Nat) : List Nat :=
  if heap.size < newSize then
    pagesFrom ((heap.start + heap.size) % 2 ^ 64 / PAGE_SIZE) (lastPage heap.start newSize)
  else []

/-- The frames that are left suffice for the pages that are added, and for their tables. -/
def Enough (m : Mapper) (heap : Memory) (newSize : Nat) : Prop :=
  framesNeeded m.tablesMissing (fun page => (m.entryAt page).isSome) (addedPages heap newSize) ≤
    m.free.length

theorem Untouched.refl (k : Machine) : Untouched k k :=
  ⟨fun _ _ => rfl, fun _ _ hne => absurd rfl hne⟩

theorem untouched_of_pages (hpages : ∀ page ∈ pages, 2 ^ 27 ≤ page ∧ page < 2 ^ 28)
    (hout : ∀ q, index q ∉ pages.map index → m'.entryAt q = m.entryAt q) (q : Nat)
    (hq : p4Index q ≠ 1) : m'.entryAt q = m.entryAt q := by
  refine hout q fun hmem => hq ?_
  obtain ⟨page, hpage, hidx⟩ := List.mem_map.mp hmem
  rw [← (index_eq_iff.mp hidx).1]
  exact p4Index_heap (hpages page hpage).1 (hpages page hpage).2

theorem mem_addedPages {newSize : Nat} (hs : InSlot heap) (hhigh : newSize ≤ PML4_SIZE) :
    page ∈ addedPages heap newSize ↔ heap.size < newSize ∧
      (USER_HEAP_OFFSET + heap.size) / 4096 ≤ page ∧ page ≤ (USER_HEAP_OFFSET + newSize - 1) / 4096 := by
  obtain ⟨hstart, hend⟩ := hs
  unfold addedPages
  split
  next hlt =>
    have hfirst : (heap.start + heap.size) % 2 ^ 64 = USER_HEAP_OFFSET + heap.size := by
      unfold USER_GRANT_OFFSET USER_HEAP_OFFSET USER_OFFSET PML4_SIZE at *
      omega
    have hlast : (heap.start + newSize + (2 ^ 64 - 1)) % 2 ^ 64 = USER_HEAP_OFFSET + newSize - 1 := by
      unfold USER_GRANT_OFFSET USER_HEAP_OFFSET USER_OFFSET PML4_SIZE at *
      omega
    rw [mem_pagesFrom, lastPage, hfirst, hlast]
    simp [hlt, PAGE_SIZE]
  next hge => simp [hge]

theorem addedPages_slot {newSize : Nat} (hs : InSlot heap) (hhigh : newSize ≤ PML4_SIZE) (page : Nat)
    (h : page ∈ addedPages heap newSize) : 2 ^ 27 ≤ page ∧ page < 2 ^ 28 := by
  obtain ⟨hlt, h1, h2⟩ := (mem_addedPages hs hhigh).mp h
  unfold USER_HEAP_OFFSET USER_OFFSET PML4_SIZE at *
  omega

theorem addedPages_nodup {newSize : Nat} (hs : InSlot heap) (hhigh : newSize ≤ PML4_SIZE) :
    ((addedPages heap newSize).map index).Nodup := by
  have hidx : ∀ page ∈ addedPages heap newSize, index page = page := by
    intro page hp
    have := addedPages_slot hs hhigh page hp
    exact index_of_lt (by omega)
  rw [List.map_congr_left hidx, List.map_id']
  unfold addedPages
  split
  · exact nodup_pagesFrom _ _
  · exact List.nodup_nil

/-- Growth in the slot: it returns just where the frames suffice. -/
theorem grow_in_slot {newSize : Nat} (hs : InSlot heap) (hhigh : newSize ≤ PML4_SIZE)
    (hlt : heap.size < newSize) :
    (¬ Enough k.mapper heap newSize → heap.resize newSize true true k = none) ∧
    (Enough k.mapper heap newSize →
      ∃ k', heap.resize newSize true true k = some ({ heap with size := newSize }, k') ∧
        Untouched k k') := by
  have hpages : addedPages heap newSize = pagesFrom ((heap.start + heap.size) % 2 ^ 64 / PAGE_SIZE)
      (lastPage heap.start newSize) := if_pos hlt
  have hiff := growPages_isSome_iff (m := k.mapper) k.mapper.tablesMissing
    (fun page => (k.mapper.entryAt page).isSome) heap.flags (addedPages_nodup hs hhigh)
    (fun _ => rfl) (fun _ _ => rfl)
  refine ⟨fun hno => ?_, fun henough => ?_⟩
  · have hnone : k.mapper.growPages heap.flags (addedPages heap newSize) = none := by
      rw [Option.eq_none_iff_forall_ne_some]
      intro m' hm'
      exact hno (hiff.mp ⟨m', hm'⟩)
    rw [Memory.resize, if_pos hlt, ← hpages, hnone]
    rfl
  · obtain ⟨m', hm'⟩ := hiff.mpr henough
    obtain ⟨-, hmapped, hout⟩ := growPages_some hm'
    have hin : ∀ a, heap.start + heap.size ≤ a → a < heap.start + heap.size + (newSize - heap.size) →
        a < USER_GRANT_OFFSET ∧ USER_HEAP_OFFSET ≤ a ∧ a / PAGE_SIZE ∈ addedPages heap newSize := by
      intro a hle ha
      have hstart := hs.1
      rw [mem_addedPages hs hhigh]
      unfold USER_GRANT_OFFSET PAGE_SIZE
      omega
    have hwrap : ∀ a, a < USER_GRANT_OFFSET → a % 2 ^ 64 = a := by
      intro a ha
      unfold USER_GRANT_OFFSET USER_HEAP_OFFSET USER_OFFSET PML4_SIZE at ha
      omega
    obtain ⟨bytes', hzero⟩ := zeroFill_isSome (m := m') (heap.start + heap.size)
      (newSize - heap.size) k.bytes (fun a hle ha => by
        obtain ⟨hhigh', -, hmem⟩ := hin a hle ha
        rw [hwrap a hhigh', Mapper.translatePage]
        simpa using hmapped _ hmem)
    refine ⟨⟨m', bytes'⟩, ?_, untouched_of_pages (addedPages_slot hs hhigh) hout, ?_⟩
    · rw [Memory.resize, if_pos hlt, ← hpages, hm']
      simp [hzero]
    · intro frame offset hne
      by_contra hno
      refine hne (zeroFill_other hzero fun a hle ha hoff hf => hno ?_)
      obtain ⟨hhigh', hlow', -⟩ := hin a hle ha
      rw [hwrap a hhigh'] at hf
      exact ⟨a, hlow', hhigh', hoff, hf⟩

/-- A heap that does not grow always returns, and stays in the slot. -/
theorem shrink_in_slot {newSize : Nat} (hs : InSlot heap) (hge : ¬ heap.size < newSize) :
    ∃ k', heap.resize newSize true true k = some ({ heap with size := newSize }, k') ∧
      Untouched k k' := by
  obtain ⟨hstart, hend⟩ := hs
  rw [Memory.resize, if_neg hge]
  by_cases hlt : newSize < heap.size
  · obtain ⟨m', hm', hout⟩ := shrinkPages_run k.mapper
      (pagesFrom ((heap.start + newSize) % 2 ^ 64 / PAGE_SIZE) (lastPage heap.start heap.size))
    rw [if_pos hlt, hm']
    refine ⟨{ k with mapper := m' }, rfl, untouched_of_pages (fun page hp => ?_) hout,
      fun _ _ hne => absurd rfl hne⟩
    rw [mem_pagesFrom, lastPage] at hp
    unfold PAGE_SIZE USER_GRANT_OFFSET USER_HEAP_OFFSET USER_OFFSET PML4_SIZE at *
    omega
  · rw [if_neg hlt]
    exact ⟨k, rfl, .refl k⟩

theorem brk_refused (hheap : p.heap = some heap) (hz : address ≠ 0) (hlow : address < USER_HEAP_OFFSET) :
    p.brk address = some (.error .ENOMEM, p) := by
  simp only [Process.brk, hheap]
  rw [if_neg hz, if_neg (by omega)]

theorem brk_resized (newSize : Nat) (hheap : p.heap = some heap) :
    p.brk (USER_HEAP_OFFSET + newSize) = (heap.resize newSize true true p.machine).bind
      fun r => some (.ok (USER_HEAP_OFFSET + newSize), ⟨some r.1, r.2⟩) := by
  have hz : USER_HEAP_OFFSET + newSize ≠ 0 := by
    unfold USER_HEAP_OFFSET PML4_SIZE
    omega
  simp only [Process.brk, hheap]
  rw [if_neg hz, if_pos (Nat.le_add_right _ _), Nat.add_sub_cancel_left]
  rfl

/-- A break in or after the slot keeps to the slot just where it lies in it, with the frames for it. -/
theorem separate_resized (newSize : Nat) (hheap : p.heap = some heap) (hs : InSlot heap) :
    Separate p (USER_HEAP_OFFSET + newSize) ↔
      newSize ≤ PML4_SIZE ∧ Enough p.machine.mapper heap newSize := by
  have hgood : ∀ k', newSize ≤ PML4_SIZE → Untouched p.machine k' →
      heap.resize newSize true true p.machine = some ({ heap with size := newSize }, k') →
      Separate p (USER_HEAP_OFFSET + newSize) := by
    intro k' hhigh hk' hres
    have hslot : InSlot { heap with size := newSize } := by
      refine ⟨hs.1, ?_⟩
      show heap.start + newSize ≤ USER_HEAP_OFFSET + PML4_SIZE
      rw [hs.1]
      omega
    have hcall := brk_resized newSize hheap
    rw [hres, Option.bind_some] at hcall
    exact ⟨_, _, hcall, .inr ⟨⟨_, rfl⟩, ⟨_, rfl, hslot⟩, hk'⟩⟩
  constructor
  · rintro ⟨r, p', hcall, hres⟩
    rw [brk_resized _ hheap] at hcall
    obtain ⟨⟨heap', k'⟩, hresize, heq⟩ := Option.bind_eq_some_iff.mp hcall
    cases heq
    rcases hres with ⟨⟨e, he⟩, -⟩ | ⟨-, ⟨heap₁, hheap₁, hslot⟩, -⟩
    · cases he
    cases hheap₁
    have hhigh : newSize ≤ PML4_SIZE := by
      have hend := hslot.2
      change heap'.start + heap'.size ≤ USER_HEAP_OFFSET + PML4_SIZE at hend
      rw [resize_fst hresize] at hend
      have hstart := hs.1
      dsimp only at hend
      omega
    refine ⟨hhigh, ?_⟩
    by_cases hlt : heap.size < newSize
    · by_contra hno
      rw [(grow_in_slot hs hhigh hlt).1 hno] at hresize
      cases hresize
    · simp [Enough, addedPages, hlt, framesNeeded]
  · rintro ⟨hhigh, henough⟩
    by_cases hlt : heap.size < newSize
    · obtain ⟨k', hres, hk'⟩ := (grow_in_slot hs hhigh hlt).2 henough
      exact hgood k' hhigh hk' hres
    · obtain ⟨k', hres, hk'⟩ := shrink_in_slot hs hlt
      exact hgood k' hhigh hk' hres

/-- A break keeps to the slot of the heap just where it is before the slot, and refused, or in it,
with the frames for what it adds. -/
theorem brk_keeps_to_its_slot_iff (hheap : p.heap = some heap) (hs : InSlot heap) :
    Separate p address ↔ address < USER_HEAP_OFFSET ∨ address ≤ USER_GRANT_OFFSET ∧
      Enough p.machine.mapper heap (address - USER_HEAP_OFFSET) := by
  by_cases hlow : address < USER_HEAP_OFFSET
  · refine iff_of_true ?_ (.inl hlow)
    by_cases hz : address = 0
    · have hbrk : p.brk address = some (.ok ((heap.start + heap.size) % 2 ^ 64), p) := by
        simp only [Process.brk, hheap]
        rw [if_pos hz]
      exact ⟨_, p, hbrk, .inr ⟨⟨_, rfl⟩, ⟨heap, hheap, hs⟩, .refl _⟩⟩
    · exact ⟨_, p, brk_refused hheap hz hlow, .inl ⟨⟨_, rfl⟩, rfl⟩⟩
  · obtain ⟨newSize, rfl⟩ : ∃ n, address = USER_HEAP_OFFSET + n :=
      ⟨address - USER_HEAP_OFFSET, by omega⟩
    rw [or_iff_right hlow, Nat.add_sub_cancel_left, separate_resized _ hheap hs]
    have hle : USER_HEAP_OFFSET + newSize ≤ USER_GRANT_OFFSET ↔ newSize ≤ PML4_SIZE := by
      unfold USER_GRANT_OFFSET
      omega
    rw [hle]

/-- A first page for an empty heap. -/
theorem brk_keeps_to_its_slot_first_page :
    Separate ⟨some ⟨USER_HEAP_OFFSET, 0, heapFlags⟩, blank⟩ (USER_HEAP_OFFSET + 4096) := by
  refine (brk_keeps_to_its_slot_iff rfl ⟨rfl, by decide⟩).mpr (.inr ⟨by decide, ?_⟩)
  rw [Nat.add_sub_cancel_left]
  have hpages : addedPages ⟨USER_HEAP_OFFSET, 0, heapFlags⟩ 4096 = [2 ^ 27] :=
    (if_pos (by decide)).trans (heap_first_page (by decide) (by decide))
  show framesNeeded _ _ (addedPages _ _) ≤ 8
  rw [hpages]
  decide

/-- A heap that fills its slot, with every page of it mapped. -/
def fullHeap : Process where
  heap := some ⟨USER_HEAP_OFFSET, PML4_SIZE, heapFlags⟩
  machine :=
    { mapper :=
        { p4 := fun i4 => if i4 = 1 then some fun i3 => some fun i2 => some fun i1 =>
            some ⟨2 ^ 20 + i3 * 2 ^ 18 + i2 * 2 ^ 9 + i1, heapFlags ||| PRESENT⟩ else none
          free := [1, 2, 3, 4, 5, 6, 7, 8] }
      bytes := fun _ _ => 7 }

/-- One byte more, and the first page of the grants is the heap's. -/
theorem brk_leaves_its_slot : ∃ p, fullHeap.brk (USER_GRANT_OFFSET + 1) =
      some (.ok (USER_GRANT_OFFSET + 1), p) ∧
    fullHeap.machine.mapper.entryAt (2 ^ 28) = none ∧ p.machine.mapper.entryAt (2 ^ 28) ≠ none ∧
    ¬ Separate fullHeap (USER_GRANT_OFFSET + 1) := by
  have hnone : fullHeap.machine.mapper.entryAt (2 ^ 28) = none := rfl
  obtain ⟨m', hm', -⟩ := map_isSome (n := 0) heapFlags hnone (by decide)
  obtain ⟨frame, -, -, -, -, hall⟩ := map_some hm'
  have hself : m'.entryAt (2 ^ 28) = some ⟨frame, heapFlags ||| PRESENT⟩ := by rw [hall, if_pos rfl]
  have hpages : pagesFrom ((USER_HEAP_OFFSET + PML4_SIZE) % 2 ^ 64 / PAGE_SIZE)
      (lastPage USER_HEAP_OFFSET (PML4_SIZE + 1)) = [2 ^ 28] := by decide
  have hgrow : fullHeap.machine.mapper.growPages heapFlags [2 ^ 28] = some m' :=
    growPages_one hnone hm'
  obtain ⟨bytes, hzero⟩ := zeroFill_isSome (m := m') (USER_HEAP_OFFSET + PML4_SIZE) 1
    fullHeap.machine.bytes (fun a hle hlt => by
      have ha : a % 2 ^ 64 / PAGE_SIZE = 2 ^ 28 := by
        unfold USER_HEAP_OFFSET USER_OFFSET PML4_SIZE PAGE_SIZE at *
        omega
      rw [ha, Mapper.translatePage, hself]
      simp)
  have hresize : Memory.resize ⟨USER_HEAP_OFFSET, PML4_SIZE, heapFlags⟩ (PML4_SIZE + 1) true true
      fullHeap.machine = some (⟨USER_HEAP_OFFSET, PML4_SIZE + 1, heapFlags⟩, ⟨m', bytes⟩) := by
    rw [Memory.resize, if_pos (Nat.lt_succ_self _), hpages, hgrow]
    simp [hzero]
  have hbrk := brk_resized (PML4_SIZE + 1) (show fullHeap.heap = some _ from rfl)
  rw [hresize, Option.bind_some] at hbrk
  refine ⟨⟨some ⟨USER_HEAP_OFFSET, PML4_SIZE + 1, heapFlags⟩, ⟨m', bytes⟩⟩, hbrk, hnone, ?_, fun hsep => ?_⟩
  · show m'.entryAt (2 ^ 28) ≠ none
    rw [hself]
    exact Option.some_ne_none _
  · have hbad := (separate_resized (PML4_SIZE + 1) (show fullHeap.heap = some _ from rfl)
      ⟨rfl, Nat.le_refl _⟩).mp hsep
    exact absurd hbad.1 (by omega)

end Origel.Kernel.Paging
