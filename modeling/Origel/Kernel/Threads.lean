import Origel.Kernel.Grants

/-! Contexts that share their list of grants, as `clone` with `CLONE_VM` leaves them: the list is one,
but the tables through which each of them sees the grants may differ. -/
namespace Origel.Kernel.Grants

open Origel.Lib Paging

/-- Contexts with one list of grants. The table that a context has in its slot for grants may be that
of others too, what else it maps grants with is its own. -/
structure Threads where
  grants : List Grant
  free : List Frame
  euid : Nat → Nat
  slotOf : Nat → Option Nat
  slots : Nat → Option Level3
  rest : Nat → Level4

/-- The entry of a fourth-level table that the addresses from `USER_GRANT_OFFSET` on have -/
def GRANT_SLOT : Nat := p4Index (USER_GRANT_OFFSET / PAGE_SIZE)

inductive Event where
  | call (pid : Nat) (call : Call)
  | clone (pid child : Nat) (rest : Level4)

namespace Threads

def table (w : Threads) (pid slot : Nat) : Mapper :=
  ⟨fun i => if i = GRANT_SLOT then w.slots slot else w.rest pid i, w.free⟩

def context (w : Threads) (pid slot : Nat) : Context := ⟨w.euid pid, w.grants, w.table pid slot⟩

/-- What a call in a context leaves. -/
def put (w : Threads) (pid slot : Nat) (c : Context) : Threads :=
  { w with
    grants := c.grants
    free := c.table.free
    slots := Function.update w.slots slot (c.table.p4 GRANT_SLOT)
    rest := Function.update w.rest pid c.table.p4 }

/-- A context more. -/
def born (w : Threads) (pid child slot : Nat) (slots : Nat → Option Level3) (rest : Level4) : Threads :=
  { w with
    euid := Function.update w.euid child (w.euid pid)
    slotOf := Function.update w.slotOf child (some slot)
    slots
    rest := Function.update w.rest child rest }

/-- `clone` with `CLONE_VM`: the child has the list, and where there are grants the table that its
parent has for them. -/
def clone (w : Threads) (pid child : Nat) (rest : Level4) : Option Threads := do
  let slot ← w.slotOf pid
  if w.grants.isEmpty then some (w.born pid child child (Function.update w.slots child none) rest)
  else
    let _ ← w.slots slot
    some (w.born pid child slot w.slots rest)

def call (w : Threads) (pid : Nat) (call : Call) : Option (Except Errno Nat × Threads) := do
  let slot ← w.slotOf pid
  let (r, c) ← (w.context pid slot).call call
  some (r, w.put pid slot c)

/-- New grants still fit, and a context has an id of its own. -/
def Fits (w : Threads) : Event → Prop
  | .call _ call => Grants.Fits w.grants call
  | .clone _ child _ => w.slotOf child = none

/-- A call returns, or a context is cloned. -/
def Step (w : Threads) (e : Event) (w' : Threads) : Prop :=
  w.Fits e ∧
  match e with
  | .call pid call => ∃ r, w.call pid call = some (r, w')
  | .clone pid child rest => w.clone pid child rest = some w'

/-- Two contexts have one entry for a page. -/
def Same (w : Threads) (u v page : Nat) : Prop :=
  u = v ∨ p4Index page = GRANT_SLOT ∧ w.slotOf u = w.slotOf v

/-- Nothing is granted yet: the list is empty, and no two contexts have one table for grants. -/
structure Fresh (w : Threads) : Prop where
  grants : w.grants = []
  own : ∀ u t, w.slotOf u = some t → t = u
  clear : ∀ u page, p4Index page = GRANT_SLOT → (w.table u u).entryAt page = none

/-- The pages of a grant are for a context what they are for another. -/
def Shares (w : Threads) (u v : Nat) (g : Grant) : Prop := ∀ page ∈ g.pages, w.Same u v page

/-- A call in a context takes away this grant, and no other. -/
def Unmaps (w : Threads) (u : Nat) (undo : Call) (g : Grant) : Prop :=
  ∃ pre post w', w.grants = pre ++ g :: post ∧ w.call u undo = some (.ok 0, w') ∧
    w'.grants = pre ++ post

variable {w w' w₀ w₁ : Threads} {pid child slot u v t x page a : Nat} {call : Call} {e : Event}
  {events : List Event} {g g' : Grant} {pre post : List Grant} {r : Except Errno Nat}
  {owner owner' : Nat → Nat} {c : Context} {rest : Level4} {slots : Nat → Option Level3}

theorem Same.symm (h : w.Same u v page) : w.Same v u page :=
  h.imp Eq.symm fun h => ⟨h.1, h.2.symm⟩

theorem Same.trans (h : w.Same u v page) (h' : w.Same v x page) : w.Same u x page := by
  rcases h with rfl | ⟨hslot, h⟩
  · exact h'
  · rcases h' with rfl | ⟨-, h'⟩
    · exact .inr ⟨hslot, h⟩
    · exact .inr ⟨hslot, h.trans h'⟩

theorem entryAt_p4 {m m' : Mapper} (h : m.p4 (p4Index page) = m'.p4 (p4Index page)) :
    m.entryAt page = m'.entryAt page := by
  rw [Mapper.entryAt, Mapper.entryAt, Mapper.p1Table, Mapper.p1Table, h]

theorem entryAt_same (hu : w.slotOf u = some t) (hv : w.slotOf v = some slot) (h : w.Same u v page) :
    (w.table u t).entryAt page = (w.table v slot).entryAt page := by
  refine entryAt_p4 ?_
  rcases h with rfl | ⟨hslot, heq⟩
  · rw [hu] at hv
    cases hv
    rfl
  · rw [hu, hv] at heq
    cases heq
    simp [table, hslot]

open Classical in
/-- Where the entry is the same, a context sees what a call in another left, and else nothing of it. -/
theorem entryAt_put (hu : w.slotOf u = some t) (hpid : w.slotOf pid = some slot) :
    ((w.put pid slot c).table u t).entryAt page =
      if w.Same u pid page then c.table.entryAt page else (w.table u t).entryAt page := by
  by_cases hslot : p4Index page = GRANT_SLOT
  · have hiff : w.Same u pid page ↔ t = slot := by
      unfold Same
      rw [hu, hpid]
      refine ⟨?_, fun h => .inr ⟨hslot, congrArg some h⟩⟩
      rintro (rfl | ⟨-, h⟩)
      · exact Option.some.inj (hu.symm.trans hpid)
      · exact Option.some.inj h
    simp only [hiff]
    split
    next h =>
      refine entryAt_p4 ?_
      simp [table, put, hslot, h]
    next h =>
      refine entryAt_p4 ?_
      simp [table, put, hslot, Function.update_of_ne h]
  · have hiff : w.Same u pid page ↔ u = pid := by simp [Same, hslot]
    simp only [hiff]
    split
    next h =>
      refine entryAt_p4 ?_
      simp [table, put, hslot, h]
    next h =>
      refine entryAt_p4 ?_
      simp [table, put, hslot, Function.update_of_ne h]

/-- A page of a grant is mapped where the context has the entry of the one that made the grant. -/
def Mapped (w : Threads) (gs : List Grant) (owner : Nat → Nat) (u page : Nat) : Prop :=
  ∃ g ∈ gs, page ∈ g.pages ∧ w.Same u (owner g.start) page

/-- The invariant of the contexts, with who made each grant. -/
structure Inv (w : Threads) (owner : Nat → Nat) : Prop where
  arranged : Arranged w.grants
  owned : ∀ g ∈ w.grants, w.slotOf (owner g.start) ≠ none
  named : ∀ u t, w.slotOf u = some t → w.slotOf t = some t
  mapped : ∀ u t page, w.slotOf u = some t → page < 2 ^ 36 → w.Mapped w.grants owner u page →
    (w.table u t).entryAt page ≠ none
  clear : ∀ u t page, w.slotOf u = some t → page < 2 ^ 36 → p4Index page = GRANT_SLOT →
    (w.table u t).entryAt page ≠ none → w.Mapped w.grants owner u page

/-- What a call keeps, from what it does to the entries that its context sees. -/
theorem Inv.put (h : w.Inv owner) (hpid : w.slotOf pid = some slot) (harranged : Arranged c.grants)
    (howned : ∀ g ∈ c.grants, w.slotOf (owner' g.start) ≠ none)
    (hsame : ∀ u t page, w.slotOf u = some t → page < 2 ^ 36 → w.Same u pid page →
      (w.Mapped c.grants owner' u page → c.table.entryAt page ≠ none) ∧
      (p4Index page = GRANT_SLOT → c.table.entryAt page ≠ none → w.Mapped c.grants owner' u page))
    (hother : ∀ u t page, w.slotOf u = some t → page < 2 ^ 36 → ¬ w.Same u pid page →
      (w.Mapped c.grants owner' u page → w.Mapped w.grants owner u page) ∧
      (p4Index page = GRANT_SLOT → w.Mapped w.grants owner u page → w.Mapped c.grants owner' u page)) :
    (w.put pid slot c).Inv owner' := by
  classical
  have hput : ∀ {u t page}, w.slotOf u = some t → ((w.put pid slot c).table u t).entryAt page =
      if w.Same u pid page then c.table.entryAt page else (w.table u t).entryAt page :=
    fun hu => entryAt_put hu hpid
  refine ⟨harranged, howned, h.named, fun u t page hu hpage hmapped => ?_,
    fun u t page hu hpage hslot hentry => ?_⟩
  · rw [hput hu]
    split
    next hs => exact (hsame u t page hu hpage hs).1 hmapped
    next hs => exact h.mapped u t page hu hpage ((hother u t page hu hpage hs).1 hmapped)
  · rw [hput hu] at hentry
    split at hentry
    next hs => exact (hsame u t page hu hpage hs).2 hslot hentry
    next hs =>
      exact (hother u t page hu hpage hs).2 hslot (h.clear u t page hu hpage hslot hentry)

/-- A call that changes nothing keeps the invariant. -/
theorem Inv.put_context (h : w.Inv owner) (hpid : w.slotOf pid = some slot) :
    (w.put pid slot (w.context pid slot)).Inv owner := by
  refine h.put hpid h.arranged h.owned (fun u t page hu hpage hs => ?_) fun u t page _ _ _ =>
    ⟨id, fun _ => id⟩
  have heq : (w.context pid slot).table.entryAt page = (w.table u t).entryAt page :=
    (entryAt_same hu hpid hs).symm
  rw [heq]
  exact ⟨h.mapped u t page hu hpage, h.clear u t page hu hpage⟩

theorem mapped_insert (hnot : ∀ g' ∈ pre ++ post, g'.start ≠ g.start) :
    w.Mapped (pre ++ g :: post) (Function.update owner g.start pid) u page ↔
      page ∈ g.pages ∧ w.Same u pid page ∨ w.Mapped (pre ++ post) owner u page := by
  unfold Mapped
  simp only [List.perm_middle.mem_iff (a := _), List.mem_cons, exists_eq_or_imp, Function.update_self]
  refine or_congr_right (exists_congr fun g' => and_congr_right fun hg' => ?_)
  rw [Function.update_of_ne (hnot g' hg')]

/-- A new grant is one of the context that the call is for. -/
theorem Inv.insert {flags : EntryFlags} {frames : List Frame} (h : w.Inv owner)
    (hpid : w.slotOf pid = some slot) (hgs : w.grants = pre ++ post) (hc : c.grants = pre ++ g :: post)
    (harranged : Arranged c.grants)
    (ht : (w.table pid slot).mapFrames flags g.pages frames = some c.table) :
    (w.put pid slot c).Inv (Function.update owner g.start pid) := by
  have hmapped : ∀ u page, w.Mapped c.grants (Function.update owner g.start pid) u page ↔
      page ∈ g.pages ∧ w.Same u pid page ∨ w.Mapped w.grants owner u page := by
    intro u page
    rw [hc, hgs]
    exact mapped_insert fun g' hg' => (hc ▸ harranged).start_ne hg'
  have hg : g ∈ c.grants := by simp [hc]
  refine h.put hpid harranged (fun g' hg' => ?_) (fun u t page hu hpage hs => ?_)
    fun u t page _ _ hs => ?_
  · by_cases heq : g'.start = g.start
    · rw [heq, Function.update_self, hpid]
      exact Option.some_ne_none _
    · rw [Function.update_of_ne heq]
      rw [hc, List.perm_middle.mem_iff, List.mem_cons] at hg'
      exact h.owned g' (hgs ▸ hg'.resolve_left fun h => heq (congrArg Grant.start h))
  · rw [hmapped]
    by_cases hp : page ∈ g.pages
    · exact ⟨fun _ => (mapFrames_some ht).1 page hp, fun _ _ => .inl ⟨hp, hs⟩⟩
    · rw [mapFrames_other ht (by rwa [harranged.index_mem_iff hg hpage]), ← entryAt_same hu hpid hs]
      exact ⟨fun hm => h.mapped u t page hu hpage (hm.resolve_left fun h => hp h.1),
        fun hslot hentry => .inr (h.clear u t page hu hpage hslot hentry)⟩
  · rw [hmapped]
    exact ⟨fun hm => hm.resolve_left fun h => hs h.2, fun _ => .inr⟩

/-- A page of a grant that is mapped in the slot of a context is mapped for the one that made it. -/
theorem Inv.same (h : w.Inv owner) (hpid : w.slotOf pid = some slot) (hg : g ∈ w.grants)
    (hp : page ∈ g.pages) (hslot : p4Index page = GRANT_SLOT)
    (hentry : (w.table pid slot).entryAt page ≠ none) : w.Same pid (owner g.start) page := by
  obtain ⟨g', hg', hp', hsame⟩ := h.clear pid slot page hpid (h.arranged.page_lt hg hp) hslot hentry
  rw [h.arranged.eq_of_page hg hg' hp hp']
  exact hsame

/-- A grant is taken away where its pages are mapped. -/
theorem Inv.remove (h : w.Inv owner) (hpid : w.slotOf pid = some slot)
    (hgs : w.grants = pre ++ g :: post) (hc : c.grants = pre ++ post)
    (ht : (w.table pid slot).unmapPages g.pages = some c.table) : (w.put pid slot c).Inv owner := by
  have hmem : ∀ g', g' ∈ w.grants ↔ g' = g ∨ g' ∈ c.grants := by
    intro g'
    rw [hgs, hc, List.perm_middle.mem_iff, List.mem_cons]
  have hg : g ∈ w.grants := (hmem g).mpr (.inl rfl)
  have harranged : Arranged (pre ++ g :: post) := hgs ▸ h.arranged
  have hall : ∀ page < 2 ^ 36, c.table.entryAt page =
      if page ∈ g.pages then none else (w.table pid slot).entryAt page := by
    intro page hpage
    obtain ⟨table, ht', -, hall⟩ := unmapPages_run (mapped_of_unmapPages ht) (h.arranged.nodup_pages hg)
    rw [ht] at ht'
    cases ht'
    rw [hall]
    simp only [h.arranged.index_mem_iff hg hpage]
  have hnot : ∀ {u page}, w.Mapped c.grants owner u page → page ∉ g.pages := by
    rintro u page ⟨g', hg', hp', -⟩ hp
    have := h.arranged.eq_of_page ((hmem g').mpr (.inr hg')) hg hp' hp
    exact harranged.not_mem (by rwa [← hc, ← this])
  have hold : ∀ {u page}, w.Mapped c.grants owner u page → w.Mapped w.grants owner u page := by
    rintro u page ⟨g', hg', hp', hs⟩
    exact ⟨g', (hmem g').mpr (.inr hg'), hp', hs⟩
  refine h.put hpid (hc ▸ harranged.remove) (fun g' hg' => h.owned g' ((hmem g').mpr (.inr hg')))
    (fun u t page hu hpage hs => ?_) fun u t page hu hpage hs => ⟨hold, fun hslot hm => ?_⟩
  · rw [hall page hpage]
    constructor
    · intro hm
      rw [if_neg (hnot hm), ← entryAt_same hu hpid hs]
      exact h.mapped u t page hu hpage (hold hm)
    · intro hslot hentry
      split at hentry
      next => exact absurd rfl hentry
      next hp =>
        rw [← entryAt_same hu hpid hs] at hentry
        obtain ⟨g', hg', hp', hs'⟩ := h.clear u t page hu hpage hslot hentry
        refine ⟨g', ((hmem g').mp hg').resolve_left ?_, hp', hs'⟩
        rintro rfl
        exact hp hp'
  · obtain ⟨g', hg', hp', hs'⟩ := hm
    refine ⟨g', ((hmem g').mp hg').resolve_left ?_, hp', hs'⟩
    -- the grant was mapped in the slot of the call's context, which the other context would share
    rintro rfl
    exact hs (hs'.trans (h.same hpid hg hp' hslot (mapped_of_unmapPages ht page hp')).symm)

theorem clone_cases (h : w.clone pid child rest = some w') :
    ∃ slot slots, w' = w.born pid child slot slots rest ∧
      (w.grants = [] ∧ slot = child ∧ slots = Function.update w.slots child none ∨
        w.slotOf pid = some slot ∧ slots = w.slots) := by
  obtain ⟨slot, hpid, h⟩ := Option.bind_eq_some_iff.mp h
  split at h
  next hempty =>
    cases h
    exact ⟨_, _, rfl, .inl ⟨List.isEmpty_iff.mp hempty, rfl, rfl⟩⟩
  next =>
    obtain ⟨_, -, h⟩ := Option.bind_eq_some_iff.mp h
    cases h
    exact ⟨_, _, rfl, .inr ⟨hpid, rfl⟩⟩

theorem same_born (hu : u ≠ child) (hv : v ≠ child) :
    (w.born pid child slot slots rest).Same u v page ↔ w.Same u v page := by
  simp [Same, born, Function.update_of_ne hu, Function.update_of_ne hv]

/-- A new context has those grants mapped that it shares with its parent. -/
theorem Inv.clone (h : w.Inv owner) (hnew : w.slotOf child = none) (hc : w.clone pid child rest = some w') :
    w'.Inv owner := by
  obtain ⟨slot, slots, rfl, hslot⟩ := clone_cases hc
  have hne : ∀ {u t}, w.slotOf u = some t → u ≠ child := by
    rintro u t hu rfl
    rw [hnew] at hu
    cases hu
  have howner : ∀ g ∈ w.grants, owner g.start ≠ child := by
    intro g hg heq
    exact h.owned g hg (heq ▸ hnew)
  have hslots : ∀ {t}, w.slotOf t = some t → slots t = w.slots t := by
    intro t ht
    rcases hslot with ⟨-, -, rfl⟩ | ⟨-, rfl⟩
    · exact Function.update_of_ne (hne ht) _ _
    · rfl
  have hnamed : ∀ {u t}, (w.born pid child slot slots rest).slotOf u = some t →
      u = child ∧ t = slot ∨ u ≠ child ∧ w.slotOf u = some t := by
    intro u t hu
    by_cases heq : u = child
    · exact .inl ⟨heq, by simpa [born, heq, eq_comm] using hu⟩
    · exact .inr ⟨heq, by simpa [born, Function.update_of_ne heq] using hu⟩
  -- the child's slot is that of its parent, or there are no grants
  have hchild : ∀ page, page < 2 ^ 36 → p4Index page = GRANT_SLOT →
      (((w.born pid child slot slots rest).table child slot).entryAt page ≠ none ↔
        (w.born pid child slot slots rest).Mapped w.grants owner child page) := by
    intro page hpage hgrants
    rcases hslot with ⟨hgs, rfl, rfl⟩ | ⟨hpid, rfl⟩
    · simp [Mapped, born, hgs, Mapper.entryAt, Mapper.p1Table, table, hgrants]
    · have heq : ((w.born pid child slot w.slots rest).table child slot).entryAt page =
          (w.table pid slot).entryAt page := entryAt_p4 (by simp [table, born, hgrants])
      rw [heq, show _ ↔ _ from ⟨h.clear pid slot page hpid hpage hgrants, h.mapped pid slot page hpid hpage⟩]
      refine exists_congr fun g => and_congr_right fun hg => and_congr_right fun _ => ?_
      have hv := howner g hg
      have hpid' : pid = owner g.start → some slot = w.slotOf (owner g.start) := by
        rintro rfl
        exact hpid.symm
      simpa [Same, born, hgrants, Function.update_of_ne hv, hpid, Ne.symm hv] using hpid'
  have hother : ∀ {u t page}, u ≠ child → w.slotOf u = some t →
      ((w.born pid child slot slots rest).table u t).entryAt page = (w.table u t).entryAt page ∧
      ((w.born pid child slot slots rest).Mapped w.grants owner u page ↔
        w.Mapped w.grants owner u page) := by
    intro u t page heq hu
    refine ⟨entryAt_p4 (by simp [table, born, hslots (h.named u t hu), Function.update_of_ne heq]), ?_⟩
    exact exists_congr fun g => and_congr_right fun hg => and_congr_right fun _ =>
      same_born heq (howner g hg)
  refine ⟨h.arranged, fun g hg => ?_, fun u t hu => ?_, fun u t page hu hpage hm => ?_,
    fun u t page hu hpage hgrants hentry => ?_⟩
  · simpa [born, Function.update_of_ne (howner g hg)] using h.owned g hg
  · rcases hnamed hu with ⟨rfl, rfl⟩ | ⟨hu', hu⟩
    · rcases hslot with ⟨-, rfl, -⟩ | ⟨hpid, -⟩
      · exact Function.update_self ..
      · have ht := h.named pid t hpid
        exact (Function.update_of_ne (hne ht) ..).trans ht
    · have ht := h.named u t hu
      exact (Function.update_of_ne (hne ht) ..).trans ht
  · rcases hnamed hu with ⟨rfl, rfl⟩ | ⟨hu', hu⟩
    · refine (hchild page hpage ?_).mpr hm
      obtain ⟨g, hg, -, heq | ⟨hgrants, -⟩⟩ := hm
      · exact absurd heq.symm (howner g hg)
      · exact hgrants
    · rw [(hother hu' hu).1]
      exact h.mapped u t page hu hpage ((hother hu' hu).2.mp hm)
  · rcases hnamed hu with ⟨rfl, rfl⟩ | ⟨hu', hu⟩
    · exact (hchild page hpage hgrants).mp hentry
    · rw [(hother hu' hu).1] at hentry
      exact (hother hu' hu).2.mpr (h.clear u t page hu hpage hgrants hentry)

theorem call_some (h : w.call pid call = some (r, w')) :
    ∃ slot c, w.slotOf pid = some slot ∧ (w.context pid slot).call call = some (r, c) ∧
      w' = w.put pid slot c := by
  obtain ⟨slot, hpid, h⟩ := Option.bind_eq_some_iff.mp h
  obtain ⟨⟨r', c⟩, hc, h⟩ := Option.bind_eq_some_iff.mp h
  cases h
  exact ⟨slot, c, hpid, hc, rfl⟩

/-- A call or a clone keeps the invariant; a grant is there afterwards, made by whom it was made by,
unless the call names it. -/
theorem Inv.step (h : w.Inv owner) (hs : w.Step e w') :
    ∃ owner', w'.Inv owner' ∧ ∀ g ∈ w.grants, (∀ pid call, e = .call pid call → ¬ call.Names g) →
      g ∈ w'.grants ∧ owner' g.start = owner g.start := by
  obtain ⟨hfit, hs⟩ := hs
  cases e with
  | clone pid child rest =>
    obtain ⟨slot, slots, hw, -⟩ := clone_cases hs
    exact ⟨owner, h.clone hfit hs, fun g hg _ => ⟨hw ▸ hg, rfl⟩⟩
  | call pid call =>
    obtain ⟨r, hs⟩ := hs
    obtain ⟨slot, c, hpid, hc, rfl⟩ := call_some hs
    rcases call_cases hc with ⟨rfl, -⟩ | ⟨address, size, hcr, hz, -, hm⟩ | ⟨a, ha, htakes⟩
    · exact ⟨owner, h.put_context hpid, fun g hg _ => ⟨hg, rfl⟩⟩
    · have harranged := Arranged.makes (c := w.context pid slot) h.arranged (hfit.creates hcr) hz hm
      obtain ⟨g, pre, post, flags, frames, hgs, hgs', ht, -⟩ :=
        makes_grant (c := w.context pid slot) h.arranged (hfit.creates hcr) hz hm
      refine ⟨_, h.insert hpid hgs hgs' harranged ht, fun g' hg' _ => ?_⟩
      have hg : g' ∈ pre ++ post := hgs ▸ hg'
      refine ⟨?_, Function.update_of_ne ((hgs' ▸ harranged).start_ne hg) ..⟩
      show g' ∈ c.grants
      rw [hgs', List.perm_middle.mem_iff]
      exact List.mem_cons_of_mem _ hg
    · obtain ⟨g, pre, post, table, hgs, hin, ht, rfl⟩ := htakes
      refine ⟨owner, h.remove hpid hgs rfl ht, fun g' hg' hno => ⟨?_, rfl⟩⟩
      have hne : g' ≠ g := by
        rintro rfl
        exact hno pid call rfl ⟨a, ha, hin.1, hin.2.trans_le (Nat.mod_le _ _)⟩
      have hmem : g' ∈ pre ++ g :: post := hgs ▸ hg'
      rw [List.perm_middle.mem_iff] at hmem
      exact List.mem_of_ne_of_mem hne hmem

/-- Over a run the same holds. -/
theorem Inv.run (h : w.Inv owner) (hr : Run Step w events w') :
    ∃ owner', w'.Inv owner' ∧ ∀ g ∈ w.grants, (∀ pid call, .call pid call ∈ events → ¬ call.Names g) →
      g ∈ w'.grants ∧ owner' g.start = owner g.start := by
  induction hr generalizing owner with
  | nil => exact ⟨owner, h, fun g hg _ => ⟨hg, rfl⟩⟩
  | cons hs _ ih =>
    obtain ⟨owner₁, h₁, hkept₁⟩ := h.step hs
    obtain ⟨owner', h', hkept⟩ := ih h₁
    refine ⟨owner', h', fun g hg hno => ?_⟩
    obtain ⟨hg₁, ho₁⟩ := hkept₁ g hg fun pid call he => hno pid call (he ▸ List.mem_cons_self)
    obtain ⟨hg', ho⟩ := hkept g hg₁ fun pid call hin => hno pid call (List.mem_cons_of_mem _ hin)
    exact ⟨hg', ho.trans ho₁⟩

/-- No call changes the user of a context. -/
theorem Step.euid (hs : w.Step e w') (hu : w.slotOf u ≠ none) :
    w'.slotOf u ≠ none ∧ w'.euid u = w.euid u := by
  obtain ⟨hfit, hs⟩ := hs
  cases e with
  | call pid call =>
    obtain ⟨r, hs⟩ := hs
    obtain ⟨slot, c, -, -, rfl⟩ := call_some hs
    exact ⟨hu, rfl⟩
  | clone pid child rest =>
    obtain ⟨slot, slots, rfl, -⟩ := clone_cases hs
    have hne : u ≠ child := by
      rintro rfl
      exact hu hfit
    exact ⟨by simpa [born, Function.update_of_ne hne] using hu, Function.update_of_ne hne ..⟩

theorem run_euid (hr : Run Step w events w') (hu : w.slotOf u ≠ none) : w'.euid u = w.euid u :=
  (hr.invariant (I := fun w' => w'.slotOf u ≠ none ∧ w'.euid u = w.euid u)
    (fun _ _ _ hs h => ⟨(hs.euid h.1).1, (hs.euid h.1).2.trans h.2⟩) ⟨hu, rfl⟩).2

theorem Fresh.inv (h : w.Fresh) (owner : Nat → Nat) : w.Inv owner := by
  have hno : ∀ g, g ∉ w.grants := fun g hg => List.not_mem_nil (h.grants ▸ hg)
  refine ⟨.nil h.grants, fun g hg => absurd hg (hno g), fun u t hu => ?_, fun u t page _ _ hm => ?_,
    fun u t page hu _ hslot hentry => ?_⟩
  · obtain rfl := h.own u t hu
    exact hu
  · obtain ⟨g, hg, -⟩ := hm
    exact absurd hg (hno g)
  · obtain rfl := h.own u t hu
    exact absurd (h.clear _ page hslot) hentry

/-- A call with an address of a grant takes it away where its pages can be unmapped. -/
theorem Inv.undo {undo : Call} (h : w.Inv owner) (t : Nat) (hg : g ∈ w.grants)
    (ha : g.start ≤ a ∧ a < g.stop)
    (hundo : undo = .release a ∨ undo = .funmap a ∨ undo = .physunmap a ∧ w.euid u = 0) :
    ∃ pre post, w.grants = pre ++ g :: post ∧
      (w.context u t).call undo = ((w.table u t).unmapPages g.pages).map fun table =>
        (.ok 0, ⟨w.euid u, pre ++ post, table⟩) := by
  obtain ⟨pre, post, hgs, htake⟩ := takeGrant_of_mem h.arranged hg ha
  refine ⟨pre, post, hgs, ?_⟩
  have hz : a ≠ 0 := by
    have hbase := h.arranged.laid.le (List.mem_map_of_mem hg)
    have hstart : g.block.start = g.start := rfl
    rw [hstart] at hbase
    unfold USER_GRANT_OFFSET USER_HEAP_OFFSET PML4_SIZE at hbase
    omega
  have hfunmap : (w.context u t).funmap a = ((w.table u t).unmapPages g.pages).map fun table =>
      (.ok 0, ⟨w.euid u, pre ++ post, table⟩) := by
    simp [Context.funmap, context, hz, htake, Grant.unmap, h.arranged.mapped g hg]
  rcases hundo with rfl | rfl | ⟨rfl, hroot⟩
  · exact hfunmap
  · exact hfunmap
  · simpa [Context.call, Context.physunmap, context, hroot] using hfunmap

/-- A grant can be taken away in a context that has the tables of the one that made it. -/
theorem Inv.unmaps {undo : Call} (h : w.Inv owner) (hu : w.slotOf u = some t) (hg : g ∈ w.grants)
    (ha : g.start ≤ a ∧ a < g.stop)
    (hundo : undo = .release a ∨ undo = .funmap a ∨ undo = .physunmap a ∧ w.euid u = 0)
    (hshares : w.Shares u (owner g.start) g) : w.Unmaps u undo g := by
  obtain ⟨pre, post, hgs, hcall⟩ := h.undo t hg ha hundo
  obtain ⟨table, ht, -, -⟩ := unmapPages_run (fun page hp => h.mapped u t page hu
    (h.arranged.page_lt hg hp) ⟨g, hg, hp, hshares page hp⟩) (h.arranged.nodup_pages hg)
  refine ⟨pre, post, w.put u t ⟨w.euid u, pre ++ post, table⟩, hgs, ?_, rfl⟩
  simp [Threads.call, hu, hcall, ht]

/-- And in no other, if it lies in the slot for grants. -/
theorem Inv.shares {undo : Call} (h : w.Inv owner) (hu : w.slotOf u = some t) (hg : g ∈ w.grants)
    (ha : g.start ≤ a ∧ a < g.stop)
    (hundo : undo = .release a ∨ undo = .funmap a ∨ undo = .physunmap a ∧ w.euid u = 0)
    (hslot : ∀ page ∈ g.pages, p4Index page = GRANT_SLOT) (hunmaps : w.Unmaps u undo g) :
    w.Shares u (owner g.start) g := by
  obtain ⟨pre, post, -, hcall⟩ := h.undo t hg ha hundo
  obtain ⟨-, -, w', -, hw, -⟩ := hunmaps
  obtain ⟨slot, c, hu', hc, -⟩ := call_some hw
  obtain rfl : t = slot := Option.some.inj (hu.symm.trans hu')
  rw [hcall] at hc
  obtain ⟨table, ht, -⟩ := Option.map_eq_some_iff.mp hc
  exact fun page hp => h.same hu hg hp (hslot page hp) (mapped_of_unmapPages ht page hp)

/-- After any calls and clones the grants are in order and apart. A grant that a call makes is there as
long as no call names an address of it; then the address that was returned takes that grant away, and no
other, in every context that has the same tables for its pages. -/
theorem grants_stay_apart (h₀ : w₀.Fresh) (hr : Run Step w₀ events w₁) :
    Ordered w₁.grants ∧
    ∀ pid call a w₂, w₁.Fits (.call pid call) →
      (∃ address size, call.creates = some (address, size) ∧ size ≠ 0) →
      w₁.call pid call = some (.ok a, w₂) →
      ∃ g pre post, w₁.grants = pre ++ post ∧ w₂.grants = pre ++ g :: post ∧
        ∀ later w, Run Step w₂ later w → (∀ u call', .call u call' ∈ later → ¬ call'.Names g) →
          ∀ u undo, w.slotOf u ≠ none →
            (undo = .release a ∨ undo = .funmap a ∨
              undo = .physunmap a ∧ (w.euid u = 0 ∨ u = pid ∧ ∃ p s f, call = .physmap p s f)) →
            (w.Shares u pid g → w.Unmaps u undo g) ∧
            ((∀ page ∈ g.pages, p4Index page = GRANT_SLOT) → w.Unmaps u undo g → w.Shares u pid g) := by
  obtain ⟨owner, hinv, -⟩ := (h₀.inv fun _ => 0).run hr
  refine ⟨hinv.arranged.ordered, fun pid call a w₂ hfit ⟨address, size, hcr, hz⟩ hcall => ?_⟩
  obtain ⟨slot, c, hpid, hc, rfl⟩ := call_some hcall
  have hfit := hfit.creates hcr
  obtain ⟨hroot, hm⟩ : (∀ p s f, call = .physmap p s f → w₁.euid pid = 0) ∧
      Makes (w₁.context pid slot) address size (.ok a) c := by
    rcases call_cases hc with ⟨-, hnone⟩ | ⟨address', size', hcr', -, hroot, hm⟩ | ⟨a', ha', -⟩
    · rcases hnone address size hcr with hzero | herr
      · exact absurd hzero hz
      · cases herr
    · rw [hcr] at hcr'
      cases hcr'
      exact ⟨hroot, hm⟩
    · cases call <;> cases ha' <;> cases hcr
  have harranged := Arranged.makes (c := w₁.context pid slot) hinv.arranged hfit hz hm
  obtain ⟨g, pre, post, flags, frames, hgs₁, hgs₂, ht, a', ha', hin⟩ :=
    makes_grant (c := w₁.context pid slot) hinv.arranged hfit hz hm
  cases ha'
  have hinv₂ := hinv.insert hpid hgs₁ hgs₂ harranged ht
  refine ⟨g, pre, post, hgs₁, hgs₂, fun later w hlater hno u undo hu hundo => ?_⟩
  obtain ⟨owner', hinv', hkept⟩ := hinv₂.run hlater
  obtain ⟨hg, howner⟩ := hkept g (show g ∈ c.grants by simp [hgs₂]) hno
  rw [Function.update_self] at howner
  obtain ⟨t, hu⟩ := Option.ne_none_iff_exists'.mp hu
  have hundo' : undo = .release a ∨ undo = .funmap a ∨ undo = .physunmap a ∧ w.euid u = 0 := by
    refine hundo.imp_right (Or.imp_right (And.imp_right fun hroot' => ?_))
    rcases hroot' with hzero | ⟨rfl, p, s, f, hp⟩
    · exact hzero
    · have hsame : w.euid u = (w₁.put u slot c).euid u :=
        run_euid hlater (by rw [put, hpid]; exact Option.some_ne_none _)
      exact hsame.trans (hroot p s f hp)
  rw [← howner]
  exact ⟨hinv'.unmaps hu hg hin hundo', hinv'.shares hu hg hin hundo'⟩

/-- A driver alone, without grants, and eight frames for its tables. -/
def alone : Threads :=
  ⟨[], driver.table.free, fun _ => 0, fun u => if u = 1 then some 1 else none, fun _ => none,
    fun _ _ => none⟩

theorem alone_fresh : alone.Fresh := by
  refine ⟨rfl, fun u t hu => ?_, fun u page hslot => ?_⟩
  · by_cases h : u = 1 <;> simp_all [alone]
  · simp [Mapper.entryAt, Mapper.p1Table, table, alone, hslot]

/-- A range is mapped, a wrong address is released in vain, a thread is cloned, and it unmaps the range. -/
theorem grants_stay_apart_driver : ∃ w₁ w₂ w₃ g,
    alone.call 1 (.physmap 0x5004 10 1) = some (.ok (2 ^ 40 + 4), w₁) ∧ w₁.grants = [g] ∧
    w₁.call 1 (.release 7) = some (.error .EFAULT, w₂) ∧ w₂.clone 1 2 (fun _ => none) = some w₃ ∧
    w₃.Unmaps 2 (.physunmap (2 ^ 40 + 4)) g := by
  obtain ⟨w₁, w₂, w₃, g, h₁, hg, h₂, h₃, htables⟩ : ∃ w₁ w₂ w₃ g,
      alone.call 1 (.physmap 0x5004 10 1) = some (.ok (2 ^ 40 + 4), w₁) ∧ w₁.grants = [g] ∧
      w₁.call 1 (.release 7) = some (.error .EFAULT, w₂) ∧ w₂.clone 1 2 (fun _ => none) = some w₃ ∧
      g.pages = [2 ^ 28] ∧ ¬ (g.start ≤ 7) ∧ w₂.slotOf 2 = none ∧ w₃.slotOf 2 = some 1 ∧
      w₃.slotOf 1 = some 1 ∧ w₃.euid 2 = 0 := ⟨_, _, _, _, rfl, rfl, rfl, rfl, rfl, by decide, rfl, rfl, rfl, rfl⟩
  obtain ⟨hpages, hstart, hnew, hslot, hslot₁, hroot⟩ := htables
  have hfits : alone.Fits (.call 1 (.physmap 0x5004 10 1)) := by
    show totalSize [] + fullSize 0x5004 10 ≤ PML4_SIZE
    decide
  have hlater : Run Step w₁ [.call 1 (.release 7), .clone 1 2 fun _ => none] w₃ :=
    .cons ⟨trivial, _, h₂⟩ (.cons ⟨hnew, h₃⟩ .nil)
  obtain ⟨g', pre, post, hpre, hpost, hrun⟩ := (grants_stay_apart alone_fresh .nil).2 1 _ _ w₁ hfits
    ⟨0x5004, 10, rfl, by decide⟩ h₁
  obtain ⟨rfl, rfl⟩ : pre = [] ∧ post = [] := by simpa [alone] using hpre.symm
  obtain rfl : g = g' := by simpa [hg] using hpost
  refine ⟨w₁, w₂, w₃, g, h₁, hg, h₂, h₃, (hrun _ w₃ hlater ?_ 2 _ ?_ (.inr (.inr ⟨rfl, .inl hroot⟩))).1 ?_⟩
  · intro u call hin hnames
    obtain ⟨a, ha, hle, -⟩ := hnames
    have hcall : u = 1 ∧ call = .release 7 := by simpa using hin
    rw [hcall.2] at ha
    cases ha
    exact hstart hle
  · rw [hslot]
    exact Option.some_ne_none _
  · intro page hp
    rw [hpages, List.mem_singleton] at hp
    exact .inr ⟨hp ▸ rfl, hslot.trans hslot₁.symm⟩

/-- A thread that was cloned before there were grants has no table for them: an unmap there panics. -/
theorem unmap_in_other_thread_panics : ∃ w₁ w₂ g, alone.clone 1 2 (fun _ => none) = some w₁ ∧
    w₁.call 1 (.physmap 0x5004 10 1) = some (.ok (2 ^ 40 + 4), w₂) ∧ w₂.grants = [g] ∧
    w₂.slotOf 2 = some 2 ∧ w₂.call 2 (.funmap (2 ^ 40 + 4)) = none :=
  ⟨_, _, _, rfl, rfl, rfl, rfl, rfl⟩

end Threads

end Origel.Kernel.Grants
