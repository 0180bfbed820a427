import Mathlib.Algebra.Order.BigOperators.Group.List
import Origel.Lib.FirstFit
import Origel.Lib.Run
import Origel.Kernel.Paging

/-! Grants: memory of others, mapped into the slot of a context that is kept for it. -/
namespace Origel.Kernel.Grants

open Origel.Lib Paging

inductive Errno where
  | EPERM | EFAULT
  deriving DecidableEq, Repr

def MAP_WRITE : UInt64 := 1
def MAP_WRITE_COMBINE : UInt64 := 2

structure Grant where
  start : Nat
  size : Nat
  flags : EntryFlags
  mapped : Bool

/-- A context, as far as grants go: its user, its list of grants and its page table. -/
structure Context where
  euid : Nat
  grants : List Grant
  table : Mapper

/-- An errno or a value; none where the kernel panics. -/
abbrev Outcome := Option (Except Errno Nat × Context)

namespace Grant

def pages (g : Grant) : List Nat := pagesOf g.start g.size

/-- `Grant::physmap` -/
def physmap (table : Mapper) (source target size : Nat) (flags : EntryFlags) :
    Option (Grant × Mapper) := do
  let pages := pagesOf target size
  let frames := pages.map fun page => (page * PAGE_SIZE + (2 ^ 64 - target) + source) % 2 ^ 64 / PAGE_SIZE
  let table ← table.mapFrames flags pages frames
  some (⟨target, size, flags, true⟩, table)

/-- `Grant::map_inactive`: the frames are those of the caller's pages. -/
def mapInactive (caller : Nat → Option Frame) (table : Mapper) (source target size : Nat)
    (flags : EntryFlags) : Option (Grant × Mapper) := do
  let frames ← (pagesOf source size).mapM caller
  let table ← table.mapFrames flags (pagesOf target size) frames
  some (⟨target, size, flags, true⟩, table)

/-- `Grant::unmap` and `Grant::unmap_inactive`, which differ in the way to the table. -/
def unmap (g : Grant) (table : Mapper) : Option Mapper :=
  if g.mapped then table.unmapPages g.pages else none

end Grant

/-- The loop that `capture_inner` and `physmap` each have: the address of the new grant, and the
grants before and after it. -/
def place (fullSize : Nat) (toAddress : Nat) : List Grant → Nat × List Grant × List Grant
  | [] => (toAddress, [], [])
  | g :: gs =>
    if (toAddress + fullSize) % 2 ^ 64 < g.start then (toAddress, [], g :: gs)
    else
      let pages := (g.size + 4095) % 2 ^ 64 / 4096
      let r := place fullSize ((g.start + pages * 4096) % 2 ^ 64) gs
      (r.1, g :: r.2.1, r.2.2)

/-- The loop of `release`, `physunmap` and `funmap`: the first grant with the address, and the
others. -/
def takeGrant (address : Nat) : List Grant → Option (Grant × List Grant)
  | [] => none
  | g :: gs =>
    if g.start ≤ address ∧ address < (g.start + g.size) % 2 ^ 64 then some (g, gs)
    else (takeGrant address gs).map fun r => (r.1, g :: r.2)

namespace Context

/-- `UserInner::capture_inner` -/
def capture (c : Context) (caller : Nat → Option Frame) (address size : Nat) (writable : Bool) :
    Outcome :=
  if size = 0 then some (.ok 0, c)
  else do
    let fromAddress := address / 4096 * 4096
    let offset := address - fromAddress
    let fullSize := (offset + size + 4095) % 2 ^ 64 / 4096 * 4096
    let flags := PRESENT ||| NO_EXECUTE ||| USER_ACCESSIBLE
    let flags := if writable then flags ||| WRITABLE else flags
    let (toAddress, before, after) := place fullSize USER_GRANT_OFFSET c.grants
    let (grant, table) ← Grant.mapInactive caller c.table fromAddress toAddress fullSize flags
    some (.ok ((toAddress + offset) % 2 ^ 64), { c with grants := before ++ grant :: after, table })

def physmap (c : Context) (address size : Nat) (flags : UInt64) : Outcome :=
  if c.euid ≠ 0 then some (.error .EPERM, c)
  else if size = 0 then some (.ok 0, c)
  else do
    let fromAddress := address / 4096 * 4096
    let offset := address - fromAddress
    let fullSize := (offset + size + 4095) % 2 ^ 64 / 4096 * 4096
    let entryFlags := PRESENT ||| NO_EXECUTE ||| USER_ACCESSIBLE
    let entryFlags := if flags &&& MAP_WRITE = MAP_WRITE then entryFlags ||| WRITABLE else entryFlags
    let entryFlags := if flags &&& MAP_WRITE_COMBINE = MAP_WRITE_COMBINE then entryFlags ||| HUGE_PAGE
      else entryFlags
    let (toAddress, before, after) := place fullSize USER_GRANT_OFFSET c.grants
    let (grant, table) ← Grant.physmap c.table fromAddress toAddress fullSize entryFlags
    some (.ok ((toAddress + offset) % 2 ^ 64), { c with grants := before ++ grant :: after, table })

/-- `funmap` -/
def funmap (c : Context) (address : Nat) : Outcome :=
  if address = 0 then some (.ok 0, c)
  else
    match takeGrant address c.grants with
    | some (g, grants) => (g.unmap c.table).map fun table => (.ok 0, { c with grants, table })
    | none => some (.error .EFAULT, c)

/-- `UserInner::release` -/
def release (c : Context) (address : Nat) : Outcome := c.funmap address

def physunmap (c : Context) (address : Nat) : Outcome :=
  if c.euid ≠ 0 then some (.error .EPERM, c) else c.funmap address

end Context

inductive Call where
  | capture (caller : Nat → Option Frame) (address size : Nat) (writable : Bool)
  | release (address : Nat)
  | physmap (address size : Nat) (flags : UInt64)
  | physunmap (address : Nat)
  | funmap (address : Nat)

def Context.call (c : Context) : Call → Outcome
  | .capture caller address size writable => c.capture caller address size writable
  | .release address => c.release address
  | .physmap address size flags => c.physmap address size flags
  | .physunmap address => c.physunmap address
  | .funmap address => c.funmap address

/-- The bytes of the pages that a range of the caller meets. -/
def fullSize (address size : Nat) : Nat := (address % 4096 + size + 4095) / 4096 * 4096

def totalSize (gs : List Grant) : Nat := (gs.map Grant.size).sum

/-- A new grant still fits into the slot, by its size. -/
def Fits (gs : List Grant) : Call → Prop
  | .capture _ address size _ => totalSize gs + fullSize address size ≤ PML4_SIZE
  | .physmap address size _ => totalSize gs + fullSize address size ≤ PML4_SIZE
  | _ => True

def Grant.block (g : Grant) : Block := ⟨g.start, g.size⟩

def Grant.stop (g : Grant) : Nat := g.start + g.size

variable {c c' : Context} {call : Call} {g g' : Grant} {gs : List Grant}
  {a address size need lo page : Nat} {r : Except Errno Nat}

/-- Where no sum wraps and sizes are whole pages, the loop is first fit. -/
theorem place_firstFit (need lo : Nat) (gs : List Grant) (hneed : need ≤ PML4_SIZE) (hlo : lo ≤ 2 ^ 47)
    (hfar : ∀ g ∈ gs, g.stop ≤ 2 ^ 47) (hwhole : ∀ g ∈ gs, 4096 ∣ g.size) :
    (place need lo gs).1 = (firstFit need lo (gs.map Grant.block)).1 ∧
    (place need lo gs).2.1.map Grant.block = (firstFit need lo (gs.map Grant.block)).2.1 ∧
    (place need lo gs).2.2.map Grant.block = (firstFit need lo (gs.map Grant.block)).2.2 := by
  induction gs generalizing lo with
  | nil => exact ⟨rfl, rfl, rfl⟩
  | cons g gs ih =>
    have hstop := hfar g List.mem_cons_self
    have hsize := hwhole g List.mem_cons_self
    have hsum : (lo + need) % 2 ^ 64 = lo + need := by
      unfold PML4_SIZE at hneed
      omega
    have hend : (g.start + (g.size + 4095) % 2 ^ 64 / 4096 * 4096) % 2 ^ 64 = g.stop := by
      unfold Grant.stop at *
      omega
    obtain ⟨h1, h2, h3⟩ := ih g.stop hstop
      (fun g' hg' => hfar g' (List.mem_cons_of_mem _ hg'))
      (fun g' hg' => hwhole g' (List.mem_cons_of_mem _ hg'))
    simp only [place, firstFit, List.map_cons, hsum, hend, Grant.block]
    by_cases hlt : lo + need < g.start
    · simp [hlt, Grant.block]
    · simp only [hlt, if_false, List.map_cons]
      exact ⟨h1, congrArg₂ _ rfl h2, h3⟩

theorem place_append (need lo : Nat) (gs : List Grant) :
    (place need lo gs).2.1 ++ (place need lo gs).2.2 = gs := by
  induction gs generalizing lo with
  | nil => rfl
  | cons g gs ih =>
    unfold place
    split
    · rfl
    · simp [ih]

theorem place_aligned (need : Nat) (hlo : 4096 ∣ lo)
    (hgs : ∀ g ∈ gs, 4096 ∣ g.start ∧ 4096 ∣ g.size) : 4096 ∣ (place need lo gs).1 := by
  induction gs generalizing lo with
  | nil => exact hlo
  | cons g gs ih =>
    unfold place
    split
    · exact hlo
    · have hstart := (hgs g List.mem_cons_self).1
      exact ih (by omega) fun g' hg' => hgs g' (List.mem_cons_of_mem _ hg')

theorem takeGrant_some {rest : List Grant} (h : takeGrant a gs = some (g, rest)) :
    ∃ pre post, gs = pre ++ g :: post ∧ rest = pre ++ post ∧
      g.start ≤ a ∧ a < (g.start + g.size) % 2 ^ 64 := by
  induction gs generalizing rest with
  | nil => cases h
  | cons g₁ gs ih =>
    unfold takeGrant at h
    split at h
    next hin =>
      cases h
      exact ⟨[], gs, rfl, rfl, hin⟩
    next =>
      obtain ⟨⟨g₂, rest₂⟩, h₂, heq⟩ := Option.map_eq_some_iff.mp h
      cases heq
      obtain ⟨pre, post, rfl, rfl, hin⟩ := ih h₂
      exact ⟨g₁ :: pre, post, rfl, rfl, hin⟩

theorem takeGrant_isSome (hg : g ∈ gs) (ha : g.start ≤ a ∧ a < (g.start + g.size) % 2 ^ 64) :
    ∃ r, takeGrant a gs = some r := by
  induction gs with
  | nil => cases hg
  | cons g₁ gs ih =>
    unfold takeGrant
    split
    · exact ⟨_, rfl⟩
    next hout =>
      rcases List.mem_cons.mp hg with rfl | hg
      · exact absurd ha hout
      · obtain ⟨r, hr⟩ := ih hg
        exact ⟨_, by rw [hr]; rfl⟩

/-- The invariant of a grant list. -/
structure Arranged (gs : List Grant) : Prop where
  laid : Laid USER_GRANT_OFFSET (gs.map Grant.block)
  near : Near USER_GRANT_OFFSET PML4_SIZE (gs.map Grant.block)
  aligned : ∀ g ∈ gs, 4096 ∣ g.start ∧ 4096 ∣ g.size
  within : totalSize gs ≤ PML4_SIZE
  mapped : ∀ g ∈ gs, g.mapped = true

theorem size_le_totalSize (hg : g ∈ gs) : g.size ≤ totalSize gs :=
  List.le_sum_of_mem (List.mem_map_of_mem hg)

namespace Arranged

theorem nil (h : gs = []) : Arranged gs := by
  subst h
  exact ⟨trivial, by simp [Near], by simp, by simp [totalSize], by simp⟩

theorem pos (h : Arranged gs) (hg : g ∈ gs) : 0 < g.size := h.laid.pos (List.mem_map_of_mem hg)

/-- No grant ends beyond the addresses of user space. -/
theorem stop_le (h : Arranged gs) (hg : g ∈ gs) : g.stop ≤ 2 ^ 47 := by
  have hsize : g.size < 2 ^ 40 := by
    have h1 := size_le_totalSize hg
    have h2 := h.within
    unfold PML4_SIZE at h2
    omega
  have hle := h.near g.block (List.mem_map_of_mem hg) 40 hsize
  have hstop : g.block.stop = g.stop := rfl
  simp only [hstop, USER_GRANT_OFFSET, USER_HEAP_OFFSET, USER_OFFSET, PML4_SIZE] at hle
  omega

theorem mem_pages (h : Arranged gs) (hg : g ∈ gs) :
    page ∈ g.pages ↔ g.start ≤ page * 4096 ∧ page * 4096 < g.stop := by
  have hpos := h.pos hg
  have hstop := h.stop_le hg
  obtain ⟨hs, hz⟩ := h.aligned g hg
  unfold Grant.stop at *
  rw [Grant.pages, mem_pagesOf hpos (by omega)]
  unfold PAGE_SIZE
  omega

theorem page_lt (h : Arranged gs) (hg : g ∈ gs) (hp : page ∈ g.pages) : page < 2 ^ 36 := by
  have hlt := ((h.mem_pages hg).mp hp).2
  have hstop := h.stop_le hg
  omega

theorem nodup_pages (h : Arranged gs) (hg : g ∈ gs) : (g.pages.map index).Nodup := by
  rw [List.map_congr_left fun p hp => index_of_lt (h.page_lt hg hp), List.map_id']
  exact nodup_pagesFrom _ _

/-- A page is one of a grant when its index is one of theirs. -/
theorem index_mem_iff (h : Arranged gs) (hg : g ∈ gs) (hp : page < 2 ^ 36) :
    index page ∈ g.pages.map index ↔ page ∈ g.pages := by
  rw [List.map_congr_left fun p hp => index_of_lt (h.page_lt hg hp), List.map_id', index_of_lt hp]

/-- Two grants have no page in common. -/
theorem eq_of_page (h : Arranged gs) (hg : g ∈ gs) (hg' : g' ∈ gs) (hp : page ∈ g.pages)
    (hp' : page ∈ g'.pages) : g = g' :=
  h.laid.eq_of_mem hg hg' ((h.mem_pages hg).mp hp) ((h.mem_pages hg').mp hp')

/-- A grant that fits goes in where the loop finds room. -/
theorem insert {flags : EntryFlags} (h : Arranged gs) (hfit : totalSize gs + need ≤ PML4_SIZE) (hpos : 0 < need)
    (hwhole : 4096 ∣ need) : Arranged ((place need USER_GRANT_OFFSET gs).2.1 ++
      ⟨(place need USER_GRANT_OFFSET gs).1, need, flags, true⟩ :: (place need USER_GRANT_OFFSET gs).2.2) := by
  obtain ⟨h1, h2, h3⟩ := place_firstFit need USER_GRANT_OFFSET gs (by omega) (by decide)
    (fun g hg => h.stop_le hg) (fun g hg => (h.aligned g hg).2)
  have happ := place_append need USER_GRANT_OFFSET gs
  have hstart := place_aligned need (show 4096 ∣ USER_GRANT_OFFSET by decide) h.aligned
  generalize hp : place need USER_GRANT_OFFSET gs = p at *
  obtain ⟨start, before, after⟩ := p
  dsimp only at *
  have hsize : total (gs.map Grant.block) = totalSize gs := by
    simp [total, totalSize, Function.comp_def, Grant.block]
  have hblocks : (before ++ ⟨start, need, flags, true⟩ :: after).map Grant.block =
      (firstFit need USER_GRANT_OFFSET (gs.map Grant.block)).2.1 ++
        ⟨(firstFit need USER_GRANT_OFFSET (gs.map Grant.block)).1, need⟩ ::
          (firstFit need USER_GRANT_OFFSET (gs.map Grant.block)).2.2 := by
    rw [List.map_append, List.map_cons, h2, h3, ← h1]
    rfl
  have hold : ∀ g, g ∈ before ++ ⟨start, need, flags, true⟩ :: after →
      g = ⟨start, need, flags, true⟩ ∨ g ∈ gs := by
    intro g hg
    rw [← happ]
    simp only [List.mem_append, List.mem_cons] at hg ⊢
    tauto
  refine ⟨?_, ?_, fun g hg => ?_, ?_, fun g hg => ?_⟩
  · rw [hblocks]
    exact h.laid.insert hpos
  · rw [hblocks]
    exact h.near.insert hpos (by omega)
  · rcases hold g hg with rfl | hg
    · exact ⟨hstart, hwhole⟩
    · exact h.aligned g hg
  · have hsum : totalSize (before ++ ⟨start, need, flags, true⟩ :: after) = totalSize gs + need := by
      simp only [totalSize, ← happ, List.map_append, List.map_cons, List.sum_append, List.sum_cons]
      omega
    exact hsum.trans_le hfit
  · rcases hold g hg with rfl | hg
    · rfl
    · exact h.mapped g hg

theorem remove {pre post : List Grant} (h : Arranged (pre ++ g :: post)) : Arranged (pre ++ post) := by
  have hsub : pre ++ post ⊆ pre ++ g :: post := by
    intro g' hg'
    rcases List.mem_append.mp hg' with hg' | hg'
    · exact List.mem_append_left _ hg'
    · exact List.mem_append_right _ (List.mem_cons_of_mem _ hg')
  refine ⟨?_, h.near.of_subset (List.map_subset _ hsub), fun g' hg' => h.aligned g' (hsub hg'), ?_,
    fun g' hg' => h.mapped g' (hsub hg')⟩
  · have hl := h.laid
    rw [List.map_append, List.map_cons] at hl
    rw [List.map_append]
    exact hl.remove
  · have hw := h.within
    simp only [totalSize, List.map_append, List.sum_append, List.map_cons, List.sum_cons] at hw ⊢
    omega

/-- A grant is there once: two of it would meet. -/
theorem not_mem {pre post : List Grant} (h : Arranged (pre ++ g :: post)) : g ∉ pre ++ post := by
  intro hin
  have hl := h.laid
  rw [List.map_append, List.map_cons] at hl
  have hpw := List.pairwise_append.mp hl.pairwise
  have hpos := h.pos (List.mem_append_right _ List.mem_cons_self)
  rcases List.mem_append.mp hin with hin | hin
  · have := hpw.2.2 g.block (List.mem_map_of_mem hin) g.block List.mem_cons_self
    simp only [Block.stop, Grant.block] at this
    omega
  · have := (List.pairwise_cons.mp hpw.2.1).1 g.block (List.mem_map_of_mem hin)
    simp only [Block.stop, Grant.block] at this
    omega

/-- Grants are told apart by where they start. -/
theorem eq_of_start (h : Arranged gs) (hg : g ∈ gs) (hg' : g' ∈ gs) (hstart : g.start = g'.start) : g = g' := by
  have hpos := h.pos hg
  have hpos' := h.pos hg'
  have hin : g.start < g.block.stop := Nat.lt_add_of_pos_right hpos
  have hin' : g.start < g'.block.stop := hstart ▸ Nat.lt_add_of_pos_right hpos'
  exact h.laid.eq_of_mem hg hg' ⟨Nat.le_refl _, hin⟩ ⟨hstart.ge, hin'⟩

theorem start_ne {pre post : List Grant} (h : Arranged (pre ++ g :: post)) (hg' : g' ∈ pre ++ post) :
    g'.start ≠ g.start := by
  intro hstart
  have hmem : g' ∈ pre ++ g :: post := List.perm_middle.mem_iff.mpr (List.mem_cons_of_mem _ hg')
  have := h.eq_of_start hmem (List.perm_middle.mem_iff.mpr List.mem_cons_self) hstart
  exact h.not_mem (this ▸ hg')

end Arranged

/-- The caller's range of a call that makes a grant. -/
def Call.creates : Call → Option (Nat × Nat)
  | .capture _ address size _ => some (address, size)
  | .physmap address size _ => some (address, size)
  | _ => none

/-- The address of a call that takes a grant away. -/
def Call.unmaps : Call → Option Nat
  | .release a => some a
  | .physunmap a => some a
  | .funmap a => some a
  | _ => none

/-- The size that the calls compute. -/
def roundedSize (address size : Nat) : Nat :=
  (address - address / 4096 * 4096 + size + 4095) % 2 ^ 64 / 4096 * 4096

theorem roundedSize_eq (h : fullSize address size ≤ PML4_SIZE) :
    roundedSize address size = fullSize address size := by
  unfold roundedSize fullSize PML4_SIZE at *
  omega

/-- The context with a grant more. -/
def Context.withGrant (c : Context) (need : Nat) (flags : EntryFlags) (table : Mapper) : Context :=
  { c with
    grants := (place need USER_GRANT_OFFSET c.grants).2.1 ++
      ⟨(place need USER_GRANT_OFFSET c.grants).1, need, flags, true⟩ ::
        (place need USER_GRANT_OFFSET c.grants).2.2
    table }

/-- A grant is made for a range of the caller. -/
def Makes (c : Context) (address size : Nat) (r : Except Errno Nat) (c' : Context) : Prop :=
  ∃ flags frames table,
    c.table.mapFrames flags (pagesOf (place (roundedSize address size) USER_GRANT_OFFSET c.grants).1
      (roundedSize address size)) frames = some table ∧
    c' = c.withGrant (roundedSize address size) flags table ∧
    r = .ok (((place (roundedSize address size) USER_GRANT_OFFSET c.grants).1 +
      (address - address / 4096 * 4096)) % 2 ^ 64)

/-- The grant with an address is taken away. -/
def Takes (c : Context) (a : Nat) (c' : Context) : Prop :=
  ∃ g pre post table, c.grants = pre ++ g :: post ∧
    (g.start ≤ a ∧ a < (g.start + g.size) % 2 ^ 64) ∧ c.table.unmapPages g.pages = some table ∧
    c' = { c with grants := pre ++ post, table }

theorem funmap_cases (h : c.funmap a = some (r, c')) : c' = c ∨ Takes c a c' := by
  unfold Context.funmap at h
  split at h
  · cases h
    exact .inl rfl
  · split at h
    next g grants htake =>
      obtain ⟨pre, post, hgs, rfl, hin⟩ := takeGrant_some htake
      obtain ⟨table, ht, heq⟩ := Option.map_eq_some_iff.mp h
      cases heq
      unfold Grant.unmap at ht
      split at ht
      · exact .inr ⟨g, pre, post, table, hgs, hin, ht, rfl⟩
      · cases ht
    next =>
      cases h
      exact .inl rfl

/-- What a call can do: nothing, make a grant, or take one away. -/
theorem call_cases (h : c.call call = some (r, c')) :
    (c' = c ∧ ∀ address size, call.creates = some (address, size) → size = 0 ∨ r = .error .EPERM) ∨
    (∃ address size, call.creates = some (address, size) ∧ size ≠ 0 ∧
      (∀ p s f, call = .physmap p s f → c.euid = 0) ∧ Makes c address size r c') ∨
    ∃ a, call.unmaps = some a ∧ Takes c a c' := by
  have hunmap : ∀ a, call.unmaps = some a → call.creates = none → c.funmap a = some (r, c') →
      (c' = c ∧ ∀ address size, call.creates = some (address, size) → size = 0 ∨ r = .error .EPERM) ∨
      ∃ a, call.unmaps = some a ∧ Takes c a c' := by
    intro a ha hc hf
    rcases funmap_cases hf with hsame | htakes
    · exact .inl ⟨hsame, fun address size hcr => by rw [hc] at hcr; cases hcr⟩
    · exact .inr ⟨a, ha, htakes⟩
  cases call with
  | release a => exact (hunmap a rfl rfl h).imp_right .inr
  | funmap a => exact (hunmap a rfl rfl h).imp_right .inr
  | physunmap a =>
    simp only [Context.call, Context.physunmap] at h
    split at h
    · cases h
      exact .inl ⟨rfl, fun address size hcr => (nomatch hcr)⟩
    · exact (hunmap a rfl rfl h).imp_right .inr
  | capture caller address size writable =>
    simp only [Context.call, Context.capture] at h
    split at h
    next hz =>
      cases h
      exact .inl ⟨rfl, fun address' size' hcr => by cases hcr; exact .inl hz⟩
    next hz =>
      obtain ⟨⟨grant, table⟩, hmap, heq⟩ := Option.bind_eq_some_iff.mp h
      obtain ⟨frames, -, hmap⟩ := Option.bind_eq_some_iff.mp hmap
      obtain ⟨table', ht, hg⟩ := Option.bind_eq_some_iff.mp hmap
      cases hg
      cases heq
      exact .inr (.inl ⟨address, size, rfl, hz, fun p s f hc => (nomatch hc), _, frames, table, ht,
        rfl, rfl⟩)
  | physmap address size flags =>
    simp only [Context.call, Context.physmap] at h
    split at h
    · cases h
      exact .inl ⟨rfl, fun address' size' hcr => .inr rfl⟩
    next huid =>
      split at h
      next hz =>
        cases h
        exact .inl ⟨rfl, fun address' size' hcr => by cases hcr; exact .inl hz⟩
      next hz =>
        obtain ⟨⟨grant, table⟩, hmap, heq⟩ := Option.bind_eq_some_iff.mp h
        obtain ⟨table', ht, hg⟩ := Option.bind_eq_some_iff.mp hmap
        cases hg
        cases heq
        exact .inr (.inl ⟨address, size, rfl, hz, fun p s f _ => not_not.mp huid, _, _, table, ht,
          rfl, rfl⟩)

theorem Fits.creates (h : Fits gs call) (hc : call.creates = some (address, size)) :
    totalSize gs + fullSize address size ≤ PML4_SIZE := by
  cases call with
  | capture caller a s w =>
    cases hc
    exact h
  | physmap a s f =>
    cases hc
    exact h
  | _ => cases hc

theorem fullSize_pos (h : size ≠ 0) : 0 < fullSize address size := by
  unfold fullSize
  omega

theorem Arranged.makes (h : Arranged c.grants) (hfit : totalSize c.grants + fullSize address size ≤ PML4_SIZE)
    (hz : size ≠ 0) (hm : Makes c address size r c') : Arranged c'.grants := by
  obtain ⟨flags, frames, table, ht, rfl, -⟩ := hm
  have hround : roundedSize address size = fullSize address size := roundedSize_eq (by omega)
  rw [hround]
  exact h.insert hfit (fullSize_pos hz) (Nat.dvd_mul_left _ _)

/-- How the list of grants is to be. -/
structure Ordered (gs : List Grant) : Prop where
  sorted : gs.Pairwise fun g g' => g.start < g'.start
  placed : ∀ g ∈ gs, 4096 ∣ g.start ∧ USER_GRANT_OFFSET ≤ g.start
  disjoint : gs.Pairwise fun g g' => ∀ page ∈ g.pages, page ∉ g'.pages

theorem Arranged.ordered (h : Arranged gs) : Ordered gs := by
  have hpw : gs.Pairwise fun g g' => g.stop ≤ g'.start := List.pairwise_map.mp h.laid.pairwise
  refine ⟨?_, fun g hg => ⟨(h.aligned g hg).1, h.laid.le (List.mem_map_of_mem hg)⟩, ?_⟩
  · refine hpw.imp_of_mem fun {g g'} hg _ hle => ?_
    have hpos := h.pos hg
    unfold Grant.stop at hle
    omega
  · refine hpw.imp_of_mem fun {g g'} hg hg' hle page hp hp' => ?_
    have h1 := (h.mem_pages hg).mp hp
    have h2 := (h.mem_pages hg').mp hp'
    omega

/-- The grant that a call makes, its pages, and the address that it returns -/
theorem makes_grant (h : Arranged c.grants) (hfit : totalSize c.grants + fullSize address size ≤ PML4_SIZE)
    (hz : size ≠ 0) (hm : Makes c address size r c') :
    ∃ g pre post flags frames, c.grants = pre ++ post ∧ c'.grants = pre ++ g :: post ∧
      c.table.mapFrames flags g.pages frames = some c'.table ∧
      ∃ a, r = .ok a ∧ g.start ≤ a ∧ a < g.stop := by
  have harranged := h.makes hfit hz hm
  obtain ⟨flags, frames, table, ht, rfl, ha⟩ := hm
  have hround : roundedSize address size = fullSize address size := roundedSize_eq (by omega)
  refine ⟨_, _, _, flags, frames, (place_append (roundedSize address size) USER_GRANT_OFFSET c.grants).symm, rfl,
    ht, _, ha, ?_⟩
  have hstop := harranged.stop_le (g := ⟨_, roundedSize address size, flags, true⟩)
    (List.mem_append_right _ List.mem_cons_self)
  have hoffset : address - address / 4096 * 4096 < roundedSize address size := by
    rw [hround]
    unfold fullSize
    omega
  unfold Grant.stop at *
  dsimp only at *
  omega

/-- The loop finds the grant that has the address. -/
theorem takeGrant_of_mem (h : Arranged gs) (hg : g ∈ gs) (ha : g.start ≤ a ∧ a < g.stop) :
    ∃ pre post, gs = pre ++ g :: post ∧ takeGrant a gs = some (g, pre ++ post) := by
  have hstop := h.stop_le hg
  have ha' : g.start ≤ a ∧ a < (g.start + g.size) % 2 ^ 64 := by
    unfold Grant.stop at *
    omega
  obtain ⟨⟨g₁, rest⟩, htake⟩ := takeGrant_isSome hg ha'
  obtain ⟨pre, post, hgs, rfl, hin⟩ := takeGrant_some htake
  have hg₁ : g₁ ∈ gs := by simp [hgs]
  have hstop₁ := h.stop_le hg₁
  have heq : g₁ = g := by
    refine h.laid.eq_of_mem hg₁ hg ⟨hin.1, ?_⟩ ha
    unfold Grant.stop at hstop₁
    simp only [Block.stop, Grant.block]
    omega
  subst heq
  exact ⟨pre, post, hgs, htake⟩

/-- A call with an address of the grant that takes a grant away. -/
def Call.Names (g : Grant) (call : Call) : Prop :=
  ∃ a, call.unmaps = some a ∧ g.start ≤ a ∧ a < g.stop

/-- A driver without grants, and eight frames for its tables. -/
def driver : Context := ⟨0, [], ⟨fun _ => none, [1, 2, 3, 4, 5, 6, 7, 8]⟩⟩

end Origel.Kernel.Grants
