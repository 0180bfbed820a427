import Origel.Kernel.Syscall

/-! The check of a slice: the pages that it looks at and the pages that the slice has bytes in. -/
namespace Origel.Kernel.Syscall

open Paging

/-- A page is mapped with at least these flags. -/
def HasFlags (m : Mapper) (flags : EntryFlags) (page : Nat) : Prop :=
  ∃ pageFlags, m.translatePageFlags page = some pageFlags ∧ pageFlags &&& flags = flags

/-- A page has a byte of a range of addresses. -/
def Intersects (page first size : Nat) : Prop :=
  ∃ a, first ≤ a ∧ a < first + size ∧ a / PAGE_SIZE = page

/-- What a caller takes from a slice that is valid: it is in memory, and all of it has the flags. -/
def Sound (m : Mapper) (elem ptr len : Nat) (flags : EntryFlags) : Prop :=
  ∀ slice, validateSlice m elem ptr len flags = .ok slice → len ≠ 0 →
    ptr + len * elem < 2 ^ 64 ∧ ∀ page, Intersects page ptr (len * elem) → HasFlags m flags page

variable {m : Mapper} {flags : EntryFlags} {page first size elem ptr len : Nat}

theorem intersects_iff (hsize : size ≠ 0) : Intersects page first size ↔
    first / PAGE_SIZE ≤ page ∧ page ≤ (first + size - 1) / PAGE_SIZE := by
  constructor
  · rintro ⟨a, hfirst, hlast, rfl⟩
    exact ⟨Nat.div_le_div_right hfirst, Nat.div_le_div_right (by omega)⟩
  · rintro ⟨hfirst, hlast⟩
    -- the first byte of the page, or the first of the range where that comes later
    refine ⟨max first (page * PAGE_SIZE), le_max_left _ _, ?_, ?_⟩
    · have hmul := Nat.mul_le_of_le_div _ _ _ hlast
      omega
    · simp only [PAGE_SIZE] at hfirst hlast ⊢
      omega

theorem not_intersects_empty : ¬Intersects page first 0 := by
  rintro ⟨a, hfirst, hlast, -⟩
  omega

theorem validate_iff : validate m first size flags = true ↔
    ∀ page ∈ pagesOf first size, HasFlags m flags page := by
  rw [validate, List.all_eq_true]
  refine forall₂_congr fun page _ => ?_
  unfold HasFlags
  cases m.translatePageFlags page with
  | none => simp
  | some pageFlags => simp

theorem validateSlice_ok_iff (hlen : len ≠ 0) :
    (∃ slice, validateSlice m elem ptr len flags = .ok slice) ↔
      ∀ page ∈ pagesOf ptr (len * elem % 2 ^ 64), HasFlags m flags page := by
  rw [← validate_iff, validateSlice, if_neg hlen]
  split
  · rename_i hvalid
    exact iff_of_true ⟨_, rfl⟩ hvalid
  · rename_i hinvalid
    exact iff_of_false nofun hinvalid

/-- Where the end of the slice is an address, the check looks at the pages of the slice. -/
theorem sound_of_fits (hfit : ptr + len * elem < 2 ^ 64) : Sound m elem ptr len flags := by
  intro slice hok hlen
  have hpages := (validateSlice_ok_iff hlen).mp ⟨slice, hok⟩
  rw [Nat.mod_eq_of_lt (by omega)] at hpages
  refine ⟨hfit, fun page hpage => hpages page ?_⟩
  by_cases hsize : len * elem = 0
  · rw [hsize] at hpage
    exact (not_intersects_empty hpage).elim
  · exact (mem_pagesOf (by omega) (Nat.le_of_lt hfit)).mpr ((intersects_iff hsize).mp hpage)

/-- A slice that is valid is what its caller takes it for, unless its end is no address and the pages
up to where the end has wrapped to have the flags. -/
theorem validateSlice_sound_iff (m : Mapper) (elem ptr len : Nat) (flags : EntryFlags) :
    Sound m elem ptr len flags ↔ len = 0 ∨ ptr + len * elem < 2 ^ 64 ∨
      ∃ page, ptr / PAGE_SIZE ≤ page ∧ page ≤ lastPage ptr (len * elem % 2 ^ 64) ∧
        ¬HasFlags m flags page := by
  constructor
  · intro h
    by_contra hnot
    push Not at hnot
    obtain ⟨hlen, hwraps, hpages⟩ := hnot
    have hchecked : ∀ page ∈ pagesOf ptr (len * elem % 2 ^ 64), HasFlags m flags page := by
      intro page hpage
      obtain ⟨hfirst, hlast⟩ := mem_pagesFrom.mp hpage
      exact hpages page hfirst hlast
    obtain ⟨slice, hok⟩ := (validateSlice_ok_iff hlen).mpr hchecked
    exact absurd (h slice hok hlen).1 (Nat.not_lt.mpr hwraps)
  · rintro (hlen | hfit | ⟨page, hfirst, hlast, hnot⟩)
    · exact fun slice _ hne => (hne hlen).elim
    · exact sound_of_fits hfit
    · intro slice hok hlen
      have hpages := (validateSlice_ok_iff hlen).mp ⟨slice, hok⟩
      exact (hnot (hpages page (mem_pagesFrom.mpr ⟨hfirst, hlast⟩))).elim

/-- No page is there, and a length whose end wraps to the start of memory is valid. -/
theorem validateSlice_unsound :
    validateSlice ⟨fun _ => none, []⟩ 1 4096 (2 ^ 64 - 4095) PRESENT = .ok ⟨4096, 2 ^ 64 - 4095⟩ ∧
      ¬Sound ⟨fun _ => none, []⟩ 1 4096 (2 ^ 64 - 4095) PRESENT := by
  have hok : validateSlice ⟨fun _ => none, []⟩ 1 4096 (2 ^ 64 - 4095) PRESENT =
      .ok ⟨4096, 2 ^ 64 - 4095⟩ := by decide
  refine ⟨hok, fun h => ?_⟩
  have hfit := (h _ hok (by decide)).1
  omega

end Origel.Kernel.Syscall
