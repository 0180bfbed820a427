import Origel.Lib.Entries

/-! The walks over the entries of two tables of the firmware: the processors and interrupt controllers
of the MADT, and the units of the DMAR. -/
namespace Origel.Kernel.Acpi

open Lib

/-- A table: the length in its header, and the bytes from the end of the header on. -/
structure Sdt where
  length : UInt32
  data : Nat → UInt8

/-- The bytes of a header -/
def sdtSize : Nat := 36

/-- `Sdt::data_len` -/
def Sdt.dataLen (sdt : Sdt) : Nat :=
  if sdt.length.toNat ≥ sdtSize then sdt.length.toNat - sdtSize else 0

/-- A byte of the data -/
def Sdt.u8 (sdt : Sdt) (i : Nat) : Nat := (sdt.data i).toNat

/-- A word of the data, with the low byte first -/
def Sdt.u16 (sdt : Sdt) (i : Nat) : Nat := sdt.u8 i + 256 * sdt.u8 (i + 1)

/-- Where a record starts in the data. -/
abbrev Address := Nat

inductive MadtEntry where
  | localApic (record : Address)
  | invalidLocalApic (len : Nat)
  | ioApic (record : Address)
  | invalidIoApic (len : Nat)
  | intSrcOverride (record : Address)
  | invalidIntSrcOverride (len : Nat)
  | unknown (kind : Nat)
  deriving DecidableEq, Repr

/-- The sizes of the packed records -/
def madtLocalApicSize : Nat := 6
def madtIoApicSize : Nat := 10
def madtIntSrcOverrideSize : Nat := 8

/-- The first entry comes after the address of the local controller and the flags. -/
def madtStart : Nat := 8

/-- The entry of a type and a length at an offset. The records come after the headers. -/
def madtEntry (entryType entryLen i : Nat) : MadtEntry :=
  match entryType with
  | 0 => if entryLen = madtLocalApicSize + 2 then .localApic (i + 2) else .invalidLocalApic entryLen
  | 1 => if entryLen = madtIoApicSize + 2 then .ioApic (i + 2) else .invalidIoApic entryLen
  | 2 => if entryLen = madtIntSrcOverrideSize + 2 then .intSrcOverride (i + 2)
    else .invalidIntSrcOverride entryLen
  | _ => .unknown entryType

/-- `MadtIter::next`, with where the iterator is then -/
def madtNext (sdt : Sdt) (i : Nat) : Option (MadtEntry × Nat) :=
  if i + 1 < sdt.dataLen then
    let entryType := sdt.u8 i
    let entryLen := sdt.u8 (i + 1)
    if i + entryLen ≤ sdt.dataLen then some (madtEntry entryType entryLen i, i + entryLen)
    else none
  else none

inductive DmarEntry where
  | drhd (record : Address)
  | invalidDrhd (len : Nat)
  | rmrr (record : Address)
  | invalidRmrr (len : Nat)
  | atsr (record : Address)
  | invalidAtsr (len : Nat)
  | rhsa (record : Address)
  | invalidRhsa (len : Nat)
  | andd (record : Address)
  | invalidAndd (len : Nat)
  | unknown (kind : Nat)
  deriving DecidableEq, Repr

def dmarDrhdSize : Nat := 16
def dmarRmrrSize : Nat := 24
def dmarAtsrSize : Nat := 8
def dmarRhsaSize : Nat := 20
def dmarAnddSize : Nat := 8

/-- The first entry comes after the address width, the flags and what is reserved. -/
def dmarStart : Nat := 12

/-- The entry of a type and a length at an offset. The records have their headers in them. -/
def dmarEntry (entryType entryLen i : Nat) : DmarEntry :=
  match entryType with
  | 0 => if entryLen ≥ dmarDrhdSize then .drhd i else .invalidDrhd entryLen
  | 1 => if entryLen ≥ dmarRmrrSize then .rmrr i else .invalidRmrr entryLen
  | 2 => if entryLen ≥ dmarAtsrSize then .atsr i else .invalidAtsr entryLen
  | 3 => if entryLen = dmarRhsaSize then .rhsa i else .invalidRhsa entryLen
  | 4 => if entryLen ≥ dmarAnddSize then .andd i else .invalidAndd entryLen
  | _ => .unknown entryType

/-- `DmarIter::next`, with where the iterator is then -/
def dmarNext (sdt : Sdt) (i : Nat) : Option (DmarEntry × Nat) :=
  if i + 4 ≤ sdt.dataLen then
    let entryType := sdt.u16 i
    let entryLen := sdt.u16 (i + 2)
    if i + entryLen ≤ sdt.dataLen then some (dmarEntry entryType entryLen i, i + entryLen)
    else none
  else none

/-- The bytes of the record that an entry refers to: where they start and how many they are. -/
def MadtEntry.record : MadtEntry → Option (Address × Nat)
  | .localApic record => some (record, madtLocalApicSize)
  | .ioApic record => some (record, madtIoApicSize)
  | .intSrcOverride record => some (record, madtIntSrcOverrideSize)
  | _ => none

def DmarEntry.record : DmarEntry → Option (Address × Nat)
  | .drhd record => some (record, dmarDrhdSize)
  | .rmrr record => some (record, dmarRmrrSize)
  | .atsr record => some (record, dmarAtsrSize)
  | .rhsa record => some (record, dmarRhsaSize)
  | .andd record => some (record, dmarAnddSize)
  | _ => none

def madtLayout (sdt : Sdt) : Layout where
  header := 2
  total := sdt.dataLen
  len i := sdt.u8 (i + 1)

def dmarLayout (sdt : Sdt) : Layout where
  header := 4
  total := sdt.dataLen
  len i := sdt.u16 (i + 2)

/-- The checks of the sizes see to it that a record is in its entry. -/
theorem madtEntry_record {kind len i at' size : Nat}
    (h : (madtEntry kind len i).record = some (at', size)) : at' + size ≤ i + len := by
  unfold madtEntry at h
  split at h
  case h_4 => cases h
  all_goals
    split at h
    · rename_i hlen
      cases h
      omega
    · cases h

theorem dmarEntry_record {kind len i at' size : Nat}
    (h : (dmarEntry kind len i).record = some (at', size)) : at' + size ≤ i + len := by
  unfold dmarEntry at h
  split at h
  case h_6 => cases h
  all_goals
    split at h
    · rename_i hlen
      cases h
      omega
    · cases h

theorem madtNext_walks (sdt : Sdt) : Walks (madtNext sdt) MadtEntry.record (madtLayout sdt) :=
  .of_eq (fun _ => rfl) fun _ _ _ => madtEntry_record

theorem dmarNext_walks (sdt : Sdt) : Walks (dmarNext sdt) DmarEntry.record (dmarLayout sdt) :=
  .of_eq (fun _ => rfl) fun _ _ _ => dmarEntry_record

/-- The walks over the two tables are safe exactly where no entry that has one after it is shorter than
its header. -/
theorem tableWalks_safe_iff (sdt : Sdt) :
    (SafeWalk (madtNext sdt) MadtEntry.record 2 sdt.dataLen madtStart ↔
      (madtLayout sdt).WellFormed madtStart) ∧
    (SafeWalk (dmarNext sdt) DmarEntry.record 4 sdt.dataLen dmarStart ↔
      (dmarLayout sdt).WellFormed dmarStart) :=
  ⟨(madtNext_walks sdt).safe_iff (Nat.succ_ne_zero 1), (dmarNext_walks sdt).safe_iff (Nat.succ_ne_zero 3)⟩

/-- A table of 64 bytes whose entries are all zeros -/
def blank : Sdt := ⟨64, fun _ => 0⟩

/-- The walk over an entry of no length never ends. -/
theorem tableWalks_stuck : ¬SafeWalk (madtNext blank) MadtEntry.record 2 blank.dataLen madtStart ∧
    ¬SafeWalk (dmarNext blank) DmarEntry.record 4 blank.dataLen dmarStart := by
  have hmadt : madtNext blank madtStart = some (.invalidLocalApic 0, madtStart) := by decide
  have hdmar : dmarNext blank dmarStart = some (.invalidDrhd 0, dmarStart) := by decide
  exact ⟨fun h => not_drains_of_stuck .here hmadt h.ends, fun h => not_drains_of_stuck .here hdmar h.ends⟩

end Origel.Kernel.Acpi
