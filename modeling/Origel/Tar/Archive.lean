import Origel.Tar.Header

/-! The entries of a tar archive, read one after the other. -/
namespace Origel.Tar

/-- `ArchiveInner`, with all that its reader has to give. A read gets as many bytes as the reader likes,
one at least where there is one: `chunk` says how many more it gets at a place. -/
structure Archive where
  input : List UInt8
  chunk : Nat → Nat
  pos : Nat

namespace Archive

def read (a : Archive) (n : Nat) : List UInt8 × Archive :=
  let got := (a.input.drop a.pos).take (min n (a.chunk a.pos + 1))
  (got, { a with pos := a.pos + got.length })

variable {a b : Archive} {n k : Nat}

theorem length_read_le (a : Archive) (n : Nat) : (a.read n).1.length ≤ n := by
  rw [read, List.length_take]
  omega

/-- `read_all` -/
def readAll (a : Archive) (n : Nat) : Except String (List UInt8 × Archive) :=
  if n = 0 then .ok ([], a)
  else
    let r := a.read n
    if r.1 = [] then .error "failed to read entire block"
    else do
      let (rest, a) ← readAll r.2 (n - r.1.length)
      .ok (r.1 ++ rest, a)
termination_by n
decreasing_by
  rename_i hn hne
  exact Nat.sub_lt (Nat.pos_of_ne_zero hn) (List.length_pos_iff.mpr hne)

def skip (a : Archive) (amt : Nat) : Except String Archive :=
  if amt = 0 then .ok a
  else
    let r := a.read (min amt (4096 * 8))
    if r.1 = [] then .error "unexpected EOF during skip"
    else skip r.2 (amt - r.1.length)
termination_by amt
decreasing_by
  rename_i hn hne
  exact Nat.sub_lt (Nat.pos_of_ne_zero hn) (List.length_pos_iff.mpr hne)

/-- A read gives what comes next. -/
theorem read_eq (a : Archive) (n : Nat) : ∃ k ≤ n, k ≤ (a.input.drop a.pos).length ∧
    (0 < n → a.pos < a.input.length → 0 < k) ∧
    a.read n = ((a.input.drop a.pos).take k, { a with pos := a.pos + k }) := by
  have hlength : ((a.input.drop a.pos).take (min n (a.chunk a.pos + 1))).length =
      min (min n (a.chunk a.pos + 1)) (a.input.drop a.pos).length := List.length_take
  refine ⟨min (min n (a.chunk a.pos + 1)) (a.input.drop a.pos).length, by omega, Nat.min_le_right _ _, ?_, ?_⟩
  · intro hn hpos
    rw [List.length_drop]
    omega
  · rw [read, hlength]
    congr 1
    exact List.take_eq_take_min

/-- All is read, whatever each read gives. -/
theorem readAll_ok (h : a.pos + n ≤ a.input.length) :
    a.readAll n = .ok ((a.input.drop a.pos).take n, { a with pos := a.pos + n }) := by
  induction n using Nat.strong_induction_on generalizing a with
  | _ n ih =>
    rw [readAll]
    by_cases hn : n = 0
    · subst hn
      rfl
    · obtain ⟨k, hkn, hk, hpos, hread⟩ := read_eq a n
      have hlength : ((a.input.drop a.pos).take k).length = k := List.length_take_of_le hk
      have hk0 := hpos (by omega) (by omega)
      have hne : (a.input.drop a.pos).take k ≠ [] := List.ne_nil_of_length_pos (by omega)
      rw [if_neg hn, hread]
      dsimp only
      rw [if_neg hne, hlength, ih (n - k) (by omega) (by dsimp only; omega)]
      have hsplit := List.take_add (l := a.input.drop a.pos) (i := k) (j := n - k)
      rw [List.drop_drop] at hsplit
      show Except.ok _ = Except.ok _
      rw [← hsplit]
      dsimp only
      rw [show k + (n - k) = n by omega, show a.pos + k + (n - k) = a.pos + n by omega]

/-- All has been read only where it is there. -/
theorem le_of_readAll {r : List UInt8 × Archive} (h : a.readAll n = .ok r) (hn : 0 < n) :
    a.pos + n ≤ a.input.length := by
  induction n using Nat.strong_induction_on generalizing a r with
  | _ n ih =>
    obtain ⟨k, hkn, hk, -, hread⟩ := read_eq a n
    rw [List.length_drop] at hk
    have hlength : ((a.input.drop a.pos).take k).length = k := by
      rw [List.length_take_of_le]
      rwa [List.length_drop]
    rw [readAll, if_neg (by omega), hread] at h
    dsimp only at h
    split at h
    · cases h
    · rename_i hne
      have hk0 := List.length_pos_iff.mpr hne
      rw [hlength] at h hk0
      by_cases hlast : n - k = 0
      · omega
      · cases hrest : readAll { a with pos := a.pos + k } (n - k) with
        | error why =>
          rw [hrest] at h
          cases h
        | ok rest =>
          have hle := ih (n - k) (by omega) hrest (by omega)
          dsimp only at hle
          omega

/-- So many bytes are skipped, whatever each read gives. -/
theorem skip_ok (h : a.pos + n ≤ a.input.length) : a.skip n = .ok { a with pos := a.pos + n } := by
  induction n using Nat.strong_induction_on generalizing a with
  | _ n ih =>
    rw [skip]
    by_cases hn : n = 0
    · subst hn
      rfl
    · obtain ⟨k, hkn, hk, hpos, hread⟩ := read_eq a (min n (4096 * 8))
      have hlength : ((a.input.drop a.pos).take k).length = k := List.length_take_of_le hk
      have hk0 := hpos (by omega) (by omega)
      have hne : (a.input.drop a.pos).take k ≠ [] := List.ne_nil_of_length_pos (by omega)
      rw [if_neg hn, hread]
      dsimp only
      rw [if_neg hne, hlength, ih (n - k) (by omega) (by dsimp only; omega)]
      dsimp only
      rw [show a.pos + k + (n - k) = a.pos + n by omega]

end Archive

/-- `EntryIo`: so many zeros, or so many bytes of the archive -/
inductive EntryIo where
  | pad (limit : Nat)
  | data (limit : Nat)
  deriving DecidableEq, Repr

namespace EntryIo

def limit : EntryIo → Nat
  | pad limit => limit
  | data limit => limit

def read (a : Archive) (n : Nat) : EntryIo → List UInt8 × EntryIo × Archive
  | pad limit => (List.replicate (min n limit) 0, pad (limit - min n limit), a)
  | data limit =>
    if limit = 0 then ([], data 0, a)
    else
      let r := a.read (min n limit)
      (r.1, data (limit - r.1.length), r.2)

/-- The bytes that are still to come -/
def left (ios : List EntryIo) : Nat := (ios.map limit).sum

/-- The bytes of the archive among them -/
def stored : List EntryIo → Nat
  | [] => 0
  | pad _ :: ios => stored ios
  | data n :: ios => n + stored ios

/-- What the parts of an entry hold, with those that are stored from a place on. -/
def content (input : List UInt8) : Nat → List EntryIo → List UInt8
  | _, [] => []
  | pos, pad n :: ios => List.replicate n 0 ++ content input pos ios
  | pos, data n :: ios => (input.drop pos).take n ++ content input (pos + n) ios

end EntryIo

/-- `EntryFields::read`: a part that gives nothing is dropped. -/
def readData (n : Nat) : List EntryIo → Archive → List UInt8 × List EntryIo × Archive
  | [], a => ([], [], a)
  | io :: ios, a =>
    let r := io.read a n
    if r.1 = [] then readData n ios r.2.2 else (r.1, r.2.1 :: ios, r.2.2)

section Data

open EntryIo

variable {a : Archive} {ios : List EntryIo} {io : EntryIo} {n : Nat}

/-- What one read does to the parts of an entry that is there as a whole. -/
structure Reads (n : Nat) (ios : List EntryIo) (a : Archive)
    (r : List UInt8 × List EntryIo × Archive) : Prop where
  length : r.1.length ≤ n
  left : EntryIo.left r.2.1 + r.1.length ≤ EntryIo.left ios
  content : content a.input a.pos ios = r.1 ++ EntryIo.content a.input r.2.2.pos r.2.1
  archive : r.2.2 = { a with pos := r.2.2.pos }
  stored : r.2.2.pos + EntryIo.stored r.2.1 = a.pos + EntryIo.stored ios
  nonempty : r.1 = [] → r.2.1 = []

theorem left_cons (io : EntryIo) (ios : List EntryIo) : left (io :: ios) = io.limit + left ios := List.sum_cons

theorem readData_le (n : Nat) (ios : List EntryIo) (a : Archive) :
    left (readData n ios a).2.1 + (readData n ios a).1.length ≤ left ios := by
  induction ios generalizing a with
  | nil => exact Nat.le_refl 0
  | cons io ios ih =>
    have hone : (io.read a n).2.1.limit + (io.read a n).1.length ≤ io.limit := by
      cases io with
      | pad limit =>
        rw [EntryIo.read, List.length_replicate, EntryIo.limit, EntryIo.limit]
        omega
      | data limit =>
        rw [EntryIo.read]
        split
        · exact Nat.le_of_eq (by simp_all [EntryIo.limit])
        · have hle := a.length_read_le (min n limit)
          simp only [EntryIo.limit]
          omega
    rw [readData]
    split
    · have hrest := ih (io.read a n).2.2
      rw [left_cons]
      omega
    · simp only [left_cons]
      omega

/-- `read_to_end`. How much each read gets is up to the reader of the archive, whatever the size of the
buffer is. -/
def readToEnd (ios : List EntryIo) (a : Archive) : List UInt8 × Archive :=
  let r := readData (left ios + 1) ios a
  if r.1 = [] then ([], r.2.2)
  else
    let s := readToEnd r.2.1 r.2.2
    (r.1 ++ s.1, s.2)
termination_by left ios
decreasing_by
  rename_i hne
  have hle := readData_le (left ios + 1) ios a
  have hpos : 0 < (readData (left ios + 1) ios a).1.length := List.length_pos_iff.mpr hne
  show left (readData (left ios + 1) ios a).2.1 < left ios
  omega

theorem readData_reads (hn : 0 < n) (h : a.pos + stored ios ≤ a.input.length) :
    Reads n ios a (readData n ios a) := by
  induction ios generalizing a with
  | nil => exact ⟨Nat.zero_le n, Nat.le_refl 0, rfl, rfl, rfl, fun _ => rfl⟩
  | cons io ios ih =>
    have hleft := readData_le n (io :: ios) a
    rw [readData] at hleft ⊢
    cases io with
    | pad limit =>
      by_cases hlimit : limit = 0
      · subst hlimit
        have hempty : (EntryIo.read a n (.pad 0)).1 = [] := by
          rw [EntryIo.read, Nat.min_zero]
          rfl
        rw [if_pos hempty]
        obtain ⟨h1, h2, h3, h4, h5, h6⟩ := ih h
        refine ⟨h1, ?_, h3, h4, h5, h6⟩
        rw [left_cons]
        exact Nat.le_trans h2 (Nat.le_add_left _ _)
      · have hne : (EntryIo.read a n (.pad limit)).1 ≠ [] := by
          rw [EntryIo.read, Ne, List.replicate_eq_nil_iff]
          omega
        rw [if_neg hne] at hleft ⊢
        refine ⟨?_, hleft, ?_, rfl, rfl, fun hnil => absurd hnil hne⟩
        · rw [EntryIo.read, List.length_replicate]
          exact Nat.min_le_left _ _
        · show List.replicate limit 0 ++ _ = List.replicate (min n limit) 0 ++
            (List.replicate (limit - min n limit) 0 ++ _)
          rw [← List.append_assoc, List.replicate_append_replicate, Nat.add_sub_cancel' (Nat.min_le_right _ _)]
          rfl
    | data limit =>
      have hstored : a.pos + (limit + stored ios) ≤ a.input.length := h
      by_cases hlimit : limit = 0
      · subst hlimit
        rw [EntryIo.read, if_pos rfl, if_pos rfl]
        rw [Nat.zero_add] at hstored
        obtain ⟨h1, h2, h3, h4, h5, h6⟩ := ih hstored
        refine ⟨h1, ?_, ?_, h4, ?_, h6⟩
        · rw [left_cons]
          exact Nat.le_trans h2 (Nat.le_add_left _ _)
        · rw [content, List.take_zero, List.nil_append]
          exact h3
        · rw [stored, Nat.zero_add]
          exact h5
      · obtain ⟨k, hkn, hk, hpos, hread⟩ := Archive.read_eq a (min n limit)
        have hk0 := hpos (by omega) (by omega)
        have hlength : ((a.input.drop a.pos).take k).length = k := List.length_take_of_le hk
        have hne : (a.input.drop a.pos).take k ≠ [] := List.ne_nil_of_length_pos (by omega)
        rw [EntryIo.read, if_neg hlimit, hread] at hleft ⊢
        dsimp only at hleft ⊢
        rw [if_neg hne] at hleft ⊢
        refine ⟨?_, hleft, ?_, rfl, ?_, fun hnil => absurd hnil hne⟩
        · dsimp only
          omega
        · dsimp only
          rw [content, content, hlength, ← List.append_assoc, show a.pos + k + (limit - k) = a.pos + limit by omega]
          congr 1
          have hsplit := List.take_add (l := a.input.drop a.pos) (i := k) (j := limit - k)
          rw [List.drop_drop, show k + (limit - k) = limit by omega] at hsplit
          exact hsplit
        · simp only [stored, hlength]
          omega

/-- All of an entry is read, whatever each read gives. -/
theorem readToEnd_eq (h : a.pos + stored ios ≤ a.input.length) :
    readToEnd ios a = (content a.input a.pos ios, { a with pos := a.pos + stored ios }) := by
  generalize hm : left ios = m
  induction m using Nat.strong_induction_on generalizing ios a with
  | _ m ih =>
    obtain ⟨-, hleft, hcontent, harchive, hstored, hnonempty⟩ := readData_reads (Nat.succ_pos (left ios)) h
    rw [readToEnd]
    generalize readData (left ios + 1) ios a = r at *
    obtain ⟨got, ios', a'⟩ := r
    dsimp only at *
    by_cases hnil : got = []
    · rw [if_pos hnil, harchive, hcontent, hnil, hnonempty hnil]
      rw [hnonempty hnil] at hstored
      change a'.pos = a.pos + stored ios at hstored
      rw [hstored]
      rfl
    · have hpos := List.length_pos_iff.mpr hnil
      have hinput : a'.input = a.input := by rw [harchive]
      rw [if_neg hnil, ih (left ios') (by omega) (by rw [hinput]; omega) rfl, hcontent, hinput, hstored]
      rw [harchive]

end Data

end Origel.Tar
