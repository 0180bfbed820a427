import Origel.Tar.Builder

/-! Reading an archive entry by entry, with as much of each as the caller likes. -/
namespace Origel.Tar

open Origel.Lib

/-- What a caller does: it goes to the next entry, or reads from the one it has into a buffer of some
length. -/
inductive Act where
  | next
  | read (n : Nat)
  deriving DecidableEq, Repr

/-- What it gets. -/
inductive Shown where
  | entry (path : List UInt8) (header : Header) (size : Nat)
  | finished
  | failed (why : String)
  | bytes (got : List UInt8)
  deriving DecidableEq

/-- The entries of an archive, with what is left of the entry that the caller has. -/
structure Reader where
  entries : Entries
  data : List EntryIo

namespace Reader

/-- `Entries::next` and the `read` of an entry -/
def act (r : Reader) : Act → Shown × Reader
  | .next =>
    if r.entries.done then (.finished, { r with data := [] })
    else
      match r.entries.nextEntry with
      | .ok (some entry, e) => (.entry entry.pathBytes entry.header entry.size, ⟨e, entry.data⟩)
      | .ok (none, e) => (.finished, ⟨{ e with done := true }, []⟩)
      | .error why => (.failed why, ⟨{ r.entries with done := true }, []⟩)
  | .read n =>
    let s := readData n r.data r.entries.archive
    (.bytes s.1, ⟨{ r.entries with archive := s.2.2 }, s.2.1⟩)

def Step (r : Reader) (l : Act × Shown) (r' : Reader) : Prop := r.act l.1 = (l.2, r')

theorem step_act (r : Reader) (a : Act) : r.Step (a, (r.act a).1) (r.act a).2 := rfl

/-- What a caller is shown that does all this. -/
def shows (r : Reader) : List Act → List (Act × Shown)
  | [] => []
  | a :: acts => (a, (r.act a).1) :: (r.act a).2.shows acts

theorem run_shows (r : Reader) (acts : List Act) : ∃ r', Run Step r (r.shows acts) r' := by
  induction acts generalizing r with
  | nil => exact ⟨r, .nil⟩
  | cons a acts ih =>
    obtain ⟨r', hrun⟩ := ih (r.act a).2
    exact ⟨r', .cons (r.step_act a) hrun⟩

/-- `Archive::new(..).entries()`, raw or not -/
def start (input : List UInt8) (chunk : Nat → Nat) (raw : Bool) : Reader :=
  ⟨⟨⟨input, chunk, 0⟩, 0, false, raw⟩, []⟩

end Reader

/-- An entry as a caller gets it, with the bytes that it is written as. -/
structure Item where
  path : List UInt8
  header : Header
  data : List UInt8
  written : List UInt8

/-- The next entry is the item where its bytes are next. -/
def Item.Readable (raw : Bool) (i : Item) : Prop :=
  ∀ (e : Entries) (gap rest : List UInt8), e.raw = raw → e.At gap (i.written ++ rest) →
    ∃ entry e', e.nextEntry = .ok (some entry, e') ∧ entry.pathBytes = i.path ∧ entry.header = i.header ∧
      entry.size = i.data.length ∧ entry.data = [.data i.data.length] ∧ Entries.Comes e e' i.data rest

/-- An archive as it is meant: what is unread of the entry at hand, and the entries behind it. -/
structure Tape where
  current : List UInt8
  rest : List Item

/-- Entries come in their order, each with its path and header. A read gets what comes next in the data of
the entry, one byte at least where there is one. A read into an empty buffer loses the data. -/
inductive Tape.Step : Tape → Act × Shown → Tape → Prop
  | entry {cur : List UInt8} {i : Item} {is : List Item} :
      Step ⟨cur, i :: is⟩ (.next, .entry i.path i.header i.data.length) ⟨i.data, is⟩
  | finished {cur : List UInt8} : Step ⟨cur, []⟩ (.next, .finished) ⟨[], []⟩
  | read {n : Nat} (got : List UInt8) {cur : List UInt8} {is : List Item} (hn : 0 < n) (hle : got.length ≤ n)
      (hgot : got = [] → cur = []) : Step ⟨got ++ cur, is⟩ (.read n, .bytes got) ⟨cur, is⟩
  | drop {cur : List UInt8} {is : List Item} : Step ⟨cur, is⟩ (.read 0, .bytes []) ⟨[], is⟩

/-- The entries from here on, the end of the archive, and what is behind it -/
def written (is : List Item) (trailing : List UInt8) : List UInt8 :=
  is.flatMap Item.written ++ (List.replicate 1024 0 ++ trailing)

/-- What is left of an entry, where so much of its data is unread. -/
def Left (n : Nat) (data : List EntryIo) : Prop := data = [.data n] ∨ n = 0 ∧ data = []

/-- The reader is where the tape is. -/
inductive Follows (raw : Bool) (trailing : List UInt8) : Reader → Tape → Prop
  | reading {r : Reader} {t : Tape} (gap : List UInt8) (hraw : r.entries.raw = raw)
      (hdone : r.entries.done = false) (hread : ∀ i ∈ t.rest, i.Readable raw)
      (hat : r.entries.At (t.current ++ gap) (written t.rest trailing))
      (hdata : Left t.current.length r.data) : Follows raw trailing r t
  | ended {r : Reader} (hdone : r.entries.done = true) (hdata : r.data = []) : Follows raw trailing r ⟨[], []⟩

variable {r r' : Reader} {t : Tape} {raw : Bool} {trailing gap : List UInt8} {l : Act × Shown} {n : Nat}
  {data : List EntryIo} {e : Entries} {is : List Item}

/-- A read into an empty buffer drops the data. -/
theorem Left.read_zero (h : Left n data) (a : Archive) : readData 0 data a = ([], [], a) := by
  rcases h with rfl | ⟨-, rfl⟩
  · by_cases hn : n = 0
    · subst hn
      rfl
    · rw [readData, EntryIo.read, if_neg hn, Nat.zero_min, Archive.read, Nat.zero_min, List.take_zero]
      rfl
  · rfl

/-- What one read leaves of the data -/
theorem Left.read (h : Left n data) {a : Archive} (hn : n ≠ 0) {k : Nat} (hk : 0 < k)
    (ha : a.pos + n ≤ a.input.length) : ∃ got, readData k data a =
      (got, [.data (n - got.length)], a.advance got.length) ∧ got ≠ [] ∧ got.length ≤ k ∧
      got.length ≤ n ∧ got = (a.input.drop a.pos).take got.length := by
  obtain rfl := h.resolve_right fun hzero => hn hzero.1
  obtain ⟨j, hj, hlength, hpos, hread⟩ := Archive.read_eq a (min k n)
  have htake : ((a.input.drop a.pos).take j).length = j := List.length_take_of_le hlength
  have hj0 := hpos (by omega) (by omega)
  have hne : (a.input.drop a.pos).take j ≠ [] := List.ne_nil_of_length_pos (by omega)
  refine ⟨(a.input.drop a.pos).take j, ?_, hne, by omega, by omega, by rw [htake]⟩
  rw [readData, EntryIo.read, if_neg hn, hread]
  dsimp only
  rw [if_neg hne, htake]
  rfl

theorem nextEntry_end (h : e.At gap (List.replicate 1024 0 ++ trailing)) :
    ∃ e', e.nextEntry = .ok (none, e') := by
  obtain ⟨e', hnext, -, -⟩ := Entries.nextEntryRaw_end h
  refine ⟨e', ?_⟩
  rw [Entries.nextEntry]
  split
  · exact hnext
  · rw [Entries.describe, hnext]
    rfl

theorem follows_next (h : Follows raw trailing r t) : ∃ t', t.Step (.next, (r.act .next).1) t' ∧
    Follows raw trailing (r.act .next).2 t' := by
  cases h with
  | ended hdone hdata =>
    rw [Reader.act, if_pos hdone]
    exact ⟨_, .finished, .ended hdone rfl⟩
  | @reading _ gap hraw hdone hread hat hdata =>
    obtain ⟨current, rest⟩ := t
    rw [Reader.act, if_neg (by rw [hdone]; exact Bool.false_ne_true)]
    cases rest with
    | nil =>
      obtain ⟨e', hnext⟩ := nextEntry_end hat
      rw [hnext]
      exact ⟨_, .finished, .ended rfl rfl⟩
    | cons i is =>
      have hitem : r.entries.At (current ++ gap) (i.written ++ written is trailing) := by
        rw [written, ← List.append_assoc, ← List.flatMap_cons]
        exact hat
      obtain ⟨entry, e', hnext, hpath, hheader, hsize, hblocks, hcomes⟩ :=
        hread i List.mem_cons_self r.entries _ _ hraw hitem
      rw [hnext]
      dsimp only
      rw [hpath, hheader, hsize]
      refine ⟨_, .entry, .reading (padding i.data.length) (hcomes.raw.trans hraw)
        (hcomes.done.trans hdone) (fun j hj => hread j (List.mem_cons_of_mem _ hj)) ⟨?_, ?_⟩ (.inl hblocks)⟩
      · rw [List.append_assoc]
        exact hcomes.archive
      · have hle := le_roundUp i.data.length
        dsimp only
        rw [hcomes.next, List.length_append, padding, List.length_replicate]
        omega

theorem follows_read (h : Follows raw trailing r t) (n : Nat) : ∃ t', t.Step (.read n, (r.act (.read n)).1) t' ∧
    Follows raw trailing (r.act (.read n)).2 t' := by
  rw [Reader.act]
  cases h with
  | ended hdone hdata =>
    rw [hdata]
    rcases Nat.eq_zero_or_pos n with rfl | hn
    · exact ⟨_, .drop, .ended hdone rfl⟩
    · exact ⟨_, .read [] hn (Nat.zero_le n) (fun _ => rfl), .ended hdone rfl⟩
  | @reading _ gap hraw hdone hitems hat hdata =>
    obtain ⟨current, rest⟩ := t
    rcases Nat.eq_zero_or_pos n with rfl | hn
    · rw [hdata.read_zero]
      refine ⟨_, .drop, .reading (current ++ gap) hraw hdone hitems hat (.inr ⟨rfl, rfl⟩)⟩
    · by_cases hcurrent : current = []
      · subst hcurrent
        have hread : readData n r.data r.entries.archive = ([], [], r.entries.archive) := by
          rcases hdata with hdata | ⟨-, hdata⟩ <;> rw [hdata] <;> rfl
        rw [hread]
        exact ⟨_, .read [] hn (Nat.zero_le n) (fun _ => rfl),
          .reading gap hraw hdone hitems hat (.inr ⟨rfl, rfl⟩)⟩
      · have hne : current.length ≠ 0 := fun hzero => hcurrent (List.length_eq_zero_iff.mp hzero)
        have hlength := hat.archive.length
        rw [List.length_append, List.length_append] at hlength
        have hfits' : r.entries.archive.pos + current.length ≤ r.entries.archive.input.length := by
          dsimp only at hlength
          omega
        obtain ⟨got, hread, hgot, hle, hle', heq⟩ := hdata.read hne hn hfits'
        rw [hat.archive.drop, List.append_assoc, List.take_append_of_le_length hle'] at heq
        have hsplit : current = got ++ current.drop got.length := by
          conv_lhs => rw [← List.take_append_drop got.length current, ← heq]
        generalize current.drop got.length = cur at hsplit
        subst hsplit
        rw [hread]
        refine ⟨_, .read got hn hle (fun hnil => absurd hnil hgot), .reading gap hraw hdone hitems ⟨?_, ?_⟩ ?_⟩
        · have hat' := hat.archive
          rw [List.append_assoc, List.append_assoc] at hat'
          rw [List.append_assoc]
          exact hat'.advance
        · have hnext : r.entries.next = r.entries.archive.pos + (got ++ cur ++ gap).length := hat.next
          show r.entries.next = r.entries.archive.pos + got.length + (cur ++ gap).length
          rw [hnext, List.length_append, List.length_append, List.length_append]
          omega
        · left
          dsimp only
          rw [List.length_append, Nat.add_sub_cancel_left]

theorem Follows.step (h : Follows raw trailing r t) (hstep : r.Step l r') :
    ∃ t', t.Step l t' ∧ Follows raw trailing r' t' := by
  obtain ⟨act, shown⟩ := l
  have hshown : (r.act act).1 = shown := congrArg Prod.fst hstep
  have hr : (r.act act).2 = r' := congrArg Prod.snd hstep
  rw [← hshown, ← hr]
  cases act with
  | next => exact follows_next h
  | read n => exact follows_read h n

/-- Whoever reads an archive of entries gets those, in their order, whatever each read of the archive gives,
and whatever is read of an entry before the next. -/
theorem reader_follows_tape (his : ∀ i ∈ is, i.Readable raw) (chunk : Nat → Nat) {labels : List (Act × Shown)}
    (hrun : Run Reader.Step (.start (written is trailing) chunk raw) labels r) :
    ∃ t, Run Tape.Step ⟨[], is⟩ labels t := by
  have hstart : Follows raw trailing (.start (written is trailing) chunk raw) ⟨[], is⟩ :=
    .reading [] rfl rfl his ⟨⟨rfl, Nat.zero_le _⟩, rfl⟩ (.inr ⟨rfl, rfl⟩)
  have hstep : ∀ r t l r', Follows raw trailing r t → Reader.Step r l r' →
      ∃ t', Tape.Step t l t' ∧ Follows raw trailing r' t' := fun _ _ _ _ hR hs => hR.step hs
  obtain ⟨t, ht, -⟩ := hrun.simulated hstep hstart
  exact ⟨t, ht⟩

/-- A member as raw entries show it -/
def Member.item (m : Member) : Item := ⟨m.header.pathBytes, m.header, m.data, m.written⟩

theorem Member.readable {m : Member} (h : m.Fits) : m.item.Readable true := by
  intro e gap rest hraw hat
  obtain ⟨e', hnext, hcomes⟩ := Entries.nextEntryRaw_member hat h
  refine ⟨⟨none, none, none, m.header, m.data.length, [.data m.data.length]⟩, e', ?_, rfl, rfl, rfl, rfl, hcomes⟩
  rw [Entries.nextEntry, if_pos hraw]
  exact hnext

/-- The raw entries of an archive that was built of members are those, in their order, each with its header
and its data, whatever each read of the archive gives, and whatever is read of a member before the next. -/
theorem members_come_back {ms : List Member} {labels : List (Act × Shown)} {r : Reader}
    (hms : ∀ m ∈ ms, m.Fits) (trailing : List UInt8) (chunk : Nat → Nat)
    (hrun : Run Reader.Step (.start (build ms ++ trailing) chunk true) labels r) :
    ∃ t, Run Tape.Step ⟨[], ms.map Member.item⟩ labels t := by
  have hbuild : build ms ++ trailing = written (ms.map Member.item) trailing := by
    rw [build_eq, written, List.flatMap_map, List.append_assoc]
    rfl
  rw [hbuild] at hrun
  refine reader_follows_tape ?_ chunk hrun
  intro i hi
  obtain ⟨m, hm, rfl⟩ := List.mem_map.mp hi
  exact Member.readable (hms m hm)

theorem fits_newGnu {data : List UInt8} (hdata : data.length < 8 ^ 11) :
    (Member.complete .newGnu data).Fits := by
  refine Member.fits_complete ?_ hdata
  rw [Header.get_newGnu (by decide) (by decide)]
  rfl

/-- The first of three members is read in part, the second is passed by, and the third is read to its
end. -/
theorem three_members : ∃ t, Run Tape.Step
    ⟨[], [Member.complete .newGnu [1, 2, 3], Member.complete .newGnu [4],
      Member.complete .newGnu [5, 6]].map Member.item⟩
    ((Reader.start (build [.complete .newGnu [1, 2, 3], .complete .newGnu [4],
      .complete .newGnu [5, 6]] ++ [9]) (fun pos => pos % 2) true).shows
        [.next, .read 2, .next, .next, .read 1, .read 5, .read 5, .next]) t := by
  have hms : ∀ m ∈ [Member.complete .newGnu [1, 2, 3], .complete .newGnu [4],
      .complete .newGnu [5, 6]], m.Fits := by
    simp only [List.forall_mem_cons]
    exact ⟨fits_newGnu (by decide), fits_newGnu (by decide), fits_newGnu (by decide),
      fun _ h => absurd h List.not_mem_nil⟩
  obtain ⟨r, hrun⟩ := Reader.run_shows (.start (build [.complete .newGnu [1, 2, 3],
    .complete .newGnu [4], .complete .newGnu [5, 6]] ++ [9]) (fun pos => pos % 2) true)
    [.next, .read 2, .next, .next, .read 1, .read 5, .read 5, .next]
  exact members_come_back hms [9] (fun pos => pos % 2) hrun

end Origel.Tar
