import Mathlib.Data.List.Basic
import Mathlib.Logic.Function.Basic

/-! The hexadecimal dump of `hexdump`, and its reverse. -/
namespace Origel.Binutils

/-- `u8_to_hex` -/
def u8ToHex (b : UInt8) : UInt8 × UInt8 := (b >>> 4, b &&& 0b1111)

/-- `hex_to_u8` -/
def hexToU8 (digits : UInt8 × UInt8) : UInt8 := (digits.1 <<< 4) + digits.2

/-- `u32_byte_array`: the bytes, the highest one first -/
def u32ByteArray (int : UInt32) : List UInt8 :=
  [(int >>> 24).toUInt8, (int >>> 16).toUInt8, (int >>> 8).toUInt8, int.toUInt8]

/-- `hex_to_ascii` -/
def hexToAscii (b : UInt8) : UInt8 := if b ≤ 9 then 0x30 + b else 0x61 - 10 + b

/-- `ascii_to_hex`, whose differences wrap -/
def asciiToHex (b : UInt8) : UInt8 := if 0x30 ≤ b ∧ b ≤ 0x39 then b - 0x30 else b - 0x61 + 10

def isPrintable (b : UInt8) : Bool := 0x20 ≤ b && b ≤ 0x7e

/-- The two digits of a byte -/
def hexDigits (b : UInt8) : List UInt8 := [hexToAscii (u8ToHex b).1, hexToAscii (u8ToHex b).2]

/-- What stands for a byte in the last column -/
def shown (b : UInt8) : UInt8 := if isPrintable b then b else 0x2e

/-- What `encode` has left to read, what it has written, and the char buffer -/
structure Encoder where
  stdin : List UInt8
  stdout : List UInt8
  ascii : Nat → UInt8

namespace Encoder

variable (s : Encoder)

def write (buf : List UInt8) : Encoder := { s with stdout := s.stdout ++ buf }

/-- `encode_byte` -/
def encodeByte : Option UInt8 × Encoder :=
  match s.stdin with
  | [] => (none, s)
  | byte :: stdin => (some (shown byte), { s with stdin, stdout := s.stdout ++ hexDigits byte })

def setAscii (i : Nat) (x : UInt8) : Encoder := { s with ascii := Function.update s.ascii i x }

/-- `&ascii[..len]` -/
def asciiTo (len : Nat) : List UInt8 := (List.range len).map s.ascii

/-- The loop over the columns of a line, of which so many are left from the one with number `n`; with
`rem` where the input ends. -/
def groups : Nat → Nat → Encoder → Option Nat × Encoder
  | _, 0, s => (none, s)
  | n, k + 1, s =>
    match s.encodeByte with
    | (none, s) => (some n, s)
    | (some x, s) =>
      match (s.setAscii (n * 2) x).encodeByte with
      | (none, s) => (some n, s)
      | (some y, s) => groups (n + 1) k ((s.setAscii (n * 2 + 1) y).write [0x20])

/-- The first column -/
def address (line : UInt32) : Encoder :=
  s.write ((u32ByteArray (line * 16)).flatMap hexDigits ++ [0x3a, 0x20])

theorem groups_none {n k : Nat} {s s' : Encoder} (h : groups n k s = (none, s')) :
    s.stdin.length = s'.stdin.length + 2 * k := by
  induction k generalizing n s with
  | zero =>
    cases h
    rfl
  | succ k ih =>
    obtain ⟨stdin, stdout, ascii⟩ := s
    rcases stdin with _ | ⟨a, _ | ⟨b, stdin⟩⟩
    · cases h
    · cases h
    · have hrest := ih h
      simp only [write, setAscii] at hrest
      simp only [List.length_cons]
      omega

/-- The loop `'a`, with `rem` when it ends. What `writeln` writes for a buffer is a parameter. -/
def lines (writeln : List UInt8 → List UInt8) (line : UInt32) (s : Encoder) : Nat × Encoder :=
  match h : groups 0 8 (s.address line) with
  | (some rem, s') => (rem, s')
  | (none, s') => lines writeln (line + 1) ((s'.write [0x20]).write (writeln (s'.asciiTo 16)))
termination_by s.stdin.length
decreasing_by
  have hlength := groups_none h
  simp only [address, write] at hlength ⊢
  omega

end Encoder

/-- `encode`, whose char buffer begins with what there is in memory -/
def encode (writeln : List UInt8 → List UInt8) (memory : Nat → UInt8) (stdin : List UInt8) : List UInt8 :=
  let (rem, s) := Encoder.lines writeln 0 ⟨stdin, [], memory⟩
  let s := if rem ≠ 0 then (s.write (List.replicate (41 - rem * 5) 0x20)).write (s.asciiTo (rem * 2)) else s
  (s.write [0x0a]).stdout

/-- The loop over the bytes of a line, of which so many are left: what is written, and what is left to
read where the input does not end -/
def pairs : Nat → List UInt8 → List UInt8 × Option (List UInt8)
  | 0, text => ([], some text)
  | k + 1, h1 :: h2 :: text =>
    let (out, rest) := pairs k text
    (hexToU8 (asciiToHex h1, asciiToHex h2) :: out, rest)
  | _ + 1, _ => ([], none)

theorem pairs_length {k : Nat} {text out rest : List UInt8} (h : pairs k text = (out, some rest)) :
    text.length = rest.length + 2 * k := by
  induction k generalizing text out with
  | zero =>
    cases h
    rfl
  | succ k ih =>
    rcases text with _ | ⟨a, _ | ⟨b, text⟩⟩
    · cases h
    · cases h
    · obtain ⟨out', hout⟩ : ∃ out', pairs k text = (out', some rest) := by
        rw [pairs] at h
        obtain ⟨-, hrest⟩ := Prod.mk.inj h
        exact ⟨_, Prod.ext rfl hrest⟩
      have hlength := ih hout
      simp only [List.length_cons]
      omega

/-- The loop of `decode`, over the input without its blanks -/
def decodeLines (text : List UInt8) : List UInt8 :=
  match h : pairs 16 (text.drop 9) with
  | (out, none) => out
  | (out, some rest) =>
    match hrest : rest.dropWhile (· ≠ 0x0a) with
    | [] => out
    | _ :: text' => out ++ decodeLines text'
termination_by text.length
decreasing_by
  have hlength := pairs_length h
  have hle := (List.dropWhile_suffix (· ≠ 0x0a) (l := rest)).length_le
  rw [hrest, List.length_cons] at hle
  rw [List.length_drop] at hlength
  omega

def decode (stdin : List UInt8) : List UInt8 := decodeLines (stdin.filter (· ≠ 0x20))

section

variable {s : Encoder} {n k : Nat} {b : List UInt8}

/-- What `decode` reads of a text -/
def visible (text : List UInt8) : List UInt8 := text.filter (· ≠ 0x20)

theorem visible_append (t u : List UInt8) : visible (t ++ u) = visible t ++ visible u :=
  List.filter_append t u

theorem hexToU8_digits (b : UInt8) :
    hexToU8 (asciiToHex (hexToAscii (u8ToHex b).1), asciiToHex (hexToAscii (u8ToHex b).2)) = b := by
  have hall : ∀ n : Fin 256,
      hexToU8 (asciiToHex (hexToAscii (u8ToHex (.ofNat n.val)).1),
        asciiToHex (hexToAscii (u8ToHex (.ofNat n.val)).2)) = .ofNat n.val := by
    decide +kernel
  have hb := hall ⟨b.toNat, b.toNat_lt⟩
  rwa [UInt8.ofNat_toNat] at hb

theorem hexToAscii_ne_blank (b : UInt8) :
    hexToAscii (u8ToHex b).1 ≠ 0x20 ∧ hexToAscii (u8ToHex b).2 ≠ 0x20 := by
  have hall : ∀ n : Fin 256, hexToAscii (u8ToHex (.ofNat n.val)).1 ≠ 0x20 ∧
      hexToAscii (u8ToHex (.ofNat n.val)).2 ≠ 0x20 := by
    decide +kernel
  have hb := hall ⟨b.toNat, b.toNat_lt⟩
  rwa [UInt8.ofNat_toNat] at hb

theorem visible_digits (b : List UInt8) : visible (b.flatMap hexDigits) = b.flatMap hexDigits := by
  apply List.filter_eq_self.mpr
  intro x hx
  obtain ⟨byte, -, hmem⟩ := List.mem_flatMap.mp hx
  obtain ⟨hhigh, hlow⟩ := hexToAscii_ne_blank byte
  rcases List.mem_cons.mp hmem with rfl | hmem
  · exact decide_eq_true hhigh
  · rcases List.mem_singleton.mp hmem with rfl
    exact decide_eq_true hlow

/-- Only blanks are shown as blanks. -/
theorem shown_eq_blank {b : UInt8} : shown b = 0x20 ↔ b = 0x20 := by
  unfold shown
  constructor
  · intro h
    split at h
    · exact h
    · cases h
  · rintro rfl
    rfl

theorem shown_ne_newline (b : UInt8) : shown b ≠ 0x0a := by
  unfold shown isPrintable
  split
  · rintro rfl
    rename_i h
    cases h
  · decide

/-- What the columns of a line come to -/
structure Grouped (n k : Nat) (s : Encoder) (rem : Option Nat) (s' : Encoder) (text : List UInt8) :
    Prop where
  rem : rem = if 2 * k ≤ s.stdin.length then none else some (n + s.stdin.length / 2)
  stdin : s'.stdin = s.stdin.drop (2 * k)
  stdout : s'.stdout = s.stdout ++ text
  digits : visible text = (s.stdin.take (2 * k)).flatMap hexDigits
  before : ∀ i < 2 * n, s'.ascii i = s.ascii i
  ascii : ∀ i x, i < 2 * k → i < 2 * (s.stdin.length / 2) → s.stdin[i]? = some x →
    s'.ascii (2 * n + i) = shown x

theorem groups_spec (n k : Nat) (s : Encoder) :
    ∃ text, Grouped n k s (Encoder.groups n k s).1 (Encoder.groups n k s).2 text := by
  induction k generalizing n s with
  | zero =>
    exact ⟨[], (if_pos (Nat.zero_le _)).symm, rfl, (List.append_nil _).symm, rfl, fun _ _ => rfl, nofun⟩
  | succ k ih =>
    obtain ⟨stdin, stdout, ascii⟩ := s
    rcases stdin with _ | ⟨a, _ | ⟨b, stdin⟩⟩
    · refine ⟨[], ?_, rfl, (List.append_nil _).symm, rfl, fun _ _ => rfl, nofun⟩
      show some n = if 2 * (k + 1) ≤ 0 then none else some (n + 0 / 2)
      rw [if_neg (by omega)]
      rfl
    · refine ⟨hexDigits a, ?_, rfl, rfl, ?_, ?_, ?_⟩
      · show some n = if 2 * (k + 1) ≤ 1 then none else some (n + 1 / 2)
        rw [if_neg (by omega)]
        rfl
      · exact visible_digits [a]
      · intro i hi
        exact Function.update_of_ne (by omega) _ _
      · intro i _ _ hlt
        exact absurd (show i < 2 * (1 / 2) from hlt) (by omega)
    · obtain ⟨text, hrem, hstdin, hstdout, hdigits, hbefore, hascii⟩ := ih (n + 1)
        ⟨stdin, stdout ++ hexDigits a ++ hexDigits b ++ [0x20],
          Function.update (Function.update ascii (n * 2) (shown a)) (n * 2 + 1) (shown b)⟩
      refine ⟨hexDigits a ++ hexDigits b ++ [0x20] ++ text, ?_, ?_, ?_, ?_, ?_, ?_⟩
      · refine hrem.trans ?_
        simp only [List.length_cons]
        split
        · exact (if_pos (by omega)).symm
        · refine (congrArg some ?_).trans (if_neg (by omega)).symm
          omega
      · exact hstdin
      · refine hstdout.trans ?_
        simp only [List.append_assoc]
      · rw [visible_append, hdigits]
        show visible ([a, b].flatMap hexDigits ++ [0x20]) ++ _ = _
        rw [visible_append, visible_digits]
        rfl
      · intro i hi
        refine (hbefore i (by omega)).trans ?_
        exact (Function.update_of_ne (by omega) _ _).trans (Function.update_of_ne (by omega) _ _)
      · intro i x hi hlt hx
        rcases i with _ | _ | i
        · cases hx
          refine (hbefore (2 * n) (by omega)).trans ?_
          rw [Nat.mul_comm 2 n]
          exact (Function.update_of_ne (by omega) _ _).trans (Function.update_self _ _ _)
        · cases hx
          refine (hbefore (2 * n + 1) (by omega)).trans ?_
          rw [Nat.mul_comm 2 n]
          exact Function.update_self _ _ _
        · simp only [List.length_cons] at hlt
          have hrest := hascii i x (by omega) (by show i < 2 * (stdin.length / 2); omega) hx
          rwa [show 2 * (n + 1) + i = 2 * n + (i + 1 + 1) by omega] at hrest

variable {head col rest : List UInt8}

theorem pairs_digits (b : List UInt8) (k : Nat) (rest : List UInt8) :
    pairs (k + b.length) (b.flatMap hexDigits ++ rest) = (b ++ (pairs k rest).1, (pairs k rest).2) := by
  induction b with
  | nil => rfl
  | cons byte b ih =>
    show pairs (k + b.length + 1) (_ :: _ :: (b.flatMap hexDigits ++ rest)) = _
    rw [pairs, ih, hexToU8_digits]
    rfl

/-- A whole line gives its bytes. -/
theorem decodeLines_whole (hhead : head.length = 9) (hb : b.length = 16) (hcol : (0x0a : UInt8) ∉ col) :
    decodeLines (head ++ b.flatMap hexDigits ++ col ++ 0x0a :: rest) = b ++ decodeLines rest := by
  have hpairs : pairs 16 ((head ++ b.flatMap hexDigits ++ col ++ 0x0a :: rest).drop 9) =
      (b, some (col ++ 0x0a :: rest)) := by
    rw [List.append_assoc, List.append_assoc, ← hhead, List.drop_left]
    have h := pairs_digits b 0 (col ++ 0x0a :: rest)
    rw [Nat.zero_add, hb, pairs, List.append_nil] at h
    exact h
  have hskip : (col ++ 0x0a :: rest).dropWhile (· ≠ 0x0a) = 0x0a :: rest := by
    rw [List.dropWhile_append_of_pos]
    · rfl
    · intro x hx
      exact decide_eq_true fun h => hcol (h ▸ hx)
  rw [decodeLines]
  split
  next h =>
    rw [hpairs] at h
    cases h
  next h =>
    rw [hpairs] at h
    cases h
    split
    next hrest =>
      rw [hskip] at hrest
      cases hrest
    next hrest =>
      rw [hskip] at hrest
      cases hrest
      rfl

/-- The last line gives its bytes, and more where something but blanks is in its last column. -/
theorem decodeLines_last (hhead : head.length = 9) (hb : b.length < 16) :
    ∃ extra, decodeLines (head ++ b.flatMap hexDigits ++ (col ++ [0x0a])) = b ++ extra ∧
      (extra = [] ↔ col = []) := by
  obtain ⟨k, hk⟩ : ∃ k, k + 1 + b.length = 16 := ⟨15 - b.length, by omega⟩
  have hpairs : pairs 16 ((head ++ b.flatMap hexDigits ++ (col ++ [0x0a])).drop 9) =
      (b ++ (pairs (k + 1) (col ++ [0x0a])).1, (pairs (k + 1) (col ++ [0x0a])).2) := by
    rw [List.append_assoc, ← hhead, List.drop_left, ← hk, pairs_digits]
  rcases col with _ | ⟨c, col⟩
  · refine ⟨[], ?_, iff_of_true rfl rfl⟩
    rw [decodeLines]
    split
    next h =>
      rw [hpairs] at h
      exact (Prod.mk.inj h).1.symm
    next h =>
      rw [hpairs] at h
      cases h
  · obtain ⟨d, text, htext⟩ := List.exists_cons_of_ne_nil (show col ++ [(0x0a : UInt8)] ≠ [] by simp)
    obtain ⟨byte, out, hout⟩ : ∃ byte out, (pairs (k + 1) (c :: col ++ [0x0a])).1 = byte :: out := by
      rw [List.cons_append, htext]
      exact ⟨_, _, rfl⟩
    rw [hout] at hpairs
    have hne : ∀ more, b ++ byte :: out ++ more = b ++ (byte :: out ++ more) ∧
        (byte :: out ++ more = [] ↔ c :: col = []) :=
      fun more => ⟨List.append_assoc _ _ _, iff_of_false nofun nofun⟩
    rw [decodeLines]
    split
    next h =>
      rw [hpairs] at h
      refine ⟨byte :: out, (Prod.mk.inj h).1.symm, iff_of_false nofun nofun⟩
    next h =>
      rw [hpairs] at h
      obtain ⟨rfl, -⟩ := Prod.mk.inj h
      split
      next => exact ⟨byte :: out, rfl, iff_of_false nofun nofun⟩
      next => exact ⟨_, hne _⟩

/-- The bytes behind the last whole line -/
def lastLine (b : List UInt8) : List UInt8 := b.drop (16 * (b.length / 16))

/-- What the whole lines and the digits of the last one are, for `decode` -/
structure Dumped (b text : List UInt8) (rem : Nat) (ascii : Nat → UInt8) : Prop where
  remainder : rem = b.length % 16 / 2
  column : ∀ i x, i < 2 * rem → (lastLine b)[i]? = some x → ascii i = shown x
  decoded : ∀ col, ∃ extra, decodeLines (visible text ++ (col ++ [0x0a])) = b ++ extra ∧
    (extra = [] ↔ col = [])

theorem address_spec (line : UInt32) (s : Encoder) :
    ∃ head, s.address line = { s with stdout := s.stdout ++ head } ∧ (visible head).length = 9 := by
  refine ⟨_, rfl, ?_⟩
  rw [visible_append, visible_digits]
  rfl

variable {writeln : List UInt8 → List UInt8}

theorem lines_spec (hwriteln : ∀ buf, writeln buf = buf ++ [0x0a]) (line : UInt32) (s : Encoder) :
    ∃ text, (s.lines writeln line).2.stdout = s.stdout ++ text ∧
      Dumped s.stdin text (s.lines writeln line).1 (s.lines writeln line).2.ascii := by
  induction hn : s.stdin.length using Nat.strongRecOn generalizing s line with
  | ind n ih =>
    obtain ⟨head, haddress, hhead⟩ := address_spec line s
    obtain ⟨text, hgrouped⟩ := groups_spec 0 8 (s.address line)
    rw [Encoder.lines]
    split
    next rem s' h =>
      rw [h] at hgrouped
      obtain ⟨hrem, -, hstdout, hdigits, -, hascii⟩ := hgrouped
      rw [haddress] at hrem hstdout hdigits hascii
      split at hrem
      · cases hrem
      rename_i hlast
      have hlt : s.stdin.length < 16 := Nat.lt_of_not_le hlast
      obtain rfl := Option.some.inj hrem
      rw [List.take_of_length_le (Nat.le_of_lt hlt)] at hdigits
      have hwhole : lastLine s.stdin = s.stdin := by
        rw [lastLine, Nat.div_eq_of_lt hlt]
        rfl
      refine ⟨head ++ text, hstdout.trans (List.append_assoc _ _ _), ?_, ?_, ?_⟩
      · rw [Nat.zero_add, Nat.mod_eq_of_lt hlt]
      · intro i x hi hx
        rw [hwhole] at hx
        have hcell : s'.ascii (2 * 0 + i) = shown x := hascii i x (by omega) (by omega) hx
        rwa [Nat.mul_zero, Nat.zero_add] at hcell
      · intro col
        rw [visible_append, hdigits]
        exact decodeLines_last hhead hlt
    next s' h =>
      rw [h] at hgrouped
      obtain ⟨hrem, hstdin, hstdout, hdigits, -, hascii⟩ := hgrouped
      rw [haddress] at hrem hstdin hstdout hdigits hascii
      split at hrem
      rotate_left
      · cases hrem
      rename_i hle
      have hle : 16 ≤ s.stdin.length := hle
      have hstdin : s'.stdin = s.stdin.drop 16 := hstdin
      have hlength : (s.stdin.take 16).length = 16 := List.length_take_of_le hle
      obtain ⟨text', hstdout', hremainder, hcolumn, hdecoded⟩ :=
        ih s'.stdin.length (by rw [hstdin, List.length_drop]; omega) (line + 1)
          ((s'.write [0x20]).write (writeln (s'.asciiTo 16))) rfl
      have hsplit : s.stdin = s.stdin.take 16 ++ s'.stdin := by rw [hstdin, List.take_append_drop]
      refine ⟨head ++ text ++ [0x20] ++ writeln (s'.asciiTo 16) ++ text', ?_, ?_, ?_, ?_⟩
      · rw [hstdout']
        show s'.stdout ++ [0x20] ++ writeln (s'.asciiTo 16) ++ text' = _
        rw [hstdout]
        simp only [List.append_assoc]
      · rw [hremainder]
        show s'.stdin.length % 16 / 2 = s.stdin.length % 16 / 2
        rw [hstdin, List.length_drop, ← Nat.mod_eq_sub_mod hle]
      · intro i x hi hx
        refine hcolumn i x hi ?_
        have hsame : lastLine s'.stdin = lastLine s.stdin := by
          rw [lastLine, lastLine, hstdin, List.drop_drop, List.length_drop]
          exact congrArg (s.stdin.drop ·) (by omega)
        exact hsame ▸ hx
      · intro col
        obtain ⟨extra, hextra, hiff⟩ := hdecoded col
        have hnewline : (0x0a : UInt8) ∉ visible (s'.asciiTo 16) := by
          intro hmem
          obtain ⟨i, hi, hcell⟩ := List.mem_map.mp (List.mem_of_mem_filter hmem)
          have hlt : i < s.stdin.length := Nat.lt_of_lt_of_le (List.mem_range.mp hi) hle
          have hshown : s'.ascii (2 * 0 + i) = shown s.stdin[i] :=
            hascii i _ (List.mem_range.mp hi) (by have := List.mem_range.mp hi; omega)
              (List.getElem?_eq_getElem hlt)
          rw [Nat.mul_zero, Nat.zero_add, hcell] at hshown
          exact shown_ne_newline _ hshown.symm
        refine ⟨extra, ?_, hiff⟩
        have hblank : visible [0x20] = [] := rfl
        have hend : visible [0x0a] = [0x0a] := rfl
        rw [hwriteln, visible_append, visible_append, visible_append, visible_append, visible_append,
          hblank, hend, hdigits, List.append_nil]
        have hwhole : decodeLines (visible head ++ (s.stdin.take 16).flatMap hexDigits ++
            visible (s'.asciiTo 16) ++ 0x0a :: (visible text' ++ (col ++ [0x0a]))) = _ :=
          decodeLines_whole hhead hlength hnewline
        rw [hextra] at hwhole
        refine (Eq.trans (congrArg decodeLines ?_) hwhole).trans ?_
        · simp only [List.append_assoc, List.cons_append, List.nil_append]
        · rw [← List.append_assoc]
          exact congrArg (· ++ extra) hsplit.symm

/-- What is dumped is read back just where the last line has an even part of blanks. -/
theorem decode_encode_iff (writeln : List UInt8 → List UInt8)
    (hwriteln : ∀ buf, writeln buf = buf ++ [0x0a]) (memory : Nat → UInt8) (b : List UInt8) :
    decode (encode writeln memory b) = b ↔
      ∀ x ∈ (b.drop (16 * (b.length / 16))).take (2 * (b.length % 16 / 2)), x = 0x20 := by
  obtain ⟨text, hstdout, hrem, hascii, hdecoded⟩ := lines_spec hwriteln 0 ⟨b, [], memory⟩
  rw [List.nil_append] at hstdout
  generalize hlines : Encoder.lines writeln 0 ⟨b, [], memory⟩ = result at hstdout hrem hascii hdecoded
  obtain ⟨rem, s⟩ := result
  have hdecode : decode (encode writeln memory b) =
      decodeLines (visible text ++ (visible (s.asciiTo (rem * 2)) ++ [0x0a])) := by
    have hend : visible [0x0a] = [0x0a] := rfl
    have hpad : ∀ n, visible (List.replicate n 0x20) = [] := by
      intro n
      rw [visible, List.filter_replicate]
      rfl
    rw [encode, hlines]
    show decodeLines (visible (Encoder.write _ [0x0a]).stdout) = _
    refine congrArg decodeLines ?_
    rw [Encoder.write, visible_append, hend]
    split
    · rw [Encoder.write, Encoder.write, visible_append, visible_append, hpad, List.append_nil, ← hstdout,
        List.append_assoc]
    · rename_i hzero
      rw [not_not.mp hzero, ← hstdout]
      rfl
  obtain ⟨extra, hextra, hiff⟩ := hdecoded (visible (s.asciiTo (rem * 2)))
  rw [hdecode, hextra]
  refine Iff.trans ⟨fun h => List.append_cancel_left (h.trans (List.append_nil b).symm), fun h => ?_⟩
    (hiff.trans ?_)
  · rw [h, List.append_nil]
  have hcolumn : s.asciiTo (rem * 2) = ((lastLine b).take (2 * (b.length % 16 / 2))).map shown := by
    have hrem : rem = b.length % 16 / 2 := hrem
    have hlength : (lastLine b).length = b.length % 16 := by
      rw [lastLine, List.length_drop]
      omega
    apply List.ext_getElem
    · rw [Encoder.asciiTo, List.length_map, List.length_map, List.length_range, List.length_take, hlength]
      omega
    · intro i hi hi'
      rw [Encoder.asciiTo, List.length_map, List.length_range] at hi
      have hlt : i < (lastLine b).length := by omega
      have hcell : s.ascii i = shown (lastLine b)[i] :=
        hascii i _ (by show i < 2 * rem; omega) (List.getElem?_eq_getElem hlt)
      simp only [Encoder.asciiTo, List.getElem_map, List.getElem_range, List.getElem_take, hcell]
  rw [hcolumn, visible, List.filter_eq_nil_iff, List.forall_mem_map]
  refine forall₂_congr fun x _ => ?_
  rw [decide_eq_true_iff, ne_eq, not_not, shown_eq_blank]

theorem decode_encode_iff_blanks :
    decode (encode (· ++ [0x0a]) (fun _ => 0) [0x20, 0x20, 0x41]) = [0x20, 0x20, 0x41] :=
  (decode_encode_iff (· ++ [0x0a]) (fun _ => rfl) (fun _ => 0) [0x20, 0x20, 0x41]).mpr
    (List.forall_mem_cons.mpr ⟨rfl, List.forall_mem_singleton.mpr rfl⟩)

/-- Of the dump of `AB`, with both characters in the last column, a third byte is read. -/
theorem characters_decoded :
    encode (· ++ [0x0a]) (fun _ => 0) [0x41, 0x42] = List.replicate 8 0x30 ++ [0x3a, 0x20] ++
      [0x34, 0x31, 0x34, 0x32, 0x20] ++ List.replicate 36 0x20 ++ [0x41, 0x42, 0x0a] ∧
      decode (encode (· ++ [0x0a]) (fun _ => 0) [0x41, 0x42]) = [0x41, 0x42, 0x8b] := by
  have hencode : encode (· ++ [0x0a]) (fun _ => 0) [0x41, 0x42] = List.replicate 8 0x30 ++ [0x3a, 0x20] ++
      [0x34, 0x31, 0x34, 0x32, 0x20] ++ List.replicate 36 0x20 ++ [0x41, 0x42, 0x0a] := by
    rw [encode, Encoder.lines]
    rfl
  refine ⟨hencode, ?_⟩
  rw [hencode, decode, decodeLines]
  rfl

end

end Origel.Binutils
