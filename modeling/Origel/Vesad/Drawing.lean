import Origel.Vesad.Display

/-! What is drawn on a screen, pixel by pixel. -/
namespace Origel.Vesad

/-- A pixel of a rectangle, as far as the rectangle is on the screen -/
def Display.Clipped (d : Display) (x y w h p : Nat) : Prop :=
  p < d.size ∧ x ≤ p % d.width ∧ p % d.width < x + w ∧ y ≤ p / d.width ∧ p / d.width < y + h

instance (d : Display) (x y w h p : Nat) : Decidable (d.Clipped x y w h p) := instDecidableAnd

/-- `f` is done to the pixels of the rectangle, and the others are left alone. -/
def Display.Draws (d : Display) (x y w h : Nat) (f : Nat → Pixel → Pixel) (b b' : Buffer) : Prop :=
  ∀ p, b' p = if d.Clipped x y w h p then f p (b p) else b p

/-- The pixels are those so many rows down, and the last rows have the color. -/
def Display.Scrolls (d : Display) (rows : Nat) (color : Pixel) (b' : Buffer) : Prop :=
  ∀ p, b' p = if p < d.size then
    if p / d.width < d.height - rows then d.offscreen (p + rows * d.width) else color
  else d.offscreen p

/-- The rectangle begins on the screen, unless it has no rows or no columns. -/
def Display.Begins (d : Display) (x y w h : Nat) : Prop :=
  y < d.height ∧ (x < d.width ∨ h = 0) ∨ x < d.width ∧ w = 0

namespace Buffer

variable {b : Buffer} {f : Nat → Pixel → Pixel} {x y len stride n p : Nat}

/-- The pixels of a row are those with its number and one of its columns. -/
theorem mem_row_iff (hlen : x + len ≤ stride) :
    y * stride + x ≤ p ∧ p < y * stride + x + len ↔
      p / stride = y ∧ x ≤ p % stride ∧ p % stride < x + len := by
  have hsplit := Nat.div_add_mod' p stride
  constructor
  · intro ⟨hfrom, hto⟩
    have hrow : p / stride = y := by
      apply Nat.div_eq_of_lt_le
      · omega
      · rw [Nat.succ_mul]
        omega
    rw [hrow] at hsplit
    omega
  · intro ⟨hrow, hcol⟩
    rw [hrow] at hsplit
    omega

theorem rows_apply (hlen : x + len ≤ stride) :
    rows f stride len (y * stride + x) n b p =
      if y ≤ p / stride ∧ p / stride < y + n ∧ x ≤ p % stride ∧ p % stride < x + len then f p (b p)
      else b p := by
  induction n generalizing b y with
  | zero =>
    rw [if_neg (by omega)]
    rfl
  | succ n ih =>
    have hnext : y * stride + x + stride = (y + 1) * stride + x := by
      rw [Nat.succ_mul, Nat.add_right_comm]
    rw [rows, hnext, ih, span]
    simp only [mem_row_iff hlen]
    by_cases hrow : p / stride = y
    · rw [if_neg (by omega)]
      exact if_congr (by omega) rfl rfl
    · simp only [hrow, false_and, if_false]
      exact if_congr (by omega) rfl rfl

end Buffer

namespace Display

variable {d : Display} {b : Buffer} {f : Nat → Pixel → Pixel} {x y w h rows p : Nat}

/-- The row is not clamped, and at least one column or row is left where the start is. -/
theorem region_apply (hwidth : 0 < d.width) :
    d.region x y w h f b p =
      if y ≤ p / d.width ∧ p / d.width < y + (min d.height (y + h) - min (d.height - 1) y) ∧
          min (d.width - 1) x ≤ p % d.width ∧ p % d.width < max (min (d.width - 1) x) (min d.width (x + w))
      then f p (b p) else b p := by
  rw [region, Buffer.rows_apply (by omega)]
  exact if_congr (by omega) rfl rfl

/-- A row of the screen begins where those before it end. -/
theorem lt_size_iff (hwidth : 0 < d.width) : p < d.size ↔ p / d.width < d.height := by
  rw [size, Nat.mul_comm, Nat.div_lt_iff_lt_mul hwidth]

theorem clipped_iff (hwidth : 0 < d.width) :
    d.Clipped x y w h p ↔ p / d.width < d.height ∧ x ≤ p % d.width ∧ p % d.width < x + w ∧
      y ≤ p / d.width ∧ p / d.width < y + h := by
  rw [← lt_size_iff hwidth, Clipped]

theorem draws_of_begins (hwidth : 0 < d.width) (hbegins : d.Begins x y w h) :
    d.Draws x y w h f b (d.region x y w h f b) := by
  intro p
  have hcol := Nat.mod_lt p hwidth
  rw [region_apply hwidth]
  apply if_congr _ rfl rfl
  rw [clipped_iff hwidth]
  rw [Begins] at hbegins
  generalize p / d.width = row
  generalize p % d.width = col at hcol
  omega

/-- What is drawn of a rectangle that begins outside is its last column, or a row below the screen. -/
theorem begins_of_draws (hwidth : 0 < d.width) (hheight : 0 < d.height)
    (hdraws : d.Draws x y w h f b (d.region x y w h f b)) (hf : ∀ p, f p (b p) ≠ b p) :
    d.Begins x y w h := by
  by_contra hout
  rw [Begins] at hout
  have hcol : min (d.width - 1) x < d.width := by omega
  have hdrawn := hdraws (y * d.width + min (d.width - 1) x)
  have hrow : (y * d.width + min (d.width - 1) x) / d.width = y := by
    rw [Nat.mul_comm, Nat.mul_add_div hwidth, Nat.div_eq_of_lt hcol, Nat.add_zero]
  have hmod : (y * d.width + min (d.width - 1) x) % d.width = min (d.width - 1) x := by
    rw [Nat.mul_comm, Nat.mul_add_mod, Nat.mod_eq_of_lt hcol]
  have hclipped : ¬ d.Clipped x y w h (y * d.width + min (d.width - 1) x) := by
    rw [clipped_iff hwidth, hrow, hmod]
    omega
  rw [region_apply hwidth, if_neg hclipped, hrow, hmod, if_pos (by omega)] at hdrawn
  exact hf _ hdrawn

/-- The words that are moved make up whole rows only where the width is even. -/
theorem scrolls_of_even {color : Pixel} (hwidth : 0 < d.width) (hrows : 0 < rows)
    (hheight : rows < d.height) (heven : d.width % 2 = 0) :
    d.Scrolls rows color (d.scroll rows color).offscreen := by
  intro p
  have hpair : d.width = 2 * (d.width / 2) := by omega
  have hoff : 2 * (rows * (d.width / 2)) = rows * d.width := by
    rw [Nat.mul_left_comm, ← hpair]
  have hsize : 2 * (d.height * (d.width / 2)) = d.size := by
    rw [Nat.mul_left_comm, ← hpair, size, Nat.mul_comm]
  have hkept : p / d.width < d.height - rows ↔ p < d.size - rows * d.width := by
    rw [Nat.div_lt_iff_lt_mul hwidth, Nat.sub_mul, size, Nat.mul_comm d.width]
  have hle : rows * d.width ≤ d.size := by
    rw [size, Nat.mul_comm d.width]
    exact Nat.mul_le_mul_right _ (Nat.le_of_lt hheight)
  rw [scroll, if_pos ⟨hrows, hheight⟩]
  dsimp only
  simp only [hkept, hoff]
  by_cases hin : p < d.size
  · rw [if_pos hin]
    by_cases hmoved : p < d.size - rows * d.width
    · rw [if_pos hmoved, if_pos (by omega)]
    · rw [if_neg hmoved, if_neg (by omega), if_pos (by omega)]
  · rw [if_neg hin, if_neg (by omega), if_neg (by omega)]

/-- With an odd width the first pixel is taken from a column to the left of it. -/
theorem even_of_scrolls {color : Pixel} (hwidth : 0 < d.width) (hrows : 0 < rows)
    (hheight : rows < d.height) (hb : d.offscreen = fun p => if p = rows * d.width then 1 else 0)
    (hscrolls : d.Scrolls rows color (d.scroll rows color).offscreen) : d.width % 2 = 0 := by
  by_contra hodd
  have hpair : d.width = 2 * (d.width / 2) + 1 := by omega
  have hoff : rows * d.width = 2 * (rows * (d.width / 2)) + rows := by
    calc rows * d.width = rows * (2 * (d.width / 2) + 1) := by rw [← hpair]
      _ = 2 * (rows * (d.width / 2)) + rows := by rw [Nat.mul_succ, Nat.mul_left_comm]
  have hkept : 0 / d.width < d.height - rows := by
    rw [Nat.zero_div]
    omega
  have hzero : 0 < d.size := Nat.mul_pos hwidth (by omega)
  have hfirst := hscrolls 0
  rw [if_pos hzero, if_pos hkept, scroll, if_pos ⟨hrows, hheight⟩] at hfirst
  simp only [hb, Nat.zero_add, if_true] at hfirst
  split at hfirst
  · rw [if_neg (by omega)] at hfirst
    exact absurd hfirst (by decide)
  · rename_i hnone
    have hwords : rows * (d.width / 2) = 0 := by
      have hle : rows * (d.width / 2) ≤ d.height * (d.width / 2) :=
        Nat.mul_le_mul_right _ (Nat.le_of_lt hheight)
      have hcount : (d.height - rows) * (d.width / 2) = 0 := by
        rw [Nat.sub_mul]
        omega
      rcases Nat.mul_eq_zero.mp hcount with hheight' | hhalf
      · omega
      · rw [hhalf, Nat.mul_zero]
    rw [if_neg (by omega), if_neg (by omega)] at hfirst
    exact absurd hfirst (by decide)

end Display

section

variable {d : Display}

/-- A rectangle is drawn pixel by pixel where it begins on the screen or is empty, whatever is in the
buffers; the rows are moved up as they are where the width is even. -/
theorem drawn_clipped_iff (hwidth : 0 < d.width) (hheight : 0 < d.height) (x y w h rows : Nat)
    (color : Pixel) :
    ((∀ offscreen, { d with offscreen }.Draws x y w h (fun _ _ => color) offscreen
        ({ d with offscreen }.rect x y w h color).offscreen) ↔ d.Begins x y w h) ∧
    ((∀ offscreen, { d with offscreen }.Draws x y w h (fun _ old => ~~~old) offscreen
        ({ d with offscreen }.invert x y w h).offscreen) ↔ d.Begins x y w h) ∧
    ((∀ offscreen onscreen, { d with offscreen }.Draws x y w h (fun p _ => offscreen p) onscreen
        ({ d with offscreen }.sync x y w h onscreen)) ↔ d.Begins x y w h) ∧
    (0 < rows → rows < d.height →
      ((∀ offscreen, { d with offscreen }.Scrolls rows color
        ({ d with offscreen }.scroll rows color).offscreen) ↔ d.width % 2 = 0)) := by
  refine ⟨⟨fun hall => ?_, fun hbegins _ => ?_⟩, ⟨fun hall => ?_, fun hbegins _ => ?_⟩,
    ⟨fun hall => ?_, fun hbegins _ _ => ?_⟩, fun hrows hfew => ⟨fun hall => ?_, fun heven _ => ?_⟩⟩
  · apply Display.begins_of_draws hwidth hheight (hall fun _ => if color = 0 then 1 else 0)
    intro p
    change color ≠ if color = 0 then 1 else 0
    split
    · rename_i hzero
      rw [hzero]
      decide
    · assumption
  · exact Display.draws_of_begins hwidth hbegins
  · exact Display.begins_of_draws hwidth hheight (hall fun _ => 0)
      fun _ => (by decide : ~~~(0 : Pixel) ≠ 0)
  · exact Display.draws_of_begins hwidth hbegins
  · exact Display.begins_of_draws hwidth hheight (hall (fun _ => 0) fun _ => 1)
      fun _ => (by decide : (0 : Pixel) ≠ 1)
  · exact Display.draws_of_begins hwidth hbegins
  · exact Display.even_of_scrolls 
      (d := { d with offscreen := fun p => if p = rows * d.width then 1 else 0 })
      hwidth hrows hfew rfl (hall _)
  · exact Display.scrolls_of_even hwidth hrows hfew heven

end

theorem drawn_clipped_iff_two :
    (Display.mk 2 2 fun _ => 1).Draws 1 1 4 4 (fun _ old => ~~~old) (fun _ => 1)
      ((Display.mk 2 2 fun _ => 1).invert 1 1 4 4).offscreen :=
  (drawn_clipped_iff (d := ⟨2, 2, fun _ => 0⟩) (by decide) (by decide) 1 1 4 4 1 0).2.1.mpr
    (.inl ⟨by decide, .inl (by decide)⟩) fun _ => 1

/-- A rectangle below the screen is drawn below its buffer, and one to the right of it in the last column;
with three columns the pixels that move up move to the right too. -/
theorem drawn_below :
    ¬ (Display.mk 2 2 fun _ => 0).Draws 0 2 1 1 (fun _ _ => 1) (fun _ => 0)
      ((Display.mk 2 2 fun _ => 0).rect 0 2 1 1 1).offscreen ∧
    ¬ (Display.mk 2 2 fun _ => 0).Draws 2 0 1 1 (fun _ _ => 1) (fun _ => 0)
      ((Display.mk 2 2 fun _ => 0).rect 2 0 1 1 1).offscreen ∧
    ¬ (Display.mk 3 2 fun p => p.toUInt32).Scrolls 1 0
      ((Display.mk 3 2 fun p => p.toUInt32).scroll 1 0).offscreen := by
  refine ⟨fun h => ?_, fun h => ?_, fun h => ?_⟩
  · exact absurd (h 4) (by decide)
  · exact absurd (h 1) (by decide)
  · exact absurd (h 0) (by decide)

end Origel.Vesad
