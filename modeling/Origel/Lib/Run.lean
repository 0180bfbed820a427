import Mathlib.Algebra.BigOperators.Group.List.Basic
import Mathlib.Algebra.GroupWithZero.Nat
import Mathlib.Data.List.Basic

/-! Runs of labelled transition systems, and the invariants they keep. -/
namespace Origel.Lib

variable {σ ι : Type*} {step step' : σ → ι → σ → Prop} {s s' s'' : σ} {i : ι} {is js : List ι}

/-- A run takes one step for each label. -/
inductive Run (step : σ → ι → σ → Prop) : σ → List ι → σ → Prop
  | nil {s : σ} : Run step s [] s
  | cons {s s' s'' : σ} {i : ι} {is : List ι} (h : step s i s') (hr : Run step s' is s'') :
      Run step s (i :: is) s''

namespace Run

theorem append (h : Run step s is s') (h' : Run step s' js s'') : Run step s (is ++ js) s'' := by
  induction h with
  | nil => exact h'
  | cons hs _ ih => exact .cons hs (ih h')

theorem snoc (h : Run step s is s') (hs : step s' i s'') : Run step s (is ++ [i]) s'' :=
  h.append (.cons hs .nil)

theorem mono (h : Run step s is s') (hs : ∀ s i s', step s i s' → step' s i s') :
    Run step' s is s' := by
  induction h with
  | nil => exact .nil
  | cons h _ ih => exact .cons (hs _ _ _ h) ih

/-- What every step keeps, a run keeps. -/
theorem invariant {I : σ → Prop} (hI : ∀ s i s', step s i s' → I s → I s')
    (h : Run step s is s') (hs : I s) : I s' := by
  induction h with
  | nil => exact hs
  | cons h _ ih => exact ih (hI _ _ _ h hs)

/-- A fold that ends is a run of its body. -/
theorem of_foldlM {f : σ → ι → Option σ} (h : is.foldlM f s = some s') :
    Run (fun s i s' => f s i = some s') s is s' := by
  induction is generalizing s with
  | nil =>
    cases h
    exact .nil
  | cons i is ih =>
    rw [List.foldlM_cons] at h
    obtain ⟨t, ht, h⟩ := Option.bind_eq_some_iff.mp h
    exact .cons ht (ih h)

/-- Forward simulation: a relation under which each step is matched by one with the same label. -/
theorem simulated {τ : Type*} {next : τ → ι → τ → Prop} {R : σ → τ → Prop} {t : τ}
    (hR : ∀ s t i s', R s t → step s i s' → ∃ t', next t i t' ∧ R s' t') (h : Run step s is s')
    (ht : R s t) : ∃ t', Run next t is t' ∧ R s' t' := by
  induction h generalizing t with
  | nil => exact ⟨t, .nil, ht⟩
  | cons hs _ ih =>
    obtain ⟨u, hu, hRu⟩ := hR _ _ _ _ ht hs
    obtain ⟨t', ht', hRt⟩ := ih hRu
    exact ⟨t', .cons hu ht', hRt⟩

/-- A run with more turns than a measure allows comes by its goal: each step that does not reach it keeps
the invariant, a turn lowers the measure, and a late arrival raises it by one at most. -/
theorem reaches {goal I : σ → Prop} {μ : σ → Nat} {turn late : ι → Bool}
    (hstep : ∀ s i s', step s i s' → I s →
      goal s' ∨ I s' ∧ μ s' + (turn i).toNat ≤ μ s + (late i).toNat)
    (h : Run step s is s') (hs : I s) (hcount : μ s + is.countP late < is.countP turn) :
    ∃ is₁ is₂ v, is = is₁ ++ is₂ ∧ Run step s is₁ v ∧ goal v ∧ Run step v is₂ s' := by
  induction h with
  | nil => exact absurd hcount (Nat.not_lt_zero _)
  | @cons s v s' i is hi hr ih =>
    rcases hstep s i v hi hs with hgoal | ⟨hv, hle⟩
    · exact ⟨[i], is, v, rfl, .cons hi .nil, hgoal, hr⟩
    · have hcount' : μ v + is.countP late < is.countP turn := by
        rw [List.countP_cons, List.countP_cons] at hcount
        cases hturn : turn i <;> cases hlate : late i <;> simp [hturn, hlate] at hle hcount <;> omega
      obtain ⟨is₁, is₂, u, rfl, hbefore, hgoal, hafter⟩ := ih hv hcount'
      exact ⟨i :: is₁, is₂, u, rfl, .cons hi hbefore, hgoal, hafter⟩

end Run

section Functions

variable {next : σ → ι → σ} {P I : σ → Prop} {C : σ → ι → Prop}

/-- `P` of every state that the steps `is` lead through from `s`. -/
def Throughout (next : σ → ι → σ) (P : σ → Prop) : σ → List ι → Prop
  | s, [] => P s
  | s, i :: is => P s ∧ Throughout next P (next s i) is

/-- `C` of every one of the steps `is` from `s`, in the state it is taken in. -/
def Each (next : σ → ι → σ) (C : σ → ι → Prop) : σ → List ι → Prop
  | _, [] => True
  | s, i :: is => C s i ∧ Each next C (next s i) is

instance Each.decidable [∀ s, DecidablePred (C s)] : ∀ s is, Decidable (Each next C s is)
  | _, [] => .isTrue trivial
  | s, i :: is =>
    have := Each.decidable (next s i) is
    inferInstanceAs (Decidable (C s i ∧ Each next C (next s i) is))

theorem throughout_of_each (hI : ∀ s i, I s → C s i → I (next s i)) (hP : ∀ s, I s → P s)
    (hs : I s) (h : Each next C s is) : Throughout next P s is := by
  induction is generalizing s with
  | nil => exact hP s hs
  | cons i is ih => exact ⟨hP s hs, ih (hI s i hs h.1) h.2⟩

/-- What holds throughout holds at the end. -/
theorem Throughout.last (h : Throughout next P s is) : P (is.foldl next s) := by
  induction is generalizing s with
  | nil => exact h
  | cons i is ih => exact ih h.2

/-- What every step keeps holds throughout. -/
theorem throughout_of_step (hP : ∀ s i, P s → P (next s i)) (hs : P s) :
    Throughout next P s is := by
  induction is generalizing s with
  | nil => exact hs
  | cons i is ih => exact ⟨hs, ih (hP s i hs)⟩

/-- What every step meets in the states that an invariant allows. -/
theorem each_of_step {D : σ → ι → Prop} (hI : ∀ s i, I s → I (next s i)) (hD : ∀ s i, I s → D s i)
    (hs : I s) : Each next D s is := by
  induction is generalizing s with
  | nil => trivial
  | cons i is ih => exact ⟨hD s i hs, ih (hI s i hs)⟩

/-- What each step of a run meets in the states that the invariant allows. -/
theorem each_of_each {D : σ → ι → Prop} (hI : ∀ s i, I s → C s i → I (next s i))
    (hD : ∀ s i, I s → C s i → D s i) (hs : I s) (h : Each next C s is) : Each next D s is := by
  induction is generalizing s with
  | nil => trivial
  | cons i is ih => exact ⟨hD s i hs h.1, ih (hI s i hs h.1) h.2⟩

/-- What each step adds to `w`, a run adds in total. -/
theorem foldl_add {w : σ → Nat} {v : ι → Nat} (hw : ∀ s i, C s i → w (next s i) = w s + v i)
    (h : Each next C s is) : w (is.foldl next s) = w s + (is.map v).sum := by
  induction is generalizing s with
  | nil => rfl
  | cons i is ih =>
    rw [List.foldl_cons, ih h.2, hw s i h.1, List.map_cons, List.sum_cons, Nat.add_assoc]

/-- A property that the steps with `C` keep and the others break. -/
theorem throughout_iff_each (hkeep : ∀ s i, P s → C s i → P (next s i))
    (hbreak : ∀ s i, P s → ¬ C s i → ¬ P (next s i)) (hs : P s) :
    Throughout next P s is ↔ Each next C s is := by
  constructor
  · intro h
    induction is generalizing s with
    | nil => trivial
    | cons i is ih =>
      have hnext : P (next s i) := by
        cases is with
        | nil => exact h.2
        | cons j js => exact h.2.1
      have hC : C s i := by
        by_contra hC
        exact hbreak s i hs hC hnext
      exact ⟨hC, ih hnext h.2⟩
  · exact throughout_of_each hkeep (fun _ h => h) hs

/-- A property of the states and one of the steps, which the steps with `C` keep and the others break. -/
theorem throughout_and_each_iff {D : σ → ι → Prop} (hI : ∀ s i, I s → I (next s i))
    (hkeep : ∀ s i, I s → P s → C s i → P (next s i) ∧ D s i)
    (hbreak : ∀ s i, I s → P s → P (next s i) → D s i → C s i) (hi : I s) (hs : P s) :
    Throughout next P s is ∧ Each next D s is ↔ Each next C s is := by
  induction is generalizing s with
  | nil => exact ⟨fun _ => trivial, fun _ => ⟨hs, trivial⟩⟩
  | cons i is ih =>
    constructor
    · rintro ⟨⟨_, hrest⟩, hD, heach⟩
      have hnext : P (next s i) := by
        cases is with
        | nil => exact hrest
        | cons j js => exact hrest.1
      exact ⟨hbreak s i hi hs hnext hD, (ih (hI s i hi) hnext).mp ⟨hrest, heach⟩⟩
    · rintro ⟨hC, heach⟩
      obtain ⟨hnext, hD⟩ := hkeep s i hi hs hC
      obtain ⟨hrest, hrest'⟩ := (ih (hI s i hi) hnext).mpr heach
      exact ⟨⟨hs, hrest⟩, hD, hrest'⟩

/-- Events that a monitor allows one after another, where its state stays related to the states of
the run that shows them. -/
theorem monitored {μ : Type*} {watch : μ → ι → μ} {A : μ → ι → Prop} {R : μ → σ → Prop} {m : μ}
    (hR : ∀ m s i s', R m s → step s i s' → A m i ∧ R (watch m i) s') (h : Run step s is s')
    (hs : R m s) : Each watch A m is ∧ R (is.foldl watch m) s' := by
  induction h generalizing m with
  | nil => exact ⟨trivial, hs⟩
  | cons hstep _ ih =>
    obtain ⟨hA, hnext⟩ := hR _ _ _ _ hs hstep
    obtain ⟨heach, hend⟩ := ih hnext
    exact ⟨⟨hA, heach⟩, hend⟩

end Functions

section Machines

variable {κ ε : Type*} {act : σ → κ → Option (ε × σ)} {cs : List κ} {es : List ε} {e : ε}

/-- The steps of a machine that goes on by choices, and shows an event at each. -/
def Chosen (act : σ → κ → Option (ε × σ)) (s : σ) (e : ε) (s' : σ) : Prop :=
  ∃ c, act s c = some (e, s')

/-- The events that a list of choices shows, and where it leads. -/
def play (act : σ → κ → Option (ε × σ)) : σ → List κ → Option (List ε × σ)
  | s, [] => some ([], s)
  | s, c :: cs => do
    let (e, s') ← act s c
    let (es, s'') ← play act s' cs
    some (e :: es, s'')

theorem run_of_play_eq (h : play act s cs = some (es, s')) : Run (Chosen act) s es s' := by
  induction cs generalizing s es with
  | nil =>
    cases h
    exact .nil
  | cons c cs ih =>
    obtain ⟨⟨e, s₁⟩, hact, hrest⟩ := Option.bind_eq_some_iff.mp h
    obtain ⟨⟨es, s₂⟩, hes, hend⟩ := Option.bind_eq_some_iff.mp hrest
    cases hend
    exact .cons ⟨c, hact⟩ (ih hes)

theorem run_of_play (h : (play act s cs).map Prod.fst = some es) :
    ∃ s', Run (Chosen act) s es s' := by
  obtain ⟨⟨es', s'⟩, hplay, rfl⟩ := Option.map_eq_some_iff.mp h
  exact ⟨s', run_of_play_eq hplay⟩

end Machines

end Origel.Lib
