import Mathlib.Logic.Function.Basic
import Origel.Lib.Run

/-! Objects that many use at once: what it is that each use of one happens at one point. -/
namespace Origel.Lib

open Function

/-- A moment in the use of an object: `p` asks it for `o`, what is asked for happens, `r` comes back. -/
inductive Moment (π ο ρ : Type*) where
  | call (p : π) (o : ο)
  | point (p : π)
  | ret (p : π) (r : ρ)
  deriving DecidableEq

/-- Nobody sees at which point it happens. -/
def Moment.seen {π ο ρ : Type*} : Moment π ο ρ → Bool
  | .point _ => false
  | _ => true

/-- How far a use is -/
inductive Stage (ο ρ : Type*) where
  | idle
  | called (o : ο)
  | done (r : ρ)
  deriving DecidableEq

/-- An object whose uses happen at one point, and those who use it -/
structure Atomic (σ π ο ρ : Type*) where
  state : σ
  stage : π → Stage ο ρ

namespace Atomic

variable {σ π ο ρ : Type*} [DecidableEq π] {does : σ → ο → ρ → σ → Prop} {a a' a'' : Atomic σ π ο ρ}
  {p : π} {o : ο} {r : ρ} {ms ms' : List (Moment π ο ρ)}

def new (s : σ) : Atomic σ π ο ρ := ⟨s, fun _ => .idle⟩

inductive Step (does : σ → ο → ρ → σ → Prop) :
    Atomic σ π ο ρ → Moment π ο ρ → Atomic σ π ο ρ → Prop
  | call {a : Atomic σ π ο ρ} {p : π} {o : ο} (h : a.stage p = .idle) :
      Step does a (.call p o) { a with stage := update a.stage p (.called o) }
  | point {a : Atomic σ π ο ρ} {p : π} {o : ο} {r : ρ} {s : σ} (h : a.stage p = .called o)
      (hdoes : does a.state o r s) : Step does a (.point p) ⟨s, update a.stage p (.done r)⟩
  | ret {a : Atomic σ π ο ρ} {p : π} {r : ρ} (h : a.stage p = .done r) :
      Step does a (.ret p r) { a with stage := update a.stage p .idle }

/-- What is seen may be points and all the calls and returns around them. -/
def Shows (does : σ → ο → ρ → σ → Prop) (a : Atomic σ π ο ρ) (seen : List (Moment π ο ρ))
    (a' : Atomic σ π ο ρ) : Prop :=
  ∃ ms, Run (Step does) a ms a' ∧ ms.filter Moment.seen = seen

theorem Shows.refl (a : Atomic σ π ο ρ) : Shows does a [] a := ⟨[], .nil, rfl⟩

theorem Shows.append (h : Shows does a ms a') (h' : Shows does a' ms' a'') :
    Shows does a (ms ++ ms') a'' := by
  obtain ⟨xs, hrun, rfl⟩ := h
  obtain ⟨ys, hrun', rfl⟩ := h'
  exact ⟨xs ++ ys, hrun.append hrun', List.filter_append xs ys⟩

theorem Shows.call (h : a.stage p = .idle) :
    Shows does a [.call p o] { a with stage := update a.stage p (.called o) } :=
  ⟨[.call p o], .cons (.call h) .nil, rfl⟩

theorem Shows.point {s : σ} (h : a.stage p = .called o) (hdoes : does a.state o r s) :
    Shows does a [] ⟨s, update a.stage p (.done r)⟩ :=
  ⟨[.point p], .cons (.point h hdoes) .nil, rfl⟩

theorem Shows.ret (h : a.stage p = .done r) :
    Shows does a [.ret p r] { a with stage := update a.stage p .idle } :=
  ⟨[.ret p r], .cons (.ret h) .nil, rfl⟩

end Atomic

variable {σ π ο ρ τ : Type*} [DecidableEq π] {does : σ → ο → ρ → σ → Prop}

/-- Between each call and its return there is a point, and done at these points the uses give what was
seen. -/
def Linearizable (does : σ → ο → ρ → σ → Prop) (s₀ : σ) (history : List (Moment π ο ρ)) : Prop :=
  ∃ a, Atomic.Shows does (.new s₀) history a

/-- A system that the object follows shows what the object does. -/
theorem shows_of_simulation {step : τ → List (Moment π ο ρ) → τ → Prop} {R : τ → Atomic σ π ο ρ → Prop}
    (hR : ∀ t a seen t', R t a → step t seen t' → ∃ a', Atomic.Shows does a seen a' ∧ R t' a')
    {t t' : τ} {a : Atomic σ π ο ρ} {seen : List (List (Moment π ο ρ))} (h : Run step t seen t')
    (ht : R t a) :
    ∃ a', Atomic.Shows does a seen.flatten a' ∧ R t' a' := by
  induction h generalizing a with
  | nil => exact ⟨a, .refl a, ht⟩
  | cons hs _ ih =>
    obtain ⟨b, hb, hRb⟩ := hR _ _ _ _ ht hs
    obtain ⟨a', ha', hRa⟩ := ih hRb
    exact ⟨a', hb.append ha', hRa⟩

end Origel.Lib
