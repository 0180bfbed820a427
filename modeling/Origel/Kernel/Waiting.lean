import Mathlib.Data.List.Forall2
import Mathlib.Data.List.Nodup
import Mathlib.Data.List.Perm.Basic
import Mathlib.Logic.Function.Basic
import Origel.Kernel.Process
import Origel.Lib.Casts
import Origel.Lib.Run

/-! Contexts that wait: for a time, for a condition, for a futex, for a child; and the switch from one
context to the next. -/
namespace Origel.Kernel.Waiting

open Origel.Lib

/-- A point in time: seconds and nanoseconds. -/
structure Time where
  sec : Nat
  nsec : Nat
  deriving DecidableEq, Repr

def NANOS : Nat := 1000000000

def Time.nanos (t : Time) : Nat := t.sec * NANOS + t.nsec

/-- The fields of a context that waiting is about. There is one processor, so every context is its
own. -/
structure Context where
  status : Status Unit
  wake : Option Time
  pending : List Nat
  running : Bool
  deriving DecidableEq, Repr

namespace Context

/-- `Context::new`, once it is set running -/
def new : Context := ⟨.runnable, none, [], false⟩

def block (c : Context) : Context := { c with status := c.status.block }

def unblock (c : Context) : Context := { c with status := c.status.unblock }

end Context

/-- What a blocked context waits for, other than time. The conditions are those of pipes, of
`waitpid` and of the schemes of user space. -/
inductive Notifier where
  | condition (k : Nat)
  | futex (addr : Nat)
  | vfork (child : Nat)
  deriving DecidableEq, Repr

/-- The contexts and who still has to wake them. `vforks` has the parent that a child lets go on.
`why` is what a context that is blocked waits for, with none for time; `sleeps` is the time before
which the `nanosleep` of a context must not return. -/
structure World where
  pids : List Nat
  ctx : Nat → Context
  current : Nat
  clock : Time
  conditions : Nat → List Nat
  futexes : List (Nat × Nat)
  vforks : Nat → Option Nat
  why : Nat → Option Notifier
  sleeps : Nat → Option Int

/-- The first context: it runs when there is nothing else, and never calls. -/
def idle : Nat := 1

namespace World

def set (w : World) (p : Nat) (c : Context) : World := { w with ctx := Function.update w.ctx p c }

def unblock (w : World) (p : Nat) : World := w.set p (w.ctx p).unblock

def unblockAll (w : World) : List Nat → World
  | [] => w
  | p :: ps => (w.unblock p).unblockAll ps

/-- The current context is blocked, for a reason. -/
def block (w : World) (why : Option Notifier) : World :=
  { w.set w.current (w.ctx w.current).block with why := Function.update w.why w.current why }

end World

/-- `current.0 > wake.0 || (current.0 == wake.0 && current.1 >= wake.1)` -/
def due (now wake : Time) : Bool := now.sec > wake.sec ∨ (now.sec = wake.sec ∧ now.nsec ≥ wake.nsec)

/-- `check_context`: the context, and whether it is the next to run. -/
def checkContext (now : Time) (c : Context) : Context × Bool :=
  let c := if c.status = .blocked ∧ c.pending ≠ [] then c.unblock else c
  let c := match c.wake with
    | some wake => if c.status = .blocked ∧ due now wake then c.unblock else c
    | none => c
  (c, c.status = .runnable ∧ c.running = false)

/-- The loop over contexts, up to the first that is to run next. -/
def scan (now : Time) : List Nat → (Nat → Context) → (Nat → Context) × Option Nat
  | [], ctx => (ctx, none)
  | p :: ps, ctx =>
    let r := checkContext now (ctx p)
    let ctx := Function.update ctx p r.1
    if r.2 then (ctx, some p) else scan now ps ctx

/-- The two loops of `switch`: contexts after the current one, then those before it. -/
def nextContext (w : World) : (Nat → Context) × Option Nat :=
  match scan w.clock (w.pids.filter (· > w.current)) w.ctx with
  | (ctx, some p) => (ctx, some p)
  | (ctx, none) => scan w.clock (w.pids.filter (· < w.current)) ctx

/-- `switch`. The context that goes on has come back from its sleep, if it was in one; with a signal
it goes to the handler first, which exits. With nothing to switch to, the current one goes on. -/
def switch (w : World) : World :=
  match nextContext w with
  | (ctx, none) => { w with ctx, sleeps := Function.update w.sleeps w.current none }
  | (ctx, some p) =>
    let ctx := Function.update ctx w.current { ctx w.current with running := false }
    let ctx := Function.update ctx p { ctx p with running := true, pending := (ctx p).pending.tail }
    { w with ctx, current := p, sleeps := Function.update w.sleeps p none }

/-- A signed number with so many bits besides its sign. Of a `TimeSpec`, `tv_sec` is an `i64` and
`tv_nsec` an `i32`. -/
abbrev Signed (bits : Nat) (x : Int) : Prop := -2 ^ bits ≤ x ∧ x < 2 ^ bits

/-- The end of a sleep that starts now. -/
def sleepEnd (start : Time) (sec nsec : Int) : Time :=
  let sum := (start.nsec + asU64 nsec) % 2 ^ 64
  ⟨(start.sec + asU64 sec + sum / NANOS) % 2 ^ 64, sum % NANOS⟩

def nanosleep (w : World) (sec nsec : Int) : World :=
  let w' := w.set w.current { w.ctx w.current with wake := some (sleepEnd w.clock sec nsec) }
  { w'.block none with
    sleeps := Function.update w.sleeps w.current (some (w.clock.nanos + sec * NANOS + nsec)) }

/-- `WaitCondition::wait`, up to the switch -/
def wait (w : World) (k : Nat) : World :=
  { w.block (some (.condition k)) with
    conditions := Function.update w.conditions k (w.conditions k ++ [w.current]) }

/-- `WaitCondition::notify`: contexts are taken from the end. -/
def notify (w : World) (k : Nat) : World :=
  { w.unblockAll (w.conditions k).reverse with conditions := Function.update w.conditions k [] }

/-- `VecDeque::swap_remove_back`, without the element -/
def swapRemoveBack {α : Type} (l : List α) (i : Nat) : List α :=
  match l.getLast? with
  | some last => (l.set i last).dropLast
  | none => l

/-- `as i32` -/
def asI32 (n : Nat) : Int := Int.bmod n (2 ^ 32)

/-- The loop that wakes: the list, the contexts that were woken, and where it stopped. Each round
leaves one element less to look at. -/
def wakeLoop (addr : Nat) (val : Int) :
    Nat → Nat → List (Nat × Nat) → List Nat → List (Nat × Nat) × List Nat × Nat
  | 0, i, l, woken => (l, woken, i)
  | fuel + 1, i, l, woken =>
    if asI32 woken.length < val then
      match l[i]? with
      | none => (l, woken, i)
      | some e =>
        if e.1 = addr then wakeLoop addr val fuel i (swapRemoveBack l i) (woken ++ [e.2])
        else wakeLoop addr val fuel (i + 1) l woken
    else (l, woken, i)

/-- The loop that moves up to `n` waiters to another address. -/
def retarget (addr addr2 : Nat) : Nat → List (Nat × Nat) → List (Nat × Nat)
  | _, [] => []
  | 0, l => l
  | n + 1, e :: l =>
    if e.1 = addr then (addr2, e.2) :: retarget addr addr2 n l
    else e :: retarget addr addr2 (n + 1) l

/-- `FUTEX_WAIT` once the value has been found to be the expected one, up to the switch -/
def futexWait (w : World) (addr : Nat) : World :=
  { w.block (some (.futex addr)) with futexes := w.futexes ++ [(addr, w.current)] }

/-- `FUTEX_WAKE`, with the contexts that it counts -/
def futexWake (w : World) (addr : Nat) (val : Int) : List Nat × World :=
  let r := wakeLoop addr val w.futexes.length 0 w.futexes []
  (r.2.1, { w.unblockAll r.2.1 with futexes := r.1 })

/-- Some contexts are woken, and of the others that the list has left some wait at another address. -/
def World.requeued (w : World) (addr addr2 : Nat) (woken : List Nat) (l : List (Nat × Nat)) : World :=
  { w.unblockAll woken with
    futexes := l
    why := fun p => if w.why p = some (.futex addr) ∧ (addr2, p) ∈ l then some (.futex addr2)
      else w.why p }

/-- `FUTEX_REQUEUE`, with the contexts that it counts -/
def futexRequeue (w : World) (addr addr2 : Nat) (val : Int) (val2 : Nat) : List Nat × World :=
  let r := wakeLoop addr val w.futexes.length 0 w.futexes []
  (r.2.1, w.requeued addr addr2 r.2.1
    (r.1.take r.2.2 ++ retarget addr addr2 val2 (r.1.drop r.2.2)))

/-- `clone`: a child comes in, and after a `vfork` the parent is blocked. -/
def clone (w : World) (child : Nat) (vfork : Bool) : World :=
  let w' := if vfork then
    { w.block (some (.vfork child)) with vforks := Function.update w.vforks child (some w.current) }
  else w
  { w'.set child Context.new with
    pids := w.pids.filter (· < child) ++ child :: w.pids.filter (· > child) }

/-- What `exec` and `exit` of a child do for its parent. -/
def vforkDone (w : World) (child : Nat) : World :=
  match w.vforks child with
  | some parent => { w.unblock parent with vforks := Function.update w.vforks child none }
  | none => w

/-- What happens: calls of the current context, and events. The switch that follows a call that
blocks is a step of its own. -/
inductive Act where
  | nanosleep (sec nsec : Int)
  | wait (k : Nat)
  | notify (k : Nat)
  | futexWait (addr : Nat)
  | futexWake (addr : Nat) (val : Int)
  | futexRequeue (addr addr2 : Nat) (val : Int) (val2 : Nat)
  | clone (child : Nat) (vfork : Bool)
  | vforkDone (child : Nat)
  | exit
  | signal (p sig : Nat)
  | tick (now : Time)
  | switch

/-- The current context can make a call: it is not on its way into a switch. -/
def World.calls (w : World) : Bool := (w.ctx w.current).status = .runnable ∧ w.current ≠ idle

def World.act (w : World) : Act → Option World
  | .nanosleep sec nsec =>
    if w.calls ∧ Signed 63 sec ∧ Signed 31 nsec then some (Waiting.nanosleep w sec nsec) else none
  | .wait k => if w.calls then some (Waiting.wait w k) else none
  | .notify k => some (Waiting.notify w k)
  | .futexWait addr => if w.calls then some (Waiting.futexWait w addr) else none
  | .futexWake addr val => if w.calls then some (Waiting.futexWake w addr val).2 else none
  | .futexRequeue addr addr2 val val2 =>
    if w.calls then some (Waiting.futexRequeue w addr addr2 val val2).2 else none
  | .clone child vfork =>
    if w.calls ∧ child ∉ w.pids then some (Waiting.clone w child vfork) else none
  | .vforkDone child => some (Waiting.vforkDone w child)
  | .exit => if w.calls then some (w.set w.current { w.ctx w.current with status := .exited () }) else none
  | .signal p sig => some (w.set p { w.ctx p with pending := (w.ctx p).pending ++ [sig] })
  | .tick now => if w.clock.nanos ≤ now.nanos ∧ now.nsec < NANOS then some { w with clock := now } else none
  | .switch => some (Waiting.switch w)

def Step (P : World → Act → Prop) (w : World) (act : Act) (w' : World) : Prop :=
  P w act ∧ w.act act = some w'

/-- The first context and one more. -/
def boot : World where
  pids := [1, 2]
  ctx p := if p = 1 then { Context.new with running := true } else Context.new
  current := 1
  clock := ⟨0, 0⟩
  conditions _ := []
  futexes := []
  vforks _ := none
  why _ := none
  sleeps _ := none

variable {w w' : World} {c c' : Context} {now : Time} {p q k : Nat}

theorem Context.unblock_of_blocked (h : c.status = .blocked) :
    c.unblock = { c with status := .runnable } := by
  rw [unblock, h]
  rfl

theorem Context.unblock_of_ne (h : c.status ≠ .blocked) : c.unblock = c := by
  obtain ⟨status, wake, pending, running⟩ := c
  cases status with
  | runnable => rfl
  | blocked => exact (h rfl).elim
  | exited => rfl

@[simp] theorem Context.unblock_unblock (c : Context) : c.unblock.unblock = c.unblock := by
  by_cases h : c.status = .blocked
  · rw [unblock_of_blocked h]
    exact unblock_of_ne (by simp)
  · rw [unblock_of_ne h, unblock_of_ne h]

theorem Context.unblock_not_blocked (c : Context) : c.unblock.status ≠ .blocked := by
  by_cases h : c.status = .blocked
  · simp [unblock_of_blocked h]
  · rwa [unblock_of_ne h]

theorem Context.block_of_runnable (h : c.status = .runnable) :
    c.block = { c with status := .blocked } := by
  rw [block, h]
  rfl

theorem unblockAll_eq (w : World) (ps : List Nat) : w.unblockAll ps =
    { w with ctx := fun p => if p ∈ ps then (w.ctx p).unblock else w.ctx p } := by
  induction ps generalizing w with
  | nil => simp [World.unblockAll]
  | cons q ps ih =>
    rw [World.unblockAll, ih]
    congr 1
    funext p
    by_cases hp : p = q
    · subst hp
      by_cases hps : p ∈ ps <;> simp [World.unblock, World.set, hps]
    · simp [World.unblock, World.set, hp]

/-- What the scheduler may do to a context: nothing, or wake it because a signal is pending or its
time has come. -/
def Checked (now : Time) (c c' : Context) : Prop :=
  c' = c ∨ c.status = .blocked ∧ (c.pending ≠ [] ∨ ∃ wake, c.wake = some wake ∧ due now wake = true) ∧
    c' = { c with status := .runnable }

theorem Checked.rest (h : Checked now c c') :
    c'.wake = c.wake ∧ c'.pending = c.pending ∧ c'.running = c.running := by
  rcases h with rfl | ⟨-, -, rfl⟩ <;> exact ⟨rfl, rfl, rfl⟩

theorem Checked.runnable (h : Checked now c c') (hs : c.status = .runnable) : c'.status = .runnable := by
  rcases h with rfl | ⟨-, -, rfl⟩
  · exact hs
  · rfl

theorem Checked.blocked (h : Checked now c c') (hs : c'.status = .blocked) : c.status = .blocked := by
  rcases h with rfl | ⟨hb, -, -⟩
  · exact hs
  · exact hb

theorem Checked.trans {c'' : Context} (h : Checked now c c') (h' : Checked now c' c'') :
    Checked now c c'' := by
  rcases h with rfl | ⟨hb, hcause, rfl⟩
  · exact h'
  · rcases h' with rfl | ⟨hb', -, -⟩
    · exact .inr ⟨hb, hcause, rfl⟩
    · cases hb'

theorem checkContext_checked (now : Time) (c : Context) : Checked now c (checkContext now c).1 := by
  by_cases hp : c.status = .blocked ∧ c.pending ≠ []
  · have h1 : (checkContext now c).1 = { c with status := .runnable } := by
      cases hw : c.wake <;> simp [checkContext, hp, Context.unblock_of_blocked, hw]
    exact .inr ⟨hp.1, .inl hp.2, h1⟩
  · cases hw : c.wake with
    | none =>
      refine .inl ?_
      simp only [checkContext, if_neg hp, hw]
    | some wake =>
      by_cases hd : c.status = .blocked ∧ due now wake = true
      · refine .inr ⟨hd.1, .inr ⟨wake, hw, hd.2⟩, ?_⟩
        simp only [checkContext, if_neg hp, hw, if_pos hd, Context.unblock_of_blocked hd.1]
      · refine .inl ?_
        simp only [checkContext, if_neg hp, hw, if_neg hd]

/-- A context that is chosen is runnable and not running. -/
theorem checkContext_chosen (h : (checkContext now c).2 = true) :
    (checkContext now c).1.status = .runnable ∧ (checkContext now c).1.running = false := by
  simpa [checkContext] using h

/-- A context that is ready stays as it is, and is chosen. -/
theorem checkContext_ready (hs : c.status = .runnable) (hr : c.running = false) :
    checkContext now c = (c, true) := by
  cases hw : c.wake <;> simp [checkContext, hs, hr, hw]

theorem scan_checked (now : Time) (ps : List Nat) (ctx : Nat → Context) (p : Nat) :
    Checked now (ctx p) ((scan now ps ctx).1 p) := by
  induction ps generalizing ctx with
  | nil => exact .inl rfl
  | cons q ps ih =>
    have hone : Checked now (ctx p) (Function.update ctx q (checkContext now (ctx q)).1 p) := by
      by_cases hp : p = q
      · subst hp
        rw [Function.update_self]
        exact checkContext_checked now (ctx p)
      · rw [Function.update_of_ne hp]
        exact .inl rfl
    rw [scan]
    split
    · exact hone
    · exact hone.trans (ih _)

theorem scan_chosen {ps : List Nat} {ctx : Nat → Context} (h : (scan now ps ctx).2 = some p) :
    p ∈ ps ∧ ((scan now ps ctx).1 p).status = .runnable ∧ ((scan now ps ctx).1 p).running = false := by
  induction ps generalizing ctx with
  | nil => cases h
  | cons q ps ih =>
    rw [scan] at h ⊢
    split at h
    · rename_i hc
      cases h
      rw [if_pos hc]
      dsimp only
      rw [Function.update_self]
      exact ⟨List.mem_cons_self, checkContext_chosen hc⟩
    · rename_i hc
      rw [if_neg hc]
      obtain ⟨hmem, hrest⟩ := ih h
      exact ⟨List.mem_cons_of_mem _ hmem, hrest⟩

/-- A scan that comes by a ready context chooses one. -/
theorem scan_ready {ps : List Nat} {ctx : Nat → Context} (hp : p ∈ ps)
    (hs : (ctx p).status = .runnable) (hr : (ctx p).running = false) :
    (scan now ps ctx).2 ≠ none := by
  induction ps generalizing ctx with
  | nil => cases hp
  | cons q ps ih =>
    rw [scan]
    split
    · exact Option.some_ne_none _
    · rename_i hc
      by_cases hpq : p = q
      · subst hpq
        rw [checkContext_ready hs hr] at hc
        exact (hc rfl).elim
      · refine ih ((List.mem_cons.mp hp).resolve_left hpq) ?_ ?_
        · rw [Function.update_of_ne hpq]
          exact hs
        · rw [Function.update_of_ne hpq]
          exact hr

/-- The current context looks for another one. -/
theorem nextContext_spec (w : World) :
    (∀ p, Checked w.clock (w.ctx p) ((nextContext w).1 p)) ∧
    (∀ p, (nextContext w).2 = some p → p ∈ w.pids ∧ p ≠ w.current ∧
      ((nextContext w).1 p).status = .runnable ∧ ((nextContext w).1 p).running = false) ∧
    ((nextContext w).2 = none → ∀ p ∈ w.pids, p ≠ w.current → (w.ctx p).status = .runnable →
      (w.ctx p).running = true) := by
  unfold nextContext
  split
  · rename_i ctx q h
    have h1 : (scan w.clock (w.pids.filter (· > w.current)) w.ctx).1 = ctx := by rw [h]
    have h2 : (scan w.clock (w.pids.filter (· > w.current)) w.ctx).2 = some q := by rw [h]
    refine ⟨fun p => h1 ▸ scan_checked _ _ _ p, ?_, nofun⟩
    rintro p hp
    cases hp
    obtain ⟨hmem, hready⟩ := scan_chosen h2
    rw [List.mem_filter, decide_eq_true_eq] at hmem
    exact ⟨hmem.1, by omega, h1 ▸ hready⟩
  · rename_i ctx h
    have h1 : (scan w.clock (w.pids.filter (· > w.current)) w.ctx).1 = ctx := by rw [h]
    have h2 : (scan w.clock (w.pids.filter (· > w.current)) w.ctx).2 = none := by rw [h]
    have hone : ∀ p, Checked w.clock (w.ctx p) (ctx p) := fun p => h1 ▸ scan_checked _ _ _ p
    refine ⟨fun p => (hone p).trans (scan_checked _ _ _ p), ?_, ?_⟩
    · intro p hp
      obtain ⟨hmem, hready⟩ := scan_chosen hp
      rw [List.mem_filter, decide_eq_true_eq] at hmem
      exact ⟨hmem.1, by omega, hready⟩
    · intro hnone p hp hne hs
      by_contra hr
      rw [Bool.not_eq_true] at hr
      rcases Nat.lt_or_gt_of_ne hne with hlt | hgt
      · -- the first scan leaves a ready context as it is, the second one comes by it
        have hsame : ctx p = w.ctx p := by
          rcases hone p with heq | ⟨hb, -, -⟩
          · exact heq
          · rw [hs] at hb
            cases hb
        exact scan_ready (List.mem_filter.mpr ⟨hp, decide_eq_true hlt⟩) (hsame ▸ hs) (hsame ▸ hr) hnone
      · exact scan_ready (List.mem_filter.mpr ⟨hp, decide_eq_true hgt⟩) hs hr h2

/-- What a switch can do. -/
theorem switch_cases (w : World) : ∃ ctx, (∀ p, Checked w.clock (w.ctx p) (ctx p)) ∧
    (((∀ p ∈ w.pids, p ≠ w.current → (w.ctx p).status = .runnable → (w.ctx p).running = true) ∧
      switch w = { w with ctx, sleeps := Function.update w.sleeps w.current none }) ∨
    ∃ p ∈ w.pids, p ≠ w.current ∧ (ctx p).status = .runnable ∧ (ctx p).running = false ∧
      switch w = { w with
        ctx := Function.update (Function.update ctx w.current { ctx w.current with running := false })
          p { ctx p with running := true, pending := (ctx p).pending.tail }
        current := p
        sleeps := Function.update w.sleeps p none }) := by
  obtain ⟨hchecked, hsome, hnone⟩ := nextContext_spec w
  refine ⟨(nextContext w).1, hchecked, ?_⟩
  cases h : (nextContext w).2 with
  | none =>
    refine .inl ⟨hnone h, ?_⟩
    have heq : nextContext w = ((nextContext w).1, none) := by rw [← h]
    rw [switch, heq]
  | some p =>
    obtain ⟨hmem, hne, hs, hr⟩ := hsome p h
    refine .inr ⟨p, hmem, hne, hs, hr, ?_⟩
    have heq : nextContext w = ((nextContext w).1, some p) := by rw [← h]
    rw [switch, heq]
    simp only [Function.update_of_ne hne]

theorem swapRemoveBack_perm {α : Type} {l : List α} {i : Nat} {e : α} (h : l[i]? = some e) :
    l.Perm (e :: swapRemoveBack l i) := by
  rcases List.eq_nil_or_concat l with rfl | ⟨init, last, rfl⟩
  · cases h
  · rw [List.concat_eq_append] at h ⊢
    obtain ⟨hi, he⟩ := List.getElem?_eq_some_iff.mp h
    rw [swapRemoveBack, List.getLast?_concat]
    dsimp only
    by_cases hlast : i < init.length
    · rw [List.set_append_left _ _ hlast, List.dropLast_concat]
      rw [List.getElem_append_left hlast] at he
      have h1 : (init ++ [last]).Perm (last :: init) := List.perm_append_singleton last init
      have h2 : init.Perm (e :: init.eraseIdx i) := he ▸ (List.getElem_cons_eraseIdx_perm hlast).symm
      have h3 : (init.set i last).Perm (last :: init.eraseIdx i) := List.set_perm_cons_eraseIdx hlast _
      exact (h1.trans (h2.cons last)).trans ((List.Perm.swap e last _).trans (h3.symm.cons e))
    · have heq : i = init.length := by
        rw [List.length_append, List.length_singleton] at hi
        omega
      subst heq
      rw [List.getElem_concat_length rfl] at he
      rw [List.set_append_right _ _ (Nat.le_refl _), Nat.sub_self, List.set_cons_zero, List.dropLast_concat, he]
      exact List.perm_append_singleton e init

/-- The loop takes entries with the address out of the list, and no others. -/
theorem wakeLoop_spec (addr : Nat) (val : Int) (fuel i : Nat) (l : List (Nat × Nat)) (woken : List Nat) :
    ∃ es, l.Perm (es ++ (wakeLoop addr val fuel i l woken).1) ∧ (∀ e ∈ es, e.1 = addr) ∧
      (wakeLoop addr val fuel i l woken).2.1 = woken ++ es.map Prod.snd := by
  induction fuel generalizing i l woken with
  | zero => exact ⟨[], .refl _, nofun, by simp [wakeLoop]⟩
  | succ fuel ih =>
    have hstop : ∃ es, l.Perm (es ++ l) ∧ (∀ e ∈ es, e.1 = addr) ∧
        woken = woken ++ es.map Prod.snd := ⟨[], .refl _, nofun, by simp⟩
    rw [wakeLoop]
    split
    · split
      · exact hstop
      · rename_i e he
        split
        · rename_i haddr
          obtain ⟨es, hperm, hkeys, hwoken⟩ := ih i (swapRemoveBack l i) (woken ++ [e.2])
          refine ⟨e :: es, (swapRemoveBack_perm he).trans (hperm.cons e), ?_, ?_⟩
          · intro e' he'
            rcases List.mem_cons.mp he' with rfl | he'
            · exact haddr
            · exact hkeys e' he'
          · rw [hwoken]
            simp
        · exact ih (i + 1) l woken
    · exact hstop

/-- An entry stays, or goes from one address to the other. -/
def Moved (addr addr2 : Nat) (e e' : Nat × Nat) : Prop := e' = e ∨ e.1 = addr ∧ e' = (addr2, e.2)

theorem moved_refl (addr addr2 : Nat) (l : List (Nat × Nat)) : List.Forall₂ (Moved addr addr2) l l := by
  induction l with
  | nil => exact .nil
  | cons e l ih => exact .cons (.inl rfl) ih

theorem retarget_moved (addr addr2 n : Nat) (l : List (Nat × Nat)) :
    List.Forall₂ (Moved addr addr2) l (retarget addr addr2 n l) := by
  induction l generalizing n with
  | nil => cases n <;> exact .nil
  | cons e l ih =>
    cases n with
    | zero => exact moved_refl addr addr2 _
    | succ n =>
      rw [retarget]
      split
      · rename_i haddr
        exact .cons (.inr ⟨haddr, rfl⟩) (ih n)
      · exact .cons (.inl rfl) (ih (n + 1))

theorem retarget_from (addr addr2 n i : Nat) (l : List (Nat × Nat)) :
    List.Forall₂ (Moved addr addr2) l (l.take i ++ retarget addr addr2 n (l.drop i)) := by
  have happend := List.rel_append (moved_refl addr addr2 (l.take i))
    (retarget_moved addr addr2 n (l.drop i))
  beta_reduce at happend
  rwa [List.take_append_drop] at happend

/-- What a wake and a requeue can do. -/
def Woke (w : World) (addr addr2 : Nat) (woken : List Nat) (w' : World) : Prop :=
  ∃ es rest l, w.futexes.Perm (es ++ rest) ∧ (∀ e ∈ es, e.1 = addr) ∧
    woken = es.map Prod.snd ∧ List.Forall₂ (Moved addr addr2) rest l ∧
    w' = w.requeued addr addr2 woken l

theorem futexRequeue_woke (w : World) (addr addr2 : Nat) (val : Int) (val2 : Nat) :
    Woke w addr addr2 (futexRequeue w addr addr2 val val2).1 (futexRequeue w addr addr2 val val2).2 := by
  obtain ⟨es, hperm, hkeys, hwoken⟩ := wakeLoop_spec addr val w.futexes.length 0 w.futexes []
  exact ⟨es, _, _, hperm, hkeys, hwoken, retarget_from addr addr2 val2 _ _, rfl⟩

theorem futexWake_woke (w : World) (addr : Nat) (val : Int) :
    Woke w addr addr (futexWake w addr val).1 (futexWake w addr val).2 := by
  obtain ⟨es, hperm, hkeys, hwoken⟩ := wakeLoop_spec addr val w.futexes.length 0 w.futexes []
  refine ⟨es, _, _, hperm, hkeys, hwoken, moved_refl addr addr _, ?_⟩
  have hwhy : (fun p => if w.why p = some (.futex addr) ∧
      (addr, p) ∈ (wakeLoop addr val w.futexes.length 0 w.futexes []).1 then some (.futex addr)
      else w.why p) = w.why := by
    funext p
    split
    · rename_i h
      exact h.1.symm
    · rfl
  rw [World.requeued, hwhy, unblockAll_eq]
  rw [futexWake, unblockAll_eq]

section

variable {addr addr2 a : Nat} {woken : List Nat} {rest l : List (Nat × Nat)}

theorem moved_from (h : List.Forall₂ (Moved addr addr2) rest l) (hp : (a, p) ∈ l) :
    (a, p) ∈ rest ∨ a = addr2 ∧ (addr, p) ∈ rest := by
  induction h with
  | nil => cases hp
  | cons hmoved _ ih =>
    rcases List.mem_cons.mp hp with rfl | hp
    · rcases hmoved with heq | ⟨haddr, heq⟩
      · exact .inl (heq ▸ List.mem_cons_self)
      · cases heq
        subst haddr
        exact .inr ⟨rfl, List.mem_cons_self⟩
    · rcases ih hp with hmem | ⟨ha, hmem⟩
      · exact .inl (List.mem_cons_of_mem _ hmem)
      · exact .inr ⟨ha, List.mem_cons_of_mem _ hmem⟩

theorem moved_keeps (h : List.Forall₂ (Moved addr addr2) rest l) (hp : (a, p) ∈ rest)
    (ha : a ≠ addr) : (a, p) ∈ l := by
  induction h with
  | nil => cases hp
  | cons hmoved _ ih =>
    rcases List.mem_cons.mp hp with rfl | hp
    · rcases hmoved with rfl | ⟨haddr, -⟩
      · exact List.mem_cons_self
      · exact (ha haddr).elim
    · exact List.mem_cons_of_mem _ (ih hp)

theorem moved_pids (h : List.Forall₂ (Moved addr addr2) rest l) :
    l.map Prod.snd = rest.map Prod.snd := by
  induction h with
  | nil => rfl
  | cons hmoved _ ih =>
    rcases hmoved with rfl | ⟨-, rfl⟩ <;> rw [List.map_cons, List.map_cons, ih]

/-- What a wake and a requeue do to contexts and entries, when a context has at most one entry. -/
structure Woke.Spec (w : World) (addr addr2 : Nat) (woken : List Nat) (w' : World) : Prop where
  eq : w' = w.requeued addr addr2 woken w'.futexes
  once : woken.Nodup
  nodup : (w'.futexes.map Prod.snd).Nodup
  taken : ∀ p ∈ woken, (addr, p) ∈ w.futexes
  left : ∀ a p, (a, p) ∈ w'.futexes → p ∉ woken ∧
    ((a, p) ∈ w.futexes ∨ a = addr2 ∧ (addr, p) ∈ w.futexes)
  kept : ∀ a p, (a, p) ∈ w.futexes → a ≠ addr → p ∉ woken ∧ (a, p) ∈ w'.futexes

theorem Woke.spec (hw : Woke w addr addr2 woken w') (h : (w.futexes.map Prod.snd).Nodup) :
    Woke.Spec w addr addr2 woken w' := by
  obtain ⟨es, rest, l, hperm, hkeys, rfl, hmoved, rfl⟩ := hw
  have hmem : ∀ e, e ∈ w.futexes ↔ e ∈ es ∨ e ∈ rest := fun e => hperm.mem_iff.trans List.mem_append
  have hnodup : (es.map Prod.snd ++ rest.map Prod.snd).Nodup := by
    rw [← List.map_append]
    exact (hperm.map Prod.snd).nodup_iff.mp h
  obtain ⟨hes, hrest, hdisj⟩ := List.nodup_append.mp hnodup
  have hout : ∀ a p, (a, p) ∈ rest → p ∉ es.map Prod.snd :=
    fun a p hp hes => hdisj p hes p (List.mem_map_of_mem hp) rfl
  refine ⟨rfl, hes, moved_pids hmoved ▸ hrest, ?_, ?_, ?_⟩
  · intro p hp
    obtain ⟨e, he, rfl⟩ := List.mem_map.mp hp
    exact (hmem _).mpr (.inl (hkeys e he ▸ he))
  · intro a p hp
    rcases moved_from hmoved hp with hold | ⟨ha, hold⟩
    · exact ⟨hout a p hold, .inl ((hmem _).mpr (.inr hold))⟩
    · exact ⟨hout addr p hold, .inr ⟨ha, (hmem _).mpr (.inr hold)⟩⟩
  · intro a p hp ha
    have hold : (a, p) ∈ rest := ((hmem _).mp hp).resolve_left fun he => ha (hkeys _ he)
    exact ⟨hout a p hold, moved_keeps hmoved hold ha⟩

namespace Woke.Spec

theorem ctx_of_not_mem (h : Woke.Spec w addr addr2 woken w') (hp : p ∉ woken) :
    w'.ctx p = w.ctx p := by
  rw [h.eq]
  simp only [World.requeued, unblockAll_eq, if_neg hp]

theorem ctx_of_mem (h : Woke.Spec w addr addr2 woken w') (hp : p ∈ woken) :
    w'.ctx p = (w.ctx p).unblock := by
  rw [h.eq]
  simp only [World.requeued, unblockAll_eq, if_pos hp]

theorem why_of_ne (h : Woke.Spec w addr addr2 woken w') (hp : w.why p ≠ some (.futex addr)) :
    w'.why p = w.why p := by
  rw [h.eq]
  exact if_neg fun hif => hp hif.1

/-- Who has an entry waits where it says, before and after. -/
theorem why (h : Woke.Spec w addr addr2 woken w')
    (hwhy : ∀ b, (b, p) ∈ w.futexes → w.why p = some (.futex b)) (hp : (a, p) ∈ w'.futexes) :
    w'.why p = some (.futex a) := by
  have heq : w'.why p = if w.why p = some (.futex addr) ∧ (addr2, p) ∈ w'.futexes
      then some (.futex addr2) else w.why p := by
    conv_lhs => rw [h.eq]
    rfl
  rw [heq]
  rcases (h.left a p hp).2 with hold | ⟨rfl, hold⟩
  · by_cases hif : w.why p = some (.futex addr) ∧ (addr2, p) ∈ w'.futexes
    · -- the context has one entry, so the second address is the one it has
      have htwo : (addr2, p) = (a, p) := List.inj_on_of_nodup_map h.nodup hif.2 hp rfl
      cases htwo
      exact if_pos hif
    · rw [if_neg hif]
      exact hwhy a hold
  · rw [if_pos ⟨hwhy addr hold, hp⟩]

end Woke.Spec

end

end Origel.Kernel.Waiting
