import Origel.Kernel.Waiting

/-! Which context gets the processor: new contexts get numbers, and each that is ready gets its turn. -/
namespace Origel.Kernel.Waiting.Scheduling

open Origel.Lib

/-- `usize::max_value() - 1` -/
def CONTEXT_MAX_CONTEXTS : Nat := 2 ^ 64 - 2

theorem countP_lt {l : List Nat} {P Q : Nat → Bool} {x : Nat} (h : ∀ y, P y = true → Q y = true)
    (hx : x ∈ l) (hQ : Q x = true) (hP : P x = false) : l.countP P < l.countP Q := by
  induction l with
  | nil => cases hx
  | cons y l ih =>
    have hle : l.countP P ≤ l.countP Q := List.countP_mono_left fun z _ hz => h z hz
    rw [List.countP_cons, List.countP_cons]
    rcases List.mem_cons.mp hx with rfl | hx
    · simp only [hQ, hP, if_true, Bool.false_eq_true, if_false]
      omega
    · have hlt := ih hx
      by_cases hy : P y = true
      · rw [if_pos hy, if_pos (h y hy)]
        omega
      · rw [if_neg hy]
        exact Nat.lt_add_right _ hlt

/-- `while self.map.contains_key(..) { self.next_id += 1 }` -/
def skip (pids : List Nat) (id : Nat) : Nat :=
  if id ∈ pids then skip pids (id + 1) else id
termination_by pids.countP (id ≤ ·)
decreasing_by
  rename_i h
  refine countP_lt (fun y hy => ?_) h (by simp) (by simp)
  rw [decide_eq_true_eq] at hy ⊢
  omega

/-- `if self.next_id >= CONTEXT_MAX_CONTEXTS { self.next_id = 1 }` -/
def first (nextId : Nat) : Nat := if nextId ≥ CONTEXT_MAX_CONTEXTS then 1 else nextId

/-- `new_context`: the `next_id` after it, and the number of the new context or `EAGAIN` -/
def newContext (pids : List Nat) (nextId : Nat) : Nat × Option Nat :=
  let id := skip pids (first nextId)
  if id ≥ CONTEXT_MAX_CONTEXTS then (id, none) else (id + 1, some id)

/-- The contexts, with the list that gives them numbers. -/
structure System where
  world : World
  nextId : Nat

/-- What happens: what a context does or meets, the birth of a context, and its end once its parent has
waited for it. -/
inductive Event where
  | act (a : Act)
  | clone (vfork : Bool)
  | reap (p : Nat)

namespace System

/-- The number of a new context is that of the list. A parent that is to wait for its child is blocked
before there is a child. -/
def event (s : System) : Event → Option System
  | .act (.clone _ _) => none
  | .act a => (s.world.act a).map fun w => { s with world := w }
  | .clone vfork =>
    if s.world.calls then
      match newContext s.world.pids s.nextId with
      | (nextId, some child) => some ⟨Waiting.clone s.world child vfork, nextId⟩
      | (nextId, none) => some ⟨if vfork then s.world.block none else s.world, nextId⟩
    else none
  | .reap p =>
    if s.world.calls ∧ (s.world.ctx p).status = .exited () then
      some { s with world := { s.world with pids := s.world.pids.filter (· ≠ p) } }
    else none

def Step (s : System) (e : Event) (s' : System) : Prop := s.event e = some s'

/-- The first context and one more. -/
def boot : System := ⟨Waiting.boot, 3⟩

end System

def Event.isSwitch : Event → Bool
  | .act .switch => true
  | _ => false

def Event.isClone : Event → Bool
  | .clone _ => true
  | _ => false

/-- The scheduler would choose the context if it were not running. -/
def Ready (now : Time) (c : Context) : Prop :=
  c.status = .runnable ∨ c.status = .blocked ∧
    (c.pending ≠ [] ∨ ∃ wake, c.wake = some wake ∧ due now wake = true)

/-- The number `q` comes up behind that of the current context, and in front of `p`. -/
def Ahead (current p q : Nat) : Bool :=
  if current < p then current < q ∧ q < p else current < q ∨ q < p

variable {w w' : World} {s s' : System} {c c' : Context} {now now' : Time} {p q id nextId child : Nat}
  {pids ps : List Nat} {ctx : Nat → Context} {e : Event} {events : List Event}

theorem ahead_iff : Ahead p q id = true ↔ if p < q then p < id ∧ id < q else p < id ∨ id < q := by
  rw [Ahead]
  split <;> simp

/-- Who comes up behind the one that is next came up before. -/
theorem ahead_mono {current next : Nat} (h : Ahead current p next = true)
    (hq : Ahead next p q = true) : Ahead current p q = true := by
  rw [ahead_iff] at *
  split at h <;> split at hq <;> split <;> omega

theorem not_ahead_self (h : Ahead q p id = true) : Ahead id p id = false := by
  rw [← Bool.not_eq_true, ahead_iff]
  rw [ahead_iff] at h
  split at h <;> split <;> omega

namespace Ready

theorem unblock (h : Ready now c) : Ready now c.unblock := by
  by_cases hb : c.status = .blocked
  · rw [Context.unblock_of_blocked hb]
    exact .inl rfl
  · rwa [Context.unblock_of_ne hb]

theorem checked (h : Ready now c) (hc : Checked now c c') : Ready now c' := by
  rcases hc with rfl | ⟨-, -, rfl⟩
  · exact h
  · exact .inl rfl

theorem signal (h : Ready now c) (sig : Nat) : Ready now { c with pending := c.pending ++ [sig] } := by
  rcases h with hs | ⟨hb, -⟩
  · exact .inl hs
  · exact .inr ⟨hb, .inl (by simp)⟩

/-- A deadline that has passed stays so. -/
theorem tick (h : Ready now c) (hn : now.nsec < NANOS) (hn' : now'.nsec < NANOS)
    (hle : now.nanos ≤ now'.nanos) : Ready now' c := by
  rcases h with hs | ⟨hb, hpending | ⟨wake, hwake, hdue⟩⟩
  · exact .inl hs
  · exact .inr ⟨hb, .inl hpending⟩
  · refine .inr ⟨hb, .inr ⟨wake, hwake, ?_⟩⟩
    simp only [due, Bool.decide_or, Bool.or_eq_true, decide_eq_true_eq, Time.nanos, NANOS] at *
    omega

theorem not_exited (h : Ready now c) : c.status ≠ .exited () := by
  intro hs
  rcases h with h | ⟨h, -⟩ <;> rw [h] at hs <;> cases hs

theorem chosen (h : Ready now c) (hr : c.running = false) : (checkContext now c).2 = true := by
  rcases h with hs | ⟨hb, hcause⟩
  · rw [checkContext_ready hs hr]
  · by_cases hp : c.pending = []
    · obtain ⟨wake, hwake, hdue⟩ := hcause.resolve_left fun h => h hp
      simp [checkContext, hb, hp, hwake, hdue, Context.unblock_of_blocked hb, hr]
    · cases hwake : c.wake <;>
        simp [checkContext, hb, hp, hwake, Context.unblock_of_blocked hb, hr]

end Ready

/-- A scan chooses nobody who comes behind a context that is ready. -/
theorem scan_least (hsorted : ps.Pairwise (· < ·)) (hp : p ∈ ps)
    (hready : (checkContext now (ctx p)).2 = true) : ∃ q ∈ ps, (scan now ps ctx).2 = some q ∧ q ≤ p := by
  induction ps generalizing ctx with
  | nil => cases hp
  | cons x ps ih =>
    obtain ⟨hx, hps⟩ := List.pairwise_cons.mp hsorted
    rw [scan]
    split
    · refine ⟨x, List.mem_cons_self, rfl, ?_⟩
      rcases List.mem_cons.mp hp with rfl | hp
      · exact Nat.le_refl p
      · exact Nat.le_of_lt (hx p hp)
    · rename_i hnot
      have hne : p ≠ x := by
        rintro rfl
        exact hnot hready
      obtain ⟨q, hq, hscan, hle⟩ := @ih (Function.update ctx x (checkContext now (ctx x)).1) hps
        ((List.mem_cons.mp hp).resolve_left hne) (by rwa [Function.update_of_ne hne])
      exact ⟨q, List.mem_cons_of_mem x hq, hscan, hle⟩

/-- A switch goes to a context that is ready, or to one that comes up before it. -/
theorem nextContext_ahead (hsorted : w.pids.Pairwise (· < ·)) (hp : p ∈ w.pids) (hne : p ≠ w.current)
    (hready : Ready w.clock (w.ctx p)) (hr : (w.ctx p).running = false) :
    ∃ q, (nextContext w).2 = some q ∧ (q = p ∨ Ahead w.current p q = true) := by
  simp only [ahead_iff]
  unfold nextContext
  rcases Nat.lt_or_gt_of_ne hne with hlt | hgt
  · split
    · rename_i ctx q hscan
      have hchosen : (scan w.clock (w.pids.filter (· > w.current)) w.ctx).2 = some q := by rw [hscan]
      have hq := (scan_chosen hchosen).1
      rw [List.mem_filter, decide_eq_true_eq] at hq
      refine ⟨q, rfl, .inr ?_⟩
      rw [if_neg (by omega)]
      exact .inl hq.2
    · rename_i ctx hscan
      have hctx : Checked w.clock (w.ctx p) (ctx p) := by
        have hfirst : (scan w.clock (w.pids.filter (· > w.current)) w.ctx).1 = ctx := by rw [hscan]
        exact hfirst ▸ scan_checked _ _ _ p
      have hmem : p ∈ w.pids.filter (· < w.current) := List.mem_filter.mpr ⟨hp, decide_eq_true hlt⟩
      obtain ⟨q, hq, hchosen, hle⟩ := scan_least (hsorted.filter _) hmem
        ((hready.checked hctx).chosen (hctx.rest.2.2.trans hr))
      refine ⟨q, hchosen, ?_⟩
      rw [if_neg (by omega)]
      omega
  · have hmem : p ∈ w.pids.filter (· > w.current) := List.mem_filter.mpr ⟨hp, decide_eq_true hgt⟩
    obtain ⟨q, hq, hchosen, hle⟩ := scan_least (hsorted.filter _) hmem (hready.chosen hr)
    rw [List.mem_filter, decide_eq_true_eq] at hq
    split
    · rename_i ctx r hscan
      rw [hscan] at hchosen
      cases hchosen
      refine ⟨q, rfl, ?_⟩
      rw [if_pos (by omega)]
      omega
    · rename_i ctx hscan
      rw [hscan] at hchosen
      cases hchosen

/-- The numbers are in order, the current context is there, and no other one runs. -/
structure Inv (w : World) : Prop where
  sorted : w.pids.Pairwise (· < ·)
  current : w.current ∈ w.pids
  running : ∀ q ∈ w.pids, q ≠ w.current → (w.ctx q).running = false
  clock : w.clock.nsec < NANOS

/-- The context waits for its turn. -/
structure InLine (p : Nat) (w : World) : Prop where
  inv : Inv w
  mem : p ∈ w.pids
  ne : p ≠ w.current
  ready : Ready w.clock (w.ctx p)

/-- Whoever is ready stays so, but for the current context. -/
structure Keeps (w w' : World) : Prop where
  pids : w'.pids = w.pids
  current : w'.current = w.current
  clock : w'.clock = w.clock
  running : ∀ q, (w'.ctx q).running = (w.ctx q).running
  ready : ∀ q, q ≠ w.current → Ready w.clock (w.ctx q) → Ready w.clock (w'.ctx q)

theorem unblock_running (c : Context) : c.unblock.running = c.running := rfl

theorem block_running (c : Context) : c.block.running = c.running := rfl

namespace Keeps

theorem inv (h : Keeps w w') (hi : Inv w) : Inv w' := by
  refine ⟨h.pids ▸ hi.sorted, ?_, ?_, h.clock ▸ hi.clock⟩
  · rw [h.current, h.pids]
    exact hi.current
  · intro q hq hne
    rw [h.running]
    exact hi.running q (h.pids ▸ hq) (h.current ▸ hne)

theorem inLine (h : Keeps w w') (hl : InLine p w) : InLine p w' := by
  refine ⟨h.inv hl.inv, h.pids ▸ hl.mem, h.current ▸ hl.ne, ?_⟩
  rw [h.clock]
  exact h.ready p hl.ne hl.ready

/-- The current context does something to itself alone. -/
theorem caller (hpids : w'.pids = w.pids) (hcurrent : w'.current = w.current)
    (hclock : w'.clock = w.clock) (hctx : w'.ctx = Function.update w.ctx w.current c)
    (hrunning : c.running = (w.ctx w.current).running) : Keeps w w' := by
  refine ⟨hpids, hcurrent, hclock, ?_, ?_⟩
  · intro q
    rw [hctx]
    by_cases hq : q = w.current
    · subst hq
      rwa [Function.update_self]
    · rw [Function.update_of_ne hq]
  · intro q hq
    rw [hctx, Function.update_of_ne hq]
    exact id

theorem unblocked (ps : List Nat) (hpids : w'.pids = w.pids) (hcurrent : w'.current = w.current)
    (hclock : w'.clock = w.clock) (hctx : w'.ctx = fun q => if q ∈ ps then (w.ctx q).unblock else w.ctx q) :
    Keeps w w' := by
  refine ⟨hpids, hcurrent, hclock, ?_, ?_⟩
  · intro q
    rw [hctx]
    dsimp only
    split
    · exact unblock_running _
    · rfl
  · intro q _
    rw [hctx]
    dsimp only
    split
    · exact Ready.unblock
    · exact id

theorem signal (w : World) (q sig : Nat) :
    Keeps w (w.set q { w.ctx q with pending := (w.ctx q).pending ++ [sig] }) := by
  refine ⟨rfl, rfl, rfl, ?_, ?_⟩
  · intro r
    by_cases hr : r = q
    · subst hr
      simp [World.set]
    · simp [World.set, hr]
  · intro r _ hready
    by_cases hr : r = q
    · subst hr
      simpa [World.set] using hready.signal sig
    · simpa [World.set, hr] using hready

/-- Every step of a context, but for the birth of another one, for the clock and for the switch. -/
theorem of_act {a : Act} (h : w.act a = some w') (hclone : ∀ child vfork, a ≠ .clone child vfork)
    (htick : ∀ now, a ≠ .tick now) (hswitch : a ≠ .switch) : Keeps w w' := by
  cases a with
  | nanosleep sec nsec =>
    obtain ⟨-, ⟨⟩⟩ := Option.ite_none_right_eq_some.mp h
    refine caller (c := { (w.ctx w.current).block with wake := some (sleepEnd w.clock sec nsec) })
      rfl rfl rfl ?_ (block_running _)
    simp only [nanosleep, World.block, World.set, Function.update_self, Function.update_idem]
    by_cases hs : (w.ctx w.current).status = .runnable <;> simp [Context.block, hs]
  | wait k =>
    obtain ⟨-, ⟨⟩⟩ := Option.ite_none_right_eq_some.mp h
    exact caller rfl rfl rfl rfl (block_running _)
  | notify k =>
    cases h
    exact unblocked (w.conditions k).reverse (by simp only [notify, unblockAll_eq])
      (by simp only [notify, unblockAll_eq]) (by simp only [notify, unblockAll_eq])
      (by simp only [notify, unblockAll_eq])
  | futexWait addr =>
    obtain ⟨-, ⟨⟩⟩ := Option.ite_none_right_eq_some.mp h
    exact caller rfl rfl rfl rfl (block_running _)
  | futexWake addr val =>
    obtain ⟨-, ⟨⟩⟩ := Option.ite_none_right_eq_some.mp h
    simp only [futexWake, unblockAll_eq]
    exact unblocked _ rfl rfl rfl rfl
  | futexRequeue addr addr2 val val2 =>
    obtain ⟨-, ⟨⟩⟩ := Option.ite_none_right_eq_some.mp h
    simp only [futexRequeue, World.requeued, unblockAll_eq]
    exact unblocked _ rfl rfl rfl rfl
  | clone child vfork => exact absurd rfl (hclone child vfork)
  | vforkDone child =>
    cases h
    unfold vforkDone
    split
    · rename_i parent _
      refine unblocked [parent] rfl rfl rfl ?_
      funext q
      by_cases hq : q = parent
      · subst hq
        simp [World.unblock, World.set]
      · simp [World.unblock, World.set, hq]
    · exact ⟨rfl, rfl, rfl, fun _ => rfl, fun _ _ => id⟩
  | exit =>
    obtain ⟨-, ⟨⟩⟩ := Option.ite_none_right_eq_some.mp h
    exact caller rfl rfl rfl rfl rfl
  | signal q sig =>
    cases h
    exact signal w q sig
  | tick now => exact absurd rfl (htick now)
  | switch => exact absurd rfl hswitch

end Keeps

/-- With one who is ready, the processor goes to the next who is. -/
theorem switch_next (h : Inv w) (hq : (nextContext w).2 = some q) :
    Inv (switch w) ∧ (switch w).current = q ∧ (switch w).pids = w.pids ∧
      (switch w).clock = w.clock ∧ ∀ p, p ≠ w.current → p ≠ q → Ready w.clock (w.ctx p) →
      Ready w.clock ((switch w).ctx p) := by
  obtain ⟨hchecked, hchosen, -⟩ := nextContext_spec w
  obtain ⟨hmem, hne, -, -⟩ := hchosen q hq
  have heq : nextContext w = ((nextContext w).1, some q) := by rw [← hq]
  rw [switch, heq]
  dsimp only
  refine ⟨⟨h.sorted, hmem, ?_, h.clock⟩, rfl, rfl, rfl, ?_⟩
  · intro p hp hpq
    dsimp only at hpq ⊢
    rw [Function.update_of_ne hpq]
    by_cases hcurrent : p = w.current
    · subst hcurrent
      rw [Function.update_self]
    · rw [Function.update_of_ne hcurrent]
      exact (hchecked p).rest.2.2.trans (h.running p hp hcurrent)
  · intro p hcurrent hpq hready
    rw [Function.update_of_ne hpq, Function.update_of_ne hcurrent]
    exact hready.checked (hchecked p)

theorem Inv.switch (h : Inv w) : Inv (switch w) := by
  cases hq : (nextContext w).2 with
  | some q => exact (switch_next h hq).1
  | none =>
    have hchecked := (nextContext_spec w).1
    have heq : nextContext w = ((nextContext w).1, none) := by rw [← hq]
    rw [Waiting.switch, heq]
    exact ⟨h.sorted, h.current,
      fun p hp hne => (hchecked p).rest.2.2.trans (h.running p hp hne), h.clock⟩

/-- A switch reaches who is in line, or one in front of it. -/
theorem InLine.switch (h : InLine p w) : (switch w).current = p ∨ InLine p (switch w) ∧
    (switch w).pids.countP (Ahead (switch w).current p) < w.pids.countP (Ahead w.current p) := by
  obtain ⟨q, hq, hahead⟩ :=
    nextContext_ahead h.inv.sorted h.mem h.ne h.ready (h.inv.running p h.mem h.ne)
  obtain ⟨hinv, hcurrent, hpids, hclock, hready⟩ := switch_next h.inv hq
  rw [hcurrent]
  refine or_iff_not_imp_left.mpr fun hne => ?_
  have hfront := hahead.resolve_left hne
  refine ⟨⟨hinv, hpids ▸ h.mem, by rw [hcurrent]; exact Ne.symm hne, ?_⟩, ?_⟩
  · rw [hclock]
    exact hready p h.ne (Ne.symm hne) h.ready
  · rw [hpids]
    exact countP_lt (fun r hr => ahead_mono hfront hr) ((nextContext_spec w).2.1 q hq).1 hfront
      (not_ahead_self hfront)

theorem Inv.tick (h : Inv w) (hn : now.nsec < NANOS) : Inv { w with clock := now } :=
  ⟨h.sorted, h.current, h.running, hn⟩

theorem pairwise_insert (h : pids.Pairwise (· < ·)) :
    (pids.filter (· < id) ++ id :: pids.filter (· > id)).Pairwise (· < ·) := by
  refine List.pairwise_append.mpr ⟨h.filter _, List.pairwise_cons.mpr ⟨?_, h.filter _⟩, ?_⟩
  · intro q hq
    exact of_decide_eq_true (List.mem_filter.mp hq).2
  · intro q hq r hr
    have hlt : q < id := of_decide_eq_true (List.mem_filter.mp hq).2
    rcases List.mem_cons.mp hr with rfl | hr
    · exact hlt
    · exact Nat.lt_trans hlt (of_decide_eq_true (List.mem_filter.mp hr).2)

theorem mem_insert (hid : id ∉ pids) :
    q ∈ pids.filter (· < id) ++ id :: pids.filter (· > id) ↔ q = id ∨ q ∈ pids := by
  have hne : q ∈ pids → q ≠ id := by
    rintro hq rfl
    exact hid hq
  simp only [List.mem_append, List.mem_cons, List.mem_filter, decide_eq_true_eq]
  grind

theorem countP_insert (P : Nat → Bool) (pids : List Nat) (id : Nat) :
    (pids.filter (· < id) ++ id :: pids.filter (· > id)).countP P ≤ pids.countP P + 1 := by
  have hsplit : (pids.filter (· < id)).countP P + (pids.filter (· > id)).countP P ≤ pids.countP P := by
    induction pids with
    | nil => exact Nat.le_refl 0
    | cons q pids ih =>
      simp only [List.filter_cons, List.countP_cons, gt_iff_lt] at ih ⊢
      rcases Nat.lt_trichotomy q id with hlt | rfl | hgt
      · simp [hlt, Nat.lt_asymm hlt, List.countP_cons]
        omega
      · simp
        omega
      · simp [hgt, Nat.lt_asymm hgt, List.countP_cons]
        omega
  rw [List.countP_append, List.countP_cons]
  split <;> omega

/-- What a birth leaves of the other contexts. -/
theorem clone_others (w : World) (vfork : Bool) (hq : q ≠ child) (hcurrent : q ≠ w.current) :
    (clone w child vfork).ctx q = w.ctx q := by
  cases vfork <;> simp [clone, World.block, World.set, hq, hcurrent]

theorem clone_frame (w : World) (child : Nat) (vfork : Bool) :
    (clone w child vfork).pids = w.pids.filter (· < child) ++ child :: w.pids.filter (· > child) ∧
      (clone w child vfork).current = w.current ∧ (clone w child vfork).clock = w.clock ∧
      (clone w child vfork).ctx child = Context.new := by
  cases vfork <;> simp [clone, World.block, World.set]

theorem Inv.clone (h : Inv w) (vfork : Bool) (hchild : child ∉ w.pids) :
    Inv (Waiting.clone w child vfork) := by
  obtain ⟨hpids, hcurrent, hclock, hnew⟩ := clone_frame w child vfork
  refine ⟨?_, ?_, ?_, hclock ▸ h.clock⟩
  · rw [hpids]
    exact pairwise_insert h.sorted
  · rw [hpids, hcurrent]
    exact (mem_insert hchild).mpr (.inr h.current)
  · intro q hq hne
    rw [hcurrent] at hne
    rw [hpids, mem_insert hchild] at hq
    by_cases hqc : q = child
    · subst hqc
      rw [hnew]
      rfl
    · rw [clone_others w vfork hqc hne]
      exact h.running q (hq.resolve_left hqc) hne

theorem InLine.clone (h : InLine p w) (vfork : Bool) (hchild : child ∉ w.pids) :
    InLine p (Waiting.clone w child vfork) ∧
      (Waiting.clone w child vfork).pids.countP (Ahead (Waiting.clone w child vfork).current p) ≤
        w.pids.countP (Ahead w.current p) + 1 := by
  obtain ⟨hpids, hcurrent, hclock, -⟩ := clone_frame w child vfork
  have hne : p ≠ child := fun heq => hchild (heq ▸ h.mem)
  refine ⟨⟨h.inv.clone vfork hchild, ?_, by rw [hcurrent]; exact h.ne, ?_⟩, ?_⟩
  · rw [hpids]
    exact (mem_insert hchild).mpr (.inr h.mem)
  · rw [hclock, clone_others w vfork hne h.ne]
    exact h.ready
  · rw [hpids, hcurrent]
    exact countP_insert _ _ _

theorem not_mem_skip (pids : List Nat) (id : Nat) : skip pids id ∉ pids := by
  induction id using skip.induct pids with
  | case1 id hmem ih => rwa [skip, if_pos hmem]
  | case2 id hnot => rwa [skip, if_neg hnot]

theorem le_skip (pids : List Nat) (id : Nat) : id ≤ skip pids id := by
  induction id using skip.induct pids with
  | case1 id hmem ih =>
    rw [skip, if_pos hmem]
    omega
  | case2 id hnot => exact Nat.le_of_eq (by rw [skip, if_neg hnot])

/-- The numbers that are skipped are in use. -/
theorem mem_of_lt_skip (hle : id ≤ q) (hlt : q < skip pids id) : q ∈ pids := by
  induction id using skip.induct pids with
  | case1 id hmem ih =>
    rw [skip, if_pos hmem] at hlt
    rcases Nat.eq_or_lt_of_le hle with rfl | hgt
    · exact hmem
    · exact ih hgt hlt
  | case2 id hnot =>
    rw [skip, if_neg hnot] at hlt
    omega

theorem one_le_first (h : 1 ≤ nextId) : 1 ≤ first nextId := by
  rw [first]
  split
  · exact Nat.le_refl 1
  · exact h

/-- A new number is free and in range. -/
theorem newContext_some (h : newContext pids nextId = (id, some child)) (hnext : 1 ≤ nextId) :
    child ∉ pids ∧ 1 ≤ child ∧ child < CONTEXT_MAX_CONTEXTS ∧ 1 ≤ id := by
  have hle := le_skip pids (first nextId)
  have hone := one_le_first hnext
  rw [newContext] at h
  split at h <;> cases h
  exact ⟨not_mem_skip _ _, by omega, by omega, by omega⟩

theorem le_of_newContext_none (h : newContext pids nextId = (id, none)) :
    CONTEXT_MAX_CONTEXTS ≤ id := by
  rw [newContext] at h
  split at h <;> cases h
  assumption

/-- There is no number exactly when those from where the search begins on are all in use. -/
theorem newContext_none_iff : (newContext pids nextId).2 = none ↔
    ∀ q, first nextId ≤ q → q < CONTEXT_MAX_CONTEXTS → q ∈ pids := by
  constructor
  · intro hnone q hq hlt
    rw [newContext] at hnone
    split at hnone
    · exact mem_of_lt_skip hq (by omega)
    · cases hnone
  · intro hused
    have hmax : skip pids (first nextId) ≥ CONTEXT_MAX_CONTEXTS := by
      by_contra hlt
      exact not_mem_skip pids (first nextId) (hused _ (le_skip _ _) (by omega))
    rw [newContext, if_pos hmax]

/-- What can happen. -/
inductive Does (s : System) : Event → System → Prop
  | keeps {e : Event} {w : World} (hk : Keeps s.world w) (he : e.isSwitch = false) : Does s e { s with world := w }
  | tick {now : Time} (hle : s.world.clock.nanos ≤ now.nanos) (hn : now.nsec < NANOS) :
      Does s (.act (.tick now)) { s with world := { s.world with clock := now } }
  | switch : Does s (.act .switch) { s with world := Waiting.switch s.world }
  | born {vfork : Bool} {child nextId : Nat} (h : newContext s.world.pids s.nextId = (nextId, some child)) :
      Does s (.clone vfork) ⟨Waiting.clone s.world child vfork, nextId⟩
  | unborn {vfork : Bool} {w : World} {nextId : Nat} (hk : Keeps s.world w)
      (h : newContext s.world.pids s.nextId = (nextId, none)) : Does s (.clone vfork) ⟨w, nextId⟩
  | reap {p : Nat} (hp : (s.world.ctx p).status = .exited ()) (hne : s.world.current ≠ p) :
      Does s (.reap p) { s with world := { s.world with pids := s.world.pids.filter (· ≠ p) } }

theorem runnable_of_calls (hcalls : w.calls = true) : (w.ctx w.current).status = .runnable := by
  have hboth : (w.ctx w.current).status = .runnable ∧ w.current ≠ idle := by
    simpa [World.calls] using hcalls
  exact hboth.1

theorem event_act {a : Act} (h : ∀ child vfork, a ≠ .clone child vfork) :
    s.event (.act a) = (s.world.act a).map fun w => { s with world := w } := by
  cases a <;> first | rfl | exact absurd rfl (h _ _)

theorem does_of_step (h : s.Step e s') : Does s e s' := by
  cases e with
  | act a =>
    have hmap : ∀ {w}, s.world.act a = some w → (∀ child vfork, a ≠ .clone child vfork) →
        (∀ now, a ≠ .tick now) → a ≠ .switch → Does s (.act a) { s with world := w } := by
      intro w hact hclone htick hswitch
      refine .keeps (Keeps.of_act hact hclone htick hswitch) ?_
      cases a <;> first | rfl | exact absurd rfl hswitch
    cases a with
    | clone child vfork => cases h
    | tick now =>
      obtain ⟨w, hact, rfl⟩ := Option.map_eq_some_iff.mp h
      obtain ⟨⟨hle, hn⟩, ⟨⟩⟩ := Option.ite_none_right_eq_some.mp hact
      exact .tick hle hn
    | switch =>
      cases h
      exact .switch
    | _ =>
      rw [System.Step, event_act (by rintro _ _ ⟨⟩)] at h
      obtain ⟨w, hact, rfl⟩ := Option.map_eq_some_iff.mp h
      exact hmap hact (by rintro _ _ ⟨⟩) (by rintro _ ⟨⟩) (by rintro ⟨⟩)
  | clone vfork =>
    obtain ⟨-, h⟩ := Option.ite_none_right_eq_some.mp h
    obtain ⟨⟨nextId, child⟩, hnew⟩ : ∃ r, newContext s.world.pids s.nextId = r := ⟨_, rfl⟩
    rw [hnew] at h
    cases child with
    | some child =>
      cases h
      exact .born hnew
    | none =>
      cases h
      refine .unborn ?_ hnew
      cases vfork with
      | true => exact .caller rfl rfl rfl rfl (block_running _)
      | false => exact ⟨rfl, rfl, rfl, fun _ => rfl, fun _ _ => id⟩
  | reap p =>
    obtain ⟨⟨hcalls, hp⟩, ⟨⟩⟩ := Option.ite_none_right_eq_some.mp h
    refine .reap hp ?_
    rintro rfl
    rw [runnable_of_calls hcalls] at hp
    cases hp

/-- The contexts have numbers in range. -/
structure Numbered (s : System) : Prop where
  inv : Inv s.world
  range : ∀ q ∈ s.world.pids, 1 ≤ q ∧ q < CONTEXT_MAX_CONTEXTS
  next : 1 ≤ s.nextId

theorem numbered_boot : Numbered System.boot where
  inv := by
    refine ⟨by decide, by decide, ?_, by decide⟩
    intro q hq hne
    rcases List.mem_cons.mp hq with rfl | hq
    · exact absurd rfl hne
    · rw [List.mem_singleton.mp hq]
      rfl
  range := by decide
  next := by decide

theorem Inv.reap (h : Inv w) (hne : w.current ≠ p) :
    Inv { w with pids := w.pids.filter (· ≠ p) } :=
  ⟨h.sorted.filter _, List.mem_filter.mpr ⟨h.current, decide_eq_true hne⟩,
    fun q hq => h.running q (List.mem_of_mem_filter hq), h.clock⟩

theorem Numbered.step (h : Numbered s) (hstep : s.Step e s') : Numbered s' := by
  cases does_of_step hstep with
  | keeps hk _ => exact ⟨hk.inv h.inv, fun q hq => h.range q (hk.pids ▸ hq), h.next⟩
  | tick _ hn => exact ⟨h.inv.tick hn, h.range, h.next⟩
  | switch =>
    refine ⟨h.inv.switch, ?_, h.next⟩
    intro q hq
    refine h.range q ?_
    obtain ⟨ctx, -, ⟨-, heq⟩ | ⟨next, -, -, -, -, heq⟩⟩ := switch_cases s.world <;>
      · dsimp only at hq
        rwa [heq] at hq
  | @born vfork child nextId hnew =>
    obtain ⟨hfree, hone, hmax, hnext⟩ := newContext_some hnew h.next
    refine ⟨h.inv.clone vfork hfree, ?_, hnext⟩
    intro q hq
    rw [(clone_frame s.world child vfork).1, mem_insert hfree] at hq
    rcases hq with rfl | hq
    · exact ⟨hone, hmax⟩
    · exact h.range q hq
  | unborn hk hnew =>
    refine ⟨hk.inv h.inv, fun q hq => h.range q (hk.pids ▸ hq), ?_⟩
    exact Nat.le_trans (by decide) (le_of_newContext_none hnew)
  | reap _ hne => exact ⟨h.inv.reap hne, fun q hq => h.range q (List.mem_of_mem_filter hq), h.next⟩

theorem Numbered.run (h : Run System.Step System.boot events s) : Numbered s :=
  h.invariant (fun _ _ _ hstep hi => hi.step hstep) numbered_boot

/-- Of those in front of one who is in line, each step lets one pass at least if it is a switch, and brings
one at most if it is a birth. -/
theorem InLine.step (h : InLine p s.world) (hnext : 1 ≤ s.nextId) (hstep : s.Step e s') :
    s'.world.current = p ∨ InLine p s'.world ∧
      s'.world.pids.countP (Ahead s'.world.current p) + e.isSwitch.toNat ≤
        s.world.pids.countP (Ahead s.world.current p) + e.isClone.toNat := by
  cases does_of_step hstep with
  | keeps hk he =>
    refine .inr ⟨hk.inLine h, ?_⟩
    dsimp only
    rw [hk.pids, hk.current, he]
    exact Nat.le_add_right _ _
  | tick hle hn =>
    exact .inr ⟨⟨h.inv.tick hn, h.mem, h.ne, h.ready.tick h.inv.clock hn hle⟩, Nat.le_refl _⟩
  | switch => exact h.switch
  | born hnew => exact .inr (h.clone _ (newContext_some hnew hnext).1)
  | unborn hk hnew =>
    refine .inr ⟨hk.inLine h, ?_⟩
    dsimp only
    rw [hk.pids, hk.current]
    exact Nat.le_add_right _ _
  | reap hp hne =>
    refine .inr ⟨⟨h.inv.reap hne, List.mem_filter.mpr ⟨h.mem, decide_eq_true ?_⟩, h.ne, h.ready⟩, ?_⟩
    · rintro rfl
      exact h.ready.not_exited hp
    · exact List.filter_sublist.countP_le

/-- Not all contexts are in front of one who is in line: it is not, and the current one is not. -/
theorem InLine.countP_lt (h : InLine p w) : w.pids.countP (Ahead w.current p) + 2 ≤ w.pids.length := by
  have hne := h.ne
  have hself : Ahead w.current p p = false := by
    rw [← Bool.not_eq_true, ahead_iff]
    split <;> omega
  have hcurrent : Ahead w.current p w.current = false := by
    rw [← Bool.not_eq_true, ahead_iff]
    split <;> omega
  -- with them, there is a context less in front of it
  have hwith : w.pids.countP (Ahead w.current p) <
      w.pids.countP fun q => Ahead w.current p q || decide (q = p) :=
    Scheduling.countP_lt (fun q hq => by rw [hq, Bool.true_or]) h.mem (by simp) hself
  have hall : w.pids.countP (fun q => Ahead w.current p q || decide (q = p)) < w.pids.countP fun _ => true :=
    Scheduling.countP_lt (fun _ _ => rfl) h.inv.current rfl (by simp [hcurrent, Ne.symm hne])
  rw [List.countP_true] at hall
  omega

/-- Whoever is ready runs before there have been as many switches as there are contexts and births. -/
theorem turn_comes {events rest : List Event} {s s' : System} {p : Nat}
    (hrun : Run System.Step System.boot events s) (hp : p ∈ s.world.pids)
    (hready : Ready s.world.clock (s.world.ctx p)) (hrest : Run System.Step s rest s')
    (hturns : s.world.pids.length + rest.countP Event.isClone ≤ rest.countP Event.isSwitch + 1) :
    ∃ before after v, rest = before ++ after ∧ Run System.Step s before v ∧ v.world.current = p ∧
      Run System.Step v after s' := by
  have hs := Numbered.run hrun
  by_cases hcurrent : s.world.current = p
  · exact ⟨[], rest, s, rfl, .nil, hcurrent, hrest⟩
  · have hline : InLine p s.world := ⟨hs.inv, hp, Ne.symm hcurrent, hready⟩
    have hcount : s.world.pids.countP (Ahead s.world.current p) + rest.countP Event.isClone <
        rest.countP Event.isSwitch := by
      have htwo := hline.countP_lt
      omega
    refine hrest.reaches (I := fun s => Numbered s ∧ InLine p s.world)
      (μ := fun s => s.world.pids.countP (Ahead s.world.current p)) ?_ ⟨hs, hline⟩ hcount
    intro s e s' hstep hI
    rcases hI.2.step hI.1.next hstep with hgoal | ⟨hline', hle⟩
    · exact .inl hgoal
    · exact .inr ⟨⟨hI.1.step hstep, hline'⟩, hle⟩

/-- The second context gets the processor from the first, which is the only other one. -/
theorem second_context_runs : ∃ before after v, [Event.act .switch] = before ++ after ∧
    Run System.Step System.boot before v ∧ v.world.current = 2 ∧
    Run System.Step v after ⟨switch Waiting.boot, 3⟩ :=
  turn_comes .nil (by decide) (.inl rfl) (.cons rfl .nil) (by decide)

/-- Contexts differ in their numbers, a new one gets a number that is free, and there is none for it
exactly when those from where the search begins on are in use. Who tries again gets one, unless all
are in use. -/
theorem numbers_given {events : List Event} {s : System}
    (hrun : Run System.Step System.boot events s) : s.world.pids.Nodup ∧
    (∀ q ∈ s.world.pids, 1 ≤ q ∧ q < CONTEXT_MAX_CONTEXTS) ∧
    (∀ nextId child, newContext s.world.pids s.nextId = (nextId, some child) →
      child ∉ s.world.pids ∧ 1 ≤ child ∧ child < CONTEXT_MAX_CONTEXTS) ∧
    ((newContext s.world.pids s.nextId).2 = none ↔
      ∀ q, first s.nextId ≤ q → q < CONTEXT_MAX_CONTEXTS → q ∈ s.world.pids) ∧
    ∀ nextId, newContext s.world.pids s.nextId = (nextId, none) →
      ((newContext s.world.pids nextId).2 = none ↔
        ∀ q, 1 ≤ q → q < CONTEXT_MAX_CONTEXTS → q ∈ s.world.pids) := by
  have hs := Numbered.run hrun
  refine ⟨hs.inv.sorted.imp Nat.ne_of_lt, hs.range, ?_, newContext_none_iff, ?_⟩
  · intro nextId child hnew
    obtain ⟨hfree, hone, hmax, -⟩ := newContext_some hnew hs.next
    exact ⟨hfree, hone, hmax⟩
  · intro nextId hnew
    -- the second search begins with the first number
    have hfirst : first nextId = 1 := if_pos (le_of_newContext_none hnew)
    rw [newContext_none_iff, hfirst]

/-- The second context has a child, which gets the third number. -/
theorem child_is_third : newContext [1, 2] 3 = (4, some 3) ∧ [1, 2].Nodup ∧ 3 ∉ [1, 2] := by
  have hgiven := numbers_given (.nil : Run System.Step System.boot [] System.boot)
  have hnew : newContext [1, 2] 3 = (4, some 3) := by
    have hskip : skip [1, 2] 3 = 3 := by
      rw [skip]
      rfl
    rw [newContext, show first 3 = 3 from rfl, hskip]
    rfl
  exact ⟨hnew, hgiven.1, (hgiven.2.2.1 4 3 hnew).1⟩

end Origel.Kernel.Waiting.Scheduling
