import Origel.Kernel.Waiting

/-! Futexes: the list that all address spaces share, and when a wake stays inside one of them. -/
namespace Origel.Kernel.Waiting.Futex

open Origel.Lib

/-- The address that a futex call of the current context is about. -/
def target : Act → Option Nat
  | .futexWait addr => some addr
  | .futexWake addr _ => some addr
  | .futexRequeue addr _ _ _ => some addr
  | _ => none

/-- The contexts that a futex call counts in its result. -/
def counted (w : World) : Act → List Nat
  | .futexWake addr val => (futexWake w addr val).1
  | .futexRequeue addr addr2 val val2 => (futexRequeue w addr addr2 val val2).1
  | _ => []

section

variable (phys : Nat → Nat → Nat)

/-- A futex call leaves alone who waits on another word, and who it counts was blocked on this one
and is runnable now. `phys p addr` is the word of memory that context `p` has at `addr`. -/
structure Isolated (w : World) (act : Act) (addr : Nat) (w' : World) : Prop where
  others : ∀ a p, (a, p) ∈ w.futexes → phys p a ≠ phys w.current addr →
    w'.ctx p = w.ctx p ∧ w'.why p = w.why p ∧ (a, p) ∈ w'.futexes
  once : (counted w act).Nodup
  woken : ∀ p ∈ counted w act, ∃ a, phys p a = phys w.current addr ∧
    (w.ctx p).status = .blocked ∧ w.why p = some (.futex a) ∧ (w'.ctx p).status = .runnable

/-- Who waits at the address of a wake shares the word there, and nothing but a wake unblocks a
context that is in the list. -/
def Undisturbed (w : World) : Act → Prop
  | .futexWake addr _ => ∀ p, (addr, p) ∈ w.futexes → phys p addr = phys w.current addr
  | .futexRequeue addr _ _ _ => ∀ p, (addr, p) ∈ w.futexes → phys p addr = phys w.current addr
  | .switch => ∀ a p, (a, p) ∈ w.futexes → (w.ctx p).pending = [] ∧
      ∀ wake, (w.ctx p).wake = some wake → due w.clock wake = false
  | .notify k => ∀ a p, (a, p) ∈ w.futexes → p ∉ w.conditions k
  | .vforkDone child => ∀ a p, (a, p) ∈ w.futexes → w.vforks child ≠ some p
  | _ => True

end

/-- Who is in the list is blocked there. -/
structure Listed (w : World) : Prop where
  current : w.current ∈ w.pids
  known : ∀ a p, (a, p) ∈ w.futexes → p ∈ w.pids
  waits : ∀ a p, (a, p) ∈ w.futexes → (w.ctx p).status = .blocked ∧ w.why p = some (.futex a)
  once : (w.futexes.map Prod.snd).Nodup

variable {phys : Nat → Nat → Nat} {w w' : World} {act : Act} {acts : List Act}
  {a addr addr2 p : Nat} {woken : List Nat}

theorem listed_boot : Listed boot where
  current := by decide
  known := nofun
  waits := nofun
  once := .nil

namespace Listed

/-- A context that calls is not in the list. -/
theorem caller (h : Listed w) (hcalls : w.calls = true) (hp : (a, p) ∈ w.futexes) : p ≠ w.current := by
  rintro rfl
  have hb := (h.waits a _ hp).1
  simp [World.calls, hb] at hcalls

theorem frame (h : Listed w) (hlist : w'.futexes = w.futexes) (hcurrent : w'.current ∈ w'.pids)
    (hpids : ∀ p ∈ w.pids, p ∈ w'.pids)
    (hwaits : ∀ a p, (a, p) ∈ w.futexes → (w'.ctx p).status = (w.ctx p).status ∧ w'.why p = w.why p) :
    Listed w' where
  current := hcurrent
  known a p hp := hpids p (h.known a p (hlist ▸ hp))
  waits a p hp := by
    rw [hlist] at hp
    obtain ⟨hstatus, hwhy⟩ := hwaits a p hp
    rw [hstatus, hwhy]
    exact h.waits a p hp
  once := hlist ▸ h.once

end Listed

/-- A wake keeps the list as it should be, and leaves the entries at other addresses. -/
theorem Listed.woke (h : Listed w) (hw : Woke w addr addr2 woken w') : Listed w' ∧ woken.Nodup ∧
    (∀ p ∈ woken, (addr, p) ∈ w.futexes ∧ (w'.ctx p).status = .runnable) ∧
    ∀ a p, (a, p) ∈ w.futexes → a ≠ addr → w'.ctx p = w.ctx p ∧ w'.why p = w.why p ∧
      (a, p) ∈ w'.futexes := by
  have hspec := hw.spec h.once
  have hreason : ∀ p b, (b, p) ∈ w.futexes → w.why p = some (.futex b) := fun p b hp => (h.waits b p hp).2
  refine ⟨⟨?_, ?_, ?_, hspec.nodup⟩, hspec.once, ?_, ?_⟩
  · rw [hspec.eq]
    simp only [World.requeued, unblockAll_eq]
    exact h.current
  · intro a p hp
    have hknown : p ∈ w.pids := by
      rcases (hspec.left a p hp).2 with hp | ⟨-, hp⟩
      · exact h.known a p hp
      · exact h.known addr p hp
    rw [hspec.eq]
    simp only [World.requeued, unblockAll_eq]
    exact hknown
  · intro a p hp
    obtain ⟨hnot, hold⟩ := hspec.left a p hp
    refine ⟨?_, hspec.why (hreason p) hp⟩
    rw [hspec.ctx_of_not_mem hnot]
    rcases hold with hold | ⟨-, hold⟩
    · exact (h.waits a p hold).1
    · exact (h.waits addr p hold).1
  · intro p hp
    have hmem := hspec.taken p hp
    refine ⟨hmem, ?_⟩
    rw [hspec.ctx_of_mem hp, Context.unblock_of_blocked (h.waits addr p hmem).1]
  · intro a p hp ha
    obtain ⟨hnot, hkept⟩ := hspec.kept a p hp ha
    refine ⟨hspec.ctx_of_not_mem hnot, hspec.why_of_ne ?_, hkept⟩
    rw [hreason p a hp]
    exact fun heq => ha (Notifier.futex.inj (Option.some.inj heq))

namespace Listed

/-- The current context does something to itself alone. -/
theorem caller_frame (h : Listed w) (hcalls : w.calls = true) (hlist : w'.futexes = w.futexes)
    (hcurrent : w'.current = w.current) (hpids : w'.pids = w.pids)
    (hother : ∀ p, p ≠ w.current → w'.ctx p = w.ctx p ∧ w'.why p = w.why p) : Listed w' := by
  refine h.frame hlist ?_ (fun p hp => hpids ▸ hp) ?_
  · rw [hcurrent, hpids]
    exact h.current
  · intro a p hp
    obtain ⟨hctx, hwhy⟩ := hother p (h.caller hcalls hp)
    exact ⟨congrArg Context.status hctx, hwhy⟩

theorem futexWait (h : Listed w) (hcalls : w.calls = true) (addr : Nat) :
    Listed (Waiting.futexWait w addr) := by
  have hne : ∀ a p, (a, p) ∈ w.futexes → p ≠ w.current := fun a p hp => h.caller hcalls hp
  have hrun : (w.ctx w.current).status = .runnable := by
    simp only [World.calls, decide_eq_true_eq] at hcalls
    exact hcalls.1
  refine ⟨h.current, ?_, ?_, ?_⟩
  · intro a p hp
    rcases List.mem_append.mp hp with hp | hp
    · exact h.known a p hp
    · cases List.mem_singleton.mp hp
      exact h.current
  · intro a p hp
    rcases List.mem_append.mp hp with hp | hp
    · obtain ⟨hb, hwhy⟩ := h.waits a p hp
      simp only [Waiting.futexWait, World.block, World.set, Function.update_of_ne (hne a p hp)]
      exact ⟨hb, hwhy⟩
    · cases List.mem_singleton.mp hp
      simp only [Waiting.futexWait, World.block, World.set, Function.update_self,
        Context.block_of_runnable hrun, and_self]
  · have hnew : w.current ∉ w.futexes.map Prod.snd := by
      intro hmem
      obtain ⟨e, he, heq⟩ := List.mem_map.mp hmem
      exact hne e.1 e.2 he heq
    have hmap : (Waiting.futexWait w addr).futexes.map Prod.snd =
        w.futexes.map Prod.snd ++ [w.current] := List.map_append
    rw [hmap]
    exact List.nodup_append.mpr ⟨h.once, List.nodup_singleton _, fun x hx y hy hxy =>
      hnew (List.mem_singleton.mp hy ▸ hxy ▸ hx)⟩

theorem clone (h : Listed w) (hcalls : w.calls = true) {child : Nat} (hchild : child ∉ w.pids)
    (vfork : Bool) : Listed (Waiting.clone w child vfork) := by
  have hpids : ∀ p ∈ w.pids, p ∈ (Waiting.clone w child vfork).pids := by
    intro p hp
    have hne : p ≠ child := fun heq => hchild (heq ▸ hp)
    simp only [Waiting.clone, List.mem_append, List.mem_cons, List.mem_filter, hp, true_and,
      decide_eq_true_eq]
    omega
  refine h.frame ?_ (hpids _ ?_) hpids ?_
  · cases vfork <;> rfl
  · cases vfork <;> exact h.current
  · intro a p hp
    have hne : p ≠ child := fun heq => hchild (heq ▸ h.known a p hp)
    have hcaller := h.caller hcalls hp
    cases vfork <;> simp [Waiting.clone, World.set, World.block, hne, hcaller]

theorem switch (h : Listed w) (hcalm : Undisturbed phys w .switch) : Listed (Waiting.switch w) := by
  -- a context in the list has neither a signal nor a time that has come, so no check wakes it
  have hsame : ∀ ctx : Nat → Context, (∀ p, Checked w.clock (w.ctx p) (ctx p)) →
      ∀ a p, (a, p) ∈ w.futexes → ctx p = w.ctx p := by
    intro ctx hchecked a p hp
    obtain ⟨hpending, hwake⟩ := hcalm a p hp
    rcases hchecked p with heq | ⟨-, hcause | ⟨wake, hw, hdue⟩, -⟩
    · exact heq
    · exact (hcause hpending).elim
    · rw [hwake wake hw] at hdue
      cases hdue
  obtain ⟨ctx, hchecked, ⟨-, heq⟩ | ⟨next, hmem, hne, hs, -, heq⟩⟩ := switch_cases w
  · rw [heq]
    refine h.frame rfl h.current (fun _ => id) fun a p hp => ⟨?_, rfl⟩
    exact congrArg Context.status (hsame ctx hchecked a p hp)
  · rw [heq]
    refine h.frame rfl hmem (fun _ => id) fun a p hp => ⟨?_, rfl⟩
    have hkept := congrArg Context.status (hsame ctx hchecked a p hp)
    by_cases hpn : p = next
    · subst hpn
      simp only [Function.update_self]
      exact hkept
    · simp only [Function.update_of_ne hpn]
      by_cases hpc : p = w.current
      · subst hpc
        simp only [Function.update_self]
        exact hkept
      · simp only [Function.update_of_ne hpc]
        exact hkept

theorem notify (h : Listed w) {k : Nat} (hcalm : Undisturbed phys w (.notify k)) :
    Listed (Waiting.notify w k) := by
  simp only [Waiting.notify, unblockAll_eq]
  refine h.frame rfl h.current (fun _ => id) fun a p hp => ⟨?_, rfl⟩
  have hnot : p ∉ (w.conditions k).reverse := fun hmem => hcalm a p hp (List.mem_reverse.mp hmem)
  simp only [if_neg hnot]

theorem vforkDone (h : Listed w) {child : Nat} (hcalm : Undisturbed phys w (.vforkDone child)) :
    Listed (Waiting.vforkDone w child) := by
  unfold Waiting.vforkDone
  split
  · rename_i parent hparent
    refine h.frame rfl h.current (fun _ => id) fun a p hp => ⟨?_, rfl⟩
    have hne : p ≠ parent := fun heq => hcalm a p hp (heq ▸ hparent)
    simp [World.unblock, World.set, hne]
  · exact h

theorem signal (h : Listed w) (q sig : Nat) :
    Listed (w.set q { w.ctx q with pending := (w.ctx q).pending ++ [sig] }) := by
  refine h.frame rfl h.current (fun _ => id) fun a p _ => ⟨?_, rfl⟩
  by_cases hq : p = q
  · subst hq
    simp [World.set]
  · simp [World.set, hq]

theorem step (h : Listed w) (hstep : Step (Undisturbed phys) w act w') : Listed w' := by
  obtain ⟨hcalm, hact⟩ := hstep
  cases act with
  | nanosleep sec nsec =>
    obtain ⟨⟨hcalls, -⟩, ⟨⟩⟩ := Option.ite_none_right_eq_some.mp hact
    refine h.caller_frame hcalls rfl rfl rfl fun p hp => ?_
    simp [Waiting.nanosleep, World.block, World.set, hp]
  | wait k =>
    obtain ⟨hcalls, ⟨⟩⟩ := Option.ite_none_right_eq_some.mp hact
    refine h.caller_frame hcalls rfl rfl rfl fun p hp => ?_
    simp [Waiting.wait, World.block, World.set, hp]
  | notify k =>
    cases hact
    exact h.notify hcalm
  | futexWait addr =>
    obtain ⟨hcalls, ⟨⟩⟩ := Option.ite_none_right_eq_some.mp hact
    exact h.futexWait hcalls addr
  | futexWake addr val =>
    obtain ⟨-, ⟨⟩⟩ := Option.ite_none_right_eq_some.mp hact
    exact (h.woke (futexWake_woke w addr val)).1
  | futexRequeue addr addr2 val val2 =>
    obtain ⟨-, ⟨⟩⟩ := Option.ite_none_right_eq_some.mp hact
    exact (h.woke (futexRequeue_woke w addr addr2 val val2)).1
  | clone child vfork =>
    obtain ⟨⟨hcalls, hchild⟩, ⟨⟩⟩ := Option.ite_none_right_eq_some.mp hact
    exact h.clone hcalls hchild vfork
  | vforkDone child =>
    cases hact
    exact h.vforkDone hcalm
  | exit =>
    obtain ⟨hcalls, ⟨⟩⟩ := Option.ite_none_right_eq_some.mp hact
    refine h.caller_frame hcalls rfl rfl rfl fun p hp => ?_
    simp [World.set, hp]
  | signal q sig =>
    cases hact
    exact h.signal q sig
  | tick now =>
    obtain ⟨-, ⟨⟩⟩ := Option.ite_none_right_eq_some.mp hact
    exact h.frame rfl h.current (fun _ => id) fun _ _ _ => ⟨rfl, rfl⟩
  | switch =>
    cases hact
    exact h.switch hcalm

theorem run (h : Run (Step (Undisturbed phys)) boot acts w) : Listed w :=
  h.invariant (fun _ _ _ hstep hl => hl.step hstep) listed_boot

/-- A wake whose address is one word for all who wait there stays with that word. -/
theorem isolated_of_woke (h : Listed w) (hw : Woke w addr addr2 (counted w act) w')
    (hshare : ∀ p, (addr, p) ∈ w.futexes → phys p addr = phys w.current addr) :
    Isolated phys w act addr w' := by
  obtain ⟨-, honce, hwoken, hothers⟩ := h.woke hw
  refine ⟨?_, honce, ?_⟩
  · intro a p hp hword
    refine hothers a p hp ?_
    rintro rfl
    exact hword (hshare p hp)
  · intro p hp
    obtain ⟨hmem, hrun⟩ := hwoken p hp
    obtain ⟨hb, hwhy⟩ := h.waits addr p hmem
    exact ⟨addr, hshare p hmem, hb, hwhy, hrun⟩

end Listed

/-- The second context waits at an address, and a third one runs. -/
def waiting : World := switch (futexWait (clone (switch boot) 3 false) 4096)

theorem run_to_waiting {P : World → Act → Prop} (h₁ : P boot .switch)
    (h₂ : P (switch boot) (.clone 3 false)) (h₃ : P (clone (switch boot) 3 false) (.futexWait 4096))
    (h₄ : P (futexWait (clone (switch boot) 3 false) 4096) .switch) :
    Run (Step P) boot [.switch, .clone 3 false, .futexWait 4096, .switch] waiting :=
  .cons ⟨h₁, rfl⟩ (.cons ⟨h₂, rfl⟩ (.cons ⟨h₃, rfl⟩ (.cons ⟨h₄, rfl⟩ .nil)))

/-- In a run in which nothing else unblocks who is in the list, and who waits at the address of a wake
shares the word there, the calls of one context leave alone those who wait on another word, and every
context that a call counts was blocked on its word. -/
theorem futex_calls_isolated (phys : Nat → Nat → Nat) {w w' : World} {act : Act} {acts : List Act}
    {addr : Nat} (hrun : Run (Step (Undisturbed phys)) boot acts w)
    (hstep : Step (Undisturbed phys) w act w') (haddr : target act = some addr) :
    Isolated phys w act addr w' := by
  have h := Listed.run hrun
  obtain ⟨hcalm, hact⟩ := hstep
  cases act with
  | futexWait a =>
    obtain ⟨hcalls, ⟨⟩⟩ := Option.ite_none_right_eq_some.mp hact
    refine ⟨fun b p hp _ => ?_, .nil, nofun⟩
    have hne := h.caller hcalls hp
    simp [Waiting.futexWait, World.block, World.set, hne, hp]
  | futexWake a val =>
    obtain ⟨-, ⟨⟩⟩ := Option.ite_none_right_eq_some.mp hact
    cases haddr
    exact h.isolated_of_woke (futexWake_woke w addr val) hcalm
  | futexRequeue a addr2 val val2 =>
    obtain ⟨-, ⟨⟩⟩ := Option.ite_none_right_eq_some.mp hact
    cases haddr
    exact h.isolated_of_woke (futexRequeue_woke w addr addr2 val val2) hcalm
  | _ => cases haddr

/-- Two contexts with one word at the address. -/
theorem shared_word_is_woken : counted waiting (.futexWake 4096 1) = [2] ∧
    Isolated (fun _ a => a) waiting (.futexWake 4096 1) 4096 (futexWake waiting 4096 1).2 := by
  refine ⟨rfl, futex_calls_isolated (fun _ a => a)
    (run_to_waiting nofun trivial trivial ?_) ⟨fun _ _ => rfl, rfl⟩ rfl⟩
  intro a p hp
  cases List.mem_singleton.mp hp
  exact ⟨rfl, nofun⟩

/-- Two contexts that have different words at the address: one wakes the other all the same. -/
theorem wake_crosses_address_spaces : ∃ (phys : Nat → Nat → Nat) (acts : List Act) (w w' : World),
    Run (Step fun _ _ => True) boot acts w ∧ w.act (.futexWake 4096 1) = some w' ∧
      ¬ Isolated phys w (.futexWake 4096 1) 4096 w' := by
  refine ⟨fun p a => p * 2 ^ 48 + a, _, waiting, _, run_to_waiting trivial trivial trivial trivial,
    rfl, ?_⟩
  intro h
  have hsame := (h.others 4096 2 (List.mem_singleton.mpr rfl) (by decide)).1
  have hstatus := congrArg Context.status hsame
  revert hstatus
  decide

end Origel.Kernel.Waiting.Futex
