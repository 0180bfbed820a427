import Origel.Kernel.Waiting

/-! Who is blocked wakes for a cause: its notifier, a signal, or its own time. -/
namespace Origel.Kernel.Waiting.Wakeups

open Origel.Lib

/-- A notifier still has to wake the context. -/
def Registered (w : World) (p : Nat) : Notifier → Prop
  | .condition k => p ∈ w.conditions k
  | .futex addr => (addr, p) ∈ w.futexes
  | .vfork child => w.vforks child = some p

/-- What happens is the doing of the notifier. -/
def Notifies (k : Notifier) : Act → Prop
  | .notify c => k = .condition c
  | .futexWake addr _ => k = .futex addr
  | .futexRequeue addr _ _ _ => k = .futex addr
  | .vforkDone child => k = .vfork child
  | _ => False

/-- Who waits for a notifier goes on because of it or of a signal, and who sleeps returns from its sleep
in time or because of a signal. -/
structure ForCause (w : World) (act : Act) (w' : World) : Prop where
  woken : ∀ p k, (w.ctx p).status = .blocked → w.why p = some k → (w'.ctx p).status ≠ .blocked →
    Notifies k act ∨ act = .switch ∧ (w.ctx p).pending ≠ []
  slept : ∀ p t, w.sleeps p = some t → w'.sleeps p = none → t ≤ w.clock.nanos ∨ (w.ctx p).pending ≠ []

/-- The seconds of the deadline are not cut off. -/
def Fits (start : Time) (sec nsec : Int) : Prop :=
  (start.sec : Int) + sec + ((start.nsec + asU64 nsec) % 2 ^ 64 / NANOS : Nat) < 2 ^ 64

/-- No notifier of an earlier wait has the current context. -/
def Free (w : World) : Prop := ∀ k, ¬ Registered w w.current k

/-- Only contexts that have not slept wait for a notifier, and only those that no earlier wait has left
behind wait or sleep. -/
def Orderly (w : World) : Act → Prop
  | .nanosleep sec nsec => Free w ∧ Fits w.clock sec nsec
  | .wait _ => Free w ∧ (w.ctx w.current).wake = none
  | .futexWait _ => Free w ∧ (w.ctx w.current).wake = none
  | .clone _ vfork => vfork = true → Free w ∧ (w.ctx w.current).wake = none
  | _ => True

/-- A context that sleeps has a deadline that is not too early. -/
def Asleep (w : World) (p : Nat) (t : Int) : Prop :=
  (w.ctx p).status = .blocked ∧ w.why p = none ∧
    ∃ wake, (w.ctx p).wake = some wake ∧ t ≤ wake.nanos ∧ wake.nsec < NANOS

/-- What is known of one context. -/
structure Cause (w : World) (p : Nat) : Prop where
  registered : (w.ctx p).status = .blocked → ∀ k, Registered w p k → w.why p = some k
  timeless : (w.ctx p).status = .blocked → ∀ k, w.why p = some k → (w.ctx p).wake = none
  sleeping : ∀ t, w.sleeps p = some t → p ∈ w.pids ∧ p ≠ idle ∧
    (Asleep w p t ∨ t ≤ w.clock.nanos ∨ (w.ctx p).pending ≠ [])

structure Inv (w : World) : Prop where
  idle : idle ∈ w.pids ∧ (w.ctx idle).status = .runnable
  current : w.current ∈ w.pids
  known : ∀ p, (w.ctx p).status = .blocked → p ∈ w.pids
  running : ∀ p ∈ w.pids, p ≠ w.current → (w.ctx p).running = false
  once : (w.futexes.map Prod.snd).Nodup
  clock : w.clock.nsec < NANOS
  cause : ∀ p, Cause w p

variable {w w' : World} {act : Act} {acts : List Act} {p q child : Nat} {t : Int} {now wake : Time}
  {sec nsec : Int}

theorem inv_boot : Inv boot where
  idle := by decide
  current := by decide
  known p hp := by
    by_cases h : p = 1 <;> simp [boot, h, Context.new] at hp
  running p hp hne := by
    simp only [boot] at hne ⊢
    rw [if_neg hne]
    rfl
  once := .nil
  clock := by decide
  cause p := by
    have hrun : (boot.ctx p).status ≠ .blocked := by
      by_cases h : p = 1 <;> simp [boot, h, Context.new]
    exact ⟨fun hb => (hrun hb).elim, fun hb => (hrun hb).elim, nofun⟩

/-- A deadline that is due has passed. -/
theorem nanos_le_of_due (h : due now wake = true) (hw : wake.nsec < NANOS) : wake.nanos ≤ now.nanos := by
  simp only [due, Bool.decide_or, Bool.or_eq_true, decide_eq_true_eq] at h
  simp only [Time.nanos]
  rcases h with hlt | ⟨heq, hle⟩
  · have hmul : (wake.sec + 1) * NANOS ≤ now.sec * NANOS := Nat.mul_le_mul_right NANOS hlt
    rw [Nat.add_mul] at hmul
    omega
  · rw [heq]
    omega

theorem nanos_le_sleepEnd {start : Time} (hstart : start.nsec < NANOS) (hn : nsec < 2 ^ 31)
    (hfits : Fits start sec nsec) :
    (start.nanos : Int) + sec * NANOS + nsec ≤ (sleepEnd start sec nsec).nanos := by
  simp only [Fits, sleepEnd, Time.nanos, asU64, NANOS] at hstart hfits ⊢
  have hsum : (start.nsec : Int) + nsec ≤ ((start.nsec + (nsec % 2 ^ 64).toNat) % 2 ^ 64 : Nat) := by
    omega
  generalize (start.nsec + (nsec % 2 ^ 64).toNat) % 2 ^ 64 = sum at hsum hfits ⊢
  have hsec : (start.sec : Int) + sec + (sum / 1000000000 : Nat) ≤
      ((start.sec + (sec % 2 ^ 64).toNat + sum / 1000000000) % 2 ^ 64 : Nat) := by
    omega
  omega

/-- A context that nothing happens to. -/
theorem Cause.frame (h : Cause w p) (hstatus : (w'.ctx p).status = (w.ctx p).status)
    (hwake : (w'.ctx p).wake = (w.ctx p).wake) (hwhy : w'.why p = w.why p)
    (hsleeps : ∀ t, w'.sleeps p = some t → w.sleeps p = some t ∧
      ((w.ctx p).pending ≠ [] → (w'.ctx p).pending ≠ []))
    (hclock : w.clock.nanos ≤ w'.clock.nanos) (hpids : p ∈ w.pids → p ∈ w'.pids) (hreg : ∀ k, Registered w' p k → Registered w p k) :
    Cause w' p where
  registered hb k hk := by
    rw [hstatus] at hb
    rw [hwhy]
    exact h.registered hb k (hreg k hk)
  timeless hb k hk := by
    rw [hstatus] at hb
    rw [hwhy] at hk
    rw [hwake]
    exact h.timeless hb k hk
  sleeping t ht := by
    obtain ⟨hold, hpending⟩ := hsleeps t ht
    obtain ⟨hmem, hidle, hrest⟩ := h.sleeping t hold
    refine ⟨hpids hmem, hidle, ?_⟩
    rcases hrest with ⟨hb, hnone, hdeadline⟩ | hpast | hsignal
    · refine .inl ⟨hstatus ▸ hb, hwhy ▸ hnone, ?_⟩
      rw [hwake]
      exact hdeadline
    · exact .inr (.inl (by omega))
    · exact .inr (.inr (hpending hsignal))

/-- A context that is not blocked after. -/
theorem Cause.awake (h : Cause w p) (hb : (w'.ctx p).status ≠ .blocked)
    (hsleeps : ∀ t, w'.sleeps p = some t → w.sleeps p = some t ∧
      ((w.ctx p).pending ≠ [] → (w'.ctx p).pending ≠ []) ∧
      (Asleep w p t → t ≤ w.clock.nanos ∨ (w.ctx p).pending ≠ []))
    (hclock : w.clock.nanos ≤ w'.clock.nanos) (hpids : p ∈ w.pids → p ∈ w'.pids) : Cause w' p where
  registered hb' := (hb hb').elim
  timeless hb' := (hb hb').elim
  sleeping t ht := by
    obtain ⟨hold, hpending, hasleep⟩ := hsleeps t ht
    obtain ⟨hmem, hidle, hrest⟩ := h.sleeping t hold
    refine ⟨hpids hmem, hidle, .inr ?_⟩
    have hdone : t ≤ w.clock.nanos ∨ (w.ctx p).pending ≠ [] := by
      rcases hrest with hs | hdone
      · exact hasleep hs
      · exact hdone
    rcases hdone with hpast | hsignal
    · exact .inl (by omega)
    · exact .inr (hpending hsignal)

/-- A context that the scheduler looks at. -/
theorem Cause.checked (h : Cause w p) {c : Context} (hc : Checked w.clock (w.ctx p) c)
    (hstatus : (w'.ctx p).status = c.status) (hwake : (w'.ctx p).wake = c.wake) (hwhy : w'.why p = w.why p)
    (hsleeps : ∀ t, w'.sleeps p = some t → w.sleeps p = some t ∧ (w'.ctx p).pending = c.pending)
    (hclock : w'.clock = w.clock) (hpids : w'.pids = w.pids)
    (hreg : ∀ k, Registered w' p k → Registered w p k) : Cause w' p := by
  have hle : w.clock.nanos ≤ w'.clock.nanos := Nat.le_of_eq (by rw [hclock])
  rcases hc with rfl | ⟨hb, hcause, rfl⟩
  · exact h.frame hstatus hwake hwhy (fun t ht => ⟨(hsleeps t ht).1, (hsleeps t ht).2.symm ▸ id⟩) hle
      (fun hp => hpids ▸ hp) hreg
  · refine h.awake (by simp [hstatus]) ?_ hle (fun hp => hpids ▸ hp)
    intro t ht
    refine ⟨(hsleeps t ht).1, (hsleeps t ht).2.symm ▸ id, ?_⟩
    rintro ⟨-, -, wake, hw, hle, hn⟩
    rcases hcause with hsignal | ⟨wake', hw', hdue⟩
    · exact .inr hsignal
    · cases hw.symm.trans hw'
      have hpast := nanos_le_of_due hdue hn
      exact .inl (by omega)

/-- A notifier that has a context does not wake it from its sleep. -/
theorem Cause.not_asleep (h : Cause w p) {k : Notifier} (hk : Registered w p k) : ¬ Asleep w p t := by
  rintro ⟨hb, hnone, -⟩
  rw [h.registered hb k hk] at hnone
  cases hnone

/-- A notifier unblocks a context that it has. -/
theorem Cause.notified (h : Cause w p) {k : Notifier} (hk : Registered w p k)
    (hctx : w'.ctx p = (w.ctx p).unblock) (hsleeps : w'.sleeps = w.sleeps) (hclock : w'.clock = w.clock)
    (hpids : w'.pids = w.pids) : Cause w' p := by
  have hpending : (w'.ctx p).pending = (w.ctx p).pending := by
    rw [hctx]
    by_cases hb : (w.ctx p).status = .blocked
    · rw [Context.unblock_of_blocked hb]
    · rw [Context.unblock_of_ne hb]
  refine h.awake ?_ ?_ (Nat.le_of_eq (by rw [hclock])) (fun hp => hpids ▸ hp)
  · rw [hctx]
    exact Context.unblock_not_blocked _
  · intro t ht
    exact ⟨hsleeps ▸ ht, fun hs => hpending ▸ hs, fun hs => (h.not_asleep hk hs).elim⟩

theorem runnable_of_calls (hcalls : w.calls = true) :
    (w.ctx w.current).status = .runnable ∧ w.current ≠ idle := by
  simpa [World.calls] using hcalls

theorem sleeps_of_update {sleeps : Nat → Option Int} (h : Function.update sleeps q none p = some t) :
    p ≠ q ∧ sleeps p = some t := by
  by_cases hp : p = q
  · subst hp
    rw [Function.update_self] at h
    cases h
  · rw [Function.update_of_ne hp] at h
    exact ⟨hp, h⟩

namespace Inv

/-- The current context does something to itself alone. -/
theorem caller (h : Inv w) (hcalls : w.calls = true) (hcurrent : w'.current = w.current)
    (hpids : w'.pids = w.pids) (hclock : w'.clock = w.clock) (honce : (w'.futexes.map Prod.snd).Nodup)
    (hother : ∀ p, p ≠ w.current → w'.ctx p = w.ctx p ∧ w'.why p = w.why p ∧
      w'.sleeps p = w.sleeps p ∧ ∀ k, Registered w' p k → Registered w p k)
    (hself : Cause w' w.current) : Inv w' where
  idle := by
    rw [hpids, (hother Waiting.idle (runnable_of_calls hcalls).2.symm).1]
    exact h.idle
  current := by
    rw [hcurrent, hpids]
    exact h.current
  known p hb := by
    rw [hpids]
    by_cases hp : p = w.current
    · exact hp ▸ h.current
    · exact h.known p ((hother p hp).1 ▸ hb)
  running p hp hne := by
    rw [hcurrent] at hne
    rw [(hother p hne).1]
    exact h.running p (hpids ▸ hp) hne
  once := honce
  clock := hclock ▸ h.clock
  cause p := by
    by_cases hp : p = w.current
    · exact hp ▸ hself
    · obtain ⟨hctx, hwhy, hsleeps, hreg⟩ := hother p hp
      exact (h.cause p).frame (congrArg _ hctx) (congrArg _ hctx) hwhy
        (fun t ht => ⟨hsleeps ▸ ht, hctx ▸ id⟩) (Nat.le_of_eq (by rw [hclock])) (fun hp => hpids ▸ hp) hreg

/-- The current context waits for a notifier. -/
theorem blocks (h : Inv w) (hcalls : w.calls = true) (hfree : Free w)
    (hwake : (w.ctx w.current).wake = none) {k : Notifier} (hctx : w'.ctx = (w.block (some k)).ctx)
    (hwhy : w'.why = (w.block (some k)).why) (hsleeps : w'.sleeps = w.sleeps)
    (hcurrent : w'.current = w.current) (hpids : w'.pids = w.pids) (hclock : w'.clock = w.clock)
    (honce : (w'.futexes.map Prod.snd).Nodup)
    (hreg : ∀ p j, Registered w' p j → Registered w p j ∨ p = w.current ∧ j = k) : Inv w' := by
  have hrun := (runnable_of_calls hcalls).1
  have hself : w'.ctx w.current = { w.ctx w.current with status := .blocked } := by
    simp [hctx, World.block, World.set, Context.block_of_runnable hrun]
  have hreason : w'.why w.current = some k := by simp [hwhy, World.block]
  refine h.caller hcalls hcurrent hpids hclock honce ?_ ⟨?_, ?_, ?_⟩
  · intro p hp
    refine ⟨by simp [hctx, World.block, World.set, hp], by simp [hwhy, World.block, hp],
      by rw [hsleeps], ?_⟩
    intro j hj
    exact (hreg p j hj).resolve_right fun hboth => hp hboth.1
  · intro _ j hj
    rcases hreg _ j hj with hold | ⟨-, rfl⟩
    · exact (hfree j hold).elim
    · exact hreason
  · intro _ _ _
    rw [hself]
    exact hwake
  · intro t ht
    obtain ⟨hmem, hidle, hrest⟩ := (h.cause w.current).sleeping t (hsleeps ▸ ht)
    refine ⟨hpids ▸ hmem, hidle, .inr ?_⟩
    rw [hself, hclock]
    refine hrest.resolve_left fun hasleep => ?_
    rw [hasleep.1] at hrun
    cases hrun

theorem wait (h : Inv w) (hcalls : w.calls = true) {k : Nat} (ho : Orderly w (.wait k)) :
    Inv (Waiting.wait w k) := by
  refine h.blocks hcalls ho.1 ho.2 rfl rfl rfl rfl rfl rfl h.once ?_
  intro p j hj
  cases j with
  | condition c =>
    simp only [Registered, Waiting.wait] at hj ⊢
    by_cases hc : c = k
    · subst hc
      rw [Function.update_self, List.mem_append, List.mem_singleton] at hj
      rcases hj with hj | hj
      · exact .inl hj
      · exact .inr ⟨hj, rfl⟩
    · rw [Function.update_of_ne hc] at hj
      exact .inl hj
  | futex addr => exact .inl hj
  | vfork child => exact .inl hj

theorem futexWait (h : Inv w) (hcalls : w.calls = true) {addr : Nat} (ho : Orderly w (.futexWait addr)) :
    Inv (Waiting.futexWait w addr) := by
  refine h.blocks hcalls ho.1 ho.2 rfl rfl rfl rfl rfl rfl ?_ ?_
  · have hmap : (Waiting.futexWait w addr).futexes.map Prod.snd =
        w.futexes.map Prod.snd ++ [w.current] := List.map_append
    rw [hmap]
    refine List.nodup_append.mpr ⟨h.once, List.nodup_singleton _, ?_⟩
    intro x hx y hy hxy
    obtain ⟨e, he, heq⟩ := List.mem_map.mp hx
    rw [List.mem_singleton.mp hy] at hxy
    refine ho.1 (.futex e.1) ?_
    rw [← hxy, ← heq]
    exact he
  · intro p j hj
    cases j with
    | condition c => exact .inl hj
    | futex a =>
      rcases List.mem_append.mp hj with hj | hj
      · exact .inl hj
      · cases List.mem_singleton.mp hj
        exact .inr ⟨rfl, rfl⟩
    | vfork child => exact .inl hj

theorem nanosleep (h : Inv w) (hcalls : w.calls = true) (hn : nsec < 2 ^ 31)
    (ho : Orderly w (.nanosleep sec nsec)) : Inv (Waiting.nanosleep w sec nsec) := by
  have hrun := (runnable_of_calls hcalls).1
  have hself : (Waiting.nanosleep w sec nsec).ctx w.current =
      { w.ctx w.current with status := .blocked, wake := some (sleepEnd w.clock sec nsec) } := by
    simp [Waiting.nanosleep, World.block, World.set, Context.block, hrun]
  have hreg : ∀ p k, Registered (Waiting.nanosleep w sec nsec) p k → Registered w p k := by
    intro p k hk
    cases k <;> exact hk
  refine h.caller hcalls rfl rfl rfl h.once ?_ ⟨?_, ?_, ?_⟩
  · intro p hp
    refine ⟨?_, ?_, ?_, hreg p⟩ <;> simp [Waiting.nanosleep, World.block, World.set, hp]
  · intro _ k hk
    exact (ho.1 k (hreg _ k hk)).elim
  · intro _ k hk
    simp [Waiting.nanosleep, World.block, World.set] at hk
  · intro t ht
    have htarget : t = w.clock.nanos + sec * NANOS + nsec := by
      simp only [Waiting.nanosleep, Function.update_self] at ht
      exact (Option.some.inj ht).symm
    refine ⟨h.current, (runnable_of_calls hcalls).2, .inl ⟨?_, ?_, sleepEnd w.clock sec nsec, ?_, ?_, ?_⟩⟩
    · rw [hself]
    · simp [Waiting.nanosleep, World.block, World.set]
    · rw [hself]
    · rw [htarget]
      exact nanos_le_sleepEnd h.clock hn ho.2
    · exact Nat.mod_lt _ (by decide)

theorem exit (h : Inv w) (hcalls : w.calls = true) :
    Inv (w.set w.current { w.ctx w.current with status := .exited () }) := by
  have hrun := (runnable_of_calls hcalls).1
  refine h.caller hcalls rfl rfl rfl h.once ?_ ?_
  · intro p hp
    refine ⟨by simp [World.set, hp], rfl, rfl, ?_⟩
    intro k hk
    cases k <;> exact hk
  · refine (h.cause w.current).awake ?_ ?_ (Nat.le_refl _) id
    · simp [World.set]
    · refine fun t ht => ⟨ht, by simp [World.set], fun hasleep => ?_⟩
      rw [hasleep.1] at hrun
      cases hrun

/-- A context that is new comes in. -/
theorem spawn (h : Inv w) (hchild : child ∉ w.pids) : Inv { w.set child Context.new with
    pids := w.pids.filter (· < child) ++ child :: w.pids.filter (· > child) } := by
  have hpids : ∀ p, p ∈ w.pids.filter (· < child) ++ child :: w.pids.filter (· > child) ↔
      p = child ∨ p ∈ w.pids := by
    intro p
    simp only [List.mem_append, List.mem_cons, List.mem_filter, decide_eq_true_eq]
    by_cases hp : p = child
    · simp [hp]
    · constructor
      · rintro (hm | hm | hm)
        · exact .inr hm.1
        · exact (hp hm).elim
        · exact .inr hm.1
      · rintro (hm | hm)
        · exact (hp hm).elim
        · rcases Nat.lt_or_gt_of_ne hp with hlt | hgt
          · exact .inl ⟨hm, hlt⟩
          · exact .inr (.inr ⟨hm, hgt⟩)
  have hother : ∀ p, p ≠ child → (w.set child Context.new).ctx p = w.ctx p := by
    intro p hp
    simp [World.set, hp]
  have hself : (w.set child Context.new).ctx child = Context.new := by simp [World.set]
  refine ⟨⟨(hpids _).mpr (.inr h.idle.1), ?_⟩, (hpids _).mpr (.inr h.current), ?_, ?_, h.once, h.clock, ?_⟩
  · exact (hother _ fun heq => hchild (heq ▸ h.idle.1)) ▸ h.idle.2
  · intro p hb
    by_cases hp : p = child
    · exact (hpids p).mpr (.inl hp)
    · exact (hpids p).mpr (.inr (h.known p (hother p hp ▸ hb)))
  · intro p hp hne
    by_cases hpc : p = child
    · subst hpc
      change ((w.set p Context.new).ctx p).running = false
      rw [hself]
      rfl
    · exact (hother p hpc) ▸ h.running p (((hpids p).mp hp).resolve_left hpc) hne
  · intro p
    by_cases hp : p = child
    · subst hp
      have hrun : ((w.set p Context.new).ctx p).status ≠ .blocked := by
        rw [hself]
        decide
      refine ⟨fun hb => (hrun hb).elim, fun hb => (hrun hb).elim, ?_⟩
      intro t ht
      exact (hchild ((h.cause p).sleeping t ht).1).elim
    · refine (h.cause p).frame (congrArg _ (hother p hp)) (congrArg _ (hother p hp)) rfl
        (fun _ ht => ⟨ht, (hother p hp).symm ▸ id⟩) (Nat.le_refl _) (fun hm => (hpids p).mpr (.inr hm)) ?_
      intro k hk
      cases k <;> exact hk

theorem clone (h : Inv w) (hcalls : w.calls = true) (hchild : child ∉ w.pids) {vfork : Bool}
    (ho : Orderly w (.clone child vfork)) : Inv (Waiting.clone w child vfork) := by
  cases vfork with
  | false => exact h.spawn hchild
  | true =>
    obtain ⟨hfree, hwake⟩ := ho rfl
    have hblocked : Inv { w.block (some (.vfork child)) with
        vforks := Function.update w.vforks child (some w.current) } := by
      refine h.blocks hcalls hfree hwake rfl rfl rfl rfl rfl rfl h.once ?_
      intro p j hj
      cases j with
      | condition c => exact .inl hj
      | futex addr => exact .inl hj
      | vfork c =>
        simp only [Registered] at hj ⊢
        by_cases hc : c = child
        · subst hc
          rw [Function.update_self] at hj
          exact .inr ⟨(Option.some.inj hj).symm, rfl⟩
        · rw [Function.update_of_ne hc] at hj
          exact .inl hj
    exact hblocked.spawn hchild

/-- Notifiers unblock some contexts that they have. -/
theorem notified (h : Inv w) (ps : List Nat) (hps : ∀ p ∈ ps, ∃ k, Registered w p k)
    (hctx : w'.ctx = (w.unblockAll ps).ctx) (hsleeps : w'.sleeps = w.sleeps)
    (hcurrent : w'.current = w.current) (hpids : w'.pids = w.pids) (hclock : w'.clock = w.clock)
    (honce : (w'.futexes.map Prod.snd).Nodup) (hother : ∀ p, p ∉ ps → Cause w' p) : Inv w' := by
  have hin : ∀ p ∈ ps, w'.ctx p = (w.ctx p).unblock := by
    intro p hp
    rw [hctx, unblockAll_eq]
    exact if_pos hp
  have hout : ∀ p, p ∉ ps → w'.ctx p = w.ctx p := by
    intro p hp
    rw [hctx, unblockAll_eq]
    exact if_neg hp
  refine ⟨⟨hpids ▸ h.idle.1, ?_⟩, ?_, ?_, ?_, honce, hclock ▸ h.clock, ?_⟩
  · by_cases hp : Waiting.idle ∈ ps
    · have hne : (w.ctx Waiting.idle).status ≠ .blocked := by simp [h.idle.2]
      rw [hin _ hp, Context.unblock_of_ne hne]
      exact h.idle.2
    · rw [hout _ hp]
      exact h.idle.2
  · rw [hcurrent, hpids]
    exact h.current
  · intro p hb
    rw [hpids]
    by_cases hp : p ∈ ps
    · rw [hin p hp] at hb
      exact (Context.unblock_not_blocked _ hb).elim
    · exact h.known p (hout p hp ▸ hb)
  · intro p hp hne
    rw [hcurrent] at hne
    rw [hpids] at hp
    have hold := h.running p hp hne
    by_cases hps : p ∈ ps
    · rw [hin p hps]
      by_cases hb : (w.ctx p).status = .blocked
      · rw [Context.unblock_of_blocked hb]
        exact hold
      · rw [Context.unblock_of_ne hb]
        exact hold
    · rw [hout p hps]
      exact hold
  · intro p
    by_cases hp : p ∈ ps
    · obtain ⟨k, hk⟩ := hps p hp
      exact (h.cause p).notified hk (hin p hp) hsleeps hclock hpids
    · exact hother p hp

theorem notify (h : Inv w) (k : Nat) : Inv (Waiting.notify w k) := by
  refine h.notified (w.conditions k).reverse ?_ rfl ?_ ?_ ?_ ?_ ?_ ?_
  · exact fun p hp => ⟨.condition k, List.mem_reverse.mp hp⟩
  all_goals simp only [Waiting.notify, unblockAll_eq]
  · exact h.once
  · intro p hp
    refine (h.cause p).frame ?_ ?_ rfl (fun _ ht => ⟨ht, ?_⟩) (Nat.le_refl _) id ?_
    · simp only [if_neg hp]
    · simp only [if_neg hp]
    · simp only [if_neg hp]
      exact id
    · intro j hj
      cases j with
      | condition c =>
        simp only [Registered] at hj ⊢
        by_cases hc : c = k
        · subst hc
          rw [Function.update_self] at hj
          cases hj
        · rwa [Function.update_of_ne hc] at hj
      | futex addr => exact hj
      | vfork child => exact hj

theorem woke (h : Inv w) {addr addr2 : Nat} {woken : List Nat} (hw : Woke w addr addr2 woken w') :
    Inv w' := by
  have hspec := hw.spec h.once
  have hrest : w'.ctx = (w.unblockAll woken).ctx ∧ w'.sleeps = w.sleeps ∧ w'.current = w.current ∧
      w'.pids = w.pids ∧ w'.clock = w.clock ∧ w'.conditions = w.conditions ∧ w'.vforks = w.vforks := by
    rw [hspec.eq]
    simp only [World.requeued, unblockAll_eq, and_self]
  obtain ⟨hctx, hsleeps, hcurrent, hpids, hclock, hconditions, hvforks⟩ := hrest
  refine h.notified woken (fun p hp => ⟨.futex addr, hspec.taken p hp⟩) hctx hsleeps hcurrent hpids hclock
    hspec.nodup ?_
  intro p hp
  have hself := hspec.ctx_of_not_mem hp
  have hc := h.cause p
  refine ⟨?_, ?_, ?_⟩
  · intro hb k hk
    rw [hself] at hb
    -- only who has an entry at the address can come to wait elsewhere
    have hsame : (∀ a, k ≠ .futex a) → w'.why p = some k := by
      intro hne
      have hold : w.why p = some k := by
        cases k with
        | condition c =>
          refine hc.registered hb _ ?_
          simp only [Registered] at hk ⊢
          rwa [hconditions] at hk
        | futex a => exact (hne a rfl).elim
        | vfork child =>
          refine hc.registered hb _ ?_
          simp only [Registered] at hk ⊢
          rwa [hvforks] at hk
      rw [hspec.why_of_ne, hold]
      rw [hold]
      exact fun heq => hne addr (Option.some.inj heq)
    cases k with
    | condition c => exact hsame (by rintro a ⟨⟩)
    | futex a => exact hspec.why (fun b hb' => hc.registered hb (.futex b) hb') hk
    | vfork child => exact hsame (by rintro a ⟨⟩)
  · intro hb k hk
    rw [hself] at hb ⊢
    by_cases hwhy : w.why p = some (.futex addr)
    · exact hc.timeless hb _ hwhy
    · rw [hspec.why_of_ne hwhy] at hk
      exact hc.timeless hb k hk
  · intro t ht
    obtain ⟨hmem, hidle, hrest⟩ := hc.sleeping t (hsleeps ▸ ht)
    refine ⟨hpids ▸ hmem, hidle, ?_⟩
    rcases hrest with ⟨hb, hnone, hdeadline⟩ | hdone
    · refine .inl ⟨hself ▸ hb, ?_, hself ▸ hdeadline⟩
      rw [hspec.why_of_ne, hnone]
      rw [hnone]
      rintro ⟨⟩
    · rw [hself, hclock]
      exact .inr hdone

theorem vforkDone (h : Inv w) (child : Nat) : Inv (Waiting.vforkDone w child) := by
  unfold Waiting.vforkDone
  split
  · rename_i parent hparent
    refine h.notified [parent] ?_ rfl rfl rfl rfl rfl h.once ?_
    · intro p hp
      cases List.mem_singleton.mp hp
      exact ⟨.vfork child, hparent⟩
    · intro p hp
      have hne : p ≠ parent := fun heq => hp (List.mem_singleton.mpr heq)
      refine (h.cause p).frame ?_ ?_ rfl (fun _ ht => ⟨ht, ?_⟩) (Nat.le_refl _) id ?_
      · simp [World.unblock, World.set, hne]
      · simp [World.unblock, World.set, hne]
      · simp [World.unblock, World.set, hne]
      · intro j hj
        cases j with
        | condition c => exact hj
        | futex addr => exact hj
        | vfork c =>
          simp only [Registered] at hj ⊢
          by_cases hc : c = child
          · subst hc
            rw [Function.update_self] at hj
            cases hj
          · rwa [Function.update_of_ne hc] at hj
  · exact h

theorem signal (h : Inv w) (q sig : Nat) :
    Inv (w.set q { w.ctx q with pending := (w.ctx q).pending ++ [sig] }) := by
  have hall : ∀ p, ((w.set q { w.ctx q with pending := (w.ctx q).pending ++ [sig] }).ctx p).status =
      (w.ctx p).status ∧ ((w.set q { w.ctx q with pending := (w.ctx q).pending ++ [sig] }).ctx p).wake =
      (w.ctx p).wake ∧ ((w.set q { w.ctx q with pending := (w.ctx q).pending ++ [sig] }).ctx p).running =
      (w.ctx p).running ∧ ((w.ctx p).pending ≠ [] →
      ((w.set q { w.ctx q with pending := (w.ctx q).pending ++ [sig] }).ctx p).pending ≠ []) := by
    intro p
    by_cases hp : p = q
    · subst hp
      simp [World.set]
    · simp [World.set, hp]
  refine ⟨⟨h.idle.1, (hall _).1.trans h.idle.2⟩, h.current, fun p hb => h.known p ((hall p).1 ▸ hb),
    fun p hp hne => (hall p).2.2.1.trans (h.running p hp hne), h.once, h.clock, ?_⟩
  intro p
  obtain ⟨hstatus, hwake, -, hpending⟩ := hall p
  refine (h.cause p).frame hstatus hwake rfl (fun _ ht => ⟨ht, hpending⟩) (Nat.le_refl _) id ?_
  intro k hk
  cases k <;> exact hk

theorem tick (h : Inv w) (hmono : w.clock.nanos ≤ now.nanos) (hn : now.nsec < NANOS) :
    Inv { w with clock := now } := by
  refine ⟨h.idle, h.current, h.known, h.running, h.once, hn, ?_⟩
  intro p
  refine (h.cause p).frame rfl rfl rfl (fun _ ht => ⟨ht, id⟩) hmono id ?_
  intro k hk
  cases k <;> exact hk

theorem switch (h : Inv w) : Inv (Waiting.switch w) := by
  have hreg : ∀ (ctx : Nat → Context) current sleeps p k,
      Registered { w with ctx, current, sleeps } p k → Registered w p k := by
    intro ctx current sleeps p k hk
    cases k <;> exact hk
  obtain ⟨ctx, hchecked, ⟨-, heq⟩ | ⟨next, hmem, hne, hs, hr, heq⟩⟩ := switch_cases w
  · rw [heq]
    refine ⟨⟨h.idle.1, (hchecked _).runnable h.idle.2⟩, h.current,
      fun p hb => h.known p ((hchecked p).blocked hb),
      fun p hp hne => (hchecked p).rest.2.2.trans (h.running p hp hne), h.once, h.clock, ?_⟩
    intro p
    refine (h.cause p).checked (hchecked p) rfl rfl rfl ?_ rfl rfl (hreg _ _ _ p)
    exact fun t ht => ⟨(sleeps_of_update ht).2, rfl⟩
  · rw [heq]
    -- the two updates leave all but `running` and the signals of the next context
    have hall : ∀ p, ∃ running, Function.update (Function.update ctx w.current
        { ctx w.current with running := false }) next
        { ctx next with running := true, pending := (ctx next).pending.tail } p =
        { ctx p with running, pending := if p = next then (ctx p).pending.tail else (ctx p).pending } ∧
        (p ≠ next → p ∈ w.pids → running = false) := by
      intro p
      by_cases hpn : p = next
      · subst hpn
        exact ⟨true, by simp, fun hnn => (hnn rfl).elim⟩
      · rw [Function.update_of_ne hpn, if_neg hpn]
        by_cases hpc : p = w.current
        · subst hpc
          exact ⟨false, by simp, fun _ _ => rfl⟩
        · rw [Function.update_of_ne hpc]
          exact ⟨(ctx p).running, rfl, fun _ hp => (hchecked p).rest.2.2.trans (h.running p hp hpc)⟩
    refine ⟨⟨h.idle.1, ?_⟩, hmem, ?_, ?_, h.once, h.clock, ?_⟩
    · obtain ⟨running, hctx, -⟩ := hall Waiting.idle
      simp only [hctx]
      exact (hchecked _).runnable h.idle.2
    · intro p hb
      obtain ⟨running, hctx, -⟩ := hall p
      simp only [hctx] at hb
      exact h.known p ((hchecked p).blocked hb)
    · intro p hp hpn
      obtain ⟨running, hctx, hrunning⟩ := hall p
      simp only [hctx]
      exact hrunning hpn hp
    · intro p
      obtain ⟨running, hctx, -⟩ := hall p
      refine (h.cause p).checked (hchecked p) ?_ ?_ rfl ?_ rfl rfl (hreg _ _ _ p)
      · simp only [hctx]
      · simp only [hctx]
      · intro t ht
        obtain ⟨hpn, hold⟩ := sleeps_of_update ht
        refine ⟨hold, ?_⟩
        simp only [hctx, if_neg hpn]

theorem step (h : Inv w) (hstep : Step Orderly w act w') : Inv w' := by
  obtain ⟨ho, hact⟩ := hstep
  cases act with
  | nanosleep sec nsec =>
    obtain ⟨⟨hcalls, -, hn⟩, ⟨⟩⟩ := Option.ite_none_right_eq_some.mp hact
    exact h.nanosleep hcalls hn.2 ho
  | wait k =>
    obtain ⟨hcalls, ⟨⟩⟩ := Option.ite_none_right_eq_some.mp hact
    exact h.wait hcalls ho
  | notify k =>
    cases hact
    exact h.notify k
  | futexWait addr =>
    obtain ⟨hcalls, ⟨⟩⟩ := Option.ite_none_right_eq_some.mp hact
    exact h.futexWait hcalls ho
  | futexWake addr val =>
    obtain ⟨-, ⟨⟩⟩ := Option.ite_none_right_eq_some.mp hact
    exact h.woke (futexWake_woke w addr val)
  | futexRequeue addr addr2 val val2 =>
    obtain ⟨-, ⟨⟩⟩ := Option.ite_none_right_eq_some.mp hact
    exact h.woke (futexRequeue_woke w addr addr2 val val2)
  | clone child vfork =>
    obtain ⟨⟨hcalls, hchild⟩, ⟨⟩⟩ := Option.ite_none_right_eq_some.mp hact
    exact h.clone hcalls hchild ho
  | vforkDone child =>
    cases hact
    exact h.vforkDone child
  | exit =>
    obtain ⟨hcalls, ⟨⟩⟩ := Option.ite_none_right_eq_some.mp hact
    exact h.exit hcalls
  | signal q sig =>
    cases hact
    exact h.signal q sig
  | tick now =>
    obtain ⟨⟨hmono, hn⟩, ⟨⟩⟩ := Option.ite_none_right_eq_some.mp hact
    exact h.tick hmono hn
  | switch =>
    cases hact
    exact h.switch

theorem run (h : Run (Step Orderly) boot acts w) : Inv w :=
  h.invariant (fun _ _ _ hstep hi => hi.step hstep) inv_boot

/-- A context that calls wakes nobody and ends no sleep. -/
theorem forCause_caller (h : Inv w) (hcalls : w.calls = true)
    (hother : ∀ p ∈ w.pids, p ≠ w.current → w'.ctx p = w.ctx p)
    (hsleeps : ∀ p t, w.sleeps p = some t → w'.sleeps p ≠ none) : ForCause w act w' where
  woken p k hb _ hnot := by
    have hne : p ≠ w.current := by
      rintro rfl
      rw [(runnable_of_calls hcalls).1] at hb
      cases hb
    rw [hother p (h.known p hb) hne] at hnot
    exact (hnot hb).elim
  slept p t ht hnone := (hsleeps p t ht hnone).elim

/-- Who is woken by a notifier waits for it. -/
theorem forCause_notified (h : Inv w) (ps : List Nat)
    (hps : ∀ p ∈ ps, ∃ k, Registered w p k ∧ Notifies k act)
    (hctx : ∀ p, p ∉ ps → w'.ctx p = w.ctx p) (hsleeps : w'.sleeps = w.sleeps) : ForCause w act w' where
  woken p k hb hwhy hnot := by
    by_cases hp : p ∈ ps
    · obtain ⟨j, hreg, hnotifies⟩ := hps p hp
      have heq := (h.cause p).registered hb j hreg
      cases hwhy.symm.trans heq
      exact .inl hnotifies
    · rw [hctx p hp] at hnot
      exact (hnot hb).elim
  slept p t ht hnone := by
    rw [hsleeps, ht] at hnone
    cases hnone

theorem forCause_woke (h : Inv w) {addr addr2 : Nat} {woken : List Nat}
    (hw : Woke w addr addr2 woken w') (hact : Notifies (.futex addr) act) : ForCause w act w' := by
  have hspec := hw.spec h.once
  refine h.forCause_notified woken (fun p hp => ⟨.futex addr, hspec.taken p hp, hact⟩)
    (fun p hp => hspec.ctx_of_not_mem hp) ?_
  rw [hspec.eq]
  simp only [World.requeued, unblockAll_eq]

theorem forCause_switch (h : Inv w) : ForCause w .switch (Waiting.switch w) := by
  -- the scheduler wakes for a signal, or for a deadline, which only a sleep has
  have hsignal : ∀ {c : Context} {p k}, Checked w.clock (w.ctx p) c → (w.ctx p).status = .blocked →
      w.why p = some k → c.status ≠ .blocked → (w.ctx p).pending ≠ [] := by
    intro c p k hc hb hwhy hnot
    rcases hc with rfl | ⟨-, hpending | ⟨wake, hw, -⟩, -⟩
    · exact (hnot hb).elim
    · exact hpending
    · rw [(h.cause p).timeless hb k hwhy] at hw
      cases hw
  obtain ⟨ctx, hchecked, ⟨halone, heq⟩ | ⟨next, hmem, hne, hs, hr, heq⟩⟩ := switch_cases w
  · rw [heq]
    refine ⟨fun p k hb hwhy hnot => .inr ⟨rfl, hsignal (hchecked p) hb hwhy hnot⟩, ?_⟩
    intro p t ht hnone
    have hp : p = w.current := by
      by_contra hp
      simp only [Function.update_of_ne hp, ht] at hnone
      cases hnone
    subst hp
    -- the idle context could have run
    have hidle := ((h.cause w.current).sleeping t ht).2.1.symm
    have hrunning := halone Waiting.idle h.idle.1 hidle h.idle.2
    rw [h.running _ h.idle.1 hidle] at hrunning
    cases hrunning
  · rw [heq]
    refine ⟨?_, ?_⟩
    · intro p k hb hwhy hnot
      refine .inr ⟨rfl, hsignal (hchecked p) hb hwhy ?_⟩
      by_cases hpn : p = next
      · subst hpn
        rw [hs]
        exact nofun
      · simp only [Function.update_of_ne hpn] at hnot
        by_cases hpc : p = w.current
        · subst hpc
          simpa using hnot
        · simpa only [Function.update_of_ne hpc] using hnot
    · intro p t ht hnone
      have hp : p = next := by
        by_contra hp
        simp only [Function.update_of_ne hp, ht] at hnone
        cases hnone
      subst hp
      rcases ((h.cause p).sleeping t ht).2.2 with ⟨hb, -, wake, hw, hle, hn⟩ | hdone
      · rcases hchecked p with hsame | ⟨-, hpending | ⟨wake', hw', hdue⟩, -⟩
        · rw [hsame, hb] at hs
          cases hs
        · exact .inr hpending
        · cases hw.symm.trans hw'
          have hpast := nanos_le_of_due hdue hn
          exact .inl (by omega)
      · exact hdone

theorem forCause (h : Inv w) (hact : w.act act = some w') : ForCause w act w' := by
  have hsame : ∀ p t, w.sleeps p = some t → w.sleeps p ≠ none := by
    intro p t ht hnone
    rw [ht] at hnone
    cases hnone
  cases act with
  | nanosleep sec nsec =>
    obtain ⟨⟨hcalls, -⟩, ⟨⟩⟩ := Option.ite_none_right_eq_some.mp hact
    refine h.forCause_caller hcalls (fun p _ hp => ?_) (fun p t ht => ?_)
    · simp [Waiting.nanosleep, World.block, World.set, hp]
    · by_cases hp : p = w.current <;> simp [Waiting.nanosleep, World.block, World.set, hp]
      exact hsame p t ht
  | wait k =>
    obtain ⟨hcalls, ⟨⟩⟩ := Option.ite_none_right_eq_some.mp hact
    refine h.forCause_caller hcalls (fun p _ hp => ?_) hsame
    simp [Waiting.wait, World.block, World.set, hp]
  | notify k =>
    cases hact
    refine h.forCause_notified (w.conditions k).reverse
      (fun p hp => ⟨.condition k, List.mem_reverse.mp hp, rfl⟩) (fun p hp => ?_) ?_
    · simp only [Waiting.notify, unblockAll_eq, if_neg hp]
    · simp only [Waiting.notify, unblockAll_eq]
  | futexWait addr =>
    obtain ⟨hcalls, ⟨⟩⟩ := Option.ite_none_right_eq_some.mp hact
    refine h.forCause_caller hcalls (fun p _ hp => ?_) hsame
    simp [Waiting.futexWait, World.block, World.set, hp]
  | futexWake addr val =>
    obtain ⟨-, ⟨⟩⟩ := Option.ite_none_right_eq_some.mp hact
    exact h.forCause_woke (futexWake_woke w addr val) rfl
  | futexRequeue addr addr2 val val2 =>
    obtain ⟨-, ⟨⟩⟩ := Option.ite_none_right_eq_some.mp hact
    exact h.forCause_woke (futexRequeue_woke w addr addr2 val val2) rfl
  | clone child vfork =>
    obtain ⟨⟨hcalls, hchild⟩, ⟨⟩⟩ := Option.ite_none_right_eq_some.mp hact
    refine h.forCause_caller hcalls (fun p hmem hp => ?_) ?_
    · have hne : p ≠ child := fun heq => hchild (heq ▸ hmem)
      cases vfork <;> simp [Waiting.clone, World.block, World.set, hp, hne]
    · cases vfork <;> exact hsame
  | vforkDone child =>
    cases hact
    unfold Waiting.vforkDone
    split
    · rename_i parent hparent
      refine h.forCause_notified [parent] (fun p hp => ?_) (fun p hp => ?_) rfl
      · cases List.mem_singleton.mp hp
        exact ⟨.vfork child, hparent, rfl⟩
      · have hne : p ≠ parent := fun heq => hp (List.mem_singleton.mpr heq)
        simp [World.unblock, World.set, hne]
    · exact h.forCause_notified [] (by rintro p ⟨⟩) (fun _ _ => rfl) rfl
  | exit =>
    obtain ⟨hcalls, ⟨⟩⟩ := Option.ite_none_right_eq_some.mp hact
    refine h.forCause_caller hcalls (fun p _ hp => ?_) hsame
    simp [World.set, hp]
  | signal q sig =>
    cases hact
    refine ⟨fun p k hb _ hnot => (hnot ?_).elim, fun p t ht hnone => (hsame p t ht hnone).elim⟩
    by_cases hp : p = q
    · subst hp
      simpa [World.set] using hb
    · simpa [World.set, hp] using hb
  | tick now =>
    obtain ⟨-, ⟨⟩⟩ := Option.ite_none_right_eq_some.mp hact
    exact ⟨fun p k hb _ hnot => (hnot hb).elim, fun p t ht hnone => (hsame p t ht hnone).elim⟩
  | switch =>
    cases hact
    exact h.forCause_switch

end Inv

theorem act_nanosleep (hcalls : w.calls = true) (hsec : Signed 63 sec) (hnsec : Signed 31 nsec) :
    w.act (.nanosleep sec nsec) = some (nanosleep w sec nsec) := if_pos ⟨hcalls, hsec, hnsec⟩

theorem act_tick (now : Time) (hmono : w.clock.nanos ≤ now.nanos) (hn : now.nsec < NANOS) :
    w.act (.tick now) = some { w with clock := now } := if_pos ⟨hmono, hn⟩

/-- The second context sleeps, and its time has come. -/
def overslept : World := { switch (nanosleep (switch boot) 0 1) with clock := ⟨0, 5⟩ }

theorem run_to_overslept {P : World → Act → Prop} (h₁ : P boot .switch)
    (h₂ : P (switch boot) (.nanosleep 0 1)) (h₃ : P (nanosleep (switch boot) 0 1) .switch)
    (h₄ : P (switch (nanosleep (switch boot) 0 1)) (.tick ⟨0, 5⟩)) :
    Run (Step P) boot [.switch, .nanosleep 0 1, .switch, .tick ⟨0, 5⟩] overslept := by
  have hsleep := act_nanosleep (show (switch boot).calls = true from rfl)
    (show Signed 63 0 by decide) (show Signed 31 1 by decide)
  have htick := act_tick (w := switch (nanosleep (switch boot) 0 1)) ⟨0, 5⟩ (by decide) (by decide)
  exact .cons ⟨h₁, rfl⟩ (.cons ⟨h₂, hsleep⟩ (.cons ⟨h₃, rfl⟩ (.cons ⟨h₄, htick⟩ .nil)))

/-- In a run in which only contexts that have not slept wait for a notifier, and none that an earlier
wait has left behind blocks again, contexts wake for a cause and sleeps last. -/
theorem wakes_for_cause {w w' : World} {act : Act} {acts : List Act}
    (hrun : Run (Step Orderly) boot acts w) (hstep : Step Orderly w act w') : ForCause w act w' :=
  (Inv.run hrun).forCause hstep.2

/-- A context that slept goes on. -/
theorem sleeper_goes_on : overslept.sleeps 2 = some 1 ∧ (switch overslept).current = 2 ∧
    ForCause overslept .switch (switch overslept) := by
  refine ⟨rfl, rfl, wakes_for_cause (run_to_overslept trivial ⟨?_, ?_⟩ trivial trivial)
    ⟨trivial, rfl⟩⟩
  · intro k hk
    cases k <;> cases hk
  · rw [Fits]
    decide

/-- The context that slept waits for a condition, and the deadline of its sleep wakes it. -/
theorem deadline_ends_wait : ∃ (acts : List Act) (w w' : World),
    Run (Step fun _ _ => True) boot acts w ∧ w.act .switch = some w' ∧ ¬ ForCause w .switch w' := by
  have hrest : Run (Step fun _ _ => True) overslept [.switch, .wait 0, .switch]
      (switch (wait (switch overslept) 0)) :=
    .cons ⟨trivial, rfl⟩ (.cons ⟨trivial, rfl⟩ (.cons ⟨trivial, rfl⟩ .nil))
  have hrun := (run_to_overslept trivial trivial trivial trivial).append hrest
  refine ⟨_, _, _, hrun, rfl, ?_⟩
  intro h
  rcases h.woken 2 (.condition 0) rfl rfl (by decide) with hno | ⟨-, hpending⟩
  · exact hno
  · exact hpending rfl

end Origel.Kernel.Waiting.Wakeups
