import Mathlib.Logic.Function.Basic
import Origel.Lib.Run
import Origel.Numbers

/-! The users, groups and namespaces that contexts act for, and the calls that change them. -/
namespace Origel.Kernel.Privilege

open Origel.Lib

/-- The ids of a context: users and groups are 32-bit words, namespaces 64-bit words. -/
structure Ids where
  ruid : Nat
  rgid : Nat
  rns : Nat
  euid : Nat
  egid : Nat
  ens : Nat
  deriving DecidableEq, Repr

/-- The common part of `setreuid`, `setregid` and `setrens`: each of the two ids may be kept, which
`none` stands for, or become one of the two that are there; with privileges, it may become any. -/
def setPair (privileged : Bool) (none real effective newReal newEffective : Nat) :
    Except Nat (Nat × Nat) :=
  if (privileged ∨ newReal = none ∨ newReal = effective ∨ newReal = real) ∧
      (privileged ∨ newEffective = none ∨ newEffective = effective ∨ newEffective = real) then
    .ok (if newReal ≠ none then newReal else real,
      if newEffective ≠ none then newEffective else effective)
  else .error EPERM

/-- -1 as a `u32` and as a `usize` -/
def keep32 : Nat := 2 ^ 32 - 1
def keep64 : Nat := 2 ^ 64 - 1

namespace Ids

def setregid (c : Ids) (rgid egid : Nat) : Except Nat Ids := do
  let (rgid, egid) ← setPair (c.euid = 0) keep32 c.rgid c.egid rgid egid
  return { c with rgid, egid }

def setrens (c : Ids) (rns ens : Nat) : Except Nat Ids := do
  let (rns, ens) ← setPair (c.euid = 0) keep64 c.rns c.ens rns ens
  return { c with rns, ens }

def setreuid (c : Ids) (ruid euid : Nat) : Except Nat Ids := do
  let (ruid, euid) ← setPair (c.euid = 0) keep32 c.ruid c.euid ruid euid
  return { c with ruid, euid }

end Ids

structure Stat where
  mode : Nat
  uid : Nat
  gid : Nat

/-- What `exec` gets to see: the check of its arguments, the replies of the scheme to the opening, to
`FSTAT` and to `READ`, and whether the bytes are an executable. -/
structure Program where
  args : Except Nat Unit
  opened : Except Nat Unit
  stat : Except Nat Stat
  read : Except Nat Unit
  elf : Bool

/-- The bits of the mode that `exec` goes by. -/
def perm (stat : Stat) (uid gid : Nat) : Nat :=
  let perm := stat.mode &&& 0o7
  let perm := if stat.uid = uid then perm ||| ((stat.mode >>> 6) &&& 0o7) else perm
  let perm := if stat.gid = gid then perm ||| ((stat.mode >>> 3) &&& 0o7) else perm
  if uid = 0 then perm ||| 0o7 else perm

def MayExec (c : Ids) (stat : Stat) : Prop := perm stat c.euid c.egid &&& 0o1 = 0o1

instance (c : Ids) (stat : Stat) : Decidable (MayExec c stat) := inferInstanceAs (Decidable (_ = _))

/-- The ids after a file with this mode and these owners is executed. -/
def Ids.executing (c : Ids) (stat : Stat) : Ids :=
  { c with
    euid := if stat.mode &&& MODE_SETUID = MODE_SETUID then stat.uid else c.euid
    egid := if stat.mode &&& MODE_SETGID = MODE_SETGID then stat.gid else c.egid }

/-- The part of `exec` that decides about ids; nothing fails after they are set. -/
def Ids.exec (c : Ids) (p : Program) : Except Nat Ids := do
  p.args
  p.opened
  let stat ← p.stat
  if ¬MayExec c stat then
    throw EACCES
  p.read
  if !p.elf then
    throw ENOEXEC
  return c.executing stat

abbrev Contexts := Nat → Option Ids

/-- The calls, with the registers as the context sets them. -/
inductive Call where
  | setreuid (ruid euid : Nat)
  | setregid (rgid egid : Nat)
  | setrens (rns ens : Nat)
  | clone (child : Nat)
  | exec (p : Program)

/-- What a call does to the ids of the context that makes it. -/
def Ids.call (c : Ids) : Call → Except Nat Ids
  | .setreuid ruid euid => c.setreuid (ruid % 2 ^ 32) (euid % 2 ^ 32)
  | .setregid rgid egid => c.setregid (rgid % 2 ^ 32) (egid % 2 ^ 32)
  | .setrens rns ens => c.setrens (rns % 2 ^ 64) (ens % 2 ^ 64)
  | .clone _ => return c
  | .exec p => c.exec p

/-- A call of the context `pid`. A child starts with the ids of its parent, in a free place; without
one the call fails. -/
def call (cs : Contexts) (pid : Nat) (act : Call) : Except Nat Unit × Contexts :=
  match cs pid with
  | none => (.error ESRCH, cs)
  | some c =>
    match c.call act with
    | .error e => (.error e, cs)
    | .ok c' =>
      match act with
      | .clone child =>
        match cs child with
        | none => (.ok (), Function.update cs child (some c))
        | some _ => (.error EAGAIN, cs)
      | _ => (.ok (), Function.update cs pid (some c'))

def Step (cs : Contexts) (act : Nat × Call) (cs' : Contexts) : Prop :=
  (call cs act.1 act.2).2 = cs'

variable {c c' : Ids} {cs cs' : Contexts} {act : Call} {pid : Nat}

/-- The ids are among those there were. -/
structure Among (c c' : Ids) : Prop where
  ruid : c'.ruid = c.ruid ∨ c'.ruid = c.euid
  euid : c'.euid = c.ruid ∨ c'.euid = c.euid
  rgid : c'.rgid = c.rgid ∨ c'.rgid = c.egid
  egid : c'.egid = c.rgid ∨ c'.egid = c.egid
  rns : c'.rns = c.rns ∨ c'.rns = c.ens
  ens : c'.ens = c.rns ∨ c'.ens = c.ens

theorem Among.refl (c : Ids) : Among c c :=
  ⟨.inl rfl, .inr rfl, .inl rfl, .inr rfl, .inl rfl, .inr rfl⟩

theorem Among.trans {c'' : Ids} (h : Among c c') (h' : Among c' c'') : Among c c'' where
  ruid := by rcases h'.ruid with e | e <;> rw [e]; exacts [h.ruid, h.euid]
  euid := by rcases h'.euid with e | e <;> rw [e]; exacts [h.ruid, h.euid]
  rgid := by rcases h'.rgid with e | e <;> rw [e]; exacts [h.rgid, h.egid]
  egid := by rcases h'.egid with e | e <;> rw [e]; exacts [h.rgid, h.egid]
  rns := by rcases h'.rns with e | e <;> rw [e]; exacts [h.rns, h.ens]
  ens := by rcases h'.ens with e | e <;> rw [e]; exacts [h.rns, h.ens]

/-- A context without privileges. -/
def Plain (c : Ids) : Prop := c.ruid ≠ 0 ∧ c.euid ≠ 0

theorem Among.plain (h : Among c c') (hc : Plain c) : Plain c' := by
  refine ⟨?_, ?_⟩
  · rcases h.ruid with e | e <;> rw [e]
    exacts [hc.1, hc.2]
  · rcases h.euid with e | e <;> rw [e]
    exacts [hc.1, hc.2]

theorem setPair_ok {none real effective newReal newEffective : Nat} {r : Nat × Nat}
    (h : setPair false none real effective newReal newEffective = .ok r) :
    (r.1 = real ∨ r.1 = effective) ∧ (r.2 = real ∨ r.2 = effective) := by
  unfold setPair at h
  split at h
  · rename_i hmay
    cases h
    simp only [Bool.false_eq_true, false_or] at hmay
    refine ⟨?_, ?_⟩
    · by_cases hn : newReal = none
      · exact .inl (if_neg (not_not.mpr hn))
      · rw [if_pos hn]
        exact (hmay.1.resolve_left hn).symm
    · by_cases hn : newEffective = none
      · exact .inr (if_neg (not_not.mpr hn))
      · rw [if_pos hn]
        exact (hmay.2.resolve_left hn).symm
  · cases h

theorem of_bind_ok {α β : Type} {x : Except Nat α} {f : α → Except Nat β} {b : β}
    (h : (x >>= f) = .ok b) : ∃ a, x = .ok a ∧ f a = .ok b := by
  cases x with
  | error e => cases h
  | ok a => exact ⟨a, rfl, h⟩

theorem setreuid_among {ruid euid : Nat} (hc : Plain c) (h : c.setreuid ruid euid = .ok c') :
    Among c c' := by
  obtain ⟨r, hs, hr⟩ := of_bind_ok h
  rw [decide_eq_false hc.2] at hs
  cases hr
  exact ⟨(setPair_ok hs).1, (setPair_ok hs).2, .inl rfl, .inr rfl, .inl rfl, .inr rfl⟩

theorem setregid_among {rgid egid : Nat} (hc : Plain c) (h : c.setregid rgid egid = .ok c') :
    Among c c' := by
  obtain ⟨r, hs, hr⟩ := of_bind_ok h
  rw [decide_eq_false hc.2] at hs
  cases hr
  exact ⟨.inl rfl, .inr rfl, (setPair_ok hs).1, (setPair_ok hs).2, .inl rfl, .inr rfl⟩

theorem setrens_among {rns ens : Nat} (hc : Plain c) (h : c.setrens rns ens = .ok c') :
    Among c c' := by
  obtain ⟨r, hs, hr⟩ := of_bind_ok h
  rw [decide_eq_false hc.2] at hs
  cases hr
  exact ⟨.inl rfl, .inr rfl, .inl rfl, .inr rfl, (setPair_ok hs).1, (setPair_ok hs).2⟩

/-- A program is run with the execute permission, and only its set-id bits change ids. -/
theorem exec_ok {p : Program} (h : c.exec p = .ok c') :
    ∃ stat, p.stat = .ok stat ∧ MayExec c stat ∧ c' = c.executing stat := by
  obtain ⟨-, -, h⟩ := of_bind_ok h
  obtain ⟨-, -, h⟩ := of_bind_ok h
  obtain ⟨stat, hs, h⟩ := of_bind_ok h
  refine ⟨stat, hs, ?_⟩
  by_cases hmay : MayExec c stat
  · rw [if_neg (not_not.mpr hmay)] at h
    obtain ⟨-, -, h⟩ := of_bind_ok h
    refine ⟨hmay, ?_⟩
    cases he : p.elf with
    | false =>
      rw [he] at h
      cases h
    | true =>
      rw [he] at h
      cases h
      rfl
  · rw [if_pos hmay] at h
    cases h

/-- What a call may do to the ids of a plain context. -/
def Allowed (c c' : Ids) : Call → Prop
  | .exec p => ∃ stat, p.stat = .ok stat ∧ MayExec c stat ∧ c' = c.executing stat
  | _ => Among c c'

theorem call_allowed (hc : Plain c) (h : c.call act = .ok c') : Allowed c c' act := by
  cases act with
  | setreuid ruid euid => exact setreuid_among hc h
  | setregid rgid egid => exact setregid_among hc h
  | setrens rns ens => exact setrens_among hc h
  | clone child =>
    cases h
    exact Among.refl c
  | exec p => exact exec_ok h

/-- What a call leaves: nothing is changed by a failure; after a success, a child has the ids of its
parent, or the context has changed its own. -/
theorem call_cases (cs : Contexts) (pid : Nat) (act : Call) :
    (∃ e, call cs pid act = (.error e, cs)) ∨
    (∃ c child, act = .clone child ∧ cs pid = some c ∧ cs child = none ∧
      call cs pid act = (.ok (), Function.update cs child (some c))) ∨
    (∃ c c', (∀ child, act ≠ .clone child) ∧ cs pid = some c ∧ c.call act = .ok c' ∧
      call cs pid act = (.ok (), Function.update cs pid (some c'))) := by
  unfold call
  cases hc : cs pid with
  | none => exact .inl ⟨_, rfl⟩
  | some c =>
    cases hr : c.call act with
    | error e => exact .inl ⟨e, by simp only [hr]⟩
    | ok c' =>
      cases act with
      | clone child =>
        cases hd : cs child with
        | none => exact .inr (.inl ⟨c, child, rfl, rfl, hd, by simp only [hr, hd]⟩)
        | some d => exact .inl ⟨EAGAIN, by simp only [hr, hd]⟩
      | setreuid ruid euid => exact .inr (.inr ⟨c, c', nofun, rfl, hr, by simp only [hr]⟩)
      | setregid rgid egid => exact .inr (.inr ⟨c, c', nofun, rfl, hr, by simp only [hr]⟩)
      | setrens rns ens => exact .inr (.inr ⟨c, c', nofun, rfl, hr, by simp only [hr]⟩)
      | exec p => exact .inr (.inr ⟨c, c', nofun, rfl, hr, by simp only [hr]⟩)

/-- A call fails and changes nothing, or every plain context keeps its ids but the one that makes the
call, whose new ids are allowed; and a new context has the ids of that one. -/
structure Careful (cs : Contexts) (pid : Nat) (act : Call) : Prop where
  failed : ∀ e, (call cs pid act).1 = .error e → (call cs pid act).2 = cs
  allowed : ∀ id c c', cs id = some c → Plain c → (call cs pid act).2 id = some c' →
    c' = c ∨ id = pid ∧ (call cs pid act).1 = .ok () ∧ Allowed c c' act
  born : ∀ id c', cs id = none → (call cs pid act).2 id = some c' → cs pid = some c'

theorem call_careful (cs : Contexts) (pid : Nat) (act : Call) : Careful cs pid act := by
  rcases call_cases cs pid act with ⟨e, h⟩ | ⟨d, child, rfl, hd, hchild, h⟩ | ⟨d, d', hno, hd, hr, h⟩
  · refine ⟨fun _ _ => by rw [h], fun id c c' hc _ hc' => ?_, fun id c' hn hc' => ?_⟩
    · rw [h] at hc'
      exact .inl (Option.some.inj (hc'.symm.trans hc))
    · rw [h] at hc'
      exact nomatch hn.symm.trans hc'
  · refine ⟨fun e he => ?_, fun id c c' hc _ hc' => ?_, fun id c' hn hc' => ?_⟩
    · rw [h] at he
      cases he
    · rw [h] at hc'
      dsimp only at hc'
      have hid : id ≠ child := by
        rintro rfl
        exact nomatch hchild.symm.trans hc
      rw [Function.update_of_ne hid] at hc'
      exact .inl (Option.some.inj (hc'.symm.trans hc))
    · rw [h] at hc'
      dsimp only at hc'
      by_cases hid : id = child
      · rw [hid, Function.update_self] at hc'
        rw [hd, hc']
      · rw [Function.update_of_ne hid] at hc'
        exact nomatch hn.symm.trans hc'
  · refine ⟨fun e he => ?_, fun id c c' hc hplain hc' => ?_, fun id c' hn hc' => ?_⟩
    · rw [h] at he
      cases he
    · rw [h] at hc' ⊢
      dsimp only at hc' ⊢
      by_cases hid : id = pid
      · rw [hid, Function.update_self] at hc'
        rw [hid, hd] at hc
        cases hc
        cases hc'
        exact .inr ⟨hid, rfl, call_allowed hplain hr⟩
      · rw [Function.update_of_ne hid] at hc'
        exact .inl (Option.some.inj (hc'.symm.trans hc))
    · rw [h] at hc'
      dsimp only at hc'
      by_cases hid : id = pid
      · rw [hid, hd] at hn
        cases hn
      · rw [Function.update_of_ne hid] at hc'
        exact nomatch hn.symm.trans hc'

/-- The call does not run a set-id file. -/
def NoSetId : Call → Prop
  | .exec p => ∀ stat, p.stat = .ok stat →
      stat.mode &&& MODE_SETUID ≠ MODE_SETUID ∧ stat.mode &&& MODE_SETGID ≠ MODE_SETGID
  | _ => True

theorem Allowed.among (h : Allowed c c' act) (hno : NoSetId act) : Among c c' := by
  cases act with
  | exec p =>
    obtain ⟨stat, hs, -, rfl⟩ := h
    obtain ⟨hu, hg⟩ := hno stat hs
    rw [Ids.executing, if_neg hu, if_neg hg]
    exact Among.refl c
  | setreuid => exact h
  | setregid => exact h
  | setrens => exact h
  | clone => exact h

/-- Contexts stay where they are. -/
theorem call_some {c : Ids} (cs : Contexts) (pid : Nat) (act : Call) {id : Nat} (hc : cs id = some c) :
    ∃ c', (call cs pid act).2 id = some c' := by
  rcases call_cases cs pid act with ⟨e, h⟩ | ⟨d, child, -, -, -, h⟩ | ⟨d, d', -, -, -, h⟩
  · exact ⟨c, by rw [h]; exact hc⟩
  · rw [h]
    by_cases hid : id = child
    · exact ⟨d, by rw [hid]; exact Function.update_self ..⟩
    · exact ⟨c, (Function.update_of_ne hid _ _).trans hc⟩
  · rw [h]
    by_cases hid : id = pid
    · exact ⟨d', by rw [hid]; exact Function.update_self ..⟩
    · exact ⟨c, (Function.update_of_ne hid _ _).trans hc⟩

/-- Along a run in which a plain context runs no set-id file, its ids stay among those it had. -/
theorem run_among {acts : List (Nat × Call)} {id : Nat} (hrun : Run Step cs acts cs')
    (hno : ∀ act ∈ acts, act.1 = id → NoSetId act.2) (hc : cs id = some c) (hplain : Plain c)
    (hc' : cs' id = some c') : Among c c' := by
  induction hrun generalizing c with
  | nil =>
    obtain rfl := Option.some.inj (hc.symm.trans hc')
    exact Among.refl c
  | @cons s s' s'' act acts hstep _ ih =>
    obtain ⟨d, hd⟩ := call_some s act.1 act.2 hc
    have hamong : Among c d := by
      rcases (call_careful s act.1 act.2).allowed id c d hc hplain hd with rfl | ⟨hid, -, ha⟩
      · exact Among.refl _
      · exact ha.among (hno act (by simp) hid.symm)
    rw [Step] at hstep
    rw [hstep] at hd
    exact hamong.trans (ih (fun a ha => hno a (by simp [ha])) hd (hamong.plain hplain) hc')

/-- In every run, calls change the ids of plain contexts only as allowed; and as long as such a
context runs no set-id file, it comes to no id that it did not start with. -/
theorem no_privilege_gain {acts : List (Nat × Call)} (hrun : Run Step cs acts cs') :
    (∀ pid act, Careful cs' pid act) ∧
      ∀ id c c', cs id = some c → Plain c → cs' id = some c' →
        (∀ act ∈ acts, act.1 = id → NoSetId act.2) → Among c c' ∧ Plain c' := by
  refine ⟨call_careful cs', fun id c c' hc hplain hc' hno => ?_⟩
  have hamong := run_among hrun hno hc hplain hc'
  exact ⟨hamong, hamong.plain hplain⟩

/-- A user swaps its two ids back and forth. -/
theorem swapped_ids_stay : ∃ cs : Contexts, Run Step
    (fun id => if id = 1 then some ⟨1000, 1000, 1, 1001, 1000, 1⟩ else none)
    [(1, .setreuid 1001 1000), (1, .setreuid 0 0), (1, .setreuid 1000 (2 ^ 64 - 1))] cs ∧
    ∃ c', cs 1 = some c' ∧ Plain c' := by
  have hrun : Run Step (fun id => if id = 1 then some ⟨1000, 1000, 1, 1001, 1000, 1⟩ else none)
      [(1, .setreuid 1001 1000), (1, .setreuid 0 0), (1, .setreuid 1000 (2 ^ 64 - 1))] _ :=
    .cons rfl (.cons rfl (.cons rfl .nil))
  refine ⟨_, hrun, ⟨1000, 1000, 1, 1000, 1000, 1⟩, by decide, ?_⟩
  refine ((no_privilege_gain hrun).2 1 _ _ rfl ⟨by decide, by decide⟩ (by decide) ?_).2
  simp [NoSetId]

end Origel.Kernel.Privilege
