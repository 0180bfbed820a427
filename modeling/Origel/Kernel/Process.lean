import Mathlib.Logic.Function.Basic
import Origel.Lib.Run

/-! Contexts, and what clone, exit and waitpid do to their family tree. -/
namespace Origel.Kernel

open Origel.Lib

/-- The status of a context; of an exit it keeps a value. -/
inductive Status (σ : Type) where
  | runnable
  | blocked
  | exited (status : σ)
  deriving DecidableEq, Repr

namespace Status

variable {σ : Type}

/-- `Context::block`, on the status -/
def block : Status σ → Status σ
  | runnable => blocked
  | status => status

/-- `Context::unblock`, on the status -/
def unblock : Status σ → Status σ
  | blocked => runnable
  | status => status

@[simp] theorem block_runnable : (runnable : Status σ).block = blocked := rfl

end Status

/-- What the life of a process depends on. `exiting` holds the locals of `exit`, the parent it has
read and its status, while it closes its files: other contexts run then. -/
structure Context where
  ppid : Nat
  status : Status Nat
  vfork : Bool
  waitpid : Nat → Option Nat
  exiting : Option (Nat × Nat)

namespace Context

def block (c : Context) : Context := { c with status := c.status.block }

def unblock (c : Context) : Context := { c with status := c.status.unblock }

def exitStatus (c : Context) : Option Nat :=
  match c.status with
  | .exited status => some status
  | _ => none

def isLive (c : Context) : Bool := c.exitStatus.isNone

/-- A context that can call the kernel. -/
def isFree (c : Context) : Bool := c.isLive && c.exiting.isNone

end Context

/-- The context list, by pid. -/
abbrev Contexts := Nat → Option Context

/-- The critical sections: clone makes a context, `exit` reads its parent, and after its files are
closed goes on to its end; `waitpid` takes one entry and reaps. -/
inductive Act where
  | clone (pid child : Nat) (vfork : Bool)
  | exitBegin (pid status : Nat)
  | exitEnd (pid : Nat)
  | waitpid (pid child : Nat)
  | waitAny (pid child : Nat)

/-- `WaitMap::send` -/
def send (waitpid : Nat → Option Nat) (pid status : Nat) : Nat → Option Nat :=
  Function.update waitpid pid (some status)

/-- Sends all of `children`. -/
def sendAll (waitpid children : Nat → Option Nat) : Nat → Option Nat :=
  fun pid => (children pid).or (waitpid pid)

/-- The context list assigns an id that no context has; 0 is never one. -/
def clone (cs : Contexts) (pid child : Nat) (vfork : Bool) : Option Contexts :=
  match cs pid with
  | some c =>
    if c.isFree ∧ child ≠ 0 ∧ cs child = none then
      let cs := Function.update cs pid (some (if vfork then c.block else c))
      some (Function.update cs child (some ⟨pid, .runnable, vfork, fun _ => none, none⟩))
    else none
  | none => none

def exitBegin (cs : Contexts) (pid status : Nat) : Option Contexts :=
  match cs pid with
  | some c =>
    if c.isFree then
      some (Function.update cs pid (some { c with exiting := some (c.ppid, status) }))
    else none
  | none => none

/-- Transfers the children of `pid` to `ppid`. -/
def transfer (cs : Contexts) (pid ppid : Nat) : Contexts := fun id =>
  (cs id).map fun c => if c.ppid = pid then { c with ppid := ppid, vfork := false } else c

def exitEnd (cs : Contexts) (pid : Nat) : Option Contexts :=
  match cs pid with
  | some c =>
    match c.exiting with
    | some (ppid, status) =>
      let cs := transfer cs pid ppid
      match cs pid with
      | some c =>
        let children := c.waitpid
        let cs := Function.update cs pid
          (some ⟨c.ppid, .exited status, false, fun _ => none, none⟩)
        match cs ppid with
        | some parent =>
          let parent := if c.vfork then parent.unblock else parent
          some (Function.update cs ppid
            (some { parent with waitpid := send (sendAll parent.waitpid children) pid status }))
        | none => some cs
      | none => none
    | none => none
  | none => none

/-- `WaitMap::receive_nonblock` and `reap` -/
def receive (cs : Contexts) (pid child : Nat) : Option Contexts :=
  match cs pid with
  | some c =>
    if c.isFree ∧ c.waitpid child ≠ none then
      let cs := Function.update cs pid
        (some { c with waitpid := Function.update c.waitpid child none })
      some (Function.update cs child none)
    else none
  | none => none

/-- The first key of the map. -/
def isFirst (cs : Contexts) (pid child : Nat) : Bool :=
  match cs pid with
  | some c => decide (∀ k < child, c.waitpid k = none)
  | none => false

def step (cs : Contexts) : Act → Option Contexts
  | .clone pid child vfork => clone cs pid child vfork
  | .exitBegin pid status => exitBegin cs pid status
  | .exitEnd pid => exitEnd cs pid
  | .waitpid pid child => if child ≠ 0 then receive cs pid child else none
  | .waitAny pid child => if isFirst cs pid child then receive cs pid child else none

variable {cs cs' : Contexts} {c d parent : Context} {pid child id ppid status : Nat} {act : Act}
  {vfork : Bool}

/-- What a context is to its family. -/
def Context.role (c : Context) : Nat × Option Nat × (Nat → Option Nat) :=
  (c.ppid, c.exitStatus, c.waitpid)

@[simp] theorem Context.role_block : c.block.role = c.role := by
  unfold role exitStatus block
  cases c.status <;> rfl

@[simp] theorem Context.role_unblock : c.unblock.role = c.role := by
  unfold role exitStatus unblock
  cases c.status <;> rfl

@[simp] theorem Context.exiting_block : c.block.exiting = c.exiting := rfl

@[simp] theorem Context.exiting_unblock : c.unblock.exiting = c.exiting := rfl

/-- A context in the middle of `exit` is live and knows its parent. -/
def Begun (cs : Contexts) : Prop :=
  ∀ id c ppid status, cs id = some c → c.exiting = some (ppid, status) →
    ppid = c.ppid ∧ c.isLive = true

/-- The contexts form a forest of live parents, and the exit statuses lie with them. -/
structure Family (cs : Contexts) : Prop where
  zero : cs 0 = none
  rooted : ∀ id c, cs id = some c → cs c.ppid = none → c.ppid = 0
  live : ∀ id c parent, cs id = some c → cs c.ppid = some parent → parent.isLive = true
  ranked : ∃ rank : Nat → Nat, ∀ id c, cs id = some c → cs c.ppid ≠ none → rank c.ppid < rank id
  begun : Begun cs
  kept : ∀ id c parent status, cs id = some c → c.exitStatus = some status →
    cs c.ppid = some parent → parent.waitpid id = some status
  genuine : ∀ id c child status, cs id = some c → c.waitpid child = some status →
    ∃ d, cs child = some d ∧ d.ppid = id ∧ d.exitStatus = some status

/-- Apart from `Begun`, only the roles count. -/
theorem Family.congr (h : Family cs) (hb : Begun cs')
    (he : ∀ id, (cs' id).map Context.role = (cs id).map Context.role) : Family cs' := by
  have hnone : ∀ id, cs' id = none ↔ cs id = none := by
    intro id
    have := he id
    cases hc : cs' id <;> cases hd : cs id <;> simp_all
  have hsome : ∀ id c, cs' id = some c → ∃ d, cs id = some d ∧ d.role = c.role := by
    intro id c hc
    have := he id
    cases hd : cs id <;> simp_all
  have hback : ∀ id d, cs id = some d → ∃ c, cs' id = some c ∧ c.role = d.role := by
    intro id d hd
    have := he id
    cases hc : cs' id <;> simp_all
  refine ⟨(hnone 0).mpr h.zero, fun id c hc hp => ?_, fun id c parent hc hp => ?_, ?_, hb,
    fun id c parent status hc hs hp => ?_, fun id c child status hc hw => ?_⟩
  · obtain ⟨d, hd, hr⟩ := hsome id c hc
    have hpp := congrArg (·.1) hr
    dsimp only [Context.role] at hpp
    rw [← hpp] at hp ⊢
    exact h.rooted id d hd ((hnone _).mp hp)
  · obtain ⟨d, hd, hr⟩ := hsome id c hc
    obtain ⟨q, hq, hrq⟩ := hsome _ parent hp
    simp only [Context.role, Prod.mk.injEq] at hr hrq
    have := h.live id d q hd (by rw [hr.1]; exact hq)
    simpa [Context.isLive, hrq.2.1] using this
  · obtain ⟨rank, hrank⟩ := h.ranked
    refine ⟨rank, fun id c hc hp => ?_⟩
    obtain ⟨d, hd, hr⟩ := hsome id c hc
    have hpp := congrArg (·.1) hr
    dsimp only [Context.role] at hpp
    rw [← hpp] at hp ⊢
    exact hrank id d hd fun hn => hp ((hnone _).mpr hn)
  · obtain ⟨d, hd, hr⟩ := hsome id c hc
    obtain ⟨q, hq, hrq⟩ := hsome _ parent hp
    simp only [Context.role, Prod.mk.injEq] at hr hrq
    rw [← hrq.2.2]
    exact h.kept id d q status hd (by rw [hr.2.1, hs]) (by rw [hr.1]; exact hq)
  · obtain ⟨d, hd, hr⟩ := hsome id c hc
    simp only [Context.role, Prod.mk.injEq] at hr
    obtain ⟨e, he', hep, hes⟩ := h.genuine id d child status hd (by rw [hr.2.2, hw])
    obtain ⟨f, hf, hrf⟩ := hback child e he'
    simp only [Context.role, Prod.mk.injEq] at hrf
    exact ⟨f, hf, hrf.1.trans hep, hrf.2.1.trans hes⟩

namespace Family

/-- No context names one that is not there, so a new one has no children yet. -/
theorem no_child (h : Family cs) (hd : cs child = none) (h0 : child ≠ 0) (hc : cs id = some c) :
    c.ppid ≠ child := by
  rintro rfl
  exact h0 (h.rooted id c hc hd)

theorem added (h : Family cs) (v : Bool) (hc : cs pid = some c) (hl : c.isLive = true) (h0 : child ≠ 0)
    (hd : cs child = none) :
    Family (Function.update cs child (some ⟨pid, .runnable, v, fun _ => none, none⟩)) := by
  have hpc : pid ≠ child := by
    rintro rfl
    simp_all
  have hcase : ∀ id x, Function.update cs child
      (some ⟨pid, .runnable, v, fun _ => none, none⟩) id = some x →
      (id = child ∧ x = ⟨pid, .runnable, v, fun _ => none, none⟩) ∨
        (id ≠ child ∧ cs id = some x) := by
    intro id x hx
    by_cases hid : id = child <;> simp_all
  refine ⟨?_, fun id x hx hp => ?_, fun id x parent hx hp => ?_, ?_,
    fun id x ppid status hx he => ?_, fun id x parent status hx hs hp => ?_,
    fun id x key status hx hw => ?_⟩
  · rw [Function.update_of_ne h0.symm]
    exact h.zero
  · rcases hcase id x hx with ⟨rfl, rfl⟩ | ⟨-, hx⟩
    · rw [Function.update_of_ne hpc] at hp
      simp_all
    · rw [Function.update_of_ne (h.no_child hd h0 hx)] at hp
      exact h.rooted id x hx hp
  · rcases hcase id x hx with ⟨rfl, rfl⟩ | ⟨-, hx⟩
    · rw [Function.update_of_ne hpc] at hp
      simp_all
    · rw [Function.update_of_ne (h.no_child hd h0 hx)] at hp
      exact h.live id x parent hx hp
  · obtain ⟨rank, hrank⟩ := h.ranked
    refine ⟨Function.update rank child (rank pid + 1), fun id x hx hp => ?_⟩
    rcases hcase id x hx with ⟨rfl, rfl⟩ | ⟨hid, hx⟩
    · simp [hpc]
    · have hne := h.no_child hd h0 hx
      rw [Function.update_of_ne hne] at hp
      rw [Function.update_of_ne hne, Function.update_of_ne hid]
      exact hrank id x hx hp
  · rcases hcase id x hx with ⟨rfl, rfl⟩ | ⟨-, hx⟩
    · cases he
    · exact h.begun id x ppid status hx he
  · rcases hcase id x hx with ⟨rfl, rfl⟩ | ⟨-, hx⟩
    · cases hs
    · rw [Function.update_of_ne (h.no_child hd h0 hx)] at hp
      exact h.kept id x parent status hx hs hp
  · rcases hcase id x hx with ⟨rfl, rfl⟩ | ⟨-, hx⟩
    · cases hw
    · obtain ⟨d, hd', hdp, hds⟩ := h.genuine id x key status hx hw
      have hkey : key ≠ child := by
        rintro rfl
        simp_all
      exact ⟨d, by rw [Function.update_of_ne hkey, hd'], hdp, hds⟩

theorem clone (h : Family cs) (hs : Kernel.clone cs pid child vfork = some cs') : Family cs' := by
  unfold Kernel.clone at hs
  cases hc : cs pid with
  | none => simp [hc] at hs
  | some c =>
    simp only [hc] at hs
    split at hs
    · rename_i hg
      obtain ⟨hfree, h0, hd⟩ := hg
      simp only [Context.isFree, Bool.and_eq_true, Option.isNone_iff_eq_none] at hfree
      cases hs
      refine (h.added vfork hc hfree.1 h0 hd).congr (fun id x ppid status hx he => ?_) fun id => ?_
      · by_cases hid : id = child
        · simp only [hid, Function.update_self, Option.some.injEq] at hx
          subst hx
          cases he
        · rw [Function.update_of_ne hid] at hx
          by_cases hip : id = pid
          · simp only [hip, Function.update_self, Option.some.injEq] at hx
            subst hx
            cases vfork <;> simp_all
          · rw [Function.update_of_ne hip] at hx
            exact h.begun id x ppid status hx he
      · by_cases hid : id = child
        · simp [hid]
        · by_cases hip : id = pid
          · subst hip
            cases vfork <;> simp [hid, hc]
          · simp [hid, hip]
    · cases hs

theorem exitBegin (h : Family cs) (hs : Kernel.exitBegin cs pid status = some cs') : Family cs' := by
  unfold Kernel.exitBegin at hs
  cases hc : cs pid with
  | none => simp [hc] at hs
  | some c =>
    simp only [hc] at hs
    split at hs
    · rename_i hfree
      simp only [Context.isFree, Bool.and_eq_true] at hfree
      cases hs
      refine h.congr (fun id x ppid status hx he => ?_) fun id => ?_
      · by_cases hid : id = pid
        · simp only [hid, Function.update_self, Option.some.injEq] at hx
          subst hx
          simp only [Option.some.injEq, Prod.mk.injEq] at he
          exact ⟨he.1.symm, hfree.1⟩
        · rw [Function.update_of_ne hid] at hx
          exact h.begun id x ppid status hx he
      · by_cases hid : id = pid
        · subst hid
          simp [hc, Context.role, Context.exitStatus]
        · simp [hid]
    · cases hs

/-- The list after `pid` has reaped `child`. -/
def without (cs : Contexts) (pid : Nat) (c : Context) (child : Nat) : Contexts :=
  Function.update (Function.update cs pid
    (some { c with waitpid := Function.update c.waitpid child none })) child none

theorem without_some (hc : cs pid = some c) (hx : without cs pid c child id = some d) :
    id ≠ child ∧ ∃ y, cs id = some y ∧ y.ppid = d.ppid ∧ y.exitStatus = d.exitStatus ∧
      y.exiting = d.exiting ∧
      d.waitpid = if id = pid then Function.update y.waitpid child none else y.waitpid := by
  unfold without at hx
  by_cases hid : id = child
  · simp [hid] at hx
  · rw [Function.update_of_ne hid] at hx
    refine ⟨hid, ?_⟩
    by_cases hip : id = pid
    · subst hip
      simp only [Function.update_self, Option.some.injEq] at hx
      subst hx
      exact ⟨c, hc, rfl, rfl, rfl, by simp⟩
    · rw [Function.update_of_ne hip] at hx
      exact ⟨d, hx, rfl, rfl, rfl, by simp [hip]⟩

theorem without_none (hc : cs pid = some c) (hid : id ≠ child) :
    without cs pid c child id = none ↔ cs id = none := by
  by_cases hip : id = pid
  · subst hip
    simp [without, hid, hc]
  · simp [without, hid, hip]

theorem reaped (h : Family cs) (hc : cs pid = some c) (hd : cs child = some d) (hdp : d.ppid = pid)
    (hds : d.exitStatus = some status) : Family (without cs pid c child) := by
  -- the reaped context has no children
  have hno : ∀ id x, cs id = some x → x.ppid ≠ child := by
    rintro id x hx rfl
    have := h.live id x d hx hd
    simp [Context.isLive, hds] at this
  refine ⟨?_, fun id x hx hp => ?_, fun id x parent hx hp => ?_, ?_,
    fun id x ppid status hx he => ?_, fun id x parent status hx hs hp => ?_,
    fun id x key status hx hw => ?_⟩
  · by_cases h0 : 0 = child
    · simp [without, h0]
    · exact (without_none hc h0).mpr h.zero
  · obtain ⟨-, y, hy, hyp, -⟩ := without_some hc hx
    rw [← hyp] at hp ⊢
    exact h.rooted id y hy ((without_none hc (hno id y hy)).mp hp)
  · obtain ⟨-, y, hy, hyp, -⟩ := without_some hc hx
    obtain ⟨-, q, hq, -, hqs, -⟩ := without_some hc hp
    have := h.live id y q hy (by rw [hyp]; exact hq)
    simpa [Context.isLive, hqs] using this
  · obtain ⟨rank, hrank⟩ := h.ranked
    refine ⟨rank, fun id x hx hp => ?_⟩
    obtain ⟨-, y, hy, hyp, -⟩ := without_some hc hx
    rw [← hyp] at hp ⊢
    exact hrank id y hy fun hn => hp ((without_none hc (hno id y hy)).mpr hn)
  · obtain ⟨-, y, hy, hyp, hys, hye, -⟩ := without_some hc hx
    obtain ⟨h1, h2⟩ := h.begun id y ppid status hy (hye.trans he)
    exact ⟨h1.trans hyp, by simpa [Context.isLive, hys] using h2⟩
  · obtain ⟨hid, y, hy, hyp, hys, -⟩ := without_some hc hx
    obtain ⟨-, q, hq, -, -, -, hqw⟩ := without_some hc hp
    have hk := h.kept id y q status hy (hys.trans hs) (by rw [hyp]; exact hq)
    rw [hqw]
    split
    · rw [Function.update_of_ne hid, hk]
    · exact hk
  · obtain ⟨-, y, hy, -, -, -, hyw⟩ := without_some hc hx
    have hkey : key ≠ child ∧ y.waitpid key = some status := by
      rw [hyw] at hw
      by_cases hk : key = child
      · subst hk
        split at hw
        · simp at hw
        · rename_i hip
          obtain ⟨e, he, hep, -⟩ := h.genuine id y key status hy hw
          simp_all
      · split at hw
        · rw [Function.update_of_ne hk] at hw
          exact ⟨hk, hw⟩
        · exact ⟨hk, hw⟩
    obtain ⟨e, he, hep, hes⟩ := h.genuine id y key status hy hkey.2
    by_cases hkp : key = pid
    · subst hkp
      rw [hc] at he
      cases he
      refine ⟨{ c with waitpid := Function.update c.waitpid child none }, ?_, hep, hes⟩
      rw [without, Function.update_of_ne hkey.1, Function.update_self]
    · exact ⟨e, by rw [without, Function.update_of_ne hkey.1, Function.update_of_ne hkp, he], hep, hes⟩

theorem receive (h : Family cs) (hs : Kernel.receive cs pid child = some cs') : Family cs' := by
  unfold Kernel.receive at hs
  cases hc : cs pid with
  | none => simp [hc] at hs
  | some c =>
    simp only [hc] at hs
    split at hs
    · rename_i hg
      obtain ⟨status, hst⟩ := Option.ne_none_iff_exists'.mp hg.2
      obtain ⟨d, hd, hdp, hds⟩ := h.genuine pid c child status hc hst
      cases hs
      exact h.reaped hc hd hdp hds
    · cases hs

/-- The roles after `pid` has come to its end. -/
def ended (cs : Contexts) (pid : Nat) (c : Context) (status : Nat) : Contexts := fun id =>
  if id = pid then some ⟨c.ppid, .exited status, false, fun _ => none, none⟩
  else (cs id).map fun x => { x with
    ppid := if x.ppid = pid then c.ppid else x.ppid
    waitpid := if id = c.ppid then send (sendAll x.waitpid c.waitpid) pid status else x.waitpid }

theorem ppid_ne (h : Family cs) (hc : cs pid = some c) : c.ppid ≠ pid := by
  intro he
  obtain ⟨rank, hrank⟩ := h.ranked
  have := hrank pid c hc (by rw [he, hc]; simp)
  rw [he] at this
  omega

/-- A context is not a child of its child. -/
theorem grandparent_ne (h : Family cs) (hc : cs pid = some c) (hp : cs c.ppid = some parent) :
    parent.ppid ≠ pid := by
  intro he
  obtain ⟨rank, hrank⟩ := h.ranked
  have h1 := hrank pid c hc (by rw [hp]; simp)
  have h2 := hrank c.ppid parent hp (by rw [he, hc]; simp)
  rw [he] at h2
  omega

theorem ended_some (hx : ended cs pid c status id = some d) (hid : id ≠ pid) :
    ∃ y, cs id = some y ∧ d.ppid = (if y.ppid = pid then c.ppid else y.ppid) ∧
      d.exitStatus = y.exitStatus ∧ d.exiting = y.exiting ∧
      d.waitpid = if id = c.ppid then send (sendAll y.waitpid c.waitpid) pid status else y.waitpid := by
  simp only [ended, if_neg hid, Option.map_eq_some_iff] at hx
  obtain ⟨y, hy, rfl⟩ := hx
  exact ⟨y, hy, rfl, rfl, rfl, rfl⟩

theorem ended_none (hc : cs pid = some c) : ended cs pid c status id = none ↔ cs id = none := by
  by_cases hid : id = pid
  · simp [ended, hid, hc]
  · simp [ended, hid]

theorem ended_self : ended cs pid c status pid =
    some ⟨c.ppid, .exited status, false, fun _ => none, none⟩ := by
  simp [ended]

/-- Nobody has the ended context as its parent. -/
theorem ended_ppid_ne (h : Family cs) (hc : cs pid = some c)
    (hx : ended cs pid c status id = some d) : d.ppid ≠ pid := by
  have hne := h.ppid_ne hc
  by_cases hid : id = pid
  · subst hid
    rw [ended_self] at hx
    cases hx
    exact hne
  · obtain ⟨y, -, hp, -⟩ := ended_some hx hid
    rw [hp]
    split <;> assumption

theorem ended_of_some (c : Context) (status : Nat) (hd : cs id = some d) (hid : id ≠ pid) :
    ∃ e, ended cs pid c status id = some e ∧ e.exitStatus = d.exitStatus ∧
      e.ppid = if d.ppid = pid then c.ppid else d.ppid := by
  simp only [ended, if_neg hid, hd, Option.map_some]
  exact ⟨_, rfl, rfl, rfl⟩

/-- The children of the ended context go to its parent. -/
theorem ended_parent (hid : id ≠ pid)
    (hx : ended cs pid c status id = some d) :
    ∃ y, cs id = some y ∧ d.exitStatus = y.exitStatus ∧ d.exiting = y.exiting ∧
      (y.ppid = pid ∧ d.ppid = c.ppid ∨ y.ppid ≠ pid ∧ d.ppid = y.ppid) := by
  obtain ⟨y, hy, hp, hs, he, -⟩ := ended_some hx hid
  refine ⟨y, hy, hs, he, ?_⟩
  by_cases hyp : y.ppid = pid
  · exact Or.inl ⟨hyp, by rw [hp, if_pos hyp]⟩
  · exact Or.inr ⟨hyp, by rw [hp, if_neg hyp]⟩

theorem ended_kept (h : Family cs) (hc : cs pid = some c) {st : Nat}
    (hx : ended cs pid c status id = some d) (hs : d.exitStatus = some st)
    (hp : ended cs pid c status d.ppid = some parent) : parent.waitpid id = some st := by
  obtain ⟨q, hq, -, -, -, hqw⟩ := ended_some hp (h.ended_ppid_ne hc hx)
  rw [hqw]
  by_cases hid : id = pid
  · subst hid
    rw [ended_self] at hx
    cases hx
    cases hs
    simp [send]
  · obtain ⟨y, hy, hys, -, hcase⟩ := ended_parent hid hx
    rw [hys] at hs
    rcases hcase with ⟨hyp, hdp⟩ | ⟨hyp, hdp⟩
    · have hk := h.kept id y c st hy hs (by rw [hyp, hc])
      rw [hdp, if_pos rfl, send, Function.update_of_ne hid]
      simp [sendAll, hk]
    · have hk := h.kept id y q st hy hs (by rw [← hdp, hq])
      split
      · have hnone : c.waitpid id = none := by
          cases hw : c.waitpid id with
          | none => rfl
          | some st' =>
            obtain ⟨e, he, hep, -⟩ := h.genuine pid c id st' hc hw
            simp_all
        rw [send, Function.update_of_ne hid]
        simp [sendAll, hnone, hk]
      · exact hk

theorem ended_genuine (h : Family cs) (hc : cs pid = some c) (hl : c.isLive = true) {key st : Nat}
    (hx : ended cs pid c status id = some d) (hw : d.waitpid key = some st) :
    ∃ e, ended cs pid c status key = some e ∧ e.ppid = id ∧ e.exitStatus = some st := by
  by_cases hid : id = pid
  · subst hid
    rw [ended_self] at hx
    cases hx
    cases hw
  obtain ⟨y, hy, -, -, -, hyw⟩ := ended_some hx hid
  have hother : y.waitpid key = some st →
      ∃ e, ended cs pid c status key = some e ∧ e.ppid = id ∧ e.exitStatus = some st := by
    intro hyk
    obtain ⟨e, he, hep, hes⟩ := h.genuine id y key st hy hyk
    have hkey : key ≠ pid := by
      rintro rfl
      simp_all [Context.isLive]
    obtain ⟨e', he', hes', hep'⟩ := ended_of_some c status he hkey
    rw [hep, if_neg hid] at hep'
    exact ⟨e', he', hep', hes'.trans hes⟩
  rw [hyw] at hw
  split at hw
  · rename_i hip
    by_cases hkey : key = pid
    · subst hkey
      simp only [send, Function.update_self, Option.some.injEq] at hw
      exact ⟨_, ended_self, hip.symm, by simp [Context.exitStatus, hw]⟩
    · rw [send, Function.update_of_ne hkey] at hw
      cases hcw : c.waitpid key with
      | none =>
        simp only [sendAll, hcw, Option.none_or] at hw
        exact hother hw
      | some st' =>
        simp only [sendAll, hcw, Option.some_or, Option.some.injEq] at hw
        subst hw
        obtain ⟨e, he, hep, hes⟩ := h.genuine pid c key st' hc hcw
        obtain ⟨e', he', hes', hep'⟩ := ended_of_some c status he hkey
        rw [if_pos hep, ← hip] at hep'
        exact ⟨e', he', hep', hes'.trans hes⟩
  · exact hother hw

theorem finished (h : Family cs) (status : Nat) (hc : cs pid = some c) (hl : c.isLive = true)
    (hquiet : ∀ id x, cs id = some x → x.ppid = pid → x.exiting = none) :
    Family (ended cs pid c status) := by
  refine ⟨(ended_none hc).mpr h.zero, fun id x hx hp => ?_, fun id x parent hx hp => ?_, ?_,
    fun id x ppid st hx he => ?_, fun id x parent st hx hs hp => h.ended_kept hc hx hs hp,
    fun id x key st hx hw => h.ended_genuine hc hl hx hw⟩
  · rw [ended_none hc] at hp
    by_cases hid : id = pid
    · subst hid
      rw [ended_self] at hx
      cases hx
      exact h.rooted id c hc hp
    · obtain ⟨y, hy, -, -, ⟨-, hxp⟩ | ⟨-, hxp⟩⟩ := ended_parent hid hx
      · rw [hxp] at hp ⊢
        exact h.rooted pid c hc hp
      · rw [hxp] at hp ⊢
        exact h.rooted id y hy hp
  · obtain ⟨q, hq, -, hqs, -⟩ := ended_some hp (h.ended_ppid_ne hc hx)
    have hlive : q.isLive = true := by
      by_cases hid : id = pid
      · subst hid
        rw [ended_self] at hx
        cases hx
        exact h.live id c q hc hq
      · obtain ⟨y, hy, -, -, ⟨-, hxp⟩ | ⟨-, hxp⟩⟩ := ended_parent hid hx
        · exact h.live pid c q hc (by rw [← hxp, hq])
        · exact h.live id y q hy (by rw [← hxp, hq])
    simpa [Context.isLive, hqs] using hlive
  · obtain ⟨rank, hrank⟩ := h.ranked
    refine ⟨rank, fun id x hx hp => ?_⟩
    have hp' : cs x.ppid ≠ none := fun hn => hp ((ended_none hc).mpr hn)
    by_cases hid : id = pid
    · subst hid
      rw [ended_self] at hx
      cases hx
      exact hrank id c hc hp'
    · obtain ⟨y, hy, -, -, ⟨hyp, hxp⟩ | ⟨-, hxp⟩⟩ := ended_parent hid hx
      · rw [hxp] at hp' ⊢
        have h1 := hrank pid c hc hp'
        have h2 := hrank id y hy (by rw [hyp, hc]; simp)
        rw [hyp] at h2
        omega
      · rw [hxp] at hp' ⊢
        exact hrank id y hy hp'
  · by_cases hid : id = pid
    · subst hid
      rw [ended_self] at hx
      cases hx
      cases he
    · obtain ⟨y, hy, hxs, hxe, hcase⟩ := ended_parent hid hx
      rw [hxe] at he
      obtain ⟨h1, h2⟩ := h.begun id y ppid st hy he
      rcases hcase with ⟨hyp, -⟩ | ⟨-, hxp⟩
      · rw [hquiet id y hy hyp] at he
        cases he
      · exact ⟨h1.trans hxp.symm, by simpa [Context.isLive, hxs] using h2⟩

theorem congr_exiting (h : Family cs)
    (he : ∀ id, (cs' id).map (fun c => (c.role, c.exiting)) = (cs id).map fun c => (c.role, c.exiting)) :
    Family cs' := by
  refine h.congr (fun id c ppid status hc hx => ?_) fun id => ?_
  · have hid := he id
    cases hd : cs id with
    | none => simp [hc, hd] at hid
    | some d =>
      simp only [hc, hd, Option.map_some, Option.some.injEq, Prod.mk.injEq, Context.role] at hid
      obtain ⟨h1, h2⟩ := h.begun id d ppid status hd (hid.2.symm.trans hx)
      exact ⟨h1.trans hid.1.1.symm, by simpa [Context.isLive, hid.1.2.1] using h2⟩
  · have hid := congrArg (Option.map Prod.fst) (he id)
    simpa only [Option.map_map, Function.comp_def] using hid

theorem exitEnd (h : Family cs) (hs : Kernel.exitEnd cs pid = some cs')
    (hquiet : ∀ id x, cs id = some x → x.ppid = pid → x.exiting = none) : Family cs' := by
  unfold Kernel.exitEnd at hs
  cases hc : cs pid with
  | none => simp [hc] at hs
  | some c =>
    simp only [hc] at hs
    split at hs
    · rename_i ppid status hx
      obtain ⟨rfl, hl⟩ := h.begun pid c ppid status hc hx
      have hne := h.ppid_ne hc
      have hself : transfer cs pid c.ppid pid = some c := by
        simp [transfer, hc, hne]
      simp only [hself] at hs
      rw [Function.update_of_ne hne] at hs
      have hrole : ∀ id, id ≠ pid → id ≠ c.ppid →
          (transfer cs pid c.ppid id).map (fun c => (c.role, c.exiting)) =
            (ended cs pid c status id).map fun c => (c.role, c.exiting) := by
        intro id hid hip
        simp only [transfer, ended, if_neg hid, if_neg hip, Option.map_map]
        congr 1
        funext x
        by_cases hxp : x.ppid = pid <;> simp [hxp, Context.role, Context.exitStatus]
      cases hp : cs c.ppid with
      | none =>
        have hpt : transfer cs pid c.ppid c.ppid = none := by simp [transfer, hp]
        simp only [hpt] at hs
        cases hs
        refine (h.finished status hc hl hquiet).congr_exiting fun id => ?_
        by_cases hid : id = pid
        · simp [hid, ended]
        · rw [Function.update_of_ne hid]
          by_cases hip : id = c.ppid
          · simp [hip, hpt, ended, hp, hne]
          · exact hrole id hid hip
      | some parent =>
        have hg := h.grandparent_ne hc hp
        have hpt : transfer cs pid c.ppid c.ppid = some parent := by simp [transfer, hp, hg]
        simp only [hpt] at hs
        cases hs
        refine (h.finished status hc hl hquiet).congr_exiting fun id => ?_
        by_cases hip : id = c.ppid
        · subst hip
          rw [Function.update_self]
          have hu : (if c.vfork then parent.unblock else parent).role = parent.role ∧
              (if c.vfork then parent.unblock else parent).exiting = parent.exiting := by
            split <;> simp
          generalize (if c.vfork then parent.unblock else parent) = u at hu
          simp only [Context.role, Prod.mk.injEq] at hu
          obtain ⟨⟨hup, hus, huw⟩, hue⟩ := hu
          simp only [ended, if_neg hne, hp, if_neg hg, Option.map_some, Context.role, if_true]
          simp only [hup, huw, hue]
          exact congrArg (fun o => some ((parent.ppid, o, send (sendAll parent.waitpid c.waitpid) pid
            status), parent.exiting)) hus
        · rw [Function.update_of_ne hip]
          by_cases hid : id = pid
          · simp [hid, ended]
          · rw [Function.update_of_ne hid]
            exact hrole id hid hip
    · cases hs

end Family

/-- No child of a context that comes to its end is in the middle of its own exit. -/
def Orderly (cs : Contexts) : Act → Prop
  | .exitEnd pid => ∀ id c, cs id = some c → c.ppid = pid → c.exiting = none
  | _ => True

/-- One critical section that meets `P`. -/
def Step (P : Contexts → Act → Prop) (cs : Contexts) (act : Act) (cs' : Contexts) : Prop :=
  P cs act ∧ step cs act = some cs'

theorem Family.step (h : Family cs) (hs : Step Orderly cs act cs') : Family cs' := by
  obtain ⟨hord, hs⟩ := hs
  cases act with
  | clone pid child vfork => exact h.clone hs
  | exitBegin pid status => exact h.exitBegin hs
  | exitEnd pid => exact h.exitEnd hs hord
  | waitpid pid child =>
    simp only [Kernel.step] at hs
    split at hs
    · exact h.receive hs
    · cases hs
  | waitAny pid child =>
    simp only [Kernel.step] at hs
    split at hs
    · exact h.receive hs
    · cases hs

/-- The contexts made at boot: they have no parent. -/
def boot (ids : List Nat) : Contexts := fun id =>
  if id ≠ 0 ∧ id ∈ ids then some ⟨0, .runnable, false, fun _ => none, none⟩ else none

theorem boot_some {ids : List Nat} (h : boot ids id = some c) :
    id ≠ 0 ∧ c = ⟨0, .runnable, false, fun _ => none, none⟩ := by
  simp only [boot] at h
  split at h
  · rename_i hid
    cases h
    exact ⟨hid.1, rfl⟩
  · cases h

theorem boot_family (ids : List Nat) : Family (boot ids) := by
  have hzero : boot ids 0 = none := by simp [boot]
  refine ⟨hzero, fun id c hc _ => ?_, fun id c parent hc hp => ?_, ⟨fun _ => 0, fun id c hc hp => ?_⟩,
    fun id c ppid status hc he => ?_, fun id c parent status hc hs => ?_,
    fun id c child status hc hw => ?_⟩
  all_goals obtain ⟨-, rfl⟩ := boot_some hc
  · rfl
  · simp [hzero] at hp
  · exact absurd hzero hp
  · cases he
  · cases hs
  · cases hw

/-- The ancestors of a context along `ppid`. -/
inductive Ancestor (cs : Contexts) : Nat → Nat → Prop
  | parent {id : Nat} {c : Context} (h : cs id = some c) : Ancestor cs id c.ppid
  | trans {id a : Nat} {c : Context} (h : cs id = some c) (ha : Ancestor cs c.ppid a) : Ancestor cs id a

def Live (cs : Contexts) (id : Nat) : Prop := ∃ c, cs id = some c ∧ c.isLive = true

/-- Where the exit status of every finished context is that nobody has waited for: in the map of
its parent, which is live, and nowhere else. A context without live ancestors has left none. -/
def Delivered (cs : Contexts) : Prop :=
  ∀ id c status, cs id = some c → c.exitStatus = some status →
    (∃ parent, cs c.ppid = some parent ∧ parent.isLive = true ∧ parent.waitpid id = some status ∧
      ∀ q d, cs q = some d → d.waitpid id ≠ none → q = c.ppid) ∨
    ((∀ a, Ancestor cs id a → ¬Live cs a) ∧ ∀ q d, cs q = some d → d.waitpid id = none)

/-- Every entry of a map is the exit status of a finished child that has not been reaped. -/
def Genuine (cs : Contexts) : Prop :=
  ∀ id c child status, cs id = some c → c.waitpid child = some status →
    ∃ d, cs child = some d ∧ d.ppid = id ∧ d.exitStatus = some status

theorem Family.delivered (h : Family cs) : Delivered cs := by
  intro id c status hc hs
  have honly : ∀ q d, cs q = some d → d.waitpid id ≠ none → q = c.ppid := by
    intro q d hd hw
    obtain ⟨st, hst⟩ := Option.ne_none_iff_exists'.mp hw
    obtain ⟨e, he, hep, -⟩ := h.genuine q d id st hd hst
    simp_all
  cases hp : cs c.ppid with
  | some parent =>
    exact Or.inl ⟨parent, rfl, h.live id c parent hc hp, h.kept id c parent status hc hs hp, honly⟩
  | none =>
    refine Or.inr ⟨fun a ha => ?_, fun q d hd => ?_⟩
    · cases ha with
      | parent hc' =>
        rintro ⟨x, hx, -⟩
        simp_all
      | trans hc' ha =>
        rw [hc] at hc'
        cases hc'
        cases ha with
        | parent hx => simp_all
        | trans hx _ => simp_all
    · by_contra hw
      have := honly q d hd hw
      simp_all

/-- Over all runs in which no parent ends in the middle of its child's exit. -/
theorem exit_status_delivered {ids : List Nat} {acts : List Act}
    (hrun : Run (Step Orderly) (boot ids) acts cs) : Delivered cs ∧ Genuine cs := by
  have h : Family cs :=
    hrun.invariant (I := Family) (fun _ _ _ hs h => h.step hs) (boot_family ids)
  exact ⟨h.delivered, h.genuine⟩

theorem run_cons {P : Contexts → Act → Prop} {acts : List Act} {cs'' : Contexts} (hP : P cs act)
    (hs : step cs act = some cs') (hr : Run (Step P) cs' acts cs'') :
    Run (Step P) cs (act :: acts) cs'' :=
  .cons ⟨hP, hs⟩ hr

/-- The parent ends while its child closes its files: the child's status goes to the dead parent. -/
theorem status_sent_to_dead_parent : ∃ cs, Run (Step fun _ _ => True) (boot [1])
    [.clone 1 2 false, .clone 2 3 false, .exitBegin 3 7, .exitBegin 2 0, .exitEnd 2, .exitEnd 3] cs ∧
    ¬Delivered cs := by
  have hrun : ∃ cs, Run (Step fun _ _ => True) (boot [1]) [.clone 1 2 false, .clone 2 3 false,
      .exitBegin 3 7, .exitBegin 2 0, .exitEnd 2, .exitEnd 3] cs ∧
      (∃ c, cs 3 = some c ∧ c.ppid = 1 ∧ c.exitStatus = some 7) ∧
      ∃ c, cs 1 = some c ∧ c.isLive = true ∧ c.waitpid 3 = none :=
    ⟨_, run_cons trivial rfl (run_cons trivial rfl (run_cons trivial rfl (run_cons trivial rfl
      (run_cons trivial rfl (run_cons trivial rfl .nil))))), ⟨_, rfl, rfl, rfl⟩, _, rfl, rfl, rfl⟩
  obtain ⟨cs, hrun, ⟨c, hc, hp, hs⟩, d, hd, hl, hw⟩ := hrun
  refine ⟨cs, hrun, fun h => ?_⟩
  rcases h 3 c 7 hc hs with ⟨parent, hpar, -, hsent, -⟩ | ⟨hno, -⟩
  · rw [hp, hd] at hpar
    cases hpar
    rw [hw] at hsent
    cases hsent
  · exact hno 1 (hp ▸ .parent hc) ⟨d, hd, hl⟩

theorem exit_status_of_child_delivered : ∃ cs, Run (Step Orderly) (boot [1])
    [.clone 1 2 false, .exitBegin 2 7, .exitEnd 2] cs ∧ Delivered cs ∧ Genuine cs := by
  have hrun : ∃ cs, Run (Step Orderly) (boot [1])
      [.clone 1 2 false, .exitBegin 2 7, .exitEnd 2] cs := by
    refine ⟨_, run_cons trivial rfl (run_cons trivial rfl (run_cons ?_ rfl .nil))⟩
    intro id c hc hp
    by_cases h2 : id = 2
    · subst h2
      cases hc
      cases hp
    · rw [Function.update_of_ne h2, Function.update_of_ne h2] at hc
      by_cases h1 : id = 1
      · subst h1
        cases hc
        cases hp
      · rw [Function.update_of_ne h1] at hc
        obtain ⟨-, rfl⟩ := boot_some hc
        cases hp
  obtain ⟨cs, hrun⟩ := hrun
  exact ⟨cs, hrun, exit_status_delivered hrun⟩

end Origel.Kernel
