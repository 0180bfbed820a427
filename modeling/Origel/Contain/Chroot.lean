import Origel.Kernel.Privilege
import Origel.Lib.Ends
import Origel.Numbers
import Origel.RedoxFs.Node

/-! The server of a container's `file:` scheme: it takes on the ids of the requester for the call that
it makes, and its own again. -/
namespace Origel.Contain

open Origel.Lib Origel.Kernel.Privilege

/-- The server's root, and what the standard library makes of paths: `PathBuf::push` and
`Path::starts_with`. -/
structure ChrootScheme where
  root : String
  push : String → String → String
  startsWith : String → String → Bool

/-- `ChrootScheme::translate` -/
def ChrootScheme.translate (s : ChrootScheme) (path : List UInt8) : Except Nat String :=
  match RedoxFs.fromUtf8 path with
  | none => .error EINVAL
  | some path =>
    let translated := s.push s.root (String.ofList (path.toList.dropWhile (· = '/')))
    if s.startsWith translated s.root then .ok translated else .error EPERM

inductive Op where
  | openPath (flags : Nat)
  | chmod (mode : Nat)
  | rmdir
  | unlink
  deriving DecidableEq, Repr

/-- A request, and what the call that it leads to gives. -/
structure Request where
  op : Op
  path : List UInt8
  uid : Nat
  gid : Nat
  answer : Except Nat Nat

/-- A call of the server, with its ids. -/
structure Made where
  op : Op
  path : String
  ids : Ids

inductive Fault where
  | errno (e : Nat)
  | panic

/-- The server: its ids and the last call that it has made. -/
structure Server where
  ids : Ids
  made : Option Made

abbrev ServerM := EStateM Fault Server

namespace ServerM

/-- A system call that changes the ids of the server. -/
def change (f : Ids → Except Nat Ids) : ServerM Unit := fun s =>
  match f s.ids with
  | .ok ids => .ok () { s with ids }
  | .error e => .error (.errno e) s

/-- `if id != 0 { .. }` -/
def unlessZero (id : Nat) (x : ServerM Unit) : ServerM Unit := if id ≠ 0 then x else pure ()

/-- `unwrap` -/
def unwrap (x : ServerM Unit) : ServerM Unit := fun s =>
  match x s with
  | .ok () s => .ok () s
  | .error _ s => .error .panic s

def lift {α : Type} : Except Nat α → ServerM α
  | .ok a => return a
  | .error e => throw (.errno e)

def make (op : Op) (path : String) : ServerM Unit :=
  modify fun s => { s with made := some ⟨op, path, s.ids⟩ }

end ServerM

open ServerM

/-- `open`, `chmod`, `rmdir` and `unlink`, which differ in the call that they make. -/
def ChrootScheme.serve (s : ChrootScheme) (q : Request) : ServerM Nat := do
  unlessZero q.uid (change (·.setreuid 0 q.uid))
  unlessZero q.gid (change (·.setregid 0 q.gid))
  let path ← lift (s.translate q.path)
  make q.op path
  unlessZero q.uid (unwrap (change (·.setreuid 0 0)))
  unlessZero q.gid (unwrap (change (·.setregid 0 0)))
  lift q.answer

/-- All users and groups are the superuser's. -/
def Root (c : Ids) : Prop := c.ruid = 0 ∧ c.rgid = 0 ∧ c.euid = 0 ∧ c.egid = 0

/-- The server has answered with its own ids, and has made the call for the path, if that translates,
with the ids of the requester. -/
def Settled (s : ChrootScheme) (q : Request) : EStateM.Result Fault Server Nat → Prop
  | .ok _ v | .error (.errno _) v => Root v.ids ∧
    match s.translate q.path with
    | .ok path => ∃ c', v.made = some ⟨q.op, path, c'⟩ ∧ c'.euid = q.uid ∧ c'.egid = q.gid
    | .error _ => v.made = none
  | .error .panic _ => False

/-- One request: the server has its own ids before it and after it. -/
def Proper (s : ChrootScheme) (c : Ids) (q : Request) : Prop :=
  Root c ∧ Settled s q (s.serve q ⟨c, none⟩)

/-- The ids that the next request finds. -/
def ChrootScheme.next (s : ChrootScheme) (c : Ids) (q : Request) : Ids :=
  match s.serve q ⟨c, none⟩ with
  | .ok _ v | .error _ v => v.ids

def ProperRun (s : ChrootScheme) : Ids → List Request → Prop
  | c, [] => Root c
  | c, q :: qs => Proper s c q ∧ ProperRun s (s.next c q) qs

/-- A number that stands for "keep" is no user and no group. Only one of the two ids can be dropped,
and none if the path does not translate. -/
def Fair (s : ChrootScheme) (q : Request) : Prop :=
  match s.translate q.path with
  | .ok _ => (q.uid = 0 ∨ q.gid = 0) ∧ q.uid ≠ keep32 ∧ q.gid ≠ keep32
  | .error _ => (q.uid = 0 ∨ q.uid = keep32) ∧ (q.gid = 0 ∨ q.gid = keep32)

variable {c : Ids} {s : ChrootScheme} {q : Request} {rns ens u g uid gid : Nat} {made : Option Made}

/-- The ids of the server while it acts for others. -/
def acting (rns ens u g : Nat) : Ids := ⟨0, 0, rns, u, g, ens⟩

theorem root_acting : Root (acting rns ens u g) ↔ u = 0 ∧ g = 0 := by
  simp [Root, acting]

theorem eq_acting (h : Root c) : c = acting c.rns c.ens 0 0 := by
  obtain ⟨ruid, rgid, rns, euid, egid, ens⟩ := c
  obtain ⟨rfl, rfl, rfl, rfl⟩ := h
  rfl

/-- What becomes of an id that is asked for. -/
def took (id : Nat) : Nat := if id = keep32 then 0 else id

theorem took_zero : took 0 = 0 := rfl

theorem took_eq_zero {id : Nat} : took id = 0 ↔ id = 0 ∨ id = keep32 := by
  unfold took
  split
  · simp [*]
  · simp [*]

theorem took_eq_self {id : Nat} : took id = id ↔ id ≠ keep32 := by
  unfold took
  split
  · rename_i h
    rw [h]
    exact iff_of_false (by decide) (by simp)
  · simp [*]

theorem zero_ne_keep : (0 : Nat) ≠ keep32 := by decide

theorem setreuid_acting : (acting rns ens 0 g).setreuid 0 uid = .ok (acting rns ens (took uid) g) := by
  by_cases h : uid = keep32 <;> simp [Ids.setreuid, setPair, acting, took, zero_ne_keep, h]

theorem setregid_acting : (acting rns ens 0 0).setregid 0 gid = .ok (acting rns ens 0 (took gid)) := by
  by_cases h : gid = keep32 <;> simp [Ids.setregid, setPair, acting, took, zero_ne_keep, h]

/-- Once the user is dropped, the group cannot be. -/
theorem setregid_user (hu : u ≠ 0) : (acting rns ens u 0).setregid 0 gid =
    if took gid = 0 then .ok (acting rns ens u 0) else .error EPERM := by
  by_cases h : gid = keep32
  · simp [Ids.setregid, setPair, acting, took, zero_ne_keep, h]
  · by_cases h0 : gid = 0
    · simp [Ids.setregid, setPair, acting, took, zero_ne_keep, h0]
    · simp [Ids.setregid, setPair, acting, took, h, h0, hu]

theorem setreuid_back : (acting rns ens u g).setreuid 0 0 = .ok (acting rns ens 0 g) := by
  simp [Ids.setreuid, setPair, acting, zero_ne_keep]

theorem setregid_back : (acting rns ens 0 g).setregid 0 0 = .ok (acting rns ens 0 0) := by
  simp [Ids.setregid, setPair, acting, zero_ne_keep]

theorem change_ok {f : Ids → Except Nat Ids} {c' : Ids} (h : f c = .ok c') :
    change f ⟨c, made⟩ = .ok () ⟨c', made⟩ := by
  rw [change, h]

theorem unwrap_ok {f : Ids → Except Nat Ids} {c' : Ids} (h : f c = .ok c') :
    unwrap (change f) ⟨c, made⟩ = .ok () ⟨c', made⟩ := by
  rw [unwrap, change_ok h]

/-- What is not done for the superuser has no effect for it either. -/
theorem unlessZero_ok {id : Nat} {x : ServerM Unit} {v v' : Server} (hx : x v = .ok () v')
    (h0 : id = 0 → v' = v) : unlessZero id x v = .ok () v' := by
  unfold unlessZero
  by_cases h : id = 0
  · rw [if_neg (not_not.mpr h), h0 h]
    rfl
  · rw [if_pos h, hx]

/-- A server that cannot drop both ids: it is left with the user. -/
theorem serve_refused (hu : took q.uid ≠ 0) (hg : took q.gid ≠ 0) :
    s.serve q ⟨acting rns ens 0 0, none⟩ =
      .error (.errno EPERM) ⟨acting rns ens (took q.uid) 0, none⟩ := by
  have hg0 : q.gid ≠ 0 := fun h => hg (by rw [h, took_zero])
  have huser : unlessZero q.uid (change (·.setreuid 0 q.uid)) ⟨acting rns ens 0 0, none⟩ =
      .ok () ⟨acting rns ens (took q.uid) 0, none⟩ :=
    unlessZero_ok (change_ok setreuid_acting) fun h => by rw [h, took_zero]
  have hgroup : unlessZero q.gid (change (·.setregid 0 q.gid))
      ⟨acting rns ens (took q.uid) 0, none⟩ =
      .error (.errno EPERM) ⟨acting rns ens (took q.uid) 0, none⟩ := by
    rw [unlessZero, if_pos hg0, change, setregid_user hu, if_neg hg]
  exact (bind_of_ok huser).trans (bind_of_error hgroup)

/-- A server that can: it makes the call with what it took, and has its own ids again, unless the
path does not translate. -/
theorem serve_taken (h : took q.uid = 0 ∨ took q.gid = 0) :
    s.serve q ⟨acting rns ens 0 0, none⟩ =
      match s.translate q.path with
      | .error e => .error (.errno e) ⟨acting rns ens (took q.uid) (took q.gid), none⟩
      | .ok path => lift q.answer ⟨acting rns ens 0 0,
          some ⟨q.op, path, acting rns ens (took q.uid) (took q.gid)⟩⟩ := by
  have huser : unlessZero q.uid (change (·.setreuid 0 q.uid)) ⟨acting rns ens 0 0, none⟩ =
      .ok () ⟨acting rns ens (took q.uid) 0, none⟩ :=
    unlessZero_ok (change_ok setreuid_acting) fun h => by rw [h, took_zero]
  have hgroup : unlessZero q.gid (change (·.setregid 0 q.gid))
      ⟨acting rns ens (took q.uid) 0, none⟩ =
      .ok () ⟨acting rns ens (took q.uid) (took q.gid), none⟩ := by
    refine unlessZero_ok (change_ok ?_) fun h => by rw [h, took_zero]
    by_cases hu : took q.uid = 0
    · rw [hu]
      exact setregid_acting
    · have hg := h.resolve_left hu
      rw [setregid_user hu, if_pos hg, hg]
  refine (bind_of_ok huser).trans ((bind_of_ok hgroup).trans ?_)
  cases s.translate q.path with
  | error e => rfl
  | ok path =>
    have hback : ∀ made, unlessZero q.uid (unwrap (change (·.setreuid 0 0)))
        ⟨acting rns ens (took q.uid) (took q.gid), made⟩ =
        .ok () ⟨acting rns ens 0 (took q.gid), made⟩ := fun made =>
      unlessZero_ok (unwrap_ok setreuid_back) fun h => by rw [h, took_zero]
    have hback' : ∀ made, unlessZero q.gid (unwrap (change (·.setregid 0 0)))
        ⟨acting rns ens 0 (took q.gid), made⟩ = .ok () ⟨acting rns ens 0 0, made⟩ := fun made =>
      unlessZero_ok (unwrap_ok setregid_back) fun h => by rw [h, took_zero]
    refine (bind_of_ok rfl).trans ((bind_of_ok rfl).trans ?_)
    exact (bind_of_ok (hback _)).trans (bind_of_ok (hback' _))

theorem settled_lift (made : Option Made) : Settled s q (lift q.answer ⟨acting rns ens 0 0, made⟩) ↔
    match s.translate q.path with
    | .ok path => ∃ c', made = some ⟨q.op, path, c'⟩ ∧ c'.euid = q.uid ∧ c'.egid = q.gid
    | .error _ => made = none := by
  cases q.answer with
  | ok n => exact and_iff_right (root_acting.mpr ⟨rfl, rfl⟩)
  | error e => exact and_iff_right (root_acting.mpr ⟨rfl, rfl⟩)

theorem settled_iff : Settled s q (s.serve q ⟨acting rns ens 0 0, none⟩) ↔ Fair s q := by
  by_cases htook : took q.uid = 0 ∨ took q.gid = 0
  · rw [serve_taken htook, Fair]
    cases ht : s.translate q.path with
    | error e =>
      dsimp only
      rw [Settled, ht, root_acting, took_eq_zero, took_eq_zero]
      exact and_iff_left rfl
    | ok path =>
      dsimp only
      rw [settled_lift, ht]
      constructor
      · rintro ⟨c', hmade, hu, hg⟩
        cases hmade
        have hu' : q.uid ≠ keep32 := took_eq_self.mp hu
        have hg' : q.gid ≠ keep32 := took_eq_self.mp hg
        rw [took_eq_self.mpr hu', took_eq_self.mpr hg'] at htook
        exact ⟨htook, hu', hg'⟩
      · rintro ⟨-, hu, hg⟩
        exact ⟨_, rfl, took_eq_self.mpr hu, took_eq_self.mpr hg⟩
  · rw [not_or] at htook
    rw [serve_refused htook.1 htook.2]
    refine iff_of_false (fun h => htook.1 (root_acting.mp h.1).1) fun h => ?_
    rw [took_eq_zero, took_eq_zero, not_or, not_or] at htook
    unfold Fair at h
    split at h
    · exact h.1.elim htook.1.1 htook.2.1
    · exact h.1.elim htook.1.1 htook.1.2

theorem next_of_fair (h : Root c) (hf : Fair s q) : Root (s.next c q) := by
  have hs : Settled s q (s.serve q ⟨c, none⟩) := by
    rw [eq_acting h]
    exact settled_iff.mpr hf
  unfold ChrootScheme.next
  cases hr : s.serve q ⟨c, none⟩ with
  | ok n v =>
    rw [hr] at hs
    exact hs.1
  | error e v =>
    rw [hr] at hs
    cases e with
    | errno e => exact hs.1
    | panic => exact hs.elim

/-- From its own ids on, the server keeps to them before and after every request and acts as the
requester in between, iff every request is fair. -/
theorem drops_and_restores_iff (s : ChrootScheme) (h : Root c) (qs : List Request) :
    ProperRun s c qs ↔ ∀ q ∈ qs, Fair s q := by
  induction qs generalizing c with
  | nil => exact iff_of_true h (by simp)
  | cons q qs ih =>
    have hstep : Proper s c q ↔ Fair s q := by
      rw [Proper, and_iff_right h, eq_acting h]
      exact settled_iff
    rw [ProperRun, hstep, List.forall_mem_cons]
    exact and_congr_right fun hf => ih (next_of_fair h hf)

/-- A container whose paths are put after its root. -/
def container : ChrootScheme where
  root := "/c"
  push root path := root ++ "/" ++ path
  startsWith path root := root.toList.isPrefixOf path.toList

/-- A user that is in the superuser's group opens a file. -/
theorem user_is_served : ProperRun container ⟨0, 0, 1, 0, 0, 1⟩
    [⟨.openPath 0, [97], 1000, 0, .ok 3⟩, ⟨.unlink, [97], 0, 1000, .error 2⟩] := by
  refine (drops_and_restores_iff container ⟨rfl, rfl, rfl, rfl⟩ _).mpr ?_
  have ht : container.translate [97] = .ok "/c/a" := by decide +kernel
  simp [Fair, ht, keep32]

/-- A user with a group of its own is refused, and the server goes on with its id. -/
theorem group_is_refused : Root ⟨0, 0, 1, 0, 0, 1⟩ ∧
    container.next ⟨0, 0, 1, 0, 0, 1⟩ ⟨.openPath 0, [97], 1000, 1000, .ok 3⟩ = ⟨0, 0, 1, 1000, 0, 1⟩ ∧
    ¬ProperRun container ⟨0, 0, 1, 0, 0, 1⟩ [⟨.openPath 0, [97], 1000, 1000, .ok 3⟩] := by
  have hserve : container.serve ⟨.openPath 0, [97], 1000, 1000, .ok 3⟩ ⟨⟨0, 0, 1, 0, 0, 1⟩, none⟩ =
      .error (.errno EPERM) ⟨⟨0, 0, 1, 1000, 0, 1⟩, none⟩ := rfl
  refine ⟨⟨rfl, rfl, rfl, rfl⟩, ?_, ?_⟩
  · rw [ChrootScheme.next, hserve]
  · rintro ⟨⟨-, hsettled⟩, -⟩
    rw [hserve] at hsettled
    exact absurd hsettled.1.2.2.1 (by decide)

end Origel.Contain
