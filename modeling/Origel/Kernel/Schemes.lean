import Mathlib.Data.List.Nodup
import Mathlib.Data.List.Perm.Subperm
import Mathlib.Logic.Function.Basic
import Origel.Lib.Run

/-! Schemes, their namespaces, and the calls that look names up in them. -/
namespace Origel.Kernel.Schemes

open Origel.Lib

inductive Errno where
  | EPERM | ENOENT | ESRCH | EACCES | EEXIST | ENODEV
  deriving DecidableEq, Repr

/-- A call fails with an error number, or the kernel panics: an index of a map without the key, a
slice out of range, a failed assertion. -/
inductive Fault where
  | errno (e : Errno)
  | panic
  deriving DecidableEq, Repr

abbrev Name := List UInt8

/-- The schemes as far as the list itself depends on them: a root scheme inserts into its
namespace. -/
inductive Scheme where
  | root (ns id : Nat)
  | event | env | null | sys | zero | debug | disk | initfs | irq | pipe | user
  deriving DecidableEq, Repr

structure SchemeList where
  map : List (Nat × Scheme)
  names : Nat → Option (Name → Option Nat)
  nextNs : Nat
  nextId : Nat

abbrev SchemeM := EStateM Fault SchemeList

def SCHEME_MAX_SCHEMES : Nat := 65536

def keys (map : List (Nat × Scheme)) : List Nat := map.map (·.1)

/-- The loop that looks for an id, from `n` on: one of as many ids as there are schemes, and one
more, is free. -/
def freeId (map : List (Nat × Scheme)) (n : Nat) : Nat :=
  (((List.range (map.length + 1)).map (n + ·)).find? (· ∉ keys map)).getD n

/-- `self.names[&ns]` -/
def namesOf (ns : Nat) : SchemeM (Name → Option Nat) := do
  match (← get).names ns with
  | some table => return table
  | none => throw .panic

/-- `SchemeList::get_name` -/
def getName (ns : Nat) (name : Name) : SchemeM (Option (Nat × Scheme)) := do
  let table ← namesOf ns
  match table name with
  | some id => return ((← get).map.lookup id).map (id, ·)
  | none => return none

/-- `names.insert(name, id)` in the namespace, with the assertion that the name is new. -/
def bindName (ns : Nat) (name : Name) (id : Nat) : SchemeM Unit := do
  let table ← namesOf ns
  if table name = none then
    modify fun l => { l with
      names := Function.update l.names ns (some (Function.update table name (some id))) }
  else throw .panic

/-- `SchemeList::insert` -/
def insert (ns : Nat) (name : Name) (scheme : Nat → Scheme) : SchemeM Nat := do
  let table ← namesOf ns
  if table name ≠ none then throw (.errno .EEXIST)
  else
    let l ← get
    let id := freeId l.map (if l.nextId ≥ SCHEME_MAX_SCHEMES then 1 else l.nextId)
    if id ∈ keys l.map then throw .panic
    else
      set { l with map := (id, scheme id) :: l.map, nextId := id + 1 }
      bindName ns name id
      return id

/-- `insert(..).unwrap()` -/
def insertUnwrap (ns : Nat) (name : Name) (scheme : Nat → Scheme) : SchemeM Unit := fun l =>
  match insert ns name scheme l with
  | .ok _ l => .ok () l
  | .error _ l => .error .panic l

/-- The schemes of every namespace: the root scheme has the empty name. -/
def common : List (Name × (Nat → Nat → Scheme)) :=
  [([], fun ns id => .root ns id),
   ([101, 118, 101, 110, 116], fun _ _ => .event),
   ([101, 110, 118], fun _ _ => .env),
   ([110, 117, 108, 108], fun _ _ => .null),
   ([115, 121, 115], fun _ _ => .sys),
   ([122, 101, 114, 111], fun _ _ => .zero)]

/-- The schemes of the root namespace only. The live disk is a build option. -/
def rootOnly (live : Bool) : List (Name × (Nat → Nat → Scheme)) :=
  [([100, 101, 98, 117, 103], fun _ _ => .debug)] ++
  (if live then [([100, 105, 115, 107], fun _ _ => Scheme.disk)] else []) ++
  [([105, 110, 105, 116, 102, 115], fun _ _ => .initfs),
   ([105, 114, 113], fun _ _ => .irq),
   ([112, 105, 112, 101], fun _ _ => .pipe)]

def insertAll (ns : Nat) : List (Name × (Nat → Nat → Scheme)) → SchemeM Unit
  | [] => pure ()
  | e :: es => do
    insertUnwrap ns e.1 (e.2 ns)
    insertAll ns es

def newNs : SchemeM Nat := do
  let ns := (← get).nextNs
  modify fun l => { l with nextNs := ns + 1, names := Function.update l.names ns (some fun _ => none) }
  insertAll ns common
  return ns

def newRoot (live : Bool) : SchemeM Unit := do
  let ns ← newNs
  insertAll ns (rootOnly live)

/-- `SchemeList::new` -/
def SchemeList.new (live : Bool) : EStateM.Result Fault SchemeList Unit :=
  newRoot live ⟨[], fun _ => none, 0, 1⟩

/-- Copies the requested names. -/
def copyNames (source target : Nat) : List Name → SchemeM Unit
  | [] => pure ()
  | name :: names => do
    match ← getName source name with
    | some (id, _) =>
      bindName target name id
      copyNames source target names
    | none => throw (.errno .ENODEV)

def makeNs (source : Nat) (names : List Name) : SchemeM Nat := do
  let target ← newNs
  copyNames source target names
  return target

/-- What the calls read of a context. -/
structure Context where
  euid : Nat
  rns : Nat
  ens : Nat
  cwd : List UInt8

def colon : UInt8 := 58
def slash : UInt8 := 47
def dot : UInt8 := 46

/-- `cwd[..cwd[..cwd.len() - 1].iter().rposition(..).map_or(cwd.len(), |i| i + 1)]` -/
def parentOf (cwd : List UInt8) : Option (List UInt8) :=
  if cwd = [] then none
  else
    let rest := (cwd.dropLast.reverse.dropWhile fun b => ¬(b = slash ∨ b = colon)).length
    some (if rest = 0 then cwd else cwd.take rest)

/-- `Context::canonicalize`; none where a slice is out of range -/
def canonicalize (cwd path : List UInt8) : Option (List UInt8) :=
  let ended := if cwd.getLast? = some slash then cwd else cwd ++ [slash]
  if colon ∈ path then some path
  else if path = [dot] then some cwd
  else if path = [dot, dot] then parentOf cwd
  else if [dot, slash].isPrefixOf path then some (ended ++ path.drop 2)
  else if [dot, dot, slash].isPrefixOf path then (parentOf cwd).map (· ++ path.drop 3)
  else if [slash].isPrefixOf path then
    if colon ∈ cwd then some (cwd.take (cwd.idxOf colon + 1) ++ path)
    else if cwd = [] then none
    else some (cwd.take 1 ++ path)
  else some (ended ++ path)

/-- The scheme name and the reference of a path. -/
def splitPath (path : List UInt8) : Name × List UInt8 :=
  (path.takeWhile (· ≠ colon), (path.dropWhile (· ≠ colon)).drop 1)

/-- The scheme that a call by path goes to. -/
def resolve (c : Context) (path : List UInt8) : SchemeM (Scheme × List UInt8) := do
  match canonicalize c.cwd path with
  | some path =>
    let parts := splitPath path
    match ← getName c.ens parts.1 with
    | some (_, scheme) => return (scheme, parts.2)
    | none => throw (.errno .ENODEV)
  | none => throw .panic

/-- `open`: a root scheme makes a scheme of the name; the others leave the list alone. -/
def openPath (c : Context) (path : List UInt8) : SchemeM Unit := do
  let r ← resolve c path
  match r.1 with
  | .root ns _ =>
    if c.euid = 0 then
      let _ ← insert ns r.2 fun _ => .user
    else throw (.errno .EACCES)
  | _ => return ()

/-- `chmod`, `rmdir` and `unlink` -/
def changePath (c : Context) (path : List UInt8) : SchemeM Unit := do
  let _ ← resolve c path

def mkns (c : Context) (names : List Name) : SchemeM Nat :=
  if c.euid = 0 then makeNs c.ens names else throw (.errno .EACCES)

/-- `usize::max_value()`, which is -1 as an `isize` -/
def NONE : Nat := 2 ^ 64 - 1

/-- The calls of `setrens` that are let through. -/
def maySetrens (c : Context) (rns ens : Nat) : Bool :=
  (c.euid = 0 ∨ rns = NONE ∨ rns = c.ens ∨ rns = c.rns) ∧
    (c.euid = 0 ∨ ens = NONE ∨ ens = c.ens ∨ ens = c.rns)

def setrens (c : Context) (rns ens : Nat) : Option Context :=
  if maySetrens c rns ens then
    some { c with
      rns := if rns ≠ NONE then rns else c.rns
      ens := if ens ≠ NONE then ens else c.ens }
  else none

structure World where
  schemes : SchemeList
  contexts : Nat → Option Context

inductive Call where
  | openPath (pid : Nat) (path : List UInt8)
  | changePath (pid : Nat) (path : List UInt8)
  | mkns (pid : Nat) (names : List Name)
  | setrens (pid rns ens : Nat)
  | clone (pid child : Nat)

namespace World

def onSchemes {α : Type} (w : World) (x : SchemeM α) : EStateM.Result Fault World Unit :=
  match x w.schemes with
  | .ok _ l => .ok () { w with schemes := l }
  | .error e l => .error e { w with schemes := l }

def call (w : World) : Call → EStateM.Result Fault World Unit
  | .openPath pid path =>
    match w.contexts pid with
    | some c => w.onSchemes (Schemes.openPath c path)
    | none => .error (.errno .ESRCH) w
  | .changePath pid path =>
    match w.contexts pid with
    | some c => w.onSchemes (Schemes.changePath c path)
    | none => .error (.errno .ESRCH) w
  | .mkns pid names =>
    match w.contexts pid with
    | some c => w.onSchemes (Schemes.mkns c names)
    | none => .error (.errno .ESRCH) w
  | .setrens pid rns ens =>
    match w.contexts pid with
    | some c =>
      match Schemes.setrens c rns ens with
      | some c => .ok () { w with contexts := Function.update w.contexts pid (some c) }
      | none => .error (.errno .EPERM) w
    | none => .error (.errno .ESRCH) w
  | .clone pid child =>
    match w.contexts pid with
    | some c => .ok () { w with contexts := Function.update w.contexts child (some c) }
    | none => .error (.errno .ESRCH) w

/-- A call that meets `P` and returns, with an error number or without. -/
def Step (P : World → Call → Prop) (w : World) (c : Call) (w' : World) : Prop :=
  P w c ∧ (w.call c = .ok () w' ∨ ∃ e, w.call c = .error (.errno e) w')

end World

variable {l l' : SchemeList} {ns ns' id n : Nat} {name name' : Name} {table table' : Name → Option Nat}
  {scheme : Nat → Scheme} {names : List Name}

theorem freeId_not_mem (map : List (Nat × Scheme)) (n : Nat) : freeId map n ∉ keys map := by
  unfold freeId
  cases hf : ((List.range (map.length + 1)).map (n + ·)).find? (· ∉ keys map) with
  | some id => simpa using List.find?_some hf
  | none =>
    -- all candidates are taken, one more than there are schemes
    have hall : (List.range (map.length + 1)).map (n + ·) ⊆ keys map := by
      intro x hx
      have := List.find?_eq_none.mp hf x hx
      simpa using this
    have hnodup : ((List.range (map.length + 1)).map (n + ·)).Nodup :=
      List.Nodup.map (fun a b hab => Nat.add_left_cancel hab) List.nodup_range
    have hlen := (List.subperm_of_subset hnodup hall).length_le
    simp only [List.length_map, List.length_range, keys] at hlen
    omega

/-- The list keeps its own rules. -/
structure Tidy (l : SchemeList) : Prop where
  listed : ∀ ns table name id, l.names ns = some table → table name = some id → id ∈ keys l.map
  nodup : (keys l.map).Nodup
  below : ∀ ns, l.names ns ≠ none → ns < l.nextNs
  roots : ∀ id ns i, (id, Scheme.root ns i) ∈ l.map → l.names ns ≠ none

theorem bind_ok {α β : Type} {x : SchemeM α} {f : α → SchemeM β} {a : α} (h : x l = .ok a l') :
    (x >>= f) l = f a l' := by
  change EStateM.bind x f l = _
  rw [EStateM.bind, h]

theorem bind_error {α β : Type} {x : SchemeM α} {f : α → SchemeM β} {e : Fault}
    (h : x l = .error e l') : (x >>= f) l = .error e l' := by
  change EStateM.bind x f l = _
  rw [EStateM.bind, h]

theorem get_run : (get : SchemeM SchemeList) l = .ok l l := rfl

theorem set_run : (set l' : SchemeM PUnit) l = .ok ⟨⟩ l' := rfl

theorem namesOf_some (h : l.names ns = some table) : namesOf ns l = .ok table l := by
  simp [namesOf, bind_ok get_run, h, pure, EStateM.pure]

theorem namesOf_none (h : l.names ns = none) : namesOf ns l = .error .panic l := by
  rw [namesOf, bind_ok get_run, h]
  rfl

theorem getName_run (h : l.names ns = some table) :
    getName ns name l = .ok ((table name).bind fun id => (l.map.lookup id).map (id, ·)) l := by
  rw [getName, bind_ok (namesOf_some h)]
  cases ht : table name with
  | none => rfl
  | some id => rfl

theorem bindName_run (h : l.names ns = some table) (hnew : table name = none) :
    bindName ns name id l = .ok () { l with
      names := Function.update l.names ns (some (Function.update table name (some id))) } := by
  rw [bindName, bind_ok (namesOf_some h), if_pos hnew]
  rfl

theorem bindName_taken (h : l.names ns = some table) (hold : table name ≠ none) :
    bindName ns name id l = .error .panic l := by
  rw [bindName, bind_ok (namesOf_some h), if_neg hold]
  rfl

theorem insert_exists (h : l.names ns = some table) (hold : table name ≠ none) :
    insert ns name scheme l = .error (.errno .EEXIST) l := by
  rw [insert, bind_ok (namesOf_some h), if_pos hold]
  rfl

/-- The list with a new scheme. -/
def SchemeList.with (l : SchemeList) (ns : Nat) (table : Name → Option Nat) (name : Name) (id : Nat)
    (scheme : Scheme) : SchemeList where
  map := (id, scheme) :: l.map
  names := Function.update l.names ns (some (Function.update table name (some id)))
  nextNs := l.nextNs
  nextId := id + 1

theorem insert_run (scheme : Nat → Scheme) (h : l.names ns = some table) (hnew : table name = none) :
    ∃ id, id ∉ keys l.map ∧ insert ns name scheme l = .ok id (l.with ns table name id (scheme id)) := by
  have hid := freeId_not_mem l.map (if l.nextId ≥ SCHEME_MAX_SCHEMES then 1 else l.nextId)
  refine ⟨_, hid, ?_⟩
  rw [insert, bind_ok (namesOf_some h), if_neg (by simpa using hnew), bind_ok get_run]
  generalize freeId l.map (if l.nextId ≥ SCHEME_MAX_SCHEMES then 1 else l.nextId) = id at hid ⊢
  have hbind : bindName ns name id { l with map := (id, scheme id) :: l.map, nextId := id + 1 } =
      .ok () _ := bindName_run h hnew
  rw [if_neg hid, bind_ok set_run, bind_ok hbind]
  rfl

theorem Tidy.with (h : Tidy l) (ht : l.names ns = some table) (hid : id ∉ keys l.map)
    {sch : Scheme} (hroot : ∀ ns' i, sch = .root ns' i → l.names ns' ≠ none) :
    Tidy (l.with ns table name id sch) := by
  have hkeys : ∀ ns', (l.with ns table name id sch).names ns' ≠ none ↔ l.names ns' ≠ none := by
    intro ns'
    by_cases hn : ns' = ns
    · simp [SchemeList.with, hn, ht]
    · simp [SchemeList.with, hn]
  refine ⟨fun ns' table' name' id' ht' hn => ?_, List.nodup_cons.mpr ⟨hid, h.nodup⟩,
    fun ns' hn => h.below ns' ((hkeys ns').mp hn), fun id' ns' i hm => (hkeys ns').mpr ?_⟩
  · by_cases hns : ns' = ns
    · subst hns
      simp only [SchemeList.with, Function.update_self, Option.some.injEq] at ht'
      subst ht'
      by_cases hname : name' = name
      · rw [hname, Function.update_self] at hn
        cases hn
        exact List.mem_cons_self
      · rw [Function.update_of_ne hname] at hn
        exact List.mem_cons_of_mem _ (h.listed ns' table name' id' ht hn)
    · simp only [SchemeList.with, Function.update_of_ne hns] at ht'
      exact List.mem_cons_of_mem _ (h.listed ns' table' name' id' ht' hn)
  · rcases List.mem_cons.mp hm with hm | hm
    · exact hroot ns' i (Prod.mk.inj hm).2.symm
    · exact h.roots id' ns' i hm

/-- What a list keeps when schemes are added in the namespace `ns` only. -/
structure Grows (l : SchemeList) (ns : Nat) (l' : SchemeList) : Prop where
  other : ∀ ns', ns' ≠ ns → l'.names ns' = l.names ns'
  nextNs : l'.nextNs = l.nextNs
  kept : ∀ id s, l.map.lookup id = some s → l'.map.lookup id = some s

theorem Grows.refl (l : SchemeList) (ns : Nat) : Grows l ns l := ⟨fun _ _ => rfl, rfl, fun _ _ h => h⟩

theorem Grows.trans {l'' : SchemeList} (h : Grows l ns l') (h' : Grows l' ns l'') : Grows l ns l'' :=
  ⟨fun ns' hn => (h'.other ns' hn).trans (h.other ns' hn), h'.nextNs.trans h.nextNs,
    fun id s hs => h'.kept id s (h.kept id s hs)⟩

theorem lookup_mem_keys {map : List (Nat × Scheme)} {s : Scheme} (h : map.lookup id = some s) :
    id ∈ keys map := by
  obtain ⟨pre, post, rfl, -⟩ := List.lookup_eq_some_iff.mp h
  simp [keys]

theorem lookup_of_mem_keys {map : List (Nat × Scheme)} (h : id ∈ keys map) :
    ∃ s, map.lookup id = some s := by
  cases hl : map.lookup id with
  | some s => exact ⟨s, rfl⟩
  | none =>
    obtain ⟨e, he, rfl⟩ := List.mem_map.mp h
    have := List.lookup_eq_none_iff.mp hl e he
    simp at this

theorem Grows.with {sch : Scheme} (hid : id ∉ keys l.map) :
    Grows l ns (l.with ns table name id sch) := by
  refine ⟨fun ns' hn => Function.update_of_ne hn _ _, rfl, fun i s hs => ?_⟩
  have hne : (i == id) = false := by
    have : i ≠ id := by
      rintro rfl
      exact hid (lookup_mem_keys hs)
    simpa using this
  simp only [SchemeList.with, List.lookup_cons, hne, hs]

/-- New names go in one after the other. -/
theorem insertAll_run (es : List (Name × (Nat → Nat → Scheme))) (h : Tidy l)
    (ht : l.names ns = some table) (hnodup : (es.map (·.1)).Nodup)
    (hnew : ∀ e ∈ es, table e.1 = none)
    (hroot : ∀ e ∈ es, ∀ id ns' i, e.2 ns id = .root ns' i → ns' = ns) :
    ∃ l' table', insertAll ns es l = .ok () l' ∧ Tidy l' ∧ Grows l ns l' ∧
      l'.names ns = some table' ∧
      ∀ name, table' name ≠ none ↔ table name ≠ none ∨ name ∈ es.map (·.1) := by
  induction es generalizing l table with
  | nil => exact ⟨l, table, rfl, h, .refl l ns, ht, fun name => by simp⟩
  | cons e es ih =>
    obtain ⟨id, hid, hrun⟩ := insert_run (e.2 ns) ht (hnew e List.mem_cons_self)
    have htidy : Tidy (l.with ns table e.1 id (e.2 ns id)) := by
      refine h.with ht hid fun ns' i he => ?_
      rw [hroot e List.mem_cons_self id ns' i he, ht]
      simp
    rw [List.map_cons, List.nodup_cons] at hnodup
    have hnames : (l.with ns table e.1 id (e.2 ns id)).names ns =
        some (Function.update table e.1 (some id)) := by simp [SchemeList.with]
    obtain ⟨l', table', hok, htidy', hgrow, ht', hdom⟩ := ih htidy hnames hnodup.2
      (fun e' he' => by
        have hne : e'.1 ≠ e.1 := fun heq => hnodup.1 (heq ▸ List.mem_map_of_mem he')
        rw [Function.update_of_ne hne]
        exact hnew e' (List.mem_cons_of_mem _ he'))
      (fun e' he' => hroot e' (List.mem_cons_of_mem _ he'))
    refine ⟨l', table', ?_, htidy', (Grows.with hid).trans hgrow, ht', fun name => ?_⟩
    · rw [insertAll, bind_ok (show insertUnwrap ns e.1 (e.2 ns) l = .ok () _ by
        rw [insertUnwrap, hrun]), hok]
    · rw [hdom, List.map_cons, List.mem_cons]
      by_cases hn : name = e.1
      · simp [hn]
      · simp [hn]

def commonNames : List Name := common.map (·.1)

/-- A new namespace has the common names. -/
theorem newNs_run (h : Tidy l) : ∃ l' table, newNs l = .ok l.nextNs l' ∧ Tidy l' ∧
    l'.nextNs = l.nextNs + 1 ∧ (∀ ns, ns ≠ l.nextNs → l'.names ns = l.names ns) ∧
    l'.names l.nextNs = some table ∧ ∀ name, table name ≠ none ↔ name ∈ commonNames := by
  have hfresh : l.names l.nextNs = none := by
    by_contra hn
    exact absurd (h.below _ hn) (by omega)
  let l₁ : SchemeList := { l with
    nextNs := l.nextNs + 1, names := Function.update l.names l.nextNs (some fun _ => none) }
  have hnames : l₁.names l.nextNs = some fun _ => none := Function.update_self ..
  have hother : ∀ ns, ns ≠ l.nextNs → l₁.names ns = l.names ns :=
    fun ns hn => Function.update_of_ne hn _ _
  have htidy : Tidy l₁ := by
    refine ⟨fun ns table name id ht hn => ?_, h.nodup, fun ns hn => ?_, fun id ns i hm => ?_⟩
    · by_cases hns : ns = l.nextNs
      · subst hns
        rw [hnames] at ht
        cases ht
        cases hn
      · exact h.listed ns table name id (hother ns hns ▸ ht) hn
    · show ns < l.nextNs + 1
      by_cases hns : ns = l.nextNs
      · omega
      · have := h.below ns (hother ns hns ▸ hn)
        omega
    · have hold := h.roots id ns i hm
      have hns : ns ≠ l.nextNs := by
        rintro rfl
        exact hold hfresh
      rwa [hother ns hns]
  obtain ⟨l', table, hrun, htidy', hgrow, ht, hdom⟩ :=
    insertAll_run common htidy hnames (by decide) (fun e he => rfl) (by
      intro e he id ns' i hroot
      simp only [common, List.mem_cons, List.not_mem_nil, or_false] at he
      rcases he with rfl | rfl | rfl | rfl | rfl | rfl <;> simp_all)
  refine ⟨l', table, ?_, htidy', hgrow.nextNs,
    fun ns hn => (hgrow.other ns hn).trans (hother ns hn), ht, ?_⟩
  · rw [newNs, bind_ok get_run]
    change (insertAll l.nextNs common >>= fun _ => pure l.nextNs) l₁ = _
    rw [bind_ok hrun]
    rfl
  · intro name
    rw [hdom name]
    simp [commonNames]

end Origel.Kernel.Schemes
