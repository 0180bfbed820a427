import Origel.Kernel.Schemes

/-! Namespaces over whole runs: what contexts name exists, and what a call may break. -/
namespace Origel.Kernel.Schemes

open Origel.Lib

variable {l l' : SchemeList} {ns source target : Nat} {name : Name} {names : List Name}
  {c : Context} {w w' : World} {call : Call} {path : List UInt8}

/-- The same namespaces. -/
def SameSpaces (l l' : SchemeList) : Prop := ∀ ns, l'.names ns ≠ none ↔ l.names ns ≠ none

theorem SameSpaces.refl (l : SchemeList) : SameSpaces l l := fun _ => Iff.rfl

theorem sameSpaces_update (table : Name → Option Nat) (map : List (Nat × Scheme)) (nextId : Nat)
    (h : l.names ns ≠ none) :
    SameSpaces l ⟨map, Function.update l.names ns (some table), l.nextNs, nextId⟩ := by
  intro ns'
  by_cases hn : ns' = ns
  · subst hn
    simp [h]
  · simp [Function.update_of_ne hn]

theorem SameSpaces.trans {l'' : SchemeList} (h : SameSpaces l l') (h' : SameSpaces l' l'') :
    SameSpaces l l'' := fun ns => (h' ns).trans (h ns)

theorem Tidy.bind {table : Name → Option Nat} {id : Nat} (h : Tidy l) (ht : l.names ns = some table)
    (hid : id ∈ keys l.map) : Tidy { l with
      names := Function.update l.names ns (some (Function.update table name (some id))) } := by
  have hsame : SameSpaces l _ := sameSpaces_update (Function.update table name (some id))
    l.map l.nextId (show l.names ns ≠ none by simp [ht])
  refine ⟨fun ns' table' name' id' ht' hn => ?_, h.nodup,
    fun ns' hn => h.below ns' ((hsame ns').mp hn),
    fun id' ns' i hm => (hsame ns').mpr (h.roots id' ns' i hm)⟩
  by_cases hns : ns' = ns
  · subst hns
    simp only [Function.update_self, Option.some.injEq] at ht'
    subst ht'
    by_cases hname : name' = name
    · rw [hname, Function.update_self] at hn
      cases hn
      exact hid
    · rw [Function.update_of_ne hname] at hn
      exact h.listed ns' table name' id' ht hn
  · simp only [Function.update_of_ne hns] at ht'
    exact h.listed ns' table' name' id' ht' hn

/-- Names of the source that are new in the target are all copied. -/
theorem copyNames_run {st tt : Name → Option Nat} (h : Tidy l) (hs : l.names source = some st)
    (ht : l.names target = some tt) (hne : source ≠ target) (hnodup : names.Nodup)
    (hnames : ∀ name ∈ names, st name ≠ none ∧ tt name = none) :
    ∃ l', copyNames source target names l = .ok () l' ∧ Tidy l' ∧ SameSpaces l l' := by
  induction names generalizing l tt with
  | nil => exact ⟨l, rfl, h, .refl l⟩
  | cons name names ih =>
    rw [List.nodup_cons] at hnodup
    obtain ⟨hst, htt⟩ := hnames name List.mem_cons_self
    obtain ⟨id, hid⟩ := Option.ne_none_iff_exists'.mp hst
    have hmem : id ∈ keys l.map := h.listed source st name id hs hid
    obtain ⟨s, hlookup⟩ := lookup_of_mem_keys hmem
    have hget : getName source name l = .ok (some (id, s)) l := by
      rw [getName_run hs, hid]
      simp [hlookup]
    have hsame : SameSpaces l { l with
        names := Function.update l.names target (some (Function.update tt name (some id))) } :=
      sameSpaces_update _ l.map l.nextId (by simp [ht])
    obtain ⟨l', hrun, htidy, hspaces⟩ := ih
      (h.bind ht hmem) ((Function.update_of_ne hne _ _).trans hs) (Function.update_self ..)
      hnodup.2 (fun name' hn => by
        have hne' : name' ≠ name := fun heq => hnodup.1 (heq ▸ hn)
        rw [Function.update_of_ne hne']
        exact hnames name' (List.mem_cons_of_mem _ hn))
    refine ⟨l', ?_, htidy, hsame.trans hspaces⟩
    rw [copyNames, bind_ok hget]
    change (bindName target name id >>= fun _ => copyNames source target names) l = _
    rw [bind_ok (bindName_run ht htt), hrun]

/-- Else the copy ends at the first name that is unknown or taken. -/
theorem copyNames_fails {st tt : Name → Option Nat} (h : Tidy l) (hs : l.names source = some st)
    (ht : l.names target = some tt) (hne : source ≠ target)
    (hbad : ¬ (names.Nodup ∧ ∀ name ∈ names, st name ≠ none ∧ tt name = none)) :
    ∃ e l', copyNames source target names l = .error e l' ∧ SameSpaces l l' := by
  induction names generalizing l tt with
  | nil => simp at hbad
  | cons name names ih =>
    rw [copyNames]
    cases hid : st name with
    | none =>
      have hget : getName source name l = .ok none l := by rw [getName_run hs, hid]; rfl
      exact ⟨.errno .ENODEV, l, bind_ok hget, .refl l⟩
    | some id =>
      have hmem : id ∈ keys l.map := h.listed source st name id hs hid
      obtain ⟨s, hlookup⟩ := lookup_of_mem_keys hmem
      have hget : getName source name l = .ok (some (id, s)) l := by
        rw [getName_run hs, hid]
        simp [hlookup]
      rw [bind_ok hget]
      change ∃ e l', (bindName target name id >>= fun _ => copyNames source target names) l = _ ∧ _
      by_cases htt : tt name = none
      · obtain ⟨e, l', hrun, hsame⟩ := ih (h.bind ht hmem)
          ((Function.update_of_ne hne _ _).trans hs) (Function.update_self ..) (by
            rintro ⟨hnodup, hrest⟩
            refine hbad ⟨List.nodup_cons.mpr ⟨fun hn => ?_, hnodup⟩, fun name' hn => ?_⟩
            · have htaken := (hrest name hn).2
              rw [Function.update_self] at htaken
              cases htaken
            · rcases List.mem_cons.mp hn with rfl | hn
              · exact ⟨by simp [hid], htt⟩
              · obtain ⟨hst, hnew⟩ := hrest name' hn
                refine ⟨hst, ?_⟩
                by_cases heq : name' = name
                · rw [heq, Function.update_self] at hnew
                  cases hnew
                · rwa [Function.update_of_ne heq] at hnew)
        refine ⟨e, l', ?_, SameSpaces.trans ?_ hsame⟩
        · rw [bind_ok (bindName_run ht htt), hrun]
        · exact sameSpaces_update _ l.map l.nextId (by simp [ht])
      · exact ⟨.panic, l, bind_error (bindName_taken ht htt), .refl l⟩

/-- The names that `mkns` can copy from the namespace. -/
structure Copyable (l : SchemeList) (ns : Nat) (names : List Name) : Prop where
  known : ∀ name ∈ names, ∃ table, l.names ns = some table ∧ table name ≠ none
  nodup : names.Nodup
  fresh : ∀ name ∈ names, name ∉ commonNames

theorem makeNs_run (h : Tidy l) (hs : l.names source ≠ none) (hc : Copyable l source names) :
    ∃ l', makeNs source names l = .ok l.nextNs l' ∧ Tidy l' ∧
      ∀ ns, l.names ns ≠ none ∨ ns = l.nextNs → l'.names ns ≠ none := by
  obtain ⟨l₁, table, hnew, htidy, -, hother, ht, hdom⟩ := newNs_run h
  obtain ⟨st, hst⟩ := Option.ne_none_iff_exists'.mp hs
  have hne : source ≠ l.nextNs := Nat.ne_of_lt (h.below source hs)
  obtain ⟨l', hrun, htidy', hsame⟩ := copyNames_run htidy
    ((hother source hne).trans hst) ht hne hc.nodup (fun name hn => by
      obtain ⟨table', ht', hin⟩ := hc.known name hn
      rw [hst] at ht'
      cases ht'
      refine ⟨hin, ?_⟩
      by_contra hbad
      exact hc.fresh name hn ((hdom name).mp hbad))
  refine ⟨l', ?_, htidy', fun ns hn => (hsame ns).mpr ?_⟩
  · rw [makeNs, bind_ok hnew, bind_ok hrun]
    rfl
  · rcases hn with hn | rfl
    · rwa [hother ns (Nat.ne_of_lt (h.below ns hn))]
    · simp [ht]

/-- Any other list of names fails, with the new namespace left behind. -/
theorem makeNs_fails (h : Tidy l) (hs : l.names source ≠ none) (hc : ¬ Copyable l source names) :
    ∃ e l', makeNs source names l = .error e l' ∧ l'.names l.nextNs ≠ none := by
  obtain ⟨l₁, table, hnew, htidy, -, hother, ht, hdom⟩ := newNs_run h
  obtain ⟨st, hst⟩ := Option.ne_none_iff_exists'.mp hs
  have hne : source ≠ l.nextNs := Nat.ne_of_lt (h.below source hs)
  obtain ⟨e, l', hrun, hsame⟩ := copyNames_fails htidy ((hother source hne).trans hst) ht hne
    (fun hall => hc ⟨fun name hn => ⟨st, hst, (hall.2 name hn).1⟩, hall.1, fun name hn hcommon =>
      (hdom name).mpr hcommon (hall.2 name hn).2⟩)
  refine ⟨e, l', ?_, (hsame l.nextNs).mpr (by simp [ht])⟩
  rw [makeNs, bind_ok hnew, bind_error hrun]

theorem parentOf_some {cwd : List UInt8} (h : cwd ≠ []) : ∃ p, parentOf cwd = some p := by
  simp [parentOf, h]

theorem canonicalize_some {cwd : List UInt8} (h : cwd ≠ []) (path : List UInt8) :
    ∃ p, canonicalize cwd path = some p := by
  obtain ⟨p, hp⟩ := parentOf_some h
  unfold canonicalize
  simp only [hp, h, if_false, Option.map_some]
  split_ifs
  all_goals exact ⟨_, rfl⟩

/-- A path leads to a scheme of the list or to no device. -/
theorem resolve_run (h : l.names c.ens ≠ none) (hcwd : c.cwd ≠ []) (path : List UInt8) :
    (∃ id s reference, (id, s) ∈ l.map ∧ resolve c path l = .ok (s, reference) l) ∨
      resolve c path l = .error (.errno .ENODEV) l := by
  obtain ⟨p, hp⟩ := canonicalize_some hcwd path
  obtain ⟨table, ht⟩ := Option.ne_none_iff_exists'.mp h
  have hget : getName c.ens (splitPath p).1 l = _ := getName_run ht
  unfold resolve
  rw [hp]
  dsimp only
  rw [bind_ok hget]
  cases hb : (table (splitPath p).1).bind fun id => (l.map.lookup id).map (id, ·) with
  | none => exact .inr rfl
  | some e =>
    obtain ⟨id, -, hid⟩ := Option.bind_eq_some_iff.mp hb
    obtain ⟨s, hs, rfl⟩ := Option.map_eq_some_iff.mp hid
    obtain ⟨pre, post, hmap, -⟩ := List.lookup_eq_some_iff.mp hs
    exact .inl ⟨id, s, (splitPath p).2, by simp [hmap], rfl⟩

/-- A call on the list came back, and left it in order with all its namespaces. -/
def Returns {α : Type} (l : SchemeList) (r : EStateM.Result Fault SchemeList α) : Prop :=
  ∃ l', ((∃ a, r = .ok a l') ∨ ∃ e, r = .error (.errno e) l') ∧ Tidy l' ∧
    ∀ ns, l.names ns ≠ none → l'.names ns ≠ none

theorem returns_error {α : Type} (h : Tidy l) (e : Errno) :
    Returns l (.error (.errno e) l : EStateM.Result Fault SchemeList α) :=
  ⟨l, .inr ⟨e, rfl⟩, h, fun _ hn => hn⟩

theorem returns_ok {α : Type} (h : Tidy l) (a : α) : Returns l (.ok a l) :=
  ⟨l, .inl ⟨a, rfl⟩, h, fun _ hn => hn⟩

theorem insert_returns (h : Tidy l) (hns : l.names ns ≠ none) (name : Name) :
    Returns l (insert ns name (fun _ => .user) l) := by
  obtain ⟨table, ht⟩ := Option.ne_none_iff_exists'.mp hns
  by_cases hold : table name = none
  · obtain ⟨id, hid, hrun⟩ := insert_run (fun _ => .user) ht hold
    rw [hrun]
    refine ⟨_, .inl ⟨id, rfl⟩, h.with ht hid (by simp), fun ns' hn => ?_⟩
    exact (sameSpaces_update _ _ _ hns ns').mpr hn
  · rw [insert_exists ht hold]
    exact returns_error h _

theorem openPath_returns (h : Tidy l) (hens : l.names c.ens ≠ none) (hcwd : c.cwd ≠ []) :
    Returns l (openPath c path l) := by
  rcases resolve_run hens hcwd path with ⟨id, s, reference, hmem, hrun⟩ | hrun
  · rw [openPath, bind_ok hrun]
    cases s with
    | root ns i =>
      have hns : l.names ns ≠ none := h.roots id ns i hmem
      by_cases huid : c.euid = 0
      · obtain ⟨l', hres, htidy, hspaces⟩ := insert_returns h hns reference
        refine ⟨l', ?_, htidy, hspaces⟩
        simp only [huid, if_true]
        rcases hres with ⟨a, ha⟩ | ⟨e, he⟩
        · exact .inl ⟨(), by rw [bind_ok ha]; rfl⟩
        · exact .inr ⟨e, bind_error he⟩
      · simp only [huid, if_false]
        exact returns_error h _
    | _ => exact returns_ok h ()
  · rw [openPath, bind_error hrun]
    exact returns_error h _

theorem changePath_returns (h : Tidy l) (hens : l.names c.ens ≠ none) (hcwd : c.cwd ≠ []) :
    Returns l (changePath c path l) := by
  rcases resolve_run hens hcwd path with ⟨id, s, reference, -, hrun⟩ | hrun
  · rw [changePath, bind_ok hrun]
    exact returns_ok h ()
  · rw [changePath, bind_error hrun]
    exact returns_error h _

theorem mkns_returns (h : Tidy l) (hens : l.names c.ens ≠ none)
    (hc : c.euid = 0 → Copyable l c.ens names) : Returns l (mkns c names l) := by
  by_cases huid : c.euid = 0
  · obtain ⟨l', hrun, htidy, hspaces⟩ := makeNs_run h hens (hc huid)
    rw [mkns, if_pos huid, hrun]
    exact ⟨l', .inl ⟨_, rfl⟩, htidy, fun ns hn => hspaces ns (.inl hn)⟩
  · rw [mkns, if_neg huid]
    exact returns_error h _

namespace World

/-- Every context is in namespaces of the list. -/
structure Placed (w : World) : Prop where
  tidy : Tidy w.schemes
  spaces : ∀ pid c, w.contexts pid = some c →
    w.schemes.names c.rns ≠ none ∧ w.schemes.names c.ens ≠ none ∧ c.cwd ≠ []

/-- What has to hold of the numbers given to `setrens` and the names given to `mkns`. -/
def Known (w : World) : Call → Prop
  | .setrens pid rns ens => ∀ c, w.contexts pid = some c → maySetrens c rns ens →
      (rns ≠ NONE → w.schemes.names rns ≠ none) ∧ (ens ≠ NONE → w.schemes.names ens ≠ none)
  | .mkns pid names => ∀ c, w.contexts pid = some c → c.euid = 0 → Copyable w.schemes c.ens names
  | _ => True

theorem onSchemes_placed {α : Type} {x : SchemeM α} (h : w.Placed) (hx : Returns w.schemes (x w.schemes)) :
    ∃ w', (w.onSchemes x = .ok () w' ∨ ∃ e, w.onSchemes x = .error (.errno e) w') ∧ w'.Placed := by
  obtain ⟨l', hres, htidy, hspaces⟩ := hx
  refine ⟨{ w with schemes := l' }, ?_, htidy, fun pid c hc => ?_⟩
  · rcases hres with ⟨a, ha⟩ | ⟨e, he⟩
    · left
      rw [onSchemes, ha]
    · right
      exact ⟨e, by rw [onSchemes, he]⟩
  · obtain ⟨hrns, hens, hcwd⟩ := h.spaces pid c hc
    exact ⟨hspaces _ hrns, hspaces _ hens, hcwd⟩

theorem update_placed {pid : Nat} (h : w.Placed) (hrns : w.schemes.names c.rns ≠ none)
    (hens : w.schemes.names c.ens ≠ none) (hcwd : c.cwd ≠ []) :
    Placed { w with contexts := Function.update w.contexts pid (some c) } := by
  refine ⟨h.tidy, fun pid' c' hc' => ?_⟩
  by_cases hp : pid' = pid
  · simp only [hp, Function.update_self, Option.some.injEq] at hc'
    subst hc'
    exact ⟨hrns, hens, hcwd⟩
  · simp only [Function.update_of_ne hp] at hc'
    exact h.spaces pid' c' hc'

/-- A call that meets the condition comes back, and every context stays placed. -/
theorem call_placed (h : w.Placed) (hk : w.Known call) :
    ∃ w', (w.call call = .ok () w' ∨ ∃ e, w.call call = .error (.errno e) w') ∧ w'.Placed := by
  cases call with
  | openPath pid path =>
    cases hc : w.contexts pid with
    | none => exact ⟨w, by simp [World.call, hc], h⟩
    | some c =>
      obtain ⟨-, hens, hcwd⟩ := h.spaces pid c hc
      simp only [World.call, hc]
      exact onSchemes_placed h (openPath_returns h.tidy hens hcwd)
  | changePath pid path =>
    cases hc : w.contexts pid with
    | none => exact ⟨w, by simp [World.call, hc], h⟩
    | some c =>
      obtain ⟨-, hens, hcwd⟩ := h.spaces pid c hc
      simp only [World.call, hc]
      exact onSchemes_placed h (changePath_returns h.tidy hens hcwd)
  | mkns pid names =>
    cases hc : w.contexts pid with
    | none => exact ⟨w, by simp [World.call, hc], h⟩
    | some c =>
      obtain ⟨-, hens, -⟩ := h.spaces pid c hc
      simp only [World.call, hc]
      exact onSchemes_placed h (mkns_returns h.tidy hens (hk c hc))
  | setrens pid rns ens =>
    cases hc : w.contexts pid with
    | none => exact ⟨w, by simp [World.call, hc], h⟩
    | some c =>
      obtain ⟨hrns, hens, hcwd⟩ := h.spaces pid c hc
      by_cases hmay : maySetrens c rns ens
      · obtain ⟨hnewR, hnewE⟩ := hk c hc hmay
        have hset : w.call (.setrens pid rns ens) = .ok () { w with
            contexts := Function.update w.contexts pid (some { c with
              rns := if rns ≠ NONE then rns else c.rns
              ens := if ens ≠ NONE then ens else c.ens }) } := by
          simp only [World.call, hc, Schemes.setrens, hmay, if_true]
        have hrns' : w.schemes.names (if rns ≠ NONE then rns else c.rns) ≠ none := by
          split_ifs with hn
          · exact hnewR hn
          · exact hrns
        have hens' : w.schemes.names (if ens ≠ NONE then ens else c.ens) ≠ none := by
          split_ifs with hn
          · exact hnewE hn
          · exact hens
        exact ⟨_, .inl hset, update_placed h hrns' hens' hcwd⟩
      · exact ⟨w, .inr ⟨.EPERM, by simp [World.call, hc, Schemes.setrens, hmay]⟩, h⟩
  | clone pid child =>
    cases hc : w.contexts pid with
    | none => exact ⟨w, by simp [World.call, hc], h⟩
    | some c =>
      obtain ⟨hrns, hens, hcwd⟩ := h.spaces pid c hc
      have hclone : w.call (.clone pid child) =
          .ok () { w with contexts := Function.update w.contexts child (some c) } := by
        simp only [World.call, hc]
      exact ⟨_, .inl hclone, update_placed h hrns hens hcwd⟩

/-- The start: the new list, and contexts in the root namespace. -/
structure Boot (live : Bool) (w : World) : Prop where
  schemes : SchemeList.new live = .ok () w.schemes
  contexts : ∀ pid c, w.contexts pid = some c → c.rns = 0 ∧ c.ens = 0 ∧ c.cwd ≠ []

theorem new_run (live : Bool) : ∃ l table, SchemeList.new live = .ok () l ∧ Tidy l ∧ l.nextNs = 1 ∧
    l.names 0 = some table ∧
    ∀ name, table name ≠ none ↔ name ∈ commonNames ∨ name ∈ (rootOnly live).map (·.1) := by
  have hempty : Tidy ⟨[], fun _ => none, 0, 1⟩ :=
    ⟨fun ns table name id ht => (nomatch ht), List.nodup_nil, fun ns hn => absurd rfl hn,
      fun id ns i hm => (nomatch hm)⟩
  obtain ⟨l₁, table, hnew, htidy, hnext, -, ht, hdom⟩ := newNs_run hempty
  have hfresh : ∀ e ∈ rootOnly live, table e.1 = none := by
    intro e he
    by_contra hbad
    have hcommon := (hdom e.1).mp hbad
    have hsplit : ∀ e ∈ rootOnly live, e.1 ∉ commonNames := by
      cases live <;> decide
    exact hsplit e he hcommon
  obtain ⟨l, table', hrun, htidy', hgrow, ht', hdom'⟩ := insertAll_run (rootOnly live) htidy ht
    (by cases live <;> decide) hfresh (by
      intro e he id ns' i hroot
      cases live <;> simp only [rootOnly, List.cons_append, List.nil_append, List.mem_cons,
        List.not_mem_nil, or_false, if_true, if_false, Bool.false_eq_true] at he
      · rcases he with rfl | rfl | rfl | rfl <;> cases hroot
      · rcases he with rfl | rfl | rfl | rfl | rfl <;> cases hroot)
  refine ⟨l, table', ?_, htidy', hgrow.nextNs.trans hnext, ht', fun name => by rw [hdom', hdom]⟩
  rw [SchemeList.new, newRoot, bind_ok hnew, hrun]

theorem Boot.list {live : Bool} (h : Boot live w) : Tidy w.schemes ∧ w.schemes.nextNs = 1 ∧
    ∃ table, w.schemes.names 0 = some table ∧
      ∀ name, table name ≠ none ↔ name ∈ commonNames ∨ name ∈ (rootOnly live).map (·.1) := by
  obtain ⟨l, table, hnew, htidy, hnext, hzero, hdom⟩ := new_run live
  have heq := hnew.symm.trans h.schemes
  cases heq
  exact ⟨htidy, hnext, table, hzero, hdom⟩

theorem Boot.placed {live : Bool} (h : Boot live w) : w.Placed := by
  obtain ⟨htidy, -, table, hzero, -⟩ := h.list
  refine ⟨htidy, fun pid c hc => ?_⟩
  obtain ⟨hrns, hens, hcwd⟩ := h.contexts pid c hc
  rw [hrns, hens, hzero]
  exact ⟨Option.some_ne_none _, Option.some_ne_none _, hcwd⟩

theorem Placed.step {w' : World} (h : w.Placed) (hs : Step Known w call w') : w'.Placed := by
  obtain ⟨hk, hres⟩ := hs
  obtain ⟨w₁, hres₁, hplaced⟩ := call_placed h hk
  have heq : w' = w₁ := by
    rcases hres with hr | ⟨e, hr⟩ <;> rcases hres₁ with hr₁ | ⟨e₁, hr₁⟩ <;>
      simp_all
  exact heq ▸ hplaced

/-- What the namespaces are to keep. -/
structure Consistent (w : World) : Prop where
  placed : ∀ pid c, w.contexts pid = some c →
    w.schemes.names c.rns ≠ none ∧ w.schemes.names c.ens ≠ none
  listed : ∀ ns table name id, w.schemes.names ns = some table → table name = some id →
    id ∈ keys w.schemes.map
  nodup : (keys w.schemes.map).Nodup

/-- Where `setrens` is given numbers of namespaces, and `mkns` distinct names that the caller's
namespace has and a new one does not, the namespaces stay consistent, no call panics, and a `mkns`
that fails makes no namespace. -/
theorem namespaces_stay_consistent {live : Bool} {w₀ : World} {calls : List Call}
    (hb : Boot live w₀) (hr : Run (Step Known) w₀ calls w) :
    w.Consistent ∧ ∀ call, w.Known call →
      (∀ w', w.call call ≠ .error .panic w') ∧
      ∀ pid names e w', call = .mkns pid names → w.call call = .error e w' →
        SameSpaces w.schemes w'.schemes := by
  have hplaced : w.Placed := hr.invariant (fun _ _ _ hs h => h.step hs) hb.placed
  refine ⟨⟨fun pid c hc => ?_, hplaced.tidy.listed, hplaced.tidy.nodup⟩, fun call hk => ⟨?_, ?_⟩⟩
  · obtain ⟨hrns, hens, -⟩ := hplaced.spaces pid c hc
    exact ⟨hrns, hens⟩
  · intro w' hpanic
    obtain ⟨w₁, hok | ⟨e, herr⟩, -⟩ := call_placed hplaced hk
    · rw [hok] at hpanic
      cases hpanic
    · rw [herr] at hpanic
      cases hpanic
  · rintro pid names e w' rfl herr
    cases hc : w.contexts pid with
    | none =>
      simp only [World.call, hc] at herr
      cases herr
      exact .refl _
    | some c =>
      by_cases huid : c.euid = 0
      · -- the copy goes through
        obtain ⟨l', hrun, -⟩ := makeNs_run hplaced.tidy (hplaced.spaces pid c hc).2.1 (hk c hc huid)
        simp only [World.call, hc, onSchemes, Schemes.mkns, huid, if_true, hrun] at herr
        cases herr
      · simp only [World.call, hc, onSchemes, Schemes.mkns, huid, if_false] at herr
        cases herr
        exact .refl _

/-- One context, of the superuser. -/
def alone (l : SchemeList) : World where
  schemes := l
  contexts := fun pid => if pid = 0 then some ⟨0, 0, 0, [colon]⟩ else none

theorem alone_boot (h : SchemeList.new false = .ok () l) : Boot false (alone l) := by
  refine ⟨h, fun pid c hc => ?_⟩
  by_cases hp : pid = 0
  · simp only [alone, hp, if_true, Option.some.injEq] at hc
    subst hc
    simp
  · simp [alone, hp] at hc

def debugName : Name := [100, 101, 98, 117, 103]

/-- A namespace with `debug:` is made and entered. -/
theorem namespaces_stay_consistent_after_mkns : ∃ l w, SchemeList.new false = .ok () l ∧
    Run (Step Known) (alone l) [.mkns 0 [debugName], .setrens 0 1 1] w ∧ w.Consistent := by
  obtain ⟨l, table, hnew, htidy, hnext, hzero, hdom⟩ := new_run false
  have hcopy : Copyable l 0 [debugName] := by
    refine ⟨fun name hn => ⟨table, hzero, ?_⟩, by decide, by decide⟩
    rw [List.mem_singleton.mp hn]
    exact (hdom debugName).mpr (by decide)
  obtain ⟨l', hrun, -, hspaces⟩ := makeNs_run htidy (by simp [hzero]) hcopy
  have hmkns : Step Known (alone l) (.mkns 0 [debugName]) (alone l') := by
    refine ⟨fun c hc _ => ?_, .inl ?_⟩
    · cases hc
      exact hcopy
    · change (alone l).onSchemes (makeNs 0 [debugName]) = _
      rw [onSchemes, show (alone l).schemes = l from rfl, hrun]
      rfl
  have hsetrens : Step Known (alone l') (.setrens 0 1 1) ⟨l', Function.update
      (alone l').contexts 0 (some ⟨0, 1, 1, [colon]⟩)⟩ := by
    have hone : l'.names 1 ≠ none := hspaces 1 (.inr hnext.symm)
    exact ⟨fun c hc _ => ⟨fun _ => hone, fun _ => hone⟩, .inl rfl⟩
  have hboth := Run.cons hmkns (.cons hsetrens .nil)
  exact ⟨l, _, hnew, hboth, (namespaces_stay_consistent (alone_boot hnew) hboth).1⟩

/-- A number that no namespace has is let through, and the next `open` panics; an unknown name
leaves a namespace behind. -/
theorem unknown_numbers_and_names_break_namespaces : ∃ l, Boot false (alone l) ∧
    (∃ w, (alone l).call (.setrens 0 7 7) = .ok () w ∧ ¬ w.Consistent ∧
      ∃ w', w.call (.openPath 0 [colon]) = .error .panic w') ∧
    ∃ e w, (alone l).call (.mkns 0 [[120]]) = .error e w ∧ ¬ SameSpaces l w.schemes := by
  obtain ⟨l, table, hnew, htidy, hnext, hzero, hdom⟩ := new_run false
  have hnone : ∀ ns, 1 ≤ ns → l.names ns = none := by
    intro ns hns
    by_contra hn
    exact absurd (htidy.below ns hn) (by omega)
  let lost : World := ⟨l, Function.update (alone l).contexts 0 (some ⟨0, 7, 7, [colon]⟩)⟩
  refine ⟨l, alone_boot hnew, ⟨lost, rfl, fun hgood => ?_, lost, ?_⟩, ?_⟩
  · exact (hgood.placed 0 ⟨0, 7, 7, [colon]⟩ rfl).1 (hnone 7 (by omega))
  · have hget : getName 7 [] l = .error .panic l := bind_error (namesOf_none (hnone 7 (by omega)))
    have hopen : openPath ⟨0, 7, 7, [colon]⟩ [colon] l = .error .panic l :=
      bind_error (bind_error hget)
    change lost.onSchemes (openPath ⟨0, 7, 7, [colon]⟩ [colon]) = _
    rw [onSchemes, show lost.schemes = l from rfl, hopen]
  · have hbad : ¬ Copyable l 0 [[120]] := by
      intro hc
      obtain ⟨table', ht', hin⟩ := hc.known [120] List.mem_cons_self
      rw [hzero] at ht'
      cases ht'
      exact absurd ((hdom [120]).mp hin) (by decide)
    obtain ⟨e, l', hrun, hleft⟩ := makeNs_fails htidy (by simp [hzero]) hbad
    refine ⟨e, alone l', ?_, fun hsame => ?_⟩
    · change (alone l).onSchemes (makeNs 0 [[120]]) = _
      rw [onSchemes, show (alone l).schemes = l from rfl, hrun]
      rfl
    · exact (hsame 1).mp (hnext ▸ hleft) (hnone 1 (by omega))

end World

end Origel.Kernel.Schemes
