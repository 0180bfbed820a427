import Mathlib.Data.List.Perm.Lattice
import Origel.Kernel.Waiting

/-! How many waiters a futex wake takes out of the list, and how many a requeue moves. -/
namespace Origel.Kernel.Waiting.Futex

variable {addr addr2 fuel i n : Nat} {val : Int} {l es rest : List (Nat × Nat)} {woken : List Nat}

/-- The entries that wait at an address. -/
def waiters (addr : Nat) (l : List (Nat × Nat)) : Nat := l.countP (·.1 = addr)

/-- A wake takes entries of its address, as many as it may and as there are, and leaves the rest. -/
structure Takes (addr : Nat) (val : Int) (l es rest : List (Nat × Nat)) : Prop where
  perm : l.Perm (es ++ rest)
  here : ∀ e ∈ es, e.1 = addr
  count : es.length = min val.toNat (waiters addr l)
  others : (rest.filter (·.1 ≠ addr)).Perm (l.filter (·.1 ≠ addr))

/-- No context but these is changed, and these are unblocked. -/
def Unblocks (w : World) (ps : List Nat) (w' : World) : Prop :=
  ∀ p, w'.ctx p = if p ∈ ps then (w.ctx p).unblock else w.ctx p

theorem Takes.of_perm {rest' : List (Nat × Nat)} (h : Takes addr val l es rest)
    (hperm : rest.Perm rest') : Takes addr val l es rest' where
  perm := h.perm.trans (hperm.append_left es)
  here := h.here
  count := h.count
  others := (hperm.filter _).symm.trans h.others

theorem waiters_of_here (h : ∀ e ∈ es, e.1 = addr) : waiters addr es = es.length := by
  apply List.countP_eq_length.mpr
  intro e he
  exact decide_eq_true (h e he)

theorem waiters_eq_zero (h : ∀ e ∈ l, e.1 ≠ addr) : waiters addr l = 0 := by
  apply List.countP_eq_zero.mpr
  intro e he
  exact fun hd => h e he (of_decide_eq_true hd)

theorem waiters_append (l l' : List (Nat × Nat)) :
    waiters addr (l ++ l') = waiters addr l + waiters addr l' := List.countP_append

theorem waiters_perm {l' : List (Nat × Nat)} (h : l.Perm l') : waiters addr l = waiters addr l' :=
  h.countP_eq _

theorem filter_of_here (h : ∀ e ∈ es, e.1 = addr) : es.filter (·.1 ≠ addr) = [] := by
  apply List.filter_eq_nil_iff.mpr
  intro e he hd
  exact of_decide_eq_true hd (h e he)

theorem asI32_of_lt (h : n < 2 ^ 31) : asI32 n = n := by
  unfold asI32
  rw [Int.bmod_def]
  omega

theorem getElem?_swapRemoveBack {α : Type} {l : List α} {j : Nat} (h : j < i) :
    (swapRemoveBack l i)[j]? = l.dropLast[j]? := by
  unfold swapRemoveBack
  split
  · rw [List.getElem?_dropLast, List.getElem?_dropLast, List.length_set, List.getElem?_set_ne (by omega)]
  · rename_i hnone
    rw [List.getLast?_eq_none_iff.mp hnone]
    rfl

theorem length_swapRemoveBack {α : Type} (l : List α) (i : Nat) :
    (swapRemoveBack l i).length = l.length - 1 := by
  unfold swapRemoveBack
  split
  · rw [List.length_dropLast, List.length_set]
  · rename_i hnone
    rw [List.getLast?_eq_none_iff.mp hnone]
    rfl

/-- What the loops have passed waits elsewhere. -/
def Passed (addr i : Nat) (l : List (Nat × Nat)) : Prop := ∀ j < i, ∀ e, l[j]? = some e → e.1 ≠ addr

theorem Passed.swapRemoveBack (h : Passed addr i l) : Passed addr i (swapRemoveBack l i) := by
  intro j hj e he
  rw [getElem?_swapRemoveBack hj] at he
  apply h j hj e
  rw [List.getElem?_dropLast] at he
  split at he
  · exact he
  · cases he

theorem Passed.next {e : Nat × Nat} (h : Passed addr i l) (he : l[i]? = some e) (hne : e.1 ≠ addr) :
    Passed addr (i + 1) l := by
  intro j hj e' he'
  rcases Nat.lt_succ_iff_lt_or_eq.mp hj with hlt | rfl
  · exact h j hlt e' he'
  · rw [he] at he'
    cases he'
    exact hne

theorem Passed.take (h : Passed addr i l) : ∀ e ∈ l.take i, e.1 ≠ addr := by
  intro e he
  obtain ⟨j, hj, rfl⟩ := List.mem_iff_getElem.mp he
  rw [List.length_take] at hj
  rw [List.getElem_take]
  exact h j (by omega) _ (List.getElem?_eq_getElem _)

theorem Passed.all (h : Passed addr i l) (hi : l.length ≤ i) : waiters addr l = 0 := by
  apply waiters_eq_zero
  rw [← List.take_of_length_le hi]
  exact h.take

/-- The loop stops when it has woken enough or has passed everything. -/
theorem wakeLoop_stops (hval : val < 2 ^ 31) (hp : Passed addr i l) (hfuel : l.length ≤ i + fuel)
    (hwoken : woken.length ≤ val.toNat) :
    Passed addr (wakeLoop addr val fuel i l woken).2.2 (wakeLoop addr val fuel i l woken).1 ∧
      (wakeLoop addr val fuel i l woken).2.1.length ≤ val.toNat ∧
      ((wakeLoop addr val fuel i l woken).2.1.length = val.toNat ∨
        waiters addr (wakeLoop addr val fuel i l woken).1 = 0) := by
  induction fuel generalizing i l woken with
  | zero => exact ⟨hp, hwoken, .inr (hp.all hfuel)⟩
  | succ fuel ih =>
    have hcount : asI32 woken.length = woken.length := asI32_of_lt (by omega)
    rw [wakeLoop, hcount]
    split
    · rename_i hlt
      split
      · rename_i hnone
        exact ⟨hp, hwoken, .inr (hp.all (List.getElem?_eq_none_iff.mp hnone))⟩
      · rename_i e he
        split
        · apply ih hp.swapRemoveBack
          · rw [length_swapRemoveBack]
            omega
          · rw [List.length_append, List.length_singleton]
            omega
        · rename_i hne
          exact ih (hp.next he hne) (by omega) hwoken
    · have hfull : woken.length = val.toNat := by omega
      exact ⟨hp, hwoken, .inl hfull⟩

/-- The first loop takes as many waiters as it may and as there are. -/
theorem wakeLoop_takes (hval : val < 2 ^ 31) (addr : Nat) (l : List (Nat × Nat)) :
    ∃ es, Takes addr val l es (wakeLoop addr val l.length 0 l []).1 ∧
      (wakeLoop addr val l.length 0 l []).2.1 = es.map Prod.snd ∧
      Passed addr (wakeLoop addr val l.length 0 l []).2.2 (wakeLoop addr val l.length 0 l []).1 := by
  obtain ⟨es, hperm, hhere, hwoken⟩ := wakeLoop_spec addr val l.length 0 l []
  obtain ⟨hpassed, hle, hdone⟩ := wakeLoop_stops hval (nofun : Passed addr 0 l)
    (Nat.le_of_eq (Nat.zero_add _).symm) (show ([] : List Nat).length ≤ val.toNat from Nat.zero_le _)
  rw [List.nil_append] at hwoken
  have hlen := congrArg List.length hwoken
  rw [List.length_map] at hlen
  refine ⟨es, ⟨hperm, hhere, ?_, ?_⟩, hwoken, hpassed⟩
  · have hsum : waiters addr l = waiters addr (es ++ _) := waiters_perm hperm
    rw [waiters_append, waiters_of_here hhere] at hsum
    omega
  · have hfilter := hperm.filter (fun e => decide (e.1 ≠ addr))
    rw [List.filter_append, filter_of_here hhere, List.nil_append] at hfilter
    exact hfilter.symm

/-- The second loop moves as many of those that are left. -/
theorem retarget_moves (addr addr2 n : Nat) (l : List (Nat × Nat)) :
    ∃ moved kept, l.Perm (moved ++ kept) ∧ (∀ e ∈ moved, e.1 = addr) ∧
      moved.length = min n (waiters addr l) ∧
      (retarget addr addr2 n l).Perm (moved.map (fun e => (addr2, e.2)) ++ kept) := by
  induction l generalizing n with
  | nil => cases n <;> exact ⟨[], [], .nil, nofun, (Nat.min_zero _).symm, .nil⟩
  | cons e l ih =>
    cases n with
    | zero => exact ⟨[], e :: l, .refl _, nofun, (Nat.zero_min _).symm, .refl _⟩
    | succ n =>
      rw [retarget]
      split
      · rename_i haddr
        obtain ⟨moved, kept, hperm, hhere, hcount, hresult⟩ := ih n
        refine ⟨e :: moved, kept, hperm.cons e, ?_, ?_, hresult.cons _⟩
        · intro e' he'
          rcases List.mem_cons.mp he' with rfl | he'
          · exact haddr
          · exact hhere e' he'
        · have hone : waiters addr (e :: l) = waiters addr l + 1 :=
            List.countP_cons_of_pos (decide_eq_true haddr)
          rw [List.length_cons, hcount, hone]
          omega
      · rename_i hne
        obtain ⟨moved, kept, hperm, hhere, hcount, hresult⟩ := ih (n + 1)
        refine ⟨moved, e :: kept, (hperm.cons e).trans List.perm_middle.symm, hhere, ?_,
          (hresult.cons e).trans List.perm_middle.symm⟩
        have hnone : waiters addr (e :: l) = waiters addr l :=
          List.countP_cons_of_neg fun hd => hne (of_decide_eq_true hd)
        rw [hcount, hnone]

theorem unblocks_unblockAll (w : World) (ps : List Nat) : Unblocks w ps (w.unblockAll ps) := by
  intro p
  rw [unblockAll_eq]

theorem unblocks_requeued (w : World) (ps : List Nat) : Unblocks w ps (w.requeued addr addr2 ps l) :=
  unblocks_unblockAll w ps

/-- A requeue scans on from where the first loop stopped, and nothing before it waits at the address. -/
theorem retarget_from_moves (hp : Passed addr i l) (addr2 n : Nat) :
    ∃ moved kept, l.Perm (moved ++ kept) ∧ (∀ e ∈ moved, e.1 = addr) ∧
      moved.length = min n (waiters addr l) ∧
      (l.take i ++ retarget addr addr2 n (l.drop i)).Perm
        (moved.map (fun e => (addr2, e.2)) ++ kept) := by
  obtain ⟨moved, kept, hperm, hhere, hcount, hresult⟩ := retarget_moves addr addr2 n (l.drop i)
  have hshift : ∀ front : List (Nat × Nat),
      (l.take i ++ (front ++ kept)).Perm (front ++ (l.take i ++ kept)) := by
    intro front
    rw [← List.append_assoc, ← List.append_assoc]
    exact List.perm_append_comm.append_right kept
  have hwaiters : waiters addr l = waiters addr (l.drop i) := by
    have hsplit : waiters addr (l.take i ++ l.drop i) = _ := waiters_append (l.take i) (l.drop i)
    rw [List.take_append_drop, waiters_eq_zero hp.take, Nat.zero_add] at hsplit
    exact hsplit
  refine ⟨moved, l.take i ++ kept, ?_, hhere, hwaiters ▸ hcount, ?_⟩
  · have hfront := (hperm.append_left (l.take i)).trans (hshift moved)
    rwa [List.take_append_drop] at hfront
  · exact (hresult.append_left _).trans (hshift _)

/-- A wake takes the waiters that it may and returns how many, and a requeue then moves as many of
the others as it may. -/
theorem futex_moves_exactly (w : World) (addr addr2 val2 : Nat) {val : Int} (hval : Signed 31 val) :
    (∃ es, Takes addr val w.futexes es (futexWake w addr val).2.futexes ∧
      (futexWake w addr val).1 = es.map Prod.snd ∧
      Unblocks w (es.map Prod.snd) (futexWake w addr val).2) ∧
    ∃ es moved kept, Takes addr val w.futexes es (moved ++ kept) ∧
      (futexRequeue w addr addr2 val val2).1 = es.map Prod.snd ∧
      Unblocks w (es.map Prod.snd) (futexRequeue w addr addr2 val val2).2 ∧
      (∀ e ∈ moved, e.1 = addr) ∧
      moved.length = min val2 (waiters addr w.futexes - es.length) ∧
      (futexRequeue w addr addr2 val val2).2.futexes.Perm
        (moved.map (fun e => (addr2, e.2)) ++ kept) := by
  obtain ⟨es, htakes, hwoken, hpassed⟩ := wakeLoop_takes hval.2 addr w.futexes
  refine ⟨⟨es, htakes, hwoken, ?_⟩, ?_⟩
  · rw [← hwoken]
    exact unblocks_unblockAll w _
  · obtain ⟨moved, kept, hperm, hhere, hcount, hresult⟩ := retarget_from_moves hpassed addr2 val2
    have hleft : waiters addr w.futexes = waiters addr (es ++ _) := waiters_perm htakes.perm
    rw [waiters_append, waiters_of_here htakes.here] at hleft
    refine ⟨es, moved, kept, htakes.of_perm hperm, hwoken, ?_, hhere, ?_, hresult⟩
    · rw [← hwoken]
      exact unblocks_requeued w _
    · rw [hcount, hleft, Nat.add_sub_cancel_left]

/-- Two of three waiters at an address: one is woken, one is moved and one stays. -/
theorem futex_moves_exactly_three :
    Signed 31 1 ∧ ∃ es moved kept, Takes 8 1 [(8, 3), (4, 4), (8, 5), (8, 6)] es (moved ++ kept) ∧
      es.length = 1 ∧ moved.length = 1 := by
  have hval : Signed 31 1 := by decide
  obtain ⟨-, es, moved, kept, htakes, -, -, -, hmoved, -⟩ :=
    futex_moves_exactly { boot with futexes := [(8, 3), (4, 4), (8, 5), (8, 6)] } 8 4 1 hval
  have hes : es.length = 1 := htakes.count
  rw [hes] at hmoved
  exact ⟨hval, es, moved, kept, htakes, hes, hmoved⟩

end Origel.Kernel.Waiting.Futex
