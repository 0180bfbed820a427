import Origel.RedoxFs.Lengths

/-! Where in a file `read_node` starts: the sectors of its extents, of which the last ones of an extent
may be short. -/
namespace Origel.RedoxFs

open Origel.Lib FileSystem

variable {fs : FileSystem} {e : Extent} {es : List Extent} {t offset k len sz : Nat} {l : Layout}
  {buf : List UInt8}

/-- How many bytes each of the sectors has that the extents list. -/
def sectorSizes (es : List Extent) : List Nat := es.flatMap fun e => e.blocks.map Prod.snd

/-- The bytes before a sector -/
def sectorStart (es : List Extent) (k : Nat) : Nat := ((sectorSizes es).take k).sum

/-- `read_node` reads, whatever the buffer, the bytes of the file from the offset on. -/
def Reads (fs : FileSystem) (t offset : Nat) : Prop :=
  ∀ buf : List UInt8, ∃ buf', readNode t offset buf fs =
      .ok (buf', min buf.length ((contentOf fs t).length - offset)) fs ∧
    buf'.take (min buf.length ((contentOf fs t).length - offset)) =
      ((contentOf fs t).drop offset).take buf.length

/-- If the file has the sector of the offset at all, the offset is in it or at its end, and all sectors
before it are whole or the read starts at the end of the file. -/
def OnSector (es : List Extent) (offset : Nat) : Prop :=
  ∀ sz, (sectorSizes es)[offset / 512]? = some sz → offset % 512 ≤ sz ∧
    (sectorStart es (offset / 512) = 512 * (offset / 512) ∨
      sectorStart es (offset / 512) + offset % 512 = (sectorSizes es).sum)

theorem sectorSizes_cons : sectorSizes (e :: es) = e.blocks.map Prod.snd ++ sectorSizes es := rfl

theorem sizes_extent (h : e.Plain) : e.blocks.map Prod.snd =
    (List.range ((e.length + 511) / 512)).map fun i => min 512 (e.length - 512 * i) := by
  rw [Extent.blocks_eq h, List.map_map]
  rfl

theorem sum_sizes (n j : Nat) :
    ((List.range j).map fun i => min 512 (n - 512 * i)).sum = min (512 * j) n := by
  induction j with
  | zero => exact (Nat.zero_min n).symm
  | succ j ih =>
    rw [List.range_succ, List.map_append, List.sum_append, ih, List.map_singleton, List.sum_singleton]
    omega

/-- The sectors of one extent: so many bytes before one, and so many in it. -/
theorem extent_start (h : e.Plain) (k : Nat) :
    ((e.blocks.map Prod.snd).take k).sum = min (512 * k) e.length := by
  rw [sizes_extent h, ← List.map_take, List.take_range, sum_sizes]
  omega

theorem extent_sector (h : e.Plain) (k : Nat) : (e.blocks.map Prod.snd)[k]? =
    if k < (e.length + 511) / 512 then some (min 512 (e.length - 512 * k)) else none := by
  rw [sizes_extent h, List.getElem?_map]
  split
  · rename_i hk
    rw [List.getElem?_range hk]
    rfl
  · rename_i hk
    rw [List.getElem?_eq_none (by rw [List.length_range]; omega)]
    rfl

theorem length_sizes (h : e.Plain) :
    (e.blocks.map Prod.snd).length = (e.length + 511) / 512 := by
  rw [sizes_extent h, List.length_map, List.length_range]

theorem sectorStart_cons (h : e.Plain) (k : Nat) : sectorStart (e :: es) k =
    min (512 * k) e.length + sectorStart es (k - (e.length + 511) / 512) := by
  rw [sectorStart, sectorSizes_cons, List.take_append, List.sum_append, extent_start h, length_sizes h]
  rfl

theorem sector_cons (h : e.Plain) (k : Nat) : (sectorSizes (e :: es))[k]? =
    if k < (e.length + 511) / 512 then some (min 512 (e.length - 512 * k))
    else (sectorSizes es)[k - (e.length + 511) / 512]? := by
  rw [sectorSizes_cons, List.getElem?_append, length_sizes h, extent_sector h]
  split
  · rfl
  · rfl

/-- `node_extents` hands out the bytes from a sector on, and of that sector as many as are wanted. -/
theorem pushExtents_sectors (hes : ∀ e ∈ es, e.Plain ∧ (0 < e.length → 0 < e.block))
    (k len : Nat) (acc : List Extent) :
    ∃ zs, (pushExtents es k len acc).2.2 = acc ++ zs ∧
      cellsOf zs = ((cellsOf es).drop (sectorStart es k)).take len ∧
      zs.head?.map (fun z => min 512 z.length) =
        if len = 0 then none else (sectorSizes es)[k]?.map (min len) := by
  induction es generalizing k len acc with
  | nil => exact ⟨[], by simp [pushExtents], by simp, by simp [sectorSizes]⟩
  | cons e es ih =>
    obtain ⟨hl, hb⟩ := hes e List.mem_cons_self
    have ih := ih fun x hx => hes x (List.mem_cons_of_mem e hx)
    rw [pushExtents, pushBlocks_extent hl hb, sectorStart_cons hl, sector_cons hl]
    dsimp only
    by_cases hk : k < (e.length + 511) / 512
    · -- the sector is in this extent
      have hstart : sectorStart es (k - (e.length + 511) / 512) = 0 := by
        rw [Nat.sub_eq_zero_of_le (Nat.le_of_lt hk)]
        rfl
      have hsum : min (512 * k) e.length + sectorStart es (k - (e.length + 511) / 512) = 512 * k := by
        omega
      have hdrop : (cellsOf (e :: es)).drop (512 * k) = e.cells.drop (512 * k) ++ cellsOf es := by
        rw [cellsOf_cons, List.drop_append_of_le_length]
        rw [Extent.length_cells]
        omega
      have hcells : ∀ n, n ≤ e.length - 512 * k →
          (⟨e.block + k, n⟩ : Extent).cells = (e.cells.drop (512 * k)).take n := by
        intro n hn
        rw [Extent.cells, Extent.cells, List.drop_range', Nat.mul_one,
          List.take_range'_of_length_ge hn, Nat.mul_add]
      have hrest : (e.cells.drop (512 * k)).length = e.length - 512 * k := by
        rw [List.length_drop, Extent.length_cells]
      rw [hsum, hdrop, if_pos hk, if_pos hk]
      by_cases hlen : len = 0
      · subst hlen
        exact ⟨[], by simp, by simp, rfl⟩
      · have hpos : min len (e.length - 512 * k) > 0 := by omega
        have hhead : (min 512 (min len (e.length - 512 * k))) =
            min len (min 512 (e.length - 512 * k)) := by omega
        rw [if_pos hpos, if_neg hlen]
        by_cases hdone : len - min len (e.length - 512 * k) = 0
        · have hle : len ≤ e.length - 512 * k := by omega
          rw [if_pos hdone, Nat.min_eq_left hle]
          refine ⟨[⟨e.block + k, len⟩], rfl, ?_, ?_⟩
          · rw [cellsOf_cons, cellsOf_nil, List.append_nil, hcells len hle,
              List.take_append_of_le_length (by omega)]
          · rw [Nat.min_eq_left hle] at hhead
            exact congrArg some hhead
        · have hle : e.length - 512 * k ≤ len := by omega
          rw [if_neg hdone, Nat.min_eq_right hle]
          obtain ⟨zs, hzs, hzcells, -⟩ := ih (k - (e.length + 511) / 512)
            (len - (e.length - 512 * k)) (acc ++ [⟨e.block + k, e.length - 512 * k⟩])
          refine ⟨⟨e.block + k, e.length - 512 * k⟩ :: zs, ?_, ?_, ?_⟩
          · rw [hzs, List.append_assoc]
            rfl
          · have hall : ∀ n, e.length - 512 * k ≤ n →
                (e.cells.drop (512 * k)).take n = e.cells.drop (512 * k) :=
              fun n hn => List.take_of_length_le (hrest ▸ hn)
            rw [cellsOf_cons, hzcells, hstart, List.drop_zero, hcells _ (Nat.le_refl _), List.take_append,
              hrest, hall _ (Nat.le_refl _), hall len hle]
          · rw [Nat.min_eq_right hle] at hhead
            exact congrArg some hhead
    · -- all sectors of this extent are skipped
      have hzero : min len (e.length - 512 * k) = 0 := by omega
      have hmin : min (512 * k) e.length = e.length := by omega
      have hnot : ¬0 > 0 := Nat.lt_irrefl 0
      rw [if_neg hk, if_neg hk, hzero, if_neg hnot, Nat.sub_zero, hmin, cellsOf_cons, ← List.drop_drop,
        List.drop_left' (Extent.length_cells e)]
      by_cases hlen : len = 0
      · subst hlen
        exact ⟨[], by simp, by simp, rfl⟩
      · rw [if_neg hlen]
        obtain ⟨zs, hzs, hzcells, hzhead⟩ := ih (k - (e.length + 511) / 512) len acc
        exact ⟨zs, hzs, hzcells, hzhead⟩

theorem sum_sectorSizes (h : ∀ e ∈ es, e.Plain) :
    (sectorSizes es).sum = (cellsOf es).length := by
  induction es with
  | nil => rfl
  | cons e es ih =>
    have hl := h e List.mem_cons_self
    have hall := extent_start hl ((e.length + 511) / 512)
    rw [List.take_of_length_le (Nat.le_of_eq (length_sizes hl))] at hall
    rw [sectorSizes_cons, List.sum_append, hall, ih fun x hx => h x (List.mem_cons_of_mem e hx),
      cellsOf_cons, List.length_append, Extent.length_cells]
    omega

/-- No sector has more than its 512 bytes. -/
theorem sectorStart_le (h : ∀ e ∈ es, e.Plain) (k : Nat) :
    sectorStart es k ≤ 512 * k := by
  induction es generalizing k with
  | nil => simp [sectorStart, sectorSizes]
  | cons e es ih =>
    have hrest := ih (fun x hx => h x (List.mem_cons_of_mem e hx)) (k - (e.length + 511) / 512)
    rw [sectorStart_cons (h e List.mem_cons_self)]
    omega

/-- A sector lies in the file; behind the last one is its end. -/
theorem sectorStart_add_le (hk : (sectorSizes es)[k]? = some sz) :
    sectorStart es k + sz ≤ (sectorSizes es).sum := by
  obtain ⟨hlt, heq⟩ := List.getElem?_eq_some_iff.mp hk
  have hsplit : (sectorSizes es).sum =
      sectorStart es k + ((sectorSizes es).drop k).sum := (List.sum_take_add_sum_drop _ k).symm
  rw [List.drop_eq_getElem_cons hlt, List.sum_cons, heq] at hsplit
  omega

theorem sector_pos (hk : (sectorSizes es)[k]? = some sz) : 0 < sz := by
  obtain ⟨e, -, he⟩ := List.mem_flatMap.mp (List.mem_of_getElem? hk)
  obtain ⟨p, hp, rfl⟩ := List.mem_map.mp he
  exact blocks_pos e p hp

theorem sectorStart_of_none (hk : (sectorSizes es)[k]? = none) :
    sectorStart es k = (sectorSizes es).sum := by
  rw [sectorStart, List.take_of_length_le (List.getElem?_eq_none_iff.mp hk)]

namespace Inv

/-- What a read does: it starts so far behind the start of its sector, or fails where that is behind
the end of the sector. -/
theorem readNode_sectors (h : Inv fs l) (ht : l.chain t ≠ []) (offset : Nat) (buf : List UInt8) :
    ((∀ sz, (sectorSizes (extentsOf fs (l.chain t)))[offset / 512]? = some sz → offset % 512 ≤ sz) →
      readNode t offset buf fs = .ok
        (overlay buf 0 (((contentOf fs t).drop
          (sectorStart (extentsOf fs (l.chain t)) (offset / 512) + offset % 512)).take buf.length),
        min buf.length ((contentOf fs t).length -
          (sectorStart (extentsOf fs (l.chain t)) (offset / 512) + offset % 512))) fs) ∧
    ∀ sz, (sectorSizes (extentsOf fs (l.chain t)))[offset / 512]? = some sz → sz < offset % 512 →
      readNode t offset buf fs = .error .crash fs := by
  have hes : ∀ e ∈ extentsOf fs (l.chain t),
      e.Plain ∧ (0 < e.length → 0 < e.block) := by
    intro e he
    obtain ⟨c, hc, hec⟩ := List.mem_flatMap.mp he
    have hfit := (h.object t ht).fits c hc e hec
    refine ⟨h.extents_plain e he, fun hpos => ?_⟩
    have := hfit.2 hpos
    omega
  obtain ⟨zs, hzs, hcells, hhead⟩ :=
    pushExtents_sectors hes (offset / 512) (offset % 512 + buf.length) []
  have hrun : nodeExtents t (offset / 512) (offset % 512 + buf.length) fs = .ok zs fs := by
    rw [nodeExtents_run (h.object t ht).chain (fun _ hc => h.within hc) (h.fuel t), hzs]
    rfl
  have hin : ∀ z ∈ zs, ∀ b ∈ z.span, fs.Within b := by
    obtain ⟨ys, hys, hpieces, -⟩ :=
      h.nodeExtents_spec ht (offset / 512) (offset % 512 + buf.length)
    rw [hrun] at hys
    cases hys
    exact h.within_pieces hpieces
  have hmod := Nat.mod_lt offset (show 512 > 0 by omega)
  rw [readNode, bind_ok hrun]
  constructor
  · intro hfit
    have ho : ∀ z ∈ zs.head?, offset % 512 ≤ min 512 z.length := by
      intro z hz
      rw [Option.mem_def.mp hz, Option.map_some] at hhead
      split at hhead
      · cases hhead
      · obtain ⟨sz, hsz, heq⟩ := Option.map_eq_some_iff.mp hhead.symm
        have hle := hfit sz hsz
        omega
    have hlen : (cellsOf zs).length ≤ offset % 512 + buf.length := by
      rw [hcells]
      exact List.length_take_le _ _
    obtain ⟨o, hfold⟩ := readExtents_run (p := ⟨buf, 0, offset % 512⟩) h.base.block zs hin ho (by
      dsimp only
      omega)
    have hdrop : ((cellsOf zs).map fs.disk.bytes).drop (offset % 512) = ((contentOf fs t).drop
        (sectorStart (extentsOf fs (l.chain t)) (offset / 512) + offset % 512)).take buf.length := by
      rw [h.contentOf_eq ht, content_eq h.base.block, fileCells, ← List.map_drop, ← List.map_drop,
        ← List.map_take, hcells, List.drop_take, List.drop_drop, Nat.add_sub_cancel_left]
    have hcount : (cellsOf zs).length - offset % 512 = min buf.length ((contentOf fs t).length -
        (sectorStart (extentsOf fs (l.chain t)) (offset / 512) + offset % 512)) := by
      have hcount := congrArg List.length hdrop
      rw [List.length_drop, List.length_map, List.length_take, List.length_drop] at hcount
      exact hcount
    rw [bind_ok hfold, hdrop, hcount, Nat.zero_add]
    rfl
  · intro sz hsz hlt
    have hpos : ¬offset % 512 + buf.length = 0 := by omega
    rw [if_neg hpos, hsz, Option.map_some] at hhead
    cases zs with
    | nil => cases hhead
    | cons z zs =>
      have hz : min 512 z.length = min (offset % 512 + buf.length) sz := Option.some.inj hhead
      have hsz0 := sector_pos hsz
      exact bind_error (readExtents_crash (by omega) (by dsimp only; omega))

theorem sum_sizes_eq (h : Inv fs l) (ht : l.chain t ≠ []) :
    (sectorSizes (extentsOf fs (l.chain t))).sum = (contentOf fs t).length := by
  rw [sum_sectorSizes h.extents_plain, h.contentOf_eq ht, length_content h.base.block, fileCells]

/-- On a sector, or behind all, the bytes from the offset on are read. -/
theorem readNode_onSector (h : Inv fs l) (ht : l.chain t ≠ []) (buf : List UInt8)
    (hon : OnSector (extentsOf fs (l.chain t)) offset) : readNode t offset buf fs =
      .ok (overlay buf 0 (((contentOf fs t).drop offset).take buf.length),
        min buf.length ((contentOf fs t).length - offset)) fs := by
  have hlt : ∀ e ∈ extentsOf fs (l.chain t), e.Plain := h.extents_plain
  have hsum := h.sum_sizes_eq ht
  have hstart := sectorStart_le hlt (offset / 512)
  have hdm := Nat.div_add_mod offset 512
  obtain ⟨hok, -⟩ := h.readNode_sectors ht offset buf
  have hsame : ((contentOf fs t).drop (sectorStart (extentsOf fs (l.chain t)) (offset / 512) +
        offset % 512)).take buf.length = ((contentOf fs t).drop offset).take buf.length ∧
      min buf.length ((contentOf fs t).length -
        (sectorStart (extentsOf fs (l.chain t)) (offset / 512) + offset % 512)) =
      min buf.length ((contentOf fs t).length - offset) := by
    have hpast : ∀ n, (contentOf fs t).length ≤ n → (contentOf fs t).drop n = [] :=
      fun n hn => List.drop_eq_nil_of_le hn
    cases hk : (sectorSizes (extentsOf fs (l.chain t)))[offset / 512]? with
    | none =>
      have hall := sectorStart_of_none hk
      rw [hpast _ (by omega), hpast offset (by omega)]
      exact ⟨rfl, by omega⟩
    | some sz =>
      rcases (hon sz hk).2 with heq | heq
      · rw [heq, hdm]
        exact ⟨rfl, rfl⟩
      · rw [hpast _ (by omega), hpast offset (by omega)]
        exact ⟨rfl, by omega⟩
  rw [hsame.1, hsame.2] at hok
  exact hok fun sz hsz => (hon sz hsz).1

theorem reads_iff (h : Inv fs l) (ht : l.chain t ≠ []) (offset : Nat) :
    Reads fs t offset ↔ OnSector (extentsOf fs (l.chain t)) offset := by
  have hlt : ∀ e ∈ extentsOf fs (l.chain t), e.Plain := h.extents_plain
  have hsum := h.sum_sizes_eq ht
  have hstart := sectorStart_le hlt (offset / 512)
  have hdm := Nat.div_add_mod offset 512
  constructor
  · intro hreads sz hsz
    have hend := sectorStart_add_le hsz
    -- a buffer that is longer than the file shows how many bytes are read
    obtain ⟨buf', hread, -⟩ := hreads (List.replicate ((contentOf fs t).length + 1) 0)
    obtain ⟨hok, hcrash⟩ :=
      h.readNode_sectors ht offset (List.replicate ((contentOf fs t).length + 1) 0)
    have hfit : offset % 512 ≤ sz := by
      by_contra hnot
      rw [hcrash sz hsz (Nat.not_le.mp hnot)] at hread
      cases hread
    refine ⟨hfit, ?_⟩
    rw [hok fun sz' hsz' => by rw [hsz] at hsz'; cases hsz'; exact hfit, List.length_replicate] at hread
    injection hread with hresult
    have hcount := congrArg Prod.snd hresult
    dsimp only at hcount
    omega
  · intro hon buf
    refine ⟨_, h.readNode_onSector ht buf hon, ?_⟩
    rw [overlay, List.take_zero, List.nil_append]
    apply List.take_left'
    rw [List.length_take, List.length_drop]

end Inv

/-- After every safe run, a file is read right from an offset exactly where the offset is on a sector of
it, or behind all of them. -/
theorem read_is_content_iff (h : Reachable Safe fs) (ht : Reach fs t) (offset : Nat) :
    Reads fs t offset ↔ OnSector (extentsOf fs (chainOf fs t)) offset := by
  obtain ⟨l, hinv, -⟩ := h.inv
  have hlt := hinv.reach ht
  rw [hinv.chainOf_eq hlt]
  exact hinv.reads_iff hlt offset

/-- The second sector of a file of 600 bytes is read right from its eighth byte on. -/
theorem read_is_content_iff_second_sector : ∃ fs, Reachable Safe fs ∧ Reads fs 4 520 := by
  obtain ⟨fs, l, hreach, hinv, hchain, hroot, -, hext, -⟩ :=
    file_of_bytes (show 0 < 600 by omega) (by omega)
  refine ⟨fs, hreach, (read_is_content_iff hreach hroot 520).mpr ?_⟩
  rw [hinv.chainOf_eq (by simp [hchain]), hchain, extentsOf_cons, extentsOf_nil, List.append_nil, hext]
  intro sz hsz
  have hsector : (sectorSizes (⟨5, 600⟩ :: List.replicate 14 Extent.default))[520 / 512]? = some 88 := by
    decide
  rw [hsector] at hsz
  cases hsz
  exact ⟨by omega, .inl (by decide)⟩

/-- A read that starts behind the end of the file but in its last sector is a failed slice. -/
theorem read_behind_end_crashes : ∃ fs, Reachable Safe fs ∧ Reach fs 4 ∧
    (fs.nodeAt 4).isDir = false ∧ readNode 4 700 [0] fs = .error .crash fs ∧ ¬Reads fs 4 700 := by
  obtain ⟨fs, l, hreach, hinv, hchain, hroot, hfile, hext, -⟩ :=
    file_of_bytes (show 0 < 600 by omega) (by omega)
  have hne : l.chain 4 ≠ [] := by simp [hchain]
  have hsector : (sectorSizes (extentsOf fs (l.chain 4)))[700 / 512]? = some 88 := by
    rw [hchain, extentsOf_cons, extentsOf_nil, List.append_nil, hext]
    decide
  refine ⟨fs, hreach, hroot, hfile, (hinv.readNode_sectors hne 700 [0]).2 88 hsector (by omega), ?_⟩
  rw [hinv.reads_iff hne]
  intro hon
  have hle := (hon 88 hsector).1
  omega

end Origel.RedoxFs
