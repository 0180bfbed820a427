import Origel.RedoxFs.Overlay

/-! What a file holds after its length has been set. -/
namespace Origel.RedoxFs

open Origel.Lib FileSystem

variable {fs : FileSystem} {t n : Nat} {l : Layout}

/-- If `node_set_len` goes through, the file has the new length: it is cut there, or goes on with zeros
up to it. -/
def SetsLen (fs : FileSystem) (t n : Nat) : Prop :=
  ∀ fs', nodeSetLen t n fs = .ok () fs' → nodeLen t fs' = .ok n fs' ∧
    contentOf fs' t = (contentOf fs t).take n ++ List.replicate (n - (contentOf fs t).length) 0

theorem Inv.setsLen_iff (h : Inv fs l) (ht : l.chain t ≠ []) (hfile : (fs.nodeAt t).isDir = false) :
    SetsLen fs t n ↔ n ≤ (contentOf fs t).length := by
  obtain ⟨fs', hrun, hinv, -, -, hcut, -⟩ := h.nodeSetLen_content n ht hfile
  rw [← h.contentOf_eq ht, ← hinv.contentOf_eq ht] at hcut
  have hlen : nodeLen t fs' = .ok (min n (contentOf fs t).length) fs' := by
    rw [hinv.nodeLen_eq ht, hcut, List.length_take]
  constructor
  · intro hsets
    -- whatever the number, no more than the old bytes are left
    have hnew := (hsets fs' hrun).1
    rw [hlen] at hnew
    injection hnew with hmin
    omega
  · intro hle fs'' hrun'
    rw [hrun] at hrun'
    cases hrun'
    rw [hlen, hcut, Nat.min_eq_left hle, Nat.sub_eq_zero_of_le hle]
    exact ⟨rfl, (List.append_nil _).symm⟩

/-- After every safe run, the length of a file is set as it should be unless the file is to grow. -/
theorem file_is_cut_not_grown (h : Reachable Safe fs) (ht : Reach fs t)
    (hfile : (fs.nodeAt t).isDir = false) (n : Nat) :
    SetsLen fs t n ↔ n ≤ (contentOf fs t).length := by
  obtain ⟨l, hinv, -⟩ := h.inv
  exact hinv.setsLen_iff (hinv.reach ht) hfile

/-- A file of some bytes, made and written on a small disk. -/
theorem file_of_bytes {len : Nat} (hpos : 0 < len) (hle : len ≤ 1024) :
    ∃ fs l, Reachable Safe fs ∧ Inv fs l ∧ l.chain 4 = [4] ∧ Reach fs 4 ∧
      (fs.nodeAt 4).isDir = false ∧
      (fs.nodeAt 4).extents = ⟨5, len⟩ :: List.replicate 14 Extent.default ∧
      (contentOf fs 4).length = len := by
  have hsize : (blankDisk 7).size < 2 ^ 64 := by decide
  obtain ⟨fs₀, hc⟩ := create_ok (show 4 * 512 ≤ (blankDisk 7).size by decide)
  have hinv₀ := create_inv hsize hc
  have hm : plainFile < 2 ^ 16 := by decide
  obtain ⟨fs₁, l, hok, -, hfirst⟩ := first_node (n := 7) "a" rfl (by omega) (by omega) hc hm
  have hne : l.chain 4 ≠ [] := by simp [hfirst.chain]
  have hfile : (fs₁.nodeAt 4).isDir = false := by
    rw [hfirst.node]
    decide
  have hempty : (fs₁.nodeAt 4).extents = List.replicate 15 Extent.default := by
    rw [hfirst.node]
    rfl
  have hlen : 0 + (List.replicate len (1 : UInt8)).length = len := by
    rw [List.length_replicate, Nat.zero_add]
  have htake : takeExtent ((len + 511) / 512) fs₁.freeNode.extents =
      some (5, ⟨5 + (len + 511) / 512, 1024 - 512 * ((len + 511) / 512)⟩ ::
        List.replicate 14 Extent.default) := by
    have hroom : (1024 / 512 ≥ (len + 511) / 512) := by omega
    rw [hfirst.free, takeExtent]
    exact if_pos hroom
  obtain ⟨fs, l', hok', hwrote, hchain, -, hext, -⟩ := hfirst.inv.writeNode_first hlen hfirst.chain
    hfile hempty hpos (by omega) htake
  have hstep₁ : Op.Step Safe fs₀ (.createNode plainFile "a" 1) fs₁ :=
    ⟨⟨hinv₀.reach_root, hinv₀.rootDir, hm⟩, trivial, none, .ok (bind_ok hok)⟩
  have hsafe : Safe fs₁ (.writeNode 4 0 (List.replicate len 1)) := by
    rw [Safe, hlen, wrap64_of_lt (by omega), hfirst.inv.chainOf_eq hne, hfirst.chain,
      missing_empty hempty hpos]
    omega
  have hstep₂ : Op.Step Safe fs₁ (.writeNode 4 0 (List.replicate len 1)) fs :=
    ⟨⟨hfirst.reach, hfile, by omega, by rw [List.length_replicate]; omega⟩, hsafe, none,
      .ok (bind_ok hok')⟩
  have hroot : l'.chain 1 = [1] := (hwrote.touches.chain 1 (by omega)).trans hfirst.rootChain
  have hreach : Reach fs 4 := by
    refine hwrote.touches.inv.reach_listed hroot ?_
    rw [hwrote.touches.agree.nodeAt (hfirst.inv.domain_disjoint (show 1 ≠ 4 by omega)
      (mem_own_of_chain (by simp [hfirst.rootChain]))), hfirst.root]
    exact List.mem_append_left _ (by decide)
  refine ⟨fs, l', ⟨blankDisk 7, fs₀, _, hsize, hc, .cons hstep₁ (.cons hstep₂ .nil)⟩,
    hwrote.touches.inv, hchain, hreach, (Node.isDir_attrs hwrote.touches.attrs).trans hfile, hext, ?_⟩
  rw [hwrote.touches.inv.contentOf_eq (by simp [hchain]), length_content hwrote.touches.inv.base.block,
    fileCells, hchain, extentsOf_cons, extentsOf_nil, List.append_nil, hext, cellsOf_cons,
    cellsOf_replicate, List.append_nil, Extent.length_cells]

theorem file_is_cut_not_grown_one : ∃ fs, Reachable Safe fs ∧ SetsLen fs 4 1 := by
  obtain ⟨fs, l, hreach, -, -, hroot, hfile, -, hlen⟩ :=
    file_of_bytes (show 0 < 512 by omega) (by omega)
  have hle : 1 ≤ (contentOf fs 4).length := by omega
  exact ⟨fs, hreach, (file_is_cut_not_grown hreach hroot hfile 1).mpr hle⟩

/-- The file of one sector is to have two: the call goes through and the file is as it was. -/
theorem grown_file_stays_short : ∃ fs, Reachable Safe fs ∧ Reach fs 4 ∧ (fs.nodeAt 4).isDir = false ∧
    ¬SetsLen fs 4 1024 := by
  obtain ⟨fs, l, hreach, hinv, hchain, hroot, hfile, -, hlen⟩ :=
    file_of_bytes (show 0 < 512 by omega) (by omega)
  refine ⟨fs, hreach, hroot, hfile, fun hsets => ?_⟩
  have hle := (hinv.setsLen_iff (by simp [hchain]) hfile).mp hsets
  omega

end Origel.RedoxFs
