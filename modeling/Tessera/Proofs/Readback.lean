import Tessera.Proofs.Frames

/-!
# Numbers from their bytes

The bytes of a tensor determine its numbers as far as its type reaches: they determine what
each number wraps to, and the number itself if it is one of the type.

* `rowBytes_inj`: rows with the same bytes wrap to the same numbers.
* `Tensor.cells_of_bytes`: so do tensors of one frame, entry by entry.
* `Tensor.blocks_of_bytes`: with numbers of their type, they are equal.
* `Tensor.Regular.padded_cell`: the padded matrix from the blocks.
-/

namespace Tessera

/-- Rows with the same bytes wrap to the same numbers. -/
theorem rowBytes_inj {s : Scalar} (hs : s.Supported) {row row' : Row}
    (h : rowBytes s row = rowBytes s row') : row.map s.wrapped = row'.map s.wrapped := by
  have hlen := congrArg List.length h
  rw [length_rowBytes hs, length_rowBytes hs] at hlen
  replace hlen : row.length = row'.length := Nat.eq_of_mul_eq_mul_right hs.width_pos.1 hlen
  induction row generalizing row' with
  | nil =>
    rw [List.length_eq_zero_iff.1 hlen.symm]
  | cons v row ih =>
    cases row' with
    | nil => simp at hlen
    | cons v' row' =>
      unfold rowBytes at h
      rw [List.flatMap_cons, List.flatMap_cons] at h
      obtain ⟨hv, hrow⟩ := List.append_inj h (by
        rw [hs.bytesOf, hs.bytesOf, length_littleEndian, length_littleEndian])
      have hwrap : s.wrapped v = s.wrapped v' := by
        rw [hs.bytesOf, hs.bytesOf] at hv
        have := congrArg signedOf hv
        rwa [signedOf_littleEndian, signedOf_littleEndian] at this
      rw [List.map_cons, List.map_cons, hwrap, ih hrow (by simpa using hlen)]

theorem getD_map_zero {f : Int → Int} (hf : f 0 = 0) (row : Row) (i : Nat) :
    (row.map f).getD i 0 = f (row.getD i 0) := by
  rw [List.getD_eq_getElem?_getD, List.getD_eq_getElem?_getD, List.getElem?_map]
  cases row[i]? with
  | none => exact hf.symm
  | some v => rfl

namespace Tensor

/-- Entry `(r, e)` of block `n`, zero where there is none. -/
def cellAt (t : Tensor) (b n r e : Nat) : Int := (t.blocks.toList.getD n ⟨0, #[]⟩).cell b r e

variable {t t' : Tensor} {b : Nat}

/-- Tensors of one frame have blocks of the same shapes. -/
theorem frame_blocks (h : t.frame = t'.frame) : t.blocks.size = t'.blocks.size ∧
    ∀ n, (t.blocks.toList.getD n ⟨0, #[]⟩).height = (t'.blocks.toList.getD n ⟨0, #[]⟩).height ∧
      (t.blocks.toList.getD n ⟨0, #[]⟩).data.size = (t'.blocks.toList.getD n ⟨0, #[]⟩).data.size := by
  have hblocks : t.blocks.map Block.frame = t'.blocks.map Block.frame := congrArg Tensor.blocks h
  have hsize : t.blocks.size = t'.blocks.size := by
    have := congrArg Array.size hblocks
    rwa [Array.size_map, Array.size_map] at this
  refine ⟨hsize, fun n => ?_⟩
  have hn := congrArg (·[n]?) hblocks
  simp only [Array.getElem?_map] at hn
  simp only [List.getD_eq_getElem?_getD, Array.getElem?_toList]
  cases hk : t.blocks[n]? with
  | none =>
    rw [hk, Option.map_none, eq_comm, Option.map_eq_none_iff] at hn
    rw [hn]
    exact ⟨rfl, rfl⟩
  | some k =>
    rw [hk, Option.map_some, eq_comm, Option.map_eq_some_iff] at hn
    obtain ⟨k', hk', hframe⟩ := hn
    rw [hk']
    have hheight := congrArg Block.height hframe
    have hdata := congrArg (fun k : Block => k.data.size) hframe
    simp only [Block.frame, Array.size_replicate] at hheight hdata
    exact ⟨hheight.symm, hdata.symm⟩

theorem frame_scalar (h : t.frame = t'.frame) : t.scalar = t'.scalar := by
  have := congrArg Tensor.scalar h
  exact this

theorem frame_role (h : t.frame = t'.frame) : t.role = t'.role := by
  have := congrArg Tensor.role h
  exact this

theorem toList_blocks (t : Tensor) : t.blocks.toList =
    (List.range t.blocks.size).map fun n => t.blocks.toList.getD n ⟨0, #[]⟩ := by
  refine List.ext_getElem (by simp) fun n h1 h2 => ?_
  rw [List.getElem_map, List.getElem_range, List.getD_eq_getElem?_getD, List.getElem?_eq_getElem h1]
  rfl

/-- The numbers of a block from its entries, wrapped. -/
theorem wrapped_cell (t : Tensor) (n : Nat) {r e : Nat} (hr : r < b) (he : e < b) :
    t.scalar.wrapped (t.cellAt b n r e) =
      ((t.numbers b (t.blocks.toList.getD n ⟨0, #[]⟩)).map t.scalar.wrapped).getD
        (if t.role = .wgt then e * b + r else r * b + e) 0 := by
  rw [getD_map_zero (by simp [Scalar.wrapped])]
  unfold cellAt numbers
  split
  · rw [Block.getD_columns he hr]
  · simp only [Block.cell, Array.getD_eq_getD_getElem?, List.getD_eq_getElem?_getD,
      Array.getElem?_toList]

/-- **Tensors of one frame with the same bytes** have entries that wrap to the same numbers. -/
theorem cells_of_bytes (hb : 1 ≤ b) (hb' : b ≤ 64) (hw : t.Writable b) (hw' : t'.Writable b)
    (hframe : t.frame = t'.frame) (hbytes : t.bytes = t'.bytes) (n : Nat) {r e : Nat} (hr : r < b)
    (he : e < b) : t.scalar.wrapped (t.cellAt b n r e) = t.scalar.wrapped (t'.cellAt b n r e) := by
  obtain ⟨hsize, hshape⟩ := frame_blocks hframe
  have hscalar := frame_scalar hframe
  have hrole := frame_role hframe
  -- the bytes as those of one row, and the row block by block
  have hrow : ∀ {t : Tensor}, t.Writable b → t.bytes = .ok (rowBytes t.scalar
      ((List.range t.blocks.size).flatMap fun n => t.numbers b (t.blocks.toList.getD n ⟨0, #[]⟩))) := by
    intro t hw
    rw [bytes_eq hb hb' hw]
    conv_lhs => rw [toList_blocks t]
    rw [← List.flatMap_def, List.flatMap_map]
    unfold rowBytes
    rw [List.flatMap_assoc]
  rw [hrow hw, hrow hw', ← hscalar, ← hsize] at hbytes
  have hwrap := rowBytes_inj hw.2.1 (Except.ok.inj hbytes)
  rw [List.map_flatMap, List.map_flatMap] at hwrap
  by_cases hn : n < t.blocks.size
  · have hmem : ∀ n < t.blocks.size, t.blocks.toList.getD n ⟨0, #[]⟩ ∈ t.blocks.toList ∧
        t'.blocks.toList.getD n ⟨0, #[]⟩ ∈ t'.blocks.toList := by
      intro n hn
      simp only [List.getD_eq_getElem?_getD]
      rw [List.getElem?_eq_getElem (by simpa using hn),
        List.getElem?_eq_getElem (by rw [Array.length_toList, ← hsize]; exact hn)]
      exact ⟨List.getElem_mem _, List.getElem_mem _⟩
    have hblock := flatMap_inj (fun m hm => by
      have hm := hmem m (List.mem_range.1 hm)
      rw [List.length_map, List.length_map, length_numbers hw hm.1, length_numbers hw' hm.2]
      exact (hshape m).2) hwrap n (List.mem_range.2 hn)
    rw [wrapped_cell t n hr he, hblock, hscalar, wrapped_cell t' n hr he, hrole]
  · unfold cellAt
    rw [List.getD_eq_getElem?_getD, List.getD_eq_getElem?_getD,
      List.getElem?_eq_none (by simpa using hn),
      List.getElem?_eq_none (by rw [Array.length_toList, ← hsize]; omega)]

/-- Entries of a tensor whose numbers are of its type. -/
theorem Fits.wrapped_cell (h : t.Fits) (hs : t.scalar.Supported) (n r e : Nat) :
    t.scalar.wrapped (t.cellAt b n r e) = t.cellAt b n r e := by
  have hzero : t.scalar.wrapped 0 = 0 := by simp [Scalar.wrapped]
  unfold cellAt
  rw [List.getD_eq_getElem?_getD]
  cases hk : t.blocks.toList[n]? with
  | none => simpa [Block.cell] using hzero
  | some k =>
    rw [Option.getD_some, Block.cell, Array.getD_eq_getD_getElem?]
    cases hv : k.data[r * b + e]? with
    | none => exact hzero
    | some v =>
      refine Scalar.wrapped_of_contains hs (h k (List.mem_of_getElem? hk) v ?_)
      exact List.mem_of_getElem? (by rwa [Array.getElem?_toList])

/-- A block from its entries. -/
theorem block_ext {k k' : Block} (hheight : k.height = k'.height) (hsize : k.data.size = k'.data.size)
    (hb : k.data.size ≤ b * b) (hcells : ∀ r < b, ∀ e < b, k.cell b r e = k'.cell b r e) : k = k' := by
  obtain ⟨height, data⟩ := k
  obtain ⟨height', data'⟩ := k'
  obtain rfl : height = height' := hheight
  congr 1
  refine Array.ext hsize fun i h1 h2 => ?_
  have hi : i < b * b := lt_of_lt_of_le h1 hb
  have hb : 0 < b := Nat.pos_of_ne_zero fun h0 => by simp [h0] at hi
  have hcell := hcells (i / b) (Nat.div_lt_of_lt_mul hi) (i % b) (Nat.mod_lt _ hb)
  unfold Block.cell at hcell
  rw [Nat.mul_comm, Nat.div_add_mod] at hcell
  simpa [Array.getD_eq_getD_getElem?, Array.getElem?_eq_getElem h1,
    Array.getElem?_eq_getElem h2] using hcell

/-- **Tensors of one frame with the same bytes**, and with numbers of their type, have the same
blocks. -/
theorem blocks_of_bytes (hb : 1 ≤ b) (hb' : b ≤ 64) (hw : t.Writable b) (hw' : t'.Writable b)
    (hframe : t.frame = t'.frame) (hbytes : t.bytes = t'.bytes) (hfit : t.Fits) (hfit' : t'.Fits)
    (hsmall : ∀ k ∈ t.blocks.toList, k.data.size ≤ b * b) : t.blocks = t'.blocks := by
  obtain ⟨hsize, hshape⟩ := frame_blocks hframe
  apply Array.toList_inj.1
  rw [toList_blocks t, toList_blocks t', hsize]
  refine List.map_congr_left fun n hn => ?_
  have hn : n < t.blocks.size := hsize ▸ List.mem_range.1 hn
  refine block_ext (hshape n).1 (hshape n).2 (hsmall _ ?_) fun r hr e he => ?_
  · rw [List.getD_eq_getElem?_getD, List.getElem?_eq_getElem (by simpa using hn)]
    exact List.getElem_mem _
  · have hcell := cells_of_bytes hb hb' hw hw' hframe hbytes n hr he
    rw [hfit.wrapped_cell hw.2.1, frame_scalar hframe, hfit'.wrapped_cell hw'.2.1] at hcell
    exact hcell

/-- An entry of the padded matrix of a regular tensor, from its blocks. -/
theorem Regular.padded_cell {br bc i j : Nat} (h : t.Regular b br bc) (hb : 1 ≤ b)
    (hi : i < br * b) (hj : j < bc * b) :
    t.padded.cell i j = t.cellAt b (i / b * bc + j / b) (i % b) (j % b) := by
  have hi' : i / b < br := Nat.div_lt_of_lt_mul (by rwa [Nat.mul_comm])
  have hj' : j / b < bc := Nat.div_lt_of_lt_mul (by rwa [Nat.mul_comm])
  have hn : i / b * bc + j / b < t.blocks.size := by
    rw [h.size]
    exact index_lt hi' hj'
  unfold cellAt
  rw [List.getD_eq_getElem?_getD, Array.getElem?_toList, Array.getElem?_eq_getElem hn,
    Option.getD_some, (h.block _ _ (Array.getElem?_eq_getElem hn)).cell _ (Nat.mod_lt _ hb) _
      (Nat.mod_lt _ hb), row_of_index hj', Nat.mul_add_mod_of_lt hj', Nat.div_add_mod',
    Nat.div_add_mod']

end Tensor

end Tessera
