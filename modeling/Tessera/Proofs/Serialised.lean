import Mathlib.Algebra.BigOperators.Ring.List
import Tessera.Proofs.Writing
import Tessera.Proofs.Execution
import Tessera.Proofs.Transparency

/-!
# Where the entries of a tensor stand

The bytes of a tensor that shaping makes hold its entries at places that can be computed: block
behind block, row by row, and column by column in a weight. Each entry takes as many bytes as its
type has and reads back as the number of the type that it wraps to. The blocks of an object that is
placed for the tensor have the same distances, and the object has as many bytes; so what the workers
write block by block is what the addresses of the blocks say.

* `Tensor.content_cell`: the bytes of an entry.
* `Tensor.place_offsets`: the object that is placed for a tensor.
* `Tensor.Regular.entries`: the entries of a tensor, its last blocks included.
* `Shaped.tensors`, `build_serialised`: the tensors of a shaped program.
-/

namespace Tessera

namespace Tensor

variable {t : Tensor} {b i : Nat} {k : Block}

/-- Where an entry of a block stands among its numbers. -/
def rank (t : Tensor) (b r c : Nat) : Nat := if t.role = .wgt then c * b + r else r * b + c

/-- The number of an entry. -/
theorem numbers_rank (hsize : k.data.size = k.height.toNat * b) (hheight : k.height ≤ b) {r c : Nat}
    (hr : r < k.height.toNat) (hc : c < b) :
    ∃ v, k.data[r * b + c]? = some v ∧ (t.numbers b k)[t.rank b r c]? = some v := by
  have hin : r * b + c < k.data.size := by
    have hle := row_room b (show r < k.height.toNat by omega)
    omega
  refine ⟨_, Array.getElem?_eq_getElem hin, ?_⟩
  unfold numbers rank
  split
  · have hrb : r < b := by omega
    have hin' : c * b + r < b * b := by
      have hle := row_room b (show c < b by omega)
      omega
    rw [Block.columns, List.getElem?_map, List.getElem?_range hin', Option.map_some,
      Nat.mul_comm c b, Nat.add_comm, Nat.add_mul_mod_self_left, Nat.mod_eq_of_lt hrb,
      Nat.add_mul_div_left _ _ (by omega), Nat.div_eq_of_lt hrb, Nat.zero_add, Block.cell,
      Array.getD_eq_getD_getElem?, Array.getElem?_eq_getElem hin]
    rfl
  · rw [Array.getElem?_toList, Array.getElem?_eq_getElem hin]

/-- **The bytes of an entry**, and where they stand. -/
theorem content_cell (h : t.Writable b) (hk : t.blocks[i]? = some k)
    (hsize : k.data.size = k.height.toNat * b) (hheight : k.height ≤ b) {r c : Nat}
    (hr : r < k.height.toNat) (hc : c < b) :
    ∃ v, k.data[r * b + c]? = some v ∧
      ((t.content b).drop (t.offset i + t.rank b r c * t.scalar.width)).take t.scalar.width =
        t.scalar.bytesOf v := by
  obtain ⟨v, hv, hnumber⟩ := numbers_rank (t := t) hsize hheight hr hc
  refine ⟨v, hv, List.ext_getElem? fun j => ?_⟩
  have hlen : (t.scalar.bytesOf v).length = t.scalar.width := by
    rw [h.2.1.bytesOf, length_littleEndian]
  by_cases hj : j < t.scalar.width
  · have hrank : t.rank b r c < k.data.size := by
      rw [← length_numbers h (List.mem_of_getElem? (by simpa using hk))]
      exact (List.getElem?_eq_some_iff.1 hnumber).1
    have hbyte : t.rank b r c * t.scalar.width + j < k.data.size * t.scalar.width := by
      have hle := Nat.mul_le_mul_right t.scalar.width (show t.rank b r c + 1 ≤ k.data.size by omega)
      rw [Nat.succ_mul] at hle
      omega
    rw [List.getElem?_take_of_lt hj, List.getElem?_drop, Nat.add_assoc, content,
      bytes_block h hk hbyte, getElem?_rowBytes h.2.1 hj, hnumber, Option.bind_some]
  · rw [List.getElem?_eq_none (by rw [List.length_take]; omega),
      List.getElem?_eq_none (by rw [hlen]; omega)]

/-- **The object that is placed for a tensor** has the tensor's bytes, and its blocks the tensor's
offsets. -/
theorem place_offsets {m m' : Memory} {name : String} {r : Region} {o : Placed}
    (hsmall : t.sizes.sum < 18446744073709551616)
    (h : m.place name r (t.sizes.map Int.ofNat) = (.ok o, m')) :
    o.size.toNat = t.sizes.sum ∧ o.blocks.size = t.blocks.size ∧
      ∀ (i : Nat) (a : BlockAddress), o.blocks[i]? = some a →
        (a.physical - o.physical).toNat = t.offset i := by
  obtain ⟨h, -⟩ := Memory.commit_eq_ok.1 h
  unfold Memory.blocked at h
  obtain ⟨physical, -, h⟩ := Outcome.bind_eq_ok.1 h
  obtain ⟨l, -, h⟩ := Outcome.bind_eq_ok.1 h
  obtain ⟨⟨blocks, stop⟩, hblocks, h⟩ := Outcome.bind_eq_ok.1 h
  obtain rfl := Outcome.pure_eq_ok.1 h
  obtain ⟨rfl, hcount, -, haddress⟩ := Memory.blockAddresses_eq_ok hblocks
  have hdistance : ∀ {n : Nat}, n < 18446744073709551616 →
      (physical + UInt64.ofNat n - physical).toNat = n := fun hn => by
    rw [UInt64.add_comm, UInt64.add_sub_cancel, UInt64.toNat_ofNat_of_lt' hn]
  have hsize : blocks.size = t.blocks.size := by
    rw [hcount, Array.size_empty, Nat.zero_add, sizes, List.length_map, Array.length_toList]
  refine ⟨hdistance hsmall, hsize, fun i a ha => ?_⟩
  have hi : i < t.sizes.length := by
    have hlt : i < blocks.size := (Array.getElem?_eq_some_iff.1 ha).1
    simp only [sizes, List.length_map, Array.length_toList]
    omega
  obtain ⟨object, l', hat, -⟩ := haddress i hi
  rw [Array.size_empty, Nat.zero_add] at hat
  obtain rfl := Option.some.inj (ha.symm.trans hat)
  have hle : t.offset i ≤ t.sizes.sum := by
    rw [← offset_size]
    exact offset_le (by simpa [sizes] using hi.le)
  exact hdistance (hle.trans_lt hsmall)

end Tensor

section Entries

/-- A sum over places row by row, if what is summed depends on the row only. -/
theorem sum_rows (f : Nat → Nat) (m n : Nat) :
    ((List.range (m * n)).map fun i => f (i / n)).sum = n * ((List.range m).map f).sum := by
  induction m with
  | zero => simp
  | succ m ih =>
    have hrow : ((List.range n).map fun j => f ((m * n + j) / n)) = List.replicate n (f m) := by
      refine List.eq_replicate_iff.2 ⟨by simp, fun v hv => ?_⟩
      obtain ⟨j, hj, rfl⟩ := List.mem_map.1 hv
      have hj := List.mem_range.1 hj
      rw [row_of_index hj]
    rw [Nat.succ_mul, List.range_add, List.map_append, List.sum_append, ih, List.map_map,
      Function.comp_def, hrow, List.sum_replicate_nat, List.range_succ, List.map_append,
      List.sum_append, List.map_singleton, List.sum_singleton, Nat.mul_add]

/-- The heights of the rows of blocks that `rows` rows are cut into. -/
theorem sum_heights (b rows m : Nat) :
    ((List.range m).map fun i => min b (rows - i * b)).sum = min (m * b) rows := by
  induction m with
  | zero => simp
  | succ m ih =>
    rw [List.range_succ, List.map_append, List.sum_append, ih, List.map_singleton,
      List.sum_singleton, Nat.succ_mul]
    omega

variable {t : Tensor} {b br bc : Nat}

/-- **The entries of a tensor** are those of its padded matrix, also if its last blocks are lower than
the others. -/
theorem Tensor.Regular.entries (h : t.Regular b br bc) :
    ((t.blocks.toList.map fun k => k.data.size).sum : Nat) = t.padded.rows * t.padded.cols := by
  obtain ⟨rows, hrows⟩ : ∃ rows : Nat, t.padded.rows = rows :=
    Int.eq_ofNat_of_zero_le (by have := h.rows_pos; omega)
  have hsize : t.blocks.toList.map (fun k => k.data.size) =
      (List.range (br * bc)).map fun n => min b (rows - n / bc * b) * b := by
    refine List.ext_getElem (by simp [h.size]) fun n h1 h2 => ?_
    have hn : n < br * bc := by simpa using h2
    have hin : n < t.blocks.size := by rw [h.size]; exact hn
    have hblock := h.block n t.blocks[n] (Array.getElem?_eq_getElem hin)
    have hrow := Nat.mul_le_mul_right b (show n / bc + 1 ≤ br from Nat.div_lt_of_lt_mul (by
      rwa [Nat.mul_comm] at hn))
    have hgt := h.rows_gt
    rw [Nat.succ_mul] at hrow
    have hheight : t.blocks[n].height = ((min b (rows - n / bc * b) : Nat) : Int) := by
      rw [hblock.height, hrows]
      omega
    have hsize := hblock.size
    rw [hheight] at hsize
    rw [List.getElem_map, List.getElem_map, List.getElem_range, Array.getElem_toList]
    exact_mod_cast hsize
  have hle : rows ≤ br * b := by have := h.rows_le; omega
  rw [hsize, sum_rows fun i => min b (rows - i * b) * b, List.sum_map_mul_right, sum_heights,
    Nat.min_eq_right hle, hrows, h.cols]
  push_cast
  ring

end Entries

/-- A tensor that can be written and placed: its blocks have side `b` and at most `b` rows, those of a
weight are full, and all its entries fit a table. -/
structure Tensor.Storable (t : Tensor) (b : Nat) : Prop where
  writable : t.Writable b
  shape : ∀ k ∈ t.blocks.toList, k.height ≤ b ∧ k.data.size = k.height.toNat * b
  entries : (t.blocks.toList.map fun k => k.data.size).sum ≤ 35184372088832
  few : t.size ≤ 35184372088832

namespace Tensor.Storable

variable {t : Tensor} {b br bc : Nat}

theorem of_regular (h : t.Regular b br bc) (hb : 1 ≤ b) (hs : t.scalar.Supported)
    (hfull : t.role = .wgt → ∀ k ∈ t.blocks.toList, k.Full b) : t.Storable b where
  writable := ⟨h.side, hs, fun k hk hw => hfull hw k hk⟩
  shape k hk := (h.block_shape k hk).2
  entries := by
    have hentries := h.entries
    have hsmall := h.small
    omega
  few := h.blocks_small hb

theorem of_full (hside : t.b = b) (hb : 1 ≤ b) (hs : t.scalar.Supported)
    (hfull : ∀ k ∈ t.blocks.toList, k.Full b) (hsmall : t.blocks.size * (b * b) ≤ 35184372088832) :
    t.Storable b where
  writable := ⟨hside, hs, fun k hk _ => hfull k hk⟩
  shape k hk := by
    obtain ⟨hheight, hsize⟩ := hfull k hk
    rw [hheight, Int.toNat_natCast]
    exact ⟨le_rfl, hsize⟩
  entries := by
    have hsum : (t.blocks.toList.map fun k => k.data.size).sum = t.blocks.size * (b * b) := by
      rw [List.map_congr_left fun k hk => (hfull k hk).2, List.map_const', List.sum_replicate_nat,
        Array.length_toList]
    omega
  few := by
    have hle := Nat.le_mul_of_pos_right t.blocks.size (Nat.mul_pos hb hb)
    unfold Tensor.size
    omega

/-- Its bytes fit the address space. -/
theorem bytes_le (h : t.Storable b) : t.sizes.sum ≤ 140737488355328 := by
  have hentries := h.entries
  have hwidth := h.writable.2.1.width_pos.2
  have hle := Nat.mul_le_mul hentries hwidth
  rw [Tensor.sizes, List.sum_map_mul_right]
  exact hle

end Tensor.Storable

/-- The tensors of a shaped program. -/
def Shaped.tensors (d : Shaped) : List Tensor :=
  d.a.toList ++ d.w.toList ++ d.x :: (d.y.toList ++ [d.c])

theorem Shaped.mem_tensors {d : Shaped} {t : Tensor} : t ∈ d.tensors ↔
    d.a = some t ∨ d.w = some t ∨ d.x = t ∨ d.y = some t ∨ d.c = t := by
  simp [Shaped.tensors, eq_comm]

/-- **The tensors that shaping makes** can be written and placed. -/
theorem Shaped.Formed.storable {d : Shaped} {p : Program} {c : Config} {b xr xc : Nat}
    (hformed : d.Formed c b xr xc) (hcommon : d.Common p c b xr xc) (hsound : c.Sound b) {t : Tensor}
    (ht : t ∈ d.tensors) : t.Storable b := by
  have hb := hsound.pos
  rcases Shaped.mem_tensors.1 ht with ht | ht | rfl | ht | rfl
  · obtain ⟨br, bc, hreg, hrole, hscalar⟩ := hformed.inp ht
    exact .of_regular hreg hb (hscalar ▸ hsound.inp) fun hw => by rw [hrole] at hw; cases hw
  · obtain ⟨hside, -, hscalar, hfull, -⟩ := hformed.wgt hsound ht
    have hs : t.scalar.Supported := hscalar ▸ hsound.wgt
    cases hformed with
    | product ac a w h =>
      rw [h.wgt] at ht
      cases ht
      exact .of_regular h.w_regular hb hs fun _ => hfull
    | multiple scalar a w factor h =>
      rw [h.wgt] at ht
      cases ht
      obtain ⟨k, -, hblocks⟩ := (constantWeight_diagonal h.weight).block
      have hbb : b * b ≤ 64 * 64 := Nat.mul_le_mul hsound.le hsound.le
      refine .of_full hside hb hs hfull ?_
      rw [hblocks, List.size_toArray, List.length_singleton]
      omega
    | plain h =>
      rw [h.wgt] at ht
      cases ht
    | sum y h =>
      rw [h.wgt] at ht
      cases ht
  · exact .of_regular hcommon.x_regular hb (hcommon.x_scalar ▸ hsound.acc) fun hw => by
      rw [hcommon.x_role] at hw
      cases hw
  · obtain ⟨hreg, -, hrole, hscalar⟩ := hformed.accBis ht
    exact .of_regular hreg hb (hscalar ▸ hsound.acc) fun hw => by rw [hrole] at hw; cases hw
  · obtain ⟨hscalar, hsize, -⟩ := hcommon.output_blocks hsound
    have hsmall := hcommon.x_regular.vectors_small hcommon.x_rows
    refine .of_full ?_ hb (hscalar ▸ hsound.out) (hcommon.output_full hsound) ?_
    · have hout := hcommon.output
      unfold Shaped.outputTensor at hout
      simp only [Outcome.bind_eq_ok, Outcome.pure_eq_ok] at hout
      obtain ⟨data, -, narrowed, -, blocks, -, padded, -, hout⟩ := hout
      rw [← hout]
    · rw [hsize, ← Nat.mul_assoc]
      exact hsmall

/-- **What the bytes of a tensor are**: every group of workers leaves them, whatever turns it takes;
they are as many as the sizes of the blocks say; the entry in row `r` and column `col` of a block
stands at the block's offset, behind `r * b + col` others of the block (`col * b + r` in a weight),
and reads back as the number of the type that it wraps to; and an object that is placed for the tensor
has as many bytes, and blocks at the same offsets. -/
structure Tensor.Serialised (t : Tensor) (b : Nat) (bytes : List UInt8) : Prop where
  encodes : ∀ workers : Option Workers, (∀ v ∈ workers, 0 < v.count) → t.Encodes workers bytes
  width : t.scalar.bytes = .ok (t.scalar.width : Int)
  sizes : t.blockSizes = .ok (t.sizes.map Int.ofNat)
  length : bytes.length = t.sizes.sum
  shape : ∀ k ∈ t.blocks.toList, k.height ≤ b ∧ k.data.size = k.height.toNat * b
  entry : ∀ (i : Nat) (k : Block), t.blocks[i]? = some k → ∀ r < k.height.toNat, ∀ col < b,
    ∃ v piece, k.data[r * b + col]? = some v ∧
      piece = (bytes.drop (t.offset i +
        (if t.role = .wgt then col * b + r else r * b + col) * t.scalar.width)).take t.scalar.width ∧
      piece.length = t.scalar.width ∧ t.scalar.wrap v = .ok (signedOf piece)
  placed : ∀ (m m' : Memory) (name : String) (region : Region) (o : Placed),
    m.place name region (t.sizes.map Int.ofNat) = (.ok o, m') →
      o.size.toNat = bytes.length ∧ o.blocks.size = t.blocks.size ∧
        ∀ (i : Nat) (a : BlockAddress), o.blocks[i]? = some a →
          (a.physical - o.physical).toNat = t.offset i

/-- A tensor that can be written and placed has such bytes. -/
theorem Tensor.Storable.serialised {t : Tensor} {b : Nat} (h : t.Storable b) (hb : 1 ≤ b)
    (hb' : b ≤ 64) : t.bytes = .ok (t.content b) ∧ t.Serialised b (t.content b) := by
  have hw := h.writable
  have hs := hw.2.1
  have hsmall := h.bytes_le
  have hlength := Tensor.length_content hw
  refine ⟨Tensor.bytes_eq hb hb' hw, ?_⟩
  refine ⟨fun workers hworkers => t.encodes hb hb' hw (by omega) h.few hworkers, hs.bytes,
    Tensor.blockSizes_eq hs, hlength, h.shape, fun i k hk r hr col hcol => ?_,
    fun m m' name region o hplace => ?_⟩
  · obtain ⟨hheight, hsize⟩ := h.shape k (List.mem_of_getElem? (by simpa using hk))
    obtain ⟨v, hv, hpiece⟩ := Tensor.content_cell hw hk hsize hheight hr hcol
    refine ⟨v, t.scalar.bytesOf v, hv, hpiece.symm, ?_, ?_⟩
    · rw [hs.bytesOf, length_littleEndian]
    · rw [hs.wrap, hs.bytesOf, signedOf_littleEndian]
      rfl
  · rw [hlength]
    exact Tensor.place_offsets (by omega) hplace

/-- **The bytes of a built tensor**, of any role: they are where the addresses of its blocks say, and
do not depend on the workers that write them. -/
theorem build_serialised {p : Program} {c : Config} {d : Shaped} (hword : p.WordSized)
    (h : Shaped.build p c = .ok d) {t : Tensor} (ht : t ∈ d.tensors) :
    ∃ (b : Nat) (bytes : List UInt8), c.block = .ok b ∧ t.bytes = .ok bytes ∧
      t.Serialised b bytes := by
  obtain ⟨b, xr, xc, hsound, hcommon, hformed⟩ := build_formed hword h
  obtain ⟨hbytes, hserialised⟩ :=
    (hformed.storable hcommon hsound ht).serialised hsound.pos hsound.le
  exact ⟨b, _, hsound.block, hbytes, hserialised⟩

/-- The product of `ragged`, with an input whose last block has one row. -/
def Program.raggedInput : Program := { Program.ragged with nonSquareInput := true }

set_option maxRecDepth 100000 in
theorem raggedInput_built : (do
    let d ← Shaped.build .raggedInput .shortSums
    let a ← Outcome.ofOption d.a
    let w ← Outcome.ofOption d.w
    return a.heights = [2, 1] ∧ (← a.bytes) = [100, 1, 2, 3, 4, 5] ∧ w.heights = [2] ∧
      (← w.bytes) = [2, 7, 0, 0] : Outcome Bool) = .ok true := by
  decide +kernel

/-- The last block of the input has two bytes, and the weight is written column by column; three workers
write the same as one. -/
theorem raggedInput_serialised : ∃ d a w, Program.raggedInput.WordSized ∧
    Shaped.build .raggedInput .shortSums = .ok d ∧ a ∈ d.tensors ∧ w ∈ d.tensors ∧
    a.heights = [2, 1] ∧ a.bytes = .ok [100, 1, 2, 3, 4, 5] ∧ w.bytes = .ok [2, 7, 0, 0] ∧
    a.Encodes (some ⟨3, false⟩) [100, 1, 2, 3, 4, 5] ∧ a.Encodes none [100, 1, 2, 3, 4, 5] ∧
    w.Encodes (some ⟨3, false⟩) [2, 7, 0, 0] := by
  have hword : Program.raggedInput.WordSized := by decide +kernel
  obtain ⟨d, hd, h⟩ := Outcome.bind_eq_ok.1 raggedInput_built
  obtain ⟨a, ha, h⟩ := Outcome.bind_eq_ok.1 h
  obtain ⟨w, hw, h⟩ := Outcome.bind_eq_ok.1 h
  obtain ⟨abytes, habytes, h⟩ := Outcome.bind_eq_ok.1 h
  obtain ⟨wbytes, hwbytes, h⟩ := Outcome.bind_eq_ok.1 h
  obtain ⟨hheights, rfl, -, rfl⟩ := of_decide_eq_true (Outcome.pure_eq_ok.1 h)
  have hamem : a ∈ d.tensors := Shaped.mem_tensors.2 (Or.inl (Outcome.ofOption_eq_ok.1 ha))
  have hwmem : w ∈ d.tensors := Shaped.mem_tensors.2 (Or.inr (Or.inl (Outcome.ofOption_eq_ok.1 hw)))
  obtain ⟨b, bytes, -, hbytes, hserialised⟩ := build_serialised hword hd hamem
  obtain ⟨b', bytes', -, hbytes', hserialised'⟩ := build_serialised hword hd hwmem
  obtain rfl := Except.ok.inj (habytes.symm.trans hbytes)
  obtain rfl := Except.ok.inj (hwbytes.symm.trans hbytes')
  have hthree : ∀ v ∈ (some ⟨3, false⟩ : Option Workers), 0 < v.count := by simp
  have hnone : ∀ v ∈ (none : Option Workers), 0 < v.count := by simp
  exact ⟨d, a, w, hword, hd, hamem, hwmem, hheights, habytes, hwbytes,
    hserialised.encodes _ hthree, hserialised.encodes _ hnone, hserialised'.encodes _ hthree⟩

end Tessera
