import Tessera.Proofs.Addresses
import Tessera.Proofs.Blocks
import Tessera.Proofs.Hardware
import Tessera.Proofs.Trace

/-!
# What memory holds

The bytes of a tensor are its blocks one after the other, each row by row; weight
blocks are column by column. Read back as numbers of the tensor's type they are the
entries of its blocks, if these are numbers of the type.

* `signedOf_littleEndian`: reading back the bytes of a number wraps it.
* `numbers_eq`: reading back the bytes of a row.
* `Tensor.bytes_eq`: the bytes of a tensor, block by block.
* `Placed.Holds`: memory holds the bytes of a tensor.
* `Holds.row`, `Holds.columns`: then a unit of it reads as a row, or as the columns
  of a weight block.
-/

namespace Tessera

theorem littleEndian_succ (n : Nat) (v : Int) :
    littleEndian (n + 1) v = UInt8.ofNat (v % 256).toNat :: littleEndian n (v / 256) := by
  unfold littleEndian
  rw [List.range_succ_eq_map, List.map_cons, List.map_map]
  congr 1
  · simp [twoTo_eq]
  · apply List.map_congr_left
    intro i _
    simp only [Function.comp_apply, twoTo_eq]
    rw [show 8 * (i + 1) = 8 + 8 * i by ring, pow_add, Nat.cast_mul,
      ← Int.ediv_ediv_of_nonneg (by positivity)]
    norm_num

@[simp] theorem length_littleEndian (n : Nat) (v : Int) : (littleEndian n v).length = n := by
  simp [littleEndian]

theorem ofLittleEndian_littleEndian (n : Nat) (v : Int) :
    (ofLittleEndian (littleEndian n v) : Int) = v % (2 ^ (8 * n) : Nat) := by
  induction n generalizing v with
  | zero => simp [littleEndian, ofLittleEndian]
  | succ n ih =>
    rw [littleEndian_succ, ofLittleEndian, List.foldr_cons, ← ofLittleEndian]
    push_cast
    rw [ih, UInt8.toNat_ofNat']
    have h1 : ((v % 256).toNat % 2 ^ 8 : Nat) = (v % 256).toNat := by omega
    rw [h1, show 8 * (n + 1) = 8 + 8 * n by ring, pow_add]
    push_cast
    rw [Int.toNat_of_nonneg (by omega)]
    -- the remainder of a quotient is the upper part of a remainder
    have hpos : (0 : Int) < 2 ^ (8 * n) := by positivity
    have h2 := Int.emod_nonneg (v / 256) hpos.ne'
    have h3 := Int.emod_lt_of_pos (v / 256) hpos
    have h4 := Int.mul_ediv_add_emod (v / 256) (2 ^ (8 * n))
    refine (((Int.ediv_emod_unique (q := v / 256 / 2 ^ (8 * n)) (by positivity)).2
      ⟨?_, by omega, by omega⟩).2).symm
    rw [Int.mul_assoc]
    omega

/-- **Reading back the bytes of a number wraps it.** -/
theorem signedOf_littleEndian (n : Nat) (v : Int) :
    signedOf (littleEndian n v) = v.bmod (2 ^ (8 * n)) := by
  unfold signedOf
  rw [ofLittleEndian_littleEndian, length_littleEndian, twoTo_eq, Int.emod_bmod]

theorem signedOf_bytesOf {s : Scalar} (hs : s.Supported) {v : Int} (hv : s.contains v = .ok true) :
    signedOf (s.bytesOf v) = v := by
  rw [hs.bytesOf, signedOf_littleEndian]
  exact Scalar.wrapped_of_contains hs hv

/-- The bytes of the numbers of a row. -/
def rowBytes (s : Scalar) (row : Row) : List UInt8 := row.flatMap s.bytesOf

theorem length_rowBytes {s : Scalar} (hs : s.Supported) (row : Row) :
    (rowBytes s row).length = row.length * s.width := by
  unfold rowBytes
  induction row with
  | nil => simp
  | cons v row ih =>
    rw [List.flatMap_cons, List.length_append, ih, hs.bytesOf, length_littleEndian, List.length_cons]
    ring

theorem getElem?_rowBytes {s : Scalar} (hs : s.Supported) {row : Row} {e k : Nat}
    (hk : k < s.width) :
    (rowBytes s row)[e * s.width + k]? = (row[e]?).bind fun v => (s.bytesOf v)[k]? := by
  unfold rowBytes
  induction row generalizing e with
  | nil => simp
  | cons v row ih =>
    have hlen : (s.bytesOf v).length = s.width := by rw [hs.bytesOf, length_littleEndian]
    rw [List.flatMap_cons]
    cases e with
    | zero =>
      rw [List.getElem?_append_left (by rw [hlen]; omega)]
      simp
    | succ e =>
      have h1 : (e + 1) * s.width = s.width + e * s.width := by ring
      rw [List.getElem?_append_right (by rw [hlen]; omega), hlen,
        show (e + 1) * s.width + k - s.width = e * s.width + k by omega, ih]
      rfl

/-- Memory holds some bytes from an address on. -/
def HoldsBytes (mem : UInt64 → UInt8) (start : UInt64) (bytes : List UInt8) : Prop :=
  ∀ i (h : i < bytes.length), mem (start + UInt64.ofNat i) = bytes[i]

/-- **Reading back the bytes of a row.** -/
theorem numbers_eq {mem : UInt64 → UInt8} {s : Scalar} {start : UInt64} {row : Row}
    (hs : s.Supported) (hfit : ∀ v ∈ row, s.contains v = .ok true)
    (hmem : HoldsBytes mem start (rowBytes s row)) :
    Machine.numbers mem s row.length start = .ok row := by
  unfold Machine.numbers
  simp only [hs.bytes, Outcome.ok_bind, Int.toNat_natCast]
  congr 1
  apply List.ext_getElem?
  intro e
  rw [List.getElem?_map]
  by_cases he : e < row.length
  · rw [List.getElem?_range he, List.getElem?_eq_getElem he, Option.map_some]
    congr 1
    rw [← signedOf_bytesOf hs (hfit _ (List.getElem_mem he))]
    congr 1
    apply List.ext_getElem?
    intro k
    rw [List.getElem?_map]
    have hlen : (s.bytesOf row[e]).length = s.width := by rw [hs.bytesOf, length_littleEndian]
    by_cases hk : k < s.width
    · have hin : k < (s.bytesOf row[e]).length := by rw [hlen]; exact hk
      have hbyte : (rowBytes s row)[e * s.width + k]? = some (s.bytesOf row[e])[k] := by
        rw [getElem?_rowBytes hs hk, List.getElem?_eq_getElem he, Option.bind_some,
          List.getElem?_eq_getElem hin]
      obtain ⟨hin', hval⟩ := List.getElem?_eq_some_iff.1 hbyte
      rw [List.getElem?_range hk, Option.map_some, hmem _ hin', hval,
        List.getElem?_eq_getElem hin]
    · have hout : (s.bytesOf row[e]).length ≤ k := by rw [hlen]; omega
      have hout' : (List.range s.width).length ≤ k := by rw [List.length_range]; omega
      rw [List.getElem?_eq_none hout, List.getElem?_eq_none hout']
      rfl
  · rw [List.getElem?_eq_none (by simp; omega), List.getElem?_eq_none (by omega)]
    rfl

/-- A part of some bytes that memory holds. -/
theorem HoldsBytes.part {mem : UInt64 → UInt8} {start : UInt64} {bytes part : List UInt8} {off : Nat}
    (h : HoldsBytes mem start bytes) (hpart : ∀ i < part.length, bytes[off + i]? = part[i]?) :
    HoldsBytes mem (start + UInt64.ofNat off) part := by
  intro i hi
  have := hpart i hi
  rw [List.getElem?_eq_getElem hi] at this
  obtain ⟨hin, hval⟩ := List.getElem?_eq_some_iff.1 this
  rw [add_ofNat_add, h _ hin, hval]

/-- Entry `i` of list `n` among lists one after the other. -/
theorem getElem?_flatten_take {α : Type} {ls : List (List α)} {n i : Nat} {l : List α}
    (hl : ls[n]? = some l) (hi : i < l.length) :
    ls.flatten[((ls.take n).map List.length).sum + i]? = l[i]? := by
  induction ls generalizing n with
  | nil => simp at hl
  | cons k ls ih =>
    cases n with
    | zero =>
      obtain rfl : k = l := by simpa using hl
      simp [List.getElem?_append_left hi]
    | succ n =>
      rw [List.take_succ_cons, List.map_cons, List.sum_cons, List.flatten_cons,
        List.getElem?_append_right (by omega), show k.length + ((ls.take n).map List.length).sum + i -
          k.length = ((ls.take n).map List.length).sum + i by omega]
      exact ih (by simpa using hl)

/-- The entries of a weight block, column by column. -/
def Block.columns (k : Block) (b : Nat) : Row :=
  (List.range (b * b)).map fun i => k.cell b (i % b) (i / b)

theorem Block.getD_columns {k : Block} {b n e : Nat} (hn : n < b) (he : e < b) :
    (k.columns b).getD (n * b + e) 0 = k.cell b e n := by
  have hin : n * b + e < b * b := index_lt (by omega) (by omega)
  unfold Block.columns
  rw [List.getD_eq_getElem?_getD, List.getElem?_map, List.getElem?_range hin]
  simp only [Option.map_some, Option.getD_some]
  rw [show n * b + e = e + b * n by ring, Nat.add_mul_mod_self_left, Nat.mod_eq_of_lt he,
    Nat.add_mul_div_left _ _ (by omega), Nat.div_eq_of_lt he, Nat.zero_add]

namespace Tensor

/-- The numbers of a block in the order of its bytes. -/
def numbers (t : Tensor) (b : Nat) (k : Block) : Row :=
  if t.role = .wgt then k.columns b else k.data.toList

/-- The bytes of each block of a tensor. -/
def sizes (t : Tensor) : List Nat := t.blocks.toList.map fun k => k.data.size * t.scalar.width

theorem blockSizes_eq {t : Tensor} (hs : t.scalar.Supported) :
    t.blockSizes = .ok (t.sizes.map Int.ofNat) := by
  unfold blockSizes sizes
  rw [hs.bytes]
  simp only [Outcome.ok_bind, List.map_map]
  rfl

theorem transposed_columns {k : Block} {b : Nat} (hb : 1 ≤ b) (hb' : b ≤ 64) (hk : k.Full b) :
    transposed k.data b = .ok (k.columns b).toArray := by
  have hbb : b * b ≤ 64 * 64 := Nat.mul_le_mul hb' hb'
  have hsize : tableSize (wrap64 ((b : Int) * b)) = .ok (b * b) := by
    rw [tableSize_eq_ok, show (b : Int) * b = ((b * b : Nat) : Int) by push_cast; rfl,
      wrap64_small (by omega) (by omega)]
    exact ⟨rfl, by omega⟩
  unfold transposed
  rw [hsize]
  simp only [Outcome.ok_bind]
  rw [if_neg (by omega), if_neg (by rw [hk.2]; omega)]
  refine congrArg Except.ok (Array.ext ?_ fun i h1 h2 => ?_)
  · simp [Block.columns]
  · simp [Block.columns, Block.cell]

/-- The blocks of a tensor whose bytes can be written: weight blocks are full. -/
def Writable (t : Tensor) (b : Nat) : Prop :=
  t.b = b ∧ t.scalar.Supported ∧ ∀ k ∈ t.blocks.toList, t.role = .wgt → k.Full b

theorem length_numbers {t : Tensor} {b : Nat} (h : t.Writable b) {k : Block}
    (hk : k ∈ t.blocks.toList) : (t.numbers b k).length = k.data.size := by
  unfold numbers
  split
  · rename_i hw
    rw [(h.2.2 k hk hw).2]
    simp [Block.columns]
  · simp

/-- **The bytes of a tensor**, block by block. -/
theorem bytes_eq {t : Tensor} {b : Nat} (hb : 1 ≤ b) (hb' : b ≤ 64) (h : t.Writable b) :
    t.bytes = .ok (t.blocks.toList.map fun k => rowBytes t.scalar (t.numbers b k)).flatten := by
  have hblock : ∀ k ∈ t.blocks.toList, t.blockBytes k = .ok (rowBytes t.scalar (t.numbers b k)) := by
    intro k hk
    unfold blockBytes numbers rowBytes
    split
    · rename_i hw
      rw [h.1, transposed_columns hb hb' (h.2.2 k hk hw)]
      rfl
    · rfl
  unfold bytes
  rw [mapM_of_forall hblock]
  rfl

/-- How far block `n` lies behind the first one. -/
def offset (t : Tensor) (n : Nat) : Nat := (t.sizes.take n).sum

theorem bytes_block {t : Tensor} {b n : Nat} (h : t.Writable b) {k : Block}
    (hk : t.blocks[n]? = some k) {i : Nat} (hi : i < k.data.size * t.scalar.width) :
    (t.blocks.toList.map fun k => rowBytes t.scalar (t.numbers b k)).flatten[t.offset n + i]? =
      (rowBytes t.scalar (t.numbers b k))[i]? := by
  have hmem : k ∈ t.blocks.toList := List.mem_of_getElem? (by simpa using hk)
  have hsizes : t.sizes = (t.blocks.toList.map fun k => rowBytes t.scalar (t.numbers b k)).map
      List.length := by
    unfold sizes
    rw [List.map_map]
    apply List.map_congr_left
    intro k hk
    simp only [Function.comp_apply]
    rw [length_rowBytes h.2.1, length_numbers h hk]
  rw [offset, hsizes, ← List.map_take]
  refine getElem?_flatten_take ?_ ?_
  · rw [List.getElem?_map, Array.getElem?_toList, hk]
    rfl
  · rw [length_rowBytes h.2.1, length_numbers h hmem]
    exact hi

end Tensor

/-- Memory holds the bytes of a tensor where an object stands. -/
def Placed.Holds (o : Placed) (mem : UInt64 → UInt8) (t : Tensor) : Prop :=
  ∃ bytes, t.bytes = .ok bytes ∧ HoldsBytes mem o.physical bytes

/-- The entries of a tensor are numbers of its type. -/
def Tensor.Fits (t : Tensor) : Prop :=
  ∀ k ∈ t.blocks.toList, ∀ v ∈ k.data.toList, t.scalar.contains v = .ok true

section Read

variable {o : Placed} {mem : UInt64 → UInt8} {t : Tensor} {b n : Nat} {k : Block}

/-- **A unit of a tensor reads as a row of a block.** -/
theorem Placed.Holds.row (h : o.Holds mem t) (hb : 1 ≤ b) (hb' : b ≤ 64) (hw : t.Writable b)
    (hfit : t.Fits) (hrole : t.role ≠ .wgt) (hk : t.blocks[n]? = some k) {r : Nat}
    (hr : (r + 1) * b ≤ k.data.size) :
    Machine.numbers mem t.scalar b
      (o.physical + UInt64.ofNat (t.offset n) + UInt64.ofNat (r * (b * t.scalar.width))) =
      .ok (k.line b r) := by
  obtain ⟨bytes, hbytes, hmem⟩ := h
  rw [Tensor.bytes_eq hb hb' hw] at hbytes
  obtain rfl := Except.ok.inj hbytes
  have hmemk : k ∈ t.blocks.toList := List.mem_of_getElem? (by simpa using hk)
  have hsplit : (r + 1) * b = r * b + b := by ring
  -- the row is a part of the block's numbers
  have hline : ∀ e < b, k.data.toList[r * b + e]? = (k.line b r)[e]? := by
    intro e he
    rw [Block.line, List.getElem?_map, List.getElem?_range he, Option.map_some, Block.cell,
      Array.getElem?_toList, Array.getD_eq_getD_getElem?,
      Array.getElem?_eq_getElem (show r * b + e < k.data.size by omega)]
    rfl
  have hlen : (k.line b r).length = b := by simp [Block.line]
  have hblock : HoldsBytes mem (o.physical + UInt64.ofNat (t.offset n) +
      UInt64.ofNat (r * (b * t.scalar.width))) (rowBytes t.scalar (k.line b r)) := by
    rw [add_ofNat_add]
    refine hmem.part fun i hi => ?_
    rw [length_rowBytes hw.2.1, hlen] at hi
    have hwpos := hw.2.1.width_pos.1
    -- byte `i` of the row is byte `i % width` of its number `i / width`
    have he : i / t.scalar.width < b := Nat.div_lt_of_lt_mul (by rwa [Nat.mul_comm] at hi)
    have hmod : i % t.scalar.width < t.scalar.width := Nat.mod_lt _ hwpos
    have hi' : i = i / t.scalar.width * t.scalar.width + i % t.scalar.width :=
      (Nat.div_add_mod' _ _).symm
    have hrow : r * (b * t.scalar.width) + i =
        (r * b + i / t.scalar.width) * t.scalar.width + i % t.scalar.width := by
      conv_lhs => rw [hi']
      ring
    have hlt : r * (b * t.scalar.width) + i < k.data.size * t.scalar.width := by
      have := Nat.mul_le_mul_right t.scalar.width hr
      have h2 : (r + 1) * b * t.scalar.width = r * (b * t.scalar.width) + b * t.scalar.width := by ring
      omega
    rw [Nat.add_assoc, Tensor.bytes_block hw hk hlt, hrow, getElem?_rowBytes hw.2.1 hmod]
    conv_rhs => rw [hi']
    rw [getElem?_rowBytes hw.2.1 hmod, Tensor.numbers, if_neg hrole, hline _ he]
  have := numbers_eq hw.2.1 (fun v hv => ?_) hblock
  · rwa [hlen] at this
  · obtain ⟨e, he⟩ := List.getElem?_of_mem hv
    have heb : e < b := by
      have := (List.getElem?_eq_some_iff.1 he).1
      rwa [hlen] at this
    rw [← hline e heb] at he
    exact hfit k hmemk v (List.mem_of_getElem? he)

/-- **A unit of a weight tensor reads as the columns of a block.** -/
theorem Placed.Holds.columns (h : o.Holds mem t) (hb : 1 ≤ b) (hb' : b ≤ 64) (hw : t.Writable b)
    (hfit : t.Fits) (hrole : t.role = .wgt) (hk : t.blocks[n]? = some k) :
    Machine.numbers mem t.scalar (b * b) (o.physical + UInt64.ofNat (t.offset n)) =
      .ok (k.columns b) := by
  obtain ⟨bytes, hbytes, hmem⟩ := h
  rw [Tensor.bytes_eq hb hb' hw] at hbytes
  obtain rfl := Except.ok.inj hbytes
  have hmemk : k ∈ t.blocks.toList := List.mem_of_getElem? (by simpa using hk)
  have hfull := hw.2.2 k hmemk hrole
  have hlen : (k.columns b).length = b * b := by simp [Block.columns]
  have hblock : HoldsBytes mem (o.physical + UInt64.ofNat (t.offset n))
      (rowBytes t.scalar (k.columns b)) := by
    refine hmem.part fun i hi => ?_
    rw [length_rowBytes hw.2.1, hlen, ← hfull.2] at hi
    rw [Tensor.bytes_block hw hk hi, Tensor.numbers, if_pos hrole]
  have := numbers_eq hw.2.1 (fun v hv => ?_) hblock
  · rwa [hlen] at this
  · obtain ⟨i, hi, rfl⟩ := List.mem_map.1 hv
    have hi := List.mem_range.1 hi
    have h1 : i % b < b := Nat.mod_lt _ hb
    have h2 : i / b < b := Nat.div_lt_of_lt_mul hi
    have hin : i % b * b + i / b < k.data.size := by
      rw [hfull.2]
      exact index_lt (by omega) (by omega)
    refine hfit k hmemk _ ?_
    rw [Block.cell, Array.getD_eq_getD_getElem?, Array.getElem?_eq_getElem hin]
    simp

end Read

end Tessera
