import Tessera.Proofs.Layouts

/-!
# The output region

The result of a program is its final vectors, narrowed to the type of outputs, in the
blocks of the accumulator. The output region that is expected holds these blocks at
their places, or single vectors packed in the order of their stores.

* `outputTensor_blocks`: the blocks of the result.
* `Region.deposit`: the region after some copies were written to it.
* `expectedOut_eq`: the region that is expected.
-/

namespace Tessera

/-- The entries of a table with rows of length `b`, row by row from row `v` on. -/
theorem extract_rows (data : Array Int) {b v : Nat} (n : Nat) (h : (v + n) * b ≤ data.size) :
    (data.extract (v * b) ((v + n) * b)).toList =
      (List.range n).flatMap fun r => rowsOf data b ((v + r : Nat) : Int) := by
  induction n with
  | zero => simp
  | succ n ih =>
    have h1 : (v + (n + 1)) * b = (v + n) * b + b := by ring
    have h2 : v * b ≤ (v + n) * b := Nat.mul_le_mul_right b (by omega)
    rw [List.range_succ, List.flatMap_append, List.flatMap_singleton, ← ih (by omega),
      ← extract_eq_rowsOf (v := v + n) (by rw [show v + n + 1 = v + (n + 1) by omega]; exact h),
      ← Array.toList_append, Array.extract_append_extract, Nat.min_eq_left h2, Nat.max_eq_right,
      show v + n + 1 = v + (n + 1) by omega]
    rw [show v + n + 1 = v + (n + 1) by omega, h1]
    omega

/-- Block `n` of a stack of full blocks. -/
structure Matrix.IsPart (m : Matrix) (b n : Nat) (k : Block) : Prop where
  height : k.height = b
  data : k.data = m.data.extract (n * b * b) ((n + 1) * b * b)
  inside : (n + 1) * b * b ≤ m.data.size

theorem unstack_fold {m : Matrix} {b : Nat} {heights : List Int} {done : List Block} {off : Int}
    {out : List Block × Int} (hcols : m.cols = b) (hheights : ∀ h ∈ heights, h = b)
    (hsmall : (done.length + heights.length) * b * b < 4611686018427387904)
    (hoff : off = (done.length * b * b : Nat))
    (hdone : ∀ n k, done.reverse[n]? = some k → m.IsPart b n k)
    (h : heights.foldlM (fun (q : List Block × Int) h => do
      let next := wrap64 (q.2 + wrap64 (h * m.cols))
      return (⟨h, ← slice m.data q.2 next⟩ :: q.1, next)) (done, off) = .ok out) :
    out.1.length = done.length + heights.length ∧
      ∀ n k, out.1.reverse[n]? = some k → m.IsPart b n k := by
  induction heights generalizing done off with
  | nil =>
    obtain rfl := Outcome.pure_eq_ok.1 h
    exact ⟨by simp, hdone⟩
  | cons height heights ih =>
    obtain ⟨q, hq, h⟩ := foldlM_cons_eq_ok.1 h
    obtain rfl := hheights height List.mem_cons_self
    simp only [hcols, hoff] at hq
    have hnext : ((done.length * b * b : Nat) : Int) + ((b * b : Nat) : Int) =
        (((done.length + 1) * b * b : Nat) : Int) := by push_cast; ring
    have hle : (done.length + 1) * b * b ≤ (done.length + (heights.length + 1)) * b * b :=
      Nat.mul_le_mul_right b (Nat.mul_le_mul_right b (by omega))
    have hbb : b * b ≤ (done.length + 1) * b * b := by
      rw [Nat.mul_assoc]
      exact Nat.le_mul_of_pos_left _ (by omega)
    rw [List.length_cons] at hsmall
    rw [show (b : Int) * b = ((b * b : Nat) : Int) by push_cast; rfl,
      wrap64_small (x := ((b * b : Nat) : Int)) (by omega) (by omega), hnext,
      wrap64_small (by omega) (by omega)] at hq
    obtain ⟨data, hdata, hq⟩ := Outcome.bind_eq_ok.1 hq
    obtain rfl := Outcome.pure_eq_ok.1 hq
    obtain ⟨hin, rfl⟩ := slice_eq_ok.1 hdata
    have := ih (fun h hh => hheights h (List.mem_cons_of_mem _ hh))
      (by rw [List.length_cons, Nat.add_assoc, Nat.add_comm 1]; exact hsmall)
      (by rw [List.length_cons]) (fun n k hn => ?_) h
    · rw [List.length_cons] at this ⊢
      exact ⟨by rw [this.1]; omega, this.2⟩
    rw [List.reverse_cons] at hn
    rcases Nat.lt_or_ge n done.length with hlt | hge
    · rw [List.getElem?_append_left (by simpa using hlt)] at hn
      exact hdone n k hn
    · rw [List.getElem?_append_right (by simpa using hge), List.length_reverse] at hn
      have hn0 : n = done.length := by
        by_contra hne
        rw [List.getElem?_eq_none (by simp; omega)] at hn
        cases hn
      subst hn0
      rw [Nat.sub_self, List.getElem?_cons_zero] at hn
      cases hn
      exact ⟨rfl, by simp only [Int.toNat_natCast], by omega⟩

/-- The result narrowed, entry by entry. -/
theorem narrow_data {m out : Matrix} {s : Scalar} {clip : Bool} (hs : s.Supported)
    (hsize : (m.data.size : Int) = m.rows * m.cols) (hsmall : m.data.size < 4611686018427387904)
    (h : m.narrow s clip = .ok out) :
    out.cols = m.cols ∧ out.data = m.data.map (s.narrowed clip) := by
  obtain ⟨zero, hzero, h⟩ := Outcome.bind_eq_ok.1 h
  obtain ⟨n, hn, -, rfl⟩ := zero_eq_ok.1 hzero
  rw [hs.narrowAll] at h
  split at h
  · cases h
  obtain rfl := Outcome.pure_eq_ok.1 h
  refine ⟨rfl, ?_⟩
  have hn : n = m.data.size := by
    rw [← hsize, wrap64_small (by omega) (by omega)] at hn
    omega
  apply Array.ext_getElem?
  intro i
  rw [getElem?_copyInto, hn]
  by_cases hi : i < m.data.size
  · rw [if_pos ⟨by omega, by simpa using hi, by simpa using hi⟩, Nat.sub_zero]
  · rw [if_neg (by simp; omega), Array.getElem?_eq_none (by simp; omega),
      Array.getElem?_eq_none (by simp; omega)]

/-- A block of the result: the vectors of the block, narrowed. -/
structure Block.IsResult (k : Block) (b : Nat) (final : Int → Row) (narrow : Int → Int) (n : Nat) :
    Prop where
  full : k.Full b
  data : k.data.toList =
    (List.range b).flatMap fun r => (final ((n * b + r : Nat) : Int)).map narrow

/-- **The blocks of the result** hold the final vectors, narrowed. -/
theorem outputTensor_blocks {c : Config} {b : Nat} {clip : Bool} {x t : Tensor} {final : Matrix}
    (hs : c.out.Supported) (hx : ∀ k ∈ x.blocks.toList, k.Full b)
    (hsmall : x.blocks.size * b * b ≤ 35184372088832) (hb : 1 ≤ b)
    (h : Shaped.outputTensor c b clip x final = .ok t) :
    t.scalar = c.out ∧ t.blocks.size = x.blocks.size ∧ ∀ n (k : Block), t.blocks[n]? = some k →
      k.IsResult b (rowsOf final.data b) (c.out.narrowed clip) n := by
  have hle : x.blocks.size * b ≤ x.blocks.size * b * b := Nat.le_mul_of_pos_right _ hb
  unfold Shaped.outputTensor at h
  simp only [Tensor.size] at h
  rw [show (x.blocks.size : Int) * b = ((x.blocks.size * b : Nat) : Int) by push_cast; rfl,
    wrap64_small (x := ((x.blocks.size * b : Nat) : Int)) (by omega) (by omega),
    show ((x.blocks.size * b : Nat) : Int) * b = ((x.blocks.size * b * b : Nat) : Int) by
      push_cast; rfl, wrap64_small (by omega) (by omega)] at h
  obtain ⟨data, hdata, h⟩ := Outcome.bind_eq_ok.1 h
  obtain ⟨⟨-, -, hfinal⟩, rfl⟩ := slice_eq_ok.1 hdata
  have hfinal : x.blocks.size * b * b ≤ final.data.size := by exact_mod_cast hfinal
  obtain ⟨narrowed, hnarrow, h⟩ := Outcome.bind_eq_ok.1 h
  obtain ⟨blocks, hblocks, h⟩ := Outcome.bind_eq_ok.1 h
  obtain ⟨padded, -, h⟩ := Outcome.bind_eq_ok.1 h
  obtain rfl := Outcome.pure_eq_ok.1 h
  rw [show (0 : Int).toNat = 0 from rfl, Int.toNat_natCast] at hnarrow
  have hsize : (final.data.extract 0 (x.blocks.size * b * b)).size = x.blocks.size * b * b := by
    rw [Array.size_extract]
    omega
  obtain ⟨hcols, hnd⟩ := narrow_data hs (by rw [hsize]; push_cast; rfl) (by rw [hsize]; omega) hnarrow
  obtain ⟨⟨out, off⟩, hfold, hblocks⟩ := Outcome.bind_eq_ok.1 hblocks
  obtain rfl := Outcome.pure_eq_ok.1 hblocks
  have hheights : x.heights.length = x.blocks.size := by simp [Tensor.heights]
  obtain ⟨hlen, hparts⟩ := unstack_fold hcols (fun h hh => by
      obtain ⟨k, hk, rfl⟩ := List.mem_map.1 hh
      exact (hx k hk).1)
    (by rw [hheights, List.length_nil, Nat.zero_add]; omega) (by simp) (by simp) hfold
  rw [hheights, List.length_nil, Nat.zero_add] at hlen
  refine ⟨rfl, by simpa using hlen, fun n k hk => ?_⟩
  obtain ⟨hheight, hkdata, hinside⟩ := hparts n k (by simpa using hk)
  rw [hnd, Array.size_map, hsize] at hinside
  -- the part of the result is the same part of the final stack, narrowed
  have hextract : k.data = (final.data.extract (n * b * b) ((n + 1) * b * b)).map
      (c.out.narrowed clip) := by
    rw [hkdata, hnd, ← Array.map_extract, Array.extract_extract, Nat.zero_add, Nat.zero_add,
      Nat.min_eq_left hinside]
  refine ⟨⟨hheight, ?_⟩, ?_⟩
  · rw [hextract, Array.size_map, Array.size_extract, Nat.min_eq_left (by omega)]
    have : (n + 1) * b * b = n * b * b + b * b := by ring
    omega
  · have hrows := extract_rows final.data (b := b) (v := n * b) b (by
      rw [show n * b + b = (n + 1) * b by ring]
      omega)
    rw [show n * b + b = (n + 1) * b by ring] at hrows
    rw [hextract, Array.toList_map, hrows, List.map_flatMap]

theorem length_pieces {α : Type} {size n : Nat} {g : Nat → List α}
    (hg : ∀ r < n, (g r).length = size) : ((List.range n).flatMap g).length = n * size := by
  rw [List.length_flatMap, List.map_congr_left fun r hr => hg r (List.mem_range.1 hr)]
  simp

/-- Pieces of one length, put behind each other. -/
theorem fill_pieces {α : Type} (f : Nat → α) (start size n : Nat) {g : Nat → List α}
    (hg : ∀ r < n, (g r).length = size) :
    fill f start ((List.range n).flatMap g) =
      (List.range n).foldl (fun f r => fill f (start + r * size) (g r)) f := by
  induction n with
  | zero =>
    funext k
    simp [fill]
  | succ n ih =>
    have hlen := length_pieces fun r hr => hg r (Nat.lt_succ_of_lt hr)
    rw [List.range_succ, List.flatMap_append, List.flatMap_singleton, List.foldl_append,
      ← ih fun r hr => hg r (Nat.lt_succ_of_lt hr), ← fill_append, hlen]
    rfl

namespace Machine

/-- The output region, byte by byte, after some vectors were written to their places. -/
def patches (m : Machine) (pos : Int → Nat) (cells : List (Int × Row)) (f : Nat → UInt8) :
    Nat → UInt8 :=
  cells.foldl (fun f q => fill f (pos q.1 * m.unit) (m.copyBytes q.2)) f

theorem length_copyBytes {m : Machine} (hout : m.out.Supported) {row : Row} (hrow : row.length = m.b) :
    (m.copyBytes row).length = m.unit := by
  rw [copyBytes, length_rowBytes hout, List.length_map, hrow, unit]

/-- What is written into an object, seen from its start. -/
theorem writeBytes_view {mem : UInt64 → UInt8} {f : Nat → UInt8} {start : UInt64} {size off : Nat}
    {bytes : List UInt8} (hsize : size < 18446744073709551616) (hoff : off + bytes.length ≤ size)
    (hf : ∀ n < size, mem (start + UInt64.ofNat n) = f n) :
    ∀ n < size, writeBytes mem (start + UInt64.ofNat off) bytes (start + UInt64.ofNat n) =
      fill f off bytes n := by
  intro n hn
  unfold writeBytes fill
  rw [toNat_sub_offsets start (by omega) (by omega), hf n hn]
  by_cases hle : off ≤ n
  · rw [if_pos hle, if_neg (by omega)]
  · rw [if_neg hle, if_pos (by omega), List.getElem?_eq_none (by omega)]
    rfl

/-- **The output region after some copies were written to it.** -/
theorem deposit_view {m : Machine} {out : Placed} {pos : Int → Nat} {units : Nat}
    (hout : m.out.Supported) (hsize : units * m.unit ≤ out.size.toNat) {cells : List (Int × Row)}
    (hcells : ∀ q ∈ cells, pos q.1 < units ∧ q.2.length = m.b) {mem : UInt64 → UInt8}
    {f : Nat → UInt8} (hf : ∀ n < out.size.toNat, mem (out.physical + UInt64.ofNat n) = f n) :
    ∀ n < out.size.toNat, m.deposit out pos cells mem (out.physical + UInt64.ofNat n) =
      m.patches pos cells f n := by
  have hlt := out.size.toNat_lt
  induction cells generalizing mem f with
  | nil => exact hf
  | cons q cells ih =>
    obtain ⟨hpos, hrow⟩ := hcells q List.mem_cons_self
    refine ih (fun r hr => hcells r (List.mem_cons_of_mem _ hr)) (writeBytes_view ?_ ?_ hf)
    · norm_num at hlt
      omega
    · have := Nat.mul_le_mul_right m.unit (show pos q.1 + 1 ≤ units by omega)
      rw [add_mul, one_mul] at this
      rw [length_copyBytes hout hrow]
      omega

end Machine

/-- What is written into a table, seen from its start. -/
theorem overwrite_view {bytes : Array UInt8} {off : Nat} {new : List UInt8}
    (hoff : off + new.length ≤ bytes.size) :
    ∃ bytes', overwrite bytes (off : Int) new.toArray = .ok bytes' ∧ bytes'.size = bytes.size ∧
      (fun n => bytes'.getD n 0) = fill (fun n => bytes.getD n 0) off new := by
  refine ⟨_, overwrite_eq_ok.2 ⟨by omega, rfl⟩, size_copyInto .., funext fun n => ?_⟩
  rw [getD_copyInto, Int.toNat_natCast, List.size_toArray]
  unfold fill
  by_cases hin : off ≤ n ∧ n < off + new.length
  · rw [if_pos ⟨hin.1, hin.2, by omega⟩, if_neg (by omega),
      List.getElem?_eq_getElem (show n - off < new.length by omega)]
    simp only [Option.getD_some]
    rw [Array.getD_eq_getD_getElem?, List.getElem?_toArray,
      List.getElem?_eq_getElem (show n - off < new.length by omega)]
    rfl
  · rw [if_neg (by omega)]
    split
    · rfl
    · rw [List.getElem?_eq_none (by omega)]
      rfl

/-- Pieces written one after the other into a table. -/
theorem overwrites_view {α : Type} (us : List α) {unit : α → Outcome (Int × List Int)} {s : Scalar}
    {off : α → Nat} {piece : α → List UInt8} (bytes : Array UInt8)
    (hunit : ∀ u ∈ us, ∃ values, unit u = .ok ((off u : Int), values) ∧
      values.flatMap s.bytesOf = piece u ∧ off u + (piece u).length ≤ bytes.size) :
    ∃ bytes', us.foldlM (fun (bytes : Array UInt8) u => do
        let q ← unit u
        overwrite bytes q.1 (q.2.flatMap s.bytesOf).toArray) bytes = .ok bytes' ∧
      bytes'.size = bytes.size ∧ (fun n => bytes'.getD n 0) =
        us.foldl (fun f u => fill f (off u) (piece u)) (fun n => bytes.getD n 0) := by
  induction us generalizing bytes with
  | nil => exact ⟨bytes, rfl, rfl, rfl⟩
  | cons u us ih =>
    obtain ⟨values, hu, hpiece, hoff⟩ := hunit u List.mem_cons_self
    obtain ⟨bytes1, h1, hsize1, hview1⟩ := overwrite_view hoff
    obtain ⟨bytes', h2, hsize2, hview2⟩ := ih bytes1
      fun v hv => by rw [hsize1]; exact hunit v (List.mem_cons_of_mem _ hv)
    refine ⟨bytes', foldlM_cons_eq_ok.2 ⟨bytes1, Outcome.bind_ok hu (hpiece ▸ h1), h2⟩,
      hsize2.trans hsize1, ?_⟩
    rw [hview2, hview1, List.foldl_cons]

namespace Schedule

/-- The vectors that a schedule stores. -/
def storedVectors (s : Schedule) (d : Shaped) : List Int :=
  match s.storeGrain with
  | .vector => s.stored
  | .block => vectorsOf d.b s.stored

/-- The place of a vector in the output region. -/
def position (s : Schedule) (v : Int) : Nat :=
  match s.storeGrain with
  | .vector => (s.stored.idxOf? v).getD 0
  | .block => v.toNat

/-- What a schedule stores is in the output region. -/
structure StoresInside (s : Schedule) (d : Shaped) (b : Nat) : Prop where
  block : s.storeGrain = .block → ∀ n ∈ s.stored, 0 ≤ n ∧ n.toNat < d.c.blocks.size
  vector : s.storeGrain = .vector → s.stored.Nodup ∧
    ∀ v ∈ s.stored, 0 ≤ v ∧ v.toNat < d.c.blocks.size * b

end Schedule

/-- The numbers of a list that has each once, in order with their positions. -/
theorem zipIdx_eq_map_idxOf {xs : List Int} (h : xs.Nodup) :
    xs.zipIdx = xs.map fun x => (x, (xs.idxOf? x).getD 0) := by
  apply List.ext_getElem?
  intro i
  rw [List.getElem?_zipIdx, List.getElem?_map]
  cases hi : xs[i]? with
  | none => rfl
  | some x =>
    have : xs.idxOf? x = some i := by
      refine idxOf?_of_unique hi fun j hj => ?_
      exact (List.getElem?_inj (List.getElem?_eq_some_iff.1 hj).1 h).1 (hj.trans hi.symm)
    simp [this]

/-- The result as the machine's output holds it: the final vectors narrowed, in blocks. -/
structure Machine.Produces (m : Machine) (d : Shaped) (final : Int → Row) : Prop where
  side : d.b = m.b
  pos : 1 ≤ m.b
  le : m.b ≤ 64
  out : m.out.Supported
  scalar : d.c.scalar = m.out
  few : d.c.blocks.size * m.b < 4611686018427387904
  block : ∀ n (k : Block), d.c.blocks[n]? = some k → k.IsResult m.b final (m.out.narrowed m.clip) n
  row : ∀ v, (final v).length = m.b

/-- The bytes of a block of the result are those of its vectors. -/
theorem Machine.Produces.block_bytes {m : Machine} {d : Shaped} {final : Int → Row}
    (h : m.Produces d final) {n : Nat} {k : Block} (hk : d.c.blocks[n]? = some k) :
    k.data.toList.flatMap d.c.scalar.bytesOf =
      (List.range m.b).flatMap fun r => m.copyBytes (final ((n * m.b + r : Nat) : Int)) := by
  rw [(h.block n k hk).data, h.scalar, List.flatMap_assoc]
  rfl

/-- Pieces of the same lengths that make up the same list are the same. -/
theorem flatMap_inj {α β : Type} {f g : α → List β} {xs : List α}
    (hlen : ∀ x ∈ xs, (f x).length = (g x).length) (h : xs.flatMap f = xs.flatMap g) :
    ∀ x ∈ xs, f x = g x := by
  induction xs with
  | nil => simp
  | cons x xs ih =>
    rw [List.flatMap_cons, List.flatMap_cons] at h
    obtain ⟨hx, hxs⟩ := List.append_inj h (hlen x List.mem_cons_self)
    intro y hy
    rcases List.mem_cons.1 hy with rfl | hy
    · exact hx
    · exact ih (fun z hz => hlen z (List.mem_cons_of_mem _ hz)) hxs y hy

/-- A vector of a block of the result. -/
theorem Machine.Produces.vector {m : Machine} {d : Shaped} {final : Int → Row}
    (h : m.Produces d final) {v : Int} (h0 : 0 ≤ v) {k : Block}
    (hk : d.c.blocks[v.toNat / m.b]? = some k) :
    ∃ values, k.vector (v % m.b) m.b = .ok values ∧
      values.toList = (final v).map (m.out.narrowed m.clip) := by
  have hb : (0 : Int) < m.b := by have := h.pos; omega
  have hmod : 0 ≤ v % m.b ∧ v % m.b < m.b :=
    ⟨Int.emod_nonneg _ hb.ne', Int.emod_lt_of_pos _ hb⟩
  have hbb : m.b * m.b ≤ 64 * 64 := Nat.mul_le_mul h.le h.le
  obtain ⟨hfull, hdata⟩ := h.block _ k hk
  refine ⟨_, slice_row hfull.2 (by omega) hmod.1 hmod.2, ?_⟩
  have hr : (v % m.b).toNat < m.b := by omega
  have hrange : ((v % m.b).toNat + 1) * m.b ≤ k.data.size := by
    rw [hfull.2]
    exact Nat.mul_le_mul_right _ hr
  rw [extract_eq_rowsOf hrange]
  -- the whole block, cut into its rows, is cut into the final vectors
  have hrows := extract_rows k.data (b := m.b) (v := 0) m.b (by rw [hfull.2]; simp)
  rw [Nat.zero_mul, Nat.zero_add, Array.extract_eq_self_of_le (by rw [hfull.2]), hdata] at hrows
  have hrow := flatMap_inj (fun r _ => by simp [h.row]) hrows.symm (v % m.b).toNat
    (List.mem_range.2 hr)
  rw [Nat.zero_add] at hrow
  have hv : ((v.toNat / m.b * m.b + (v % m.b).toNat : Nat) : Int) = v := by
    have h1 := Nat.div_add_mod' v.toNat m.b
    have h2 : (v % m.b).toNat = v.toNat % m.b := by
      rw [← Int.toNat_natCast (v.toNat % m.b), Int.natCast_mod, Int.toNat_of_nonneg h0]
    omega
  rw [hrow, hv]

namespace Compiled

/-- The vectors that a compiled program stores, with their final values. -/
def finalCells (r : Compiled) (final : Int → Row) : List (Int × Row) :=
  (r.schedule.storedVectors r.data).map fun v => (v, final v)

/-- A stored block stands at its place, and its bytes are those of its vectors. -/
theorem storedUnit_block {r : Compiled} {m : Machine} {final : Int → Row} {out : Placed}
    {origin divisor : UInt64} {units i : Nat} (h : m.Produces r.data final)
    (hgrain : r.schedule.storeGrain = .block)
    (hrec : out.Receives origin divisor m.b m.unit units)
    (hblocks : out.blocks.size = r.data.c.blocks.size) {n : Int} (h0 : 0 ≤ n)
    (hn : n.toNat < r.data.c.blocks.size)
    (hsmall : n.toNat * m.b * m.unit < 4611686018427387904) :
    ∃ values, r.storedUnit out i n = .ok ((n.toNat * m.b * m.unit : Nat), values) ∧
      values.flatMap r.data.c.scalar.bytesOf = (List.range m.b).flatMap fun j =>
        m.copyBytes (final ((n.toNat * m.b + j : Nat) : Int)) := by
  have hk := Array.getElem?_eq_getElem hn
  have ha := Array.getElem?_eq_getElem (hblocks ▸ hn : n.toNat < out.blocks.size)
  refine ⟨_, ?_, h.block_bytes hk⟩
  unfold storedUnit
  rw [hgrain]
  refine Outcome.bind_ok (entry_eq_ok.2 ⟨h0, hk⟩) (Outcome.bind_ok (entry_eq_ok.2 ⟨h0, ha⟩) ?_)
  rw [hrec.physical n.toNat _ ha]
  have hsub := toNat_sub_offsets out.physical (m := n.toNat * m.b * m.unit) (n := 0)
    (by omega) (by omega)
  rw [if_pos (Nat.zero_le _), Nat.sub_zero] at hsub
  rw [show out.physical + UInt64.ofNat 0 = out.physical from by simp] at hsub
  refine congrArg Except.ok (Prod.ext ?_ rfl)
  exact congrArg Int.ofNat hsub

/-- A stored vector stands at its number among the stored ones. -/
theorem storedUnit_vector {r : Compiled} {m : Machine} {final : Int → Row} (out : Placed) {i : Nat}
    (h : m.Produces r.data final) (hgrain : r.schedule.storeGrain = .vector) {v : Int}
    (h0 : 0 ≤ v) (hv : v.toNat < r.data.c.blocks.size * m.b)
    (hi : i * m.unit < 4611686018427387904) :
    ∃ values, r.storedUnit out i v = .ok ((i * m.unit : Nat), values) ∧
      values.flatMap r.data.c.scalar.bytesOf = m.copyBytes (final v) := by
  have hb : (0 : Int) < m.b := by have := h.pos; omega
  have hdiv : (v / m.b).toNat = v.toNat / m.b := by
    rw [← Int.toNat_natCast (v.toNat / m.b), Int.natCast_ediv, Int.toNat_of_nonneg h0]
  have hlt : v.toNat / m.b < r.data.c.blocks.size := Nat.div_lt_of_lt_mul (by rwa [Nat.mul_comm])
  have hk := Array.getElem?_eq_getElem hlt
  obtain ⟨values, hvalues, hlist⟩ := h.vector h0 hk
  refine ⟨values.toList, ?_, by rw [hlist, h.scalar]; rfl⟩
  unfold storedUnit
  rw [hgrain, h.side]
  have hfew := h.few
  refine Outcome.bind_ok (quotient_small h0 (by omega) hb) (Outcome.bind_ok
    (entry_eq_ok.2 ⟨Int.ediv_nonneg h0 hb.le, by rw [hdiv]; exact hk⟩)
    (Outcome.bind_ok (remainder_small h0 hb) (Outcome.bind_ok hvalues ?_)))
  rw [h.scalar]
  refine Outcome.bind_ok h.out.bytes (congrArg Except.ok (Prod.ext ?_ rfl))
  have hunit : (m.b : Int) * m.out.width = m.unit := by rw [Machine.unit]; push_cast; rfl
  have hle : m.unit ≤ 64 * 4 := Nat.mul_le_mul h.le h.out.width_pos.2
  dsimp only
  rw [hunit, wrap64_small (x := m.unit) (by omega) (by omega), ← Int.natCast_mul,
    wrap64_small (by omega) (by omega)]

end Compiled

/-- Blocks that are written to their places, vector by vector. -/
theorem Machine.patches_blocks {m : Machine} {final : Int → Row} (hout : m.out.Supported)
    (hrow : ∀ v, (final v).length = m.b) {blocks : List Int} (h0 : ∀ n ∈ blocks, 0 ≤ n)
    (f : Nat → UInt8) :
    blocks.foldl (fun f n => fill f (n.toNat * m.b * m.unit) ((List.range m.b).flatMap fun j =>
      m.copyBytes (final ((n.toNat * m.b + j : Nat) : Int)))) f =
    m.patches Int.toNat ((vectorsOf m.b blocks).map fun v => (v, final v)) f := by
  unfold patches vectorsOf
  rw [List.foldl_map, List.foldl_flatMap]
  refine List.foldl_ext _ _ _ fun f n hn => ?_
  rw [fill_pieces f _ m.unit m.b fun j _ => length_copyBytes hout (hrow _), below, List.foldl_map,
    List.foldl_map, Int.toNat_natCast]
  refine List.foldl_ext _ _ _ fun f j _ => ?_
  have hn := h0 n hn
  have hcast : n * m.b + Int.ofNat j = ((n.toNat * m.b + j : Nat) : Int) := by
    push_cast [Int.toNat_of_nonneg hn]
    rfl
  rw [hcast, Int.toNat_natCast]
  ring_nf

namespace Compiled

/-- The bytes of the region that receives the stored units, in their order. -/
def storedBytes (r : Compiled) (out : Placed) : Outcome (Array UInt8) :=
  r.schedule.stored.zipIdx.foldlM (fun (bytes : Array UInt8) (q : Int × Nat) => do
    let u ← r.storedUnit out q.2 q.1
    overwrite bytes u.1 (u.2.flatMap r.data.c.scalar.bytesOf).toArray)
    (Array.replicate out.size.toNat 0)

section Stored

variable {r : Compiled} {m : Machine} {final : Int → Row} {out : Placed} {origin divisor : UInt64}

theorem blank_view (size : Nat) :
    (fun n => (Array.replicate size (0 : UInt8)).getD n 0) = fun _ => 0 := by
  funext n
  simp only [Array.getD_eq_getD_getElem?, Array.getElem?_replicate]
  split <;> rfl

theorem size_received (hrec : out.Receives origin divisor m.b m.unit (r.schedule.units r.data m.b))
    (hsmall : r.schedule.units r.data m.b * m.unit < 4611686018427387904) :
    out.size.toNat = r.schedule.units r.data m.b * m.unit := by
  rw [hrec.size, UInt64.toNat_ofNat_of_lt' (by norm_num [UInt64.size]; omega)]

/-- Stored blocks patch the region at their numbers. -/
theorem storedBytes_blocks (h : m.Produces r.data final) (hgrain : r.schedule.storeGrain = .block)
    (hrec : out.Receives origin divisor m.b m.unit (r.schedule.units r.data m.b))
    (hblocks : out.blocks.size = r.data.c.blocks.size)
    (hsmall : r.schedule.units r.data m.b * m.unit < 4611686018427387904)
    (hin : r.schedule.StoresInside r.data m.b) :
    ∃ bytes, r.storedBytes out = .ok bytes ∧ bytes.size = out.size.toNat ∧
      (fun n => bytes.getD n 0) =
        m.patches r.schedule.position (r.finalCells final) fun _ => 0 := by
  have hsize := size_received hrec hsmall
  rw [Schedule.units, hgrain] at hsmall hsize
  simp only at hsmall hsize
  obtain ⟨bytes, hfold, hlen, hview⟩ := overwrites_view r.schedule.stored.zipIdx
    (s := r.data.c.scalar) (Array.replicate out.size.toNat 0) fun q hq => by
      obtain ⟨h0, hlt⟩ := hin.block hgrain q.1 (List.fst_mem_of_mem_zipIdx hq)
      have hend : (q.1.toNat + 1) * m.b * m.unit ≤ r.data.c.blocks.size * m.b * m.unit :=
        Nat.mul_le_mul_right _ (Nat.mul_le_mul_right _ hlt)
      rw [Nat.add_mul, Nat.add_mul, Nat.one_mul] at hend
      obtain ⟨values, hunit, hvalues⟩ := storedUnit_block (i := q.2) h hgrain hrec hblocks h0 hlt
        (by omega)
      refine ⟨values, hunit, hvalues, ?_⟩
      rw [Array.size_replicate, hsize,
        length_pieces fun j _ => Machine.length_copyBytes h.out (h.row _)]
      exact hend
  refine ⟨bytes, hfold, by rw [hlen, Array.size_replicate], ?_⟩
  have hpos : r.schedule.position = Int.toNat := by
    funext v
    rw [Schedule.position, hgrain]
  rw [hview, blank_view, finalCells, Schedule.storedVectors, hgrain, hpos, h.side,
    ← m.patches_blocks h.out h.row fun n hn => (hin.block hgrain n hn).1]
  conv_rhs => rw [← List.zipIdx_map_fst 0 r.schedule.stored]
  rw [List.foldl_map]

/-- Stored vectors patch the region one after another. -/
theorem storedBytes_vectors (h : m.Produces r.data final)
    (hgrain : r.schedule.storeGrain = .vector)
    (hrec : out.Receives origin divisor m.b m.unit (r.schedule.units r.data m.b))
    (hsmall : r.schedule.units r.data m.b * m.unit < 4611686018427387904)
    (hin : r.schedule.StoresInside r.data m.b) :
    ∃ bytes, r.storedBytes out = .ok bytes ∧ bytes.size = out.size.toNat ∧
      (fun n => bytes.getD n 0) =
        m.patches r.schedule.position (r.finalCells final) fun _ => 0 := by
  have hsize := size_received hrec hsmall
  obtain ⟨hnodup, hrange⟩ := hin.vector hgrain
  rw [Schedule.units, hgrain] at hsmall hsize
  simp only at hsmall hsize
  obtain ⟨bytes, hfold, hlen, hview⟩ := overwrites_view r.schedule.stored.zipIdx
    (s := r.data.c.scalar) (Array.replicate out.size.toNat 0) fun q hq => by
      obtain ⟨h0, hlt⟩ := hrange q.1 (List.fst_mem_of_mem_zipIdx hq)
      have hi : q.2 < r.schedule.stored.length := by
        simpa using List.snd_lt_of_mem_zipIdx hq
      have hend : (q.2 + 1) * m.unit ≤ r.schedule.stored.length * m.unit :=
        Nat.mul_le_mul_right _ hi
      rw [Nat.add_mul, Nat.one_mul] at hend
      obtain ⟨values, hunit, hvalues⟩ := storedUnit_vector out (i := q.2) h hgrain h0 hlt
        (by omega)
      refine ⟨values, hunit, hvalues, ?_⟩
      rw [Array.size_replicate, hsize, Machine.length_copyBytes h.out (h.row _)]
      exact hend
  refine ⟨bytes, hfold, by rw [hlen, Array.size_replicate], ?_⟩
  have hpos : r.schedule.position = fun v => (r.schedule.stored.idxOf? v).getD 0 := by
    funext v
    rw [Schedule.position, hgrain]
  rw [hview, blank_view, finalCells, Schedule.storedVectors, hgrain, hpos, Machine.patches,
    zipIdx_eq_map_idxOf hnodup, List.foldl_map, List.foldl_map]

/-- **The output region that is expected** holds the final vectors at their places. -/
theorem expectedOut_eq (h : m.Produces r.data final) (hout : r.layout.out = some out)
    (hrec : out.Receives origin divisor m.b m.unit (r.schedule.units r.data m.b))
    (hblocks : r.schedule.storeGrain = .block → out.blocks.size = r.data.c.blocks.size)
    (hsmall : r.schedule.units r.data m.b * m.unit < 4611686018427387904)
    (hin : r.schedule.StoresInside r.data m.b) :
    r.expectedOut = .ok ((List.range out.size.toNat).map
      (m.patches r.schedule.position (r.finalCells final) fun _ => 0)) := by
  obtain ⟨bytes, hfold, hlen, hview⟩ : ∃ bytes, r.storedBytes out = .ok bytes ∧
      bytes.size = out.size.toNat ∧ (fun n => bytes.getD n 0) =
        m.patches r.schedule.position (r.finalCells final) fun _ => 0 := by
    cases hgrain : r.schedule.storeGrain with
    | block => exact storedBytes_blocks h hgrain hrec (hblocks hgrain) hsmall hin
    | vector => exact storedBytes_vectors h hgrain hrec hsmall hin
  refine Outcome.bind_ok (Outcome.ofOption_eq_ok.2 hout) (Outcome.bind_ok hfold ?_)
  rw [← hview]
  refine congrArg Except.ok (List.ext_getElem (by simp [hlen]) fun n h1 h2 => ?_)
  have hn : n < bytes.size := by simpa using h1
  simp [Array.getD, hn]

end Stored

end Compiled

end Tessera
