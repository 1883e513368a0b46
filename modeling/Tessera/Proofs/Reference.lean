import Tessera.Proofs.Action
import Tessera.Proofs.Operations

/-!
# The result of a program, vector by vector

* `rowsOf`: the rows of a table, as values of vectors.
* `Resolved.action`: an operation on one site, as an action.
* `runOps_run`: the operations of a program run their actions in declared order.
* `Shaped.initial`: the vectors that memory holds before the program runs.
* `stack_rows`: blocks below each other, row by row.
* `initial_eq_acc`: without a product, the operations start from these vectors.
* `plain_run`, `sum_run`: operations without a product, and a sum, from memory to the result.
-/

namespace Tessera

/-- Row `v` of a table with rows of length `b`, zeros outside the table. -/
def rowsOf (data : Array Int) (b : Nat) (v : Int) : Row :=
  (List.range b).map fun j => if v < 0 then 0 else data.getD (v.toNat * b + j) 0

@[simp] theorem length_rowsOf (data : Array Int) (b : Nat) (v : Int) :
    (rowsOf data b v).length = b := by simp [rowsOf]

theorem getD_rowsOf (data : Array Int) {b : Nat} (v : Nat) {e : Nat} (he : e < b) :
    (rowsOf data b v).getD e 0 = data.getD (v * b + e) 0 := by
  unfold rowsOf
  rw [List.getD_eq_getElem?_getD, List.getElem?_map, List.getElem?_range he, Option.map_some,
    Option.getD_some, if_neg (by omega), Int.toNat_natCast]

/-- The part of a table that holds a row is the row. -/
theorem extract_eq_rowsOf {data : Array Int} {b v : Nat} (h : (v + 1) * b ≤ data.size) :
    (data.extract (v * b) ((v + 1) * b)).toList = rowsOf data b v := by
  have hb : (v + 1) * b = v * b + b := by ring
  apply List.ext_getElem?
  intro j
  rw [Array.getElem?_toList, Array.getElem?_extract, rowsOf, List.getElem?_map]
  by_cases hj : j < b
  · rw [if_pos (by omega), List.getElem?_range hj]
    simp only [Option.map_some, Int.toNat_natCast]
    rw [if_neg (by omega), Array.getD_eq_getD_getElem?,
      Array.getElem?_eq_getElem (show v * b + j < data.size by omega)]
    rfl
  · rw [if_neg (by omega), List.getElem?_eq_none (by simp; omega)]
    rfl

/-- A row of a table, cut out by word arithmetic. -/
theorem slice_row {data : Array Int} {b n : Nat} {v : Int} (hsize : data.size = n * b)
    (hsmall : n * b < 9223372036854775808) (hv : 0 ≤ v) (hv' : v < n) :
    slice data (wrap64 (v * b)) (wrap64 (wrap64 (v + 1) * b)) =
      .ok (data.extract (v.toNat * b) ((v.toNat + 1) * b)) := by
  obtain ⟨v, rfl⟩ := Int.eq_ofNat_of_zero_le hv
  rcases Nat.eq_zero_or_pos b with rfl | hb
  · simp [slice, wrap64]
  have h1 : (v + 1) * b ≤ n * b := Nat.mul_le_mul_right b (by omega)
  have h2 : v * b ≤ (v + 1) * b := Nat.mul_le_mul_right b (by omega)
  have h3 : n ≤ n * b := Nat.le_mul_of_pos_right n hb
  rw [show (v : Int) * b = ((v * b : Nat) : Int) by push_cast; rfl,
    wrap64_small (x := (v : Int) + 1) (by omega) (by omega),
    show ((v : Int) + 1) * b = (((v + 1) * b : Nat) : Int) by push_cast; rfl,
    wrap64_small (by omega) (by omega), wrap64_small (by omega) (by omega), slice_eq_ok]
  exact ⟨by omega, by simp only [Int.toNat_natCast]⟩

/-- What is cut out is the row. -/
theorem slice_rowsOf {data : Array Int} {b n : Nat} {v : Int} (hsize : data.size = n * b)
    (hsmall : n * b < 9223372036854775808) (hv : 0 ≤ v) (hv' : v < n) :
    slice data (wrap64 (v * b)) (wrap64 (wrap64 (v + 1) * b)) = .ok (rowsOf data b v).toArray := by
  have hinside := Nat.mul_le_mul_right b (show v.toNat + 1 ≤ n by omega)
  have hcut := extract_eq_rowsOf (show (v.toNat + 1) * b ≤ data.size by omega)
  rw [Int.toNat_of_nonneg hv] at hcut
  rw [slice_row hsize hsmall hv hv', ← hcut]

/-- An entry of a table with one row replaced. -/
theorem getD_copyInto_row {data row : Array Int} {b n k j : Nat} (hsize : data.size = n * b)
    (hk : k < n) (hrow : row.size = b) (i : Nat) (hj : j < b) :
    (copyInto data (k * b) row).getD (i * b + j) 0 =
      if i = k then row.getD j 0 else data.getD (i * b + j) 0 := by
  have hfit := row_room b (show k < n by omega)
  rw [getD_copyInto, hrow]
  by_cases hik : i = k
  · subst hik
    rw [if_pos (by omega), if_pos rfl, Nat.add_sub_cancel_left]
  · rw [if_neg hik, if_neg]
    rintro ⟨h1, h2, -⟩
    -- a place within another row
    rcases Nat.lt_or_gt_of_ne hik with h | h
    · have := row_room b (show i < k by omega)
      omega
    · have := row_room b (show k < i by omega)
      omega

/-- A table with one row replaced. -/
theorem rowsOf_copyInto {data : Array Int} {b n v : Nat} {row : Row} (hsize : data.size = n * b)
    (hv : v < n) (hrow : row.length = b) :
    rowsOf (copyInto data (v * b) row.toArray) b = Function.update (rowsOf data b) v row := by
  funext u
  by_cases hu : u < 0
  · rw [Function.update_of_ne (by omega)]
    simp [rowsOf, hu]
  obtain ⟨u, rfl⟩ := Int.eq_ofNat_of_zero_le (show 0 ≤ u by omega)
  have hentry : ∀ j < b, (copyInto data (v * b) row.toArray).getD (u * b + j) 0 =
      if u = v then row.toArray.getD j 0 else data.getD (u * b + j) 0 :=
    fun j hj => getD_copyInto_row hsize hv (by simpa using hrow) u hj
  simp only [rowsOf, hu, if_false, Int.toNat_natCast]
  by_cases huv : u = v
  · subst huv
    rw [Function.update_self]
    apply List.ext_getElem?
    intro j
    rw [List.getElem?_map]
    by_cases hj : j < b
    · rw [List.getElem?_range hj, Option.map_some, hentry j hj, if_pos rfl,
        List.getElem?_eq_getElem (show j < row.length by omega)]
      simp [Array.getD, hrow, hj]
    · rw [List.getElem?_eq_none (by simp; omega), List.getElem?_eq_none (by omega)]
      rfl
  · rw [Function.update_of_ne (by simpa using huv)]
    apply List.map_congr_left
    intro j hj
    rw [hentry j (List.mem_range.1 hj), if_neg huv, if_neg hu, Int.toNat_natCast]

/-- An operation on one site. -/
def Resolved.action (acc : Scalar) (r : Resolved) (s : Site) : Action where
  dst := s.dst
  src := if r.useImm then none else some s.src
  act x y := if r.useImm then aluImmediate r.op x r.imm acc else aluVector r.op x y acc

theorem aluImmediate_length {op : AluOp} {x y : Row} {imm : Int} {acc : Scalar}
    (h : aluImmediate op x imm acc = .ok y) : y.length = x.length :=
  (mapM_eq_ok.1 h).length_eq.symm

theorem aluVector_length {op : AluOp} {x y z : Row} {acc : Scalar}
    (h : aluVector op x y acc = .ok z) : z.length = x.length := by
  induction x generalizing y z with
  | nil => rw [aluVector] at h; cases h; rfl
  | cons a x ih =>
    cases y with
    | nil => rw [aluVector] at h; cases h
    | cons b y =>
      rw [aluVector] at h
      obtain ⟨v, -, h⟩ := Outcome.bind_eq_ok.1 h
      obtain ⟨t, ht, h⟩ := Outcome.bind_eq_ok.1 h
      obtain rfl := Outcome.pure_eq_ok.1 h
      rw [List.length_cons, List.length_cons, ih ht]

theorem Resolved.act_length {acc : Scalar} {r : Resolved} {s : Site} {x y z : Row}
    (h : (r.action acc s).act x y = .ok z) : z.length = x.length := by
  simp only [Resolved.action] at h
  split at h
  · exact aluImmediate_length h
  · exact aluVector_length h

/-- **One site of an operation is one action.** -/
theorem runSite_apply {acc : Scalar} {r : Resolved} {s : Site} {data data' : Array Int} {b n : Nat}
    (hsize : data.size = n * b) (hsmall : n * b < 4611686018427387904)
    (hdst : 0 ≤ s.dst ∧ s.dst < n) (hsrc : r.useImm = false → 0 ≤ s.src ∧ s.src < n)
    (h : runSite b acc r data s = .ok data') :
    data'.size = n * b ∧ (r.action acc s).apply (rowsOf data b) = .ok (rowsOf data' b) := by
  unfold runSite at h
  simp only [slice_rowsOf hsize (show n * b < 9223372036854775808 by omega) hdst.1 hdst.2,
    Outcome.ok_bind] at h
  -- both kinds of operation write the value of the action
  obtain ⟨row, hval, h⟩ : ∃ row : Row, (r.action acc s).value (rowsOf data b) = .ok row ∧
      overwrite data (wrap64 (s.dst * b)) row.toArray = .ok data' := by
    cases himm : r.useImm with
    | true =>
      rw [himm] at h
      obtain ⟨row, hval, h⟩ := Outcome.bind_eq_ok.1 h
      exact ⟨row, by simpa [Action.value, Resolved.action, himm] using hval, h⟩
    | false =>
      have hs := hsrc himm
      rw [himm] at h
      simp only [Bool.false_eq_true, if_false, Outcome.ok_bind,
        slice_rowsOf hsize (show n * b < 9223372036854775808 by omega) hs.1 hs.2] at h
      obtain ⟨row, hval, h⟩ := Outcome.bind_eq_ok.1 h
      exact ⟨row, by simpa [Action.value, Resolved.action, himm] using hval, h⟩
  have hlen : row.length = b := by
    rw [Resolved.act_length (s := s) (r := r) hval, length_rowsOf]
  have hle : s.dst.toNat * b ≤ n * b := Nat.mul_le_mul_right b (by omega)
  rw [show s.dst * b = ((s.dst.toNat * b : Nat) : Int) by
    push_cast; rw [Int.toNat_of_nonneg hdst.1], wrap64_small (by omega) (by omega)] at h
  obtain ⟨-, rfl⟩ := overwrite_eq_ok.1 h
  refine ⟨by rw [size_copyInto, hsize], Action.apply_eq_ok.2 ⟨row, hval, ?_⟩⟩
  rw [Int.toNat_natCast, rowsOf_copyInto hsize (by omega) hlen, Int.toNat_of_nonneg hdst.1]
  rfl

/-- The actions of some operations, in order. -/
def actionsOf (acc : Scalar) (ops : List Resolved) : List Action :=
  ops.flatMap fun r => r.sites.map (r.action acc)

theorem runSites_run {acc : Scalar} {r : Resolved} {sites : List Site} {data data' : Array Int}
    {b n : Nat} (hsize : data.size = n * b) (hsmall : n * b < 4611686018427387904)
    (hdst : ∀ s ∈ sites, 0 ≤ s.dst ∧ s.dst < n)
    (hsrc : r.useImm = false → ∀ s ∈ sites, 0 ≤ s.src ∧ s.src < n)
    (h : sites.foldlM (runSite b acc r) data = .ok data') :
    data'.size = n * b ∧
      Action.run (sites.map (r.action acc)) (rowsOf data b) = .ok (rowsOf data' b) := by
  induction sites generalizing data with
  | nil =>
    obtain rfl := Outcome.pure_eq_ok.1 h
    exact ⟨hsize, Action.run_nil.2 rfl⟩
  | cons s sites ih =>
    obtain ⟨data1, h1, h⟩ := foldlM_cons_eq_ok.1 h
    obtain ⟨hsize1, happly⟩ := runSite_apply hsize hsmall (hdst s List.mem_cons_self)
      (fun himm => hsrc himm s List.mem_cons_self) h1
    obtain ⟨hsize2, hrun⟩ := ih hsize1 (fun s hs => hdst s (List.mem_cons_of_mem _ hs))
      (fun himm s hs => hsrc himm s (List.mem_cons_of_mem _ hs)) h
    exact ⟨hsize2, Action.run_cons.2 ⟨_, happly, hrun⟩⟩

theorem runOpsData_run {data data' : Array Int} {ops : List Resolved} {acc : Scalar} {b n : Nat}
    {vectors total : Int} (hsize : data.size = n * b) (hsmall : n * b < 4611686018427387904)
    (hon : ∀ r ∈ ops, r.OnVectors vectors total) (hv : vectors ≤ n) (ht : total ≤ n)
    (h : ops.foldlM (runOp b acc) data = .ok data') :
    data'.size = n * b ∧ Action.run (actionsOf acc ops) (rowsOf data b) = .ok (rowsOf data' b) := by
  induction ops generalizing data with
  | nil =>
    obtain rfl := Outcome.pure_eq_ok.1 h
    exact ⟨hsize, Action.run_nil.2 rfl⟩
  | cons r ops ih =>
    obtain ⟨data1, h1, h⟩ := foldlM_cons_eq_ok.1 h
    unfold runOp at h1
    rw [Outcome.within_eq_ok] at h1
    have hr := hon r List.mem_cons_self
    obtain ⟨hsize1, hrun1⟩ := runSites_run hsize hsmall
      (fun s hs => by have := hr.dst s hs; omega)
      (fun himm s hs => by have := hr.src himm s hs; omega) h1
    obtain ⟨hsize2, hrun2⟩ := ih hsize1 (fun r hr => hon r (List.mem_cons_of_mem _ hr)) h
    refine ⟨hsize2, ?_⟩
    rw [actionsOf, List.flatMap_cons]
    exact Action.run_append.2 ⟨_, hrun1, hrun2⟩

/-- **The operations of a program run their actions in declared order.** -/
theorem runOps_run {m m' : Matrix} {ops : List Resolved} {acc : Scalar} {b n : Nat}
    {vectors total : Int} (hcols : m.cols = b) (hsize : m.data.size = n * b)
    (hsmall : n * b < 4611686018427387904) (hon : ∀ r ∈ ops, r.OnVectors vectors total)
    (hv : vectors ≤ n) (ht : total ≤ n) (h : runOps m ops acc = .ok m') :
    m'.cols = b ∧ m'.data.size = n * b ∧
      Action.run (actionsOf acc ops) (rowsOf m.data b) = .ok (rowsOf m'.data b) := by
  unfold runOps at h
  rw [hcols] at h
  obtain ⟨data', hdata, h⟩ := Outcome.bind_eq_ok.1 h
  obtain rfl := Outcome.pure_eq_ok.1 h
  exact ⟨rfl, runOpsData_run hsize hsmall hon hv ht hdata⟩

/-- The blocks of the accumulators, the second after the first. -/
def Shaped.stackedBlocks (d : Shaped) : List Block :=
  d.x.blocks.toList ++ (d.y.map (·.blocks.toList)).getD []

/-- Vector `v` before the program runs: row `v % b` of block `v / b`. -/
def Shaped.initial (d : Shaped) (v : Int) : Row :=
  let b := d.b.toNat
  (List.range b).map fun e => if v < 0 then 0 else
    (d.stackedBlocks.getD (v.toNat / b) ⟨0, #[]⟩).cell b (v.toNat % b) e

/-- A full block has `b` rows of length `b`. -/
def Block.Full (k : Block) (b : Nat) : Prop := k.height = b ∧ k.data.size = b * b

/-- The blocks written so far into a stack stand one after the other. -/
theorem stack_fold {b n : Nat} {blocks : List Block} (done : List Block) {data : Array Int} {off : Int}
    {out : Array Int × Int} (hfull : ∀ k ∈ done ++ blocks, k.Full b)
    (hsize : data.size = n * (b * b)) (hn : (done ++ blocks).length ≤ n)
    (hoff : off = (done.length * (b * b) : Nat))
    (hdone : ∀ m k, done[m]? = some k → ∀ i < b * b,
      data.getD (m * (b * b) + i) 0 = k.data.getD i 0)
    (h : blocks.foldlM (fun (s : Array Int × Int) k =>
      return (← overwrite s.1 s.2 k.data, s.2 + k.data.size)) (data, off) = (.ok out : Outcome _)) :
    out.1.size = n * (b * b) ∧ ∀ m k, (done ++ blocks)[m]? = some k → ∀ i < b * b,
      out.1.getD (m * (b * b) + i) 0 = k.data.getD i 0 := by
  induction blocks generalizing done data off with
  | nil =>
    obtain rfl := Outcome.pure_eq_ok.1 h
    rw [List.append_nil]
    exact ⟨hsize, hdone⟩
  | cons k blocks ih =>
    obtain ⟨s, hs, h⟩ := foldlM_cons_eq_ok.1 h
    obtain ⟨data', hdata', hs⟩ := Outcome.bind_eq_ok.1 hs
    obtain rfl := Outcome.pure_eq_ok.1 hs
    have hk : k.data.size = b * b := (hfull k (by simp)).2
    obtain ⟨-, rfl⟩ := overwrite_eq_ok.1 hdata'
    rw [hoff, Int.toNat_natCast, hk] at h
    have hlen : done.length < n := by simp at hn; omega
    have := ih (done ++ [k]) (by simpa using hfull) (by rw [size_copyInto, hsize])
      (by simpa using hn) (by simp; ring) ?_ h
    · simpa using this
    intro m k' hm i hi
    rw [getD_copyInto, hk]
    rcases Nat.lt_or_ge m done.length with hlt | hge
    · -- an earlier block lies before the new one
      have h1 := row_room (b * b) (show m < done.length by omega)
      rw [if_neg (by omega)]
      rw [List.getElem?_append_left hlt] at hm
      exact hdone m k' hm i hi
    · rw [List.getElem?_append_right hge] at hm
      have hm0 : m = done.length := by
        by_contra hne
        rw [List.getElem?_eq_none (by simp; omega)] at hm
        cases hm
      subst hm0
      simp only [Nat.sub_self, List.getElem?_cons_zero, Option.some.injEq] at hm
      have h1 := row_room (b * b) (show done.length < n by omega)
      rw [if_pos ⟨by omega, by omega, by show _ < data.size; omega⟩, Nat.add_sub_cancel_left, hm]

/-- The rows of a stack of full blocks are counted without overflow. -/
theorem stack_height {b : Nat} {blocks : List Block} (hfull : ∀ k ∈ blocks, k.Full b)
    (hsmall : blocks.length * b < 4611686018427387904) :
    blocks.foldl (fun n k => wrap64 (n + k.height)) 0 = (blocks.length * b : Nat) := by
  induction blocks using List.reverseRecOn with
  | nil => simp
  | append_singleton blocks k ih =>
    have hlen : (blocks ++ [k]).length * b = blocks.length * b + b := by simp; ring
    rw [List.foldl_append, ih (fun k hk => hfull k (List.mem_append_left _ hk)) (by omega),
      List.foldl_cons, List.foldl_nil, (hfull k (by simp)).1, hlen,
      wrap64_small (by omega) (by omega)]
    push_cast; rfl

/-- **Blocks below each other, row by row.** -/
theorem stack_rows {b : Nat} {blocks : List Block} {m : Matrix} (hb : 1 ≤ b)
    (hfull : ∀ k ∈ blocks, k.Full b) (hsmall : blocks.length * (b * b) < 4611686018427387904)
    (h : stack blocks b = .ok m) :
    m.cols = b ∧ m.data.size = blocks.length * b * b ∧
      ∀ v : Int, rowsOf m.data b v = (List.range b).map fun e => if v < 0 then 0 else
        (blocks.getD (v.toNat / b) ⟨0, #[]⟩).cell b (v.toNat % b) e := by
  have hbb : blocks.length * b ≤ blocks.length * (b * b) :=
    Nat.mul_le_mul_left _ (Nat.le_mul_of_pos_right b hb)
  unfold stack at h
  simp only at h
  rw [stack_height hfull (by omega)] at h
  obtain ⟨zero, hzero, h⟩ := Outcome.bind_eq_ok.1 h
  obtain ⟨out, hout, h⟩ := Outcome.bind_eq_ok.1 h
  obtain rfl := Outcome.pure_eq_ok.1 h
  obtain ⟨n, hn, -, rfl⟩ := zero_eq_ok.1 hzero
  rw [show ((blocks.length * b : Nat) : Int) * b = ((blocks.length * (b * b) : Nat) : Int) by
    push_cast; ring, wrap64_small (by omega) (by omega)] at hn
  obtain rfl : n = blocks.length * (b * b) := by exact_mod_cast hn
  obtain ⟨hsize, hcells⟩ := stack_fold [] (n := blocks.length) (by simpa using hfull)
    (by simp) (by simp) (by simp) (by simp) hout
  refine ⟨rfl, by rw [hsize]; ring, fun v => ?_⟩
  apply List.map_congr_left
  intro e he
  have he := List.mem_range.1 he
  by_cases hv : v < 0
  · rw [if_pos hv, if_pos hv]
  rw [if_neg hv, if_neg hv]
  -- row `v` is row `v % b` of block `v / b`
  have hr : v.toNat % b < b := Nat.mod_lt _ hb
  have hindex : v.toNat * b + e = v.toNat / b * (b * b) + (v.toNat % b * b + e) := by
    conv_lhs => rw [← Nat.div_add_mod' v.toNat b]
    ring
  have hin : v.toNat % b * b + e < b * b := index_lt (by omega) (by omega)
  rw [hindex, Block.cell]
  cases hk : blocks[v.toNat / b]? with
  | some k =>
    rw [hcells (v.toNat / b) k (by simpa using hk) _ hin, List.getD_eq_getElem?_getD, hk]
    rfl
  | none =>
    have hlen := List.getElem?_eq_none_iff.1 hk
    have := Nat.mul_le_mul_right (b * b) hlen
    rw [List.getD_eq_getElem?_getD, hk, Array.getD_eq_getD_getElem?,
      Array.getElem?_eq_none (show out.1.size ≤ _ by omega)]
    simp

/-- The blocks of a matrix whose rows fill block rows are full. -/
theorem full_blocks {m : Matrix} {b br bc : Nat} {blocks : List Block}
    (hrows : m.rows = (br * b : Nat)) (hlen : blocks.length = br * bc)
    (hblock : ∀ n k, blocks[n]? = some k → m.IsBlock b bc n k) : ∀ k ∈ blocks, k.Full b := by
  intro k hk
  obtain ⟨n, hn⟩ := List.getElem?_of_mem hk
  have hlt : n < br * bc := by
    have := (List.getElem?_eq_some_iff.1 hn).1
    rwa [hlen] at this
  have hblock := hblock n k hn
  have hheight : k.height = b := by
    rw [hblock.height, hrows]
    have h1 : n / bc < br := Nat.div_lt_of_lt_mul (by rwa [Nat.mul_comm] at hlt)
    have h2 := row_room b (show n / bc < br by omega)
    omega
  have hsize := hblock.size
  rw [hheight] at hsize
  exact ⟨hheight, by exact_mod_cast hsize⟩

theorem Tensor.Regular.full_blocks {t : Tensor} {b br bc : Nat} (h : t.Regular b br bc)
    (hrows : t.padded.rows = (br * b : Nat)) : ∀ k ∈ t.blocks.toList, k.Full b :=
  Tessera.full_blocks hrows (by rw [Array.length_toList, h.size]) fun n k hk =>
    h.block n k (by simpa using hk)

namespace Shaped

variable {d : Shaped} {p : Program} {c : Config} {b xr xc : Nat}

/-- Without a product, the operations start from what memory holds. -/
theorem Common.initial_eq_acc (h : d.Common p c b xr xc) (hb : 1 ≤ b)
    (hfull : ∀ k ∈ d.stackedBlocks, k.Full b)
    (hsmall : d.stackedBlocks.length * (b * b) < 4611686018427387904)
    (hacc : stack d.stackedBlocks b = .ok d.acc) :
    d.acc.cols = b ∧ d.acc.data.size = d.stackedBlocks.length * b * b ∧
      rowsOf d.acc.data b = d.initial := by
  obtain ⟨h1, h2, h3⟩ := stack_rows hb hfull hsmall hacc
  refine ⟨h1, h2, funext fun v => ?_⟩
  rw [h3 v, Shaped.initial, h.side, Int.toNat_natCast]

/-- The blocks of an accumulator without a product. -/
theorem Common.plain_blocks (h : d.Common p c b xr xc) (hplain : d.Plain b) :
    d.stackedBlocks = d.x.blocks.toList ∧ d.stackedBlocks.length = xr * xc ∧
      (∀ k ∈ d.stackedBlocks, k.Full b) ∧
      d.stackedBlocks.length * (b * b) < 4611686018427387904 := by
  have h1 : d.stackedBlocks = d.x.blocks.toList := by simp [stackedBlocks, hplain.second]
  have hlen : d.x.blocks.toList.length = xr * xc := by rw [Array.length_toList, h.x_regular.size]
  have hsmall := h.x_regular.vectors_small h.x_rows
  rw [h1, hlen]
  refine ⟨rfl, rfl, h.x_regular.full_blocks h.x_rows, ?_⟩
  rw [← Nat.mul_assoc]
  omega

/-- **Operations without a product**, from the vectors in memory to the result. -/
theorem Common.plain_run (h : d.Common p c b xr xc) (hb : 1 ≤ b) (hplain : d.Plain b) :
    d.final.cols = b ∧ d.final.data.size = xr * xc * b * b ∧
      Action.run (actionsOf c.acc d.ops) d.initial = .ok (rowsOf d.final.data b) := by
  obtain ⟨heq, hlen, hfull, hsmall⟩ := h.plain_blocks hplain
  obtain ⟨h1, h2, h3⟩ := h.initial_eq_acc hb hfull hsmall (by rw [heq]; exact hplain.acc)
  rw [hlen] at h2 hsmall
  rw [← h3]
  refine runOps_run h1 h2 (by rw [Nat.mul_assoc]; omega) (fun r hr => h.onVectors hr) le_rfl ?_
    h.final
  rw [hplain.form, if_neg (by simp)]

/-- **A sum of accumulators**, from the vectors in memory to the result. -/
theorem Common.sum_run {y : Tensor} (h : d.Common p c b xr xc) (hb : 1 ≤ b)
    (hsum : d.Sum c b xr xc y) :
    Action.run (actionsOf c.acc d.ops) d.initial = .ok (rowsOf d.final.data b) := by
  have heq : d.stackedBlocks = d.x.blocks.toList ++ y.blocks.toList := by
    simp [stackedBlocks, hsum.second]
  have hlen : d.stackedBlocks.length = xr * xc + xr * xc := by
    rw [heq, List.length_append, Array.length_toList, Array.length_toList, h.x_regular.size,
      hsum.y_regular.size]
  have hfull : ∀ k ∈ d.stackedBlocks, k.Full b := by
    intro k hk
    rw [heq] at hk
    rcases List.mem_append.1 hk with hk | hk
    · exact h.x_regular.full_blocks h.x_rows k hk
    · exact hsum.y_regular.full_blocks hsum.y_rows k hk
  have hsmall := h.x_regular.vectors_small h.x_rows
  have htable : d.stackedBlocks.length * (b * b) = xr * xc * b * b + xr * xc * b * b := by
    rw [hlen]
    ring
  obtain ⟨h1, h2, h3⟩ := h.initial_eq_acc hb hfull (by omega) (by rw [heq]; exact hsum.acc)
  rw [hlen] at h2
  rw [← h3]
  refine (runOps_run h1 h2 ?_ (fun r hr => h.onVectors hr) ?_ ?_ h.final).2.2
  · rw [Nat.mul_assoc, ← hlen]
    omega
  · push_cast
    nlinarith
  · rw [if_pos hsum.form]
    push_cast
    linarith

end Shaped

end Tessera
