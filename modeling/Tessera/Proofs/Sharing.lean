import Mathlib.Algebra.BigOperators.Group.List.Basic
import Tessera.Proofs.Padding
import Tessera.Workers

/-!
# A product shared among workers

The rows of a product are independent of each other, and an entry is a sum, which may be
taken in any order. So workers that add their terms in place, each to the rows of its own
range and at its own speed, all come to the product that one loop computes.

* `Workers.ranges_cover`: the ranges handed out cover the indices, in order.
* `Workers.terms`: the terms that the workers add together.
* `mulAddIn`: a product whose terms are added in some order.
* `mulAddIn_eq`: it is the product of the loop, for every group of workers.
-/

namespace Tessera

/-- A term of a product: the entry it goes to, and its place along the inner dimension. -/
structure Term where
  row : Int
  inner : Int
  col : Int
  deriving Repr, DecidableEq

/-- The terms of row `i`. -/
def rowTerms (inner cols i : Int) : List Term :=
  (below inner).flatMap fun p => (below cols).map fun j => ⟨i, p, j⟩

namespace Workers

/-- The terms of a product, range by range; a range is the work of one worker. -/
def terms (w : Option Workers) (rows inner cols : Int) : List Term :=
  (ranges w rows).flatMap fun r => (below (r.2 - r.1)).flatMap fun i => rowTerms inner cols (r.1 + i)

/-- There is always someone to do the work. -/
theorem size_pos {w : Option Workers} (hw : ∀ x ∈ w, 0 < x.count) : (1 : Int) ≤ size w := by
  cases w with
  | none => simp [size]
  | some x =>
    have := hw x rfl
    simp only [size]
    omega

/-- **The ranges handed out cover the indices**, in order. -/
theorem ranges_cover {w : Option Workers} (hw : ∀ x ∈ w, 0 < x.count) (n : Int) :
    (ranges w n).flatMap (fun r => (below (r.2 - r.1)).map (r.1 + ·)) = below n := by
  unfold ranges
  by_cases hn : n ≤ 0
  · rw [if_pos hn]
    simp [below, show n.toNat = 0 by omega]
  rw [if_neg hn]
  by_cases hone : (inline w || n == 1) = true
  · rw [if_pos hone]
    simp
  rw [if_neg hone]
  have hsize := size_pos hw
  have hchunk : 1 ≤ (n + min (size w : Int) n - 1).tdiv (min (size w : Int) n) := by
    rw [Int.tdiv_eq_ediv_of_nonneg (by omega)]
    exact (Int.le_ediv_iff_mul_le (by omega)).2 (by omega)
  simp only
  generalize (n + min (size w : Int) n - 1).tdiv (min (size w : Int) n) = chunk at hchunk
  -- the ranges are the bands of a stride
  have hstrides : strides n chunk = .ok ((List.range ((n + chunk - 1) / chunk).toNat).map
      fun (k : Nat) => (k : Int) * chunk) := by
    unfold strides
    rw [if_neg hn, if_neg (by omega)]
  rw [← strides_band hstrides (by omega), List.flatMap_map, List.map_map, ← List.flatMap_def]
  refine List.flatMap_congr fun k hk => ?_
  have hlt : (k : Int) * chunk < n := by
    have h1 : (k : Int) + 1 ≤ (n + chunk - 1) / chunk := by
      have := List.mem_range.1 hk
      omega
    have h2 := (Int.le_ediv_iff_mul_le (by omega)).1 h1
    rw [add_mul, one_mul] at h2
    omega
  simp only [Function.comp_apply]
  rw [consecutive_eq _ (by omega)]
  congr 2
  omega

/-- **The workers together add every term**, once. -/
theorem terms_eq {w : Option Workers} (hw : ∀ x ∈ w, 0 < x.count) (rows inner cols : Int) :
    terms w rows inner cols = (below rows).flatMap (rowTerms inner cols) := by
  rw [← ranges_cover hw rows, List.flatMap_assoc]
  refine List.flatMap_congr fun r _ => ?_
  rw [List.flatMap_map]

end Workers

/-- One term added in place. -/
def addTerm (a b : Matrix) (data : Array Int) (t : Term) : Outcome (Array Int) := do
  let factor ← entry a.data (wrap64 (t.row * a.cols + t.inner))
  if factor = 0 then return data
  let v ← entry b.data (wrap64 (t.inner * b.cols + t.col))
  let place := wrap64 (t.row * b.cols + t.col)
  let old ← entry data place
  return data.setIfInBounds place.toNat (old + factor * v)

/-- The sum of `x` and the product of `a` and `b` in the scalar type `acc`, the terms added in
an order that may depend on the shapes. -/
def mulAddIn (order : Int → Int → Int → List Term) : Shaped.Multiplier := fun a b x acc => do
  if a.cols ≠ b.rows then
    Outcome.complain (.factorShapes a.rows a.cols b.rows b.cols)
  if x.cols ≠ b.cols ∨ x.rows < a.rows then
    Outcome.complain (.accumulatorShape x.rows x.cols a.rows b.cols)
  let data ← (order a.rows a.cols b.cols).foldlM (addTerm a b) x.data
  return { x with data := ← acc.wrapAll data }

/-- What a term adds to entry `(i, j)`. -/
def Term.share (t : Term) (a b : Matrix) (i j : Nat) : Int :=
  if t.row = i ∧ t.col = j then a.cell i t.inner.toNat * b.cell t.inner.toNat j else 0

section Filled

variable {m : Matrix} {r c : Nat}

theorem Matrix.Filled.entry (h : m.Filled r c) {i j : Nat} (hi : i < r) (hj : j < c) :
    Tessera.entry m.data (wrap64 ((i : Int) * m.cols + j)) = .ok (m.cell i j) := by
  have hle := Nat.mul_le_mul_right c (show i + 1 ≤ r by omega)
  have hsmall := h.small
  rw [Nat.succ_mul] at hle
  rw [h.cols, show (i : Int) * c + j = ((i * c + j : Nat) : Int) by push_cast; rfl,
    wrap64_small (by omega) (by omega), entry_eq_ok, Int.toNat_natCast, h.cell,
    Array.getD_eq_getD_getElem?, Array.getElem?_eq_getElem (by rw [h.size]; omega)]
  exact ⟨by omega, rfl⟩

end Filled

section Sum

/-- A sum of which only one term counts. -/
theorem sum_pick (f : Nat → Int) (n j : Nat) :
    ((List.range n).map fun p => if p = j then f p else 0).sum = if j < n then f j else 0 := by
  induction n with
  | zero => simp
  | succ n ih =>
    rw [sum_range_succ, ih]
    rcases Nat.lt_trichotomy j n with h | rfl | h
    · rw [if_pos h, if_neg (by omega), if_pos (by omega), add_zero]
    · rw [if_neg (by omega), if_pos rfl, if_pos (by omega), zero_add]
    · rw [if_neg (by omega), if_neg (by omega), if_neg (by omega), add_zero]

theorem sum_map_flatMap {α β : Type} (f : α → List β) (g : β → Int) (xs : List α) :
    ((xs.flatMap f).map g).sum = (xs.map fun x => ((f x).map g).sum).sum := by
  rw [List.map_flatMap, List.flatMap_def, List.sum_flatten, List.map_map]
  rfl

variable {a b : Matrix} {r n c : Nat}

/-- The terms of one row add the product to the entries of that row. -/
theorem share_row (hn : a.cols = n) {i j : Nat} (hj : j < c) (k : Nat) :
    ((rowTerms n c k).map (·.share a b i j)).sum = if k = i then a.dot b i j else 0 := by
  have hterm : ∀ p : Nat, (((below c).map fun q => (⟨k, p, q⟩ : Term)).map
      (·.share a b i j)).sum = if k = i then a.cell i p * b.cell p j else 0 := by
    intro p
    have := sum_pick (fun _ => if k = i then a.cell i p * b.cell p j else 0) c j
    rw [if_pos hj] at this
    rw [← this, below, Int.toNat_natCast, List.map_map, List.map_map]
    refine congrArg List.sum (List.map_congr_left fun q _ => ?_)
    simp only [Function.comp_apply, Term.share, Int.ofNat_eq_natCast, Int.toNat_natCast,
      Nat.cast_inj]
    by_cases hq : q = j <;> by_cases hk : k = i <;> simp [hq, hk]
  have hbelow : below (n : Int) = (List.range n).map Int.ofNat := by rw [below, Int.toNat_natCast]
  unfold rowTerms
  rw [sum_map_flatMap, hbelow, List.map_map]
  simp only [Function.comp_def, Int.ofNat_eq_natCast, hterm]
  unfold Matrix.dot
  rw [hn, Int.toNat_natCast]
  by_cases hk : k = i
  · simp only [if_pos hk]
  · simp only [if_neg hk]
    exact List.sum_eq_zero fun v hv => by
      obtain ⟨-, -, rfl⟩ := List.mem_map.1 hv
      rfl

/-- All terms together add the product. -/
theorem share_terms (hn : a.cols = n) (i : Nat) {j : Nat} (hj : j < c) :
    (((below r).flatMap (rowTerms n c)).map (·.share a b i j)).sum =
      if i < r then a.dot b i j else 0 := by
  rw [sum_map_flatMap, below, Int.toNat_natCast, List.map_map]
  simp only [Function.comp_def, Int.ofNat_eq_natCast]
  rw [List.map_congr_left fun k _ => share_row hn hj k, sum_pick (fun _ => a.dot b i j)]

end Sum

section Order

variable {a b x : Matrix} {acc : Scalar} {ar n xr c : Nat}

/-- **One term added**: its share goes to every entry. -/
theorem addTerm_cells (ha : a.Filled ar n) (hb : b.Filled n c) (har : ar ≤ xr)
    (hsmall : xr * c < 4611686018427387904) {data : Array Int} (hdata : data.size = xr * c)
    {i p j : Nat} (hi : i < ar) (hp : p < n) (hj : j < c) :
    ∃ data', addTerm a b data ⟨i, p, j⟩ = .ok data' ∧ data'.size = xr * c ∧
      ∀ i', ∀ j' < c, data'.getD (i' * c + j') 0 =
        data.getD (i' * c + j') 0 + Term.share ⟨i, p, j⟩ a b i' j' := by
  have hle := row_room c (show i < xr by omega)
  unfold addTerm
  simp only [ha.entry hi hp, hb.entry hp hj, Outcome.ok_bind]
  rw [hb.cols, show (i : Int) * c + j = ((i * c + j : Nat) : Int) by push_cast; rfl,
    wrap64_small (by omega) (by omega)]
  have hold : entry data ((i * c + j : Nat) : Int) = .ok (data.getD (i * c + j) 0) := by
    rw [entry_eq_ok, Int.toNat_natCast, Array.getD_eq_getD_getElem?,
      Array.getElem?_eq_getElem (by omega)]
    exact ⟨by omega, rfl⟩
  by_cases hzero : a.cell i p = 0
  · rw [if_pos hzero]
    refine ⟨data, rfl, hdata, fun i' j' _ => ?_⟩
    unfold Term.share
    split
    · rename_i heq
      obtain rfl : i = i' := Int.ofNat_inj.1 heq.1
      rw [Int.toNat_natCast, hzero, zero_mul, add_zero]
    · rw [add_zero]
  rw [if_neg hzero]
  simp only [hold, Outcome.ok_bind, Int.toNat_natCast]
  refine ⟨_, rfl, by simpa using hdata, fun i' j' hj' => ?_⟩
  rw [Array.getD_eq_getD_getElem?, Array.getElem?_setIfInBounds]
  unfold Term.share
  by_cases heq : (i : Int) = i' ∧ (j : Int) = j'
  · obtain rfl : i = i' := by exact_mod_cast heq.1
    obtain rfl : j = j' := by exact_mod_cast heq.2
    rw [if_pos rfl, if_pos (by omega), if_pos ⟨rfl, rfl⟩, Int.toNat_natCast, Option.getD_some]
  · rw [if_neg, if_neg heq, add_zero, Array.getD_eq_getD_getElem?]
    intro hplace
    obtain ⟨rfl, rfl⟩ := (index_inj (by omega) (by omega)).1 hplace
    exact heq ⟨rfl, rfl⟩

/-- **Terms added one after the other**: every entry has the shares of those done. -/
theorem addTerms_cells (ha : a.Filled ar n) (hb : b.Filled n c) (har : ar ≤ xr)
    (hsmall : xr * c < 4611686018427387904) (order : List Term)
    (horder : ∀ t ∈ order, ∃ i < ar, ∃ p < n, ∃ j < c, t = ⟨(i : Nat), (p : Nat), (j : Nat)⟩)
    {data : Array Int} (hdata : data.size = xr * c) :
    ∃ data', order.foldlM (addTerm a b) data = .ok data' ∧ data'.size = xr * c ∧
      ∀ i, ∀ j < c, data'.getD (i * c + j) 0 =
        data.getD (i * c + j) 0 + (order.map (·.share a b i j)).sum := by
  induction order generalizing data with
  | nil => exact ⟨data, rfl, hdata, fun i j _ => by simp⟩
  | cons t order ih =>
    obtain ⟨i, hi, p, hp, j, hj, rfl⟩ := horder t List.mem_cons_self
    obtain ⟨data₁, hterm, hsize₁, hcells₁⟩ := addTerm_cells ha hb har hsmall hdata hi hp hj
    obtain ⟨data₂, hrest, hsize₂, hcells₂⟩ :=
      ih (fun t ht => horder t (List.mem_cons_of_mem _ ht)) hsize₁
    refine ⟨data₂, foldlM_cons_eq_ok.2 ⟨data₁, hterm, hrest⟩, hsize₂, fun i' j' hj' => ?_⟩
    rw [hcells₂ i' j' hj', hcells₁ i' j' hj', List.map_cons, List.sum_cons, add_assoc]

theorem addRow_progress (ha : a.Filled ar n) (hb : b.Filled n c) {i : Nat} (hi : i < ar)
    (row : Array Int) : ∃ out, addRow a b i row = .ok out := by
  obtain ⟨out, hout, -⟩ := loopBelow_progress (fun _ _ => True) (n := a.cols) (s := row)
    (f := fun p row => do
      let factor ← entry a.data (wrap64 (i * a.cols + p))
      if factor = 0 then return row
      return Array.zipWith (fun d v => d + factor * v) row (← b.row p))
    (fun p row hp _ => by
      rw [ha.cols] at hp
      have hp : p < n := by exact_mod_cast hp
      obtain ⟨other, hother, -⟩ := hb.row hp
      simp only [ha.entry hi hp, hother, Outcome.ok_bind]
      split
      · exact ⟨_, rfl, trivial⟩
      · exact ⟨_, rfl, trivial⟩)
    trivial
  exact ⟨out, hout⟩

/-- Factors of fitting shapes can be multiplied. -/
theorem mulAdd_progress (ha : a.Filled ar n) (hb : b.Filled n c) (hx : x.Filled xr c)
    (har : ar ≤ xr) (hacc : acc.Supported) : ∃ m, mulAdd a b x acc = .ok m := by
  obtain ⟨data, hdata, -⟩ := loopBelow_progress (fun _ (data : Array Int) => data.size = xr * c)
    (n := a.rows) (s := x.data)
    (f := fun i data => do
      let start := wrap64 (i * b.cols)
      let row ← slice data start (wrap64 (wrap64 (i + 1) * b.cols))
      overwrite data start (← addRow a b i row))
    (fun i data hi hsize => by
      rw [ha.rows] at hi
      have hi : i < ar := by exact_mod_cast hi
      have hle := row_room c (show i < xr by omega)
      obtain ⟨out, hout⟩ := addRow_progress ha hb hi (data.extract (i * c) ((i + 1) * c))
      have hsmall := hx.small
      have hstart : wrap64 ((i : Int) * c) = ((i * c : Nat) : Int) := by
        rw [show (i : Int) * c = ((i * c : Nat) : Int) by push_cast; rfl,
          wrap64_small (by omega) (by omega)]
      have hin : (0 : Int) ≤ (i * c : Nat) ∧ ((i * c : Nat) : Int) ≤ data.size := by omega
      have hslice : slice data (wrap64 ((i : Int) * b.cols))
          (wrap64 (wrap64 ((i : Int) + 1) * b.cols)) = .ok (data.extract (i * c) ((i + 1) * c)) := by
        rw [hb.cols, slice_row hsize (by omega) (by omega) (by omega), Int.toNat_natCast]
      have hwrite : overwrite data (wrap64 ((i : Int) * b.cols)) out =
          .ok (copyInto data (i * c) out) := by
        rw [hb.cols, hstart]
        exact overwrite_eq_ok.2 ⟨hin, by rw [Int.toNat_natCast]⟩
      exact ⟨_, Outcome.bind_ok hslice (Outcome.bind_ok hout hwrite), by rw [size_copyInto, hsize]⟩)
    hx.size
  unfold mulAdd
  rw [if_neg (by rw [ha.cols, hb.rows]; omega),
    if_neg (by rw [hx.cols, hb.cols, hx.rows, ha.rows]; omega)]
  exact ⟨_, Outcome.bind_ok hdata (Outcome.bind_ok (hacc.wrapAll data) rfl)⟩

/-- The terms of all workers, added in any order, make the product. -/
theorem addTerms_eq (ha : a.Filled ar n) (hb : b.Filled n c) (hx : x.Filled xr c) (har : ar ≤ xr)
    (hacc : acc.Supported) {w : Option Workers} (hw : ∀ v ∈ w, 0 < v.count) {order : List Term}
    (horder : order.Perm (Workers.terms w ar n c)) :
    ∃ data, order.foldlM (addTerm a b) x.data = .ok data ∧
      mulAdd a b x acc = .ok { x with data := data.map acc.wrapped } := by
  rw [Workers.terms_eq hw] at horder
  obtain ⟨data, hdata, hsize, hcells⟩ := addTerms_cells ha hb har hx.small order
    (fun t ht => by
      obtain ⟨i, hi, ht⟩ := List.mem_flatMap.1 (horder.mem_iff.1 ht)
      obtain ⟨p, hp, ht⟩ := List.mem_flatMap.1 ht
      obtain ⟨j, hj, rfl⟩ := List.mem_map.1 ht
      have hi := mem_below.1 hi
      have hp := mem_below.1 hp
      have hj := mem_below.1 hj
      exact ⟨i.toNat, by omega, p.toNat, by omega, j.toNat, by omega, by
        rw [Int.toNat_of_nonneg hi.1, Int.toNat_of_nonneg hp.1, Int.toNat_of_nonneg hj.1]⟩) hx.size
  obtain ⟨m, hm⟩ := mulAdd_progress ha hb hx har hacc
  obtain ⟨hfilled, hmcells⟩ := mulAdd_cells ha hb hx har hacc hm
  obtain ⟨hfilled', hmapped⟩ := hx.mapped acc.wrapped hsize
  refine ⟨data, hdata, hm.trans (congrArg Except.ok (hfilled.ext hfilled' fun i hi j hj => ?_))⟩
  rw [hmcells i hi j hj, hmapped i hi j hj, hcells i j hj, (horder.map _).sum_eq,
    share_terms ha.cols i hj, hx.cell]
  by_cases hlt : i < ar
  · rw [if_pos hlt]
  · rw [if_neg hlt, ha.dot_below (by omega)]

/-- **A product does not depend on the workers**: whatever the ranges are and in whatever order
the terms of all workers are added, the result is that of one loop. -/
theorem mulAddIn_eq (ha : a.Filled ar n) (hb : b.Filled n c) (hx : x.Filled xr c)
    (har : ar ≤ xr) (hacc : acc.Supported) {w : Option Workers} (hw : ∀ v ∈ w, 0 < v.count)
    {order : Int → Int → Int → List Term}
    (horder : ∀ r n c, (order r n c).Perm (Workers.terms w r n c)) :
    mulAddIn order a b x acc = mulAdd a b x acc := by
  obtain ⟨data, hdata, hm⟩ := addTerms_eq ha hb hx har hacc hw (horder ar n c)
  unfold mulAddIn
  rw [if_neg (by rw [ha.cols, hb.rows]; omega),
    if_neg (by rw [hx.cols, hb.cols, hx.rows, ha.rows]; omega), ha.rows, ha.cols, hb.cols, hm]
  exact Outcome.bind_ok hdata (Outcome.bind_ok (hacc.wrapAll data) rfl)

end Order

end Tessera
