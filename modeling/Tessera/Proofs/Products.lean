import Tessera.Proofs.Multiplying
import Tessera.Proofs.Sittings

/-!
# Products of blocks, one after the other

A product of matrices is computed block by block, and every product of blocks wraps what it
adds up. In the end that makes no difference: once all products along the inner dimension
were added to a block, in whatever steps, it holds what the product of the matrices holds
there.

* `Event.term`: what a product of blocks adds to an entry.
* `run_products`: products of blocks change the vectors of their blocks, in order.
* `foldl_row`: products that follow each other add up before they wrap.
* `Shaped.Product.run`, `Shaped.Multiple.run`: the products and the declared operations end in
  the final values.
-/

namespace Tessera

section Run

variable {d : Shaped} {acc : Scalar} {b : Nat}

/-- Row `r` of an accumulator block after a product of blocks. -/
def Event.row (d : Shaped) (acc : Scalar) (r : Nat) (x : Row) : Event → Row
  | .product _ a w => productRow acc d.b.toNat x ((blockOf d.a a).line d.b.toNat r) (blockOf d.w w)
  | .site _ _ => x

/-- What a product of blocks adds to entry `(r, j)`. -/
def Event.term (d : Shaped) (r j : Nat) : Event → Int
  | .product _ a w => ((List.range d.b.toNat).map fun t =>
      (blockOf d.a a).cell d.b.toNat r t * (blockOf d.w w).cell d.b.toNat t j).sum
  | .site _ _ => 0

/-- Events that are products of blocks. -/
def AllProducts (es : List Event) : Prop := ∀ e ∈ es, ∃ c a w, e = .product c a w

theorem Event.row_product (c a w : Int) (r : Nat) (x : Row) :
    (Event.product c a w).row d acc r x = (List.range d.b.toNat).map fun j =>
      acc.wrapped (x.getD j 0 + (Event.product c a w).term d r j) := by
  unfold Event.row productRow Event.term
  refine List.map_congr_left fun j _ => ?_
  refine congrArg (fun s => acc.wrapped (x.getD j 0 + List.sum s)) (List.map_congr_left fun t ht => ?_)
  rw [Block.line, List.getD_eq_getElem?_getD, List.getElem?_map,
    List.getElem?_range (List.mem_range.1 ht)]
  rfl

/-- **A product of blocks** changes the vectors of its block. -/
theorem run_product (hb : 1 ≤ b) (hside : d.b = b) (c a w : Int) (σ : Int → Row) :
    Action.run ((Event.product c a w).actions d acc) σ = .ok fun v =>
      if v / b = c then (Event.product c a w).row d acc (v % b).toNat (σ v) else σ v := by
  -- after the first `n` rows
  have key : ∀ n ≤ b, Action.run ((List.range n).map fun r : Nat => productAction d acc c a w r) σ =
      .ok fun v => if v / b = c ∧ v % b < n then
        (Event.product c a w).row d acc (v % b).toNat (σ v) else σ v := by
    intro n hn
    induction n with
    | zero =>
      refine Action.run_nil.2 (funext fun v => ?_)
      have := Int.emod_nonneg v (show (b : Int) ≠ 0 by omega)
      rw [if_neg (by omega)]
    | succ n ih =>
      obtain ⟨hdiv, hmod⟩ := row_col_ediv (i := c) (show (0 : Int) ≤ n by omega)
        (show (n : Int) < b by omega)
      rw [List.range_succ, List.map_append, List.map_singleton, Action.run_concat]
      refine ⟨_, ih (by omega), Action.apply_eq_ok.2 ⟨_, rfl, funext fun v => ?_⟩⟩
      simp only [productAction, hside]
      by_cases hv : v = c * b + n
      · subst hv
        rw [Function.update_self, hdiv, hmod, if_pos ⟨rfl, by omega⟩, if_neg (by omega),
          Event.row, hside, Int.toNat_natCast, Int.toNat_natCast]
      · rw [Function.update_of_ne hv]
        have hne : v / b = c → v % b ≠ n := by
          intro hc hn
          rw [← Int.mul_ediv_add_emod v b, hc, hn, Int.mul_comm] at hv
          exact hv rfl
        by_cases hin : v / b = c ∧ v % b < n
        · rw [if_pos hin, if_pos ⟨hin.1, by omega⟩]
        · rw [if_neg hin, if_neg]
          rintro ⟨hc, hlt⟩
          exact hin ⟨hc, by have := hne hc; omega⟩
  have hbelow : (below d.b).map (productAction d acc c a w) =
      (List.range b).map fun r : Nat => productAction d acc c a w r := by
    rw [below, hside, Int.toNat_natCast, List.map_map]
    rfl
  rw [Event.actions, hbelow, key b le_rfl]
  refine congrArg Except.ok (funext fun v => ?_)
  have := Int.emod_lt_of_pos v (show (0 : Int) < b by omega)
  simp only [this, and_true]

/-- **Products of blocks** change the vectors of their blocks, in order. -/
theorem run_products (hb : 1 ≤ b) (hside : d.b = b) {es : List Event} (hes : AllProducts es)
    (σ : Int → Row) :
    Action.run (es.flatMap (Event.actions d acc)) σ = .ok fun v =>
      (es.filter (Event.touches b (v / b))).foldl (fun x e => e.row d acc (v % b).toNat x) (σ v) := by
  induction es generalizing σ with
  | nil => exact Action.run_nil.2 rfl
  | cons e es ih =>
    obtain ⟨⟨c, a, w, rfl⟩, hrest⟩ := List.forall_mem_cons.1 hes
    rw [List.flatMap_cons, Action.run_append]
    refine ⟨_, run_product hb hside c a w σ, ?_⟩
    rw [ih hrest]
    refine congrArg Except.ok (funext fun v => ?_)
    rw [List.filter_cons]
    by_cases hc : v / b = c
    · rw [if_pos hc, if_pos (by simpa [Event.touches] using hc.symm), List.foldl_cons]
    · rw [if_neg hc, if_neg (by simpa [Event.touches] using fun h => hc h.symm)]

/-- **Products that follow each other add up before they wrap.** -/
theorem foldl_row {es : List Event} (hne : es ≠ []) (hes : AllProducts es) (r : Nat) (x : Row) :
    es.foldl (fun x e => e.row d acc r x) x = (List.range d.b.toNat).map fun j =>
      acc.wrapped (x.getD j 0 + (es.map (Event.term d r j)).sum) := by
  induction es generalizing x with
  | nil => exact absurd rfl hne
  | cons e es ih =>
    obtain ⟨⟨c, a, w, rfl⟩, hrest⟩ := List.forall_mem_cons.1 hes
    rw [List.foldl_cons]
    rcases List.eq_nil_or_concat es with rfl | ⟨init, last, hlast⟩
    · simp [Event.row_product]
    · rw [ih (by rw [hlast]; simp) hrest, Event.row_product]
      refine List.map_congr_left fun j hj => ?_
      rw [List.getD_eq_getElem?_getD, List.getElem?_map, List.getElem?_range (List.mem_range.1 hj),
        Option.map_some, Option.getD_some, Scalar.wrapped_wrapped_add, List.map_cons, List.sum_cons,
        Int.add_assoc]

end Run

/-- A vector is in one of the first `n` blocks if it is one of their vectors. -/
theorem block_below {b n : Nat} (hb : 1 ≤ b) {v : Int} :
    (0 ≤ v / b ∧ v / b < n) ↔ 0 ≤ v ∧ v < (n : Int) * b := by
  rw [Int.le_ediv_iff_mul_le (by omega), Int.ediv_lt_iff_lt_mul (by omega), Int.zero_mul]

section Forms

variable {d : Shaped} {p : Program} {c : Config} {b xr xc : Nat} {es : List Event}

/-- **Products of blocks and then the declared operations** end in the final values, if the
products on each block add up to the product of the matrices there. -/
theorem Shaped.Common.products_run (hcommon : d.Common p c b xr xc) (hsound : c.Sound b)
    (hform : d.form ≠ .add) (hsecond : d.y = none) {a f : Matrix} {ar ac : Nat} (ha : a.Filled ar ac)
    (hf : f.Filled ac (xc * b)) (har : ar ≤ xr * b)
    (h : ∃ product blocks br bc, mulAdd a f d.x.padded c.acc = .ok product ∧
      product.split b = .ok (blocks, br, bc) ∧ stack blocks b = .ok d.acc)
    (hes : AllProducts es)
    (hin : ∀ n < xr * xc, es.filter (Event.touches b n) ≠ [] ∧ ∀ r < b, ∀ j < b,
      ((es.filter (Event.touches b n)).map (Event.term d r j)).sum =
        a.dot f (n / xc * b + r) (n % xc * b + j))
    (hout : ∀ n : Int, ¬(0 ≤ n ∧ n < (xr * xc : Nat)) → es.filter (Event.touches b n) = []) :
    Action.run ((es ++ d.declared).flatMap (Event.actions d c.acc)) d.initial =
      .ok (rowsOf d.final.data b) := by
  have hb := hsound.pos
  obtain ⟨hcols, hsize, hrows⟩ := hcommon.product_rows hsound hsecond ha hf har h
  have hproducts : Action.run (es.flatMap (Event.actions d c.acc)) d.initial =
      .ok (rowsOf d.acc.data b) := by
    rw [run_products hb hcommon.side hes]
    refine congrArg Except.ok (funext fun v => ?_)
    rw [hrows v]
    by_cases hv : 0 ≤ v ∧ v < (xr * xc * b : Nat)
    · obtain ⟨v, rfl⟩ := Int.eq_ofNat_of_zero_le hv.1
      have hn : v / b < xr * xc := Nat.div_lt_of_lt_mul (by rw [Nat.mul_comm]; omega)
      obtain ⟨hne, hsum⟩ := hin (v / b) hn
      rw [if_pos hv, show (v : Int) / b = ((v / b : Nat) : Int) by push_cast; rfl,
        show (v : Int) % b = ((v % b : Nat) : Int) by push_cast; rfl, Int.toNat_natCast,
        Int.toNat_natCast, foldl_row hne fun e he => hes e (List.mem_of_mem_filter he)]
      rw [hcommon.side, Int.toNat_natCast]
      refine List.map_congr_left fun j hj => ?_
      rw [hsum _ (Nat.mod_lt _ hb) j (List.mem_range.1 hj)]
    · have : ¬(0 ≤ v / b ∧ v / b < (xr * xc : Nat)) := by
        rw [block_below hb]
        exact_mod_cast hv
      rw [if_neg hv, hout _ this]
      rfl
  have hsmall := hcommon.x_regular.vectors_small hcommon.x_rows
  obtain ⟨-, -, hops⟩ := runOps_run hcols hsize (by omega) (fun r hr => hcommon.onVectors hr)
    le_rfl (by rw [if_neg hform]) hcommon.final
  rw [List.flatMap_append, declared_actions]
  exact Action.run_append.2 ⟨_, hproducts, hops⟩

/-- What a product of an input block and a weight block adds, in terms of the matrices. -/
theorem Shaped.Product.term {ac : Nat} {a w : Tensor} (hprod : d.Product c b xr xc ac a w)
    (hside : d.b = b) {i k j : Nat} (hi : i < xr) (hk : k < ac) (hj : j < xc)
    {r e : Nat} (hr : r < b) (he : e < b) :
    (Event.product (i * xc + j) (i * ac + k) (k * xc + j)).term d r e = ((List.range b).map fun t =>
      a.padded.cell (i * b + r) (k * b + t) * w.padded.cell (k * b + t) (j * b + e)).sum := by
  unfold Event.term
  rw [hside, Int.toNat_natCast, hprod.inp, hprod.wgt]
  refine congrArg List.sum (List.map_congr_left fun t ht => ?_)
  have ht := List.mem_range.1 ht
  rw [show (i : Int) * ac + k = ((i * ac + k : Nat) : Int) by push_cast; rfl,
    show (k : Int) * xc + j = ((k * xc + j : Nat) : Int) by push_cast; rfl,
    hprod.a_regular.cell_blockOf (by omega) (by exact_mod_cast index_lt hi hk) hr ht,
    hprod.w_regular.cell_blockOf (by omega) (by exact_mod_cast index_lt hk hj) ht he, Int.toNat_natCast,
    Int.toNat_natCast, row_of_index hk, Nat.mul_add_mod_of_lt hk, row_of_index hj, Nat.mul_add_mod_of_lt hj]

/-- **A product of matrices and then the declared operations**: whatever the order among
blocks, the products on each of them follow the inner dimension. -/
theorem Shaped.Product.run {ac : Nat} {a w : Tensor} (hprod : d.Product c b xr xc ac a w)
    (hcommon : d.Common p c b xr xc) (hsound : c.Sound b) (hes : AllProducts es)
    (hin : ∀ i < xr, ∀ j < xc, es.filter (Event.touches b (i * xc + j)) = productsOf ac xc xc i j)
    (hout : ∀ n : Int, ¬(0 ≤ n ∧ n < (xr * xc : Nat)) → es.filter (Event.touches b n) = []) :
    Action.run ((es ++ d.declared).flatMap (Event.actions d c.acc)) d.initial =
      .ok (rowsOf d.final.data b) := by
  have hac := hprod.a_regular.cols_pos
  have hxc := hcommon.x_regular.cols_pos
  refine hcommon.products_run hsound (by rw [hprod.form]; decide) hprod.second hprod.a_regular.filled
    (hprod.w_regular.filled_rows hprod.w_rows) ?_ hprod.acc hes (fun n hn => ?_) hout
  · have := hprod.a_regular.rows_le
    omega
  have hi : n / xc < xr := Nat.div_lt_of_lt_mul (by rwa [Nat.mul_comm])
  have hj : n % xc < xc := Nat.mod_lt _ hxc
  have hfilter := hin (n / xc) hi (n % xc) hj
  rw [show ((n / xc : Nat) : Int) * xc + (n % xc : Nat) = n by
    exact_mod_cast Nat.div_add_mod' n xc] at hfilter
  rw [hfilter]
  constructor
  · intro hnil
    have : (below (ac : Int)).length = 0 := by
      rw [← List.length_map, ← productsOf, hnil]
      rfl
    simp [below] at this
    omega
  · intro r hr e he
    rw [Matrix.dot, hprod.a_regular.cols, Int.toNat_natCast, sum_blocks, productsOf, below,
      Int.toNat_natCast, List.map_map, List.map_map]
    refine congrArg List.sum (List.map_congr_left fun k hk => ?_)
    exact hprod.term hcommon.side hi (List.mem_range.1 hk) hj hr he

/-- **A multiple of a matrix and then the declared operations**: every block is multiplied
once. -/
theorem Shaped.Multiple.run {scalar : Int} {a w : Tensor} {factor : Matrix}
    (hmult : d.Multiple c b xr xc scalar a w factor) (hcommon : d.Common p c b xr xc)
    (hsound : c.Sound b) (hes : AllProducts es)
    (hin : ∀ n < xr * xc, es.filter (Event.touches b n) = [.product n n 0])
    (hout : ∀ n : Int, ¬(0 ≤ n ∧ n < (xr * xc : Nat)) → es.filter (Event.touches b n) = []) :
    Action.run ((es ++ d.declared).flatMap (Event.actions d c.acc)) d.initial =
      .ok (rowsOf d.final.data b) := by
  have hweight := constantWeight_diagonal hmult.weight
  obtain ⟨k, hk, hblocks⟩ := hweight.block
  obtain ⟨whole, hwhole, rfl⟩ := hweight.matrix
  refine hcommon.products_run hsound (by rw [hmult.form]; decide) hmult.second
    hmult.a_regular.filled (filled_diagonal hwhole) ?_ hmult.acc hes (fun n hn => ?_) hout
  · have := hmult.a_regular.rows_le
    omega
  rw [hin n hn]
  refine ⟨by simp, fun r hr e he => ?_⟩
  have hxc := hcommon.x_regular.cols_pos
  have hcol : n % xc * b + e < xc * b := index_lt (Nat.mod_lt _ hxc) (by omega)
  rw [dot_diagonal hmult.a_regular.cols hwhole _ hcol, List.map_singleton, List.sum_singleton,
    Event.term, hcommon.side, Int.toNat_natCast, hmult.inp, hmult.wgt]
  -- of the row of the weight only one entry is not zero
  have hrow : ∀ t < b, (blockOf (some w) 0).cell b t e = if t = e then scalar else 0 := by
    intro t ht
    rw [blockOf, Option.bind_some, hblocks]
    exact (diagonal_cells hk).2 t ht e he
  have hmap : ((List.range b).map fun t => (blockOf (some a) n).cell b r t *
      (blockOf (some w) 0).cell b t e) =
      (List.range b).map fun t => (blockOf (some a) n).cell b r t * if t = e then scalar else 0 :=
    List.map_congr_left fun t ht => by rw [hrow t (List.mem_range.1 ht)]
  rw [hmap, sum_single _ _ he, hmult.a_regular.cell_blockOf (by omega) (by exact_mod_cast hn) hr he,
    Int.toNat_natCast]

end Forms

end Tessera
