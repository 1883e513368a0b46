import Tessera.Proofs.Blocks
import Tessera.Proofs.Hardware
import Tessera.Proofs.Naming
import Tessera.Shaped

/-!
# What shaping makes of a program

A shaped program is opened once here; later proofs read what it is like from
these structures and never open `Shaped.build` again.

* `Program.WordSized`: the declared shapes are machine words.
* `materialise_proper`: every declared matrix has a value of its shape.
* `Shaped.Common`: what shaping makes of every program.
* `Shaped.Product`, `Shaped.Multiple`, `Shaped.Plain`, `Shaped.Sum`: the tensors
  of the four forms.
* `Shaped.finish`, `finish_common`: what follows once the operands are known.
* `build_form`, `build_formed`: which form a program has, and what it is made of.
-/

namespace Tessera

/-- The shapes a program declares are machine words. -/
def Program.WordSized (p : Program) : Prop :=
  ∀ m ∈ p.matrices, wrap64 m.rows = m.rows ∧ wrap64 m.cols = m.cols

instance (p : Program) : Decidable p.WordSized := inferInstanceAs (Decidable (∀ _ ∈ _, _))

/-- A matrix with rows and columns, whose number of columns is a word. -/
structure Matrix.Proper (m : Matrix) : Prop where
  rows_pos : 1 ≤ m.rows
  cols_pos : 1 ≤ m.cols
  cols_lt : m.cols < 9223372036854775808

theorem checkMatrices_shape {seen : List String} {ms : List Declared}
    (h : Program.checkMatrices seen ms = .ok ()) :
    ∀ m ∈ ms, 1 ≤ m.rows ∧ 1 ≤ m.cols ∧ ∀ d, m.data = some d → d.rows = m.rows ∧ d.cols = m.cols := by
  induction ms generalizing seen with
  | nil => simp
  | cons m ms ih =>
    unfold Program.checkMatrices at h
    simp only [Outcome.refused_eq_ok] at h
    obtain ⟨hpos, -, h⟩ := h
    intro m' hm'
    cases hd : m.data with
    | none =>
      rw [hd] at h
      rcases List.mem_cons.1 hm' with rfl | hm'
      · exact ⟨by omega, by omega, fun d hd' => by rw [hd] at hd'; cases hd'⟩
      · exact ih h m' hm'
    | some d =>
      rw [hd] at h
      simp only [Outcome.refused_eq_ok] at h
      obtain ⟨hshape, h⟩ := h
      rcases List.mem_cons.1 hm' with rfl | hm'
      · refine ⟨by omega, by omega, fun d' hd' => ?_⟩
        rw [hd] at hd'
        obtain rfl := Option.some.inj hd'
        exact ⟨by omega, by omega⟩
      · exact ih h m' hm'

/-- **Every declared matrix has a value of its shape.** -/
theorem materialise_proper {p : Program} {c : Config} {roles : Roles}
    {values : List (String × Matrix)} (hcheck : Program.checkMatrices [] p.matrices = .ok ())
    (hword : p.WordSized) (h : Shaped.materialise p c roles = .ok values) :
    (∀ q ∈ values, q.2.Proper) ∧ ∀ m ∈ p.matrices, ∃ q ∈ values, q.1 = m.name := by
  unfold Shaped.materialise at h
  obtain ⟨⟨vs, g⟩, hfold, h⟩ := Outcome.bind_eq_ok.1 h
  obtain rfl := Outcome.pure_eq_ok.1 h
  have hshape := checkMatrices_shape hcheck
  have hproper : ∀ m ∈ p.matrices, ∀ d : Matrix, d.rows = m.rows → d.cols = m.cols → d.Proper := by
    intro m hm d hr hc
    have h1 := hshape m hm
    have h2 := (hword m hm).2 ▸ wrap64_range m.cols
    exact ⟨by omega, by omega, by omega⟩
  -- the fold keeps: a proper value for each matrix done
  have := foldlM_invariant (fun done rest (s : List (String × Matrix) × Random.Generator) =>
    (∀ m ∈ done ++ rest, m ∈ p.matrices) ∧ (∀ q ∈ s.1, q.2.Proper) ∧
      ∀ m ∈ done, ∃ q ∈ s.1, q.1 = m.name) ?_ [] p.matrices _ _ (by simp) hfold
  · exact ⟨this.2.1, fun m hm => this.2.2 m (by simpa using hm)⟩
  rintro done m rest ⟨s, g⟩ ⟨s', g'⟩ ⟨hin, hp, hd⟩ hstep
  have hm : m ∈ p.matrices := hin m (by simp)
  -- either way the entry added carries the name and the shape of the matrix
  obtain ⟨d, hr, hc, rfl⟩ : ∃ d : Matrix, d.rows = m.rows ∧ d.cols = m.cols ∧
      s' = (m.name, d) :: s := by
    cases hdata : m.data with
    | some d =>
      simp only [hdata, Outcome.pure_eq_ok, Prod.mk.injEq] at hstep
      obtain ⟨h1, h2⟩ := (hshape m hm).2.2 d hdata
      exact ⟨d, h1, h2, hstep.1.symm⟩
    | none =>
      simp only [hdata, Outcome.bind_eq_ok, Outcome.pure_eq_ok, Prod.mk.injEq] at hstep
      obtain ⟨lo, -, hi, -, n, -, hs', -⟩ := hstep
      exact ⟨_, rfl, rfl, hs'.symm⟩
  refine ⟨by simpa using hin, fun q hq => ?_, fun m' hm' => ?_⟩
  · rcases List.mem_cons.1 hq with rfl | hq
    · exact hproper m hm d hr hc
    · exact hp q hq
  · rcases List.mem_append.1 hm' with hm' | hm'
    · obtain ⟨q, hq, he⟩ := hd m' hm'
      exact ⟨q, List.mem_cons_of_mem _ hq, he⟩
    · rw [List.mem_singleton.1 hm']
      exact ⟨_, List.mem_cons_self, rfl⟩

theorem lookup_proper {values : List (String × Matrix)} {name : String} {m : Matrix}
    (hp : ∀ q ∈ values, q.2.Proper) (h : values.lookup name = some m) : m.Proper := by
  obtain ⟨l, r, rfl, -⟩ := List.lookup_eq_some_iff.1 h
  exact hp (name, m) (by simp)

theorem valueOf_proper {values : List (String × Matrix)} {name : String}
    (hp : ∀ q ∈ values, q.2.Proper) (h : ∃ q ∈ values, q.1 = name) :
    (Shaped.valueOf values name).Proper := by
  obtain ⟨q, hq, rfl⟩ := h
  cases hl : values.lookup q.1 with
  | none =>
    have := List.lookup_eq_none_iff.1 hl q hq
    simp at this
  | some m =>
    rw [Shaped.valueOf, hl]
    exact lookup_proper hp hl

/-- A matrix that is required by its canonical name is declared under it. -/
theorem require_declared {p : Program} {name : String}
    (h : p.require (Text.canonical name) = .ok ()) :
    ∃ m ∈ p.matrices, m.name = Text.canonical name := by
  unfold Program.require at h
  split at h
  · rename_i hs
    obtain ⟨m, hm⟩ := Option.isSome_iff_exists.1 hs
    refine ⟨m, List.mem_of_find?_eq_some hm, ?_⟩
    have := List.find?_some hm
    rw [Text.canonical_canonical] at this
    exact of_decide_eq_true this
  · simp at h

/-- Where the matrices of the roles come from. -/
structure Program.Roled (p : Program) (roles : Roles) : Prop where
  product : ∀ g, p.gemm = some g → (∃ m ∈ p.matrices, m.name = roles.input) ∧
    (g.constant = false → ∃ m ∈ p.matrices, m.name = roles.weight)
  plain : p.gemm = none → ∃ m ∈ p.matrices, m.name = roles.accumulator
  second : roles.addAccumulator = if p.addsAccumulators then addAccumulatorName else ""
  secondDeclared : p.addsAccumulators → ∃ m ∈ p.matrices, m.name = addAccumulatorName

theorem canonical_accumulatorName : Text.canonical accumulatorName = accumulatorName := by
  decide +kernel

theorem canonical_addAccumulatorName :
    Text.canonical addAccumulatorName = addAccumulatorName := by
  decide +kernel

theorem accumulatorRole_declared {p : Program} {name : String}
    (h : p.accumulatorRole = .ok name) : ∃ m ∈ p.matrices, m.name = name := by
  unfold Program.accumulatorRole at h
  split at h
  · rename_i hs
    obtain rfl := Except.ok.inj h
    obtain ⟨m, hm⟩ := Option.isSome_iff_exists.1 hs
    refine ⟨m, List.mem_of_find?_eq_some hm, ?_⟩
    have := List.find?_some hm
    rw [canonical_accumulatorName] at this
    exact of_decide_eq_true this
  · split at h
    · rename_i only heq
      obtain rfl := Except.ok.inj h
      have : only ∈ p.matrices.map (·.name) := List.mem_of_mem_filter (heq ▸ List.mem_singleton_self _)
      simpa using this
    · simp at h

theorem gemmRoles_declared {p : Program} {g : Gemm} {roles : Roles}
    (h : p.gemmRoles g = .ok roles) :
    (∃ m ∈ p.matrices, m.name = roles.input) ∧
      (g.constant = false → ∃ m ∈ p.matrices, m.name = roles.weight) ∧
      roles.addAccumulator = "" := by
  unfold Program.gemmRoles at h
  simp only at h
  obtain ⟨⟨⟩, hin, h⟩ := Outcome.bind_eq_ok.1 h
  have hin := require_declared hin
  cases hk : g.constant with
  | true =>
    simp only [hk, Bool.not_true, Bool.false_eq_true, if_false, if_true] at h
    split at h
    · obtain rfl := Outcome.pure_eq_ok.1 h
      exact ⟨hin, by simp, rfl⟩
    · obtain ⟨_, -, h⟩ := Outcome.bind_eq_ok.1 h
      obtain rfl := Outcome.pure_eq_ok.1 h
      exact ⟨hin, by simp, rfl⟩
  | false =>
    simp only [hk, Bool.not_false, Bool.false_eq_true, if_false, if_true] at h
    obtain ⟨⟨⟩, hw, h⟩ := Outcome.bind_eq_ok.1 h
    have hw := require_declared hw
    split at h
    · obtain rfl := Outcome.pure_eq_ok.1 h
      exact ⟨hin, fun _ => hw, rfl⟩
    · obtain ⟨_, -, h⟩ := Outcome.bind_eq_ok.1 h
      obtain rfl := Outcome.pure_eq_ok.1 h
      exact ⟨hin, fun _ => hw, rfl⟩

/-- **The matrices of all roles that are played are declared.** -/
theorem roles_declared {p : Program} {roles : Roles} (h : p.roles = .ok roles) :
    p.Roled roles := by
  -- the roles before the second accumulator is looked at
  obtain ⟨r, ⟨h1, h2, h3⟩, h⟩ : ∃ r : Roles,
      ((∀ g, p.gemm = some g → (∃ m ∈ p.matrices, m.name = r.input) ∧
        (g.constant = false → ∃ m ∈ p.matrices, m.name = r.weight)) ∧
        (p.gemm = none → ∃ m ∈ p.matrices, m.name = r.accumulator) ∧ r.addAccumulator = "") ∧
      (if p.addsAccumulators then do
        p.require addAccumulatorName
        return { r with addAccumulator := addAccumulatorName }
      else return r) = Except.ok roles := by
    unfold Program.roles at h
    cases hg : p.gemm with
    | some g =>
      rw [hg] at h
      obtain ⟨r, hr, h⟩ := Outcome.bind_eq_ok.1 h
      obtain ⟨h1, h2, h3⟩ := gemmRoles_declared hr
      exact ⟨r, ⟨fun g' hg' => by obtain rfl := Option.some.inj hg'; exact ⟨h1, h2⟩, by simp, h3⟩, h⟩
    | none =>
      rw [hg] at h
      obtain ⟨name, hname, h⟩ := Outcome.bind_eq_ok.1 h
      exact ⟨_, ⟨by simp, fun _ => accumulatorRole_declared hname, rfl⟩, h⟩
  split at h
  · rename_i hadd
    obtain ⟨⟨⟩, hreq, h⟩ := Outcome.bind_eq_ok.1 h
    obtain rfl := Outcome.pure_eq_ok.1 h
    rw [← canonical_addAccumulatorName] at hreq
    have := require_declared hreq
    rw [canonical_addAccumulatorName] at this
    exact ⟨h1, h2, by rw [if_pos hadd], fun _ => this⟩
  · rename_i hadd
    obtain rfl := Outcome.pure_eq_ok.1 h
    exact ⟨h1, h2, by rw [if_neg hadd]; exact h3, fun h => absurd h hadd⟩

/-- The checks of a program that need no configuration: proper matrices, and a sum
of accumulators that stands alone. -/
theorem validate_checks {p : Program} (h : p.validate = .ok ()) :
    Program.checkMatrices [] p.matrices = .ok () ∧ Program.checkImmediates p.alu = .ok () ∧
      (p.addsAccumulators = true → p.gemm = none ∧ p.alu = [.addAccumulators]) := by
  unfold Program.validate at h
  obtain ⟨⟨⟩, hm, h⟩ := Outcome.bind_eq_ok.1 h
  simp only [Outcome.complained_eq_ok, Outcome.refused_eq_ok] at h
  obtain ⟨-, -, h⟩ := h
  by_cases hadd : p.addsAccumulators = true
  · rw [if_pos hadd] at h
    simp only [Outcome.refused_eq_ok] at h
    obtain ⟨hg, hlen, h⟩ := h
    obtain ⟨⟨⟩, himm, -⟩ := Outcome.bind_eq_ok.1 h
    refine ⟨hm, himm, fun _ => ⟨by simpa using hg, ?_⟩⟩
    obtain ⟨e, he⟩ := List.length_eq_one_iff.1 (not_not.1 hlen)
    rw [he]
    have : p.alu.any (· = .addAccumulators) = true := hadd
    rw [he] at this
    simpa using this
  · rw [if_neg hadd] at h
    obtain ⟨⟨⟩, himm, -⟩ := Outcome.bind_eq_ok.1 h
    exact ⟨hm, himm, fun h => absurd h hadd⟩

/-- The tensors and the product that `gemmOperands` makes, with the weight `w` as a
tensor and as the matrix `factor`. -/
structure Operands.Multiplied (o : Shaped.Operands) (p : Program) (g : Gemm) (c : Config) (b : Int)
    (input : Matrix) (a w : Tensor) (factor : Matrix) (cols : Int) : Prop where
  form : o.form = if g.constant then .constant else .gemm
  inp : o.a = some a
  wgt : o.w = some w
  second : o.y = none
  inpTensor : ∃ name, Tensor.ofMatrix .inp name input c.inp b (!p.nonSquareInput) = .ok a
  accTensor : ∃ name x, x.rows = input.rows ∧ x.cols = cols ∧
    Tensor.ofMatrix .acc name x c.acc b true = .ok o.x
  product : ∃ product blocks br bc, mulAdd a.padded factor o.x.padded c.acc = .ok product ∧
    product.split b = .ok (blocks, br, bc) ∧ stack blocks b = .ok o.acc

theorem gemmOperands_multiplied {p : Program} {g : Gemm} {c : Config} {b : Int} {roles : Roles}
    {values : List (String × Matrix)} {o : Shaped.Operands}
    (h : Shaped.gemmOperands p g c b roles values = .ok o) :
    ∃ a w factor cols,
      Operands.Multiplied o p g c b (Shaped.valueOf values roles.input) a w factor cols ∧
      (g.constant = true → Shaped.constantWeight c b a.padded.cols g.scalar = .ok (w, factor) ∧
        cols = (Shaped.valueOf values roles.input).cols) ∧
      (g.constant = false → factor = w.padded ∧ cols = (Shaped.valueOf values roles.weight).cols ∧
        Shaped.matrixWeight c roles b (Shaped.valueOf values roles.input) a
          (Shaped.valueOf values roles.weight) = .ok w) := by
  unfold Shaped.gemmOperands at h
  simp only at h
  obtain ⟨a, ha, h⟩ := Outcome.bind_eq_ok.1 h
  split at h
  · rename_i hk
    obtain ⟨⟨w, factor⟩, hw, h⟩ := Outcome.bind_eq_ok.1 h
    refine ⟨a, w, factor, _, ?_, fun _ => ⟨hw, rfl⟩, fun hf => by rw [hk] at hf; cases hf⟩
    obtain ⟨_, hq, h⟩ := Outcome.bind_eq_ok.1 h
    obtain rfl := Outcome.pure_eq_ok.1 hq
    split at h
    all_goals
      simp only [Outcome.refused_eq_ok, Outcome.bind_eq_ok, Outcome.within_eq_ok,
        Outcome.pure_eq_ok] at h
    · obtain ⟨_, rfl, hx, t, ht, product, hp, ⟨blocks, br, bc⟩, hs, acc, hacc, rfl⟩ := h
      exact ⟨by rw [hk]; rfl, rfl, rfl, rfl, ⟨_, ha⟩, ⟨_, _, by omega, by omega, ht⟩,
        ⟨product, blocks, br, bc, hp, hs, hacc⟩⟩
    · obtain ⟨_, -, _, rfl, hx, t, ht, product, hp, ⟨blocks, br, bc⟩, hs, acc, hacc, rfl⟩ := h
      exact ⟨by rw [hk]; rfl, rfl, rfl, rfl, ⟨_, ha⟩, ⟨_, _, by omega, by omega, ht⟩,
        ⟨product, blocks, br, bc, hp, hs, hacc⟩⟩
  · rename_i hk
    obtain ⟨w, hw, h⟩ := Outcome.bind_eq_ok.1 h
    refine ⟨a, w, w.padded, _, ?_, fun hf => absurd hf hk, fun _ => ⟨rfl, rfl, hw⟩⟩
    obtain ⟨_, hq, h⟩ := Outcome.bind_eq_ok.1 h
    obtain rfl := Outcome.pure_eq_ok.1 hq
    split at h
    all_goals
      simp only [Outcome.refused_eq_ok, Outcome.bind_eq_ok, Outcome.within_eq_ok,
        Outcome.pure_eq_ok] at h
    · obtain ⟨_, rfl, hx, t, ht, product, hp, ⟨blocks, br, bc⟩, hs, acc, hacc, rfl⟩ := h
      exact ⟨by rw [if_neg hk], rfl, rfl, rfl, ⟨_, ha⟩, ⟨_, _, by omega, by omega, ht⟩,
        ⟨product, blocks, br, bc, hp, hs, hacc⟩⟩
    · obtain ⟨_, -, _, rfl, hx, t, ht, product, hp, ⟨blocks, br, bc⟩, hs, acc, hacc, rfl⟩ := h
      exact ⟨by rw [if_neg hk], rfl, rfl, rfl, ⟨_, ha⟩, ⟨_, _, by omega, by omega, ht⟩,
        ⟨product, blocks, br, bc, hp, hs, hacc⟩⟩

/-- What shaping makes of every program: an accumulator of `xr` times `xc` blocks
of side `b`, the operations on its vectors, and their result. -/
structure Shaped.Common (d : Shaped) (p : Program) (c : Config) (b xr xc : Nat) : Prop where
  side : d.b = b
  x_regular : d.x.Regular b xr xc
  x_rows : d.x.padded.rows = (xr * b : Nat)
  x_role : d.x.role = .acc
  x_scalar : d.x.scalar = c.acc
  ops : resolve p.alu (xr * xc * b : Nat) = .ok d.ops
  immediates : Program.checkImmediates p.alu = .ok ()
  alone : p.addsAccumulators = true → p.alu = [.addAccumulators]
  adds : d.form = .add ↔ p.addsAccumulators = true
  final : runOps d.acc d.ops c.acc = .ok d.final
  mask : d.storeMask = resultVectors d.form (xr * xc * b : Nat) d.ops
  output : Shaped.outputTensor c b p.clip d.x d.final = .ok d.c
  vectorStore : d.vectorStore = (decide (d.form = .alu) && d.ops.any (·.isVector))

/-- A product of matrices: `xr` times `ac` blocks of input and `ac` times `xc` of
weight. -/
structure Shaped.Product (d : Shaped) (c : Config) (b xr xc ac : Nat) (a w : Tensor) : Prop where
  form : d.form = .gemm
  inp : d.a = some a
  wgt : d.w = some w
  second : d.y = none
  a_regular : a.Regular b xr ac
  a_role : a.role = .inp
  a_scalar : a.scalar = c.inp
  w_regular : w.Regular b ac xc
  w_rows : w.padded.rows = (ac * b : Nat)
  w_role : w.role = .wgt
  w_scalar : w.scalar = c.wgt
  acc : ∃ product blocks br bc, mulAdd a.padded w.padded d.x.padded c.acc = .ok product ∧
    product.split b = .ok (blocks, br, bc) ∧ stack blocks b = .ok d.acc

/-- A multiple of a matrix, whose weight is one diagonal block. -/
structure Shaped.Multiple (d : Shaped) (c : Config) (b xr xc : Nat) (scalar : Int) (a w : Tensor)
    (factor : Matrix) : Prop where
  form : d.form = .constant
  inp : d.a = some a
  wgt : d.w = some w
  second : d.y = none
  a_regular : a.Regular b xr xc
  a_role : a.role = .inp
  a_scalar : a.scalar = c.inp
  weight : Shaped.constantWeight c b (xc * b : Nat) scalar = .ok (w, factor)
  acc : ∃ product blocks br bc, mulAdd a.padded factor d.x.padded c.acc = .ok product ∧
    product.split b = .ok (blocks, br, bc) ∧ stack blocks b = .ok d.acc

/-- An accumulator and no product. -/
structure Shaped.Plain (d : Shaped) (b : Nat) : Prop where
  form : d.form = .alu
  inp : d.a = none
  wgt : d.w = none
  second : d.y = none
  acc : stack d.x.blocks.toList b = .ok d.acc

/-- Two accumulators of one shape. -/
structure Shaped.Sum (d : Shaped) (c : Config) (b xr xc : Nat) (y : Tensor) : Prop where
  form : d.form = .add
  inp : d.a = none
  wgt : d.w = none
  second : d.y = some y
  y_regular : y.Regular b xr xc
  y_rows : y.padded.rows = (xr * b : Nat)
  y_role : y.role = .accBis
  y_scalar : y.scalar = c.acc
  acc : stack (d.x.blocks.toList ++ y.blocks.toList) b = .ok d.acc

/-- The tensors of a program, by its form. -/
inductive Shaped.Formed (d : Shaped) (c : Config) (b xr xc : Nat) : Prop
  | product (ac : Nat) (a w : Tensor) : d.Product c b xr xc ac a w → d.Formed c b xr xc
  | multiple (scalar : Int) (a w : Tensor) (factor : Matrix) :
    d.Multiple c b xr xc scalar a w factor → d.Formed c b xr xc
  | plain : d.Plain b → d.Formed c b xr xc
  | sum (y : Tensor) : d.Sum c b xr xc y → d.Formed c b xr xc

namespace Shaped.Formed

variable {d : Shaped} {c : Config} {b xr xc : Nat}

/-- The form tells a product from the other programs. -/
theorem product_of_form (h : d.Formed c b xr xc) (hform : d.form = .gemm) :
    ∃ ac a w, d.Product c b xr xc ac a w := by
  cases h with
  | product ac a w h => exact ⟨ac, a, w, h⟩
  | multiple _ _ _ _ h => rw [h.form] at hform; cases hform
  | plain h => rw [h.form] at hform; cases hform
  | sum _ h => rw [h.form] at hform; cases hform

/-- The form tells operations alone from the other programs. -/
theorem plain_of_form (h : d.Formed c b xr xc) (hform : d.form = .alu) : d.Plain b := by
  cases h with
  | product _ _ _ h => rw [h.form] at hform; cases hform
  | multiple _ _ _ _ h => rw [h.form] at hform; cases hform
  | plain h => exact h
  | sum _ h => rw [h.form] at hform; cases hform

/-- The form tells a sum from the other programs. -/
theorem sum_of_form (h : d.Formed c b xr xc) (hform : d.form = .add) :
    ∃ y, d.Sum c b xr xc y := by
  cases h with
  | product _ _ _ h => rw [h.form] at hform; cases hform
  | multiple _ _ _ _ h => rw [h.form] at hform; cases hform
  | plain h => rw [h.form] at hform; cases hform
  | sum y h => exact ⟨y, h⟩

end Shaped.Formed

/-- The weight of a product has the block rows that the input has columns. -/
theorem matrixWeight_regular {c : Config} {roles : Roles} {b : Nat} {input : Matrix} {a : Tensor}
    {m : Matrix} {w : Tensor} (hb : 1 ≤ b) (hb' : b ≤ 64) (hm : m.Proper)
    (h : Shaped.matrixWeight c roles b input a m = .ok w) :
    m.rows = input.cols ∧ ∃ br bc : Nat, w.Regular b br bc ∧ (br : Int) = (m.rows + b - 1) / b ∧
      (bc : Int) = (m.cols + b - 1) / b ∧ w.padded.rows = (br * b : Nat) ∧ w.role = .wgt ∧
      w.scalar = c.wgt := by
  unfold Shaped.matrixWeight at h
  simp only [Outcome.refused_eq_ok, Outcome.bind_eq_ok, Outcome.pure_eq_ok] at h
  obtain ⟨hrows, t, ht, -, rfl⟩ := h
  obtain ⟨br, bc, hreg, hbr, hbc, hpad, hrole, -, hscalar, -, -⟩ :=
    ofMatrix_regular hb hb' hm.rows_pos hm.cols_pos hm.cols_lt ht
  exact ⟨not_not.1 hrows, br, bc, hreg, hbr, hbc, by simpa using hpad, hrole, hscalar⟩

/-- The blocks of a product of matrices belong together. -/
theorem multiplied_product {o : Shaped.Operands} {p : Program} {g : Gemm} {c : Config} {b : Nat}
    {input m : Matrix} {a w : Tensor} {roles : Roles} (hb : 1 ≤ b) (hb' : b ≤ 64)
    (hi : input.Proper) (hm : m.Proper)
    (h : Operands.Multiplied o p g c b input a w w.padded m.cols)
    (hw : Shaped.matrixWeight c roles b input a m = .ok w) :
    ∃ xr xc ac : Nat, a.Regular b xr ac ∧ a.role = .inp ∧ a.scalar = c.inp ∧ w.Regular b ac xc ∧
      w.padded.rows = (ac * b : Nat) ∧ w.role = .wgt ∧ w.scalar = c.wgt ∧ o.x.Regular b xr xc ∧
      o.x.padded.rows = (xr * b : Nat) ∧ o.x.role = .acc ∧ o.x.scalar = c.acc := by
  obtain ⟨hrows, wr, wc, hwreg, hwr, hwc, hwpad, hwrole, hwscalar⟩ :=
    matrixWeight_regular hb hb' hm hw
  obtain ⟨_, hin⟩ := h.inpTensor
  obtain ⟨_, x, hxr, hxc, hx⟩ := h.accTensor
  obtain ⟨ar, ac, hareg, har, hac, -, harole, -, hascalar, -, -⟩ :=
    ofMatrix_regular hb hb' hi.rows_pos hi.cols_pos hi.cols_lt hin
  obtain ⟨xr, xc, hxreg, hxr', hxc', hxpad, hxrole, -, hxscalar, -, -⟩ :=
    ofMatrix_regular hb hb' (hxr ▸ hi.rows_pos) (hxc ▸ hm.cols_pos) (hxc ▸ hm.cols_lt) hx
  -- equal lengths take equally many blocks
  have h1 : ar = xr := by rw [hxr, ← har] at hxr'; exact_mod_cast hxr'.symm
  have h2 : wc = xc := by rw [hxc, ← hwc] at hxc'; exact_mod_cast hxc'.symm
  have h3 : wr = ac := by rw [hrows, ← hac] at hwr; exact_mod_cast hwr
  subst h1 h2 h3
  exact ⟨ar, wc, wr, hareg, harole, hascalar, hwreg, hwpad, hwrole, hwscalar, hxreg,
    by simpa using hxpad, hxrole, hxscalar⟩

/-- A multiple of a matrix has the blocks of the matrix. -/
theorem multiplied_multiple {o : Shaped.Operands} {p : Program} {g : Gemm} {c : Config} {b : Nat}
    {input factor : Matrix} {a w : Tensor} (hb : 1 ≤ b) (hb' : b ≤ 64) (hi : input.Proper)
    (h : Operands.Multiplied o p g c b input a w factor input.cols) :
    ∃ xr xc : Nat, a.Regular b xr xc ∧ a.role = .inp ∧ a.scalar = c.inp ∧ o.x.Regular b xr xc ∧
      o.x.padded.rows = (xr * b : Nat) ∧ o.x.role = .acc ∧ o.x.scalar = c.acc := by
  obtain ⟨_, hin⟩ := h.inpTensor
  obtain ⟨_, x, hxr, hxc, hx⟩ := h.accTensor
  obtain ⟨ar, ac, hareg, har, hac, -, harole, -, hascalar, -, -⟩ :=
    ofMatrix_regular hb hb' hi.rows_pos hi.cols_pos hi.cols_lt hin
  obtain ⟨xr, xc, hxreg, hxr', hxc', hxpad, hxrole, -, hxscalar, -, -⟩ :=
    ofMatrix_regular hb hb' (hxr ▸ hi.rows_pos) (hxc ▸ hi.cols_pos) (hxc ▸ hi.cols_lt) hx
  have h1 : ar = xr := by rw [hxr, ← har] at hxr'; exact_mod_cast hxr'.symm
  have h2 : ac = xc := by rw [hxc, ← hac] at hxc'; exact_mod_cast hxc'.symm
  subst h1 h2
  exact ⟨ar, ac, hareg, harole, hascalar, hxreg, by simpa using hxpad, hxrole, hxscalar⟩

/-- The vectors of a regular tensor are few enough to be counted in a word. -/
theorem Tensor.Regular.vectors_small {t : Tensor} {b br bc : Nat} (h : t.Regular b br bc)
    (hrows : t.padded.rows = (br * b : Nat)) :
    br * bc * b * b ≤ 35184372088832 := by
  have := h.small
  rw [hrows, h.cols] at this
  have h1 : ((br * b : Nat) : Int) * (bc * b : Nat) = ((br * bc * b * b : Nat) : Int) := by
    push_cast; ring
  rw [h1] at this
  exact_mod_cast this

theorem plainOperands_formed {p : Program} {c : Config} {b : Nat} {roles : Roles}
    {values : List (String × Matrix)} {o : Shaped.Operands} (hb : 1 ≤ b) (hb' : b ≤ 64)
    (hx : (Shaped.valueOf values roles.accumulator).Proper)
    (h : Shaped.plainOperands p c b roles values = .ok o) :
    ∃ xr xc : Nat, o.x.Regular b xr xc ∧ o.x.padded.rows = (xr * b : Nat) ∧ o.x.role = .acc ∧
      o.x.scalar = c.acc ∧ o.a = none ∧ o.w = none ∧
      (o.form = if p.addsAccumulators then .add else .alu) ∧
      (roles.addAccumulator = "" → o.y = none ∧ stack o.x.blocks.toList b = .ok o.acc) ∧
      (roles.addAccumulator ≠ "" → ∃ y, o.y = some y ∧ y.Regular b xr xc ∧
        y.padded.rows = (xr * b : Nat) ∧ y.role = .accBis ∧ y.scalar = c.acc ∧
        stack (o.x.blocks.toList ++ y.blocks.toList) b = .ok o.acc) := by
  unfold Shaped.plainOperands at h
  obtain ⟨t, ht, h⟩ := Outcome.bind_eq_ok.1 h
  obtain ⟨xr, xc, hreg, hxr, hxc, hpad, hrole, -, hscalar, -, -⟩ :=
    ofMatrix_regular hb hb' hx.rows_pos hx.cols_pos hx.cols_lt ht
  have hpad : t.padded.rows = (xr * b : Nat) := by simpa using hpad
  split at h
  · rename_i hnone
    simp only [Outcome.bind_eq_ok, Outcome.pure_eq_ok] at h
    obtain ⟨acc, hacc, rfl⟩ := h
    exact ⟨xr, xc, hreg, hpad, hrole, hscalar, rfl, rfl, rfl, fun _ => ⟨rfl, hacc⟩,
      fun hne => absurd hnone hne⟩
  · rename_i hsome
    simp only [Outcome.refused_eq_ok, Outcome.bind_eq_ok, Outcome.pure_eq_ok] at h
    obtain ⟨hshape, u, hu, acc, hacc, rfl⟩ := h
    obtain ⟨yr, yc, hyreg, hyr, hyc, hypad, hyrole, -, hyscalar, -, -⟩ :=
      ofMatrix_regular hb hb' (by have := hx.rows_pos; omega) (by have := hx.cols_pos; omega)
        (by have := hx.cols_lt; omega) hu
    have h1 : yr = xr := by
      rw [show (Shaped.valueOf values roles.addAccumulator).rows =
        (Shaped.valueOf values roles.accumulator).rows by omega, ← hxr] at hyr
      exact_mod_cast hyr
    have h2 : yc = xc := by
      rw [show (Shaped.valueOf values roles.addAccumulator).cols =
        (Shaped.valueOf values roles.accumulator).cols by omega, ← hxc] at hyc
      exact_mod_cast hyc
    subst h1 h2
    exact ⟨yr, yc, hreg, hpad, hrole, hscalar, rfl, rfl, rfl, fun hn => absurd hn hsome,
      fun _ => ⟨u, rfl, hyreg, by simpa using hypad, hyrole, hyscalar, hacc⟩⟩

theorem plainOperands_form {p : Program} {c : Config} {b : Int} {roles : Roles}
    {values : List (String × Matrix)} {o : Shaped.Operands}
    (h : Shaped.plainOperands p c b roles values = .ok o) :
    o.form = if p.addsAccumulators then .add else .alu := by
  unfold Shaped.plainOperands at h
  obtain ⟨t, -, h⟩ := Outcome.bind_eq_ok.1 h
  split at h
  · obtain ⟨acc, -, h⟩ := Outcome.bind_eq_ok.1 h
    obtain rfl := Outcome.pure_eq_ok.1 h
    rfl
  · simp only [Outcome.refused_eq_ok, Outcome.bind_eq_ok, Outcome.pure_eq_ok] at h
    obtain ⟨-, u, -, acc, -, rfl⟩ := h
    rfl

/-- **What a program computes**, by what it declares. -/
theorem build_form {p : Program} {c : Config} {d : Shaped} (h : Shaped.build p c = .ok d) :
    d.form = match p.gemm with
      | some g => if g.constant then .constant else .gemm
      | none => if p.addsAccumulators then .add else .alu := by
  unfold Shaped.build at h
  simp only at h
  obtain ⟨⟨⟩, -, h⟩ := Outcome.bind_eq_ok.1 h
  obtain ⟨⟨⟩, -, h⟩ := Outcome.bind_eq_ok.1 h
  obtain ⟨roles, -, h⟩ := Outcome.bind_eq_ok.1 h
  obtain ⟨b, -, h⟩ := Outcome.bind_eq_ok.1 h
  obtain ⟨values, -, h⟩ := Outcome.bind_eq_ok.1 h
  cases hg : p.gemm with
  | some g =>
    rw [hg] at h
    simp only [Outcome.bind_eq_ok, Outcome.pure_eq_ok] at h
    obtain ⟨o, ho, ops, -, final, -, output, -, rfl⟩ := h
    obtain ⟨a, w, factor, cols, hmul, -⟩ := gemmOperands_multiplied ho
    exact hmul.form
  | none =>
    rw [hg] at h
    simp only [Outcome.bind_eq_ok, Outcome.pure_eq_ok] at h
    obtain ⟨o, ho, ops, -, final, -, output, -, rfl⟩ := h
    exact plainOperands_form ho

namespace Shaped

/-- The operations on the accumulator of the operands, and the output. -/
def finish (p : Program) (c : Config) (b : Int) (o : Operands) : Outcome Shaped := do
  let vectors := wrap64 (o.x.size * b)
  let ops ← resolve p.alu vectors
  let final ← runOps o.acc ops c.acc
  let output ← outputTensor c b p.clip o.x final
  return {
    form := o.form, b, scalar := o.scalar, a := o.a, w := o.w, x := o.x, y := o.y, ops
    acc := o.acc, final, storeMask := resultVectors o.form vectors ops, c := output
    vectorStore := o.form = .alu && ops.any (·.isVector) }

end Shaped

/-- **What follows once the operands are known**: the operations run on the accumulator. -/
theorem finish_common {p : Program} {c : Config} {b xr xc : Nat} {o : Shaped.Operands} {d : Shaped}
    (hs : c.Sound b) (hp : p.validate = .ok ()) (hreg : o.x.Regular b xr xc)
    (hrows : o.x.padded.rows = (xr * b : Nat)) (hrole : o.x.role = .acc)
    (hscalar : o.x.scalar = c.acc) (hform : o.form = .add ↔ p.addsAccumulators = true)
    (h : Shaped.finish p c b o = .ok d) :
    d.Common p c b xr xc ∧ d.form = o.form ∧ d.a = o.a ∧ d.w = o.w ∧ d.x = o.x ∧ d.y = o.y ∧
      d.acc = o.acc := by
  obtain ⟨-, himm, hadd⟩ := validate_checks hp
  unfold Shaped.finish at h
  simp only [Outcome.bind_eq_ok, Outcome.pure_eq_ok] at h
  obtain ⟨ops, hops, final, hfinal, output, hout, rfl⟩ := h
  have hsmall := hreg.vectors_small hrows
  have hsize : wrap64 (o.x.size * b) = (xr * xc * b : Nat) := by
    have h1 : o.x.size * b = ((xr * xc * b : Nat) : Int) := by
      unfold Tensor.size
      rw [hreg.size]
      push_cast; ring
    have h2 : xr * xc * b ≤ xr * xc * b * b := Nat.le_mul_of_pos_right _ hs.pos
    rw [h1, wrap64_small (by omega) (by omega)]
  rw [hsize] at hops
  exact ⟨⟨rfl, hreg, hrows, hrole, hscalar, hops, himm, fun ha => (hadd ha).2, hform, hfinal,
    by rw [hsize], hout, rfl⟩, rfl, rfl, rfl, rfl, rfl, rfl⟩

section Formed

variable {p : Program} {c : Config} {b : Nat} {roles : Roles} {values : List (String × Matrix)}
  {o : Shaped.Operands} {d : Shaped}

/-- A multiplication is shaped as its weight asks. -/
theorem gemm_formed {g : Gemm} (hs : c.Sound b) (hp : p.validate = .ok ())
    (hnoadd : p.addsAccumulators ≠ true) (hin : (Shaped.valueOf values roles.input).Proper)
    (hwgt : g.constant = false → (Shaped.valueOf values roles.weight).Proper)
    (ho : Shaped.gemmOperands p g c b roles values = .ok o) (h : Shaped.finish p c b o = .ok d) :
    ∃ xr xc, d.Common p c b xr xc ∧ d.Formed c b xr xc := by
  obtain ⟨a, w, factor, cols, hmul, hconst, hmat⟩ := gemmOperands_multiplied ho
  cases hk : g.constant with
  | true =>
    obtain ⟨hw, rfl⟩ := hconst hk
    obtain ⟨xr, xc, hareg, harole, hascalar, hxreg, hxrows, hxrole, hxscalar⟩ :=
      multiplied_multiple hs.pos hs.le hin hmul
    have hform : o.form = .constant := by rw [hmul.form, hk]; rfl
    obtain ⟨hcommon, h1, h2, h3, h4, h5, h6⟩ := finish_common hs hp hxreg hxrows hxrole hxscalar
      (by rw [hform]; simp [hnoadd]) h
    rw [hareg.cols] at hw
    refine ⟨xr, xc, hcommon, .multiple g.scalar a w factor ⟨by rw [h1, hform],
      by rw [h2, hmul.inp], by rw [h3, hmul.wgt], by rw [h5, hmul.second], hareg, harole, hascalar,
      hw, ?_⟩⟩
    rw [h4, h6]
    exact hmul.product
  | false =>
    obtain ⟨rfl, rfl, hw⟩ := hmat hk
    obtain ⟨xr, xc, ac, hareg, harole, hascalar, hwreg, hwrows, hwrole, hwscalar, hxreg, hxrows,
      hxrole, hxscalar⟩ := multiplied_product hs.pos hs.le hin (hwgt hk) hmul hw
    have hform : o.form = .gemm := by rw [hmul.form, hk]; rfl
    obtain ⟨hcommon, h1, h2, h3, h4, h5, h6⟩ := finish_common hs hp hxreg hxrows hxrole hxscalar
      (by rw [hform]; simp [hnoadd]) h
    refine ⟨xr, xc, hcommon, .product ac a w ⟨by rw [h1, hform], by rw [h2, hmul.inp],
      by rw [h3, hmul.wgt], by rw [h5, hmul.second], hareg, harole, hascalar, hwreg, hwrows,
      hwrole, hwscalar, ?_⟩⟩
    rw [h4, h6]
    exact hmul.product

/-- Without a multiplication there are one accumulator or two. -/
theorem plain_formed (hs : c.Sound b) (hp : p.validate = .ok ())
    (hx : (Shaped.valueOf values roles.accumulator).Proper)
    (hsecond : roles.addAccumulator = if p.addsAccumulators then addAccumulatorName else "")
    (ho : Shaped.plainOperands p c b roles values = .ok o) (h : Shaped.finish p c b o = .ok d) :
    ∃ xr xc, d.Common p c b xr xc ∧ d.Formed c b xr xc := by
  obtain ⟨xr, xc, hxreg, hxrows, hxrole, hxscalar, ha, hw, hform, hplain, hsum⟩ :=
    plainOperands_formed hs.pos hs.le hx ho
  obtain ⟨hcommon, h1, h2, h3, h4, h5, h6⟩ := finish_common hs hp hxreg hxrows hxrole hxscalar
    (by rw [hform]; split <;> simp_all) h
  refine ⟨xr, xc, hcommon, ?_⟩
  by_cases hadds : p.addsAccumulators = true
  · have hsecond : roles.addAccumulator ≠ "" := by
      rw [hsecond, if_pos hadds]; decide
    obtain ⟨y, hy, hyreg, hyrows, hyrole, hyscalar, hacc⟩ := hsum hsecond
    exact .sum y ⟨by rw [h1, hform, if_pos hadds], by rw [h2, ha], by rw [h3, hw],
      by rw [h5, hy], hyreg, hyrows, hyrole, hyscalar, by rw [h4, h6]; exact hacc⟩
  · have hsecond : roles.addAccumulator = "" := by rw [hsecond, if_neg hadds]
    obtain ⟨hy, hacc⟩ := hplain hsecond
    exact .plain ⟨by rw [h1, hform, if_neg hadds], by rw [h2, ha], by rw [h3, hw],
      by rw [h5, hy], by rw [h4, h6]; exact hacc⟩

end Formed

/-- **A shaped program is made of regular tensors**, which belong together as its
form asks. -/
theorem build_formed {p : Program} {c : Config} {d : Shaped} (hword : p.WordSized)
    (h : Shaped.build p c = .ok d) :
    ∃ b xr xc, c.Sound b ∧ d.Common p c b xr xc ∧ d.Formed c b xr xc := by
  unfold Shaped.build at h
  simp only at h
  obtain ⟨⟨⟩, hc, h⟩ := Outcome.bind_eq_ok.1 h
  obtain ⟨⟨⟩, hp, h⟩ := Outcome.bind_eq_ok.1 h
  obtain ⟨roles, hr, h⟩ := Outcome.bind_eq_ok.1 h
  obtain ⟨b', hb', h⟩ := Outcome.bind_eq_ok.1 h
  obtain ⟨values, hv, h⟩ := Outcome.bind_eq_ok.1 h
  obtain ⟨b, hs, -⟩ := Config.validate_sound hc
  rw [hs.block] at hb'
  obtain rfl := Except.ok.inj hb'
  obtain ⟨hm, -, hadd⟩ := validate_checks hp
  have hroled := roles_declared hr
  obtain ⟨hproper, hdeclared⟩ := materialise_proper hm hword hv
  have hvalue : ∀ name, (∃ m ∈ p.matrices, m.name = name) →
      (Shaped.valueOf values name).Proper := by
    rintro name ⟨m, hm, rfl⟩
    exact valueOf_proper hproper (hdeclared m hm)
  split at h
  · rename_i g hg
    obtain ⟨o, ho, h⟩ := Outcome.bind_eq_ok.1 h
    obtain ⟨hin, hwgt⟩ := hroled.product g hg
    have hnoadd : p.addsAccumulators ≠ true := by
      intro ha
      rw [(hadd ha).1] at hg
      cases hg
    obtain ⟨xr, xc, hformed⟩ := gemm_formed hs hp hnoadd (hvalue _ hin)
      (fun hk => hvalue _ (hwgt hk)) ho h
    exact ⟨b, xr, xc, hs, hformed⟩
  · rename_i hg
    obtain ⟨o, ho, h⟩ := Outcome.bind_eq_ok.1 h
    obtain ⟨xr, xc, hformed⟩ := plain_formed hs hp (hvalue _ (hroled.plain hg)) hroled.second ho h
    exact ⟨b, xr, xc, hs, hformed⟩

end Tessera
