import Tessera.Proofs.Sharing

/-!
# Shaping in three parts

A program is shaped in three parts: the matrices it declares get their values, these
become the tensors of its operands, and the operations run on the accumulator. For a
product the second part is again in two: the factors, and how they are multiplied.

* `Shaped.factors`, `Shaped.Factors.operands`: the two halves of `Shaped.gemmOperands`.
* `build_ok`, `build_gemm_ok`: when a program can be shaped, and into what.
* `Shaped.Factors.filled`: the shapes of the factors fit.
-/

namespace Tessera

namespace Shaped

/-- The weight of a product as a tensor and as a matrix, and the columns of the product. -/
def weightOf (g : Gemm) (c : Config) (b : Int) (roles : Roles) (values : List (String × Matrix))
    (a : Tensor) : Outcome (Tensor × Matrix × Int) :=
  if g.constant then do
    let (t, m) ← constantWeight c b a.padded.cols g.scalar
    pure (t, m, (valueOf values roles.input).cols)
  else do
    let t ← matrixWeight c roles b (valueOf values roles.input) a (valueOf values roles.weight)
    pure (t, t.padded, (valueOf values roles.weight).cols)

/-- The accumulator that a product is added to, with its name; zeros if there is none. -/
def startOf (roles : Roles) (values : List (String × Matrix)) (rows cols : Int) :
    Outcome (String × Matrix) :=
  match values.lookup roles.accumulator with
  | some x => pure (roles.accumulator, x)
  | none => do pure (accumulatorName, ← Matrix.zero rows cols)

/-- What is multiplied: the input, the weight as a tensor and as a matrix, and the accumulator
before and after it was padded. -/
structure Factors where
  a : Tensor
  w : Tensor
  factor : Matrix
  start : Matrix
  x : Tensor

/-- The factors of a product. -/
def factors (p : Program) (g : Gemm) (c : Config) (b : Int) (roles : Roles)
    (values : List (String × Matrix)) : Outcome Factors := do
  let input := valueOf values roles.input
  let a ← Tensor.ofMatrix .inp roles.input input c.inp b (!p.nonSquareInput)
  let (w, factor, cols) ← weightOf g c b roles values a
  let (name, start) ← startOf roles values input.rows cols
  if start.rows ≠ input.rows ∨ start.cols ≠ cols then
    Outcome.diagnose name (.shapeMismatch (.productShape start.rows start.cols input.rows cols))
  let x ← Tensor.ofMatrix .acc name start c.acc b true
  return { a, w, factor, start, x }

/-- The factors multiplied out. -/
def Factors.operands (f : Factors) (g : Gemm) (c : Config) (b : Int) (multiply : Multiplier) :
    Outcome Operands := do
  let product ← Outcome.within "reference gemm" (multiply f.a.padded f.factor f.x.padded c.acc)
  let (blocks, _, _) ← product.split b
  return {
    form := if g.constant then .constant else .gemm
    scalar := if g.constant then g.scalar else 0
    a := some f.a, w := some f.w, x := f.x, acc := ← stack blocks b }

variable {p : Program} {g : Gemm} {c : Config} {b : Int} {roles : Roles}
  {values : List (String × Matrix)} {multiply : Multiplier}

/-- A product is its factors, multiplied. -/
theorem gemmOperands_eq : gemmOperands p g c b roles values multiply =
    factors p g c b roles values >>= fun f => f.operands g c b multiply := by
  unfold gemmOperands factors weightOf startOf Factors.operands
  cases hk : g.constant <;> cases hx : values.lookup roles.accumulator <;>
    simp only [bind_assoc, pure_bind, ← Outcome.ite_bind, if_true, if_false, Bool.false_eq_true]

/-- The operands of a program, by what it declares. -/
def operandsOf (p : Program) (c : Config) (b : Int) (roles : Roles)
    (values : List (String × Matrix)) (multiply : Multiplier) : Outcome Operands :=
  match p.gemm with
  | some g => factors p g c b roles values >>= fun f => f.operands g c b multiply
  | none => plainOperands p c b roles values

theorem build_eq : build p c multiply = (do
    c.validate
    p.validate
    let roles ← p.roles
    let b ← c.block
    let values ← materialise p c roles
    let o ← operandsOf p c b roles values multiply
    finish p c b o) := by
  unfold build finish operandsOf
  cases p.gemm <;> simp only [gemmOperands_eq]

/-- What a program has before anything is computed: a valid configuration, its roles, and a
value for every matrix it declares. -/
structure Valued (p : Program) (c : Config) (roles : Roles) (b : Nat)
    (values : List (String × Matrix)) : Prop where
  config : c.validate = .ok ()
  program : p.validate = .ok ()
  named : p.roles = .ok roles
  block : c.block = .ok (b : Int)
  valued : materialise p c roles = .ok values

/-- **When a program can be shaped**, and into what. -/
theorem build_ok {d : Shaped} : build p c multiply = .ok d ↔
    ∃ roles b values o, Valued p c roles b values ∧ operandsOf p c b roles values multiply = .ok o ∧
      finish p c b o = .ok d := by
  rw [build_eq]
  simp only [Outcome.bind_eq_ok]
  constructor
  · rintro ⟨⟨⟩, hc, ⟨⟩, hp, roles, hr, b, hb, values, hv, o, ho, hd⟩
    obtain ⟨n, hs, -⟩ := Config.validate_sound hc
    obtain rfl := Except.ok.inj (hb.symm.trans hs.block)
    exact ⟨roles, n, values, o, ⟨hc, hp, hr, hb, hv⟩, ho, hd⟩
  · rintro ⟨roles, b, values, o, h, ho, hd⟩
    exact ⟨(), h.config, (), h.program, roles, h.named, b, h.block, values, h.valued, o, ho, hd⟩

/-- **When a program with a product can be shaped**, and into what. -/
theorem build_gemm_ok {d : Shaped} (hg : p.gemm = some g) : build p c multiply = .ok d ↔
    ∃ roles b values f o, Valued p c roles b values ∧ factors p g c b roles values = .ok f ∧
      f.operands g c b multiply = .ok o ∧ finish p c b o = .ok d := by
  rw [build_ok]
  simp only [operandsOf, hg, Outcome.bind_eq_ok]
  constructor
  · rintro ⟨roles, b, values, o, hv, ⟨f, hf, ho⟩, hd⟩
    exact ⟨roles, b, values, f, o, hv, hf, ho, hd⟩
  · rintro ⟨roles, b, values, f, o, hv, hf, ho, hd⟩
    exact ⟨roles, b, values, o, hv, ⟨f, hf, ho⟩, hd⟩

section Valued

variable {b : Nat}

theorem Valued.sound (h : Valued p c roles b values) : c.Sound b := by
  obtain ⟨n, hs, -⟩ := Config.validate_sound h.config
  obtain rfl : b = n := Int.ofNat_inj.1 (Except.ok.inj (h.block.symm.trans hs.block))
  exact hs

/-- The values of a program, none of them without entries. -/
theorem Valued.proper (h : Valued p c roles b values) (hword : p.WordSized) :
    (∀ q ∈ values, q.2.Proper) ∧
      ∀ name, (∃ m ∈ p.matrices, m.name = name) → (valueOf values name).Proper := by
  obtain ⟨hm, -, -⟩ := validate_checks h.program
  obtain ⟨hproper, hdeclared⟩ := materialise_proper hm hword h.valued
  refine ⟨hproper, ?_⟩
  rintro name ⟨m, hm, rfl⟩
  exact valueOf_proper hproper (hdeclared m hm)

theorem Valued.factors_proper (h : Valued p c roles b values) (hword : p.WordSized)
    (hg : p.gemm = some g) : (valueOf values roles.input).Proper ∧
      (g.constant = false → (valueOf values roles.weight).Proper) := by
  obtain ⟨hin, hwgt⟩ := (roles_declared h.named).product g hg
  have := (h.proper hword).2
  exact ⟨this _ hin, fun hk => this _ (hwgt hk)⟩

end Valued

/-- The factors of a product, one after the other. -/
theorem factors_ok {f : Factors} : factors p g c b roles values = .ok f ↔ ∃ cols name,
    Tensor.ofMatrix .inp roles.input (valueOf values roles.input) c.inp b (!p.nonSquareInput) =
      .ok f.a ∧
    weightOf g c b roles values f.a = .ok (f.w, f.factor, cols) ∧
    startOf roles values (valueOf values roles.input).rows cols = .ok (name, f.start) ∧
    (f.start.rows = (valueOf values roles.input).rows ∧ f.start.cols = cols) ∧
    Tensor.ofMatrix .acc name f.start c.acc b true = .ok f.x := by
  unfold factors
  simp only [Outcome.bind_eq_ok, Outcome.refused_eq_ok, Outcome.pure_eq_ok, ne_eq, not_or, not_not]
  constructor
  · rintro ⟨a, ha, ⟨w, factor, cols⟩, hw, ⟨name, start⟩, hs, hshape, x, hx, rfl⟩
    exact ⟨cols, name, ha, hw, hs, hshape, hx⟩
  · rintro ⟨cols, name, ha, hw, hs, hshape, hx⟩
    exact ⟨f.a, ha, (f.w, f.factor, cols), hw, (name, f.start), hs, hshape, f.x, hx, rfl⟩

section Weight

variable {b : Nat} {a w : Tensor} {factor : Matrix} {cols : Int}

theorem weightOf_constant (hk : g.constant = true) :
    weightOf g c b roles values a = .ok (w, factor, cols) ↔
      constantWeight c b a.padded.cols g.scalar = .ok (w, factor) ∧
        (valueOf values roles.input).cols = cols := by
  unfold weightOf
  rw [if_pos hk]
  simp only [Outcome.bind_eq_ok, Outcome.pure_eq_ok]
  constructor
  · rintro ⟨⟨t, m⟩, ht, heq⟩
    cases heq
    exact ⟨ht, rfl⟩
  · rintro ⟨ht, rfl⟩
    exact ⟨(w, factor), ht, rfl⟩

theorem weightOf_matrix (hk : g.constant = false) :
    weightOf g c b roles values a = .ok (w, factor, cols) ↔
      matrixWeight c roles b (valueOf values roles.input) a (valueOf values roles.weight) = .ok w ∧
        w.padded = factor ∧ (valueOf values roles.weight).cols = cols := by
  unfold weightOf
  rw [if_neg (by rw [hk]; simp)]
  simp only [Outcome.bind_eq_ok, Outcome.pure_eq_ok]
  constructor
  · rintro ⟨t, ht, heq⟩
    cases heq
    exact ⟨ht, rfl, rfl⟩
  · rintro ⟨ht, rfl, rfl⟩
    exact ⟨w, ht, rfl⟩

/-- The accumulator of a product has entries. -/
theorem Factors.start_proper {f : Factors} (hin : (valueOf values roles.input).Proper)
    (hwgt : g.constant = false → (valueOf values roles.weight).Proper)
    (h : factors p g c b roles values = .ok f) : f.start.Proper := by
  obtain ⟨cols, name, -, hw, -, hshape, -⟩ := factors_ok.1 h
  cases hk : g.constant with
  | true =>
    obtain ⟨-, hcols⟩ := (weightOf_constant hk).1 hw
    rw [← hcols] at hshape
    exact ⟨hshape.1 ▸ hin.rows_pos, hshape.2 ▸ hin.cols_pos, hshape.2 ▸ hin.cols_lt⟩
  | false =>
    obtain ⟨-, -, hcols⟩ := (weightOf_matrix hk).1 hw
    rw [← hcols] at hshape
    have hwgt := hwgt hk
    exact ⟨hshape.1 ▸ hin.rows_pos, hshape.2 ▸ hwgt.cols_pos, hshape.2 ▸ hwgt.cols_lt⟩

/-- **The shapes of the factors fit.** -/
theorem Factors.filled {f : Factors} (hb : 1 ≤ b) (hb' : b ≤ 64)
    (hin : (valueOf values roles.input).Proper)
    (hwgt : g.constant = false → (valueOf values roles.weight).Proper)
    (h : factors p g c b roles values = .ok f) :
    ∃ ar ac xr xc : Nat, f.a.padded.Filled ar (ac * b) ∧ f.factor.Filled (ac * b) (xc * b) ∧
      f.x.Regular b xr xc ∧ f.x.padded.rows = (xr * b : Nat) ∧ ar ≤ xr * b := by
  have hstart := Factors.start_proper hin hwgt h
  obtain ⟨cols, name, ha, hw, -, hshape, hx⟩ := factors_ok.1 h
  obtain ⟨ar, ac, hareg, har, hac, -⟩ :=
    ofMatrix_regular hb hb' hin.rows_pos hin.cols_pos hin.cols_lt ha
  obtain ⟨xr, xc, hxreg, hxr, hxc, hxpad, -⟩ :=
    ofMatrix_regular hb hb' hstart.rows_pos hstart.cols_pos hstart.cols_lt hx
  rw [hshape.1] at hxr
  rw [hshape.2] at hxc
  have hrows : ar = xr := by exact_mod_cast har.trans hxr.symm
  have hle : f.a.padded.rows.toNat ≤ xr * b := by
    have := hareg.rows_le
    rw [hrows] at this
    omega
  refine ⟨_, ac, xr, xc, hareg.filled, ?_, hxreg, by simpa using hxpad, hle⟩
  cases hk : g.constant with
  | true =>
    obtain ⟨hw, hc⟩ := (weightOf_constant hk).1 hw
    obtain ⟨k, hdiag, hfactor⟩ := (constantWeight_diagonal hw).matrix
    rw [hareg.cols] at hdiag hfactor
    obtain rfl : ac = xc := by
      rw [← hc] at hxc
      exact_mod_cast hac.trans hxc.symm
    rw [hfactor]
    exact filled_diagonal hdiag
  | false =>
    obtain ⟨hw, hpad, hc⟩ := (weightOf_matrix hk).1 hw
    obtain ⟨hrows, wr, wc, hwreg, hwr, hwc, hwpad, -⟩ := matrixWeight_regular hb hb' (hwgt hk) hw
    obtain rfl : wr = ac := by
      rw [hrows] at hwr
      exact_mod_cast hwr.trans hac.symm
    obtain rfl : wc = xc := by
      rw [← hc] at hxc
      exact_mod_cast hwc.trans hxc.symm
    rw [← hpad]
    exact hwreg.filled_rows hwpad

end Weight

end Shaped

end Tessera
