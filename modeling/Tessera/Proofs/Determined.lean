import Tessera.Proofs.Readback
import Tessera.Proofs.Shapes

/-!
# The output from what is read

The accelerator reads its operands as bytes, and what it must leave in memory is worked out
from the numbers of the program. Two programs that differ in their numbers only, and whose
operands have the same bytes, must therefore leave the same output. They do where the numbers
that are taken as they stand are of their type; where every number is brought into a type
before it counts, they always do.

* `mulAdd_congr`: a product added to numbers that wrap to the same.
* `Action.sums_congr`: sums of vectors whose numbers wrap to the same.
* `Shaped.Exact`: the numbers that are taken as they stand are of their type.
* `Shaped.Alike.blocks`: the output of operands with the same bytes.
* `outputs_determined`: the same bytes, the same output.
* `shifted_differ`: an input that is not of its type.
-/

namespace Tessera

/-- **A product added to numbers that wrap to the same.** -/
theorem mulAdd_congr {a a' w x x' m m' : Matrix} {acc : Scalar} {ar ar' ac xr xc : Nat}
    (ha : a.Filled ar ac) (ha' : a'.Filled ar' ac) (hw : w.Filled ac xc) (hx : x.Filled xr xc)
    (hx' : x'.Filled xr xc) (har : ar ≤ xr) (har' : ar' ≤ xr) (hacc : acc.Supported)
    (hfactor : ∀ i < xr, ∀ k < ac, a.cell i k = a'.cell i k)
    (hstart : ∀ i < xr, ∀ j < xc, acc.wrapped (x.cell i j) = acc.wrapped (x'.cell i j))
    (h : mulAdd a w x acc = .ok m) (h' : mulAdd a' w x' acc = .ok m') : m = m' := by
  obtain ⟨hm, hcells⟩ := mulAdd_cells ha hw hx har hacc h
  obtain ⟨hm', hcells'⟩ := mulAdd_cells ha' hw hx' har' hacc h'
  refine hm.ext hm' fun i hi j hj => ?_
  have hdot : a.dot w i j = a'.dot w i j := by
    unfold Matrix.dot
    rw [ha.cols, ha'.cols, Int.toNat_natCast]
    refine congrArg List.sum (List.map_congr_left fun k hk => ?_)
    rw [hfactor i hi k (List.mem_range.1 hk)]
  rw [hcells i hi j hj, hcells' i hi j hj, ← Scalar.wrapped_wrapped_add, hstart i hi j hj,
    Scalar.wrapped_wrapped_add, hdot]

/-- The sum of two vectors, brought into a type. -/
theorem aluVector_add {acc : Scalar} (hacc : acc.Supported) {x y z : Row}
    (h : aluVector .add x y acc = .ok z) :
    z = List.zipWith (fun u v => acc.wrapped (u + v)) (x.map acc.wrapped) (y.map acc.wrapped) := by
  induction x generalizing y z with
  | nil =>
    rw [aluVector] at h
    cases h
    rfl
  | cons u x ih =>
    cases y with
    | nil =>
      rw [aluVector] at h
      cases h
    | cons v y =>
      rw [aluVector] at h
      obtain ⟨s, hs, h⟩ := Outcome.bind_eq_ok.1 h
      obtain ⟨t, ht, h⟩ := Outcome.bind_eq_ok.1 h
      obtain rfl := Outcome.pure_eq_ok.1 h
      unfold alu at hs
      rw [hacc.wrap] at hs
      obtain rfl := Except.ok.inj hs
      rw [List.map_cons, List.map_cons, List.zipWith_cons_cons, ← ih ht,
        Scalar.wrapped_wrapped_add, Int.add_comm u, Int.add_comm u, Scalar.wrapped_wrapped_add]

namespace Action

/-- An action that adds one vector to another in a type. -/
def IsSum (acc : Scalar) (a : Action) : Prop :=
  a.act = fun x y => aluVector .add x y acc

/-- **Sums of vectors whose numbers wrap to the same** leave the same in every vector that is
written. -/
theorem sums_congr {acc : Scalar} (hacc : acc.Supported) {as : List Action}
    (hsum : ∀ a ∈ as, a.IsSum acc) {σ σ' τ τ' : Int → Row}
    (hstart : ∀ v, (σ v).map acc.wrapped = (σ' v).map acc.wrapped) (h : run as σ = .ok τ)
    (h' : run as σ' = .ok τ') :
    (∀ v, (τ v).map acc.wrapped = (τ' v).map acc.wrapped) ∧ ∀ v ∈ as.map dst, τ v = τ' v := by
  induction as using List.reverseRecOn generalizing τ τ' with
  | nil =>
    rw [← run_nil.1 h, ← run_nil.1 h']
    exact ⟨hstart, by simp⟩
  | append_singleton as a ih =>
    obtain ⟨τ₁, h1, h2⟩ := run_concat.1 h
    obtain ⟨τ₁', h1', h2'⟩ := run_concat.1 h'
    obtain ⟨hwrap, hsame⟩ := ih (fun a ha => hsum a (List.mem_append_left _ ha)) h1 h1'
    obtain ⟨z, hz, rfl⟩ := apply_eq_ok.1 h2
    obtain ⟨z', hz', rfl⟩ := apply_eq_ok.1 h2'
    -- what the last action writes depends on what its operands wrap to
    have hz : z = z' := by
      unfold value at hz hz'
      rw [hsum a (by simp)] at hz hz'
      rw [aluVector_add hacc hz, aluVector_add hacc hz', hwrap a.dst]
      cases a.src with
      | none => rfl
      | some u => rw [Option.map_some, Option.map_some, Option.getD_some, Option.getD_some, hwrap u]
    subst hz
    refine ⟨fun v => ?_, fun v hv => ?_⟩
    · by_cases hv : v = a.dst
      · rw [hv, Function.update_self, Function.update_self]
      · rw [Function.update_of_ne hv, Function.update_of_ne hv, hwrap v]
    · by_cases hva : v = a.dst
      · rw [hva, Function.update_self, Function.update_self]
      · rw [Function.update_of_ne hva, Function.update_of_ne hva]
        refine hsame v ?_
        simpa [hva] using hv

end Action

/-- Tensors with the same blocks have the same padded entries. -/
theorem Tensor.Regular.padded_congr {t t' : Tensor} {b br bc i j : Nat} (h : t.Regular b br bc)
    (h' : t'.Regular b br bc) (hb : 1 ≤ b) (hblocks : t.blocks = t'.blocks) (hi : i < br * b)
    (hj : j < bc * b) : t.padded.cell i j = t'.padded.cell i j := by
  rw [h.padded_cell hb hi hj, h'.padded_cell hb hi hj, Tensor.cellAt, Tensor.cellAt, hblocks]

theorem Tensor.Regular.size_le {t : Tensor} {b br bc : Nat} (h : t.Regular b br bc) :
    ∀ k ∈ t.blocks.toList, k.data.size ≤ b * b := by
  intro k hk
  obtain ⟨-, hle, hsize⟩ := h.block_shape k hk
  rw [hsize]
  exact Nat.mul_le_mul_right b (by omega)

namespace Shaped

/-- The numbers that are taken as they stand are of their type: those of the factors of a
product, and those of an accumulator that is not the start of a product or a sum. -/
def Exact (d : Shaped) : Prop :=
  (∀ t, d.a = some t ∨ d.w = some t → t.Fits) ∧ (d.form = .alu → d.x.Fits)

instance (d : Shaped) : Decidable d.Exact :=
  decidable_of_iff ((∀ t ∈ d.a.toList ++ d.w.toList, t.Fits) ∧ (d.form = .alu → d.x.Fits)) (by
    unfold Exact
    simp only [List.mem_append, Option.mem_toList])

/-- Programs whose operands have the same shapes and the same bytes, with the same operations. -/
structure Alike (d d' : Shaped) : Prop where
  frame : d.frame = d'.frame
  ops : d.ops = d'.ops
  inp : ∀ t t', d.a = some t → d'.a = some t' → t.bytes = t'.bytes
  wgt : ∀ t t', d.w = some t → d'.w = some t' → t.bytes = t'.bytes
  acc : d.x.bytes = d'.x.bytes
  accBis : ∀ t t', d.y = some t → d'.y = some t' → t.bytes = t'.bytes

section Alike

variable {d d' : Shaped} {p q : Program} {c : Config} {b xr xc : Nat}

/-- **Outputs of the same final vectors** have the same blocks. -/
theorem Common.blocks_congr (hcommon : d.Common p c b xr xc) (hcommon' : d'.Common q c b xr xc)
    (hsound : c.Sound b) (hclip : p.clip = q.clip)
    (hfinal : ∀ v < xr * xc * b, rowsOf d.final.data b (v : Nat) = rowsOf d'.final.data b (v : Nat)) :
    d.c.blocks = d'.c.blocks := by
  obtain ⟨-, hsize, hblock⟩ := hcommon.output_blocks hsound
  obtain ⟨-, hsize', hblock'⟩ := hcommon'.output_blocks hsound
  refine Array.ext (hsize.trans hsize'.symm) fun n h1 h2 => ?_
  have hk := hblock n _ (Array.getElem?_eq_getElem h1)
  have hk' := hblock' n _ (Array.getElem?_eq_getElem h2)
  have hdata : d.c.blocks[n].data = d'.c.blocks[n].data := by
    apply Array.toList_inj.1
    rw [hk.data, hk'.data, hclip]
    refine List.flatMap_congr fun r hr => ?_
    have hr := List.mem_range.1 hr
    have hle := row_room b (show n < xr * xc by omega)
    rw [hfinal _ (by omega)]
  exact (Block.mk.injEq ..).mpr ⟨hk.full.1.trans hk'.full.1.symm, hdata⟩

/-- The accumulator has the same blocks in both. -/
theorem Alike.sides {xr' xc' : Nat} (h : d.Alike d') (hcommon : d.Common p c b xr xc)
    (hcommon' : d'.Common q c b xr' xc') : xr' = xr ∧ xc' = xc := by
  have hx := congrArg Shaped.x h.frame
  obtain ⟨-, -, -, -, -, -, hbr, hbc, -⟩ := Tensor.mk.inj hx
  rw [hcommon.x_regular.blockRows, hcommon'.x_regular.blockRows] at hbr
  rw [hcommon.x_regular.blockCols, hcommon'.x_regular.blockCols] at hbc
  exact ⟨by exact_mod_cast hbr.symm, by exact_mod_cast hbc.symm⟩

/-- The accumulators have numbers that wrap to the same. -/
theorem Alike.start {xr' xc' : Nat} (h : d.Alike d') (hsound : c.Sound b)
    (hcommon : d.Common p c b xr xc) (hcommon' : d'.Common q c b xr' xc')
    (hformed : d.Formed c b xr xc) (hformed' : d'.Formed c b xr' xc') (n : Nat) {r e : Nat}
    (hr : r < b) (he : e < b) :
    c.acc.wrapped (d.x.cellAt b n r e) = c.acc.wrapped (d'.x.cellAt b n r e) := by
  have := Tensor.cells_of_bytes hsound.pos hsound.le
    (hformed.writable hcommon hsound (.inr (.inr (.inl rfl))))
    (hformed'.writable hcommon' hsound (.inr (.inr (.inl rfl)))) (congrArg Shaped.x h.frame) h.acc n
    hr he
  rwa [hcommon.x_scalar] at this

/-- Inputs of their type with the same bytes have the same blocks. -/
theorem Alike.inputs {a a' : Tensor} (h : d.Alike d') (hsound : c.Sound b)
    (hcommon : d.Common p c b xr xc) (hcommon' : d'.Common q c b xr xc)
    (hformed : d.Formed c b xr xc) (hformed' : d'.Formed c b xr xc) (hexact : d.Exact)
    (hexact' : d'.Exact) (ha : d.a = some a) (ha' : d'.a = some a') :
    a.frame = a'.frame ∧ a.blocks = a'.blocks := by
  have hframe := congrArg Shaped.a h.frame
  simp only [Shaped.frame, ha, ha', Option.map_some, Option.some.injEq] at hframe
  obtain ⟨br, bc, hreg, -⟩ := hformed.inp ha
  refine ⟨hframe, Tensor.blocks_of_bytes hsound.pos hsound.le
    (hformed.writable hcommon hsound (.inl ha)) (hformed'.writable hcommon' hsound (.inl ha')) hframe
    (h.inp a a' ha ha') (hexact.1 a (.inl ha)) (hexact'.1 a' (.inl ha')) hreg.size_le⟩

/-- So do weights. -/
theorem Alike.weights {w w' : Tensor} (h : d.Alike d') (hsound : c.Sound b)
    (hcommon : d.Common p c b xr xc) (hcommon' : d'.Common q c b xr xc)
    (hformed : d.Formed c b xr xc) (hformed' : d'.Formed c b xr xc) (hexact : d.Exact)
    (hexact' : d'.Exact) (hw : d.w = some w) (hw' : d'.w = some w') : w.blocks = w'.blocks := by
  have hframe := congrArg Shaped.w h.frame
  simp only [Shaped.frame, hw, hw', Option.map_some, Option.some.injEq] at hframe
  obtain ⟨-, -, -, hfull, -⟩ := hformed.wgt hsound hw
  exact Tensor.blocks_of_bytes hsound.pos hsound.le
    (hformed.writable hcommon hsound (.inr (.inl hw)))
    (hformed'.writable hcommon' hsound (.inr (.inl hw'))) hframe (h.wgt w w' hw hw')
    (hexact.1 w (.inr hw)) (hexact'.1 w' (.inr hw')) fun k hk => (hfull k hk).2.le

/-- **Products of the same factors**, added to numbers that wrap to the same, are the same. -/
theorem Alike.acc_congr (h : d.Alike d') (hsound : c.Sound b)
    (hcommon : d.Common p c b xr xc) (hcommon' : d'.Common q c b xr xc)
    (hformed : d.Formed c b xr xc) (hformed' : d'.Formed c b xr xc) {a a' : Tensor} {f : Matrix}
    {ac : Nat} (ha : a.Regular b xr ac) (ha' : a'.Regular b xr ac) (hblocks : a.blocks = a'.blocks)
    (hf : f.Filled (ac * b) (xc * b))
    (hacc : ∃ product blocks br bc, mulAdd a.padded f d.x.padded c.acc = .ok product ∧
      product.split b = .ok (blocks, br, bc) ∧ stack blocks b = .ok d.acc)
    (hacc' : ∃ product blocks br bc, mulAdd a'.padded f d'.x.padded c.acc = .ok product ∧
      product.split b = .ok (blocks, br, bc) ∧ stack blocks b = .ok d'.acc) : d.acc = d'.acc := by
  have hb := hsound.pos
  obtain ⟨m, blocks, br, bc, hm, hsplit, hstack⟩ := hacc
  obtain ⟨m', blocks', br', bc', hm', hsplit', hstack'⟩ := hacc'
  have hle := ha.rows_le
  have hle' := ha'.rows_le
  obtain rfl : m = m' := by
    refine mulAdd_congr ha.filled ha'.filled hf (hcommon.x_regular.filled_rows hcommon.x_rows)
      (hcommon'.x_regular.filled_rows hcommon'.x_rows) (by omega) (by omega) hsound.acc (fun i hi k hk => ha.padded_congr ha' hb hblocks hi hk)
      (fun i hi j hj => ?_) hm hm'
    rw [hcommon.x_regular.padded_cell hb hi hj, hcommon'.x_regular.padded_cell hb hi hj]
    exact h.start hsound hcommon hcommon' hformed hformed' _ (Nat.mod_lt _ hb) (Nat.mod_lt _ hb)
  rw [hsplit] at hsplit'
  cases hsplit'
  exact Except.ok.inj (hstack.symm.trans hstack')

/-- A product of matrices starts its operations from the same numbers. -/
theorem Alike.product_acc {ac ac' : Nat} {a a' w w' : Tensor} (h : d.Alike d') (hsound : c.Sound b)
    (hcommon : d.Common p c b xr xc) (hcommon' : d'.Common q c b xr xc)
    (hprod : d.Product c b xr xc ac a w) (hprod' : d'.Product c b xr xc ac' a' w')
    (hexact : d.Exact) (hexact' : d'.Exact) : d.acc = d'.acc := by
  have hformed := Formed.product ac a w hprod
  have hformed' := Formed.product ac' a' w' hprod'
  obtain ⟨hframe, hablocks⟩ := h.inputs hsound hcommon hcommon' hformed hformed' hexact hexact'
    hprod.inp hprod'.inp
  have hwblocks := h.weights hsound hcommon hcommon' hformed hformed' hexact hexact' hprod.wgt
    hprod'.wgt
  obtain rfl : ac = ac' := by
    obtain ⟨-, -, -, -, -, -, -, hcols, -⟩ := Tensor.mk.inj hframe
    rw [hprod.a_regular.blockCols, hprod'.a_regular.blockCols] at hcols
    exact_mod_cast hcols
  have hw := hprod.w_regular.filled_rows hprod.w_rows
  have hfactor : w.padded = w'.padded :=
    hw.ext (hprod'.w_regular.filled_rows hprod'.w_rows) fun i hi j hj =>
      hprod.w_regular.padded_congr hprod'.w_regular hsound.pos hwblocks hi hj
  exact h.acc_congr hsound hcommon hcommon' hformed hformed' hprod.a_regular hprod'.a_regular
    hablocks hw hprod.acc (hfactor ▸ hprod'.acc)

/-- So does a multiple of a matrix. -/
theorem Alike.multiple_acc {scalar scalar' : Int} {a a' w w' : Tensor} {f f' : Matrix}
    (h : d.Alike d') (hsound : c.Sound b) (hcommon : d.Common p c b xr xc)
    (hcommon' : d'.Common q c b xr xc) (hmul : d.Multiple c b xr xc scalar a w f)
    (hmul' : d'.Multiple c b xr xc scalar' a' w' f') (hexact : d.Exact) (hexact' : d'.Exact) :
    d.acc = d'.acc := by
  have hformed := Formed.multiple scalar a w f hmul
  have hformed' := Formed.multiple scalar' a' w' f' hmul'
  obtain ⟨-, hablocks⟩ := h.inputs hsound hcommon hcommon' hformed hformed' hexact hexact' hmul.inp
    hmul'.inp
  have hwblocks := h.weights hsound hcommon hcommon' hformed hformed' hexact hexact' hmul.wgt
    hmul'.wgt
  -- the one block of the weight tells by what is multiplied
  obtain rfl : scalar = scalar' := by
    obtain ⟨k, hdiag, hk⟩ := (constantWeight_diagonal hmul.weight).block
    obtain ⟨k', hdiag', hk'⟩ := (constantWeight_diagonal hmul'.weight).block
    rw [hk, hk'] at hwblocks
    have hcell := (diagonal_cells hdiag).2 0 hsound.pos 0 hsound.pos
    rw [Array.singleton_inj.1 hwblocks, (diagonal_cells hdiag').2 0 hsound.pos 0 hsound.pos] at hcell
    simpa using hcell.symm
  have hweight := hmul.weight
  rw [hmul'.weight] at hweight
  obtain ⟨-, rfl⟩ := Prod.mk.inj (Except.ok.inj hweight)
  obtain ⟨k, hdiag, rfl⟩ := (constantWeight_diagonal hmul.weight).matrix
  exact h.acc_congr hsound hcommon hcommon' hformed hformed' hmul.a_regular hmul'.a_regular
    hablocks (filled_diagonal hdiag) hmul.acc hmul'.acc

/-- Without a product, the operations start from the same numbers if these are of their type. -/
theorem Alike.plain_acc (h : d.Alike d') (hsound : c.Sound b) (hcommon : d.Common p c b xr xc)
    (hcommon' : d'.Common q c b xr xc) (hplain : d.Plain b) (hplain' : d'.Plain b)
    (hexact : d.Exact) (hexact' : d'.Exact) : d.acc = d'.acc := by
  have hformed : d.Formed c b xr xc := .plain hplain
  have hformed' : d'.Formed c b xr xc := .plain hplain'
  have hblocks := Tensor.blocks_of_bytes hsound.pos hsound.le
    (hformed.writable hcommon hsound (.inr (.inr (.inl rfl))))
    (hformed'.writable hcommon' hsound (.inr (.inr (.inl rfl)))) (congrArg Shaped.x h.frame) h.acc
    (hexact.2 hplain.form) (hexact'.2 hplain'.form) hcommon.x_regular.size_le
  have hacc := hplain.acc
  rw [hblocks, hplain'.acc] at hacc
  exact (Except.ok.inj hacc).symm

/-- The vectors of a sum, as they are before the program runs, have numbers that wrap to the
same. -/
theorem Alike.sum_start {y y' : Tensor} (h : d.Alike d') (hsound : c.Sound b)
    (hcommon : d.Common p c b xr xc) (hcommon' : d'.Common q c b xr xc)
    (hsum : d.Sum c b xr xc y) (hsum' : d'.Sum c b xr xc y') (v : Int) :
    (d.initial v).map c.acc.wrapped = (d'.initial v).map c.acc.wrapped := by
  have hb := hsound.pos
  have hformed := Formed.sum y hsum
  have hformed' := Formed.sum y' hsum'
  have hframe := congrArg Shaped.y h.frame
  simp only [Shaped.frame, hsum.second, hsum'.second, Option.map_some, Option.some.injEq] at hframe
  have hsecond : ∀ n r e, r < b → e < b →
      c.acc.wrapped (y.cellAt b n r e) = c.acc.wrapped (y'.cellAt b n r e) := by
    intro n r e hr he
    have := Tensor.cells_of_bytes hb hsound.le
      (hformed.writable hcommon hsound (.inr (.inr (.inr hsum.second))))
      (hformed'.writable hcommon' hsound (.inr (.inr (.inr hsum'.second)))) hframe
      (h.accBis y y' hsum.second hsum'.second) n hr he
    rwa [hsum.y_scalar] at this
  -- the blocks of the second accumulator come after those of the first
  have hcell : ∀ {d : Shaped} {y : Tensor}, d.x.blocks.size = xr * xc → d.y = some y → ∀ n r e,
      (d.stackedBlocks.getD n ⟨0, #[]⟩).cell b r e =
        if n < xr * xc then d.x.cellAt b n r e else y.cellAt b (n - xr * xc) r e := by
    intro d y hsize hy n r e
    unfold stackedBlocks Tensor.cellAt
    simp only [hy, Option.map_some, Option.getD_some, List.getD_eq_getElem?_getD]
    by_cases hn : n < xr * xc
    · rw [if_pos hn, List.getElem?_append_left (by rwa [Array.length_toList, hsize])]
    · rw [if_neg hn, List.getElem?_append_right (by rw [Array.length_toList, hsize]; omega),
        Array.length_toList, hsize]
  unfold Shaped.initial
  simp only [hcommon.side, hcommon'.side, Int.toNat_natCast, List.map_map]
  refine List.map_congr_left fun e he => ?_
  have he := List.mem_range.1 he
  simp only [Function.comp_apply]
  rw [hcell hcommon.x_regular.size hsum.second, hcell hcommon'.x_regular.size hsum'.second]
  split
  · rfl
  · split
    · exact h.start hsound hcommon hcommon' hformed hformed' _ (Nat.mod_lt _ hb) he
    · exact hsecond _ _ _ (Nat.mod_lt _ hb) he

/-- **A sum of accumulators** ends in the same vectors. -/
theorem Alike.sum_final {y y' : Tensor} (h : d.Alike d') (hsound : c.Sound b)
    (hcommon : d.Common p c b xr xc) (hcommon' : d'.Common q c b xr xc)
    (hsum : d.Sum c b xr xc y) (hsum' : d'.Sum c b xr xc y') {v : Nat} (hv : v < xr * xc * b) :
    rowsOf d.final.data b v = rowsOf d'.final.data b v := by
  have hrun := hcommon.sum_run hsound.pos hsum
  have hrun' := hcommon'.sum_run hsound.pos hsum'
  have hops := hcommon.ops_add hsum.form
  rw [← h.ops, hops] at hrun'
  rw [hops] at hrun
  refine (Action.sums_congr hsound.acc ?_ (h.sum_start hsound hcommon hcommon' hsum hsum') hrun
    hrun').2 v ?_
  · intro a ha
    simp only [actionsOf, List.flatMap_cons, List.flatMap_nil, List.append_nil, List.map_map] at ha
    obtain ⟨u, -, rfl⟩ := List.mem_map.1 ha
    rfl
  · simp only [actionsOf, List.flatMap_cons, List.flatMap_nil, List.append_nil, List.map_map]
    exact List.mem_map.2 ⟨v, mem_below.2 (by omega), rfl⟩

/-- **Operands with the same bytes** give outputs of the same blocks. -/
theorem Alike.blocks (h : d.Alike d') (hsound : c.Sound b) (hcommon : d.Common p c b xr xc)
    (hcommon' : d'.Common q c b xr xc) (hformed : d.Formed c b xr xc)
    (hformed' : d'.Formed c b xr xc) (hclip : p.clip = q.clip) (hexact : d.Exact)
    (hexact' : d'.Exact) : d.c.blocks = d'.c.blocks := by
  refine hcommon.blocks_congr hcommon' hsound hclip fun v hv => ?_
  have hform : d.form = d'.form := by
    have := congrArg Shaped.form h.frame
    exact this
  -- operations that start from the same numbers end in the same
  have hacc : d.acc = d'.acc → rowsOf d.final.data b v = rowsOf d'.final.data b v := by
    intro hacc
    have hfinal := hcommon.final
    rw [hacc, h.ops, hcommon'.final] at hfinal
    rw [Except.ok.inj hfinal]
  -- both have the same form
  rcases hformed with ⟨_, _, _, h1⟩ | ⟨_, _, _, _, h1⟩ | h1 | ⟨_, h1⟩ <;>
    rcases hformed' with ⟨_, _, _, h2⟩ | ⟨_, _, _, _, h2⟩ | h2 | ⟨_, h2⟩ <;>
    try exact absurd (h1.form.symm.trans (hform.trans h2.form)) (by decide)
  · exact hacc (h.product_acc hsound hcommon hcommon' h1 h2 hexact hexact')
  · exact hacc (h.multiple_acc hsound hcommon hcommon' h1 h2 hexact hexact')
  · exact hacc (h.plain_acc hsound hcommon hcommon' h1 h2 hexact hexact')
  · exact h.sum_final hsound hcommon hcommon' h1 h2 hv

end Alike

end Shaped

namespace Compiled

/-- The files of the operands. -/
def operandFiles (r : Compiled) : List (Outcome (List Artefact)) :=
  [r.tensorFile "input" r.data.a, r.tensorFile "weight" r.data.w,
    r.tensorFile "accumulator" (some r.data.x), r.tensorFile "add_accumulator" r.data.y]

/-- A file tells the bytes of its tensor. -/
theorem tensorFile_inj {r r' : Compiled} {stem : String} {t t' : Tensor}
    (h : r.tensorFile stem (some t) = r'.tensorFile stem (some t')) : t.bytes = t'.bytes := by
  simp only [tensorFile] at h
  cases hb : t.bytes with
  | ok bytes =>
    rw [hb] at h
    obtain ⟨bytes', hb', heq⟩ := Outcome.bind_eq_ok.1 h.symm
    obtain ⟨hfile, -⟩ := List.cons.inj (Outcome.pure_eq_ok.1 heq)
    rw [hb', (Artefact.mk.inj hfile).2]
  | error e =>
    rw [hb] at h
    cases hb' : t'.bytes with
    | ok bytes' =>
      rw [hb'] at h
      cases h
    | error e' =>
      rw [hb'] at h
      cases h
      rfl

end Compiled

section Compiled

variable {c : Config} {caps : Capacities} {options : PlanOptions} {divisors : Divisors}
  {data : Memory} {code : Code} {table : Placed} {r : Compiled} {b xr xc : Nat}

/-- **What is expected of the output is known** for every compiled program. -/
theorem Compiled.Made.expectedOut_ok (h : r.Made c caps options divisors data code table)
    (hsound : c.Sound b) (hcommon : r.data.Common r.program c b xr xc)
    (hformed : r.data.Formed c b xr xc) : ∃ bytes, r.expectedOut = .ok bytes := by
  have hlaid := h.laid hsound hcommon hformed
  have hwithin := build_within h.built hsound h.capacities
  obtain ⟨-, hperm⟩ := plan_grain hsound.pos hcommon hformed h.planned
  have hinside := plan_stores_inside hsound hcommon hformed hwithin h.planned
  have hunits := hcommon.units_small hsound hperm
  rw [(hcommon.output_blocks hsound).1] at hunits
  obtain ⟨out, hout, -⟩ := hlaid.out
  obtain ⟨-, hrec, hblocks⟩ := hlaid.region r.code.microOps hsound hcommon h.units hout
  have hproduces : (c.machine b divisors r.program r.code.microOps 0).Produces r.data
      (rowsOf r.data.final.data b) := produces hsound hcommon _ _
  exact ⟨_, Compiled.expectedOut_eq hproduces hout hrec hblocks (lt_trans hunits (by norm_num))
    hinside⟩

end Compiled

/-- **The same bytes, the same output.** Programs that differ in their numbers only, and whose
operands have the same files, expect the same output; the numbers that are taken as they stand
must be of their type. -/
theorem outputs_determined {p q : Program} {c : Config} {options : PlanOptions} {r r' : Compiled}
    (hword : p.WordSized) (hblank : p.blank = q.blank) (h : compile c options p = .ok r)
    (h' : compile c options q = .ok r') (hexact : r.data.Exact) (hexact' : r'.data.Exact)
    (hfiles : r.operandFiles = r'.operandFiles) :
    ∃ bytes, r.expectedOut = .ok bytes ∧ r'.expectedOut = .ok bytes := by
  obtain ⟨rfl, caps, divisors, data, code, table, hmade⟩ := compile_made h
  obtain ⟨rfl, caps', divisors', data', code', table', hmade'⟩ := compile_made h'
  obtain ⟨-, -, -, -, hbase, hoffset, hclip, -⟩ := Program.mk.inj hblank
  obtain ⟨hframe, hops⟩ := Shaped.build_frame hword hblank hmade.built hmade'.built
  obtain ⟨hschedule, hlayout⟩ := hmade.same_plan hmade' hframe hbase hoffset
  obtain ⟨b, xr, xc, hsound, hcommon, hformed⟩ := build_formed hword hmade.built
  obtain ⟨b', xr', xc', hsound', hcommon', hformed'⟩ :=
    build_formed (hword.of_blank hblank) hmade'.built
  obtain rfl := Int.ofNat_inj.1 (Except.ok.inj (hsound.block.symm.trans hsound'.block))
  simp only [Compiled.operandFiles, List.cons.injEq, and_true] at hfiles
  obtain ⟨hinp, hwgt, hacc, haccBis⟩ := hfiles
  have halike : r.data.Alike r'.data := by
    refine ⟨hframe, hops, fun t t' ht ht' => ?_, fun t t' ht ht' => ?_, Compiled.tensorFile_inj hacc,
      fun t t' ht ht' => ?_⟩
    · rw [ht, ht'] at hinp
      exact Compiled.tensorFile_inj hinp
    · rw [ht, ht'] at hwgt
      exact Compiled.tensorFile_inj hwgt
    · rw [ht, ht'] at haccBis
      exact Compiled.tensorFile_inj haccBis
  obtain ⟨rfl, rfl⟩ := halike.sides hcommon hcommon'
  have hblocks := halike.blocks hsound hcommon hcommon' hformed hformed' hclip hexact hexact'
  obtain ⟨bytes, hout⟩ := hmade.expectedOut_ok hsound hcommon hformed
  refine ⟨bytes, hout, ?_⟩
  rw [← hout]
  refine (Compiled.expectedOut_congr hschedule hlayout (hcommon.side.trans hcommon'.side.symm) ?_
    hblocks).symm
  rw [(hcommon.output_blocks hsound).1, (hcommon'.output_blocks hsound).1]

/-- A product of two numbers added to a third one, of which the low eight bits are dropped. -/
def Program.shifted (input start : Int) : Program where
  name := ""
  matrices := [⟨"INPUT", 1, 1, some ⟨1, 1, #[input]⟩⟩, ⟨"WEIGHT", 1, 1, some ⟨1, 1, #[1]⟩⟩,
    ⟨"ACCUMULATOR", 1, 1, some ⟨1, 1, #[start]⟩⟩]
  gemm := some { input := "INPUT", weight := "WEIGHT", accumulator := "ACCUMULATOR" }
  alu := [.immediate .shr 8 [0]]

set_option maxRecDepth 100000 in
theorem shifted_compiled : (do
    let r ← compile .twoBlocks {} (.shifted 1 255)
    let r' ← compile .twoBlocks {} (.shifted 1 4294967551)
    return r.data.Exact ∧ r'.data.Exact ∧ r.operandFiles = r'.operandFiles ∧
      r.expectedOut = .ok [1, 0, 0, 0] : Outcome Bool) = .ok true := by
  decide +kernel

/-- Accumulators that differ by a multiple of what their type holds. -/
theorem shifted_determined : ∃ r r', (Program.shifted 1 255).WordSized ∧
    (Program.shifted 1 255).blank = (Program.shifted 1 4294967551).blank ∧
    compile .twoBlocks {} (.shifted 1 255) = .ok r ∧
    compile .twoBlocks {} (.shifted 1 4294967551) = .ok r' ∧ r.data.Exact ∧ r'.data.Exact ∧
    r.operandFiles = r'.operandFiles ∧ r'.expectedOut = .ok [1, 0, 0, 0] := by
  obtain ⟨r, hr, h⟩ := Outcome.bind_eq_ok.1 shifted_compiled
  obtain ⟨r', hr', h⟩ := Outcome.bind_eq_ok.1 h
  obtain ⟨hexact, hexact', hfiles, hout⟩ := of_decide_eq_true (Outcome.pure_eq_ok.1 h)
  have hword : (Program.shifted 1 255).WordSized := by decide +kernel
  have hblank : (Program.shifted 1 255).blank = (Program.shifted 1 4294967551).blank := by
    decide +kernel
  obtain ⟨bytes, hbytes, hbytes'⟩ := outputs_determined hword hblank hr hr' hexact hexact' hfiles
  rw [hout] at hbytes
  obtain rfl := Except.ok.inj hbytes
  exact ⟨r, r', hword, hblank, hr, hr', hexact, hexact', hfiles, hbytes'⟩

set_option maxRecDepth 100000 in
/-- **An input that is not of its type** has the bytes of another one, but another product. -/
theorem shifted_differ : (do
    let r ← compile .twoBlocks {} (.shifted 256 0)
    let r' ← compile .twoBlocks {} (.shifted 0 0)
    return (Program.shifted 256 0).blank = (Program.shifted 0 0).blank ∧
      r.operandFiles = r'.operandFiles ∧ r.expectedOut = .ok [1, 0, 0, 0] ∧
      r'.expectedOut = .ok [0, 0, 0, 0] : Outcome Bool) = .ok true := by
  decide +kernel

end Tessera
