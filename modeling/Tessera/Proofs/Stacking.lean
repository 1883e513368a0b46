import Tessera.Proofs.Padding

/-!
# Blocks below each other

A stack holds the entries of its blocks one after the other, whatever their heights are, so
cutting it at these heights gives the blocks back. If all blocks have one height, the rows of
the stack are the rows of the blocks.

* `Block.Formed`: a block with as many entries as its height says.
* `stack_eq`: the stack of some blocks.
* `unstack_stack`: the blocks of a stack.
* `stack_vector`: the rows of a stack of full blocks.
-/

namespace Tessera

/-- A block with as many entries as its height says. -/
structure Block.Formed (k : Block) (b : Nat) : Prop where
  height : 0 ≤ k.height
  size : (k.data.size : Int) = k.height * b

/-- The entries of some blocks, one block after the other. -/
def entriesOf (blocks : List Block) : List Int := blocks.flatMap (·.data.toList)

@[simp] theorem entriesOf_nil : entriesOf [] = [] := rfl

@[simp] theorem entriesOf_cons (k : Block) (blocks : List Block) :
    entriesOf (k :: blocks) = k.data.toList ++ entriesOf blocks := rfl

/-- A table copied to the start of the blank part of another. -/
theorem copyInto_blank (pre : List Int) (src : Array Int) (n : Nat) :
    copyInto (pre ++ List.replicate (src.size + n) 0).toArray pre.length src =
      (pre ++ (src.toList ++ List.replicate n 0)).toArray := by
  refine Array.ext_getElem? fun i => ?_
  simp only [getElem?_copyInto, List.size_toArray, List.length_append, List.length_replicate,
    List.getElem?_toArray, List.getElem?_append, List.getElem?_replicate, Array.length_toList,
    Array.getElem?_toList]
  by_cases hpre : i < pre.length
  · rw [if_neg (by omega), if_pos hpre, if_pos hpre]
  rw [if_neg hpre, if_neg hpre]
  by_cases hsrc : i - pre.length < src.size
  · rw [if_pos (by omega), if_pos hsrc]
  · rw [if_neg (by omega), if_neg hsrc]
    by_cases hin : i - pre.length < src.size + n
    · rw [if_pos hin, if_pos (by omega)]
    · rw [if_neg hin, if_neg (by omega)]

section Stack

variable {b : Nat} {blocks : List Block}

theorem length_entriesOf (hformed : ∀ k ∈ blocks, k.Formed b) :
    ((entriesOf blocks).length : Int) = (blocks.map (·.height)).sum * b := by
  induction blocks with
  | nil => simp
  | cons k blocks ih =>
    rw [entriesOf_cons, List.length_append, Array.length_toList, List.map_cons, List.sum_cons,
      add_mul, Nat.cast_add, (hformed k List.mem_cons_self).size,
      ih fun k hk => hformed k (List.mem_cons_of_mem _ hk)]

theorem heights_nonneg (hformed : ∀ k ∈ blocks, k.Formed b) : 0 ≤ (blocks.map (·.height)).sum :=
  List.sum_nonneg fun h hh => by
    obtain ⟨k, hk, rfl⟩ := List.mem_map.1 hh
    exact (hformed k hk).height

/-- The rows of a stack are counted without overflow. -/
theorem stack_heights (hformed : ∀ k ∈ blocks, k.Formed b) {n : Int} (hn : 0 ≤ n)
    (hsmall : n + (blocks.map (·.height)).sum < 9223372036854775808) :
    blocks.foldl (fun n k => wrap64 (n + k.height)) n = n + (blocks.map (·.height)).sum := by
  induction blocks generalizing n with
  | nil => simp
  | cons k blocks ih =>
    have hrest : ∀ k ∈ blocks, k.Formed b := fun k hk => hformed k (List.mem_cons_of_mem _ hk)
    have hk := (hformed k List.mem_cons_self).height
    have hsum := heights_nonneg hrest
    rw [List.map_cons, List.sum_cons] at hsmall ⊢
    rw [List.foldl_cons, wrap64_small (by omega) (by omega), ih hrest (by omega) (by omega),
      add_assoc]

/-- The blocks are written one after the other; `pre` stands before them. -/
theorem stack_loop (pre : List Int) (n : Nat) :
    blocks.foldlM (fun (s : Array Int × Int) k =>
        return (← overwrite s.1 s.2 k.data, s.2 + k.data.size))
      ((pre ++ List.replicate ((entriesOf blocks).length + n) 0).toArray, (pre.length : Int)) =
      (.ok ((pre ++ (entriesOf blocks ++ List.replicate n 0)).toArray,
        ((pre ++ entriesOf blocks).length : Int)) : Outcome _) := by
  induction blocks generalizing pre with
  | nil => simp
  | cons k blocks ih =>
    have hover : overwrite (pre ++ List.replicate ((entriesOf (k :: blocks)).length + n) 0).toArray
        pre.length k.data = .ok (pre ++ k.data.toList ++
          List.replicate ((entriesOf blocks).length + n) 0).toArray := by
      refine overwrite_eq_ok.2 ⟨⟨by omega, by simp; omega⟩, ?_⟩
      rw [Int.toNat_natCast, entriesOf_cons, List.length_append, Array.length_toList, Nat.add_assoc,
        copyInto_blank, List.append_assoc]
    have hlen : (pre.length : Int) + k.data.size = ((pre ++ k.data.toList).length : Int) := by
      simp
    refine foldlM_cons_eq_ok.2 ⟨_, Outcome.bind_ok hover rfl, ?_⟩
    rw [hlen, ih]
    simp

/-- **The stack of some blocks** holds their entries one after the other. -/
theorem stack_eq (hb : 1 ≤ b) (hformed : ∀ k ∈ blocks, k.Formed b)
    (hsmall : (entriesOf blocks).length * 8 ≤ 2 ^ 48) :
    stack blocks b = .ok ⟨(blocks.map (·.height)).sum, b, (entriesOf blocks).toArray⟩ := by
  have hlen := length_entriesOf hformed
  have hsum := heights_nonneg hformed
  have hle : (blocks.map (·.height)).sum ≤ (blocks.map (·.height)).sum * b :=
    le_mul_of_one_le_right hsum (by omega)
  have hrows := stack_heights hformed (n := 0) le_rfl (by omega)
  have hzero : Matrix.zero (blocks.map (·.height)).sum b =
      .ok ⟨(blocks.map (·.height)).sum, b, Array.replicate (entriesOf blocks).length 0⟩ :=
    zero_eq_ok.2 ⟨_, by rw [← hlen, wrap64_small (by omega) (by omega)], by omega, rfl⟩
  have hloop := @stack_loop blocks [] 0
  rw [List.nil_append, Nat.add_zero, List.length_nil, Nat.cast_zero, List.toArray_replicate,
    List.replicate_zero, List.append_nil] at hloop
  unfold stack
  simp only
  rw [hrows, zero_add]
  exact Outcome.bind_ok hzero (Outcome.bind_ok hloop rfl)

/-- The blocks are cut out one after the other; `pre` stands before them. -/
theorem unstack_loop {m : Matrix} (hcols : m.cols = b) (hformed : ∀ k ∈ blocks, k.Formed b)
    {pre : List Int} (hdata : m.data = (pre ++ entriesOf blocks).toArray)
    (hsmall : m.data.size < 9223372036854775808) (done : List Block) :
    (blocks.map (·.height)).foldlM (fun (q : List Block × Int) h => do
        let next := wrap64 (q.2 + wrap64 (h * m.cols))
        return (⟨h, ← slice m.data q.2 next⟩ :: q.1, next)) (done, (pre.length : Int)) =
      .ok (blocks.reverse ++ done, (m.data.size : Int)) := by
  induction blocks generalizing pre done with
  | nil => simp [hdata]
  | cons k blocks ih =>
    have hk := (hformed k List.mem_cons_self).size
    have hsize : m.data.size = pre.length + (k.data.size + (entriesOf blocks).length) := by
      simp [hdata]
    have hnext : wrap64 ((pre.length : Int) + wrap64 (k.height * m.cols)) =
        ((pre ++ k.data.toList).length : Int) := by
      rw [hcols, ← hk, wrap64_small (x := (k.data.size : Int)) (by omega) (by omega),
        wrap64_small (by omega) (by omega)]
      simp
    have hslice : slice m.data pre.length ((pre ++ k.data.toList).length : Int) = .ok k.data := by
      refine slice_eq_ok.2 ⟨by simp; omega, ?_⟩
      rw [Int.toNat_natCast, Int.toNat_natCast, hdata, entriesOf_cons, ← List.append_assoc]
      apply Array.toList_inj.1
      rw [Array.toList_extract, List.extract_eq_take_drop]
      simp
    rw [List.map_cons]
    refine foldlM_cons_eq_ok.2 ⟨(k :: done, ((pre ++ k.data.toList).length : Int)), ?_, ?_⟩
    · simp only [hnext, hslice]
      rfl
    · rw [ih (fun k hk => hformed k (List.mem_cons_of_mem _ hk))
        (by rw [hdata, entriesOf_cons, List.append_assoc])]
      simp

/-- **A stack, cut at the heights of its blocks**, gives the blocks back. -/
theorem unstack_stack (hformed : ∀ k ∈ blocks, k.Formed b)
    (hsmall : (entriesOf blocks).length * 8 ≤ 2 ^ 48) :
    Matrix.unstack ⟨(blocks.map (·.height)).sum, b, (entriesOf blocks).toArray⟩
      (blocks.map (·.height)) = .ok blocks := by
  have hloop := @unstack_loop b blocks ⟨(blocks.map (·.height)).sum, b, (entriesOf blocks).toArray⟩
    rfl hformed [] rfl (by simp; omega) []
  unfold Matrix.unstack
  exact Outcome.bind_ok hloop (by simp)

theorem Block.Full.formed {k : Block} (hk : k.Full b) : k.Formed b :=
  ⟨by rw [hk.1]; omega, by rw [hk.1, hk.2]; push_cast; rfl⟩

theorem length_entriesOf_full (hfull : ∀ k ∈ blocks, k.Full b) :
    (entriesOf blocks).length = blocks.length * b * b := by
  have hheights : (blocks.map (·.height)).sum = blocks.length * b := by
    rw [List.map_congr_left fun k hk => (hfull k hk).1]
    simp
  have := length_entriesOf fun k hk => (hfull k hk).formed
  rw [hheights] at this
  exact_mod_cast this

/-- **A row of a stack of full blocks** is a row of a block. -/
theorem stack_vector (hb : 1 ≤ b) (hfull : ∀ k ∈ blocks, k.Full b)
    (hsmall : (entriesOf blocks).length * 8 ≤ 2 ^ 48) {s : Matrix} (h : stack blocks b = .ok s)
    {v : Nat} (hv : v < blocks.length * b) :
    ∃ k row, blocks[v / b]? = some k ∧ s.row v = .ok row ∧ k.vector (v % b : Nat) b = .ok row ∧
      row.size = b ∧ ∀ e < b, row.getD e 0 = k.cell b (v % b) e := by
  rw [length_entriesOf_full hfull] at hsmall
  obtain ⟨hcols, hsize, hrows⟩ := stack_rows hb hfull (by rw [← Nat.mul_assoc]; omega) h
  have hn : v / b < blocks.length := Nat.div_lt_of_lt_mul (by rwa [Nat.mul_comm])
  have hr : v % b < b := Nat.mod_lt v hb
  have hk : blocks[v / b]? = some blocks[v / b] := List.getElem?_eq_getElem hn
  have hkfull := hfull _ (List.getElem_mem hn)
  have hbb : b * b ≤ blocks.length * b * b := by
    rw [Nat.mul_assoc]
    exact Nat.le_mul_of_pos_left _ ((Nat.zero_le _).trans_lt hn)
  have hinside := Nat.mul_le_mul_right b (show v + 1 ≤ blocks.length * b by omega)
  have hinside' := Nat.mul_le_mul_right b (show v % b + 1 ≤ b by omega)
  -- both rows are rows of a table
  have hrow : s.row v = .ok (s.data.extract (v * b) ((v + 1) * b)) := by
    unfold Matrix.row
    rw [hcols, slice_row hsize (by omega) (by omega) (by exact_mod_cast hv), Int.toNat_natCast]
  have hvector : blocks[v / b].vector (v % b : Nat) b =
      .ok (blocks[v / b].data.extract (v % b * b) ((v % b + 1) * b)) := by
    unfold Block.vector
    rw [slice_row hkfull.2 (by omega) (by omega) (by exact_mod_cast hr), Int.toNat_natCast]
  have hlist := extract_eq_rowsOf (show (v % b + 1) * b ≤ blocks[v / b].data.size by
    rw [hkfull.2]; exact hinside')
  have hsame : s.data.extract (v * b) ((v + 1) * b) =
      blocks[v / b].data.extract (v % b * b) ((v % b + 1) * b) := by
    apply Array.toList_inj.1
    rw [extract_eq_rowsOf (by rw [hsize]; exact hinside), hlist, hrows v, rowsOf]
    refine List.map_congr_left fun e _ => ?_
    rw [if_neg (by omega), if_neg (by omega), Int.toNat_natCast, Int.toNat_natCast,
      List.getD_eq_getElem?_getD, hk]
    rfl
  refine ⟨_, _, hk, hrow, hsame ▸ hvector, ?_, fun e he => ?_⟩
  · rw [hsame, ← Array.length_toList, hlist, length_rowsOf]
  · rw [hsame, Array.getD_eq_getD_getElem?, ← Array.getElem?_toList, hlist,
      ← List.getD_eq_getElem?_getD, getD_rowsOf _ _ he]
    rfl

end Stack

end Tessera
