import Tessera.Proofs.Hazard

/-!
# Orders that end alike

The entries of the operations may run in another order than the declared one. This module
says what that means for the numbers: the entries in the order chosen, run one by one on
any stack of accumulators, do what the operations do in declared order. A run that has no
result has none in either order.

* `Outcome.OnlyFaults`: computations that never end in a report.
* `Action.run_iff_order`: actions in two orders that keep conflicting ones in order.
* `Outcome.Tabulates`: what is done to a table, as it is done to its rows.
* `runEntries`: entries on a stack of accumulators, one by one.
* `runEntries_flatten`: in declared order, they are the operations.
* `runOps_progress`: the operations have a result on numbers with a negative.
* `entries_reordered`: the check is exact, what order is chosen, and that it makes no
  difference.
-/

namespace Tessera

section Faults

variable {α β σ : Type}

namespace Outcome

/-- A computation that can only fail with a fault. -/
def OnlyFaults (x : Outcome α) : Prop := ∀ e, x = .error e → e = .fault

namespace OnlyFaults

theorem ok (a : α) : OnlyFaults (.ok a) := by
  intro e he
  cases he

theorem fault : OnlyFaults (.error .fault : Outcome α) := by
  intro e he
  cases he
  rfl

theorem bind {x : Outcome α} {f : α → Outcome β} (hx : x.OnlyFaults)
    (hf : ∀ a, (f a).OnlyFaults) : (x >>= f).OnlyFaults := by
  cases x with
  | ok a => exact hf a
  | error e =>
    obtain rfl := hx e rfl
    exact fault

theorem ite {p : Prop} [Decidable p] {x y : Outcome α} (hx : x.OnlyFaults)
    (hy : y.OnlyFaults) : (if p then x else y).OnlyFaults := by
  split
  · exact hx
  · exact hy

theorem mapM {f : α → Outcome β} (h : ∀ a, (f a).OnlyFaults) (xs : List α) :
    (xs.mapM f).OnlyFaults := by
  induction xs with
  | nil => exact ok _
  | cons x xs ih =>
    rw [List.mapM_cons]
    exact (h x).bind fun _ => ih.bind fun _ => ok _

theorem foldlM {f : σ → α → Outcome σ} {xs : List α} (h : ∀ s, ∀ x ∈ xs, (f s x).OnlyFaults)
    (s : σ) : (xs.foldlM f s).OnlyFaults := by
  induction xs generalizing s with
  | nil => exact ok _
  | cons x xs ih =>
    rw [List.foldlM_cons]
    exact (h s x List.mem_cons_self).bind fun s' =>
      ih (fun s y hy => h s y (List.mem_cons_of_mem _ hy)) s'

/-- A fault has no report, so there is nothing to add a context to. -/
theorem within {x : Outcome α} (hx : x.OnlyFaults) (ctx : String) : x.within ctx = x := by
  cases x with
  | ok a => rfl
  | error e =>
    obtain rfl := hx e rfl
    rfl

/-- Computations that come to the same values, and otherwise fault, are the same. -/
theorem ext {x y : Outcome α} (hx : x.OnlyFaults) (hy : y.OnlyFaults)
    (h : ∀ a, x = .ok a ↔ y = .ok a) : x = y := by
  cases x with
  | ok a => exact ((h a).1 rfl).symm
  | error e =>
    obtain rfl := hx e rfl
    cases y with
    | ok b => exact (h b).2 rfl
    | error e' =>
      obtain rfl := hy e' rfl
      rfl

end OnlyFaults

end Outcome

open Outcome

variable {op : AluOp} {acc : Scalar}

theorem shiftOne_faults (n : Int) : (shiftOne n).OnlyFaults := by
  unfold shiftOne
  exact .ite .fault (.ite (.ok _) (.ok _))

theorem Scalar.wrap_faults (s : Scalar) (v : Int) : (s.wrap v).OnlyFaults := by
  unfold Scalar.wrap Scalar.keptBits Scalar.bits
  exact ((shiftOne_faults _).bind fun _ => .ite .fault (.ok _)).bind fun _ => .ok _

theorem alu_faults (hop : op.code ≤ 4) (a b : Int) : (alu op a b acc).OnlyFaults := by
  unfold alu
  cases op with
  | min => exact .ok _
  | max => exact .ok _
  | add => exact acc.wrap_faults _
  | mul => exact acc.wrap_faults _
  | shr => exact .ite (.ok _) (.ite (.ok _) (.ite .fault (acc.wrap_faults _)))
  | unassigned code high => exact absurd high (UInt8.not_lt.2 hop)

theorem aluVector_faults (hop : op.code ≤ 4) (dst src : List Int) :
    (aluVector op dst src acc).OnlyFaults := by
  induction dst generalizing src with
  | nil => exact .ok _
  | cons a dst ih =>
    cases src with
    | nil => exact .fault
    | cons b src => exact (alu_faults hop a b).bind fun _ => (ih src).bind fun _ => .ok _

end Faults

/-- **Two orders that keep conflicting actions in order come to the same values.** `first`
and `second` say where an entry comes in them. -/
theorem Action.run_iff_order {α : Type} (f : α → Action) (first second : α → Nat)
    {xs ys : List α} (hperm : xs.Perm ys) (hxs : xs.Pairwise fun a b => first a < first b)
    (hys : ys.Pairwise fun a b => second a < second b)
    (hkeep : xs.Pairwise fun a b => (f a).Independent (f b) ∨ second a ≤ second b)
    {ρ τ : Int → Row} : run (xs.map f) ρ = .ok τ ↔ run (ys.map f) ρ = .ok τ := by
  -- of two entries, the one that is first comes first unless they are independent
  have hall : ∀ a ∈ xs, ∀ b ∈ xs, first a < first b →
      (f a).Independent (f b) ∨ second a ≤ second b := by
    refine List.Pairwise.forall_of_forall_of_flip ?_ ?_ ?_
    · exact fun a _ h => absurd h (lt_irrefl _)
    · refine hkeep.imp ?_
      intro a b h _
      exact h
    · exact hxs.imp fun hlt hgt => absurd hgt (by omega)
  refine ⟨run_reorder f second hperm hys hkeep, run_reorder f first hperm.symm hxs ?_⟩
  refine hys.imp_of_mem fun {a b} ha hb hlt => ?_
  rcases Nat.lt_or_ge (first b) (first a) with hgt | hle
  · rcases hall b (hperm.symm.subset hb) a (hperm.symm.subset ha) hgt with hind | hle
    · exact Or.inl ⟨hind.2, hind.1⟩
    · omega
  · exact Or.inr hle

section Tables

variable {n b : Nat} {acc : Scalar} {r : Resolved} {s : Site} {data : Array Int}

theorem getElem?_rowsOf (data : Array Int) (v : Nat) {j : Nat} (hj : j < b) :
    (rowsOf data b v)[j]? = some (data.getD (v * b + j) 0) := by
  unfold rowsOf
  rw [List.getElem?_map, List.getElem?_range hj, Option.map_some, if_neg (by omega),
    Int.toNat_natCast]

/-- A table is known by its rows. -/
theorem rowsOf_inj {data' : Array Int} (h : data.size = n * b) (h' : data'.size = n * b)
    (hrows : rowsOf data b = rowsOf data' b) : data = data' := by
  refine Array.ext (h.trans h'.symm) fun k hk hk' => ?_
  have hb : 0 < b := by
    rcases Nat.eq_zero_or_pos b with hb | hb
    · rw [h, hb, Nat.mul_zero] at hk
      omega
    · exact hb
  -- entry number `k` is entry `k % b` of row `k / b`
  have hentry := congrArg (fun ρ : Int → Row => (ρ ((k / b : Nat) : Int))[k % b]?) hrows
  simp only [getElem?_rowsOf _ _ (Nat.mod_lt k hb), Nat.div_add_mod'] at hentry
  rw [Array.getD_eq_getD_getElem?, Array.getD_eq_getD_getElem?, Array.getElem?_eq_getElem hk,
    Array.getElem?_eq_getElem hk'] at hentry
  exact Option.some.inj hentry

/-- A computation on a table of `n` rows of length `b` does what another does on the rows of
the table. -/
structure Outcome.Tabulates (n b : Nat) (x : Outcome (Array Int)) (y : Outcome (Int → Row)) :
    Prop where
  rows : (fun data => rowsOf data b) <$> x = y
  size : ∀ data, x = .ok data → data.size = n * b

/-- Computations on tables come to the same values if they do so on the rows. -/
theorem Outcome.Tabulates.eq_ok_of {x x' : Outcome (Array Int)} {y y' : Outcome (Int → Row)}
    (hx : x.Tabulates n b y) (hx' : x'.Tabulates n b y') (h : ∀ ρ, y = .ok ρ → y' = .ok ρ)
    (hdata : x = .ok data) : x' = .ok data := by
  obtain ⟨hrows, hsize⟩ := hx
  obtain ⟨hrows', hsize'⟩ := hx'
  have hy : y = .ok (rowsOf data b) := by
    rw [← hrows, hdata]
    rfl
  rw [h _ hy] at hrows'
  obtain ⟨data', hdata', heq⟩ := Outcome.map_eq_ok.1 hrows'
  rw [hdata', rowsOf_inj (hsize' _ hdata') (hsize _ hdata) heq]

theorem foldlM_tabulates {α : Type} {f : Array Int → α → Outcome (Array Int)}
    {g : (Int → Row) → α → Outcome (Int → Row)} {xs : List α}
    (h : ∀ x ∈ xs, ∀ data, data.size = n * b → (f data x).Tabulates n b (g (rowsOf data b) x))
    (hsize : data.size = n * b) :
    (xs.foldlM f data).Tabulates n b (xs.foldlM g (rowsOf data b)) := by
  induction xs generalizing data with
  | nil =>
    refine ⟨rfl, fun data' h => ?_⟩
    obtain rfl := Outcome.pure_eq_ok.1 h
    exact hsize
  | cons x xs ih =>
    obtain ⟨hrows, hnext⟩ := h x List.mem_cons_self data hsize
    rw [List.foldlM_cons, List.foldlM_cons, ← hrows]
    cases hx : f data x with
    | error e =>
      refine ⟨rfl, fun data' h => ?_⟩
      cases h
    | ok data' =>
      exact ih (fun y hy => h y (List.mem_cons_of_mem _ hy)) (hnext data' hx)

/-- **One operation on one site of a table** is its action on the rows, failures included. -/
theorem runSite_tabulates (hsize : data.size = n * b) (hsmall : data.size < 9223372036854775808)
    (hsite : s.Below n) (hsrc : r.useImm = false → s.src ≠ noSource) :
    (runSite b acc r data s).Tabulates n b ((r.action acc s).apply (rowsOf data b)) := by
  obtain ⟨⟨hdst, hdst'⟩, hsource⟩ := hsite
  have hvalue : runSite b acc r data s = (do
      let row ← (r.action acc s).value (rowsOf data b)
      overwrite data (wrap64 (s.dst * b)) row.toArray) := by
    unfold runSite Action.value Resolved.action
    simp only [slice_rowsOf hsize (hsize ▸ hsmall) hdst hdst', Outcome.ok_bind]
    cases himm : r.useImm with
    | true => rfl
    | false =>
      obtain ⟨hs, hs'⟩ := hsource (hsrc himm)
      simp only [Bool.false_eq_true, if_false, slice_rowsOf hsize (hsize ▸ hsmall) hs hs', Outcome.ok_bind]
      rfl
  rw [hvalue]
  unfold Action.apply
  cases hrow : (r.action acc s).value (rowsOf data b) with
  | error e =>
    refine ⟨rfl, fun data' h => ?_⟩
    cases h
  | ok row =>
    have hlen : row.length = b := by
      rw [Resolved.act_length (s := s) (r := r) hrow, length_rowsOf]
    have hle := Nat.mul_le_mul_right b (show s.dst.toNat ≤ n by omega)
    have hstart : wrap64 (s.dst * b) = (s.dst.toNat * b : Nat) := by
      rw [show s.dst * b = ((s.dst.toNat * b : Nat) : Int) by
        push_cast
        rw [Int.toNat_of_nonneg hdst]]
      exact wrap64_small (by omega) (by omega)
    have hover : overwrite data (wrap64 (s.dst * b)) row.toArray =
        .ok (copyInto data (s.dst.toNat * b) row.toArray) := by
      rw [hstart]
      exact overwrite_eq_ok.2 ⟨by omega, by rw [Int.toNat_natCast]⟩
    rw [Outcome.ok_bind, Outcome.ok_bind, hover]
    refine ⟨?_, fun data' h => ?_⟩
    · have hset := rowsOf_copyInto hsize (show s.dst.toNat < n by omega) hlen
      rw [Int.toNat_of_nonneg hdst] at hset
      exact congrArg Except.ok hset
    · cases h
      rw [size_copyInto, hsize]

end Tables

/-- Entries on a stack of accumulators, one by one. -/
def runEntries (m : Matrix) (entries : List Entry) (acc : Scalar) : Outcome Matrix := do
  return { m with
    data := ← entries.foldlM (fun data e => runSite m.cols acc e.op data e.site) m.data }

section Runs

variable {ops : List Resolved} {acc : Scalar} {vectors n b : Nat}

theorem foldlM_flatMap {α β σ : Type} (f : σ → β → Outcome σ) (g : α → List β) (xs : List α)
    (s : σ) : (xs.flatMap g).foldlM f s = xs.foldlM (fun s x => (g x).foldlM f s) s := by
  induction xs generalizing s with
  | nil => rfl
  | cons x xs ih =>
    rw [List.flatMap_cons, List.foldlM_append, List.foldlM_cons]
    exact congrArg _ (funext ih)

/-- Along the entries of some operations goes what goes along their sites. -/
theorem foldlM_flatten {σ : Type} (f : σ → Resolved → Site → Outcome σ) (s : σ) :
    (flatten ops).foldlM (fun s e => f s e.op e.site) s =
      ops.foldlM (fun s r => r.sites.foldlM (fun s site => f s r site) s) s := by
  have hfst : ∀ xs : List (Resolved × Site),
      xs.zipIdx.foldlM (fun s (q : (Resolved × Site) × Nat) => f s q.1.1 q.1.2) s =
        xs.foldlM (fun s q => f s q.1 q.2) s := by
    intro xs
    conv_rhs => rw [← List.zipIdx_map_fst 0 xs, List.foldlM_map]
  rw [flatten_eq, List.foldlM_map]
  refine (hfst _).trans ?_
  simp only [foldlM_flatMap, List.foldlM_map]

theorem slice_faults {α : Type} (xs : Array α) (lo hi : Int) : (slice xs lo hi).OnlyFaults :=
  .ite (.ok _) .fault

theorem runSite_faults {r : Resolved} (hop : r.op.code ≤ 4) (cols : Int) (data : Array Int)
    (s : Site) : (runSite cols acc r data s).OnlyFaults := by
  unfold runSite
  refine (slice_faults _ _ _).bind fun dst => .ite ?_ ?_
  · exact (Outcome.OnlyFaults.mapM (fun a => alu_faults hop a _) _).bind
      fun row => .ite (.ok _) .fault
  · refine (slice_faults _ _ _).bind fun src => ?_
    exact (aluVector_faults hop _ _).bind fun row => .ite (.ok _) .fault

/-- **Entry by entry in declared order** is operation by operation. -/
theorem runEntries_flatten (hop : ∀ r ∈ ops, r.op.code ≤ 4) (m : Matrix) :
    runEntries m (flatten ops) acc = runOps m ops acc := by
  have hops : ∀ data, ops.foldlM (fun data r => r.sites.foldlM (runSite m.cols acc r) data) data =
      ops.foldlM (runOp m.cols acc) data := by
    induction ops with
    | nil => exact fun _ => rfl
    | cons r ops ih =>
      intro data
      have hr : r.sites.foldlM (runSite m.cols acc r) data = runOp m.cols acc data r :=
        (Outcome.OnlyFaults.foldlM (fun data s _ => runSite_faults (hop r (by simp)) _ data s)
          data).within _ |>.symm
      rw [List.foldlM_cons, List.foldlM_cons, hr]
      exact congrArg _ (funext (ih fun r hr => hop r (List.mem_cons_of_mem _ hr)))
  unfold runEntries runOps
  rw [foldlM_flatten fun data r s => runSite m.cols acc r data s, hops]

/-- **Entries on a table** are their actions on the rows, failures included. -/
theorem entries_tabulate (acc : Scalar) {entries : List Entry} {data : Array Int}
    (hsize : data.size = n * b)
    (hsmall : data.size < 9223372036854775808) (hsites : ∀ e ∈ entries, e.site.Below n)
    (hsrc : ∀ e ∈ entries, e.op.useImm = false → e.site.src ≠ noSource) :
    (entries.foldlM (fun data e => runSite b acc e.op data e.site) data).Tabulates n b
      (Action.run (entries.map (Entry.action acc)) (rowsOf data b)) := by
  unfold Action.run
  rw [List.foldlM_map]
  refine foldlM_tabulates (fun e he data hdata => ?_) hsize
  exact runSite_tabulates hdata (by omega) (hsites e he) (hsrc e he)

/-- **The order chosen ends in the values of the declared order**, and only in these. -/
theorem orderEntries_run_iff (acc : Scalar) (hsites : ∀ r ∈ ops, ∀ s ∈ r.sites, s.Below vectors)
    (hsrc : ∀ r ∈ ops, r.useImm = false → ∀ s ∈ r.sites, s.src ≠ noSource) {order : List Entry}
    (horder : orderEntries (flatten ops) vectors = .ok order) {ρ τ : Int → Row} :
    Action.run (order.map (Entry.action acc)) ρ = .ok τ ↔
      Action.run ((flatten ops).map (Entry.action acc)) ρ = .ok τ := by
  obtain ⟨free, hfree, rfl⟩ := orderEntries_eq_ok.1 horder
  cases free with
  | false => exact Iff.rfl
  | true =>
    have hperm := byDestination_perm (flatten ops)
    exact (Action.run_iff_order _ Entry.seq (placeOf _) hperm.symm (flatten_rises ops)
      (places_of_perm hperm) (hazardFree_pairwise hsites hsrc hperm hfree)).symm

/-- The number has a negative: it is not the least word. -/
def Negatable (v : Int) : Prop := -9223372036854775808 < v

theorem Negatable.wrapped (hacc : acc.Supported) (v : Int) : Negatable (acc.wrapped v) := by
  have hlo := Int.le_bmod (x := v) (m := 2 ^ (8 * acc.width)) (by positivity)
  unfold Negatable Scalar.wrapped
  rcases hacc.cases with ⟨-, hw⟩ | ⟨-, hw⟩ | ⟨-, hw⟩ <;> rw [hw] at hlo ⊢ <;>
    norm_num at hlo ⊢ <;> omega

/-- The operations are defined on all numbers but the least word, and keep away from it. -/
theorem alu_progress {op : AluOp} {x y : Int} (hop : op.code ≤ 4) (hacc : acc.Supported)
    (hx : Negatable x) (hy : Negatable y) : ∃ v, alu op x y acc = .ok v ∧ Negatable v := by
  unfold alu
  cases op with
  | min => exact ⟨_, rfl, lt_min hx hy⟩
  | max => exact ⟨_, rfl, lt_of_lt_of_le hx (le_max_left x y)⟩
  | add => exact ⟨_, hacc.wrap _, .wrapped hacc _⟩
  | mul => exact ⟨_, hacc.wrap _, .wrapped hacc _⟩
  | shr =>
    by_cases hy0 : 0 ≤ y
    · -- to the right, a negative number only rises
      refine ⟨_, if_pos hy0, ?_⟩
      rw [twoTo_eq]
      have hpos : (0 : Int) < (2 ^ (min y 63).toNat : Nat) := by positivity
      have : x ≤ x / (2 ^ (min y 63).toNat : Nat) ∨ 0 ≤ x / (2 ^ (min y 63).toNat : Nat) := by
        rcases lt_or_ge x 0 with hneg | hpos'
        · exact Or.inl (Int.le_ediv_of_mul_le hpos (by nlinarith))
        · exact Or.inr (Int.ediv_nonneg hpos' hpos.le)
      unfold Negatable at *
      omega
    · -- to the left, by the negative of the operand
      have hneg : wrap64 (-y) = -y := by
        unfold Negatable at hy
        exact wrap64_small (by omega) (by omega)
      simp only [if_neg hy0, hneg]
      split
      · exact ⟨0, rfl, by unfold Negatable; omega⟩
      · rw [if_neg (by omega)]
        exact ⟨_, hacc.wrap _, .wrapped hacc _⟩
  | unassigned code high => exact absurd high (UInt8.not_lt.2 hop)

theorem aluVector_progress {op : AluOp} {xs ys : Row} (hop : op.code ≤ 4) (hacc : acc.Supported)
    (hlen : xs.length ≤ ys.length) (hxs : ∀ x ∈ xs, Negatable x) (hys : ∀ y ∈ ys, Negatable y) :
    ∃ zs, aluVector op xs ys acc = .ok zs ∧ ∀ z ∈ zs, Negatable z := by
  induction xs generalizing ys with
  | nil => exact ⟨[], rfl, by simp⟩
  | cons x xs ih =>
    cases ys with
    | nil => simp at hlen
    | cons y ys =>
      rw [List.forall_mem_cons] at hxs hys
      obtain ⟨z, hz, hzn⟩ := alu_progress hop hacc hxs.1 hys.1
      obtain ⟨zs, hzs, hzsn⟩ := ih (by simpa using hlen) hxs.2 hys.2
      refine ⟨z :: zs, ?_, List.forall_mem_cons.2 ⟨hzn, hzsn⟩⟩
      rw [aluVector, hz, Outcome.ok_bind, hzs]
      rfl

theorem aluImmediate_progress {op : AluOp} {xs : Row} {imm : Int} (hop : op.code ≤ 4)
    (hacc : acc.Supported) (hxs : ∀ x ∈ xs, Negatable x) (himm : Negatable imm) :
    ∃ zs, aluImmediate op xs imm acc = .ok zs ∧ ∀ z ∈ zs, Negatable z := by
  have hvalue : ∀ x, Negatable x → ∃ z, alu op x imm acc = .ok z ∧ Negatable z :=
    fun x hx => alu_progress hop hacc hx himm
  choose! value hvalue hgood using hvalue
  refine ⟨xs.map value, mapM_of_forall fun x hx => hvalue x (hxs x hx), fun z hz => ?_⟩
  obtain ⟨x, hx, rfl⟩ := List.mem_map.1 hz
  exact hgood x (hxs x hx)

/-- Rows of length `b` without the least word. -/
def GoodRows (b : Nat) (ρ : Int → Row) : Prop := ∀ v, (ρ v).length = b ∧ ∀ x ∈ ρ v, Negatable x

/-- **One operation on one site** of such rows has a result, and such rows after it. -/
theorem GoodRows.apply {ρ : Int → Row} (hρ : GoodRows b ρ) {r : Resolved} (hop : r.op.code ≤ 4)
    (hacc : acc.Supported) (himm : Negatable r.imm) (s : Site) :
    ∃ τ, (r.action acc s).apply ρ = .ok τ ∧ GoodRows b τ := by
  obtain ⟨row, hrow, hgood⟩ : ∃ row, (r.action acc s).value ρ = .ok row ∧
      ∀ x ∈ row, Negatable x := by
    unfold Action.value Resolved.action
    cases r.useImm with
    | true => exact aluImmediate_progress hop hacc (hρ _).2 himm
    | false => exact aluVector_progress hop hacc ((hρ _).1.trans (hρ _).1.symm).le (hρ _).2 (hρ _).2
  refine ⟨_, Action.apply_eq_ok.2 ⟨row, hrow, rfl⟩, fun v => ?_⟩
  by_cases hv : v = s.dst
  · rw [hv]
    refine ⟨?_, ?_⟩
    · rw [show (r.action acc s).dst = s.dst from rfl, Function.update_self,
        Resolved.act_length (r := r) (s := s) hrow]
      exact (hρ _).1
    · rw [show (r.action acc s).dst = s.dst from rfl, Function.update_self]
      exact hgood
  · rw [show (r.action acc s).dst = s.dst from rfl, Function.update_of_ne hv]
    exact hρ v

/-- **Entries on such rows** have a result. -/
theorem GoodRows.run {ρ : Int → Row} (hρ : GoodRows b ρ) {entries : List Entry}
    (hop : ∀ e ∈ entries, e.op.op.code ≤ 4) (hacc : acc.Supported)
    (himm : ∀ e ∈ entries, Negatable e.op.imm) :
    ∃ τ, Action.run (entries.map (Entry.action acc)) ρ = .ok τ := by
  induction entries generalizing ρ with
  | nil => exact ⟨ρ, Action.run_nil.2 rfl⟩
  | cons e es ih =>
    rw [List.forall_mem_cons] at hop himm
    obtain ⟨τ, hτ, hgood⟩ := hρ.apply hop.1 hacc himm.1 e.site
    obtain ⟨τ', hτ'⟩ := ih hgood hop.2 himm.2
    exact ⟨τ', Action.run_cons.2 ⟨τ, hτ, hτ'⟩⟩

theorem goodRows_rowsOf {data : Array Int} (h : ∀ x ∈ data, Negatable x) :
    GoodRows b (rowsOf data b) := by
  refine fun v => ⟨length_rowsOf .., fun x hx => ?_⟩
  obtain ⟨j, -, rfl⟩ := List.mem_map.1 hx
  have hzero : Negatable 0 := by
    unfold Negatable
    omega
  split
  · exact hzero
  · rw [Array.getD_eq_getD_getElem?]
    cases hx : data[v.toNat * b + j]? with
    | none => exact hzero
    | some x => exact h x (Array.mem_of_getElem? hx)

/-- **The operations on a stack without the least word** have a result. -/
theorem runOps_progress (hop : ∀ r ∈ ops, r.op.code ≤ 4)
    (hsites : ∀ r ∈ ops, ∀ s ∈ r.sites, s.Below n)
    (hsrc : ∀ r ∈ ops, r.useImm = false → ∀ s ∈ r.sites, s.src ≠ noSource)
    {m : Matrix} (hcols : m.cols = b) (hsize : m.data.size = n * b)
    (hsmall : m.data.size < 9223372036854775808) (hacc : acc.Supported)
    (hdata : ∀ x ∈ m.data, Negatable x) (himm : ∀ r ∈ ops, Negatable r.imm) :
    ∃ m', runOps m ops acc = .ok m' := by
  obtain ⟨τ, hτ⟩ :
      ∃ τ, Action.run ((flatten ops).map (Entry.action acc)) (rowsOf m.data b) = .ok τ :=
    (goodRows_rowsOf hdata).run (fun e he => hop _ (mem_flatten he).1) hacc
      (fun e he => himm _ (mem_flatten he).1)
  have htable := entries_tabulate acc hsize hsmall
    (below_of_sites hsites) (source_of_sites hsrc)
  obtain ⟨data, hdata, -⟩ := Outcome.map_eq_ok.1 (htable.rows.trans hτ)
  rw [← runEntries_flatten hop]
  unfold runEntries
  rw [hcols, hdata]
  exact ⟨_, rfl⟩

/-- **Entries in the order chosen** do what the operations do in declared order, failures
included. -/
theorem runEntries_orderEntries (hop : ∀ r ∈ ops, r.op.code ≤ 4)
    (hsites : ∀ r ∈ ops, ∀ s ∈ r.sites, s.Below vectors)
    (hsrc : ∀ r ∈ ops, r.useImm = false → ∀ s ∈ r.sites, s.src ≠ noSource)
    {m : Matrix} (hcols : m.cols = b) (hsize : m.data.size = n * b)
    (hsmall : m.data.size < 9223372036854775808) (hn : vectors ≤ n) {order : List Entry}
    (horder : orderEntries (flatten ops) vectors = .ok order) :
    runEntries m order acc = runOps m ops acc := by
  have hfaults : ∀ {entries : List Entry}, (∀ e ∈ entries, e ∈ flatten ops) →
      (entries.foldlM (fun data e => runSite b acc e.op data e.site) m.data).OnlyFaults :=
    fun hsub => .foldlM (fun data e he =>
      runSite_faults (hop _ (mem_flatten (hsub e he)).1) _ data e.site) _
  have htable : ∀ {entries : List Entry}, (∀ e ∈ entries, e ∈ flatten ops) →
      (entries.foldlM (fun data e => runSite b acc e.op data e.site) m.data).Tabulates n b
        (Action.run (entries.map (Entry.action acc)) (rowsOf m.data b)) := by
    intro entries hsub
    refine entries_tabulate acc hsize hsmall (fun e he => ?_) (fun e he himm => ?_)
    · obtain ⟨hdst, hread⟩ := below_of_sites hsites e (hsub e he)
      exact ⟨by omega, fun hne => by have := hread hne; omega⟩
    · exact source_of_sites hsrc e (hsub e he) himm
  have hmem : ∀ e ∈ order, e ∈ flatten ops := fun e he => (orderEntries_perm horder).subset he
  have hall : ∀ e ∈ flatten ops, e ∈ flatten ops := fun e he => he
  -- the tables are equal where there are any, and both sides fault where there are none
  have hrun := fun ρ => orderEntries_run_iff acc hsites hsrc horder (τ := ρ) (ρ := rowsOf m.data b)
  rw [← runEntries_flatten hop]
  unfold runEntries
  rw [hcols, (hfaults hmem).ext (hfaults hall) fun data => ⟨?_, ?_⟩]
  · exact (htable hmem).eq_ok_of (htable hall) fun ρ => (hrun ρ).1
  · exact (htable hall).eq_ok_of (htable hmem) fun ρ => (hrun ρ).2

end Runs

/-- **Reordering is decided exactly and changes nothing.** For operations on vectors below
`vectors`, the check comes to an end, and passes exactly for the orders in which every two entries
that share a vector one of them writes come as declared. The order chosen is the one by
destination, entries with one destination as declared, if that is such an order, and the declared
one otherwise. On every stack that has these vectors, the entries in the order chosen, one by one,
come to what the operations come to in declared order. They come to a stack unless the stack or an
operand has the least word, by whose negative a shift is not defined. -/
theorem entries_reordered {ops : List Resolved} {vectors : Nat}
    (hsites : ∀ r ∈ ops, ∀ s ∈ r.sites, s.Below vectors) :
    (∀ order : List Entry, order.Perm (flatten ops) →
      ∃ free, hazardFree (flatten ops) order vectors = .ok free ∧
        (free = true ↔ ∀ e f, [e, f].Sublist (flatten ops) → e.Shares f → [e, f].Sublist order)) ∧
    ∃ sorted order, (sorted.Perm (flatten ops) ∧ sorted.Pairwise Entry.Before) ∧
      orderEntries (flatten ops) vectors = .ok order ∧
      (KeepsDeclared ops sorted → order = sorted) ∧
      (¬KeepsDeclared ops sorted → order = flatten ops) ∧
      ((∀ r ∈ ops, r.op.code ≤ 4) →
        (∀ r ∈ ops, r.useImm = false → ∀ s ∈ r.sites, s.src ≠ noSource) →
        ∀ (m : Matrix) (acc : Scalar), m.WellFormed → vectors ≤ m.rows →
          m.data.size < 9223372036854775808 →
          runEntries m order acc = runOps m ops acc ∧
          (acc.Supported → (∀ x ∈ m.data, Negatable x) → (∀ r ∈ ops, Negatable r.imm) →
            ∃ m', runOps m ops acc = .ok m')) := by
  refine ⟨fun order hperm => hazardFree_iff_keeps hsites hperm, ?_⟩
  obtain ⟨order, horder, hkeeps, hdeclared⟩ := orderEntries_ok hsites
  refine ⟨_, order, ⟨byDestination_perm _, byDestination_before ops⟩, horder, hkeeps, hdeclared, ?_⟩
  intro hop hsrc m acc hm hrows hsmall
  obtain ⟨hrows0, hcols0, hsize⟩ := hm
  obtain ⟨n, hn⟩ := Int.eq_ofNat_of_zero_le hrows0
  obtain ⟨b, hb⟩ := Int.eq_ofNat_of_zero_le hcols0
  have hsize : m.data.size = n * b := by
    rw [hn, hb] at hsize
    exact_mod_cast hsize
  have hvectors : vectors ≤ n := by omega
  refine ⟨runEntries_orderEntries hop hsites hsrc hb hsize hsmall hvectors horder,
    fun hacc hdata himm => ?_⟩
  refine runOps_progress hop (fun r hr s hs => ?_) hsrc hb hsize hsmall hacc hdata himm
  obtain ⟨hdst, hread⟩ := hsites r hr s hs
  exact ⟨by omega, fun hne => by have := hread hne; omega⟩

/-- A sum into vector 1, and then a number added to the vector it reads. -/
def readThenWrite : List Resolved :=
  [⟨0, "ADD", .add, false, 0, [⟨1, 0⟩]⟩, ⟨1, "ADD_IMM", .add, true, 4, [⟨0, noSource⟩]⟩]

/-- The vector read is written later: by destination, the sum would come too late, and the order
stays as declared. -/
theorem readThenWrite_reordered :
    hazardFree (flatten readThenWrite) (flatten readThenWrite).reverse 2 = .ok false ∧
    ∃ order, orderEntries (flatten readThenWrite) 2 = .ok order ∧ order = flatten readThenWrite ∧
      runEntries ⟨2, 1, #[5, 7]⟩ order ⟨3⟩ = .ok ⟨2, 1, #[9, 12]⟩ := by
  have hsites : ∀ r ∈ readThenWrite, ∀ s ∈ r.sites, s.Below 2 := by decide
  obtain ⟨hexact, sorted, order, ⟨hperm, hbefore⟩, horder, -, hdeclared, hrun⟩ :=
    entries_reordered hsites
  -- the sum comes first, and shares its source with what comes second
  have hpair : flatten readThenWrite =
      [(flatten readThenWrite)[0], (flatten readThenWrite)[1]] := by decide
  have hshares : (flatten readThenWrite)[0].Shares (flatten readThenWrite)[1] := by decide
  have hlate : ¬KeepsDeclared readThenWrite sorted := fun hkeeps => by
    have := List.pairwise_iff_forall_sublist.1 hbefore (hkeeps _ _ (by rw [← hpair]) hshares)
    unfold Entry.Before at this
    revert this
    decide
  obtain ⟨heq, -⟩ := hrun (by decide) (by decide) ⟨2, 1, #[5, 7]⟩ ⟨3⟩ ⟨by decide, by decide, by decide⟩
    (by decide) (by decide)
  refine ⟨?_, order, horder, hdeclared hlate, ?_⟩
  · obtain ⟨free, hfree, hiff⟩ := hexact _ (List.reverse_perm _)
    cases free with
    | false => exact hfree
    | true =>
      have := hiff.1 rfl _ _ (by rw [← hpair]) hshares
      revert this
      decide
  · rw [heq]
    decide

end Tessera
