import Tessera.Proofs.Contents
import Tessera.Proofs.Groups
import Tessera.Proofs.Microcode

/-!
# Steps on the machine

The code of a step makes the machine do what the step does to vectors: its rows of the
accumulator hold what the rows of the schedule's own replay hold, and the output
scratchpad holds the narrowed copies.

* `positions_eq`: the table of positions.
* `Machine.Mirrors`: the machine's rows are those of a replay.
* `rowSteps_mirrors`: rows written one after the other.
-/

namespace Tessera

/-- **The table of positions** says where a number stands first. -/
theorem positions_eq (xs : List Int) (v : Int) : (positions xs)[v]? = xs.idxOf? v := by
  have key : ∀ (xs : List Int) (k : Nat) (m : Positions),
      ((xs.zipIdx k).foldl (fun (m : Positions) (q : Int × Nat) => m.insertIfNew q.1 q.2) m)[v]? =
        (m[v]?).or ((xs.idxOf? v).map (k + ·)) := by
    intro xs
    induction xs with
    | nil => intro k m; simp
    | cons x xs ih =>
      intro k m
      rw [List.zipIdx_cons, List.foldl_cons, ih, Std.TreeMap.getElem?_insertIfNew,
        List.idxOf?_cons]
      by_cases hx : x = v
      · subst hx
        cases hm : m[x]? with
        | none =>
          have : x ∉ m := by
            intro hmem
            rw [Std.TreeMap.mem_iff_isSome_getElem?, hm] at hmem
            cases hmem
          simp [this]
        | some i =>
          have : x ∈ m := by
            rw [Std.TreeMap.mem_iff_isSome_getElem?, hm]
            rfl
          simp [this]
      · have hcmp : compare x v ≠ .eq := by simpa using hx
        simp only [hcmp, false_and, if_false, beq_iff_eq, hx, Option.map_map]
        congr 2
        funext i
        simp only [Function.comp_apply]
        omega
  have := key xs 0 {}
  simpa [positions] using this

namespace Machine

/-- The machine's rows are those of a replay, and its copies are narrowed. -/
structure Mirrors (m : Machine) (s : State) (ρ : Rows) : Prop where
  acc : s.acc = ρ.acc
  out : s.out = fun n => (ρ.out n).map (m.out.narrowed m.clip)

/-- What computing leaves alone. -/
structure Keeps (s s' : State) : Prop where
  mem : s'.mem = s.mem
  inp : s'.inp = s.inp
  wgt : s'.wgt = s.wgt

theorem Keeps.trans {s s' s'' : State} (h : Keeps s s') (h' : Keeps s' s'') : Keeps s s'' :=
  ⟨h'.mem.trans h.mem, h'.inp.trans h.inp, h'.wgt.trans h.wgt⟩

theorem setRow_mirrors {m : Machine} (hout : m.out.Supported) {s : State} {ρ : Rows}
    (h : m.Mirrors s ρ) (n : Nat) (x : Row) :
    ∃ s', m.setRow s n x = .ok s' ∧ Keeps s s' ∧ m.Mirrors s' { ρ with
      acc := Function.update ρ.acc n x, out := Function.update ρ.out n x } := by
  refine ⟨_, setRow_eq_ok.2 ⟨_, mapM_of_forall fun v _ => hout.narrow v m.clip, rfl⟩, ⟨rfl, rfl, rfl⟩,
    ?_, ?_⟩
  · simp only [h.acc]
  · funext k
    simp only [h.out]
    by_cases hk : k = n
    · subst hk
      rw [Function.update_self, Function.update_self]
    · rw [Function.update_of_ne hk, Function.update_of_ne hk]

/-- An iteration writes what an action writes, where the action's vector stands. -/
def Enacts (m : Machine) (row : State → MicroOp → Outcome Row) (place : Int → Option Nat)
    (start : State) (u : MicroOp) (a : Action) : Prop :=
  ∀ s ρ ρ', Keeps start s → m.Mirrors s ρ → ρ.act ⟨place, .act a⟩ a = .ok ρ' →
    ∃ x, row s u = .ok x ∧ ρ' = { ρ with
      acc := Function.update ρ.acc u.dst.toNat x, out := Function.update ρ.out u.dst.toNat x }

/-- **Rows written one after the other** mirror the actions they stand for. -/
theorem rowSteps_mirrors {m : Machine} (hout : m.out.Supported)
    {row : State → MicroOp → Outcome Row} {place : Int → Option Nat} {start : State}
    {memory : Int → Row} {us : List MicroOp} {as : List Action}
    (h : List.Forall₂ (m.Enacts row place start) us as) {s : State} {ρ ρ' : Rows}
    (hkeep : Keeps start s) (hm : m.Mirrors s ρ)
    (hrun : ρ.run memory (as.map fun a => ⟨place, .act a⟩) = .ok ρ') :
    ∃ s', m.rowSteps row us s = .ok s' ∧ Keeps start s' ∧ m.Mirrors s' ρ' := by
  induction h generalizing s ρ with
  | nil =>
    obtain rfl := Outcome.pure_eq_ok.1 hrun
    exact ⟨s, rfl, hkeep, hm⟩
  | cons hua _ ih =>
    obtain ⟨ρ1, h1, hrun⟩ := foldlM_cons_eq_ok.1 hrun
    obtain ⟨x, hx, rfl⟩ := hua s ρ ρ1 hkeep hm h1
    obtain ⟨s1, hs1, hk1, hm1⟩ := setRow_mirrors hout hm _ x
    obtain ⟨s', hs', hk', hm'⟩ := ih (hkeep.trans hk1) hm1 hrun
    exact ⟨s', foldlM_cons_eq_ok.2 ⟨s1, Outcome.bind_ok hx hs1, hs'⟩, hk', hm'⟩

end Machine

/-- Where the vectors of an action stand, and what it writes there. -/
theorem Rows.act_eq_ok {e : Located} {ρ ρ' : Rows} {a : Action} (h : ρ.act e a = .ok ρ') :
    ∃ row x, e.place a.dst = some row ∧
      (match a.src with
        | none => a.act (ρ.acc row) [] = .ok x
        | some u => ∃ second, e.place u = some second ∧ a.act (ρ.acc row) (ρ.acc second) = .ok x) ∧
      ρ' = { ρ with acc := Function.update ρ.acc row x, out := Function.update ρ.out row x } := by
  unfold Rows.act Rows.rowOf at h
  obtain ⟨row, hrow, h⟩ := Outcome.bind_eq_ok.1 h
  have hrow := Outcome.ofOption_eq_ok.1 hrow
  cases hsrc : a.src with
  | none =>
    rw [hsrc] at h
    obtain ⟨second, hsecond, h⟩ := Outcome.bind_eq_ok.1 h
    obtain rfl := Outcome.pure_eq_ok.1 hsecond
    obtain ⟨x, hx, h⟩ := Outcome.bind_eq_ok.1 h
    exact ⟨row, x, hrow, hx, (Outcome.pure_eq_ok.1 h).symm⟩
  | some u =>
    rw [hsrc] at h
    obtain ⟨n, hn, h⟩ := Outcome.bind_eq_ok.1 h
    obtain ⟨second, hsecond, h⟩ := Outcome.bind_eq_ok.1 h
    obtain rfl := Outcome.pure_eq_ok.1 hsecond
    obtain ⟨x, hx, h⟩ := Outcome.bind_eq_ok.1 h
    exact ⟨row, x, hrow, ⟨n, Outcome.ofOption_eq_ok.1 hn, hx⟩, (Outcome.pure_eq_ok.1 h).symm⟩

namespace Machine

/-- **An iteration of GEMM is a row of a product**, if the scratchpads hold its
operands. -/
theorem gemm_enacts {m : Machine} {d : Shaped} (hacc : m.acc.Supported) (hb : d.b = m.b)
    {place : Int → Option Nat} {start : State} {i : Instruction} (hi : i.reset = false)
    {u : MicroOp} {c a w r : Int} (hdst : place (c * d.b + r) = some u.dst.toNat)
    (hinp : start.inp u.src.toNat = (blockOf d.a a).line m.b r.toNat)
    (hwgt : start.wgt u.wgt.toNat = (blockOf d.w w).columns m.b) :
    m.Enacts (fun s u => m.gemmRow s i u) place start u (productAction d m.acc c a w r) := by
  intro s ρ ρ' hkeep hm h
  obtain ⟨row, x, hrow, hx, rfl⟩ := Rows.act_eq_ok h
  simp only [productAction, Except.ok.injEq] at hrow hx
  rw [hdst] at hrow
  obtain rfl := Option.some.inj hrow
  refine ⟨x, ?_, rfl⟩
  rw [← hx]
  show m.gemmRow s i u = _
  unfold gemmRow productRow
  rw [hi, hkeep.inp, hkeep.wgt, hm.acc, hinp, hwgt, hb]
  simp only [Bool.false_eq_true, if_false, Int.toNat_natCast]
  refine mapM_of_forall fun n hn => ?_
  rw [hacc.wrap]
  congr 3
  congr 1
  apply List.map_congr_left
  intro k hk
  rw [Block.getD_columns (List.mem_range.1 hn) (List.mem_range.1 hk)]

/-- **An iteration of ALU is an operation on a site.** -/
theorem alu_enacts {m : Machine} {place : Int → Option Nat} {start : State} {i : Instruction}
    {r : Resolved} {site : Site} {u : MicroOp} (hop : i.aluOp = r.op) (huse : i.useImm = r.useImm)
    (himm : i.imm.toInt = r.imm) (hdst : place site.dst = some u.dst.toNat)
    (hsrc : r.useImm = false → place site.src = some u.src.toNat) :
    m.Enacts (fun s u => m.aluRow s i u) place start u (r.action m.acc site) := by
  intro s ρ ρ' hkeep hm h
  obtain ⟨row, x, hrow, hx, rfl⟩ := Rows.act_eq_ok h
  simp only [Resolved.action] at hrow hx
  rw [hdst] at hrow
  obtain rfl := Option.some.inj hrow
  refine ⟨x, ?_, rfl⟩
  show m.aluRow s i u = _
  unfold aluRow
  rw [hop, huse, himm, hm.acc]
  cases hu : r.useImm with
  | true =>
    rw [hu] at hx
    exact hx
  | false =>
    rw [hu] at hx
    obtain ⟨second, hsecond, hx⟩ := hx
    rw [hsrc hu] at hsecond
    obtain rfl := Option.some.inj hsecond
    exact hx

end Machine

/-- Replacing as many rows as a block has. -/
theorem fill_range {α : Type} (f : Nat → α) (start n : Nat) (g : Nat → α) :
    fill f start ((List.range n).map g) =
      (List.range n).foldl (fun f r => Function.update f (start + r) (g r)) f := by
  induction n with
  | zero =>
    funext k
    simp [fill]
  | succ n ih =>
    have := fill_append f start ((List.range n).map g) [g n]
    rw [List.length_map, List.length_range, fill_singleton, ih] at this
    rw [List.range_succ, List.map_append, List.foldl_append]
    exact this.symm

/-- Loads in a replay. -/
theorem Rows.run_loads {memory : Int → Row} {place : Int → Option Nat} {vs : List Int} {ρ : Rows}
    (h : ∀ v ∈ vs, ∃ row, place v = some row) :
    ρ.run memory (vs.map fun v => ⟨place, .load v⟩) = .ok { ρ with
      acc := vs.foldl (fun f v => Function.update f ((place v).getD 0) (memory v)) ρ.acc } := by
  induction vs generalizing ρ with
  | nil => rfl
  | cons v vs ih =>
    obtain ⟨row, hrow⟩ := h v List.mem_cons_self
    have hstep : ρ.step memory ⟨place, .load v⟩ =
        .ok { ρ with acc := Function.update ρ.acc row (memory v) } := by
      simp only [Rows.step, Rows.rowOf, hrow]
      rfl
    have hnext := ih (ρ := { ρ with acc := Function.update ρ.acc row (memory v) })
      fun u hu => h u (List.mem_cons_of_mem _ hu)
    rw [List.map_cons]
    refine foldlM_cons_eq_ok.2 ⟨_, hstep, ?_⟩
    rw [List.foldl_cons, hrow]
    exact hnext

/-- Stores in a replay. -/
theorem Rows.run_stores {memory : Int → Row} {place : Int → Option Nat} {vs : List Int} {ρ ρ' : Rows}
    (h : ρ.run memory (vs.map fun v => ⟨place, .store v⟩) = .ok ρ') :
    (∀ v ∈ vs, ∃ row, place v = some row) ∧
      ρ' = { ρ with
        stored := ρ.stored ++ vs.map fun v => ρ.acc ((place v).getD 0)
        copies := ρ.copies ++ vs.map fun v => ρ.out ((place v).getD 0) } := by
  induction vs generalizing ρ with
  | nil =>
    obtain rfl := Outcome.pure_eq_ok.1 h
    simp
  | cons v vs ih =>
    obtain ⟨ρ1, h1, h⟩ := foldlM_cons_eq_ok.1 h
    simp only [Rows.step, Rows.rowOf] at h1
    obtain ⟨row, hrow, h1⟩ := Outcome.bind_eq_ok.1 h1
    have hrow := Outcome.ofOption_eq_ok.1 hrow
    obtain rfl := Outcome.pure_eq_ok.1 h1
    obtain ⟨h2, rfl⟩ := ih h
    refine ⟨fun u hu => ?_, by simp [hrow]⟩
    rcases List.mem_cons.1 hu with rfl | hu
    · exact ⟨row, hrow⟩
    · exact h2 u hu

/-- Only stores make copies. -/
theorem Rows.run_copies {memory : Int → Row} {trace : List Located} {ρ ρ' : Rows}
    (htrace : ∀ e ∈ trace, ∀ v, e.move ≠ .store v) (h : ρ.run memory trace = .ok ρ') :
    ρ'.copies = ρ.copies := by
  induction trace generalizing ρ with
  | nil =>
    obtain rfl := Outcome.pure_eq_ok.1 h
    rfl
  | cons e trace ih =>
    obtain ⟨ρ1, h1, h⟩ := foldlM_cons_eq_ok.1 h
    rw [ih (fun f hf => htrace f (List.mem_cons_of_mem _ hf)) h]
    unfold Rows.step at h1
    cases hm : e.move with
    | load v =>
      rw [hm] at h1
      obtain ⟨row, -, h1⟩ := Outcome.bind_eq_ok.1 h1
      obtain rfl := Outcome.pure_eq_ok.1 h1
      rfl
    | act a =>
      rw [hm] at h1
      obtain ⟨row, x, -, -, rfl⟩ := Rows.act_eq_ok h1
      rfl
    | store v => exact absurd hm (htrace e List.mem_cons_self v)

/-- All rows have one length. -/
structure Rows.Even (b : Nat) (ρ : Rows) : Prop where
  acc : ∀ n, (ρ.acc n).length = b
  out : ∀ n, (ρ.out n).length = b
  copies : ∀ row ∈ ρ.copies, row.length = b

/-- An action that keeps the length of its vector. -/
def Action.Even (b : Nat) (a : Action) : Prop :=
  ∀ x y z, a.act x y = .ok z → x.length = b → z.length = b

theorem length_update {b : Nat} {f : Nat → Row} (hf : ∀ n, (f n).length = b) {row : Nat} {x : Row}
    (hx : x.length = b) (n : Nat) : (Function.update f row x n).length = b := by
  by_cases hn : n = row
  · subst hn
    rw [Function.update_self]
    exact hx
  · rw [Function.update_of_ne hn]
    exact hf n

theorem Rows.step_even {b : Nat} {memory : Int → Row} (hmem : ∀ v, (memory v).length = b)
    {e : Located} (he : ∀ a, e.move = .act a → a.Even b) {ρ ρ' : Rows} (hρ : ρ.Even b)
    (h : ρ.step memory e = .ok ρ') : ρ'.Even b := by
  unfold Rows.step at h
  cases hm : e.move with
  | load v =>
    rw [hm] at h
    obtain ⟨row, -, h⟩ := Outcome.bind_eq_ok.1 h
    obtain rfl := Outcome.pure_eq_ok.1 h
    exact ⟨length_update hρ.acc (hmem v), hρ.out, hρ.copies⟩
  | act a =>
    rw [hm] at h
    obtain ⟨row, x, -, hx, rfl⟩ := Rows.act_eq_ok h
    have hlen : x.length = b := by
      cases hsrc : a.src with
      | none =>
        rw [hsrc] at hx
        exact he a hm _ _ _ hx (hρ.acc row)
      | some u =>
        rw [hsrc] at hx
        obtain ⟨second, -, hx⟩ := hx
        exact he a hm _ _ _ hx (hρ.acc row)
    exact ⟨length_update hρ.acc hlen, length_update hρ.out hlen, hρ.copies⟩
  | store v =>
    rw [hm] at h
    obtain ⟨row, -, h⟩ := Outcome.bind_eq_ok.1 h
    obtain rfl := Outcome.pure_eq_ok.1 h
    refine ⟨hρ.acc, hρ.out, fun x hx => ?_⟩
    rcases List.mem_append.1 hx with hx | hx
    · exact hρ.copies x hx
    · rw [List.mem_singleton.1 hx]
      exact hρ.out row

/-- Rows of one length keep it. -/
theorem Rows.run_even {b : Nat} {memory : Int → Row} (hmem : ∀ v, (memory v).length = b)
    {trace : List Located} (htrace : ∀ e ∈ trace, ∀ a, e.move = .act a → a.Even b) {ρ ρ' : Rows}
    (hρ : ρ.Even b) (h : ρ.run memory trace = .ok ρ') : ρ'.Even b := by
  induction trace generalizing ρ with
  | nil =>
    obtain rfl := Outcome.pure_eq_ok.1 h
    exact hρ
  | cons e trace ih =>
    obtain ⟨ρ1, h1, h⟩ := foldlM_cons_eq_ok.1 h
    exact ih (fun f hf => htrace f (List.mem_cons_of_mem _ hf))
      (Rows.step_even hmem (htrace e List.mem_cons_self) hρ h1) h

theorem StepOp.actions_even {d : Shaped} {acc : Scalar} {op : StepOp} :
    ∀ a ∈ op.actions d acc, a.Even d.b.toNat := by
  intro a ha x y z hz hx
  cases op with
  | gemm c i w =>
    obtain ⟨r, -, rfl⟩ := List.mem_map.1 ha
    simp only [productAction, Except.ok.injEq] at hz
    rw [← hz, productRow, List.length_map, List.length_range]
  | alu r sites =>
    obtain ⟨site, -, rfl⟩ := List.mem_map.1 ha
    rw [Resolved.act_length hz, hx]

/-- What a step does to rows keeps their length. -/
theorem Step.run_even {d : Shaped} {acc : Scalar} {st : Step} {ρ ρ' : Rows}
    (hρ : ρ.Even d.b.toNat) (h : ρ.run d.initial (st.trace d acc) = .ok ρ') : ρ'.Even d.b.toNat := by
  refine Rows.run_even (fun v => by simp [Shaped.initial]) (fun e he a ha => ?_) hρ h
  rcases mem_trace he with ⟨v, -, hm⟩ | ⟨a', ha', hm⟩ | ⟨v, -, hm⟩
  · rw [hm] at ha
    cases ha
  · rw [hm] at ha
    cases ha
    obtain ⟨op, -, hop⟩ := List.mem_flatMap.1 ha'
    exact StepOp.actions_even a hop
  · rw [hm] at ha
    cases ha

namespace Step

variable {b : Nat} {s : Step}

/-- The rows of a resident block. -/
theorem place_block (hb : 1 ≤ b) (hg : s.residentGrain = .block) {n : Int} (hn : 0 ≤ n) {i r : Nat}
    (hi : s.sramResident.idxOf? n = some i) (hr : r < b) :
    s.place b (n * b + r) = some (i * b + r) := by
  have hnonneg : 0 ≤ n * (b : Int) := Int.mul_nonneg hn (by omega)
  obtain ⟨hdiv, hmod⟩ := row_col_ediv (i := n) (show (0 : Int) ≤ r by omega) (show (r : Int) < b by omega)
  unfold place
  rw [if_neg (by omega), hg]
  simp only [hdiv, hi, hmod, Option.map_some, Int.toNat_natCast]

end Step

/-- The rows of some blocks, loaded where the blocks stand. -/
def loadBlocks (b : Nat) (slot : Int → Nat) (block : Int → Nat → Row) (ids : List Int)
    (f : Nat → Row) : Nat → Row :=
  ids.foldl (fun f n => fill f (slot n * b) ((List.range b).map (block n))) f

theorem loadBlocks_append (b : Nat) (slot : Int → Nat) (block : Int → Nat → Row) (xs ys : List Int)
    (f : Nat → Row) :
    loadBlocks b slot block (xs ++ ys) f = loadBlocks b slot block ys (loadBlocks b slot block xs f) :=
  List.foldl_append

theorem loadBlocks_map (b : Nat) (slot : Int → Nat) (block : Int → Nat → Row) (g : Int → Int)
    (ids : List Int) (f : Nat → Row) :
    loadBlocks b slot block (ids.map g) f = loadBlocks b (slot ∘ g) (block ∘ g) ids f :=
  List.foldl_map

theorem loadBlocks_congr {b : Nat} {slot slot' : Int → Nat} {block block' : Int → Nat → Row}
    {ids : List Int} (hslot : ∀ n ∈ ids, slot n = slot' n)
    (hblock : ∀ n ∈ ids, ∀ r < b, block n r = block' n r) (f : Nat → Row) :
    loadBlocks b slot block ids f = loadBlocks b slot' block' ids f := by
  unfold loadBlocks
  induction ids generalizing f with
  | nil => rfl
  | cons n ids ih =>
    rw [List.foldl_cons, List.foldl_cons, hslot n List.mem_cons_self,
      List.map_congr_left fun r hr => hblock n List.mem_cons_self r (List.mem_range.1 hr)]
    exact ih (fun n hn => hslot n (List.mem_cons_of_mem _ hn))
      (fun n hn => hblock n (List.mem_cons_of_mem _ hn)) _

/-- A block that was loaded stands in its rows, if no two blocks share a slot. -/
theorem loadBlocks_at {b : Nat} {slot : Int → Nat} (block : Int → Nat → Row) {ids : List Int}
    (hslot : ∀ n ∈ ids, ∀ n' ∈ ids, slot n = slot n' → n = n') {n : Int} (hn : n ∈ ids) {r : Nat}
    (hr : r < b) (f : Nat → Row) : loadBlocks b slot block ids f (slot n * b + r) = block n r := by
  induction ids using List.reverseRecOn with
  | nil => cases hn
  | append_singleton ids k ih =>
    rw [loadBlocks_append]
    simp only [loadBlocks, List.foldl_cons, List.foldl_nil]
    by_cases hnk : n = k
    · subst hnk
      unfold fill
      rw [if_neg (by omega), Nat.add_sub_cancel_left, List.getElem?_map, List.getElem?_range hr]
      rfl
    · have hmem : n ∈ ids := (List.mem_append.1 hn).resolve_right (by simpa using hnk)
      have hne : slot n ≠ slot k := fun heq => hnk (hslot n hn k (by simp) heq)
      rw [← ih (fun x hx y hy => hslot x (List.mem_append_left _ hx) y (List.mem_append_left _ hy)) hmem]
      unfold fill
      rcases Nat.lt_or_gt_of_ne hne with hlt | hgt
      · have := row_room b (show slot n < slot k by omega)
        rw [if_pos (by omega)]
        rfl
      · have := row_room b (show slot k < slot n by omega)
        rw [if_neg (by omega), List.getElem?_eq_none (by simp; omega)]
        rfl

/-- The loads of blocks in a replay. -/
theorem Rows.run_loadBlocks {memory : Int → Row} {b : Nat} {s : Step} {ids : List Int} {ρ : Rows}
    (hb : 1 ≤ b) (hg : s.residentGrain = .block) (hids : ∀ n ∈ ids, 0 ≤ n ∧ n ∈ s.sramResident) :
    ρ.run memory ((vectorsOf b ids).map fun v => ⟨s.place b, .load v⟩) = .ok { ρ with
      acc := loadBlocks b (fun n => (s.sramResident.idxOf? n).getD 0)
        (fun n r => memory (n * b + r)) ids ρ.acc } := by
  have hplace : ∀ n ∈ ids, ∀ r < b, s.place b (n * b + r) =
      some ((s.sramResident.idxOf? n).getD 0 * b + r) := by
    intro n hn r hr
    obtain ⟨h0, hmem⟩ := hids n hn
    obtain ⟨i, hi⟩ := exists_idxOf? hmem
    rw [Step.place_block hb hg h0 hi hr, hi]
    rfl
  rw [Rows.run_loads]
  · congr 2
    unfold loadBlocks vectorsOf
    rw [List.foldl_flatMap]
    refine List.foldl_ext _ _ _ fun f n hn => ?_
    rw [fill_range, below, Int.toNat_natCast, List.map_map, List.foldl_map]
    refine List.foldl_ext _ _ _ fun f r hr => ?_
    simp only [Function.comp_apply, Int.ofNat_eq_natCast]
    rw [hplace n hn r (List.mem_range.1 hr)]
    rfl
  · intro v hv
    obtain ⟨n, hn, hv⟩ := List.mem_flatMap.1 hv
    obtain ⟨r, hr, rfl⟩ := List.mem_map.1 hv
    obtain ⟨h0, h1⟩ := mem_below.1 hr
    obtain ⟨r, rfl⟩ := Int.eq_ofNat_of_zero_le h0
    exact ⟨_, hplace n hn r (by omega)⟩

end Tessera
