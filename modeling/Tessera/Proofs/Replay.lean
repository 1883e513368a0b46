import Tessera.Proofs.Action

/-!
# Vectors in rows

While a schedule runs, vectors stand in rows of the accumulator. A vector is loaded
into a row, actions work on the rows of their vectors, and rows are stored; which
vector stands where changes from step to step.

* `Motion`, `Located`: one thing that happens to a vector, and where vectors stand.
* `Rows.run`: moves on the rows.
* `Disciplined`: what is read was loaded to where it stands, and what is loaded was
  not yet written.
* `replay_prefix`: then every row that is read holds the value of its vector.
* `replay_run`: and what is stored are the vectors' final values.
-/

namespace Tessera

/-- One thing that happens to a vector. -/
inductive Motion where
  /-- Its row takes the value it has in memory. -/
  | load (v : Int)
  /-- An action writes it. -/
  | act (a : Action)
  /-- Its row goes to the output. -/
  | store (v : Int)

namespace Motion

/-- The vectors whose rows a move reads. -/
def reads : Motion → List Int
  | load _ => []
  | act a => a.reads
  | store v => [v]

/-- The vectors a move is about. -/
def touches : Motion → List Int
  | load v => [v]
  | act a => a.reads
  | store v => [v]

/-- The actions among some moves. -/
def actions (ms : List Motion) : List Action :=
  ms.filterMap fun
    | act a => some a
    | _ => none

/-- The vectors that some moves store. -/
def stores (ms : List Motion) : List Int :=
  ms.filterMap fun
    | store v => some v
    | _ => none

end Motion

/-- A move, and where vectors stand when it is made. -/
structure Located where
  place : Int → Option Nat
  move : Motion

/-- The rows of the accumulator, the value last written to each row, and what was
stored: the rows, and the values last written to them. -/
structure Rows where
  acc : Nat → Row
  out : Nat → Row
  stored : List Row := []
  copies : List Row := []

namespace Rows

/-- The row a vector stands in; a vector that stands nowhere is a fault. -/
def rowOf (e : Located) (v : Int) : Outcome Nat := Outcome.ofOption (e.place v)

/-- The rows after an action. -/
def act (e : Located) (ρ : Rows) (a : Action) : Outcome Rows := do
  let row ← rowOf e a.dst
  let second ← match a.src with
    | some u => do pure (ρ.acc (← rowOf e u))
    | none => pure []
  let x ← a.act (ρ.acc row) second
  return { ρ with acc := Function.update ρ.acc row x, out := Function.update ρ.out row x }

/-- The rows after a move; memory holds the vectors `memory`. -/
def step (memory : Int → Row) (ρ : Rows) (e : Located) : Outcome Rows :=
  match e.move with
  | .load v => do
    let row ← rowOf e v
    return { ρ with acc := Function.update ρ.acc row (memory v) }
  | .act a => ρ.act e a
  | .store v => do
    let row ← rowOf e v
    return { ρ with stored := ρ.stored ++ [ρ.acc row], copies := ρ.copies ++ [ρ.out row] }

/-- The rows after some moves. -/
def run (memory : Int → Row) (trace : List Located) (ρ : Rows) : Outcome Rows :=
  trace.foldlM (step memory) ρ

end Rows

/-- The moves of a trace. -/
def movesOf (trace : List Located) : List Motion := trace.map (·.move)

/-- No two vectors stand in one row. -/
def OnePlace (place : Int → Option Nat) : Prop :=
  ∀ u v row, place u = some row → place v = some row → u = v

/-- The vectors of `valid` that stand where they stood. -/
def stays (valid : Int → Prop) (old new : Int → Option Nat) (v : Int) : Prop :=
  valid v ∧ new v = old v

/-- Moves in order: `valid` are the vectors whose row, by `place`, holds their
value, and `written` those that an action wrote. What is read has to be valid where
it stands, and what is loaded must not have been written. -/
def Disciplined (place : Int → Option Nat) (valid : Int → Prop) (written : List Int) :
    List Located → Prop
  | [] => True
  | e :: es => OnePlace e.place ∧ match e.move with
    | .load v => (∃ row, e.place v = some row) ∧ v ∉ written ∧
      Disciplined e.place (fun u => u = v ∨ stays valid place e.place u) written es
    | .act a => (∀ u ∈ a.reads, stays valid place e.place u ∧ ∃ row, e.place u = some row) ∧
      Disciplined e.place (stays valid place e.place) (written ++ [a.dst]) es
    | .store v => (stays valid place e.place v ∧ ∃ row, e.place v = some row) ∧
      Disciplined e.place (stays valid place e.place) written es

/-- The rows hold the values `ν` of the vectors that are valid, and the copies hold
those of the vectors that were written. -/
def Tracks (place : Int → Option Nat) (valid : Int → Prop) (written : List Int) (ρ : Rows)
    (ν : Int → Row) : Prop :=
  ∀ v row, valid v → place v = some row → ρ.acc row = ν v ∧ (v ∈ written → ρ.out row = ν v)

theorem Tracks.stays {place place' : Int → Option Nat} {valid : Int → Prop} {written : List Int}
    {ρ : Rows} {ν : Int → Row} (h : Tracks place valid written ρ ν) :
    Tracks place' (stays valid place place') written ρ ν :=
  fun v row hv hrow => h v row hv.1 (hv.2 ▸ hrow)

/-- The values that a load finds are those of vectors never written. -/
def Unwritten (memory : Int → Row) (written : List Int) (ν : Int → Row) : Prop :=
  ∀ v, v ∉ written → ν v = memory v

section Step

variable {memory : Int → Row} {e : Located} {valid : Int → Prop} {written : List Int} {ρ : Rows}
  {ν : Int → Row}

theorem step_load {v : Int} (hone : OnePlace e.place) (he : e.move = .load v) {row : Nat}
    (hrow : e.place v = some row) (hv : v ∉ written) (hmem : Unwritten memory written ν)
    (htr : Tracks e.place valid written ρ ν) :
    ∃ ρ', ρ.step memory e = .ok ρ' ∧ Tracks e.place (fun u => u = v ∨ valid u) written ρ' ν ∧
      ρ'.stored = ρ.stored ∧ ρ'.copies = ρ.copies := by
  refine ⟨{ ρ with acc := Function.update ρ.acc row (memory v) }, ?_, ?_, rfl, rfl⟩
  · simp only [Rows.step, he, Rows.rowOf, hrow]
    rfl
  · intro u r hu hr
    by_cases huv : u = v
    · subst huv
      rw [hrow] at hr
      obtain rfl := Option.some.inj hr
      refine ⟨?_, fun hw => absurd hw hv⟩
      simp only [Function.update_self, hmem u hv]
    · have hne : r ≠ row := fun heq => huv (hone u v row (heq ▸ hr) hrow)
      simp only [Function.update_of_ne hne]
      exact htr u r (hu.resolve_left huv) hr

theorem step_act {a : Action} {ν' : Int → Row} (hone : OnePlace e.place) (he : e.move = .act a)
    (hreads : ∀ u ∈ a.reads, valid u ∧ ∃ row, e.place u = some row) (ha : a.apply ν = .ok ν')
    (htr : Tracks e.place valid written ρ ν) :
    ∃ ρ', ρ.step memory e = .ok ρ' ∧ Tracks e.place valid (written ++ [a.dst]) ρ' ν' ∧
      ρ'.stored = ρ.stored ∧ ρ'.copies = ρ.copies := by
  obtain ⟨x, hx, rfl⟩ := Action.apply_eq_ok.1 ha
  obtain ⟨hdst, row, hrow⟩ := hreads a.dst List.mem_cons_self
  have hacc : ρ.acc row = ν a.dst := (htr a.dst row hdst hrow).1
  -- the second operand is read from the row of its vector
  have hstep : ρ.step memory e = .ok { ρ with
      acc := Function.update ρ.acc row x, out := Function.update ρ.out row x } := by
    simp only [Rows.step, he, Rows.act, Rows.rowOf, hrow, Outcome.ofOption, Outcome.ok_bind, hacc]
    unfold Action.value at hx
    cases hsrc : a.src with
    | none =>
      rw [hsrc] at hx
      simp only [Option.map_none, Option.getD_none] at hx
      simp only [hx, pure, Except.pure, Outcome.ok_bind]
    | some u =>
      obtain ⟨hu, r, hr⟩ := hreads u (by simp [Action.reads, hsrc])
      rw [hsrc] at hx
      simp only [Option.map_some, Option.getD_some] at hx
      simp only [hr, Outcome.ok_bind, (htr u r hu hr).1, pure, Except.pure, hx]
  refine ⟨_, hstep, ?_, rfl, rfl⟩
  intro u r hu hr
  by_cases hud : u = a.dst
  · subst hud
    rw [hrow] at hr
    obtain rfl := Option.some.inj hr
    simp only [Function.update_self, implies_true, and_self]
  · have hne : r ≠ row := fun heq => hud (hone u a.dst row (heq ▸ hr) hrow)
    simp only [Function.update_of_ne hne, Function.update_of_ne hud]
    refine ⟨(htr u r hu hr).1, fun hw => (htr u r hu hr).2 ?_⟩
    rcases List.mem_append.1 hw with hw | hw
    · exact hw
    · exact absurd (List.mem_singleton.1 hw) hud

theorem step_store {v : Int} (he : e.move = .store v) {row : Nat} (hv : valid v)
    (hrow : e.place v = some row) (htr : Tracks e.place valid written ρ ν) :
    ∃ ρ', ρ.step memory e = .ok ρ' ∧ Tracks e.place valid written ρ' ν ∧
      ρ'.stored = ρ.stored ++ [ν v] ∧
      ∃ copy, ρ'.copies = ρ.copies ++ [copy] ∧ (v ∈ written → copy = ν v) := by
  refine ⟨{ ρ with stored := ρ.stored ++ [ρ.acc row], copies := ρ.copies ++ [ρ.out row] }, ?_,
    htr, ?_, ρ.out row, rfl, (htr v row hv hrow).2⟩
  · simp only [Rows.step, he, Rows.rowOf, hrow]
    rfl
  · rw [← (htr v row hv hrow).1]

end Step

theorem actions_cons (e : Located) (trace : List Located) :
    Motion.actions (movesOf (e :: trace)) =
      (match e.move with | .act a => [a] | _ => []) ++ Motion.actions (movesOf trace) := by
  unfold Motion.actions movesOf
  rw [List.map_cons, List.filterMap_cons]
  cases e.move <;> rfl

theorem stores_cons (e : Located) (trace : List Located) :
    Motion.stores (movesOf (e :: trace)) =
      (match e.move with | .store v => [v] | _ => []) ++ Motion.stores (movesOf trace) := by
  unfold Motion.stores movesOf
  rw [List.map_cons, List.filterMap_cons]
  cases e.move <;> rfl

/-- **Every row that is read holds the value of its vector**: before a move of a
disciplined trace, the vectors it reads stand in rows that hold their values. -/
theorem replay_prefix {memory : Int → Row} {pre post : List Located} {e : Located}
    {place : Int → Option Nat} {valid : Int → Prop} {written : List Int} {ρ : Rows}
    {ν τ : Int → Row} (hd : Disciplined place valid written (pre ++ e :: post))
    (htr : Tracks place valid written ρ ν) (hmem : Unwritten memory written ν)
    (hrun : Action.run (Motion.actions (movesOf (pre ++ e :: post))) ν = .ok τ) :
    ∃ ρ' ν', ρ.run memory pre = .ok ρ' ∧ Action.run (Motion.actions (movesOf pre)) ν = .ok ν' ∧
      ∀ v ∈ e.move.reads, ∃ row, e.place v = some row ∧ ρ'.acc row = ν' v := by
  induction pre generalizing place valid written ρ ν with
  | nil =>
    refine ⟨ρ, ν, rfl, Action.run_nil.2 rfl, fun v hv => ?_⟩
    obtain ⟨-, hd⟩ := hd
    cases hm : e.move with
    | load u => rw [hm] at hv; cases hv
    | act a =>
      rw [hm] at hv hd
      obtain ⟨hval, row, hrow⟩ := hd.1 v hv
      exact ⟨row, hrow, (htr.stays v row hval hrow).1⟩
    | store u =>
      rw [hm] at hv hd
      obtain rfl := List.mem_singleton.1 hv
      obtain ⟨⟨hval, row, hrow⟩, -⟩ := hd
      exact ⟨row, hrow, (htr.stays v row hval hrow).1⟩
  | cons f pre ih =>
    obtain ⟨hone, hd⟩ := hd
    rw [List.cons_append, actions_cons] at hrun
    rw [actions_cons]
    cases hm : f.move with
    | load u =>
      rw [hm] at hd hrun
      obtain ⟨⟨row, hrow⟩, hu, hd⟩ := hd
      obtain ⟨ρ1, h1, htr1, -, -⟩ := step_load hone hm hrow hu hmem htr.stays
      obtain ⟨ρ', ν', h2, h3, h4⟩ := ih hd htr1 hmem hrun
      exact ⟨ρ', ν', foldlM_cons_eq_ok.2 ⟨ρ1, h1, h2⟩, h3, h4⟩
    | act a =>
      rw [hm] at hd hrun
      obtain ⟨ν1, ha, hrun⟩ := Action.run_cons.1 hrun
      obtain ⟨ρ1, h1, htr1, -, -⟩ := step_act hone hm hd.1 ha htr.stays
      have hmem1 : Unwritten memory (written ++ [a.dst]) ν1 := by
        obtain ⟨x, -, rfl⟩ := Action.apply_eq_ok.1 ha
        intro v hv
        simp only [List.mem_append, List.mem_singleton, not_or] at hv
        rw [Function.update_of_ne hv.2, hmem v hv.1]
      obtain ⟨ρ', ν', h2, h3, h4⟩ := ih hd.2 htr1 hmem1 hrun
      exact ⟨ρ', ν', foldlM_cons_eq_ok.2 ⟨ρ1, h1, h2⟩, Action.run_cons.2 ⟨ν1, ha, h3⟩, h4⟩
    | store u =>
      rw [hm] at hd hrun
      obtain ⟨⟨hval, row, hrow⟩, hd⟩ := hd
      obtain ⟨ρ1, h1, htr1, -, -⟩ := step_store hm hval hrow htr.stays
      obtain ⟨ρ', ν', h2, h3, h4⟩ := ih hd htr1 hmem hrun
      exact ⟨ρ', ν', foldlM_cons_eq_ok.2 ⟨ρ1, h1, h2⟩, h3, h4⟩

/-- What is stored is not written afterwards. -/
def StoredLast (trace : List Located) : Prop :=
  ∀ pre e post v, trace = pre ++ e :: post → e.move = .store v →
    v ∉ (Motion.actions (movesOf post)).map (·.dst)

theorem StoredLast.tail {e : Located} {trace : List Located} (h : StoredLast (e :: trace)) :
    StoredLast trace :=
  fun pre f post v heq hf => h (e :: pre) f post v (by rw [heq]; rfl) hf

/-- What is stored is touched no more. -/
def Retired (trace : List Located) : Prop :=
  trace.Pairwise fun e f => ∀ v, e.move = .store v → v ∉ f.move.touches

theorem Retired.storedLast {trace : List Located} (h : Retired trace) : StoredLast trace := by
  rintro pre e post v rfl he hv
  obtain ⟨a, ha, rfl⟩ := List.mem_map.1 hv
  obtain ⟨m, hm, hma⟩ := List.mem_filterMap.1 ha
  obtain ⟨f, hf, rfl⟩ := List.mem_map.1 hm
  have hfa : f.move = .act a := by
    cases hmove : f.move with
    | load u => rw [hmove] at hma; cases hma
    | act b => rw [hmove] at hma; simpa using hma
    | store u => rw [hmove] at hma; cases hma
  have := (List.pairwise_cons.1 (List.pairwise_append.1 h).2.1).1 f hf _ he
  rw [hfa] at this
  exact this List.mem_cons_self

/-- **What is stored are the vectors' final values**, and so are the copies of those
that were written before they were stored. -/
theorem replay_run {memory : Int → Row} {trace : List Located} {place : Int → Option Nat}
    {valid : Int → Prop} {written : List Int} {ρ : Rows} {ν τ : Int → Row}
    (hd : Disciplined place valid written trace) (htr : Tracks place valid written ρ ν)
    (hmem : Unwritten memory written ν) (hlast : StoredLast trace)
    (hrun : Action.run (Motion.actions (movesOf trace)) ν = .ok τ) :
    ∃ ρ' copies, ρ.run memory trace = .ok ρ' ∧
      ρ'.stored = ρ.stored ++ (Motion.stores (movesOf trace)).map τ ∧
      ρ'.copies = ρ.copies ++ copies ∧
      ((∀ v ∈ Motion.stores (movesOf trace), v ∈ written ++
        (Motion.actions (movesOf trace)).map (·.dst)) →
          copies = (Motion.stores (movesOf trace)).map τ) := by
  induction trace generalizing place valid written ρ ν with
  | nil =>
    exact ⟨ρ, [], rfl, (List.append_nil _).symm, (List.append_nil _).symm, fun _ => rfl⟩
  | cons e trace ih =>
    obtain ⟨hone, hd⟩ := hd
    rw [actions_cons] at hrun
    rw [actions_cons, stores_cons]
    cases hm : e.move with
    | load u =>
      rw [hm] at hd hrun
      obtain ⟨⟨row, hrow⟩, hu, hd⟩ := hd
      obtain ⟨ρ1, h1, htr1, hs1, hc1⟩ := step_load hone hm hrow hu hmem htr.stays
      obtain ⟨ρ', copies, h2, h3, h4, h5⟩ := ih hd htr1 hmem hlast.tail hrun
      exact ⟨ρ', copies, foldlM_cons_eq_ok.2 ⟨ρ1, h1, h2⟩, by rw [h3, hs1]; rfl,
        by rw [h4, hc1], h5⟩
    | act a =>
      rw [hm] at hd hrun
      obtain ⟨ν1, ha, hrun⟩ := Action.run_cons.1 hrun
      obtain ⟨ρ1, h1, htr1, hs1, hc1⟩ := step_act hone hm hd.1 ha htr.stays
      have hmem1 : Unwritten memory (written ++ [a.dst]) ν1 := by
        obtain ⟨x, -, rfl⟩ := Action.apply_eq_ok.1 ha
        intro v hv
        simp only [List.mem_append, List.mem_singleton, not_or] at hv
        rw [Function.update_of_ne hv.2, hmem v hv.1]
      obtain ⟨ρ', copies, h2, h3, h4, h5⟩ := ih hd.2 htr1 hmem1 hlast.tail hrun
      refine ⟨ρ', copies, foldlM_cons_eq_ok.2 ⟨ρ1, h1, h2⟩, by rw [h3, hs1]; rfl,
        by rw [h4, hc1], fun hw => h5 fun v hv => ?_⟩
      simpa using hw v hv
    | store u =>
      rw [hm] at hd hrun
      obtain ⟨⟨hval, row, hrow⟩, hd⟩ := hd
      obtain ⟨ρ1, h1, htr1, hs1, copy, hc1, hcopy⟩ :=
        step_store hm hval hrow htr.stays
      obtain ⟨ρ', copies, h2, h3, h4, h5⟩ := ih hd htr1 hmem hlast.tail hrun
      -- no later action writes what is stored here
      have hfinal : ν u = τ u :=
        (Action.run_untouched hrun (hlast [] e trace u rfl hm)).symm
      refine ⟨ρ', copy :: copies, foldlM_cons_eq_ok.2 ⟨ρ1, h1, h2⟩,
        by rw [h3, hs1, hfinal, List.append_assoc]; rfl,
        by rw [h4, hc1, List.append_assoc]; rfl, fun hw => ?_⟩
      have hu : u ∈ written := by
        rcases List.mem_append.1 (hw u (by simp)) with h | h
        · exact h
        · exact absurd h (hlast [] e trace u rfl hm)
      rw [hcopy hu, hfinal, h5 fun v hv => hw v (by simp [hv])]
      rfl

end Tessera
