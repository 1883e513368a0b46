import Tessera.Proofs.Reference
import Tessera.Proofs.Replay
import Tessera.Schedule.Step

/-!
# What a schedule does to vectors

A step of a schedule, read vector by vector: the loads of its accumulator blocks or
vectors, the actions of its operations, and its stores; with the row in which each
vector stands meanwhile.

* `Step.place`: the row of a vector, by what is resident.
* `Step.moves`, `traceOf`: what a step, and a schedule, does to vectors.
* `Follows`: a step fits the steps before it.
* `chain_disciplined`: steps that each fit those before them make a disciplined
  trace.
-/

namespace Tessera

/-- Row `r` of a block. -/
def Block.line (k : Block) (b r : Nat) : Row := (List.range b).map (k.cell b r)

/-- A vector with the product of an input vector and a weight block added. -/
def productRow (acc : Scalar) (b : Nat) (x a : Row) (w : Block) : Row :=
  (List.range b).map fun n =>
    acc.wrapped (x.getD n 0 + ((List.range b).map fun k => a.getD k 0 * w.cell b k n).sum)

/-- Block `n` of a tensor, an empty one if there is none. -/
def blockOf (t : Option Tensor) (n : Int) : Block :=
  (t.bind fun t => t.blocks[n.toNat]?).getD ⟨0, #[]⟩

/-- Row `r` of a product of blocks. -/
def productAction (d : Shaped) (acc : Scalar) (c a w r : Int) : Action where
  dst := c * d.b + r
  src := none
  act x _ := .ok (productRow acc d.b.toNat x ((blockOf d.a a).line d.b.toNat r.toNat)
    (blockOf d.w w))

/-- The actions of an operation of a step. -/
def StepOp.actions (d : Shaped) (acc : Scalar) : StepOp → List Action
  | .gemm c a w => (below d.b).map (productAction d acc c a w)
  | .alu r sites => sites.map (r.action acc)

/-- The vectors of some blocks. -/
def vectorsOf (b : Int) (blocks : List Int) : List Int :=
  blocks.flatMap fun n => (below b).map fun r => n * b + r

namespace Step

/-- The row in which a vector stands during a step: its position among the resident
vectors, or its row in the place of its block. -/
def place (b : Int) (s : Step) (v : Int) : Option Nat :=
  if v < 0 then none
  else match s.residentGrain with
    | .vector => s.sramResident.idxOf? v
    | .block => (s.sramResident.idxOf? (v / b)).map fun i => i * b.toNat + (v % b).toNat

/-- The vectors a step loads. -/
def loads (d : Shaped) (s : Step) : List Int :=
  match s.residentGrain with
  | .vector => s.loadX
  | .block => vectorsOf d.b (s.loadX ++ s.loadY.map (d.counts.nX + ·))

/-- The actions of a step. -/
def actions (d : Shaped) (acc : Scalar) (s : Step) : List Action :=
  s.ops.flatMap (StepOp.actions d acc)

/-- The vectors a step stores. -/
def stores (d : Shaped) (s : Step) : List Int :=
  match s.storeGrain with
  | .vector => s.store
  | .block => vectorsOf d.b s.store

/-- What a step does to vectors: loads, then actions, then stores. -/
def moves (d : Shaped) (acc : Scalar) (s : Step) : List Motion :=
  (s.loads d).map .load ++ (s.actions d acc).map .act ++ (s.stores d).map .store

/-- The moves of a step with where its vectors stand. -/
def trace (d : Shaped) (acc : Scalar) (s : Step) : List Located :=
  (s.moves d acc).map fun m => ⟨s.place d.b, m⟩

end Step

/-- What some steps do to vectors. -/
def traceOf (d : Shaped) (acc : Scalar) (steps : List Step) : List Located :=
  steps.flatMap (Step.trace d acc)

/-- What is true with fewer valid vectors is true with more, also if the others
stood elsewhere. -/
theorem Disciplined.mono {place place' : Int → Option Nat} {valid valid' : Int → Prop}
    {written : List Int} {trace : List Located} (h : ∀ v, valid v → valid' v ∧ place' v = place v)
    (hd : Disciplined place valid written trace) : Disciplined place' valid' written trace := by
  induction trace generalizing place place' valid valid' written with
  | nil => trivial
  | cons e trace ih =>
    obtain ⟨hone, hd⟩ := hd
    refine ⟨hone, ?_⟩
    have hstays : ∀ v, stays valid place e.place v → stays valid' place' e.place v :=
      fun v hv => ⟨(h v hv.1).1, hv.2.trans (h v hv.1).2.symm⟩
    cases hm : e.move with
    | load v =>
      rw [hm] at hd
      exact ⟨hd.1, hd.2.1, ih (fun u hu => ⟨hu.imp_right (hstays u), rfl⟩) hd.2.2⟩
    | act a =>
      rw [hm] at hd
      exact ⟨fun u hu => ⟨hstays u (hd.1 u hu).1, (hd.1 u hu).2⟩,
        ih (fun u hu => ⟨hstays u hu, rfl⟩) hd.2⟩
    | store v =>
      rw [hm] at hd
      exact ⟨⟨hstays v hd.1.1, hd.1.2⟩, ih (fun u hu => ⟨hstays u hu, rfl⟩) hd.2⟩

section Frame

variable {place : Int → Option Nat} {valid : Int → Prop} {written : List Int}
  {rest : List Located}

theorem disciplined_stores {stores : List Int} (hone : OnePlace place)
    (hstores : ∀ v ∈ stores, valid v ∧ ∃ row, place v = some row)
    (hrest : Disciplined place valid written rest) :
    Disciplined place valid written (stores.map (fun v => ⟨place, .store v⟩) ++ rest) := by
  induction stores with
  | nil => exact hrest
  | cons v vs ih =>
    obtain ⟨hv, hrow⟩ := hstores v List.mem_cons_self
    refine ⟨hone, ⟨⟨hv, rfl⟩, hrow⟩, ?_⟩
    exact (ih fun u hu => hstores u (List.mem_cons_of_mem _ hu)).mono fun u hu => ⟨⟨hu, rfl⟩, rfl⟩

theorem disciplined_actions {actions : List Action} (hone : OnePlace place)
    (hreads : ∀ a ∈ actions, ∀ u ∈ a.reads, valid u ∧ ∃ row, place u = some row)
    (hrest : Disciplined place valid (written ++ actions.map (·.dst)) rest) :
    Disciplined place valid written (actions.map (fun a => ⟨place, .act a⟩) ++ rest) := by
  induction actions generalizing written with
  | nil => simpa using hrest
  | cons a as ih =>
    refine ⟨hone, fun u hu => ?_, ?_⟩
    · obtain ⟨h1, h2⟩ := hreads a List.mem_cons_self u hu
      exact ⟨⟨h1, rfl⟩, h2⟩
    · refine (ih (fun b hb => hreads b (List.mem_cons_of_mem _ hb)) ?_).mono fun u hu => ⟨⟨hu, rfl⟩, rfl⟩
      simpa using hrest

theorem disciplined_loads {loads : List Int} (hone : OnePlace place)
    (hloads : ∀ v ∈ loads, (∃ row, place v = some row) ∧ v ∉ written)
    (hrest : Disciplined place (fun v => v ∈ loads ∨ valid v) written rest) :
    Disciplined place valid written (loads.map (fun v => ⟨place, .load v⟩) ++ rest) := by
  induction loads generalizing valid with
  | nil => exact hrest.mono fun v hv => ⟨by simpa using hv, rfl⟩
  | cons v vs ih =>
    obtain ⟨hrow, hw⟩ := hloads v List.mem_cons_self
    refine ⟨hone, hrow, hw, ih (fun u hu => hloads u (List.mem_cons_of_mem _ hu)) ?_⟩
    refine hrest.mono fun u hu => ⟨?_, rfl⟩
    rcases hu with hu | hu
    · rcases List.mem_cons.1 hu with rfl | hu
      · exact Or.inr (Or.inl rfl)
      · exact Or.inl hu
    · exact Or.inr (Or.inr ⟨hu, rfl⟩)

end Frame

/-- A step fits the steps before it: no two vectors stand in one row; what it loads
has a row and was not written before; every other vector in a row stood there in the
step before; and what it reads or stores has a row. -/
structure Follows (d : Shaped) (acc : Scalar) (before : List Step) (s : Step) : Prop where
  onePlace : OnePlace (s.place d.b)
  loaded : ∀ v ∈ s.loads d, (∃ row, s.place d.b v = some row) ∧
    ∀ t ∈ before, ∀ a ∈ t.actions d acc, a.dst ≠ v
  kept : ∀ v row, s.place d.b v = some row → v ∈ s.loads d ∨
    ∃ t, before.getLast? = some t ∧ t.place d.b v = some row
  reads : ∀ a ∈ s.actions d acc, ∀ u ∈ a.reads, ∃ row, s.place d.b u = some row
  stored : ∀ v ∈ s.stores d, ∃ row, s.place d.b v = some row

/-- Each step fits those before it. -/
def Chained (d : Shaped) (acc : Scalar) (steps : List Step) : Prop :=
  ∀ pre s post, steps = pre ++ s :: post → Follows d acc pre s

theorem Chained.nil (d : Shaped) (acc : Scalar) : Chained d acc [] := by
  intro pre s post heq
  simp at heq

/-- A step that fits all steps so far goes on with them. -/
theorem Chained.concat {d : Shaped} {acc : Scalar} {steps : List Step} {s : Step}
    (h : Chained d acc steps) (hs : Follows d acc steps s) : Chained d acc (steps ++ [s]) := by
  intro pre t post heq
  rcases List.eq_nil_or_concat post with rfl | ⟨post, u, rfl⟩
  · obtain ⟨rfl, hst⟩ := List.append_inj' heq rfl
    obtain rfl : s = t := by simpa using hst
    exact hs
  · rw [List.concat_eq_append, ← List.cons_append, ← List.append_assoc] at heq
    obtain ⟨rfl, -⟩ := List.append_inj' heq rfl
    exact h pre t post rfl

/-- What a step stores stands in no row of a later step. -/
def Departed (d : Shaped) (steps : List Step) : Prop :=
  steps.Pairwise fun s t => ∀ v ∈ s.stores d, t.place d.b v = none

/-- One step of a disciplined trace. -/
theorem step_disciplined {d : Shaped} {acc : Scalar} {s : Step} {place : Int → Option Nat}
    {valid : Int → Prop} {written : List Int} {rest : List Located}
    (hone : OnePlace (s.place d.b))
    (hloads : ∀ v ∈ s.loads d, (∃ row, s.place d.b v = some row) ∧ v ∉ written)
    (hkept : ∀ v row, s.place d.b v = some row → v ∈ s.loads d ∨ valid v ∧ place v = some row)
    (hreads : ∀ a ∈ s.actions d acc, ∀ u ∈ a.reads, ∃ row, s.place d.b u = some row)
    (hstores : ∀ v ∈ s.stores d, ∃ row, s.place d.b v = some row)
    (hrest : Disciplined (s.place d.b) (fun v => ∃ row, s.place d.b v = some row)
      (written ++ (s.actions d acc).map (·.dst)) rest) :
    Disciplined place valid written (s.trace d acc ++ rest) := by
  -- those that stay are valid before the loads
  have hstart : Disciplined (s.place d.b)
      (fun v => (∃ row, s.place d.b v = some row) ∧ v ∉ s.loads d) written
      (s.trace d acc ++ rest) := by
    unfold Step.trace Step.moves
    simp only [List.map_append, List.map_map, List.append_assoc]
    refine disciplined_loads hone hloads (disciplined_actions hone ?_ (disciplined_stores hone ?_ ?_))
    · intro a ha u hu
      refine ⟨?_, hreads a ha u hu⟩
      by_cases hl : u ∈ s.loads d
      · exact Or.inl hl
      · exact Or.inr ⟨hreads a ha u hu, hl⟩
    · intro v hv
      refine ⟨?_, hstores v hv⟩
      by_cases hl : v ∈ s.loads d
      · exact Or.inl hl
      · exact Or.inr ⟨hstores v hv, hl⟩
    · refine hrest.mono fun v hv => ⟨?_, rfl⟩
      by_cases hl : v ∈ s.loads d
      · exact Or.inl hl
      · exact Or.inr ⟨hv, hl⟩
  refine hstart.mono fun v hv => ?_
  obtain ⟨⟨row, hrow⟩, hl⟩ := hv
  rcases hkept v row hrow with h | ⟨h1, h2⟩
  · exact absurd h hl
  · exact ⟨h1, h2.trans hrow.symm⟩

/-- **Steps that each fit those before them make a disciplined trace.** -/
theorem chain_disciplined {d : Shaped} {acc : Scalar} {steps : List Step}
    (h : Chained d acc steps) :
    Disciplined (fun _ => none) (fun _ => False) [] (traceOf d acc steps) := by
  -- the steps that are left, after `before`
  have key : ∀ (rest before : List Step), before ++ rest = steps →
      ∀ (place : Int → Option Nat) (valid : Int → Prop),
      (∀ t, before.getLast? = some t →
        ∀ v row, t.place d.b v = some row → valid v ∧ place v = some row) →
      Disciplined place valid ((before.flatMap (Step.actions d acc)).map (·.dst))
        (traceOf d acc rest) := by
    intro rest
    induction rest with
    | nil => intros; trivial
    | cons s rest ih =>
      intro before hsplit place valid hprev
      have hs := h before s rest hsplit.symm
      refine step_disciplined hs.onePlace (fun v hv => ?_) (fun v row hrow => ?_) hs.reads hs.stored ?_
      · obtain ⟨h1, h2⟩ := hs.loaded v hv
        refine ⟨h1, fun hw => ?_⟩
        obtain ⟨a, ha, hav⟩ := List.mem_map.1 hw
        obtain ⟨t, ht, ha⟩ := List.mem_flatMap.1 ha
        exact h2 t ht a ha hav
      · rcases hs.kept v row hrow with hl | ⟨t, ht, hrow'⟩
        · exact Or.inl hl
        · exact Or.inr (hprev t ht v row hrow')
      · have := ih (before ++ [s]) (by simpa using hsplit) (s.place d.b)
          (fun v => ∃ row, s.place d.b v = some row) ?_
        · rw [List.flatMap_append, List.map_append, List.flatMap_cons, List.flatMap_nil,
            List.append_nil] at this
          exact this
        · intro t ht v row hrow
          obtain rfl : s = t := by simpa using ht
          exact ⟨⟨row, hrow⟩, hrow⟩
  exact key steps [] rfl _ _ fun t ht => by cases ht

theorem mem_trace {d : Shaped} {acc : Scalar} {s : Step} {e : Located} (h : e ∈ s.trace d acc) :
    (∃ v ∈ s.loads d, e.move = .load v) ∨ (∃ a ∈ s.actions d acc, e.move = .act a) ∨
      ∃ v ∈ s.stores d, e.move = .store v := by
  obtain ⟨m, hm, rfl⟩ := List.mem_map.1 h
  unfold Step.moves at hm
  rcases List.mem_append.1 hm with hm | hm
  · rcases List.mem_append.1 hm with hm | hm
    · obtain ⟨v, hv, rfl⟩ := List.mem_map.1 hm
      exact Or.inl ⟨v, hv, rfl⟩
    · obtain ⟨a, ha, rfl⟩ := List.mem_map.1 hm
      exact Or.inr (Or.inl ⟨a, ha, rfl⟩)
  · obtain ⟨v, hv, rfl⟩ := List.mem_map.1 hm
    exact Or.inr (Or.inr ⟨v, hv, rfl⟩)

/-- What a step that fits those before it touches has a row. -/
theorem Follows.touched {d : Shaped} {acc : Scalar} {before : List Step} {s : Step}
    (h : Follows d acc before s) {e : Located} (he : e ∈ s.trace d acc) {v : Int}
    (hv : v ∈ e.move.touches) : ∃ row, s.place d.b v = some row := by
  rcases mem_trace he with ⟨u, hu, hm⟩ | ⟨a, ha, hm⟩ | ⟨u, hu, hm⟩
  · rw [hm] at hv
    obtain rfl := List.mem_singleton.1 hv
    exact (h.loaded v hu).1
  · rw [hm] at hv
    exact h.reads a ha v hv
  · rw [hm] at hv
    obtain rfl := List.mem_singleton.1 hv
    exact h.stored v hu

/-- **What is stored is touched no more**, if it is stored once and stands in no row
afterwards. -/
theorem chain_retired {d : Shaped} {acc : Scalar} {steps : List Step} (h : Chained d acc steps)
    (hdep : Departed d steps) (hnodup : ∀ s ∈ steps, (s.stores d).Nodup) :
    Retired (traceOf d acc steps) := by
  unfold Retired traceOf
  rw [List.pairwise_flatMap]
  constructor
  · -- in a step, the stores come last
    intro s hs
    unfold Step.trace Step.moves
    rw [List.pairwise_map, List.pairwise_append]
    refine ⟨?_, ?_, ?_⟩
    · refine List.pairwise_of_forall_mem_list fun m hm _ _ v heq => ?_
      simp only at heq
      subst heq
      simp at hm
    · rw [List.pairwise_map]
      refine (hnodup s hs).imp fun {u v} hne w heq => ?_
      obtain rfl := Motion.store.inj heq
      simpa [Motion.touches] using hne
    · intro m hm n _ v heq
      simp only at heq
      subst heq
      simp at hm
  · refine hdep.imp_of_mem fun {s t} hs ht hst e he f hf v hev hvf => ?_
    obtain ⟨pre, post, heq⟩ := List.append_of_mem ht
    obtain ⟨row, hrow⟩ := (h pre t post heq).touched hf hvf
    rcases mem_trace he with ⟨u, -, hm⟩ | ⟨a, -, hm⟩ | ⟨u, hu, hm⟩
    · rw [hm] at hev; cases hev
    · rw [hm] at hev; cases hev
    · rw [hm] at hev
      obtain rfl := Motion.store.inj hev
      rw [hst u hu] at hrow
      cases hrow

/-- The moves of a trace are those of its steps. -/
theorem movesOf_traceOf (d : Shaped) (acc : Scalar) (steps : List Step) :
    movesOf (traceOf d acc steps) = steps.flatMap (Step.moves d acc) := by
  unfold movesOf traceOf
  rw [List.map_flatMap]
  refine List.flatMap_congr fun s _ => ?_
  rw [Step.trace, List.map_map]
  exact List.map_id _

theorem actions_traceOf (d : Shaped) (acc : Scalar) (steps : List Step) :
    Motion.actions (movesOf (traceOf d acc steps)) = steps.flatMap (Step.actions d acc) := by
  rw [movesOf_traceOf, Motion.actions, List.filterMap_flatMap]
  refine List.flatMap_congr fun s _ => ?_
  simp [Step.moves, List.filterMap_append, List.filterMap_map]

theorem stores_traceOf (d : Shaped) (acc : Scalar) (steps : List Step) :
    Motion.stores (movesOf (traceOf d acc steps)) = steps.flatMap (Step.stores d) := by
  rw [movesOf_traceOf, Motion.stores, List.filterMap_flatMap]
  refine List.flatMap_congr fun s _ => ?_
  simp [Step.moves, List.filterMap_append, List.filterMap_map]

/-- Steps that take the vectors from what memory holds to `final`. -/
structure Simulates (d : Shaped) (acc : Scalar) (steps : List Step) (final : Int → Row) : Prop where
  chained : Chained d acc steps
  departed : Departed d steps
  once : ∀ s ∈ steps, (s.stores d).Nodup
  run : Action.run (steps.flatMap (Step.actions d acc)) d.initial = .ok final

namespace Simulates

variable {d : Shaped} {acc : Scalar} {steps : List Step} {final : Int → Row}

theorem retired (h : Simulates d acc steps final) : Retired (traceOf d acc steps) :=
  chain_retired h.chained h.departed h.once

/-- **Every row that is read holds the current value of its vector.** -/
theorem current (h : Simulates d acc steps final) (ρ : Rows) {pre post : List Located} {e : Located}
    (hsplit : traceOf d acc steps = pre ++ e :: post) :
    ∃ ρ' ν, ρ.run d.initial pre = .ok ρ' ∧
      Action.run (Motion.actions (movesOf pre)) d.initial = .ok ν ∧
      ∀ v ∈ e.move.reads, ∃ row, e.place v = some row ∧ ρ'.acc row = ν v := by
  have hd := chain_disciplined h.chained
  have hrun := h.run
  rw [← actions_traceOf] at hrun
  rw [hsplit] at hd hrun
  exact replay_prefix hd (fun v row hv => hv.elim) (fun v _ => rfl) hrun

/-- **What is stored are the final values**, and so are the copies if all that is
stored was written. -/
theorem stored (h : Simulates d acc steps final) (ρ : Rows) :
    ∃ ρ' copies, ρ.run d.initial (traceOf d acc steps) = .ok ρ' ∧
      ρ'.stored = ρ.stored ++ (steps.flatMap (Step.stores d)).map final ∧
      ρ'.copies = ρ.copies ++ copies ∧
      ((∀ v ∈ steps.flatMap (Step.stores d), ∃ a ∈ steps.flatMap (Step.actions d acc), a.dst = v) →
        copies = (steps.flatMap (Step.stores d)).map final) := by
  have hrun := h.run
  rw [← actions_traceOf] at hrun
  obtain ⟨ρ', copies, h1, h2, h3, h4⟩ := replay_run (chain_disciplined h.chained)
    (fun v row hv => hv.elim) (fun v _ => rfl) h.retired.storedLast (ρ := ρ) hrun
  rw [actions_traceOf, stores_traceOf] at h4
  rw [stores_traceOf] at h2
  exact ⟨ρ', copies, h1, h2, h3, fun hw => h4 fun v hv => by simpa using hw v hv⟩

end Simulates

end Tessera
