import Tessera.Proofs.Checked
import Tessera.Proofs.Stored
import Tessera.Proofs.Tiling

/-!
# Schedules made of sittings

A schedule that keeps blocks is a list of sittings: some blocks are loaded, stay for some
steps, and are stored in the last of them; no block comes back. Such a schedule reads
nothing but current values, whatever its steps compute.

* `Sitting`: the steps during which some blocks are resident.
* `sittings_simulate`, `singles_simulate`: lists of sittings that share no block.
* `Event.actions`, `run_of_events`: an order of events that keeps those on each part of
  the vectors in order ends in the same values.
* `Simulates.recorded`, `SuppliedFrom.recorded`: what is recorded of stores changes
  nothing.
-/

namespace Tessera

section Place

variable {st : Step} {b : Nat}

/-- A vector has a row in a step that keeps blocks exactly if its block is resident. -/
theorem Step.place_isSome (hgrain : st.residentGrain = .block) {v : Int} :
    (∃ row, st.place b v = some row) ↔ 0 ≤ v ∧ v / b ∈ st.sramResident := by
  unfold Step.place
  rw [hgrain]
  by_cases hv : v < 0
  · simp only [if_pos hv, reduceCtorEq, exists_false, false_iff]
    omega
  rw [if_neg hv]
  constructor
  · rintro ⟨row, hrow⟩
    obtain ⟨i, hi, -⟩ := Option.map_eq_some_iff.1 hrow
    exact ⟨by omega, List.isSome_idxOf?.1 (by rw [hi]; rfl)⟩
  · rintro ⟨-, hmem⟩
    obtain ⟨i, hi⟩ := exists_idxOf? hmem
    exact ⟨_, by rw [hi]; rfl⟩

/-- No two vectors stand in one row of a step that keeps blocks. -/
theorem Step.onePlace_block (hb : 1 ≤ b) (hgrain : st.residentGrain = .block) :
    OnePlace (st.place b) := by
  intro u v row hu hv
  unfold Step.place at hu hv
  rw [hgrain] at hu hv
  split at hu
  · cases hu
  split at hv
  · cases hv
  obtain ⟨i, hi, hrow⟩ := Option.map_eq_some_iff.1 hu
  obtain ⟨j, hj, hrow'⟩ := Option.map_eq_some_iff.1 hv
  have hu0 := Int.emod_nonneg u (show (b : Int) ≠ 0 by omega)
  have hv0 := Int.emod_nonneg v (show (b : Int) ≠ 0 by omega)
  have heq : (i : Int) * b + u % b = j * b + v % b := by
    have := hrow.trans hrow'.symm
    rw [Int.toNat_natCast] at this
    zify at this
    rwa [Int.toNat_of_nonneg hu0, Int.toNat_of_nonneg hv0] at this
  obtain ⟨hij, hmod⟩ := row_col_unique hu0 (Int.emod_lt_of_pos _ (by omega)) hv0
    (Int.emod_lt_of_pos _ (by omega)) heq
  obtain rfl : i = j := by exact_mod_cast hij
  have hdiv := (getElem?_of_idxOf? hi).symm.trans (getElem?_of_idxOf? hj)
  rw [← Int.mul_ediv_add_emod u b, ← Int.mul_ediv_add_emod v b, Option.some.inj hdiv, hmod]

end Place

/-- Steps that share what is resident: the first of them loads it, and only the last one
stores. -/
structure Sitting (d : Shaped) (blocks : List Int) (steps : List Step) : Prop where
  grain : ∀ st ∈ steps, st.residentGrain = .block
  resident : ∀ st ∈ steps, st.sramResident = blocks
  first : ∀ st, steps[0]? = some st → ∀ v, 0 ≤ v → v / d.b ∈ blocks → v ∈ st.loads d
  later : ∀ m st, steps[m + 1]? = some st → st.loads d = []
  stores : ∀ m st, steps[m]? = some st → m + 1 < steps.length → st.stores d = []
  once : ∀ st ∈ steps, (st.stores d).Nodup

/-- The vectors of some blocks. -/
theorem mem_vectorsOf {b : Int} (hb : 0 < b) {blocks : List Int} {v : Int} :
    v ∈ vectorsOf b blocks ↔ v / b ∈ blocks := by
  unfold vectorsOf
  simp only [List.mem_flatMap, List.mem_map]
  constructor
  · rintro ⟨n, hn, r, hr, rfl⟩
    have hr := mem_below.1 hr
    rwa [(row_col_ediv hr.1 hr.2).1]
  · intro h
    refine ⟨v / b, h, v % b, mem_below.2 ⟨Int.emod_nonneg _ (by omega), Int.emod_lt_of_pos _ hb⟩, ?_⟩
    rw [Int.mul_comm]
    exact Int.mul_ediv_add_emod v b

theorem nodup_vectorsOf {b : Int} {blocks : List Int} (h : blocks.Nodup) :
    (vectorsOf b blocks).Nodup := by
  refine nodup_flatMap_of (fun n _ => (nodup_below b).map fun r r' heq => by simpa using heq) ?_
  refine h.imp fun {m n} hne v hm hn => ?_
  obtain ⟨r, hr, rfl⟩ := List.mem_map.1 hm
  obtain ⟨r', hr', heq⟩ := List.mem_map.1 hn
  have hr := mem_below.1 hr
  have hr' := mem_below.1 hr'
  exact hne (row_col_unique hr'.1 hr'.2 hr.1 hr.2 heq).1.symm

/-- **One step that loads all its blocks** is a sitting of its own. -/
theorem Sitting.single {d : Shaped} {st : Step} (hb : 0 < d.b) (hgrain : st.residentGrain = .block)
    (hloads : ∀ n ∈ st.sramResident, n ∈ st.loadX ++ st.loadY.map (d.counts.nX + ·))
    (hstore : st.store.Nodup) : Sitting d st.sramResident [st] where
  grain t ht := by rwa [List.mem_singleton.1 ht]
  resident t ht := by rw [List.mem_singleton.1 ht]
  first t ht v _ hv := by
    obtain rfl : st = t := by simpa using ht
    rw [Step.loads, hgrain]
    exact (mem_vectorsOf hb).2 (hloads _ hv)
  later m t ht := by simp at ht
  stores m t _ hlt := by simp at hlt
  once t ht := by
    rw [List.mem_singleton.1 ht, Step.stores]
    split
    · exact hstore
    · exact nodup_vectorsOf hstore

/-- Steps that bring in all operands they use find them. -/
theorem SuppliedFrom.of_loads {steps : List Step} (weights : List Int)
    (h : ∀ st ∈ steps, st.inpResident = st.loadA ∧ st.wgtResident = st.loadB) :
    SuppliedFrom weights steps := by
  induction steps generalizing weights with
  | nil => trivial
  | cons st steps ih =>
    obtain ⟨⟨hinp, hwgt⟩, hsteps⟩ := List.forall_mem_cons.1 h
    exact ⟨⟨hinp, Or.inl hwgt⟩, ih _ hsteps⟩

/-- An entry of a list made of parts is an entry of a part. -/
theorem split_flatMap {α β : Type} {f : α → List β} {gs : List α} {pre post : List β} {s : β}
    (h : gs.flatMap f = pre ++ s :: post) :
    ∃ before g after left right, gs = before ++ g :: after ∧ f g = left ++ s :: right ∧
      pre = before.flatMap f ++ left := by
  induction gs generalizing pre with
  | nil => simp at h
  | cons g gs ih =>
    have hrest : ∀ left, pre = f g ++ left → gs.flatMap f = left ++ s :: post →
        ∃ before g' after left right, g :: gs = before ++ g' :: after ∧ f g' = left ++ s :: right ∧
          pre = before.flatMap f ++ left := by
      intro left hpre hgs
      obtain ⟨before, g', after, left', right, rfl, hg', rfl⟩ := ih hgs
      exact ⟨g :: before, g', after, left', right, rfl, hg', by rw [hpre]; simp⟩
    rw [List.flatMap_cons, List.append_eq_append_iff] at h
    obtain ⟨left, hpre, hgs⟩ | ⟨left, hg, hgs⟩ := h
    · exact hrest left hpre hgs
    · cases left with
      | nil => exact hrest [] (by simpa using hg.symm) hgs.symm
      | cons t right =>
        obtain ⟨rfl, -⟩ := List.cons.inj hgs
        exact ⟨[], g, gs, pre, right, rfl, hg, rfl⟩

section Sittings

variable {d : Shaped} {acc : Scalar} {b : Nat} {groups : List (List Int × List Step)}

/-- **Sittings that share no block** read nothing but current values. -/
theorem sittings_chained (hb : 1 ≤ b) (hside : d.b = b) (hsit : ∀ g ∈ groups, Sitting d g.1 g.2)
    (hapart : groups.Pairwise fun g g' => ∀ n ∈ g.1, n ∉ g'.1)
    (hsound : ∀ st ∈ groups.flatMap Prod.snd, st.Sound d acc b) :
    Chained d acc (groups.flatMap Prod.snd) := by
  intro pre s post hsplit
  obtain ⟨before, g, after, left, right, rfl, hg, rfl⟩ := split_flatMap hsplit
  have hgmem : g ∈ before ++ g :: after := by simp
  have hs : s ∈ g.2 := by rw [hg]; simp
  have hss := hsound s (List.mem_flatMap.2 ⟨g, hgmem, hs⟩)
  have hit := hsit g hgmem
  have hplace : ∀ v, (∃ row, s.place d.b v = some row) ↔ 0 ≤ v ∧ v / b ∈ g.1 := by
    intro v
    rw [hside, Step.place_isSome (hit.grain s hs), hit.resident s hs]
  have hget : g.2[left.length]? = some s := by simp [hg]
  refine ⟨by rw [hside]; exact Step.onePlace_block hb (hit.grain s hs), fun v hv => ?_,
    fun v row hrow => ?_, hss.ready.reads, hss.stored⟩
  · refine ⟨hss.ready.loads v hv, fun t ht a ha heq => ?_⟩
    cases left with
    | cons t' left =>
      rw [hit.later left.length s (by simpa using hget)] at hv
      cases hv
    | nil =>
      -- an earlier sitting has other blocks
      rw [List.append_nil] at ht
      obtain ⟨g', hg', ht⟩ := List.mem_flatMap.1 ht
      have hg'mem : g' ∈ before ++ g :: after := List.mem_append_left _ hg'
      have hst := hsound t (List.mem_flatMap.2 ⟨g', hg'mem, ht⟩)
      have hdst := hst.ready.reads a ha a.dst List.mem_cons_self
      rw [hside, Step.place_isSome ((hsit g' hg'mem).grain t ht), (hsit g' hg'mem).resident t ht,
        heq] at hdst
      exact (List.pairwise_append.1 hapart).2.2 g' hg' g List.mem_cons_self _ hdst.2
        ((hplace v).1 (hss.ready.loads v hv)).2
  · obtain ⟨h0, hmem⟩ := (hplace v).1 ⟨row, hrow⟩
    rcases List.eq_nil_or_concat left with rfl | ⟨left, t, rfl⟩
    · exact Or.inl (hit.first s (by simpa using hget) v h0 (by rwa [hside]))
    · -- the step before has the same blocks
      have ht : t ∈ g.2 := by rw [hg]; simp
      refine Or.inr ⟨t, by simp, ?_⟩
      rw [← hrow]
      unfold Step.place
      rw [hit.grain t ht, hit.grain s hs, hit.resident t ht, hit.resident s hs]

/-- What is stored at the end of a sitting does not come back. -/
theorem sittings_departed (hside : d.b = b) (hsit : ∀ g ∈ groups, Sitting d g.1 g.2)
    (hapart : groups.Pairwise fun g g' => ∀ n ∈ g.1, n ∉ g'.1)
    (hsound : ∀ st ∈ groups.flatMap Prod.snd, st.Sound d acc b) :
    Departed d (groups.flatMap Prod.snd) := by
  unfold Departed
  rw [List.pairwise_flatMap]
  refine ⟨fun g hg => ?_, hapart.imp_of_mem fun {g g'} hg hg' hdis s hs t ht v hv => ?_⟩
  · rw [List.pairwise_iff_getElem]
    intro i j hi hj hij v hv
    rw [(hsit g hg).stores i _ (List.getElem?_eq_getElem hi) (by omega)] at hv
    cases hv
  · have hplace := (hsound s (List.mem_flatMap.2 ⟨g, hg, hs⟩)).stored v hv
    rw [hside, Step.place_isSome ((hsit g hg).grain s hs), (hsit g hg).resident s hs] at hplace
    by_contra hne
    have hthere := Option.isSome_iff_exists.1 (Option.isSome_iff_ne_none.2 hne)
    rw [hside, Step.place_isSome ((hsit g' hg').grain t ht), (hsit g' hg').resident t ht] at hthere
    exact hdis _ hplace.2 hthere.2

/-- **A schedule made of sittings simulates its program**, if its actions come to the final
values. -/
theorem sittings_simulate (hb : 1 ≤ b) (hside : d.b = b) (hsit : ∀ g ∈ groups, Sitting d g.1 g.2)
    (hapart : groups.Pairwise fun g g' => ∀ n ∈ g.1, n ∉ g'.1)
    (hsound : ∀ st ∈ groups.flatMap Prod.snd, st.Sound d acc b) {final : Int → Row}
    (hrun : Action.run ((groups.flatMap Prod.snd).flatMap (Step.actions d acc)) d.initial = .ok final) :
    Simulates d acc (groups.flatMap Prod.snd) final where
  chained := sittings_chained hb hside hsit hapart hsound
  departed := sittings_departed hside hsit hapart hsound
  once st hst := by
    obtain ⟨g, hg, hst⟩ := List.mem_flatMap.1 hst
    exact (hsit g hg).once st hst
  run := hrun

/-- **Steps that each load all their blocks**, none of which comes back, simulate their
program. -/
theorem singles_simulate {steps : List Step} (hb : 1 ≤ b) (hside : d.b = b)
    (hgrain : ∀ st ∈ steps, st.residentGrain = .block)
    (hloads : ∀ st ∈ steps, ∀ n ∈ st.sramResident, n ∈ st.loadX ++ st.loadY.map (d.counts.nX + ·))
    (hstore : ∀ st ∈ steps, st.store.Nodup)
    (hapart : steps.Pairwise fun s t => ∀ n ∈ s.sramResident, n ∉ t.sramResident)
    (hsound : ∀ st ∈ steps, st.Sound d acc b) {final : Int → Row}
    (hrun : Action.run (steps.flatMap (Step.actions d acc)) d.initial = .ok final) :
    Simulates d acc steps final := by
  have hsteps : (steps.map fun st => (st.sramResident, [st])).flatMap Prod.snd = steps := by
    rw [List.flatMap_map]
    simp
  rw [← hsteps] at hsound hrun ⊢
  refine sittings_simulate hb hside (fun g hg => ?_) (List.pairwise_map.2 hapart) hsound hrun
  obtain ⟨st, hst, rfl⟩ := List.mem_map.1 hg
  exact .single (by omega) (hgrain st hst) (hloads st hst) (hstore st hst)

end Sittings

section Events

variable {d : Shaped} {acc : Scalar}

/-- The actions of an event. -/
def Event.actions (d : Shaped) (acc : Scalar) : Event → List Action
  | .product c a w => (below d.b).map (productAction d acc c a w)
  | .site r s => [r.action acc s]

/-- The actions of some steps are those of their events. -/
theorem steps_actions (d : Shaped) (acc : Scalar) (steps : List Step) :
    steps.flatMap (Step.actions d acc) =
      (steps.flatMap Step.events).flatMap (Event.actions d acc) := by
  rw [List.flatMap_assoc]
  refine List.flatMap_congr fun st _ => ?_
  unfold Step.actions Step.events
  rw [List.flatMap_assoc]
  refine List.flatMap_congr fun op _ => ?_
  cases op with
  | gemm c a w => simp [StepOp.actions, StepOp.events, Event.actions]
  | alu r sites =>
    simp only [StepOp.actions, StepOp.events, List.flatMap_map, Event.actions]
    exact List.map_eq_flatMap

/-- The actions of the declared operations. -/
theorem declared_actions (d : Shaped) (acc : Scalar) :
    d.declared.flatMap (Event.actions d acc) = actionsOf acc d.ops := by
  unfold Shaped.declared actionsOf
  rw [List.flatMap_assoc]
  refine List.flatMap_congr fun r _ => ?_
  simp only [List.flatMap_map, Event.actions]
  exact List.map_eq_flatMap.symm

theorem filter_flatMap_of {α β : Type} {f : α → List β} {p : β → Bool} {q : α → Bool} {xs : List α}
    (h : ∀ x ∈ xs, ∀ y ∈ f x, p y = q x) : (xs.flatMap f).filter p = (xs.filter q).flatMap f := by
  induction xs with
  | nil => rfl
  | cons x xs ih =>
    obtain ⟨hx, hxs⟩ := List.forall_mem_cons.1 h
    rw [List.flatMap_cons, List.filter_append, ih hxs, List.filter_cons]
    cases hq : q x with
    | true =>
      rw [List.filter_eq_self.2 fun y hy => (hx y hy).trans hq]
      rfl
    | false =>
      rw [List.filter_eq_nil_iff.2 fun y hy => by rw [hx y hy, hq]; simp]
      rfl

/-- **An order of events that keeps those on each part of the vectors in order** ends in
the same values, if no event reads across parts. -/
theorem run_of_events {part : Int → Int} {touch : Int → Event → Bool} {es fs : List Event}
    (hpart : ∀ e ∈ es ++ fs, ∀ a ∈ e.actions d acc, a.Parted part ∧
      ∀ n, touch n e = decide (part a.dst = n))
    (hsame : ∀ n, es.filter (touch n) = fs.filter (touch n)) {σ τ : Int → Row}
    (h : Action.run (es.flatMap (Event.actions d acc)) σ = .ok τ) :
    Action.run (fs.flatMap (Event.actions d acc)) σ = .ok τ := by
  have hfilter : ∀ gs : List Event, (∀ e ∈ gs, e ∈ es ++ fs) → ∀ n,
      (gs.flatMap (Event.actions d acc)).filter (fun a => part a.dst = n) =
        (gs.filter (touch n)).flatMap (Event.actions d acc) := fun gs hgs n =>
    filter_flatMap_of fun e he a ha => ((hpart e (hgs e he) a ha).2 n).symm
  have hes : ∀ e ∈ es, e ∈ es ++ fs := fun e he => List.mem_append_left _ he
  have hfs : ∀ e ∈ fs, e ∈ es ++ fs := fun e he => List.mem_append_right _ he
  have hparted : ∀ gs : List Event, (∀ e ∈ gs, e ∈ es ++ fs) →
      ∀ a ∈ gs.flatMap (Event.actions d acc), a.Parted part := by
    intro gs hgs a ha
    obtain ⟨e, he, ha⟩ := List.mem_flatMap.1 ha
    exact (hpart e (hgs e he) a ha).1
  refine Action.run_of_parts (hparted es hes) (hparted fs hfs) (fun n => ?_) h
  rw [hfilter es hes n, hfilter fs hfs n, hsame n]

end Events

section Recorded

variable {d : Shaped} {acc : Scalar} {steps : List Step}

theorem getLast?_withStores (stored : List Int) {t : Step} (h : steps.getLast? = some t) :
    ∃ state, (withStores stored steps).getLast? = some { t with dramState := state } := by
  obtain ⟨u, hu⟩ : ∃ u, (withStores stored steps).getLast? = some u := by
    cases hlast : (withStores stored steps).getLast? with
    | some u => exact ⟨u, rfl⟩
    | none =>
      have hlen := length_withStores stored steps
      rw [List.getLast?_eq_none_iff.1 hlast] at hlen
      rw [List.length_eq_zero_iff.1 hlen.symm] at h
      cases h
  have hget := hu
  rw [List.getLast?_eq_getElem?, length_withStores] at hget
  obtain ⟨t', ht', rfl⟩ := withStores_getElem hget
  rw [List.getLast?_eq_getElem?] at h
  rw [h] at ht'
  cases ht'
  exact ⟨_, hu⟩

theorem Follows.recorded {before : List Step} {s : Step} (h : Follows d acc before s)
    (stored state : List Int) : Follows d acc (withStores stored before) { s with dramState := state } where
  onePlace := h.onePlace
  loaded v hv := by
    refine ⟨(h.loaded v hv).1, fun t ht => ?_⟩
    obtain ⟨t', ht', _, rfl⟩ := mem_withStores ht
    exact (h.loaded v hv).2 t' ht'
  kept v row hrow := by
    rcases h.kept v row hrow with hl | ⟨t, ht, hrow'⟩
    · exact Or.inl hl
    · obtain ⟨state', hlast⟩ := getLast?_withStores stored ht
      exact Or.inr ⟨_, hlast, hrow'⟩
  reads := h.reads
  stored := h.stored

/-- **What is recorded of stores changes nothing a schedule does.** -/
theorem Simulates.recorded {final : Int → Row} (h : Simulates d acc steps final) :
    Simulates d acc (recordStores steps) final := by
  rw [recordStores_eq]
  constructor
  case chained =>
    intro pre s post hsplit
    have hget : (withStores [] steps)[pre.length]? = some s := by simp [hsplit]
    have hpre : withStores [] (steps.take pre.length) = pre := by
      rw [← take_withStores, hsplit, List.take_left]
    obtain ⟨t, ht, rfl⟩ := withStores_getElem hget
    obtain ⟨hlt, heq⟩ := List.getElem?_eq_some_iff.1 ht
    have hsteps : steps = steps.take pre.length ++ t :: steps.drop (pre.length + 1) := by
      conv_lhs => rw [← List.take_append_drop pre.length steps, List.drop_eq_getElem_cons hlt, heq]
    have := (h.chained _ _ _ hsteps).recorded []
      ([] ++ (steps.take (pre.length + 1)).flatMap (·.store))
    rwa [hpre] at this
  case departed =>
    unfold Departed
    rw [List.pairwise_iff_getElem]
    intro i j hi hj hij v hv
    rw [length_withStores] at hi hj
    obtain ⟨s, hs, heqs⟩ := withStores_getElem (List.getElem?_eq_getElem (l := withStores [] steps)
      (by rw [length_withStores]; exact hi))
    obtain ⟨t, ht, heqt⟩ := withStores_getElem (List.getElem?_eq_getElem (l := withStores [] steps)
      (by rw [length_withStores]; exact hj))
    rw [heqt]
    rw [heqs] at hv
    have hdep := List.pairwise_iff_getElem.1 h.departed i j hi hj hij v
    rw [(List.getElem?_eq_some_iff.1 hs).2, (List.getElem?_eq_some_iff.1 ht).2] at hdep
    exact hdep hv
  case once =>
    intro s hs
    obtain ⟨t, ht, _, rfl⟩ := mem_withStores hs
    exact h.once t ht
  case run =>
    rw [withStores_flatMap (Step.actions d acc) fun _ _ => rfl]
    exact h.run

/-- What is recorded of stores changes nothing a step brings in. -/
theorem SuppliedFrom.recorded {weights : List Int} (h : SuppliedFrom weights steps) (stored : List Int) :
    SuppliedFrom weights (withStores stored steps) := by
  induction steps generalizing weights stored with
  | nil => trivial
  | cons s steps ih => exact ⟨⟨h.1.inp, h.1.wgt⟩, ih h.2 _⟩

end Recorded

end Tessera
