import Tessera.Proofs.Accumulation
import Tessera.Proofs.Placement
import Tessera.Proofs.Trace

/-!
# Operations that do not fit, in steps

The scheduler of operations that do not fit keeps an invariant about its slots, the
step in work and the steps that are done. From it follows that the schedule ends in
the values of the declared order, and stores each vector that holds a result once.

* `Placing.Sound`: the invariant.
* `flush_sound`, `place_sound`, `execute_sound`, `entry_sound`: each operation of the
  scheduler keeps it.
* `aluOverflow_evicted`: what it says of the schedule.
* `plan_evicts`: replaying the schedule on slots simulates the program.
-/

namespace Tessera

namespace Placing

/-- The actions of the step in work. -/
def current (acc : Scalar) (s : Placing) : List Action :=
  s.ops.reverse.flatMap fun q => q.2.reverse.map (q.1.action acc)

/-- What closing the step in work stores. -/
def leaving (s : Placing) (last : Array Nat) (results : Std.TreeSet Int) (next : Nat) : List Int :=
  s.slots.filterMap fun
    | some h => if !lives last next h && h.dirty && results.contains h.vector then some h.vector
      else none
    | none => none

/-- The step in work, once closed. -/
def closing (s : Placing) (stores : List Int) : Step :=
  { loadX := s.loadX.reverse
    ops := s.ops.reverse.map fun (r, sites) => .alu r sites.reverse
    store := stores
    sramResident := s.slots.map fun
      | some h => h.vector
      | none => free
    residentGrain := .vector, storeGrain := .vector }

theorem flush_done (s : Placing) (last : Array Nat) (results : Std.TreeSet Int) (next : Nat) :
    (s.flush last results next).done = s.closing (s.leaving last results next) :: s.done := rfl

theorem closing_actions (d : Shaped) (acc : Scalar) (s : Placing) (stores : List Int) :
    (s.closing stores).actions d acc = s.current acc := by
  unfold Step.actions closing current
  rw [List.flatMap_map]
  rfl

theorem mem_leaving {s : Placing} {last : Array Nat} {results : Std.TreeSet Int} {next : Nat}
    {v : Int} : v ∈ s.leaving last results next ↔
      ∃ i h, s.At i h ∧ lives last next h = false ∧ h.dirty = true ∧ results.contains v = true ∧
        h.vector = v := by
  unfold leaving At
  rw [List.mem_filterMap]
  constructor
  · rintro ⟨slot, hslot, hv⟩
    obtain ⟨i, hi⟩ := List.getElem?_of_mem hslot
    cases slot with
    | none => cases hv
    | some h =>
      simp only [Option.ite_none_right_eq_some, Bool.and_eq_true, Bool.not_eq_true',
        Option.some.injEq] at hv
      obtain ⟨⟨⟨h1, h2⟩, h3⟩, rfl⟩ := hv
      exact ⟨i, h, hi, h1, h2, h3, rfl⟩
  · rintro ⟨i, h, hi, h1, h2, h3, rfl⟩
    exact ⟨some h, List.mem_of_getElem? hi, by simp [h1, h2, h3]⟩

theorem Distinct.leaving_nodup {s : Placing} (hs : s.Distinct) (last : Array Nat)
    (results : Std.TreeSet Int) (next : Nat) : (s.leaving last results next).Nodup := by
  unfold leaving
  rw [List.Nodup, List.pairwise_filterMap, List.pairwise_iff_getElem]
  intro i j hi hj hij u hu v hv huv
  have hat : ∀ {k : Nat} (hk : k < s.slots.length) {w : Int},
      (match s.slots[k] with
        | some h => if !lives last next h && h.dirty && results.contains h.vector then some h.vector
          else none
        | none => none) = some w → ∃ h, s.At k h ∧ h.vector = w := by
    intro k hk w hw
    cases hslot : s.slots[k] with
    | none => rw [hslot] at hw; cases hw
    | some h =>
      rw [hslot] at hw
      simp only [Option.ite_none_right_eq_some, Option.some.injEq] at hw
      exact ⟨h, by rw [At, List.getElem?_eq_getElem hk, hslot], hw.2⟩
  obtain ⟨h, hh, hhu⟩ := hat hi hu
  obtain ⟨k, hk, hkv⟩ := hat hj hv
  have := hs.one i j h k hh hk (by rw [hhu, hkv, huv])
  omega

/-- **Vectors stand in the step that is closed where they stand in the slots.** -/
theorem Distinct.closing_place {s : Placing} (hs : s.Distinct) {b : Int} {stores : List Int}
    {v : Int} {i : Nat} :
    (s.closing stores).place b v = some i ↔ ∃ h, s.At i h ∧ h.vector = v := by
  have hat : ∀ {j : Nat}, 0 ≤ v → (s.closing stores).sramResident[j]? = some v →
      ∃ h, s.At j h ∧ h.vector = v := by
    intro j hv hj
    unfold closing at hj
    rw [List.getElem?_map] at hj
    unfold At
    cases hslot : s.slots[j]? with
    | none => rw [hslot] at hj; cases hj
    | some slot =>
      rw [hslot] at hj
      cases slot with
      | none =>
        obtain rfl : free = v := by simpa using hj
        simp [free] at hv
      | some h => exact ⟨h, rfl, by simpa using hj⟩
  unfold Step.place
  constructor
  · intro h
    split at h
    · cases h
    · exact hat (by omega) (getElem?_of_idxOf? h)
  · rintro ⟨h, hi, rfl⟩
    rw [if_neg (by have := hs.nonneg i h hi; omega)]
    refine idxOf?_of_unique ?_ fun j hj => ?_
    · unfold closing
      rw [List.getElem?_map, hi]
      rfl
    · obtain ⟨k, hk, hkv⟩ := hat (hs.nonneg i h hi) hj
      exact hs.one j i k h hk hi hkv

theorem Distinct.closing_none {s : Placing} (hs : s.Distinct) {b : Int} {stores : List Int} {v : Int}
    (hv : ¬s.Has v) : (s.closing stores).place b v = none := by
  cases hp : (s.closing stores).place b v with
  | none => rfl
  | some i =>
    obtain ⟨h, hat, heq⟩ := hs.closing_place.1 hp
    exact absurd ⟨i, h, hat, heq⟩ hv

/-- What the scheduler keeps true, with the entries `before` behind it and the vectors
of `need` pinned.

A vector is dirty if it was written. One that was written and has left is not touched
again, and was stored if it holds a result. What the step in work loads was not
written before, and together with what it reads it is in use. Every other vector
stands where it stood in the last step. -/
structure Sound (d : Shaped) (acc : Scalar) (last : Array Nat) (before : List Entry)
    (need : List Int) (s : Placing) : Prop where
  distinct : s.Distinct
  dirty : ∀ i h, s.At i h → (h.dirty = true ↔ ∃ e ∈ before, e.site.dst = h.vector)
  kept : ∀ e ∈ before, s.Has e.site.dst ∨ (last.getD e.site.dst.toNat 0 < before.length ∧
    (e.site.dst ∈ d.storeMask → e.site.dst ∈ s.done.flatMap (·.store)))
  loaded : ∀ v ∈ s.loadX, (∃ i h, s.At i h ∧ h.vector = v ∧ (h.used = true ∨ v ∈ need)) ∧
    ∀ t ∈ s.done, ∀ a ∈ t.actions d acc, a.dst ≠ v
  reads : ∀ q ∈ s.ops, q.1 ∈ d.ops ∧ ∀ site ∈ q.2, ∀ u ∈ (q.1.action acc site).reads,
    ∃ i h, s.At i h ∧ h.vector = u ∧ h.used = true
  stays : ∀ i h, s.At i h → h.vector ∈ s.loadX ∨
    ∃ t, s.done.head? = some t ∧ t.place d.b h.vector = some i
  actions : s.done.reverse.flatMap (Step.actions d acc) ++ s.current acc =
    before.map (Entry.action acc)
  chained : Chained d acc s.done.reverse
  departed : Departed d s.done.reverse
  stored : ∀ v ∈ s.done.flatMap (·.store), v ∈ d.storeMask ∧ ¬s.Has v ∧
    last.getD v.toNat 0 < before.length
  once : (s.done.flatMap (·.store)).Nodup
  grain : ∀ t ∈ s.done, t.residentGrain = .vector ∧ t.storeGrain = .vector
  supplied : ∀ t ∈ s.done, t.inpResident = t.loadA ∧ t.wgtResident = t.loadB

section Keep

variable {d : Shaped} {acc : Scalar} {last : Array Nat} {before : List Entry} {need : List Int}
  {s : Placing}

theorem sound_nil (d : Shaped) (acc : Scalar) (last : Array Nat) : Sound d acc last [] [] {} := by
  have hnone : ∀ i h, ¬At {} i h := fun i h hi => by simp [At] at hi
  exact ⟨⟨fun i j h k hi => absurd hi (hnone i h), fun i h hi => absurd hi (hnone i h)⟩,
    fun i h hi => absurd hi (hnone i h), by simp, by simp, by simp,
    fun i h hi => absurd hi (hnone i h), rfl, Chained.nil d acc, List.Pairwise.nil, by simp,
    List.nodup_nil, by simp, by simp⟩

/-- An action of a step that is done is that of an entry. -/
theorem Sound.entry_of_done (hs : s.Sound d acc last before need) {t : Step} (ht : t ∈ s.done)
    {a : Action} (ha : a ∈ t.actions d acc) : ∃ e ∈ before, e.site.dst = a.dst := by
  have hmem : a ∈ before.map (Entry.action acc) := by
    rw [← hs.actions]
    exact List.mem_append_left _ (List.mem_flatMap.2 ⟨t, List.mem_reverse.2 ht, ha⟩)
  obtain ⟨e, he, rfl⟩ := List.mem_map.1 hmem
  exact ⟨e, he, rfl⟩

/-- The step that is closed fits the steps before it. -/
theorem Sound.follows (hs : s.Sound d acc last before need) (results : Std.TreeSet Int) :
    Follows d acc s.done.reverse (s.closing (s.leaving last results before.length)) where
  onePlace := by
    intro u v row hu hv
    obtain ⟨h, hh, rfl⟩ := hs.distinct.closing_place.1 hu
    obtain ⟨k, hk, rfl⟩ := hs.distinct.closing_place.1 hv
    rw [At] at hh hk
    rw [hh] at hk
    simpa using congrArg (Option.map (Option.map Held.vector)) hk
  loaded := by
    intro v hv
    obtain ⟨⟨i, h, hat, heq, -⟩, hfresh⟩ := hs.loaded v (List.mem_reverse.1 hv)
    exact ⟨⟨i, hs.distinct.closing_place.2 ⟨h, hat, heq⟩⟩,
      fun t ht => hfresh t (List.mem_reverse.1 ht)⟩
  kept := by
    intro v row hrow
    obtain ⟨h, hat, rfl⟩ := hs.distinct.closing_place.1 hrow
    rcases hs.stays row h hat with hl | ⟨t, ht, hp⟩
    · exact Or.inl (List.mem_reverse.2 hl)
    · exact Or.inr ⟨t, by rw [List.getLast?_reverse, ht], hp⟩
  reads := by
    intro a ha u hu
    rw [closing_actions] at ha
    obtain ⟨q, hq, ha⟩ := List.mem_flatMap.1 ha
    obtain ⟨site, hsite, rfl⟩ := List.mem_map.1 ha
    obtain ⟨i, h, hat, heq, -⟩ :=
      (hs.reads q (List.mem_reverse.1 hq)).2 site (List.mem_reverse.1 hsite) u hu
    exact ⟨i, hs.distinct.closing_place.2 ⟨h, hat, heq⟩⟩
  stored := by
    intro v hv
    obtain ⟨i, h, hat, -, -, -, heq⟩ := mem_leaving.1 hv
    exact ⟨i, hs.distinct.closing_place.2 ⟨h, hat, heq⟩⟩

/-- What stands in a slot once the step is closed stood there before, and lives. -/
theorem has_of_flush {results : Std.TreeSet Int} {next : Nat} {v : Int}
    (h : (s.flush last results next).Has v) : s.Has v ∧ next ≤ last.getD v.toNat 0 := by
  obtain ⟨i, h, hat, rfl⟩ := h
  obtain ⟨k, hk, hl, rfl⟩ := flush_at.1 hat
  exact ⟨⟨i, k, hk, rfl⟩, by simpa [lives] using hl⟩

theorem contains_results {v : Int} :
    (Std.TreeSet.ofList d.storeMask).contains v = true ↔ v ∈ d.storeMask := by
  rw [Std.TreeSet.contains_ofList]
  exact List.contains_iff_mem

/-- What is stored when the step is closed holds a result and is not used again. -/
theorem result_of_leaving {next : Nat} {v : Int}
    (hv : v ∈ s.leaving last (Std.TreeSet.ofList d.storeMask) next) :
    v ∈ d.storeMask ∧ s.Has v ∧ last.getD v.toNat 0 < next := by
  obtain ⟨i, h, hat, hl, -, hr, rfl⟩ := mem_leaving.1 hv
  exact ⟨contains_results.1 hr, ⟨i, h, hat, rfl⟩, by simpa [lives] using hl⟩

/-- A vector that was written keeps its slot when the step is closed, or is used no more and
stored if it holds a result. -/
theorem Sound.kept_or_leaving (hs : s.Sound d acc last before need) {e : Entry} (he : e ∈ before)
    (hhas : s.Has e.site.dst) :
    (s.flush last (Std.TreeSet.ofList d.storeMask) before.length).Has e.site.dst ∨
      (last.getD e.site.dst.toNat 0 < before.length ∧ (e.site.dst ∈ d.storeMask →
        e.site.dst ∈ s.leaving last (Std.TreeSet.ofList d.storeMask) before.length)) := by
  obtain ⟨i, h, hat, heq⟩ := hhas
  cases hl : lives last before.length h with
  | true => exact Or.inl ⟨i, _, flush_at.2 ⟨h, hat, hl, rfl⟩, heq⟩
  | false =>
    refine Or.inr ⟨by rw [← heq]; simpa [lives] using hl, fun hm => ?_⟩
    exact mem_leaving.2 ⟨i, h, hat, hl, (hs.dirty i h hat).2 ⟨e, he, heq.symm⟩,
      contains_results.2 hm, heq⟩

/-- **Closing a step keeps the invariant.** -/
theorem flush_sound (hs : s.Sound d acc last before need) :
    (s.flush last (Std.TreeSet.ofList d.storeMask) before.length).Sound d acc last before [] := by
  constructor
  case distinct => exact hs.distinct.flush _ _ _
  case dirty =>
    intro i h hi
    obtain ⟨k, hk, -, rfl⟩ := flush_at.1 hi
    exact hs.dirty i k hk
  case kept =>
    intro e he
    rw [flush_done, List.flatMap_cons]
    rcases hs.kept e he with hhas | ⟨hlt, hst⟩
    · exact (hs.kept_or_leaving he hhas).imp_right fun h =>
        ⟨h.1, fun hm => List.mem_append_left _ (h.2 hm)⟩
    · exact Or.inr ⟨hlt, fun hm => List.mem_append_right _ (hst hm)⟩
  case loaded =>
    intro v hv
    cases hv
  case reads =>
    intro q hq
    cases hq
  case stays =>
    intro i h hi
    obtain ⟨k, hk, -, rfl⟩ := flush_at.1 hi
    exact Or.inr ⟨_, rfl, hs.distinct.closing_place.2 ⟨k, hk, rfl⟩⟩
  case actions =>
    rw [flush_done, List.reverse_cons, List.flatMap_append, List.flatMap_singleton, closing_actions,
      hs.actions]
    exact List.append_nil _
  case chained =>
    rw [flush_done, List.reverse_cons]
    exact hs.chained.concat (hs.follows _)
  case departed =>
    rw [flush_done, List.reverse_cons, Departed, List.pairwise_append]
    refine ⟨hs.departed, List.pairwise_singleton _ _, fun t ht u hu v hv => ?_⟩
    obtain rfl := List.mem_singleton.1 hu
    have ht := List.mem_reverse.1 ht
    rw [Step.stores, (hs.grain t ht).2] at hv
    exact hs.distinct.closing_none (hs.stored v (List.mem_flatMap.2 ⟨t, ht, hv⟩)).2.1
  case stored =>
    intro v hv
    rw [flush_done, List.flatMap_cons] at hv
    rcases List.mem_append.1 hv with hv | hv
    · obtain ⟨hm, -, hlt⟩ := result_of_leaving hv
      exact ⟨hm, fun hhas => absurd (has_of_flush hhas).2 (by omega), hlt⟩
    · obtain ⟨hm, hnot, hlt⟩ := hs.stored v hv
      exact ⟨hm, fun hhas => hnot (has_of_flush hhas).1, hlt⟩
  case once =>
    rw [flush_done, List.flatMap_cons, List.nodup_append]
    refine ⟨hs.distinct.leaving_nodup _ _ _, hs.once, fun u hu v hv huv => ?_⟩
    exact (hs.stored v hv).2.1 (huv ▸ (result_of_leaving hu).2.1)
  case grain =>
    intro t ht
    rw [flush_done] at ht
    rcases List.mem_cons.1 ht with rfl | ht
    · exact ⟨rfl, rfl⟩
    · exact hs.grain t ht
  case supplied =>
    intro t ht
    rw [flush_done] at ht
    rcases List.mem_cons.1 ht with rfl | ht
    · exact ⟨rfl, rfl⟩
    · exact hs.supplied t ht

theorem close_sound (hs : s.Sound d acc last before []) :
    (s.close last (Std.TreeSet.ofList d.storeMask) before.length).Sound d acc last before [] := by
  unfold close
  split
  · exact hs
  · exact flush_sound hs

/-- Once the step in work is closed, nothing is in work. -/
theorem close_current (acc : Scalar) (s : Placing) (last : Array Nat) (results : Std.TreeSet Int)
    (next : Nat) : (s.close last results next).current acc = [] := by
  unfold close
  split
  · rename_i hops
    rw [current, List.isEmpty_iff.1 hops]
    rfl
  · rfl

/-- **Placing a vector keeps the invariant**, if it is needed now and does not stand in
a slot. -/
theorem place_sound (hs : s.Sound d acc last before need) {capacity : Int} {v : Int} {s' : Placing}
    (hneed : v ∈ need) (hv : 0 ≤ v) (hnew : ¬s.Has v) (hlast : before.length ≤ last.getD v.toNat 0)
    (hplace : s.place capacity need v = .ok s') : s'.Sound d acc last before need := by
  have htakes := place_takes hneed hplace
  have hdistinct := hs.distinct.place hneed hv hnew hplace
  obtain ⟨-, slots, rfl⟩ := place_at hneed hplace
  have hunwritten : ∀ e ∈ before, e.site.dst ≠ v := by
    rintro e he rfl
    rcases hs.kept e he with hh | ⟨hlt, -⟩
    · exact hnew hh
    · omega
  constructor
  case distinct => exact hdistinct
  case dirty =>
    intro j h hj
    rcases htakes.back j h hj with rfl | hj
    · simp only [Bool.false_eq_true, false_iff, not_exists, not_and]
      exact hunwritten
    · exact hs.dirty j h hj
  case kept =>
    intro e he
    refine (hs.kept e he).imp_left ?_
    rintro ⟨j, h, hj, heq⟩
    exact ⟨j, h, htakes.kept j h hj (Or.inl ((hs.dirty j h hj).2 ⟨e, he, heq.symm⟩)), heq⟩
  case loaded =>
    intro u hu
    rcases List.mem_cons.1 hu with rfl | hu
    · obtain ⟨i, hself⟩ := htakes.taken
      refine ⟨⟨i, _, hself, rfl, Or.inr hneed⟩, fun t ht a ha heq => ?_⟩
      obtain ⟨e, he, hea⟩ := hs.entry_of_done ht ha
      exact hunwritten e he (hea.trans heq)
    · obtain ⟨⟨j, h, hj, heq, hpin⟩, hfresh⟩ := hs.loaded u hu
      refine ⟨⟨j, h, htakes.kept j h hj (Or.inr ?_), heq, hpin⟩, hfresh⟩
      rwa [heq]
  case reads =>
    intro q hq
    refine ⟨(hs.reads q hq).1, fun site hsite u hu => ?_⟩
    obtain ⟨j, h, hj, heq, hused⟩ := (hs.reads q hq).2 site hsite u hu
    exact ⟨j, h, htakes.kept j h hj (Or.inr (Or.inl hused)), heq, hused⟩
  case stays =>
    intro j h hj
    rcases htakes.back j h hj with rfl | hj
    · exact Or.inl List.mem_cons_self
    · exact (hs.stays j h hj).imp_left (List.mem_cons_of_mem _)
  case actions => exact hs.actions
  case chained => exact hs.chained
  case departed => exact hs.departed
  case stored =>
    intro u hu
    obtain ⟨hm, hnot, hlt⟩ := hs.stored u hu
    refine ⟨hm, fun hhas => ?_, hlt⟩
    rcases htakes.of_has hhas with rfl | hhas
    · omega
    · exact hnot hhas
  case once => exact hs.once
  case grain => exact hs.grain
  case supplied => exact hs.supplied

theorem execute_current {e : Entry} (hindex : ∀ q ∈ s.ops, q.1.index = e.op.index → q.1 = e.op) :
    (s.execute e).current acc = s.current acc ++ [e.action acc] := by
  unfold execute current
  cases hops : s.ops with
  | nil => simp [Entry.action]
  | cons q rest =>
    obtain ⟨r, sites⟩ := q
    rw [hops] at hindex
    by_cases hr : r.index = e.op.index
    · obtain rfl := hindex (r, sites) List.mem_cons_self hr
      simp only [if_pos, List.reverse_cons, List.flatMap_append, List.flatMap_singleton,
        List.map_append, List.map_cons, List.map_nil, List.append_assoc, Entry.action]
    · simp only [if_neg hr, List.reverse_cons, List.flatMap_append, List.flatMap_singleton,
        List.map_cons, List.map_nil, Entry.action, List.reverse_nil, List.nil_append]

theorem execute_ops_ne (s : Placing) (e : Entry) : (s.execute e).ops ≠ [] := by
  unfold execute
  simp only
  split
  · split <;> exact List.cons_ne_nil _ _
  · exact List.cons_ne_nil _ _

/-- What the step in work runs after an entry is run. -/
theorem execute_ops {e : Entry} (hindex : ∀ q ∈ s.ops, q.1.index = e.op.index → q.1 = e.op) :
    ∀ q ∈ (s.execute e).ops, (q.1 = e.op ∨ ∃ q' ∈ s.ops, q.1 = q'.1) ∧ ∀ site ∈ q.2,
      (q.1 = e.op ∧ site = e.site) ∨ ∃ q' ∈ s.ops, q.1 = q'.1 ∧ site ∈ q'.2 := by
  unfold execute
  cases hops : s.ops with
  | nil => simp
  | cons q rest =>
    obtain ⟨r, sites⟩ := q
    rw [hops] at hindex
    by_cases hr : r.index = e.op.index
    · obtain rfl := hindex (r, sites) List.mem_cons_self hr
      simp only [if_pos]
      intro q hq
      rcases List.mem_cons.1 hq with rfl | hq
      · refine ⟨Or.inl rfl, fun site hsite => ?_⟩
        rcases List.mem_cons.1 hsite with rfl | hsite
        · exact Or.inl ⟨rfl, rfl⟩
        · exact Or.inr ⟨_, List.mem_cons_self, rfl, hsite⟩
      · exact ⟨Or.inr ⟨q, List.mem_cons_of_mem _ hq, rfl⟩,
          fun site hsite => Or.inr ⟨q, List.mem_cons_of_mem _ hq, rfl, hsite⟩⟩
    · simp only [if_neg hr]
      intro q hq
      rcases List.mem_cons.1 hq with rfl | hq
      · exact ⟨Or.inl rfl, fun site hsite => Or.inl ⟨rfl, List.mem_singleton.1 hsite⟩⟩
      · exact ⟨Or.inr ⟨q, hq, rfl⟩, fun site hsite => Or.inr ⟨q, hq, rfl, hsite⟩⟩

/-- A vector keeps its slot while an entry is run, and is in use if the entry needs it. -/
theorem at_execute {e : Entry} {j : Nat} {h : Held} (hj : s.At j h) :
    ∃ k, (s.execute e).At j k ∧ k.vector = h.vector ∧
      (h.used = true ∨ h.vector ∈ e.need → k.used = true) := by
  refine ⟨_, execute_at.2 ⟨h, hj, rfl⟩, rfl, fun hu => ?_⟩
  simpa [List.contains_eq_mem] using hu

theorem execute_has {e : Entry} {u : Int} : (s.execute e).Has u ↔ s.Has u := by
  constructor
  · rintro ⟨j, h, hj, rfl⟩
    obtain ⟨k, hk, rfl⟩ := execute_at.1 hj
    exact ⟨j, k, hk, rfl⟩
  · rintro ⟨j, h, hj, rfl⟩
    obtain ⟨k, hk, heq, -⟩ := at_execute (e := e) hj
    exact ⟨j, k, hk, heq⟩

/-- What the step in work reads after an entry is run is there and in use. -/
theorem Sound.execute_reads {e : Entry} (hs : s.Sound d acc last before e.need)
    (hop : e.op ∈ d.ops) (hknown : ∀ q ∈ s.ops, q.1.index = e.op.index → q.1 = e.op)
    (hreads : ∀ u ∈ (e.action acc).reads, u ∈ e.need) (hhas : ∀ u ∈ e.need, s.Has u) :
    ∀ q ∈ (s.execute e).ops, q.1 ∈ d.ops ∧ ∀ site ∈ q.2, ∀ u ∈ (q.1.action acc site).reads,
      ∃ i h, (s.execute e).At i h ∧ h.vector = u ∧ h.used = true := by
  intro q hq
  obtain ⟨h1, h2⟩ := execute_ops hknown q hq
  refine ⟨?_, fun site hsite u hu => ?_⟩
  · rcases h1 with h1 | ⟨q', hq', h1⟩
    · exact h1 ▸ hop
    · exact h1 ▸ (hs.reads q' hq').1
  · rcases h2 site hsite with ⟨h, rfl⟩ | ⟨q', hq', h, hsite'⟩
    · rw [h] at hu
      have hneed := hreads u hu
      obtain ⟨j, k, hj, rfl⟩ := hhas u hneed
      obtain ⟨k', hk', heq, hused⟩ := at_execute hj
      exact ⟨j, k', hk', heq, hused (Or.inr hneed)⟩
    · rw [h] at hu
      obtain ⟨j, k, hj, heq, hused⟩ := (hs.reads q' hq').2 site hsite' u hu
      obtain ⟨k', hk', heq', hused'⟩ := at_execute (e := e) hj
      exact ⟨j, k', hk', heq'.trans heq, hused' (Or.inl hused)⟩

/-- **Running an entry on vectors that stand in slots keeps the invariant.** -/
theorem execute_sound {e : Entry} (hs : s.Sound d acc last before e.need) (hop : e.op ∈ d.ops)
    (hindex : ∀ r ∈ d.ops, r.index = e.op.index → r = e.op)
    (hreads : ∀ u ∈ (e.action acc).reads, u ∈ e.need) (hhas : ∀ u ∈ e.need, s.Has u) :
    (s.execute e).Sound d acc last (before ++ [e]) [] := by
  have hknown : ∀ q ∈ s.ops, q.1.index = e.op.index → q.1 = e.op :=
    fun q hq => hindex q.1 (hs.reads q hq).1
  have hdst : e.site.dst ∈ e.need := hreads _ List.mem_cons_self
  have hlen : (before ++ [e]).length = before.length + 1 := by simp
  constructor
  case distinct => exact hs.distinct.execute e
  case dirty =>
    intro i h hi
    obtain ⟨k, hk, rfl⟩ := execute_at.1 hi
    simp only [Bool.or_eq_true, hs.dirty i k hk, beq_iff_eq, List.mem_append, List.mem_singleton,
      or_and_right, exists_or, exists_eq_left]
    rw [eq_comm (a := k.vector)]
  case kept =>
    intro f hf
    rw [execute_has, hlen]
    rcases List.mem_append.1 hf with hf | hf
    · exact (hs.kept f hf).imp_right fun h => ⟨by omega, h.2⟩
    · obtain rfl := List.mem_singleton.1 hf
      exact Or.inl (hhas _ hdst)
  case loaded =>
    intro v hv
    obtain ⟨⟨j, h, hj, heq, hpin⟩, hfresh⟩ := hs.loaded v hv
    obtain ⟨k, hk, hkv, hused⟩ := at_execute hj
    exact ⟨⟨j, k, hk, hkv.trans heq, Or.inl (hused (heq ▸ hpin))⟩, hfresh⟩
  case reads => exact hs.execute_reads hop hknown hreads hhas
  case stays =>
    intro i h hi
    obtain ⟨k, hk, rfl⟩ := execute_at.1 hi
    exact hs.stays i k hk
  case actions =>
    rw [execute_current hknown, List.map_append, ← hs.actions]
    exact (List.append_assoc _ _ _).symm
  case chained => exact hs.chained
  case departed => exact hs.departed
  case stored =>
    intro v hv
    obtain ⟨hm, hnot, hlt⟩ := hs.stored v hv
    exact ⟨hm, fun h => hnot (execute_has.1 h), by omega⟩
  case once => exact hs.once
  case grain => exact hs.grain
  case supplied => exact hs.supplied

/-- More vectors may be pinned. -/
theorem Sound.pin (hs : s.Sound d acc last before []) (need : List Int) :
    s.Sound d acc last before need :=
  { hs with
    loaded := fun v hv => by
      obtain ⟨⟨i, h, hat, heq, hpin⟩, hfresh⟩ := hs.loaded v hv
      exact ⟨⟨i, h, hat, heq, hpin.imp_right fun hm => absurd hm List.not_mem_nil⟩, hfresh⟩ }

/-- **Placing an entry keeps the invariant**, if its vectors are not touched for the
last time before it. -/
theorem entry_sound {e : Entry} {capacity : Int} {s' : Placing}
    (hs : s.Sound d acc last before []) (hop : e.op ∈ d.ops)
    (hindex : ∀ r ∈ d.ops, r.index = e.op.index → r = e.op)
    (hreads : ∀ u ∈ (e.action acc).reads, u ∈ e.need)
    (hneed : ∀ v ∈ e.need, 0 ≤ v ∧ before.length ≤ last.getD v.toNat 0)
    (h : s.entry capacity last (Std.TreeSet.ofList d.storeMask) before.length e = .ok s') :
    s'.Sound d acc last (before ++ [e]) [] ∧ s'.ops ≠ [] := by
  -- the invariant says more and more: the vectors the entry needs are pinned, and then it is run
  exact entry_invariant (I := Sound d acc last before e.need)
    (P := fun v => 0 ≤ v ∧ before.length ≤ last.getD v.toNat 0)
    (J := fun s' => s'.Sound d acc last (before ++ [e]) [] ∧ s'.ops ≠ []) (hs.pin e.need)
    ((flush_sound hs).pin e.need)
    (fun hs hv hmem hnew hroom => place_sound hs hmem hv.1 hnew hv.2 hroom) hneed
    (fun hs hhas => ⟨execute_sound hs hop hindex hreads hhas, execute_ops_ne _ e⟩) h

end Keep

end Placing

section Entries

variable {ops : List Resolved} {vectors : Nat} {e : Entry}

theorem need_of_reads {acc : Scalar} (hon : ∀ r ∈ ops, r.OnVectors vectors vectors)
    (he : e ∈ flatten ops) : ∀ u ∈ (e.action acc).reads, u ∈ e.need :=
  fun _ hu => e.reads_need (source_of_sites (source_of_onVectors hon) e he) hu

theorem need_range (hon : ∀ r ∈ ops, r.OnVectors vectors vectors) (he : e ∈ flatten ops) :
    ∀ v ∈ e.need, 0 ≤ v ∧ v < vectors :=
  (below_of_sites (below_of_onVectors hon) e he).need

end Entries

section Run

variable {d : Shaped} {acc : Scalar} {vectors : Nat} {capacity : Int} {order : List Entry}

/-- **One entry of the scheduler's run keeps the invariant.** -/
theorem placing_step (hon : ∀ r ∈ d.ops, r.OnVectors vectors vectors)
    (hindex : ∀ r ∈ d.ops, ∀ r' ∈ d.ops, r.index = r'.index → r = r')
    (hperm : order.Perm (flatten d.ops)) {done rest : List (Entry × Nat)} {e : Entry} {t : Nat}
    {s s' : Placing} (hsplit : done ++ (e, t) :: rest = order.zipIdx)
    (hs : s.Sound d acc (lastTouch vectors order) (done.map Prod.fst) [])
    (hstep : s.entry capacity (lastTouch vectors order) (Std.TreeSet.ofList d.storeMask) t e =
      .ok s') :
    e ∈ flatten d.ops ∧ t = (done.map Prod.fst).length ∧
      s'.Sound d acc (lastTouch vectors order) (done.map Prod.fst ++ [e]) [] ∧ s'.ops ≠ [] := by
  -- the entry stands at its number
  have hat : order.zipIdx[done.length]? = some (e, t) := by
    rw [← hsplit, List.getElem?_append_right le_rfl, Nat.sub_self]
    rfl
  obtain ⟨he, rfl⟩ : order[done.length]? = some e ∧ done.length = t := by
    rw [List.getElem?_zipIdx] at hat
    simpa [and_comm] using hat
  have hmem : e ∈ flatten d.ops := hperm.subset (List.mem_of_getElem? he)
  have hop := (mem_flatten hmem).1
  have hlen : done.length = (done.map Prod.fst).length := by simp
  rw [hlen] at hstep
  have hneed : ∀ v ∈ e.need, 0 ≤ v ∧
      (done.map Prod.fst).length ≤ (lastTouch vectors order).getD v.toNat 0 := by
    intro v hv
    obtain ⟨hv0, hv1⟩ := need_range hon hmem v hv
    refine ⟨hv0, ?_⟩
    rw [← hlen]
    exact (lastTouch_le vectors order (by omega)).2.1 _ e he (List.mem_map_of_mem hv)
  exact ⟨hmem, hlen, Placing.entry_sound hs hop (fun r hr => hindex r hr _ hop)
    (need_of_reads hon hmem) hneed hstep⟩

/-- **The run of the scheduler keeps the invariant.** -/
theorem placing_sound (hon : ∀ r ∈ d.ops, r.OnVectors vectors vectors)
    (hindex : ∀ r ∈ d.ops, ∀ r' ∈ d.ops, r.index = r'.index → r = r')
    (hperm : order.Perm (flatten d.ops)) {s : Placing}
    (h : order.zipIdx.foldlM (fun (s : Placing) (e, t) => s.entry capacity (lastTouch vectors order)
      (Std.TreeSet.ofList d.storeMask) t e) {} = .ok s) :
    s.Sound d acc (lastTouch vectors order) order [] ∧ (order ≠ [] → s.ops ≠ []) := by
  have key := foldlM_invariant (fun (done rest : List (Entry × Nat)) (s : Placing) =>
    done ++ rest = order.zipIdx ∧
      s.Sound d acc (lastTouch vectors order) (done.map Prod.fst) [] ∧ (done ≠ [] → s.ops ≠ []))
    ?_ [] order.zipIdx {} s ⟨rfl, Placing.sound_nil d acc _, fun h => absurd rfl h⟩ h
  · simpa using key.2
  · rintro done ⟨e, t⟩ rest s s' ⟨hsplit, hs, -⟩ hstep
    obtain ⟨-, -, h1, h2⟩ := placing_step hon hindex hperm hsplit hs hstep
    exact ⟨by simpa using hsplit, by simpa using h1, fun _ => h2⟩

end Run

/-- Once the last step is closed, what is stored are the vectors that hold results. -/
theorem close_stores {d : Shaped} {acc : Scalar} {vectors : Nat} {order : List Entry} {s : Placing}
    (hs : s.Sound d acc (lastTouch vectors order) order []) (hops : order ≠ [] → s.ops ≠ [])
    (hlt : ∀ e ∈ order, e.site.dst.toNat < vectors) (hnodup : d.storeMask.Nodup)
    (hmask : ∀ v ∈ d.storeMask, ∃ e ∈ order, e.site.dst = v) :
    ((s.close (lastTouch vectors order) (Std.TreeSet.ofList d.storeMask) order.length).done.flatMap
      (·.store)).Perm d.storeMask := by
  have hclose := Placing.close_sound hs
  refine (List.perm_ext_iff_of_nodup hclose.once hnodup).2 fun v => ⟨fun hv => ?_, fun hv => ?_⟩
  · exact (hclose.stored v hv).1
  · obtain ⟨e, he, rfl⟩ := hmask v hv
    have hne := List.ne_nil_of_mem he
    rcases hclose.kept e he with ⟨i, h, hat, heq⟩ | ⟨-, hst⟩
    · -- no vector is used after the last entry
      rw [Placing.close, if_neg (by simpa using hops hne)] at hat
      obtain ⟨k, -, hlives, rfl⟩ := Placing.flush_at.1 hat
      have hlast := (lastTouch_le vectors order (hlt e he)).2.2
      have hpos := List.length_pos_iff.2 hne
      simp only at heq
      rw [Placing.lives, heq, decide_eq_true_eq] at hlives
      omega
    · exact hst hv

/-- What the steps of operations that do not fit are like: they take the vectors to their
final values, run every site of every operation, store the vectors that hold results, and
need no operands. -/
structure Shaped.Evicted (d : Shaped) (acc : Scalar) (b : Nat) (steps : List Step) : Prop where
  simulates : Simulates d acc steps (rowsOf d.final.data b)
  sites : ∀ r ∈ d.ops, ∀ s ∈ r.sites, ∃ a ∈ steps.flatMap (Step.actions d acc), a.dst = s.dst
  stores : (steps.flatMap (Step.stores d)).Perm d.storeMask
  grain : ∀ t ∈ steps, t.residentGrain = .vector ∧ t.storeGrain = .vector
  supplied : ∀ t ∈ steps, t.inpResident = t.loadA ∧ t.wgtResident = t.loadB

/-- The steps that are done once nothing is in work, if what they store are the vectors
that hold results and their entries, run in turn, end in the final values. -/
theorem Placing.Sound.evicted {d : Shaped} {acc : Scalar} {b : Nat} {last : Array Nat}
    {order : List Entry} {s : Placing} (hs : s.Sound d acc last order [])
    (hcurrent : s.current acc = []) (hstores : (s.done.flatMap (·.store)).Perm d.storeMask)
    (hsites : ∀ r ∈ d.ops, ∀ site ∈ r.sites, ∃ e ∈ order, e.site.dst = site.dst)
    (hrun : Action.run (order.map (Entry.action acc)) d.initial = .ok (rowsOf d.final.data b)) :
    d.Evicted acc b s.done.reverse := by
  have hgrain : ∀ t ∈ s.done.reverse, t.residentGrain = .vector ∧ t.storeGrain = .vector :=
    fun t ht => hs.grain t (List.mem_reverse.1 ht)
  have hlist : s.done.reverse.flatMap (Step.stores d) = s.done.reverse.flatMap (·.store) :=
    List.flatMap_congr fun t ht => by rw [Step.stores, (hgrain t ht).2]
  have hperm := (List.reverse_perm s.done).flatMap_right (·.store)
  have hnodup : (s.done.reverse.flatMap (Step.stores d)).Nodup := by
    rw [hlist]
    exact hperm.nodup_iff.2 hs.once
  have hactions := hs.actions
  rw [hcurrent, List.append_nil] at hactions
  refine ⟨⟨hs.chained, hs.departed, fun t ht => ?_, ?_⟩, fun r hr site hsite => ?_, ?_, hgrain,
    fun t ht => hs.supplied t (List.mem_reverse.1 ht)⟩
  · exact (List.nodup_flatMap.1 hnodup).1 t ht
  · rw [hactions]
    exact hrun
  · obtain ⟨e, he, heq⟩ := hsites r hr site hsite
    rw [hactions]
    exact ⟨e.action acc, List.mem_map_of_mem he, heq⟩
  · rw [hlist]
    exact hperm.trans hstores

/-- **The steps of operations that do not fit** simulate the operations. -/
theorem aluOverflow_evicted {q : Planner} {d : Shaped} {p : Program} {c : Config} {b xr xc : Nat}
    {steps : List Step} (hb : 1 ≤ b) (hcommon : d.Common p c b xr xc) (hplain : d.Plain b)
    (hdata : q.data = d) (h : q.aluOverflow = .ok steps) : d.Evicted c.acc b steps := by
  subst hdata
  have hon : ∀ r ∈ q.data.ops, r.OnVectors (xr * xc * b : Nat) (xr * xc * b : Nat) :=
    fun r hr => hcommon.onVectors_of_ne (by rw [hplain.form]; decide) hr
  have hvectors : q.data.vectors.toNat = xr * xc * b := by
    rw [Shaped.vectors, Tensor.size, hcommon.x_regular.size, hcommon.side]
    exact Int.toNat_natCast _
  obtain ⟨-, order, horder, s, hs, rfl⟩ := (Planner.aluOverflow_eq_ok hvectors).1 h
  have hperm := orderEntries_perm horder
  obtain ⟨hsound, hops⟩ := placing_sound hon
    (fun r hr r' hr' => hcommon.op_eq_of_index hr hr') hperm hs
  have hsites : ∀ r ∈ q.data.ops, ∀ site ∈ r.sites, ∃ e ∈ order, e.site.dst = site.dst := by
    intro r hr site hsite
    have : r.action c.acc site ∈ (flatten q.data.ops).map (Entry.action c.acc) := by
      rw [flatten_action]
      exact List.mem_flatMap.2 ⟨r, hr, List.mem_map_of_mem hsite⟩
    obtain ⟨e, he, heq⟩ := List.mem_map.1 this
    exact ⟨e, hperm.symm.subset he, congrArg Action.dst heq⟩
  refine (Placing.close_sound hsound).evicted (Placing.close_current _ _ _ _ _)
    (close_stores hsound hops (fun e he => ?_) ?_ fun v hv => ?_) hsites ?_
  · obtain ⟨hr, hsite⟩ := mem_flatten (hperm.subset he)
    have := (hon _ hr).dst _ hsite
    omega
  · rw [hcommon.mask]
    exact nodup_resultVectors _ _ _
  · obtain ⟨r, hr, site, hsite, rfl⟩ := hcommon.mask_written (Or.inl hplain.form) hv
    exact hsites r hr site hsite
  · exact orderEntries_run hon horder (hcommon.plain_run hb hplain).2.2

/-- What is recorded of stores changes nothing a step does. -/
theorem traceOf_recordStores (d : Shaped) (acc : Scalar) (steps : List Step) :
    traceOf d acc (recordStores steps) = traceOf d acc steps := by
  rw [recordStores_eq]
  exact withStores_flatMap (Step.trace d acc) (fun _ _ => rfl) [] steps

/-- The rows of a table are the vectors of the table. -/
theorem row_eq_rowsOf {m : Matrix} {b n : Nat} {v : Int} (hcols : m.cols = b)
    (hsize : m.data.size = n * b) (hsmall : n * b < 4611686018427387904) (hv : 0 ≤ v)
    (hv' : v < n) : m.row v = .ok (rowsOf m.data b v).toArray := by
  unfold Matrix.row
  rw [hcols, slice_rowsOf hsize (by omega) hv hv']

/-- **Operations that do not fit, replayed on slots, simulate the program.** Whatever
the slots hold at first: every slot that is read holds the current value of its vector;
what is stored are the rows of the result, in the order of the record; that is every
vector that holds a result, once; and a vector that was stored is touched no more. -/
theorem plan_evicts {p : Program} {c : Config} {d : Shaped} {caps : Capacities}
    {options : PlanOptions} {s : Schedule} (hword : p.WordSized)
    (hbuild : Shaped.build p c = .ok d) (hform : d.form = .alu)
    (hs : plan d caps options = .ok s) (hpath : s.path = .aluOverflow) (ρ : Rows) :
    (∀ pre e post, traceOf d c.acc s.steps = pre ++ e :: post →
      ∃ ρ' ν, ρ.run d.initial pre = .ok ρ' ∧
        Action.run (Motion.actions (movesOf pre)) d.initial = .ok ν ∧
        ∀ v ∈ e.move.reads, ∃ slot, e.place v = some slot ∧ ρ'.acc slot = ν v) ∧
    (∃ ρ' rows, ρ.run d.initial (traceOf d c.acc s.steps) = .ok ρ' ∧
      ρ'.stored = ρ.stored ++ rows ∧ s.stored.mapM d.final.row = .ok (rows.map List.toArray)) ∧
    s.stored.Perm d.storeMask ∧
    ∀ pre e post v, traceOf d c.acc s.steps = pre ++ e :: post → e.move = .store v →
      ∀ f ∈ post, v ∉ f.move.touches := by
  obtain ⟨b, xr, xc, hsound, hcommon, hformed⟩ := build_formed hword hbuild
  have hplain := hformed.plain_of_form hform
  obtain ⟨strategy, steps, hplanned⟩ := plan_planned hs
  -- the path says which way the schedule was made
  have hover : (Planner.of d caps strategy options.inclusiveFit).aluOverflow = .ok steps := by
    have h := (Planner.steps_operations hform).1 hplanned.planned
    rw [hpath] at h
    split at h
    · cases h.1
    · exact h.2.2
  obtain ⟨hsim, -, hperm, hgrain, -⟩ := aluOverflow_evicted hsound.pos hcommon hplain rfl hover
  have hlist : s.stored = steps.flatMap (Step.stores d) := by
    rw [stored_recordStores hplanned.recorded]
    refine (List.flatMap_congr fun t ht => ?_).symm
    rw [Step.stores, (hgrain t ht).2]
  rw [hplanned.recorded, traceOf_recordStores, hlist]
  refine ⟨fun pre e post hsplit => hsim.current ρ hsplit, ?_, hperm, ?_⟩
  · obtain ⟨ρ', copies, hrun, hstored, -, -⟩ := hsim.stored ρ
    obtain ⟨hcols, hsize, -⟩ := hcommon.plain_run hsound.pos hplain
    have hsmall := hcommon.x_regular.vectors_small hcommon.x_rows
    refine ⟨ρ', _, hrun, hstored, ?_⟩
    rw [List.map_map]
    refine mapM_of_forall fun v hv => ?_
    obtain ⟨hv0, hv1⟩ := hcommon.mask_range (hperm.subset hv)
    exact row_eq_rowsOf hcols hsize (by omega) hv0 hv1
  · intro pre e post v hsplit he f hf
    have := hsim.retired
    rw [hsplit] at this
    exact (List.pairwise_cons.1 (List.pairwise_append.1 this).2.1).1 f hf v he

/-- The last of four vectors, added to each of the others. -/
def Program.lastAdded : Program where
  name := ""
  matrices := [⟨"ACCUMULATOR", 4, 2, some ⟨4, 2, #[1, 2, 3, 4, 5, 6, 7, 8]⟩⟩]
  alu := [.vector .add [⟨0, 3⟩, ⟨1, 3⟩, ⟨2, 3⟩]]

/-- Room for two vectors. -/
def Capacities.twoVectors : Capacities := ⟨1, 1, 1, 1, 8⟩

set_option maxRecDepth 100000 in
theorem lastAdded_placed : (do
    let d ← Shaped.build .lastAdded .twoBlocks
    let order := flatten d.ops
    let s ← order.zipIdx.foldlM (fun (s : Placing) (e, t) => s.entry 2 (lastTouch 4 order)
      (Std.TreeSet.ofList d.storeMask) t e) {}
    return d.form = .alu ∧ d.b = 2 ∧ d.vectors = 4 ∧ d.counts.nX = 2 ∧ order.length = 3 ∧
      (∀ r ∈ d.ops, ∀ s ∈ r.sites, s.Below 4) ∧
      order.Pairwise (fun a b => a.site.dst ≤ b.site.dst) ∧ s.ops ≠ [] ∧
      ((s.flush (lastTouch 4 order) (Std.TreeSet.ofList d.storeMask) 3).done.map
        fun t => (t.loadX, t.sramResident, t.store)) =
        [([2], [2, 3], [2]), ([1], [1, 3], [1]), ([0, 3], [0, 3], [0])] : Outcome Bool) =
      .ok true := by
  decide +kernel

/-- Three steps of two vectors each; the last vector stays throughout. -/
theorem lastAdded_evicts : ∃ d s, Program.lastAdded.WordSized ∧
    Shaped.build .lastAdded .twoBlocks = .ok d ∧ d.form = .alu ∧
    plan d .twoVectors {} = .ok s ∧ s.path = .aluOverflow ∧ s.steps.length = 3 ∧
    s.stored = [0, 1, 2] ∧ s.stored.Perm d.storeMask ∧
    ∃ ρ' rows, Rows.run d.initial (traceOf d Config.twoBlocks.acc s.steps) ⟨fun _ => [], fun _ => [],
      [], []⟩ = .ok ρ' ∧ ρ'.stored = rows ∧ s.stored.mapM d.final.row = .ok (rows.map List.toArray) := by
  obtain ⟨d, hd, h⟩ := Outcome.bind_eq_ok.1 lastAdded_placed
  obtain ⟨t, ht, h⟩ := Outcome.bind_eq_ok.1 h
  obtain ⟨hform, hb, hvectors, hnX, hlen, hsites, hsorted, hops, hsteps⟩ :=
    of_decide_eq_true (Outcome.pure_eq_ok.1 h)
  have hword : Program.lastAdded.WordSized := by decide +kernel
  -- the entries come by destination already
  have hover : ∀ q : Planner, q.data = d → q.caps = .twoVectors → q.aluOverflow =
      .ok (t.flush (lastTouch 4 (flatten d.ops)) (Std.TreeSet.ofList d.storeMask) 3).done.reverse := by
    intro q hq hcaps
    have hfour : q.data.vectors.toNat = 4 := by rw [hq, hvectors]; rfl
    refine (Planner.aluOverflow_eq_ok hfour).2 ?_
    rw [hq, hcaps, hb]
    refine ⟨by decide, _, orderEntries_sorted hsites hsorted, t, ht, ?_⟩
    rw [Placing.close, if_neg (by simpa using hops), hlen]
  have hplan : ∃ s, plan d .twoVectors {} = .ok s ∧ s.path = .aluOverflow ∧ s.steps = recordStores
      (t.flush (lastTouch 4 (flatten d.ops)) (Std.TreeSet.ofList d.storeMask) 3).done.reverse := by
    refine ⟨_, Outcome.bind_ok rfl (Outcome.bind_ok (a := (.aluOverflow, true, _)) ?_ rfl), rfl, rfl⟩
    rw [Planner.steps_operations hform, if_neg (by simp [Planner.fits, hnX, Capacities.twoVectors])]
    exact ⟨rfl, rfl, hover _ rfl rfl⟩
  obtain ⟨s, hs, hpath, hrec⟩ := hplan
  obtain ⟨-, ⟨ρ', rows, hrun, hst, hrows⟩, hperm, -⟩ := plan_evicts hword hd hform hs hpath
    ⟨fun _ => [], fun _ => [], [], []⟩
  have hdone := congrArg List.length hsteps
  have hstore := congrArg (fun l => (l.map (·.2.2)).reverse.flatten) hsteps
  refine ⟨d, s, hword, hd, hform, hs, hpath, ?_, ?_, hperm, ρ', rows, hrun, hst, hrows⟩
  · rw [hrec, recordStores_eq, length_withStores, List.length_reverse]
    simpa using hdone
  · rw [stored_recordStores hrec, List.flatMap_def, List.map_reverse]
    simpa [Function.comp_def] using hstore

end Tessera
