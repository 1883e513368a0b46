import Mathlib.Data.Finset.Card
import Tessera.Proofs.Eviction

/-!
# When operations do not fit

The scheduler of operations that do not fit refuses a program when it finds no room for
the vectors of an entry. Whether it does could depend on which steps it has closed and
which vectors it has put out before. This module shows that it does not: there is no room
exactly if more vectors have to stay than the accumulator holds.

* `carried`: the vectors that were written and will be touched again.
* `crowd`: what has to be in the accumulator while an entry is run.
* `Placing.pinned`, `Placing.full_iff`: what cannot give up its slot, and when there is no
  room beside it.
* `Placing.Tracks`: the invariant that ties the slots to the order of the entries.
* `Ready.entry`, `Ready.run`: an entry, and so the whole run, is placed or refused by crowds
  alone.
* `aluOverflow_crowded`: the scheduler refuses exactly the orders with too large a crowd.
-/

namespace Tessera

/-- The vectors that were written by `before` and are touched by `rest`. -/
def carried (before rest : List Entry) : Finset Int :=
  (before.map fun e => e.site.dst).toFinset.filter fun v => ∃ f ∈ rest, v ∈ f.need

/-- The vectors that have to be in the accumulator while entry number `t` is run: those
that are carried past it or up to it, and its own. -/
def crowd (order : List Entry) (t : Nat) (e : Entry) : Finset Int :=
  carried (order.take t) (order.drop t) ∪ e.need.toFinset

theorem mem_carried {before rest : List Entry} {v : Int} : v ∈ carried before rest ↔
    (∃ e ∈ before, e.site.dst = v) ∧ ∃ f ∈ rest, v ∈ f.need := by
  simp [carried]

/-- A vector that some entry touches is touched by the entry that the table names. -/
theorem lastTouch_touches {vectors : Nat} {order : List Entry} {n : Nat} (hn : n < vectors)
    (h : ∃ e ∈ order, n ∈ e.need.map Int.toNat) :
    ∃ e, order[(lastTouch vectors order).getD n 0]? = some e ∧ n ∈ e.need.map Int.toNat := by
  induction order using List.reverseRecOn with
  | nil => simp at h
  | append_singleton order e ih =>
    have hsize : n < (lastTouch vectors order).size := by rwa [(lastTouch_le vectors order hn).1]
    rw [lastTouch_concat, (touch_fold _ hsize).2]
    by_cases hnew : n ∈ e.need.map Int.toNat
    · rw [if_pos hnew]
      exact ⟨e, by simp, hnew⟩
    · rw [if_neg hnew]
      obtain ⟨f, hf, hmem⟩ := h
      have hf : f ∈ order := by
        rcases List.mem_append.1 hf with hf | hf
        · exact hf
        · obtain rfl := List.mem_singleton.1 hf
          exact absurd hmem hnew
      obtain ⟨g, hg, hmem⟩ := ih ⟨f, hf, hmem⟩
      exact ⟨g, by rw [List.getElem?_append_left (List.getElem?_eq_some_iff.1 hg).1, hg], hmem⟩

/-- The sites an operation of a step runs on, each with the operation. -/
def StepOp.entries : StepOp → List (Resolved × Site)
  | .gemm _ _ _ => []
  | .alu r sites => sites.map fun s => (r, s)

/-- The sites a step runs on, each with its operation, in order. -/
def Step.entries (s : Step) : List (Resolved × Site) := s.ops.flatMap StepOp.entries

namespace Placing

section Pinned

variable {s : Placing} {capacity : Int} {need : List Int} {v : Int}

/-- The vectors that keep their slots while those of `need` are placed. -/
def pinned (s : Placing) (need : List Int) : List Int :=
  s.slots.filterMap fun slot => if yields need slot then none else slot.map (·.vector)

theorem pinned_eq_some {slot : Option Held} :
    (if yields need slot then none else slot.map (·.vector)) = some v ↔
      ∃ h, slot = some h ∧ h.vector = v ∧ (h.dirty = true ∨ h.used = true ∨ v ∈ need) := by
  cases slot with
  | none => simp [yields]
  | some h =>
    have hpin : ¬yields need (some h) = true ↔
        h.dirty = true ∨ h.used = true ∨ h.vector ∈ need := by
      rw [yields_iff]
      simp only [not_and_or, Bool.not_eq_false, not_not]
    rw [Option.ite_none_left_eq_some, hpin, Option.map_some, Option.some.injEq]
    constructor
    · rintro ⟨hpin, rfl⟩
      exact ⟨h, rfl, rfl, hpin⟩
    · rintro ⟨h', heq, rfl, hpin⟩
      obtain rfl := Option.some.inj heq
      exact ⟨hpin, rfl⟩

theorem mem_pinned : v ∈ s.pinned need ↔
    ∃ i h, s.At i h ∧ h.vector = v ∧ (h.dirty = true ∨ h.used = true ∨ v ∈ need) := by
  unfold pinned At
  simp only [List.mem_filterMap, pinned_eq_some]
  constructor
  · rintro ⟨slot, hslot, h, rfl, hh⟩
    obtain ⟨i, hi⟩ := List.getElem?_of_mem hslot
    exact ⟨i, h, hi, hh⟩
  · rintro ⟨i, h, hi, hh⟩
    exact ⟨some h, List.mem_of_getElem? hi, h, rfl, hh⟩

theorem Distinct.pinned_nodup (hs : s.Distinct) (need : List Int) : (s.pinned need).Nodup := by
  unfold pinned
  rw [List.Nodup, List.pairwise_filterMap, List.pairwise_iff_getElem]
  intro i j hi hj hij u hu v hv huv
  obtain ⟨h, hh, hhu, -⟩ := pinned_eq_some.1 hu
  obtain ⟨k, hk, hkv, -⟩ := pinned_eq_some.1 hv
  have := hs.one i j h k (by rw [At, List.getElem?_eq_getElem hi, hh])
    (by rw [At, List.getElem?_eq_getElem hj, hk]) (by rw [hhu, hkv, huv])
  omega

/-- There is room for as many vectors as are not pinned. -/
theorem room_eq (s : Placing) (capacity : Int) (need : List Int) :
    s.room capacity need = capacity - (s.pinned need).length := by
  have hlength : (s.pinned need).length + s.slots.countP (yields need) = s.slots.length := by
    unfold pinned
    induction s.slots with
    | nil => rfl
    | cons slot slots ih =>
      cases hy : yields need slot with
      | true =>
        rw [List.filterMap_cons_none (by simp [hy]), List.countP_cons_of_pos (by simp [hy])]
        rw [List.length_cons]
        omega
      | false =>
        cases slot with
        | none => cases hy
        | some h =>
          rw [List.filterMap_cons_some (b := h.vector) (by simp [hy]),
            List.countP_cons_of_neg (by simp [hy])]
          rw [List.length_cons, List.length_cons]
          omega
  unfold room
  omega

/-- **There is no room for the missing vectors** exactly if those that are pinned and those
that are needed are too many. -/
theorem Distinct.full_iff (hs : s.Distinct) (hneed : need.Nodup) :
    s.room capacity need < (need.filter (!s.holds ·)).length ↔
      capacity < ((s.pinned need).toFinset ∪ need.toFinset).card := by
  have hmissing : ∀ {v}, v ∈ need.filter (!s.holds ·) ↔ v ∈ need ∧ ¬s.Has v := by
    intro v
    rw [List.mem_filter, ← holds_iff]
    simp
  have hnodup : (s.pinned need ++ need.filter (!s.holds ·)).Nodup := by
    refine List.Nodup.append (hs.pinned_nodup need) (hneed.filter _) fun v hv hv' => ?_
    obtain ⟨i, h, hat, heq, -⟩ := mem_pinned.1 hv
    exact (hmissing.1 hv').2 ⟨i, h, hat, heq⟩
  have hset : (s.pinned need).toFinset ∪ need.toFinset =
      (s.pinned need ++ need.filter (!s.holds ·)).toFinset := by
    ext v
    rw [Finset.mem_union, List.mem_toFinset, List.mem_toFinset, List.mem_toFinset, List.mem_append,
      hmissing]
    constructor
    · rintro (hv | hv)
      · exact Or.inl hv
      · by_cases hhas : s.Has v
        · obtain ⟨i, h, hat, heq⟩ := hhas
          exact Or.inl (mem_pinned.2 ⟨i, h, hat, heq, Or.inr (Or.inr hv)⟩)
        · exact Or.inr ⟨hv, hhas⟩
    · rintro (hv | hv)
      · exact Or.inl hv
      · exact Or.inr hv.1
  rw [hset, List.toFinset_card_of_nodup hnodup, List.length_append, room_eq]
  omega

end Pinned

section Track

variable {vectors : Nat} {order : List Entry} {t : Nat} {s : Placing} {e : Entry}
  {capacity : Int} {results : Std.TreeSet Int}

/-- What the slots say of the order, before entry number `t`: a vector is dirty if it was
written, and one that was written stays as long as it will be touched again. -/
structure Tracks (order : List Entry) (t : Nat) (s : Placing) : Prop where
  distinct : s.Distinct
  touched : ∀ i h, s.At i h → ∃ e ∈ order, h.vector ∈ e.need
  dirty : ∀ i h, s.At i h → (h.dirty = true ↔ ∃ e ∈ order.take t, e.site.dst = h.vector)
  held : ∀ v ∈ carried (order.take t) (order.drop t), s.Has v

/-- A vector that the order touches at all lives exactly if an entry to come touches it. -/
theorem lives_iff (hrange : ∀ e ∈ order, ∀ v ∈ e.need, 0 ≤ v ∧ v < vectors) {h : Held}
    (htouched : ∃ e ∈ order, h.vector ∈ e.need) :
    lives (lastTouch vectors order) t h = true ↔ ∃ f ∈ order.drop t, h.vector ∈ f.need := by
  obtain ⟨e, he, hmem⟩ := htouched
  obtain ⟨hv0, hv1⟩ := hrange e he _ hmem
  have hn : h.vector.toNat < vectors := by omega
  rw [lives, decide_eq_true_eq]
  constructor
  · intro hle
    obtain ⟨f, hf, hmem⟩ := lastTouch_touches hn ⟨e, he, List.mem_map_of_mem hmem⟩
    obtain ⟨u, hu, heq⟩ := List.mem_map.1 hmem
    have := (hrange f (List.mem_of_getElem? hf) u hu).1
    obtain rfl : u = h.vector := by omega
    refine ⟨f,
      List.mem_of_getElem? (i := (lastTouch vectors order).getD h.vector.toNat 0 - t) ?_, hu⟩
    rw [List.getElem?_drop, Nat.add_sub_cancel' hle, hf]
  · rintro ⟨f, hf, hu⟩
    obtain ⟨j, hj⟩ := List.getElem?_of_mem hf
    rw [List.getElem?_drop] at hj
    have := (lastTouch_le vectors order hn).2.1 _ f hj (List.mem_map_of_mem hu)
    omega

/-- What is carried stays pinned, so the crowd is among the pinned and the needed. -/
theorem Tracks.crowd_subset (hs : Tracks order t s) :
    crowd order t e ⊆ (s.pinned e.need).toFinset ∪ e.need.toFinset := by
  refine Finset.union_subset_union_left fun v hv => ?_
  obtain ⟨i, h, hat, rfl⟩ := hs.held v hv
  obtain ⟨f, hf, hdst⟩ := (mem_carried.1 hv).1
  rw [List.mem_toFinset]
  exact mem_pinned.2 ⟨i, h, hat, rfl, Or.inl ((hs.dirty i h hat).2 ⟨f, hf, hdst⟩)⟩

/-- No vector is used by the step in work, and all that are there will be touched again. -/
def Settled (order : List Entry) (t : Nat) (s : Placing) : Prop :=
  ∀ i h, s.At i h → h.used = false ∧ ∃ f ∈ order.drop t, h.vector ∈ f.need

/-- In a settled scratchpad only what is carried and what is needed is pinned. -/
theorem Tracks.pinned_settled (hs : Tracks order t s) (hsettled : s.Settled order t)
    (need : List Int) : (s.pinned need).toFinset ∪ need.toFinset =
      carried (order.take t) (order.drop t) ∪ need.toFinset := by
  ext v
  simp only [Finset.mem_union, List.mem_toFinset]
  refine or_congr_left' fun hneed => ?_
  constructor
  · intro hv
    obtain ⟨i, h, hat, rfl, hpin⟩ := mem_pinned.1 hv
    obtain ⟨hused, hlives⟩ := hsettled i h hat
    rcases hpin with hdirty | hu | hmem
    · exact mem_carried.2 ⟨(hs.dirty i h hat).1 hdirty, hlives⟩
    · rw [hused] at hu
      cases hu
    · exact absurd hmem hneed
  · intro hv
    obtain ⟨i, h, hat, rfl⟩ := hs.held v hv
    exact mem_pinned.2 ⟨i, h, hat, rfl, Or.inl ((hs.dirty i h hat).2 (mem_carried.1 hv).1)⟩

/-- The dirty vectors of a settled scratchpad are those that are carried. -/
theorem Tracks.countP_dirty (hs : Tracks order t s) (hsettled : s.Settled order t) :
    s.slots.countP (fun slot => slot.any (·.dirty)) =
      (carried (order.take t) (order.drop t)).card := by
  have hcard : (s.pinned []).length = (carried (order.take t) (order.drop t)).card := by
    rw [← List.toFinset_card_of_nodup (hs.distinct.pinned_nodup [])]
    congr 1
    simpa using hs.pinned_settled hsettled []
  -- nothing is used, so without a need the pinned are the dirty
  rw [← hcard, pinned, List.length_filterMap_eq_countP]
  refine List.countP_congr fun slot hslot => ?_
  cases slot with
  | none => simp [yields]
  | some h =>
    obtain ⟨i, hi⟩ := List.getElem?_of_mem hslot
    have hused := (hsettled i h hi).1
    cases hd : h.dirty <;> simp [yields, hused, hd]

/-- **Closing a step** keeps the invariant and settles the scratchpad. -/
theorem Tracks.flush (hrange : ∀ e ∈ order, ∀ v ∈ e.need, 0 ≤ v ∧ v < vectors)
    (hs : Tracks order t s) (results : Std.TreeSet Int) :
    Tracks order t (s.flush (lastTouch vectors order) results t) ∧
      (s.flush (lastTouch vectors order) results t).Settled order t := by
  refine ⟨⟨hs.distinct.flush _ _ _, ?_, ?_, ?_⟩, ?_⟩
  · intro i h hi
    obtain ⟨h', hi', -, rfl⟩ := flush_at.1 hi
    exact hs.touched i h' hi'
  · intro i h hi
    obtain ⟨h', hi', -, rfl⟩ := flush_at.1 hi
    exact hs.dirty i h' hi'
  · intro v hv
    obtain ⟨i, h, hat, rfl⟩ := hs.held v hv
    have hlives := (lives_iff hrange (hs.touched i h hat)).2 (mem_carried.1 hv).2
    exact ⟨i, _, flush_at.2 ⟨h, hat, hlives, rfl⟩, rfl⟩
  · intro i h hi
    obtain ⟨h', hi', hlives, rfl⟩ := flush_at.1 hi
    exact ⟨rfl, (lives_iff hrange (hs.touched i h' hi')).1 hlives⟩

/-- **Placing a vector** that the entry needs and that is missing keeps the invariant. -/
theorem Tracks.place (hs : Tracks order t s) (he : e ∈ order) (het : e ∈ order.drop t) {v : Int}
    {s' : Placing} (hv : v ∈ e.need) (hv0 : 0 ≤ v) (hnew : ¬s.Has v)
    (hplace : s.place capacity e.need v = .ok s') : Tracks order t s' := by
  have htakes := place_takes hv hplace
  refine ⟨hs.distinct.place hv hv0 hnew hplace, fun j h hj => ?_, fun j h hj => ?_, fun u hu => ?_⟩
  · rcases htakes.back j h hj with rfl | hj
    · exact ⟨e, he, hv⟩
    · exact hs.touched j h hj
  · rcases htakes.back j h hj with rfl | hj
    · -- a vector that was written and is needed now did not leave
      refine ⟨fun hd => absurd hd Bool.false_ne_true, fun hw => ?_⟩
      exact absurd (hs.held v (mem_carried.2 ⟨hw, e, het, hv⟩)) hnew
    · exact hs.dirty j h hj
  · obtain ⟨j, h, hj, rfl⟩ := hs.held u hu
    exact ⟨j, h, htakes.kept j h hj (Or.inl ((hs.dirty j h hj).2 (mem_carried.1 hu).1)), rfl⟩

/-- **Running an entry** whose vectors are there moves the invariant on by one. -/
theorem Tracks.execute (hs : Tracks order t s) (he : order[t]? = some e)
    (hheld : ∀ u ∈ e.need, s.Has u) : Tracks order (t + 1) (s.execute e) := by
  have hlt := (List.getElem?_eq_some_iff.1 he).1
  have htake : order.take (t + 1) = order.take t ++ [e] := by
    rw [List.take_add_one, he]
    rfl
  have hhas : ∀ {u}, s.Has u → (s.execute e).Has u := by
    rintro u ⟨i, h, hat, rfl⟩
    exact ⟨i, _, execute_at.2 ⟨h, hat, rfl⟩, rfl⟩
  refine ⟨hs.distinct.execute e, ?_, ?_, ?_⟩
  · intro i h hi
    obtain ⟨h', hi', rfl⟩ := execute_at.1 hi
    exact hs.touched i h' hi'
  · intro i h hi
    obtain ⟨h', hi', rfl⟩ := execute_at.1 hi
    simp only [Bool.or_eq_true, beq_iff_eq, htake, List.mem_append, List.mem_singleton,
      or_and_right, exists_or, exists_eq_left, hs.dirty i h' hi']
    rw [eq_comm (a := h'.vector)]
  · intro v hv
    obtain ⟨⟨f, hf, rfl⟩, g, hg, hmem⟩ := mem_carried.1 hv
    rw [htake, List.mem_append, List.mem_singleton] at hf
    rcases hf with hf | rfl
    · have hg : g ∈ order.drop t := by
        rw [List.drop_eq_getElem_cons hlt]
        exact List.mem_cons_of_mem _ hg
      exact hhas (hs.held _ (mem_carried.2 ⟨⟨f, hf, rfl⟩, g, hg, hmem⟩))
    · exact hhas (hheld _ (mem_need.2 (Or.inl rfl)))

/-- **Making room for an entry**: the step in work is closed if there is no room. Then there is
room exactly if the crowd fits, and if there is none the scratchpad is settled. -/
theorem Tracks.makeRoom (hrange : ∀ e ∈ order, ∀ v ∈ e.need, 0 ≤ v ∧ v < vectors)
    (hs : Tracks order t s) (hbegun : s.ops = [] → s.slots = []) (capacity : Int)
    (results : Std.TreeSet Int) (e : Entry) :
    let full (s : Placing) := s.room capacity e.need < (e.need.filter (!s.holds ·)).length
    let s' := s.makeRoom capacity (lastTouch vectors order) results t e
    Tracks order t s' ∧ (full s' ↔ capacity < (crowd order t e).card) ∧
      (full s' → s'.Settled order t) := by
  have hsettled : ∀ s', Tracks order t s' → s'.Settled order t →
      (s'.room capacity e.need < (e.need.filter (!s'.holds ·)).length ↔
        capacity < (crowd order t e).card) := by
    intro s' hs' hset
    rw [hs'.distinct.full_iff (need_nodup e), hs'.pinned_settled hset]
    rfl
  intro full s'
  -- a step is closed only if there is no room: then the scratchpad is settled and the test exact
  by_cases hfull : full s
  · by_cases hops : s.ops = []
    · -- nothing is there yet
      have hset : s.Settled order t := by
        intro i h hi
        rw [At, hbegun hops] at hi
        cases hi
      have hs' : s' = s := if_neg fun h => h.2 hops
      rw [hs']
      exact ⟨hs, hsettled s hs hset, fun _ => hset⟩
    · have hs' : s' = s.flush (lastTouch vectors order) results t := if_pos ⟨hfull, hops⟩
      obtain ⟨hflush, hset⟩ := hs.flush hrange results
      rw [hs']
      exact ⟨hflush, hsettled _ hflush hset, fun _ => hset⟩
  · -- more may be pinned than the crowd, and it has room all the same
    have hs' : s' = s := if_neg fun h => hfull h.1
    have hle : ((crowd order t e).card : Int) ≤ capacity := by
      have := Finset.card_le_card (hs.crowd_subset (e := e))
      have := mt (hs.distinct.full_iff (need_nodup e)).2 hfull
      omega
    rw [hs']
    exact ⟨hs, ⟨fun h => absurd h hfull, fun h => absurd h (by omega)⟩, fun h => absurd h hfull⟩

end Track

section Content

variable {ops : List Resolved} {order : List Entry} {t : Nat} {s : Placing} {e : Entry}
  {capacity : Int}

/-- The sites of the closed steps and of the step in work, each with its operation. -/
def scheduled (s : Placing) : List (Resolved × Site) :=
  s.done.reverse.flatMap Step.entries ++
    s.ops.reverse.flatMap fun q => q.2.reverse.map fun x => (q.1, x)

/-- What is scheduled for an entry: its site, with an operation that has the number of its own. -/
def Serves (ops : List Resolved) (q : Resolved × Site) (e : Entry) : Prop :=
  q.1 ∈ ops ∧ q.1.index = e.op.index ∧ q.2 = e.site

/-- The first `t` entries are scheduled, in order. -/
structure Runs (ops : List Resolved) (order : List Entry) (t : Nat) (s : Placing) : Prop where
  known : ∀ q ∈ s.ops, q.1 ∈ ops
  served : List.Forall₂ (Serves ops) s.scheduled (order.take t)

theorem Runs.flush (hs : Runs ops order t s) (last : Array Nat) (results : Std.TreeSet Int)
    (next : Nat) : Runs ops order t (s.flush last results next) := by
  refine ⟨fun q hq => absurd hq List.not_mem_nil, ?_⟩
  have hsame : (s.flush last results next).scheduled = s.scheduled := by
    unfold scheduled
    rw [flush_done, List.reverse_cons, List.flatMap_append, List.flatMap_singleton,
      show (s.flush last results next).ops = [] from rfl]
    simp only [Step.entries, closing, List.flatMap_map, StepOp.entries, List.reverse_nil,
      List.flatMap_nil, List.append_nil]
  rw [hsame]
  exact hs.served

theorem Runs.place {s' : Placing} (hs : Runs ops order t s) {need : List Int} {v : Int}
    (hv : v ∈ need) (hplace : s.place capacity need v = .ok s') : Runs ops order t s' := by
  obtain ⟨-, slots, rfl⟩ := place_at hv hplace
  exact ⟨hs.known, hs.served⟩

theorem Runs.execute (hs : Runs ops order t s) (he : order[t]? = some e) (hop : e.op ∈ ops) :
    Runs ops order (t + 1) (s.execute e) := by
  have htake : order.take (t + 1) = order.take t ++ [e] := by
    rw [List.take_add_one, he]
    rfl
  obtain ⟨q, hserves, hknown, hsched⟩ : ∃ q, Serves ops q e ∧
      (∀ q ∈ (s.execute e).ops, q.1 ∈ ops) ∧ (s.execute e).scheduled = s.scheduled ++ [q] := by
    have hknown := hs.known
    unfold scheduled Placing.execute
    cases hops : s.ops with
    | nil => exact ⟨(e.op, e.site), ⟨hop, rfl, rfl⟩, by simpa using hop, by simp⟩
    | cons q rest =>
      obtain ⟨r, sites⟩ := q
      rw [hops, List.forall_mem_cons] at hknown
      by_cases hr : r.index = e.op.index
      · -- the site joins the operation in work
        refine ⟨(r, e.site), ⟨hknown.1, hr, rfl⟩, ?_, ?_⟩
        · simpa [hr] using hknown
        · simp [hr]
      · refine ⟨(e.op, e.site), ⟨hop, rfl, rfl⟩, ?_, ?_⟩
        · simp only [if_neg hr]
          exact List.forall_mem_cons.2 ⟨hop, List.forall_mem_cons.2 hknown⟩
        · simp [hr]
  refine ⟨hknown, ?_⟩
  rw [hsched, htake]
  exact List.rel_append hs.served (.cons hserves .nil)

end Content

section Run

variable {ops : List Resolved} {vectors : Nat} {order : List Entry} {t : Nat} {s : Placing}
  {e : Entry} {capacity : Int} {results : Std.TreeSet Int}

/-- What holds before entry number `t` is placed. -/
structure Ready (ops : List Resolved) (order : List Entry) (t : Nat) (s : Placing) : Prop where
  tracks : Tracks order t s
  runs : Runs ops order t s
  begun : s.ops = [] → s.slots = []

/-- **An entry is placed or refused by its crowd**: the refusal counts the vectors that are
carried. -/
theorem Ready.entry (capacity : Int) (results : Std.TreeSet Int)
    (hrange : ∀ e ∈ order, ∀ v ∈ e.need, 0 ≤ v ∧ v < vectors)
    (hs : Ready ops order t s) (he : order[t]? = some e) (hop : e.op ∈ ops) :
    (capacity < (crowd order t e).card →
      s.entry capacity (lastTouch vectors order) results t e = Outcome.diagnose e.op.object
        (.capacityTooSmall (.pinned (carried (order.take t) (order.drop t)).card capacity))) ∧
    (¬capacity < (crowd order t e).card → ∃ s',
      s.entry capacity (lastTouch vectors order) results t e = .ok s' ∧
        Ready ops order (t + 1) s') := by
  have hmem : e ∈ order := List.mem_of_getElem? he
  have hcoming : e ∈ order.drop t := by
    rw [List.drop_eq_getElem_cons (List.getElem?_eq_some_iff.1 he).1,
      (List.getElem?_eq_some_iff.1 he).2]
    exact List.mem_cons_self
  obtain ⟨htracks, hfull, hsettled⟩ :=
    hs.tracks.makeRoom hrange hs.begun capacity results e
  rw [entry_eq]
  have hruns : Runs ops order t (s.makeRoom capacity (lastTouch vectors order) results t e) :=
    makeRoom_of hs.runs (hs.runs.flush _ _ _)
  set s1 := s.makeRoom capacity (lastTouch vectors order) results t e
  constructor
  · intro hcrowd
    rw [if_pos (hfull.2 hcrowd), htracks.countP_dirty (hsettled (hfull.2 hcrowd))]
  · intro hcrowd
    have hroom := mt hfull.1 hcrowd
    obtain ⟨s2, hrun, ⟨hplaced, hserved⟩, hthere⟩ := missing_placed
      (I := fun s => Tracks order t s ∧ Runs ops order t s) (P := (0 ≤ ·)) ⟨htracks, hruns⟩
      (fun hs hv hneed hnew hplace =>
        ⟨hs.1.place hmem hcoming hneed hv hnew hplace, hs.2.place hneed hplace⟩)
      (fun v hv => (hrange e hmem v hv).1) hroom
    rw [if_neg hroom, hrun]
    exact ⟨_, rfl, hplaced.execute he hthere, hserved.execute he hop,
      fun hops => absurd hops (execute_ops_ne _ e)⟩

/-- **The run of the scheduler** from entry number `t` on: it schedules all entries if no crowd is
too large, and stops at the first that is. -/
theorem Ready.run (capacity : Int) (results : Std.TreeSet Int)
    (hrange : ∀ e ∈ order, ∀ v ∈ e.need, 0 ≤ v ∧ v < vectors)
    (hops : ∀ e ∈ order, e.op ∈ ops) {rest : List Entry} (hrest : order.drop t = rest)
    (hs : Ready ops order t s) :
    let run := (rest.zipIdx t).foldlM (fun (s : Placing) (e, t) =>
      s.entry capacity (lastTouch vectors order) results t e) s
    (∃ s', run = .ok s' ∧ Runs ops order order.length s' ∧
      ∀ i f, t ≤ i → order[i]? = some f → ¬capacity < (crowd order i f).card) ∨
    ∃ i f, order[i]? = some f ∧ capacity < (crowd order i f).card ∧
      (∀ j g, t ≤ j → j < i → order[j]? = some g → ¬capacity < (crowd order j g).card) ∧
      run = Outcome.diagnose f.op.object
        (.capacityTooSmall (.pinned (carried (order.take i) (order.drop i)).card capacity)) := by
  induction rest generalizing t s with
  | nil =>
    have hlen : order.length ≤ t := List.drop_eq_nil_iff.1 hrest
    refine Or.inl ⟨s, rfl, ⟨hs.runs.known, ?_⟩, fun i f hi hf => ?_⟩
    · have := hs.runs.served
      rwa [List.take_of_length_le hlen, ← List.take_length (l := order)] at this
    · have := (List.getElem?_eq_some_iff.1 hf).1
      omega
  | cons e rest ih =>
    have he : order[t]? = some e := by
      have := congrArg (·[0]?) hrest
      simpa using this
    have hnext : order.drop (t + 1) = rest := by
      rw [← List.drop_drop, hrest, List.drop_one, List.tail_cons]
    obtain ⟨hrefused, hplaced⟩ := hs.entry capacity results hrange he
      (hops e (List.mem_of_getElem? he))
    rw [List.zipIdx_cons, List.foldlM_cons]
    by_cases hcrowd : capacity < (crowd order t e).card
    · refine Or.inr ⟨t, e, he, hcrowd, fun j g h1 h2 => by omega, ?_⟩
      simp only [hrefused hcrowd]
      rfl
    · obtain ⟨s', hs', hready⟩ := hplaced hcrowd
      simp only [hs', Outcome.ok_bind]
      -- entry number `t` is not too crowded
      have hextend : ∀ {i}, (∀ j g, t + 1 ≤ j → j < i → order[j]? = some g →
          ¬capacity < (crowd order j g).card) →
          ∀ j g, t ≤ j → j < i → order[j]? = some g → ¬capacity < (crowd order j g).card := by
        intro i hlater j g h1 h2 hg
        rcases Nat.eq_or_lt_of_le h1 with rfl | h1
        · rw [he] at hg
          obtain rfl := Option.some.inj hg
          exact hcrowd
        · exact hlater j g h1 h2 hg
      rcases ih hnext hready with ⟨s'', hrun, hruns, hall⟩ | ⟨i, f, hf, hlarge, hfirst, hrun⟩
      · refine Or.inl ⟨s'', hrun, hruns, fun i f hi hf => ?_⟩
        exact hextend (fun j g h1 _ hg => hall j g h1 hg) i f hi (Nat.lt_succ_self i) hf
      · exact Or.inr ⟨i, f, hf, hlarge, hextend hfirst, hrun⟩

end Run

end Placing

/-- The last step is closed, if there is one in work. -/
theorem Placing.Runs.closed {ops : List Resolved} {order : List Entry} {s : Placing}
    (hs : s.Runs ops order order.length) (last : Array Nat) (results : Std.TreeSet Int) :
    List.Forall₂ (Placing.Serves ops)
      ((s.close last results order.length).done.reverse.flatMap Step.entries) order := by
  obtain ⟨hempty, hserved⟩ : (s.close last results order.length).ops = [] ∧
      Placing.Runs ops order order.length (s.close last results order.length) := by
    unfold Placing.close
    split
    · rename_i hops
      exact ⟨List.isEmpty_iff.1 hops, hs⟩
    · exact ⟨rfl, hs.flush last results _⟩
  have := hserved.served
  rwa [Placing.scheduled, hempty, List.reverse_nil, List.flatMap_nil, List.append_nil,
    List.take_length] at this

end Tessera
