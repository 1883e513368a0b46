import Tessera.Proofs.Hazard

/-!
# Vectors in the slots of the scratchpad

What the scheduler of operations that do not fit does to its slots, and when a
vector is touched for the last time.

* `lastTouch_le`: the table of last touches.
* `Placing.At`: what a slot holds.
* `place_at`, `flush_at`, `execute_at`: what the slots hold after a vector is
  placed, a step is closed and an entry is run.
* `Placing.Distinct`: no vector stands in two slots; all three keep it.
* `places_invariant`: what placing one vector keeps, placing all missing vectors keeps.
* `entry_invariant`: what these three operations keep, an entry keeps.
-/

namespace Tessera

/-- Setting a place for some vectors in a table. -/
theorem touch_fold {need : List Int} {i n : Nat} (table : Array Nat) (hn : n < table.size) :
    (need.foldl (fun last v => last.setIfInBounds v.toNat i) table).size = table.size ∧
      (need.foldl (fun last v => last.setIfInBounds v.toNat i) table).getD n 0 =
        if n ∈ need.map Int.toNat then i else table.getD n 0 := by
  induction need generalizing table with
  | nil => simp
  | cons v need ih =>
    obtain ⟨h1, h2⟩ := ih (table.setIfInBounds v.toNat i)
      (by rwa [Array.size_setIfInBounds])
    rw [Array.size_setIfInBounds] at h1
    refine ⟨h1, ?_⟩
    rw [List.foldl_cons, h2, List.map_cons]
    by_cases hmem : n ∈ need.map Int.toNat
    · rw [if_pos hmem, if_pos (List.mem_cons_of_mem _ hmem)]
    · rw [if_neg hmem]
      by_cases hv : v.toNat = n
      · rw [getD_setIfInBounds (hv ▸ hn), if_pos hv, if_pos (hv ▸ List.mem_cons_self)]
      · rw [if_neg (by simp [hmem, Ne.symm hv]), Array.getD_eq_getD_getElem?,
          Array.getElem?_setIfInBounds, if_neg hv, Array.getD_eq_getD_getElem?]

/-- An entry behind the others is the last to touch what it needs. -/
theorem lastTouch_concat (vectors : Nat) (order : List Entry) (e : Entry) :
    lastTouch vectors (order ++ [e]) =
      e.need.foldl (fun last v => last.setIfInBounds v.toNat order.length)
        (lastTouch vectors order) := by
  simp [lastTouch, List.zipIdx_append]

/-- **The table of last touches**: no entry touches a vector later than it says, and
it names entries. -/
theorem lastTouch_le (vectors : Nat) (order : List Entry) {n : Nat} (hn : n < vectors) :
    (lastTouch vectors order).size = vectors ∧
      (∀ i e, order[i]? = some e → n ∈ e.need.map Int.toNat →
        i ≤ (lastTouch vectors order).getD n 0) ∧
      ((lastTouch vectors order).getD n 0 = 0 ∨
        (lastTouch vectors order).getD n 0 < order.length) := by
  induction order using List.reverseRecOn with
  | nil => simp [lastTouch, hn]
  | append_singleton order e ih =>
    obtain ⟨hsize, htouch, hlt⟩ := ih
    obtain ⟨h1, h2⟩ := touch_fold _ (i := order.length) (hsize ▸ hn)
    rw [lastTouch_concat, h1, h2, List.length_append, List.length_singleton]
    refine ⟨hsize, fun i f hf hmem => ?_, ?_⟩
    · have hi := (List.getElem?_eq_some_iff.1 hf).1
      rw [List.length_append, List.length_singleton] at hi
      split
      · omega
      · rename_i hnot
        rcases Nat.lt_or_ge i order.length with hlt | hge
        · exact htouch i f (by rwa [List.getElem?_append_left hlt] at hf) hmem
        · rw [List.getElem?_append_right hge, show i - order.length = 0 by omega] at hf
          obtain rfl := Option.some.inj hf
          exact absurd hmem hnot
    · split
      · omega
      · omega

namespace Placing

/-- Slot `i` holds `h`. -/
def At (s : Placing) (i : Nat) (h : Held) : Prop := s.slots[i]? = some (some h)

/-- Some slot holds vector `v`. -/
def Has (s : Placing) (v : Int) : Prop := ∃ i h, s.At i h ∧ h.vector = v

theorem holds_iff {s : Placing} {v : Int} : s.holds v = true ↔ s.Has v := by
  unfold holds Has At
  rw [List.any_eq_true]
  constructor
  · rintro ⟨slot, hslot, hv⟩
    obtain ⟨h, rfl, hv⟩ := Option.any_eq_true _ _ |>.1 hv
    obtain ⟨i, hi⟩ := List.getElem?_of_mem hslot
    exact ⟨i, h, hi, by simpa using hv⟩
  · rintro ⟨i, h, hi, hv⟩
    exact ⟨some h, List.mem_of_getElem? hi, by simp [hv]⟩

/-- Vector `v` takes slot `i`, which yields; all others stay, and there is room for one less. -/
structure TakesSlot (capacity : Int) (need : List Int) (v : Int) (s s' : Placing) (i : Nat) :
    Prop where
  yields : ∀ h, s.At i h → yields need (some h) = true
  slots : ∀ j h, s'.At j h ↔ (j = i ∧ h = { vector := v }) ∨ (j ≠ i ∧ s.At j h)
  room : s'.room capacity need = s.room capacity need - 1

/-- A slot that yields is replaced. -/
theorem takesSlot_set {s s' : Placing} {capacity : Int} {need : List Int} {v : Int} (hv : v ∈ need)
    {i : Nat} {slot : Option Held} (hi : s.slots[i]? = some slot) (hyield : yields need slot = true)
    (hslots : s'.slots = s.slots.set i (some { vector := v })) :
    s.TakesSlot capacity need v s' i := by
  obtain ⟨hlt, hat⟩ := List.getElem?_eq_some_iff.1 hi
  refine ⟨fun h hh => ?_, fun j h => ?_, ?_⟩
  · rw [At, hi] at hh
    rwa [← Option.some.inj hh]
  · unfold At
    rw [hslots, List.getElem?_set]
    by_cases hji : j = i
    · subst hji
      simp only [if_true, hlt, true_and, ne_eq, not_true, false_and, or_false, Option.some.injEq]
      exact eq_comm
    · rw [if_neg (Ne.symm hji)]
      simp [hji]
  · have hcount := List.countP_set (p := yields need) (l := s.slots) (a := some { vector := v }) hlt
    have hpinned : yields need (some { vector := v }) = false := by simp [yields, hv]
    rw [hat, if_pos hyield, hpinned] at hcount
    have hpos : 0 < s.slots.countP (yields need) :=
      List.countP_pos_iff.2 ⟨_, List.mem_of_getElem? hi, hyield⟩
    unfold room
    rw [hslots, List.length_set, hcount]
    simp only [Bool.false_eq_true, if_false]
    omega

/-- A new slot is added. -/
theorem takesSlot_append {s s' : Placing} {capacity : Int} {need : List Int} {v : Int}
    (hv : v ∈ need) (hslots : s'.slots = s.slots ++ [some { vector := v }]) :
    s.TakesSlot capacity need v s' s.slots.length := by
  refine ⟨fun h hat => ?_, fun j h => ?_, ?_⟩
  · simp [At] at hat
  · unfold At
    rw [hslots]
    rcases Nat.lt_trichotomy j s.slots.length with hlt | rfl | hgt
    · rw [List.getElem?_append_left hlt]
      simp [Nat.ne_of_lt hlt]
    · rw [List.getElem?_append_right le_rfl]
      simp [eq_comm]
    · rw [List.getElem?_eq_none (by simp; omega), List.getElem?_eq_none (by omega)]
      simp [Nat.ne_of_gt hgt]
  · have hpinned : yields need (some { vector := v }) = false := by simp [yields, hv]
    unfold room
    rw [hslots, List.countP_append, List.countP_cons, hpinned, List.length_append]
    simp
    omega

/-- A vector is placed if there is room: then a slot is free, or can be added, or yields. -/
theorem place_ok {s : Placing} {capacity : Int} {need : List Int} (v : Int)
    (hroom : 1 ≤ s.room capacity need) : ∃ s', s.place capacity need v = .ok s' := by
  suffices hslots : ∃ slots, s.slotsWith capacity need v = .ok slots by
    obtain ⟨slots, hslots⟩ := hslots
    exact ⟨_, Outcome.bind_ok hslots rfl⟩
  unfold slotsWith
  split
  · exact ⟨_, rfl⟩
  split
  · exact ⟨_, rfl⟩
  rename_i hlen
  have hpos : 0 < s.slots.countP (yields need) := by
    unfold room at hroom
    omega
  obtain ⟨slot, hmem, hyield⟩ := List.countP_pos_iff.1 hpos
  split
  · exact ⟨_, rfl⟩
  · rename_i hnone
    rw [List.findIdx?_eq_none_iff.1 hnone slot hmem] at hyield
    cases hyield

/-- **What the slots hold after a vector is placed**: the slot it takes was free, new
or yielded, all others are as before, and there is room for one vector less. What is in work and
what is done stay as they are, and the vector is loaded. -/
theorem place_at {s s' : Placing} {capacity : Int} {need : List Int} {v : Int} (hv : v ∈ need)
    (h : s.place capacity need v = .ok s') :
    (∃ i, s.TakesSlot capacity need v s' i) ∧
      ∃ slots, s' = { s with slots, loadX := v :: s.loadX } := by
  obtain ⟨slots, hslots, h⟩ := Outcome.bind_eq_ok.1 h
  obtain rfl := Outcome.pure_eq_ok.1 h
  refine ⟨?_, slots, rfl⟩
  unfold slotsWith at hslots
  split at hslots
  · rename_i i hfree
    obtain rfl := Except.ok.inj hslots
    obtain ⟨hi, hnone, -⟩ := List.findIdx?_eq_some_iff_getElem.1 hfree
    refine ⟨i, takesSlot_set hv (List.getElem?_eq_getElem hi) ?_ rfl⟩
    rw [Option.isNone_iff_eq_none.1 hnone]
    rfl
  split at hslots
  · obtain rfl := Except.ok.inj hslots
    exact ⟨_, takesSlot_append hv rfl⟩
  split at hslots
  · rename_i i hfound
    obtain rfl := Except.ok.inj hslots
    obtain ⟨hlt, hat, -⟩ := List.findIdx?_eq_some_iff_getElem.1 hfound
    exact ⟨i, takesSlot_set hv (List.getElem?_eq_getElem hlt) hat rfl⟩
  · cases hslots

/-- What the slots hold after a step is closed. -/
theorem flush_at {s : Placing} {last : Array Nat} {results : Std.TreeSet Int} {next i : Nat}
    {h : Held} : (s.flush last results next).At i h ↔
      ∃ k, s.At i k ∧ lives last next k = true ∧ h = { k with used := false } := by
  unfold At flush
  simp only [List.getElem?_map]
  cases hslot : s.slots[i]? with
  | none => simp
  | some slot =>
    cases slot with
    | none => simp
    | some k =>
      by_cases hl : lives last next k = true
      · simp only [Option.map_some, Option.filter_some, hl, if_true, Option.some.injEq]
        exact ⟨fun heq => ⟨k, rfl, hl, heq.symm⟩, fun ⟨k', hk, _, heq⟩ => by rw [heq, hk]⟩
      · simp [Option.filter, hl]

/-- What the slots hold after an entry is run. -/
theorem execute_at {s : Placing} {e : Entry} {i : Nat} {h : Held} : (s.execute e).At i h ↔
    ∃ k, s.At i k ∧ h = { k with
      used := k.used || e.need.contains k.vector
      dirty := k.dirty || k.vector == e.site.dst } := by
  unfold At execute
  simp only [List.getElem?_map]
  cases hslot : s.slots[i]? with
  | none => simp
  | some slot =>
    cases slot with
    | none => simp
    | some k => simp [eq_comm]

/-- No vector stands in two slots, and none has a negative number. -/
structure Distinct (s : Placing) : Prop where
  one : ∀ i j h k, s.At i h → s.At j k → h.vector = k.vector → i = j
  nonneg : ∀ i h, s.At i h → 0 ≤ h.vector

theorem Distinct.flush {s : Placing} (hs : s.Distinct) (last : Array Nat)
    (results : Std.TreeSet Int) (next : Nat) : (s.flush last results next).Distinct where
  one i j h k hi hj heq := by
    obtain ⟨h', hi', -, rfl⟩ := flush_at.1 hi
    obtain ⟨k', hj', -, rfl⟩ := flush_at.1 hj
    exact hs.one i j h' k' hi' hj' heq
  nonneg i h hi := by
    obtain ⟨h', hi', -, rfl⟩ := flush_at.1 hi
    exact hs.nonneg i h' hi'

theorem Distinct.execute {s : Placing} (hs : s.Distinct) (e : Entry) : (s.execute e).Distinct where
  one i j h k hi hj heq := by
    obtain ⟨h', hi', rfl⟩ := execute_at.1 hi
    obtain ⟨k', hj', rfl⟩ := execute_at.1 hj
    exact hs.one i j h' k' hi' hj' heq
  nonneg i h hi := by
    obtain ⟨h', hi', rfl⟩ := execute_at.1 hi
    exact hs.nonneg i h' hi'

theorem yields_iff {need : List Int} {h : Held} : yields need (some h) = true ↔
    h.dirty = false ∧ h.used = false ∧ h.vector ∉ need := by
  simp [yields, and_assoc]

section Place

variable {s s' : Placing} {capacity : Int} {need : List Int} {u v : Int}

/-- What changes when `v` is placed: it has a slot, what is dirty, in use or needed stays
where it is, and nothing else comes. -/
structure Takes (need : List Int) (v : Int) (s s' : Placing) : Prop where
  taken : ∃ i, s'.At i { vector := v }
  kept : ∀ i h, s.At i h → h.dirty = true ∨ h.used = true ∨ h.vector ∈ need → s'.At i h
  back : ∀ i h, s'.At i h → h = { vector := v } ∨ s.At i h

theorem Takes.of_has (h : Takes need v s s') : s'.Has u → u = v ∨ s.Has u := by
  rintro ⟨i, k, hk, rfl⟩
  rcases h.back i k hk with rfl | hk
  · exact Or.inl rfl
  · exact Or.inr ⟨i, k, hk, rfl⟩

/-- What is needed is there afterwards if it was there before, or is the vector placed. -/
theorem Takes.has_iff (h : Takes need v s s') (hu : u ∈ need) : s'.Has u ↔ u = v ∨ s.Has u := by
  refine ⟨h.of_has, ?_⟩
  rintro (rfl | ⟨i, k, hk, rfl⟩)
  · obtain ⟨i, hi⟩ := h.taken
    exact ⟨i, _, hi, rfl⟩
  · exact ⟨i, k, h.kept i k hk (Or.inr (Or.inr hu)), rfl⟩

theorem place_takes (hv : v ∈ need) (hplace : s.place capacity need v = .ok s') :
    Takes need v s s' := by
  obtain ⟨⟨i, hyield, hat, -⟩, -⟩ := place_at hv hplace
  refine ⟨⟨i, (hat i _).2 (Or.inl ⟨rfl, rfl⟩)⟩, fun j h hj hpin => ?_, fun j h hj => ?_⟩
  · refine (hat j h).2 (Or.inr ⟨?_, hj⟩)
    rintro rfl
    obtain ⟨hclean, hfree, hother⟩ := yields_iff.1 (hyield h hj)
    rcases hpin with hpin | hpin | hpin
    · rw [hclean] at hpin
      cases hpin
    · rw [hfree] at hpin
      cases hpin
    · exact hother hpin
  · exact ((hat j h).1 hj).imp And.right And.right

theorem Distinct.place (hs : s.Distinct) (hneed : v ∈ need) (hv : 0 ≤ v) (hnew : ¬s.Has v)
    (hplace : s.place capacity need v = .ok s') : s'.Distinct := by
  obtain ⟨⟨i, -, hat, -⟩, -⟩ := place_at hneed hplace
  refine ⟨fun j k g h hj hk heq => ?_, fun j h hj => ?_⟩
  · rcases (hat j g).1 hj with ⟨rfl, rfl⟩ | ⟨-, hj⟩ <;>
      rcases (hat k h).1 hk with ⟨rfl, rfl⟩ | ⟨-, hk⟩
    · rfl
    · exact absurd ⟨k, h, hk, heq.symm⟩ hnew
    · exact absurd ⟨j, g, hj, heq⟩ hnew
    · exact hs.one j k g h hj hk heq
  · rcases (hat j h).1 hj with ⟨-, rfl⟩ | ⟨-, hj⟩
    · exact hv
    · exact hs.nonneg j h hj

/-- **Placing all vectors that are missing** succeeds if there is room, and keeps what placing one
of them keeps; then all of them are there. -/
theorem places_invariant {I : Placing → Prop} {P : Int → Prop} (capacity : Int)
    (hplace : ∀ {s s' v}, I s → P v → v ∈ need → ¬s.Has v → s.place capacity need v = .ok s' →
      I s') {vs : List Int} (hs : I s)
    (hvs : ∀ v ∈ vs, P v ∧ v ∈ need ∧ ¬s.Has v) (hnodup : vs.Nodup)
    (hroom : vs.length ≤ s.room capacity need) :
    ∃ s', vs.foldlM (fun s v => s.place capacity need v) s = .ok s' ∧ I s' ∧
      ∀ u ∈ need, s'.Has u ↔ u ∈ vs ∨ s.Has u := by
  induction vs generalizing s with
  | nil => exact ⟨s, rfl, hs, fun u _ => by simp⟩
  | cons v vs ih =>
    obtain ⟨hv, hneed, hnew⟩ := hvs v List.mem_cons_self
    rw [List.length_cons] at hroom
    obtain ⟨s1, hs1⟩ := place_ok v (show 1 ≤ s.room capacity need by omega)
    have htakes := place_takes hneed hs1
    obtain ⟨⟨-, -, -, hless⟩, -⟩ := place_at hneed hs1
    obtain ⟨hnot, hnodup⟩ := List.nodup_cons.1 hnodup
    have hrest : ∀ u ∈ vs, P u ∧ u ∈ need ∧ ¬s1.Has u := by
      intro u hu
      obtain ⟨hu1, hu2, hu3⟩ := hvs u (List.mem_cons_of_mem _ hu)
      refine ⟨hu1, hu2, fun hhas => ?_⟩
      rcases htakes.of_has hhas with rfl | hhas
      · exact hnot hu
      · exact hu3 hhas
    obtain ⟨s', hrun, hall, hhas⟩ := ih (hplace hs hv hneed hnew hs1) hrest hnodup (by omega)
    refine ⟨s', ?_, hall, fun u hu => ?_⟩
    · rw [List.foldlM_cons, hs1]
      exact hrun
    · rw [hhas u hu, htakes.has_iff hu, List.mem_cons]
      tauto

theorem need_nodup (e : Entry) : e.need.Nodup := by
  unfold Entry.need
  split
  · rename_i h
    simp [h.2.symm]
  · simp

/-- The vectors of `need` that are missing: none of them is there, none comes twice, and all
others are there. -/
theorem missing_of_filter (hneed : need.Nodup) (s : Placing) :
    (∀ v ∈ need.filter (!s.holds ·), v ∈ need ∧ ¬s.Has v) ∧
      (need.filter (!s.holds ·)).Nodup ∧
      ∀ u ∈ need, u ∈ need.filter (!s.holds ·) ∨ s.Has u := by
  refine ⟨fun v hv => ?_, hneed.filter _, fun u hu => ?_⟩
  · obtain ⟨hv, hnot⟩ := List.mem_filter.1 hv
    refine ⟨hv, fun hhas => ?_⟩
    simp [holds_iff.2 hhas] at hnot
  · by_cases hh : s.Has u
    · exact Or.inr hh
    · refine Or.inl (List.mem_filter.2 ⟨hu, ?_⟩)
      simpa [← holds_iff] using hh

end Place

section Enter

variable {s s' : Placing} {capacity : Int} {last : Array Nat} {results : Std.TreeSet Int} {t : Nat}
  {e : Entry}

/-- Makes room for entry number `t`: the step in work is closed if there is none. -/
def makeRoom (s : Placing) (capacity : Int) (last : Array Nat) (results : Std.TreeSet Int) (t : Nat)
    (e : Entry) : Placing :=
  if s.room capacity e.need < (e.need.filter (!s.holds ·)).length ∧ s.ops ≠ [] then
    s.flush last results t
  else s

/-- What holds with the step closed and without holds once there is room. -/
theorem makeRoom_of {P : Placing → Prop} (hs : P s) (hflush : P (s.flush last results t)) :
    P (s.makeRoom capacity last results t e) := by
  unfold makeRoom
  split
  · exact hflush
  · exact hs

/-- **An entry** is refused if there is no room even then; otherwise its missing vectors are
placed, and it is run. -/
theorem entry_eq : s.entry capacity last results t e =
    if (s.makeRoom capacity last results t e).room capacity e.need <
        (e.need.filter (!(s.makeRoom capacity last results t e).holds ·)).length then
      Outcome.diagnose e.op.object (.capacityTooSmall (.pinned
        ((s.makeRoom capacity last results t e).slots.countP fun slot => slot.any (·.dirty))
        capacity))
    else (do
      let s ← (e.need.filter (!(s.makeRoom capacity last results t e).holds ·)).foldlM
        (fun s v => s.place capacity e.need v) (s.makeRoom capacity last results t e)
      return s.execute e) := by
  unfold entry makeRoom
  simp only [Bool.and_eq_true, decide_eq_true_eq, Bool.not_eq_true', List.isEmpty_eq_false_iff]
  generalize (if s.room capacity e.need < (e.need.filter (!s.holds ·)).length ∧ s.ops ≠ [] then
    s.flush last results t else s) = s1
  split <;> rfl

/-- **The missing vectors of an entry** are placed if there is room for them; what placing one
keeps is kept, and then all vectors of the entry are there. -/
theorem missing_placed {I : Placing → Prop} {P : Int → Prop} (hs : I s)
    (hplace : ∀ {s s' v}, I s → P v → v ∈ e.need → ¬s.Has v → s.place capacity e.need v = .ok s' →
      I s') (hneed : ∀ v ∈ e.need, P v)
    (hroom : ¬s.room capacity e.need < (e.need.filter (!s.holds ·)).length) :
    ∃ s', (e.need.filter (!s.holds ·)).foldlM (fun s v => s.place capacity e.need v) s = .ok s' ∧
      I s' ∧ ∀ u ∈ e.need, s'.Has u := by
  obtain ⟨hmissing, hmissed, hthere⟩ := missing_of_filter (need_nodup e) s
  obtain ⟨s', hrun, hall, hhas⟩ := places_invariant capacity hplace hs
    (fun v hv => ⟨hneed v (hmissing v hv).1, hmissing v hv⟩) hmissed (by omega)
  exact ⟨s', hrun, hall, fun u hu => (hhas u hu).2 (hthere u hu)⟩

/-- **What an entry keeps**: `I` is kept when a step is closed and when a vector is placed, and
leads to `J` when the entry is run on vectors that are all there. -/
theorem entry_invariant {I J : Placing → Prop} {P : Int → Prop} (hs : I s)
    (hflush : I (s.flush last results t))
    (hplace : ∀ {s s' v}, I s → P v → v ∈ e.need → ¬s.Has v → s.place capacity e.need v = .ok s' →
      I s') (hneed : ∀ v ∈ e.need, P v)
    (hexecute : ∀ {s}, I s → (∀ u ∈ e.need, s.Has u) → J (s.execute e))
    (h : s.entry capacity last results t e = .ok s') : J s' := by
  rw [entry_eq] at h
  split at h
  · cases h
  rename_i hroom
  obtain ⟨s1, hrun, hplaced, hthere⟩ := missing_placed (makeRoom_of hs hflush) hplace hneed hroom
  obtain ⟨s2, hrun', h⟩ := Outcome.bind_eq_ok.1 h
  obtain rfl := Except.ok.inj (hrun.symm.trans hrun')
  obtain rfl := Outcome.pure_eq_ok.1 h
  exact hexecute hplaced hthere

/-- **An entry never faults**: it is placed or refused. -/
theorem entry_refuses : (s.entry capacity last results t e).OnlyRefuses fun _ => True := by
  rw [entry_eq]
  split
  · exact .diagnose _ trivial
  · rename_i hroom
    obtain ⟨s1, hrun, -, -⟩ := missing_placed (I := fun _ => True) (P := fun _ => True) trivial
      (fun _ _ _ _ _ => trivial) (fun _ _ => trivial) hroom
    rw [hrun]
    exact .of_ok rfl

end Enter

end Placing

end Tessera
