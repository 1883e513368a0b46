import Tessera.Proofs.Reference
import Tessera.Schedule.Eviction

/-!
# The order of operations on vectors

Operations on single vectors may run grouped by destination if that keeps every
two conflicting accesses in order. This module shows that the check is exact: it passes for
the orders that keep entries in conflict as declared, and for no other. So the order chosen
ends in the values of the declared order.

* `Entry.action`: an entry as an action.
* `placeOf_order`: the table of places says where an entry comes.
* `Site.Below`: the vectors of a site are in range.
* `Accesses.Notes`: what the check knows of the entries it has seen.
* `hazardFree_iff_pairwise`: the check passes exactly if entries in conflict come to places
  in order.
* `Entry.Shares`: two entries touch a vector that one of them writes;
  `Entry.independent_of_not_shares`: all other entries are independent as actions.
* `hazardFree_iff_keeps`: the check passes exactly for the orders that keep entries that
  share a vector as declared.
* `KeepsDeclared`, `Entry.Before`: when entries may be grouped, and how they are.
* `orderEntries_ok`: the order that is chosen.
* `orderEntries_run`: the order chosen ends in the same values.
-/

namespace Tessera

/-- The action of an entry. -/
def Entry.action (acc : Scalar) (e : Entry) : Action := e.op.action acc e.site

theorem flatten_eq (ops : List Resolved) : flatten ops =
    (ops.flatMap fun r => r.sites.map fun s => (r, s)).zipIdx.map
      fun q => ⟨q.1.1, q.1.2, q.2⟩ := rfl

/-- The entries are the sites of all operations, numbered in order. -/
theorem flatten_action (acc : Scalar) (ops : List Resolved) :
    (flatten ops).map (Entry.action acc) = actionsOf acc ops := by
  have hentry : (Entry.action acc ∘ fun q : (Resolved × Site) × Nat => ⟨q.1.1, q.1.2, q.2⟩) =
      (fun q : Resolved × Site => q.1.action acc q.2) ∘ Prod.fst := rfl
  unfold actionsOf
  rw [flatten_eq, List.map_map, hentry, ← List.map_map, List.zipIdx_map_fst, List.map_flatMap]
  apply List.flatMap_congr
  intro r _
  rw [List.map_map]
  rfl

theorem mem_flatten {ops : List Resolved} {e : Entry} (h : e ∈ flatten ops) :
    e.op ∈ ops ∧ e.site ∈ e.op.sites := by
  unfold flatten at h
  obtain ⟨⟨⟨r, s⟩, n⟩, hq, rfl⟩ := List.mem_map.1 h
  have hmem := List.fst_mem_of_mem_zipIdx hq
  obtain ⟨r', hr', hs⟩ := List.mem_flatMap.1 hmem
  obtain ⟨s', hs', heq⟩ := List.mem_map.1 hs
  obtain ⟨rfl, rfl⟩ := Prod.mk.inj heq
  exact ⟨hr', hs'⟩

theorem flatten_seq (ops : List Resolved) :
    (flatten ops).map (·.seq) = List.range (flatten ops).length := by
  have hseq : ((fun e : Entry => e.seq) ∘
      fun q : (Resolved × Site) × Nat => ⟨q.1.1, q.1.2, q.2⟩) = Prod.snd := rfl
  rw [flatten_eq, List.map_map, List.length_map, List.length_zipIdx, hseq, List.zipIdx_map_snd,
    List.range'_eq_map_range]
  simp

theorem flatten_nodup (ops : List Resolved) : (flatten ops).Nodup := by
  apply List.Nodup.of_map Entry.seq
  rw [flatten_seq]
  exact List.nodup_range

theorem getD_setIfInBounds {table : Array Nat} {k n x : Nat} (hk : k < table.size) :
    (table.setIfInBounds k x).getD n 0 = if k = n then x else table.getD n 0 := by
  rw [Array.getD_eq_getD_getElem?, Array.getElem?_setIfInBounds]
  by_cases hn : k = n
  · rw [if_pos hn, if_pos hn, if_pos (hn ▸ hk)]
    rfl
  · rw [if_neg hn, if_neg hn, Array.getD_eq_getD_getElem?]

/-- The table of places, filled from `order` on from place `k`. -/
theorem place_fold (order : List Entry) (k : Nat) (table : Array Nat)
    (hnodup : (order.map (·.seq)).Nodup) (hlt : ∀ e ∈ order, e.seq < table.size) :
    let out := (order.zipIdx k).foldl (fun place (q : Entry × Nat) =>
      place.setIfInBounds q.1.seq q.2) table
    (∀ i e, order[i]? = some e → out.getD e.seq 0 = k + i) ∧
      ∀ n, n ∉ order.map (·.seq) → out.getD n 0 = table.getD n 0 := by
  induction order generalizing k table with
  | nil => exact ⟨fun i e h => by simp at h, fun n _ => rfl⟩
  | cons e es ih =>
    obtain ⟨he, hes⟩ := List.nodup_cons.1 (List.map_cons ▸ hnodup)
    obtain ⟨h1, h2⟩ := ih (k + 1) (table.setIfInBounds e.seq k) hes fun f hf => by
      rw [Array.size_setIfInBounds]; exact hlt f (List.mem_cons_of_mem _ hf)
    have hset := fun n => getD_setIfInBounds (x := k) (n := n) (hlt e List.mem_cons_self)
    rw [List.zipIdx_cons, List.foldl_cons]
    refine ⟨fun i f hf => ?_, fun n hn => ?_⟩
    · cases i with
      | zero =>
        obtain rfl := Option.some.inj hf
        rw [h2 e.seq he, hset, if_pos rfl]
        rfl
      | succ i =>
        rw [h1 i f hf]
        omega
    · simp only [List.map_cons, List.mem_cons, not_or] at hn
      rw [h2 n hn.2, hset, if_neg (Ne.symm hn.1)]

/-- The table of places of an order. -/
def placeTable (order : List Entry) : Array Nat :=
  order.zipIdx.foldl (fun place (e, i) => place.setIfInBounds e.seq i)
    (Array.replicate order.length 0)

/-- The tables have places for the vectors and entries in range: there they are set and
read without a fault. -/
theorem entry_getD {table : Array Nat} {i : Int} (h0 : 0 ≤ i) (hi : i.toNat < table.size) :
    entry table i = .ok (table.getD i.toNat 0) := by
  rw [entry, if_neg (by omega), Array.getD_eq_getD_getElem?, Array.getElem?_eq_getElem hi]
  rfl

theorem replaced_eq {table : Array Nat} {i : Int} (h0 : 0 ≤ i) (hi : i.toNat < table.size)
    (x : Nat) : replaced table i x = .ok (table.setIfInBounds i.toNat x) := by
  rw [replaced, entry_getD h0 hi]
  rfl

/-- The table of places is filled without a fault. -/
theorem places_eq (order : List Entry) (k : Nat) (table : Array Nat)
    (hlt : ∀ e ∈ order, e.seq < table.size) :
    (order.zipIdx k).foldlM (fun place (q : Entry × Nat) => replaced place q.1.seq q.2) table =
      .ok ((order.zipIdx k).foldl (fun place (q : Entry × Nat) =>
        place.setIfInBounds q.1.seq q.2) table) := by
  induction order generalizing k table with
  | nil => rfl
  | cons e es ih =>
    have he := hlt e List.mem_cons_self
    rw [List.zipIdx_cons, List.foldlM_cons, List.foldl_cons,
      replaced_eq (Int.natCast_nonneg _) (by simpa using he), Outcome.ok_bind, Int.toNat_natCast]
    exact ih (k + 1) _ fun f hf => by
      rw [Array.size_setIfInBounds]
      exact hlt f (List.mem_cons_of_mem _ hf)

theorem size_placeTable (order : List Entry) : (placeTable order).size = order.length := by
  have hsize : ∀ (qs : List (Entry × Nat)) (table : Array Nat),
      (qs.foldl (fun place (q : Entry × Nat) => place.setIfInBounds q.1.seq q.2) table).size =
        table.size := by
    intro qs
    induction qs with
    | nil => exact fun _ => rfl
    | cons q qs ih =>
      intro table
      rw [List.foldl_cons, ih, Array.size_setIfInBounds]
  exact (hsize _ _).trans Array.size_replicate

/-- Where an entry comes in an order. -/
def placeOf (order : List Entry) (e : Entry) : Nat := (placeTable order).getD e.seq 0

/-- **The table of places says where an entry comes.** -/
theorem placeOf_order {order : List Entry} (hnodup : (order.map (·.seq)).Nodup)
    (hlt : ∀ e ∈ order, e.seq < order.length) :
    order.Pairwise fun a b => placeOf order a < placeOf order b := by
  have hplace : ∀ i e, order[i]? = some e → placeOf order e = i := by
    intro i e he
    have := (place_fold order 0 (Array.replicate order.length 0) hnodup (by simpa using hlt)).1 i e he
    rw [Nat.zero_add] at this
    exact this
  rw [List.pairwise_iff_getElem]
  intro i j hi hj hij
  rw [hplace i _ (List.getElem?_eq_getElem hi), hplace j _ (List.getElem?_eq_getElem hj)]
  exact hij

section Orders

variable {ops : List Resolved} {order : List Entry}

/-- The entries of an order are numbered from zero on. -/
theorem seq_of_perm (hperm : order.Perm (flatten ops)) :
    (order.map Entry.seq).Perm (List.range (flatten ops).length) := by
  rw [← flatten_seq]
  exact hperm.map _

theorem seq_lt_of_perm (hperm : order.Perm (flatten ops)) : ∀ e ∈ order, e.seq < order.length := by
  intro e he
  rw [hperm.length_eq]
  exact List.mem_range.1 ((seq_of_perm hperm).subset (List.mem_map_of_mem he))

/-- The places in an order of the entries rise. -/
theorem places_of_perm (hperm : order.Perm (flatten ops)) :
    order.Pairwise fun a b => placeOf order a < placeOf order b :=
  placeOf_order ((seq_of_perm hperm).nodup_iff.2 List.nodup_range) (seq_lt_of_perm hperm)

end Orders

section Vectors

variable {ops : List Resolved} {vectors : Nat} {e f : Entry}

theorem mem_need {v : Int} :
    v ∈ e.need ↔ v = e.site.dst ∨ (e.site.src ≠ noSource ∧ v = e.site.src) := by
  unfold Entry.need
  split
  · rename_i h
    simp [h.1]
  · rename_i h
    rw [List.mem_singleton]
    constructor
    · exact Or.inl
    · rintro (hv | ⟨hsrc, hv⟩)
      · exact hv
      · by_contra hne
        exact h ⟨hsrc, fun heq => hne (hv.trans heq)⟩

/-- An entry reads only vectors that it touches. -/
theorem Entry.reads_need {acc : Scalar} (hsrc : e.op.useImm = false → e.site.src ≠ noSource)
    {v : Int} (hv : v ∈ (e.action acc).reads) : v ∈ e.need := by
  unfold Entry.action Resolved.action Action.reads at hv
  rw [mem_need]
  cases himm : e.op.useImm with
  | true =>
    left
    simpa [himm] using hv
  | false =>
    simp only [himm, Bool.false_eq_true, if_false, Option.toList_some, List.mem_cons,
      List.not_mem_nil, or_false] at hv
    exact hv.imp_right fun hv => ⟨hsrc himm, hv⟩

/-- The vectors of a site are below `vectors`. -/
def Site.Below (s : Site) (vectors : Nat) : Prop :=
  (0 ≤ s.dst ∧ s.dst < vectors) ∧ (s.src ≠ noSource → 0 ≤ s.src ∧ s.src < vectors)

instance (s : Site) (vectors : Nat) : Decidable (s.Below vectors) :=
  inferInstanceAs (Decidable (_ ∧ _))

/-- An entry touches vectors in range if its site is. -/
theorem Site.Below.need (h : e.site.Below vectors) : ∀ v ∈ e.need, 0 ≤ v ∧ v < vectors := by
  intro v hv
  rcases mem_need.1 hv with rfl | ⟨hsrc, rfl⟩
  · exact h.1
  · exact h.2 hsrc

theorem below_of_sites (hsites : ∀ r ∈ ops, ∀ s ∈ r.sites, s.Below vectors) :
    ∀ e ∈ flatten ops, e.site.Below vectors := by
  intro e he
  obtain ⟨hr, hs⟩ := mem_flatten he
  exact hsites _ hr _ hs

theorem source_of_sites (hsrc : ∀ r ∈ ops, r.useImm = false → ∀ s ∈ r.sites, s.src ≠ noSource) :
    ∀ e ∈ flatten ops, e.op.useImm = false → e.site.src ≠ noSource := by
  intro e he himm
  obtain ⟨hr, hs⟩ := mem_flatten he
  exact hsrc _ hr himm _ hs

/-- The sites of a shaped program's operations are in range. -/
theorem below_of_onVectors (hon : ∀ r ∈ ops, r.OnVectors vectors vectors) :
    ∀ r ∈ ops, ∀ s ∈ r.sites, s.Below vectors := by
  intro r hr s hs
  refine ⟨(hon r hr).dst s hs, fun hne => ?_⟩
  cases himm : r.useImm with
  | true => exact absurd ((hon r hr).plain himm s hs) hne
  | false => exact (hon r hr).src himm s hs

theorem source_of_onVectors (hon : ∀ r ∈ ops, r.OnVectors vectors vectors) :
    ∀ r ∈ ops, r.useImm = false → ∀ s ∈ r.sites, s.src ≠ noSource := by
  intro r hr himm s hs
  have := (hon r hr).src himm s hs
  unfold noSource
  omega

end Vectors

/-- A table with one entry raised. -/
def raised (table : Array Nat) (k p : Nat) : Array Nat :=
  table.setIfInBounds k (max (table.getD k 0) p)

theorem size_raised (table : Array Nat) (k p : Nat) : (raised table k p).size = table.size :=
  Array.size_setIfInBounds ..

theorem lt_raised {table : Array Nat} {k : Nat} (hk : k < table.size) (p n x : Nat) :
    x < (raised table k p).getD n 0 ↔ x < table.getD n 0 ∨ (k = n ∧ x < p) := by
  rw [raised, getD_setIfInBounds hk]
  by_cases hn : k = n
  · subst hn
    simp
  · simp [hn]

/-- All accesses after the read of a site that comes to place `p`. -/
def Accesses.read (seen : Accesses) (s : Site) (p : Nat) : Array Nat :=
  if s.src ≠ noSource then raised seen.any s.src.toNat p else seen.any

/-- The accesses after those of a site that comes to place `p`. -/
def Accesses.note (seen : Accesses) (s : Site) (p : Nat) : Accesses :=
  ⟨raised seen.write s.dst.toNat p, raised (seen.read s p) s.dst.toNat p⟩

/-- Whether an entry reads or writes the vector with number `n`. -/
def Entry.Accesses (e : Entry) (n : Nat) : Prop :=
  e.site.dst.toNat = n ∨ (e.site.src ≠ noSource ∧ e.site.src.toNat = n)

/-- The vectors of an entry have places in the tables. -/
def Entry.Within (e : Entry) (vectors : Nat) : Prop := ∀ n, e.Accesses n → n < vectors

/-- The vectors of a site in range have places in the tables of the check. -/
theorem Site.Below.within {e : Entry} {vectors : Nat} (h : e.site.Below vectors) :
    e.Within vectors := by
  rintro n (rfl | ⟨hsrc, rfl⟩)
  · have := h.1
    omega
  · have := h.2 hsrc
    omega

/-- A later entry writes what an earlier one reads or writes, or reads what it
writes. -/
def Entry.Conflicts (e f : Entry) : Prop :=
  f.site.dst.toNat = e.site.dst.toNat ∨
    (e.site.src ≠ noSource ∧ f.site.dst.toNat = e.site.src.toNat) ∨
    (f.site.src ≠ noSource ∧ f.site.src.toNat = e.site.dst.toNat)

/-- The accesses noted are those of the entries done: a table has the greatest of their
places for each vector, counted from one. -/
structure Accesses.Notes (seen : Accesses) (table : Array Nat) (vectors : Nat)
    (done : List Entry) : Prop where
  size : seen.write.size = vectors ∧ seen.any.size = vectors
  write : ∀ n x, x < seen.write.getD n 0 ↔
    ∃ e ∈ done, e.site.dst.toNat = n ∧ x < table.getD e.seq 0 + 1
  any : ∀ n x, x < seen.any.getD n 0 ↔
    ∃ e ∈ done, e.Accesses n ∧ x < table.getD e.seq 0 + 1

namespace Accesses

variable {table : Array Nat} {vectors : Nat} {seen : Accesses} {done : List Entry} {f : Entry}

theorem notes_nil (table : Array Nat) (vectors : Nat) :
    Notes ⟨Array.replicate vectors 0, Array.replicate vectors 0⟩ table vectors [] := by
  have hzero : ∀ n, (Array.replicate vectors 0).getD n 0 = 0 := by
    intro n
    rw [Array.getD_eq_getD_getElem?, Array.getElem?_replicate]
    split <;> rfl
  refine ⟨by simp, fun n x => ?_, fun n x => ?_⟩ <;>
  · rw [hzero]
    simp

/-- All accesses after the read of the next entry. -/
theorem Notes.lt_read (h : seen.Notes table vectors done) (hf : f.Within vectors) (n x : Nat) :
    x < (seen.read f.site (table.getD f.seq 0 + 1)).getD n 0 ↔
      (∃ e ∈ done, e.Accesses n ∧ x < table.getD e.seq 0 + 1) ∨
        ((f.site.src ≠ noSource ∧ f.site.src.toNat = n) ∧ x < table.getD f.seq 0 + 1) := by
  unfold read
  split
  · rename_i hsrc
    have hlt : f.site.src.toNat < seen.any.size := by
      rw [h.size.2]
      exact hf _ (Or.inr ⟨hsrc, rfl⟩)
    rw [lt_raised hlt, h.any]
    simp [hsrc]
  · rename_i hsrc
    rw [h.any]
    simp [hsrc]

/-- The accesses of the next entry are noted. -/
theorem Notes.note (h : seen.Notes table vectors done) (hf : f.Within vectors) :
    (seen.note f.site (table.getD f.seq 0 + 1)).Notes table vectors (done ++ [f]) := by
  have hdst := hf _ (Or.inl rfl)
  have hread : (seen.read f.site (table.getD f.seq 0 + 1)).size = vectors := by
    unfold read
    split
    · rw [size_raised, h.size.2]
    · exact h.size.2
  refine ⟨⟨(size_raised ..).trans h.size.1, (size_raised ..).trans hread⟩, fun n x => ?_,
    fun n x => ?_⟩
  · rw [Accesses.note, lt_raised (h.size.1 ▸ hdst), h.write]
    simp [or_and_right, exists_or]
  · rw [Accesses.note, lt_raised (hread ▸ hdst), h.lt_read hf]
    simp only [List.mem_append, List.mem_singleton, or_and_right, exists_or, exists_eq_left,
      Entry.Accesses]
    exact or_assoc.trans (or_congr_right or_comm)

/-- The check lets an entry pass that conflicts with none that comes later. -/
theorem Notes.passes_iff (h : seen.Notes table vectors done) (hf : f.Within vectors) :
    (¬(f.site.src ≠ noSource ∧
        table.getD f.seq 0 + 1 < seen.write.getD f.site.src.toNat 0) ∧
      ¬table.getD f.seq 0 + 1 <
        (seen.read f.site (table.getD f.seq 0 + 1)).getD f.site.dst.toNat 0) ↔
      ∀ e ∈ done, e.Conflicts f → table.getD e.seq 0 ≤ table.getD f.seq 0 := by
  rw [h.write, h.lt_read hf]
  constructor
  · rintro ⟨hread, hwrite⟩ e he hc
    by_contra hlt
    -- a write is checked against all accesses, a read only against writes
    rcases hc with hc | ⟨hsrc, hc⟩ | ⟨hsrc, hc⟩
    · exact hwrite (Or.inl ⟨e, he, Or.inl hc.symm, by omega⟩)
    · exact hwrite (Or.inl ⟨e, he, Or.inr ⟨hsrc, hc.symm⟩, by omega⟩)
    · exact hread ⟨hsrc, e, he, hc.symm, by omega⟩
  · intro hle
    constructor
    · rintro ⟨hsrc, e, he, hc, hlt⟩
      have := hle e he (Or.inr (Or.inr ⟨hsrc, hc.symm⟩))
      omega
    · rintro (⟨e, he, hc, hlt⟩ | ⟨-, hlt⟩)
      · have := hle e he (by
          rcases hc with hc | ⟨hsrc, hc⟩
          · exact Or.inl hc.symm
          · exact Or.inr (Or.inl ⟨hsrc, hc.symm⟩))
        omega
      · omega

end Accesses

section Check

variable {table : Array Nat} {vectors p : Nat} {seen : Accesses} {f : Entry}

theorem raisedTo_eq {i : Int} (h0 : 0 ≤ i) (hi : i.toNat < table.size) (p : Nat) :
    raisedTo p table i = .ok (raised table i.toNat p) := by
  rw [raisedTo, entry_getD h0 hi, Outcome.ok_bind, replaced_eq h0 hi]
  rfl

/-- A site in range reads without a fault. -/
theorem Accesses.afterRead_eq (hsize : seen.write.size = vectors ∧ seen.any.size = vectors)
    (hf : f.site.Below vectors) : seen.afterRead f.site p = .ok
      (if f.site.src ≠ noSource ∧ p < seen.write.getD f.site.src.toNat 0 then none
        else some ⟨seen.write, seen.read f.site p⟩) := by
  unfold afterRead read
  by_cases hsrc : f.site.src = noSource
  · simp [hsrc]
  · obtain ⟨h0, hlt⟩ := hf.2 hsrc
    rw [if_neg hsrc, entry_getD h0 (by omega), Outcome.ok_bind, if_pos hsrc]
    by_cases hlate : p < seen.write.getD f.site.src.toNat 0
    · rw [if_pos hlate, if_pos ⟨hsrc, hlate⟩]
      rfl
    · rw [if_neg hlate, if_neg fun h => hlate h.2, raisedTo_eq h0 (by omega)]
      rfl

variable (seen) in
/-- A site in range writes without a fault. -/
theorem Accesses.afterWrite_eq (hsize : seen.write.size = vectors ∧ seen.any.size = vectors)
    (hf : f.site.Below vectors) : seen.afterWrite f.site p = .ok
      (if p < seen.any.getD f.site.dst.toNat 0 then none
        else some ⟨raised seen.write f.site.dst.toNat p, raised seen.any f.site.dst.toNat p⟩) := by
  obtain ⟨h0, hlt⟩ := hf.1
  unfold afterWrite
  rw [entry_getD h0 (by omega), Outcome.ok_bind]
  split
  · rfl
  · rw [raisedTo_eq h0 (by omega), raisedTo_eq h0 (by omega)]
    rfl

/-- One entry of the check. -/
theorem hazardFreeFrom_cons (hsize : seen.write.size = vectors ∧ seen.any.size = vectors)
    (hf : f.site.Below vectors) (hseq : f.seq < table.size) (hp : p = table.getD f.seq 0 + 1)
    (fs : List Entry) : hazardFreeFrom table seen (f :: fs) =
      if ¬(f.site.src ≠ noSource ∧ p < seen.write.getD f.site.src.toNat 0) ∧
          ¬p < (seen.read f.site p).getD f.site.dst.toNat 0 then
        hazardFreeFrom table (seen.note f.site p) fs
      else .ok false := by
  have hread : (seen.read f.site p).size = vectors := by
    unfold Accesses.read
    split
    · rw [size_raised, hsize.2]
    · exact hsize.2
  rw [hazardFreeFrom, entry_getD (Int.natCast_nonneg _) (by simpa using hseq), Outcome.ok_bind,
    Int.toNat_natCast, ← hp]
  simp only
  rw [Accesses.afterRead_eq hsize hf, Outcome.ok_bind]
  by_cases hlate : f.site.src ≠ noSource ∧ p < seen.write.getD f.site.src.toNat 0
  · rw [if_pos hlate, if_neg fun h => h.1 hlate]
    rfl
  · rw [if_neg hlate]
    simp only
    rw [Accesses.afterWrite_eq ⟨seen.write, seen.read f.site p⟩ ⟨hsize.1, hread⟩ hf,
      Outcome.ok_bind]
    by_cases hover : p < (seen.read f.site p).getD f.site.dst.toNat 0
    · rw [if_pos hover, if_neg fun h => h.2 hover]
      rfl
    · rw [if_neg hover, if_pos ⟨hlate, hover⟩]
      rfl

end Check

/-- **The check passes exactly if entries that conflict keep their order**, those seen and
those to come; and it comes to an end. -/
theorem hazardFreeFrom_iff {table : Array Nat} {vectors : Nat} {seen : Accesses}
    (done : List Entry) {es : List Entry}
    (hes : ∀ e ∈ es, e.site.Below vectors ∧ e.seq < table.size)
    (h : seen.Notes table vectors done) : ∃ free, hazardFreeFrom table seen es = .ok free ∧
      (free = true ↔
        (∀ e ∈ done, ∀ f ∈ es, e.Conflicts f → table.getD e.seq 0 ≤ table.getD f.seq 0) ∧
          es.Pairwise fun e f => e.Conflicts f → table.getD e.seq 0 ≤ table.getD f.seq 0) := by
  -- induction on the entries to come: `Notes` carries what was seen from one to the next
  induction es generalizing done seen with
  | nil => exact ⟨true, rfl, by simp⟩
  | cons f fs ih =>
    obtain ⟨hf, hseq⟩ := hes f List.mem_cons_self
    have hpasses := h.passes_iff hf.within
    rw [hazardFreeFrom_cons h.size hf hseq rfl]
    by_cases hbefore : ∀ e ∈ done, e.Conflicts f → table.getD e.seq 0 ≤ table.getD f.seq 0
    · obtain ⟨free, hfree, hiff⟩ :=
        ih (done ++ [f]) (fun e he => hes e (List.mem_cons_of_mem _ he)) (h.note hf.within)
      rw [if_pos (hpasses.2 hbefore)]
      refine ⟨free, hfree, hiff.trans ?_⟩
      simp only [List.pairwise_cons, List.mem_append, List.mem_cons, or_imp, forall_and, forall_eq]
      tauto
    · rw [if_neg (mt hpasses.1 hbefore)]
      refine ⟨false, rfl, iff_of_false Bool.false_ne_true fun hkeep => hbefore ?_⟩
      exact fun e he => hkeep.1 e he f List.mem_cons_self

section Conflicts

variable {ops : List Resolved} {order : List Entry} {vectors : Nat} {e f : Entry}

/-- **The check passes exactly if entries that conflict come to places in order**, and it comes
to an end. -/
theorem hazardFree_iff_pairwise (hsites : ∀ r ∈ ops, ∀ s ∈ r.sites, s.Below vectors)
    (hperm : order.Perm (flatten ops)) :
    ∃ free, hazardFree (flatten ops) order vectors = .ok free ∧ (free = true ↔
      (flatten ops).Pairwise fun e f => e.Conflicts f → placeOf order e ≤ placeOf order f) := by
  have hplaces : order.zipIdx.foldlM (fun place (e, i) => replaced place e.seq i)
      (Array.replicate order.length 0) = .ok (placeTable order) :=
    places_eq order 0 _ (by simpa using seq_lt_of_perm hperm)
  have hes : ∀ e ∈ flatten ops, e.site.Below vectors ∧ e.seq < (placeTable order).size := by
    intro e he
    rw [size_placeTable, hperm.length_eq]
    exact ⟨below_of_sites hsites e he, seq_lt_of_perm (.refl _) e he⟩
  obtain ⟨free, hfree, hiff⟩ := hazardFreeFrom_iff [] hes (Accesses.notes_nil _ _)
  refine ⟨free, Outcome.bind_ok hplaces hfree, hiff.trans ?_⟩
  exact and_iff_right fun e he => absurd he List.not_mem_nil

/-- Two entries touch a vector that one of them writes. -/
def Entry.Shares (e f : Entry) : Prop :=
  ∃ v ∈ e.need, v ∈ f.need ∧ (v = e.site.dst ∨ v = f.site.dst)

instance (e f : Entry) : Decidable (e.Shares f) :=
  inferInstanceAs (Decidable (∃ v ∈ e.need, v ∈ f.need ∧ (v = e.site.dst ∨ v = f.site.dst)))

/-- Among vectors in range, sharing is what the check looks for. -/
theorem shares_iff_conflicts (he : e.site.Below vectors) (hf : f.site.Below vectors) :
    e.Shares f ↔ e.Conflicts f := by
  obtain ⟨he, hes⟩ := he
  obtain ⟨hf, hfs⟩ := hf
  unfold Entry.Shares Entry.Conflicts
  constructor
  · rintro ⟨v, hve, hvf, rfl | rfl⟩
    · rcases mem_need.1 hvf with heq | ⟨hsrc, heq⟩
      · exact Or.inl (congrArg Int.toNat heq.symm)
      · exact Or.inr (Or.inr ⟨hsrc, congrArg Int.toNat heq.symm⟩)
    · rcases mem_need.1 hve with heq | ⟨hsrc, heq⟩
      · exact Or.inl (congrArg Int.toNat heq)
      · exact Or.inr (Or.inl ⟨hsrc, congrArg Int.toNat heq⟩)
  · rintro (heq | ⟨hsrc, heq⟩ | ⟨hsrc, heq⟩)
    · have : e.site.dst = f.site.dst := by omega
      exact ⟨_, mem_need.2 (Or.inl rfl), mem_need.2 (Or.inl this), Or.inl rfl⟩
    · have := hes hsrc
      have : f.site.dst = e.site.src := by omega
      exact ⟨_, mem_need.2 (Or.inr ⟨hsrc, this⟩), mem_need.2 (Or.inl rfl), Or.inr rfl⟩
    · have := hfs hsrc
      have : e.site.dst = f.site.src := by omega
      exact ⟨_, mem_need.2 (Or.inl rfl), mem_need.2 (Or.inr ⟨hsrc, this⟩), Or.inl rfl⟩

/-- Entries that share no vector which one of them writes are independent. -/
theorem Entry.independent_of_not_shares {acc : Scalar}
    (he : e.op.useImm = false → e.site.src ≠ noSource)
    (hf : f.op.useImm = false → f.site.src ≠ noSource) (h : ¬e.Shares f) :
    (e.action acc).Independent (f.action acc) := by
  constructor
  · intro hmem
    exact h ⟨_, e.reads_need he hmem, mem_need.2 (Or.inl rfl), Or.inr rfl⟩
  · intro hmem
    exact h ⟨_, mem_need.2 (Or.inl rfl), f.reads_need hf hmem, Or.inl rfl⟩

/-- **The check for hazards is sound**: entries that are not independent come in the
order chosen as they were declared. -/
theorem hazardFree_pairwise {acc : Scalar} (hsites : ∀ r ∈ ops, ∀ s ∈ r.sites, s.Below vectors)
    (hsrc : ∀ r ∈ ops, r.useImm = false → ∀ s ∈ r.sites, s.src ≠ noSource)
    (hperm : order.Perm (flatten ops)) (h : hazardFree (flatten ops) order vectors = .ok true) :
    (flatten ops).Pairwise fun e f => (e.action acc).Independent (f.action acc) ∨
      placeOf order e ≤ placeOf order f := by
  have hbelow := below_of_sites hsites
  have hsource := source_of_sites hsrc
  obtain ⟨free, hfree, hiff⟩ := hazardFree_iff_pairwise hsites hperm
  have hpair := hiff.1 (Except.ok.inj (hfree.symm.trans h))
  refine hpair.imp_of_mem fun {e f} he hf hle => ?_
  by_cases hshare : e.Shares f
  · exact Or.inr (hle ((shares_iff_conflicts (hbelow e he) (hbelow f hf)).1 hshare))
  · exact Or.inl (Entry.independent_of_not_shares (hsource e he) (hsource f hf) hshare)

/-- One entry comes before another exactly if its place does. -/
theorem pair_sublist_iff (hplaces : order.Pairwise fun a b => placeOf order a < placeOf order b)
    (he : e ∈ order) (hf : f ∈ order) (hne : e ≠ f) :
    [e, f].Sublist order ↔ placeOf order e ≤ placeOf order f := by
  constructor
  · intro h
    have := List.pairwise_iff_forall_sublist.1 hplaces h
    omega
  · intro hle
    obtain ⟨before, after, heq⟩ := List.append_of_mem he
    rw [heq, List.mem_append] at hf
    rcases hf with hf | hf
    · have hsplit : (before ++ e :: after).Pairwise
          fun a b => placeOf order a < placeOf order b := by
        rw [← heq]
        exact hplaces
      have := (List.pairwise_append.1 hsplit).2.2 f hf e List.mem_cons_self
      omega
    · have hafter : [f].Sublist after :=
        List.singleton_sublist.2 ((List.mem_cons.1 hf).resolve_left hne.symm)
      rw [heq]
      exact (hafter.cons_cons e).trans (List.sublist_append_right _ _)

/-- An order in which every two entries that share a vector one of them writes come as declared. -/
def KeepsDeclared (ops : List Resolved) (order : List Entry) : Prop :=
  ∀ e f, [e, f].Sublist (flatten ops) → e.Shares f → [e, f].Sublist order

/-- **The check for hazards is exact**: it comes to an end, and passes exactly for the orders in
which every two entries that share a vector one of them writes come as declared. -/
theorem hazardFree_iff_keeps (hsites : ∀ r ∈ ops, ∀ s ∈ r.sites, s.Below vectors)
    (hperm : order.Perm (flatten ops)) : ∃ free,
      hazardFree (flatten ops) order vectors = .ok free ∧ (free = true ↔ KeepsDeclared ops order) := by
  have hbelow := below_of_sites hsites
  obtain ⟨free, hfree, hiff⟩ := hazardFree_iff_pairwise hsites hperm
  refine ⟨free, hfree, hiff.trans ?_⟩
  rw [List.pairwise_iff_forall_sublist]
  have hpair : ∀ {e f}, [e, f].Sublist (flatten ops) →
      ((e.Conflicts f → placeOf order e ≤ placeOf order f) ↔
        (e.Shares f → [e, f].Sublist order)) := by
    intro e f h
    have he : e ∈ flatten ops := h.subset (by simp)
    have hf : f ∈ flatten ops := h.subset (by simp)
    have hne : e ≠ f := by
      have := (flatten_nodup ops).sublist h
      simpa using this
    rw [shares_iff_conflicts (hbelow e he) (hbelow f hf),
      pair_sublist_iff (places_of_perm hperm) (hperm.symm.subset he) (hperm.symm.subset hf) hne]
  exact ⟨fun h e f hef => (hpair hef).1 (h hef), fun h e f hef => (hpair hef).2 (h e f hef)⟩

end Conflicts

section Chosen

variable {ops : List Resolved} {entries order : List Entry} {vectors : Nat}

theorem byDestination_perm (entries : List Entry) : (byDestination entries).Perm entries :=
  List.mergeSort_perm _ _

/-- One entry comes before another by destination, and as declared among those with one
destination. -/
def Entry.Before (e f : Entry) : Prop :=
  e.site.dst < f.site.dst ∨ (e.site.dst = f.site.dst ∧ e.seq < f.seq)

/-- The numbers of the entries rise as declared. -/
theorem flatten_rises (ops : List Resolved) : (flatten ops).Pairwise fun e f => e.seq < f.seq := by
  rw [← List.pairwise_map, flatten_seq]
  exact List.pairwise_lt_range

/-- **By destination**, entries with one destination stay as declared. -/
theorem byDestination_before (ops : List Resolved) :
    (byDestination (flatten ops)).Pairwise Entry.Before := by
  have htrans : ∀ a b c : Entry, decide (a.site.dst ≤ b.site.dst) = true →
      decide (b.site.dst ≤ c.site.dst) = true → decide (a.site.dst ≤ c.site.dst) = true := by
    simp only [decide_eq_true_eq]
    omega
  have htotal : ∀ a b : Entry,
      (decide (a.site.dst ≤ b.site.dst) || decide (b.site.dst ≤ a.site.dst)) = true := by
    simp only [Bool.or_eq_true, decide_eq_true_eq]
    omega
  have hperm := byDestination_perm (flatten ops)
  have hplaces := places_of_perm hperm
  have hsorted := List.pairwise_mergeSort htrans htotal (flatten ops)
  rw [List.pairwise_iff_forall_sublist]
  intro e f hef
  have hle : e.site.dst ≤ f.site.dst :=
    of_decide_eq_true (List.pairwise_iff_forall_sublist.1 hsorted hef)
  rcases Int.lt_or_eq_of_le hle with hlt | heq
  · exact .inl hlt
  refine .inr ⟨heq, ?_⟩
  have hne : e ≠ f := by
    rintro rfl
    exact absurd (List.pairwise_iff_forall_sublist.1 hplaces hef) (lt_irrefl _)
  have he := hperm.subset (hef.subset (by simp : e ∈ [e, f]))
  have hf := hperm.subset (hef.subset (by simp : f ∈ [e, f]))
  have hdeclared := places_of_perm (.refl (flatten ops))
  rcases Nat.le_total (placeOf (flatten ops) e) (placeOf (flatten ops) f) with hfirst | hfirst
  · exact List.pairwise_iff_forall_sublist.1 (flatten_rises ops)
      ((pair_sublist_iff hdeclared he hf hne).2 hfirst)
  · -- declared the other way round, they would come the other way round
    have hfe := List.pair_sublist_mergeSort htrans htotal (by simpa using heq.symm.le)
      ((pair_sublist_iff hdeclared hf he hne.symm).2 hfirst)
    have h1 := List.pairwise_iff_forall_sublist.1 hplaces hef
    have h2 := List.pairwise_iff_forall_sublist.1 hplaces hfe
    omega

/-- **The order chosen**: by destination if that passes the check, and as declared otherwise. -/
theorem orderEntries_eq_ok : orderEntries entries vectors = .ok order ↔ ∃ free,
    hazardFree entries (byDestination entries) vectors = .ok free ∧
      order = if free = true then byDestination entries else entries := by
  unfold orderEntries
  rw [Outcome.bind_eq_ok]
  simp only [Outcome.pure_eq_ok, eq_comm (b := order)]

theorem orderEntries_perm (h : orderEntries entries vectors = .ok order) : order.Perm entries := by
  obtain ⟨free, -, rfl⟩ := orderEntries_eq_ok.1 h
  split
  · exact byDestination_perm entries
  · exact .refl _

/-- **An order is chosen** for operations on vectors in range: by destination exactly if that keeps
entries that share a vector as declared. -/
theorem orderEntries_ok (hsites : ∀ r ∈ ops, ∀ s ∈ r.sites, s.Below vectors) :
    ∃ order, orderEntries (flatten ops) vectors = .ok order ∧
      (KeepsDeclared ops (byDestination (flatten ops)) → order = byDestination (flatten ops)) ∧
      (¬KeepsDeclared ops (byDestination (flatten ops)) → order = flatten ops) := by
  obtain ⟨free, hfree, hiff⟩ := hazardFree_iff_keeps hsites (byDestination_perm (flatten ops))
  refine ⟨_, orderEntries_eq_ok.2 ⟨free, hfree, rfl⟩, fun h => if_pos (hiff.2 h), fun h => ?_⟩
  exact if_neg (mt hiff.1 h)

/-- Entries that come by destination already keep their order. -/
theorem orderEntries_sorted (hsites : ∀ r ∈ ops, ∀ s ∈ r.sites, s.Below vectors)
    (h : (flatten ops).Pairwise fun a b => a.site.dst ≤ b.site.dst) :
    orderEntries (flatten ops) vectors = .ok (flatten ops) := by
  have hsame : byDestination (flatten ops) = flatten ops :=
    List.mergeSort_of_pairwise (h.imp fun hle => by simpa using hle)
  obtain ⟨order, horder, hkeeps, hdeclared⟩ := orderEntries_ok hsites
  rw [hsame] at hkeeps hdeclared
  obtain rfl : order = flatten ops := (Classical.em _).elim hkeeps hdeclared
  exact horder

/-- **The order chosen ends in the values of the declared order.** -/
theorem orderEntries_run {acc : Scalar} (hon : ∀ r ∈ ops, r.OnVectors vectors vectors)
    (horder : orderEntries (flatten ops) vectors = .ok order) {σ τ : Int → Row}
    (h : Action.run (actionsOf acc ops) σ = .ok τ) :
    Action.run (order.map (Entry.action acc)) σ = .ok τ := by
  rw [← flatten_action] at h
  obtain ⟨free, hfree, rfl⟩ := orderEntries_eq_ok.1 horder
  cases free with
  | false => exact h
  | true =>
    have hperm := byDestination_perm (flatten ops)
    exact Action.run_reorder _ (placeOf _) hperm.symm (places_of_perm hperm)
      (hazardFree_pairwise (below_of_onVectors hon) (source_of_onVectors hon) hperm hfree) h

end Chosen

end Tessera
