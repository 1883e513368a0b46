import Tessera.Proofs.Calling
import Tessera.Proofs.Wrapping

/-!
# Every index once

The indices below a bound are handed out in ranges, one for each worker at most, or one by one, each
drawn from a counter by the worker that calls with it. The length of the ranges is rounded up, so
that there may be fewer ranges than workers and a short one at the end; and workers that find nothing
left have counted on. Either way there is one call for each index, whatever turns the workers take.

* `Workers.Adjoining`: ranges that follow each other without a gap.
* `Workers.CountsOut.adjoining`: the loop that hands out ranges, and how many it hands out.
* `Workers.RangeCalls`, `Workers.IndexCalls`: the calls that are made in all.
* `Workers.CoversOnce`, `Workers.HandsOutOnce`: ranges that cover the indices once, and calls with them.
* `Workers.hands_out_once`: every index is handed out once, either way.
-/

namespace Tessera

namespace Workers

/-- A group that is hired has someone in it. -/
theorem hired_count_pos {processors : Nat} (h : 0 < processors) (wanted : Int) :
    0 < (hired wanted processors).count := by
  unfold hired
  dsimp only
  split <;> omega

/-! ### Ranges -/

/-- Ranges that follow each other without a gap from `lo` up to `hi`, none of them empty. -/
inductive Adjoining : Int → Int → List (Int × Int) → Prop
  | nil {hi : Int} : Adjoining hi hi []
  | cons {lo mid hi : Int} {rs : List (Int × Int)} : lo < mid → Adjoining mid hi rs →
      Adjoining lo hi ((lo, mid) :: rs)

namespace Adjoining

variable {lo hi : Int} {rs : List (Int × Int)}

theorem le (h : Adjoining lo hi rs) : lo ≤ hi := by
  induction h with
  | nil => exact le_rfl
  | cons hlt _ ih => omega

theorem within (h : Adjoining lo hi rs) : ∀ r ∈ rs, lo ≤ r.1 ∧ r.1 < r.2 ∧ r.2 ≤ hi := by
  induction h with
  | nil => exact fun r hr => absurd hr List.not_mem_nil
  | cons hlt hrest ih =>
    refine List.forall_mem_cons.2 ⟨⟨le_rfl, hlt, hrest.le⟩, fun r hr => ?_⟩
    obtain ⟨h1, h2, h3⟩ := ih r hr
    exact ⟨by omega, h2, h3⟩

/-- No index lies in two of the ranges. -/
theorem apart (h : Adjoining lo hi rs) :
    rs.Pairwise fun r s => ∀ i, ¬((r.1 ≤ i ∧ i < r.2) ∧ s.1 ≤ i ∧ i < s.2) := by
  induction h with
  | nil => exact .nil
  | cons hlt hrest ih =>
    refine .cons (fun s hs i hi => ?_) ih
    have := (hrest.within s hs).1
    omega

/-- Each range begins where the one before it ends. -/
theorem joined (h : Adjoining lo hi rs) : rs.IsChain fun r s => r.2 = s.1 := by
  induction h with
  | nil => exact .nil
  | cons hlt hrest ih =>
    cases hrest with
    | nil => exact .singleton _
    | cons => exact .cons_cons rfl ih

/-- The indices in the ranges are those from `lo` up to `hi`. -/
theorem covered (h : Adjoining lo hi rs) (i : Int) :
    (∃ r ∈ rs, r.1 ≤ i ∧ i < r.2) ↔ lo ≤ i ∧ i < hi := by
  induction h with
  | nil =>
    simp only [List.not_mem_nil, false_and, exists_false, false_iff]
    omega
  | cons hlt hrest ih =>
    have hle := hrest.le
    simp only [List.mem_cons, exists_eq_or_imp, ih]
    omega

end Adjoining

/-- **The loop that hands out ranges**, from a multiple of their length on: as long as their length in all
parts is a word the ranges adjoin up to `n`, one for each part that is left at most. -/
theorem CountsOut.adjoining {n chunk parts lo : Int} {rs : List (Int × Int)} (h : CountsOut n chunk lo rs)
    (hchunk : 1 ≤ chunk) (hroom : n ≤ parts * chunk) (hsmall : parts * chunk < 2 ^ 63) {k : Int}
    (hk : 0 ≤ k) (hkp : k ≤ parts) (hlo : lo = k * chunk) :
    Adjoining (min lo n) n rs ∧ (rs.length : Int) ≤ parts - k := by
  induction h generalizing k with
  | @stop lo hle =>
    rw [min_eq_right hle]
    exact ⟨.nil, by simp only [List.length_nil]; omega⟩
  | @next lo rs hlt _ ih =>
    -- there is a part left for the index `lo`, and the next range begins before its end or there
    have hless : k < parts := by
      by_contra hge
      have := Int.mul_le_mul_of_nonneg_right (show parts ≤ k by omega) (show 0 ≤ chunk by omega)
      omega
    have hnext : (k + 1) * chunk ≤ parts * chunk :=
      Int.mul_le_mul_of_nonneg_right (by omega) (by omega)
    have h0 : 0 ≤ k * chunk := Int.mul_nonneg hk (by omega)
    have hsucc : lo + chunk = (k + 1) * chunk := by rw [hlo]; ring
    have hword : wrap64 (lo + chunk) = lo + chunk := wrap64_small (by omega) (by omega)
    obtain ⟨hrest, hlength⟩ := ih (show 0 ≤ k + 1 by omega) (by omega) (hword.trans hsucc)
    rw [hword] at hrest ⊢
    rw [min_eq_left hlt.le]
    refine ⟨.cons (by omega) hrest, ?_⟩
    rw [List.length_cons]
    omega

/-- The loop hands out one list of ranges only. -/
theorem CountsOut.unique {n chunk lo : Int} {rs rs' : List (Int × Int)} (h : CountsOut n chunk lo rs)
    (h' : CountsOut n chunk lo rs') : rs = rs' := by
  induction h generalizing rs' with
  | stop hle =>
    cases h' with
    | stop => rfl
    | next hlt => omega
  | next hlt _ ih =>
    cases h' with
    | stop hle => omega
    | next _ hrest => rw [ih hrest]

theorem HandsOut.unique {w : Option Workers} {n : Int} {rs rs' : List (Int × Int)} (h : HandsOut w n rs)
    (h' : HandsOut w n rs') : rs = rs' := by
  unfold HandsOut at h h'
  split at h
  · rw [if_pos ‹_›] at h'
    rw [h, h']
  · rw [if_neg ‹_›] at h'
    split at h
    · rw [if_pos ‹_›] at h'
      rw [h, h']
    · rw [if_neg ‹_›] at h'
      obtain ⟨chunk, hchunk, hcounts⟩ := h
      obtain ⟨chunk', hchunk', hcounts'⟩ := h'
      obtain rfl := Except.ok.inj (hchunk.symm.trans hchunk')
      exact hcounts.unique hcounts'

/-- **The ranges handed out adjoin**, and there are no more of them than workers. -/
theorem HandsOut.adjoining {w : Option Workers} (hw : ∀ v ∈ w, 0 < v.count) {n : Int}
    (hsmall : n + size w < 2 ^ 63) {rs : List (Int × Int)} (h : HandsOut w n rs) :
    Adjoining 0 (max 0 n) rs ∧ rs.length ≤ size w := by
  have hsize := size_pos hw
  unfold HandsOut at h
  split at h
  · rw [h, max_eq_left ‹_›]
    exact ⟨.nil, Nat.zero_le _⟩
  · rw [max_eq_right (by omega)]
    split at h
    · rw [h]
      refine ⟨.cons (by omega) .nil, ?_⟩
      rw [List.length_singleton]
      omega
    · obtain ⟨chunk, hquotient, hcounts⟩ := h
      obtain ⟨chunk', -, hquotient', hchunk, hroom, hover⟩ :=
        @quotient_chunk n (min (size w : Int) n) (by omega) (by omega) (by omega)
      obtain rfl := Except.ok.inj (hquotient.symm.trans hquotient')
      obtain ⟨hrs, hlength⟩ :=
        hcounts.adjoining hchunk hroom (by omega) le_rfl (by omega) (zero_mul _).symm
      rw [min_eq_left (by omega)] at hrs
      exact ⟨hrs, by omega⟩

/-! ### Calls -/

/-- Workers with a task for each of some ranges, to call with it. -/
def rangePool {σ : Type} (τ : Type) (w : Option Workers) (s : σ) (rs : List (Int × Int)) :
    Pool (σ × List (Int × Int)) (Call (Int × Int) τ) :=
  .start (size w) (s, []) (rs.map .due)

/-- Workers with a task for each of them, or for each index if those are fewer, to draw indices and call
with them. -/
def indexPool {σ : Type} (τ : Type) (w : Option Workers) (s : σ) (n : Int) :
    Pool ((σ × List Int) × Int) (Turn (Call Int τ)) :=
  .start (size w) ((s, []), 0) (List.replicate (min (size w : Int) n).toNat .idle)

variable {σ τ : Type}

/-- The calls with the ranges of the indices below `n`, in their order, when all is done: on the spot
with all indices, or by workers, whatever turns they take. -/
def RangeCalls (f : Callback (Int × Int) σ τ) (s : σ) (w : Option Workers) (n : Int)
    (calls : List (Int × Int)) : Prop :=
  if n ≤ 0 then calls = []
  else if inline w || n == 1 then calls = [(0, n)]
  else ∃ rs m pool, HandsOut w n rs ∧ Pool.Runs f.call (2 * size w) (rangePool τ w s rs) m pool ∧
    pool.returned = true ∧ pool.shared.2 = calls

/-- The calls with the indices below `n`, in their order, when all is done: on the spot one after the
other, or by workers, whatever turns they take. -/
def IndexCalls (f : Callback Int σ τ) (s : σ) (w : Option Workers) (n : Int) (calls : List Int) : Prop :=
  if n ≤ 0 then calls = []
  else if inline w then loopBelow n [] (fun i calls => .ok (calls ++ [i])) = .ok calls
  else ∃ m pool, Pool.Runs (f.loop n) (2 * size w) (indexPool τ w s n) m pool ∧
    pool.returned = true ∧ pool.shared.1.2 = calls

/-- **Ranges that cover the indices below `n` once**: none is empty, no index lies in two, each begins
where the one before it ends, and an index lies in one exactly if it is below `n`. -/
structure CoversOnce (n : Int) (rs : List (Int × Int)) : Prop where
  filled : ∀ r ∈ rs, r.1 < r.2
  apart : rs.Pairwise fun r s => ∀ i, ¬((r.1 ≤ i ∧ i < r.2) ∧ s.1 ≤ i ∧ i < s.2)
  joined : rs.IsChain fun r s => r.2 = s.1
  covered : ∀ i, (∃ r ∈ rs, r.1 ≤ i ∧ i < r.2) ↔ 0 ≤ i ∧ i < n

/-- **Every index is handed out once.** The loop that hands out ranges, counting in words, hands out
`ranges`: they cover the indices below `n` once and are no more than the workers. Calls are made with
them, and calls are made with the indices themselves, each once and no others, whatever turns the
caller and the workers take and whatever the calls do; and all are made if calls return. -/
structure HandsOutOnce (w : Option Workers) (n : Int) : Prop where
  counted : ∀ rs, HandsOut w n rs ↔ rs = ranges w n
  covers : CoversOnce n (ranges w n)
  few : (ranges w n).length ≤ size w
  callsRanges : ∀ {σ τ : Type} (f : Callback (Int × Int) σ τ) (s : σ),
    (∀ calls, RangeCalls f s w n calls → calls.Perm (ranges w n)) ∧
      (f.Returns → ∃ calls, RangeCalls f s w n calls)
  makesRanges : ∀ {σ τ : Type} (f : Callback (Int × Int) σ τ) (s : σ),
    Pool.Makes f.call (2 * size w) (rangePool τ w s (ranges w n)) (·.2) (ranges w n) f.Returns
  callsIndices : ∀ {σ τ : Type} (f : Callback Int σ τ) (s : σ),
    (∀ calls, IndexCalls f s w n calls → (calls.map fun i => (i, i + 1)).Perm (singles n) ∧
      ∀ i, calls.count i = if 0 ≤ i ∧ i < n then 1 else 0) ∧
      (f.Returns → ∃ calls, IndexCalls f s w n calls)
  makesIndices : ∀ {σ τ : Type} (f : Callback Int σ τ) (s : σ),
    Pool.Makes (f.loop n) (2 * size w) (indexPool τ w s n) (·.1.2) (below n) f.Returns

theorem singles_eq (n : Int) : singles n = (below n).map fun i => (i, i + 1) := by
  unfold singles below
  rw [List.map_map]
  rfl

/-- Calls made one after the other on the spot. -/
theorem loopBelow_calls (n : Int) :
    loopBelow n [] (fun i calls => .ok (calls ++ [i])) = .ok (below n) := by
  have hloop : ∃ calls, loopBelow n [] (fun i calls => .ok (calls ++ [i])) = .ok calls ∧
      calls = below n.toNat := by
    refine loopBelow_progress (fun k calls => calls = below k) ?_ rfl
    rintro k calls - rfl
    exact ⟨_, rfl, by rw [Nat.cast_add_one, below_succ (by omega)]⟩
  obtain ⟨calls, hcalls, rfl⟩ := hloop
  rw [hcalls, below_toNat]

variable {w : Option Workers} {n : Int}

theorem ranges_none (h : n ≤ 0) : ranges w n = [] := by
  unfold ranges
  rw [if_pos h]

theorem ranges_one (h : ¬n ≤ 0) (hone : (inline w || n == 1) = true) : ranges w n = [(0, n)] := by
  unfold ranges
  rw [if_neg h, if_pos hone]

/-- **The ranges cover the indices once**, and there are no more of them than workers. -/
theorem ranges_cover_once (hw : ∀ v ∈ w, 0 < v.count) (hsmall : n + size w < 2 ^ 63) :
    (∀ rs, HandsOut w n rs ↔ rs = ranges w n) ∧ CoversOnce n (ranges w n) ∧
      (ranges w n).length ≤ size w := by
  have hranges : HandsOut w n (ranges w n) := ranges_handsOut_of_sum hw (by omega)
  obtain ⟨hadjoin, hfew⟩ := hranges.adjoining hw hsmall
  refine ⟨?_, ⟨?_, hadjoin.apart, hadjoin.joined, ?_⟩, hfew⟩
  · intro rs
    constructor
    · intro h
      exact h.unique hranges
    · rintro rfl
      exact hranges
  · intro r hr
    exact (hadjoin.within r hr).2.1
  · intro i
    rw [hadjoin.covered]
    omega

/-- Workers make a call with each range. -/
theorem makesRanges (hw : ∀ v ∈ w, 0 < v.count) (f : Callback (Int × Int) σ τ) (s : σ) :
    Pool.Makes f.call (2 * size w) (rangePool τ w s (ranges w n)) (·.2) (ranges w n) f.Returns := by
  have hsize := size_pos hw
  exact f.makes_calls s _ (by omega) (by omega)

/-- Workers make a call with each index: they have room to count on when nothing is left. -/
theorem makesIndices (hw : ∀ v ∈ w, 0 < v.count) (hsmall : n + size w < 2 ^ 63)
    (f : Callback Int σ τ) (s : σ) :
    Pool.Makes (f.loop n) (2 * size w) (indexPool τ w s n) (·.1.2) (below n) f.Returns := by
  have hsize := size_pos hw
  exact f.makes_draws s (by omega) (by omega) (by omega) (by omega)

/-- All calls with ranges are those with the ranges of the indices, in any order. -/
theorem RangeCalls.perm (hw : ∀ v ∈ w, 0 < v.count) (hsmall : n + size w < 2 ^ 63)
    {f : Callback (Int × Int) σ τ} {s : σ} {calls : List (Int × Int)} (h : RangeCalls f s w n calls) :
    calls.Perm (ranges w n) := by
  unfold RangeCalls at h
  split at h
  · rw [h, ranges_none ‹_›]
  · split at h
    · rw [h, ranges_one ‹_› ‹_›]
    · obtain ⟨rs, m, pool, hrs, hrun, hback, rfl⟩ := h
      obtain rfl := ((ranges_cover_once hw hsmall).1 rs).1 hrs
      exact (makesRanges hw f s).all m pool hrun hback

/-- If calls return, all calls with ranges are made. -/
theorem exists_rangeCalls (hw : ∀ v ∈ w, 0 < v.count) (hsmall : n + size w < 2 ^ 63)
    {f : Callback (Int × Int) σ τ} (s : σ) (hf : f.Returns) : ∃ calls, RangeCalls f s w n calls := by
  unfold RangeCalls
  split
  · exact ⟨[], rfl⟩
  · split
    · exact ⟨_, rfl⟩
    · obtain ⟨m, pool, hrun, hback⟩ := (makesRanges hw f s).exists_returned hf
      exact ⟨_, _, m, pool, ((ranges_cover_once hw hsmall).1 _).2 rfl, hrun, hback, rfl⟩

/-- All calls with indices are those with the indices below `n`, in any order. -/
theorem IndexCalls.perm (hw : ∀ v ∈ w, 0 < v.count) (hsmall : n + size w < 2 ^ 63)
    {f : Callback Int σ τ} {s : σ} {calls : List Int} (h : IndexCalls f s w n calls) :
    calls.Perm (below n) := by
  unfold IndexCalls at h
  split at h
  · rw [h, ← below_toNat, Int.toNat_of_nonpos ‹_›]
    exact .refl _
  · split at h
    · rw [loopBelow_calls] at h
      rw [Except.ok.inj h]
    · obtain ⟨m, pool, hrun, hback, rfl⟩ := h
      exact (makesIndices hw hsmall f s).all m pool hrun hback

/-- If calls return, all calls with indices are made. -/
theorem exists_indexCalls (hw : ∀ v ∈ w, 0 < v.count) (hsmall : n + size w < 2 ^ 63)
    {f : Callback Int σ τ} (s : σ) (hf : f.Returns) : ∃ calls, IndexCalls f s w n calls := by
  unfold IndexCalls
  split
  · exact ⟨[], rfl⟩
  · split
    · exact ⟨_, loopBelow_calls n⟩
    · obtain ⟨m, pool, hrun, hback⟩ := (makesIndices hw hsmall f s).exists_returned hf
      exact ⟨_, m, pool, hrun, hback, rfl⟩

/-- **Every index is handed out once**, whatever the workers, as long as their number and that of the
indices have a sum that is a word. -/
theorem hands_out_once (hw : ∀ v ∈ w, 0 < v.count) (hsmall : n + size w < 2 ^ 63) :
    HandsOutOnce w n := by
  obtain ⟨hcounted, hcovers, hfew⟩ := ranges_cover_once hw hsmall
  refine ⟨hcounted, hcovers, hfew, ?_, makesRanges hw, ?_, makesIndices hw hsmall⟩
  · intro σ τ f s
    exact ⟨fun calls hcalls => hcalls.perm hw hsmall, exists_rangeCalls hw hsmall s⟩
  · intro σ τ f s
    refine ⟨?_, exists_indexCalls hw hsmall s⟩
    intro calls hcalls
    have hall := hcalls.perm hw hsmall
    constructor
    · rw [singles_eq]
      exact hall.map _
    · intro i
      rw [hall.count_eq, count_below]

/-- Four workers get five indices in three ranges, the last of one index, and are called with each. -/
theorem fourWorkers_once :
    (∀ v ∈ some (hired 4 8), 0 < v.count) ∧ (5 : Int) + size (some (hired 4 8)) < 2 ^ 63 ∧
    HandsOut (some (hired 4 8)) 5 [(0, 2), (2, 4), (4, 5)] ∧
    CoversOnce 5 [(0, 2), (2, 4), (4, 5)] ∧
    (∃ calls, RangeCalls .immediate () (some (hired 4 8)) 5 calls ∧
      calls.Perm [(0, 2), (2, 4), (4, 5)]) ∧
    ∃ calls, IndexCalls .immediate () (some (hired 4 8)) 5 calls ∧ calls.count 4 = 1 ∧
      calls.count 5 = 0 := by
  have hhired : ∀ v ∈ some (hired 4 8), 0 < v.count := by
    rintro v ⟨⟩
    exact hired_count_pos (by decide) 4
  have honce := @hands_out_once _ 5 hhired (by decide)
  have hsplit : ranges (some (hired 4 8)) 5 = [(0, 2), (2, 4), (4, 5)] := by decide
  obtain ⟨hperm, hends⟩ := honce.callsRanges .immediate ()
  obtain ⟨rangeCalls, hrangeCalls⟩ := hends (Callback.immediate_returns _)
  obtain ⟨hcount, hends⟩ := honce.callsIndices .immediate ()
  obtain ⟨indexCalls, hindexCalls⟩ := hends (Callback.immediate_returns _)
  refine ⟨hhired, by decide, (honce.counted _).2 hsplit.symm, ?_, ⟨_, hrangeCalls, ?_⟩,
    _, hindexCalls, (hcount _ hindexCalls).2 4, (hcount _ hindexCalls).2 5⟩
  · rw [← hsplit]
    exact honce.covers
  · rw [← hsplit]
    exact hperm _ hrangeCalls

end Workers

end Tessera
