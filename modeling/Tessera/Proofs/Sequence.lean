import Mathlib.Data.List.Nodup
import Mathlib.Data.List.Range
import Mathlib.Tactic.Linarith
import Mathlib.Tactic.Ring
import Tessera.Proofs.Outcome
import Tessera.Schedule.Planner

/-!
# Numbers in order, and in pieces

Schedules number blocks from zero, cut the numbers into pieces for a buffer, and
name a block again by its place among the residents.

* `flatten_chunks`, `chunksFrom_forall`: the pieces of a list make it up, and what holds of each.
* `strides_band`: the bands of a stride cover the numbers below its limit, each
  once.
* `below_mul`: numbers below a product, row by row.
* `nodup_flatMap_of`: a list made of parts that share no element.
* `flatMap_single`: a list made of parts of which only one is not empty.
* `chunks_one`: a list that fits is one piece.
-/

namespace Tessera

variable {α β : Type}

theorem chunksFrom_flatten (n : Nat) (done : List (List α)) (current : List α) (room : Nat)
    (xs : List α) :
    (chunksFrom n done current room xs).flatten = done.reverse.flatten ++ current.reverse ++ xs := by
  induction xs generalizing done current room with
  | nil =>
    rw [chunksFrom]
    cases current with
    | nil => simp
    | cons c cs => simp
  | cons x xs ih =>
    cases room with
    | zero => rw [chunksFrom, ih]; simp
    | succ room => rw [chunksFrom, ih]; simp

/-- The pieces of a list make it up. -/
theorem flatten_chunks (n : Nat) (xs : List α) : (chunks n xs).flatten = xs := by
  rw [chunks, chunksFrom_flatten]; simp

/-- What holds of every piece, from what the piece in work keeps (`I`) as it grows from one
element on. -/
theorem chunksFrom_forall {n : Nat} {P : List α → Prop} {I : List α → Nat → Prop}
    (hfirst : ∀ x, I [x] (n - 1))
    (hgrow : ∀ x current room, I current (room + 1) → I (x :: current) room)
    (hpiece : ∀ current room, I current room → room = 0 ∨ current ≠ [] → P current.reverse)
    {done : List (List α)} {current : List α} {room : Nat} {xs : List α} (hdone : ∀ p ∈ done, P p)
    (hinv : I current room) : ∀ p ∈ chunksFrom n done current room xs, P p := by
  induction xs generalizing done current room with
  | nil =>
    intro p hp
    rw [chunksFrom, List.mem_reverse] at hp
    split at hp
    · exact hdone p hp
    · rename_i hsome
      rcases List.mem_cons.1 hp with rfl | hp
      · exact hpiece current room hinv (Or.inr fun hnil => hsome (List.isEmpty_iff.2 hnil))
      · exact hdone p hp
  | cons x xs ih =>
    cases room with
    | zero =>
      rw [chunksFrom]
      refine ih (fun p hp => ?_) (hfirst x)
      rcases List.mem_cons.1 hp with rfl | hp
      · exact hpiece current 0 hinv (Or.inl rfl)
      · exact hdone p hp
    | succ room =>
      rw [chunksFrom]
      exact ih hdone (hgrow x current room hinv)

/-- No piece is empty. -/
theorem chunks_ne_nil {n : Nat} (hn : 0 < n) (xs : List α) : ∀ p ∈ chunks n xs, p ≠ [] := by
  refine chunksFrom_forall (I := fun current room => room = 0 → current ≠ [])
    (fun x _ => List.cons_ne_nil _ _) (fun x current room _ _ => List.cons_ne_nil _ _)
    (fun current room hinv hsome => ?_) (fun p hp => absurd hp List.not_mem_nil) (by omega)
  exact List.reverse_ne_nil_iff.2 (hsome.elim hinv id)

/-- No piece is longer than was asked for. -/
theorem chunks_length_le {n : Nat} (hn : 0 < n) (xs : List α) :
    ∀ p ∈ chunks n xs, p.length ≤ n := by
  refine chunksFrom_forall (I := fun current room => current.length + room ≤ n)
    (fun x => ?_) (fun x current room hinv => ?_) (fun current room hinv _ => ?_)
    (fun p hp => absurd hp List.not_mem_nil) (by simp)
  · rw [List.length_singleton]
    omega
  · rw [List.length_cons]
    omega
  · rw [List.length_reverse]
    omega

theorem pieces_eq_ok {size : Int} {xs : List Int} {ps : List (List Int)} :
    pieces size xs = .ok ps ↔ 0 < size ∧ ps = chunks size.toNat xs := by
  unfold pieces
  by_cases h : size ≤ 0
  · simp [h]
  · simp only [h, if_false, Except.ok.injEq]
    constructor
    · intro hp; exact ⟨by omega, hp.symm⟩
    · intro hp; exact hp.2.symm

/-- What `f` finds in a list is what it finds at one place and at the others. -/
theorem filterMap_middle (f : α → Option β) (before after : List α) (x : α) :
    ((before ++ x :: after).filterMap f).Perm ((f x).toList ++ (before ++ after).filterMap f) := by
  refine (List.perm_middle.filterMap f).trans ?_
  rw [List.filterMap_cons]
  cases f x <;> exact .refl _

theorem mem_below {n v : Int} : v ∈ below n ↔ 0 ≤ v ∧ v < n := by
  simp only [below, List.mem_map, List.mem_range]
  constructor
  · rintro ⟨k, hk, rfl⟩; simp only [Int.ofNat_eq_natCast]; omega
  · intro h; exact ⟨v.toNat, by omega, by simp only [Int.ofNat_eq_natCast]; omega⟩

theorem nodup_below (n : Int) : (below n).Nodup :=
  List.Nodup.map (fun a b h => by simpa using h) List.nodup_range

/-- An index is once among those below `n`, or not at all. -/
theorem count_below (n i : Int) : (below n).count i = if 0 ≤ i ∧ i < n then 1 else 0 := by
  rw [(nodup_below n).count]
  simp only [mem_below]

theorem length_below (n : Int) : (below n).length = n.toNat := by simp [below]

theorem below_toNat (n : Int) : below n.toNat = below n := by
  unfold below
  rw [Int.toNat_natCast]

theorem consecutive_eq {n : Int} (start : Int) (hn : 0 ≤ n) :
    consecutive start n = (below n).map (start + ·) := by
  unfold consecutive below
  rw [List.map_map, show n.natAbs = n.toNat by omega]
  apply List.map_congr_left
  intro k _
  rw [if_pos hn]
  rfl

theorem consecutive_zero {n : Int} (hn : 0 ≤ n) : consecutive 0 n = below n := by
  rw [consecutive_eq 0 hn]
  simp

theorem below_succ {n : Int} (hn : 0 ≤ n) : below (n + 1) = below n ++ [n] := by
  unfold below
  rw [show (n + 1).toNat = n.toNat + 1 by omega, List.range_succ, List.map_append]
  simp [Int.toNat_of_nonneg hn]

theorem below_add {m n : Int} (hm : 0 ≤ m) (hn : 0 ≤ n) :
    below (m + n) = below m ++ (below n).map (m + ·) := by
  unfold below
  rw [Int.toNat_add hm hn, List.range_add, List.map_append, List.map_map, List.map_map]
  congr 1
  apply List.map_congr_left
  intro k _
  simp only [Function.comp_apply, Int.ofNat_eq_natCast]
  omega

/-- The numbers below a product, row by row. -/
theorem below_mul {m n : Int} (hm : 0 ≤ m) (hn : 0 ≤ n) :
    below (m * n) = (below m).flatMap fun i => (below n).map fun k => i * n + k := by
  obtain ⟨m, rfl⟩ := Int.eq_ofNat_of_zero_le hm
  induction m with
  | zero => simp [below]
  | succ m ih =>
    have hmn : (0 : Int) ≤ m * n := Int.mul_nonneg (by omega) hn
    rw [show ((m + 1 : Nat) : Int) * n = m * n + n by push_cast; ring, below_add hmn hn,
      ih (by omega), show ((m + 1 : Nat) : Int) = (m : Int) + 1 by push_cast; ring,
      below_succ (by omega), List.flatMap_append]
    simp

/-- The bands of a stride: from each start as many numbers as its step, fewer at
the end. -/
theorem strides_band {limit step : Int} {starts : List Int} (h : strides limit step = .ok starts)
    (hl : 0 ≤ limit) :
    (starts.map fun i => consecutive i (min step (limit - i))).flatten = below limit := by
  unfold strides at h
  by_cases h0 : limit ≤ 0
  · rw [if_pos h0] at h
    cases h
    have : limit = 0 := by omega
    subst this; rfl
  rw [if_neg h0] at h
  by_cases hs : step ≤ 0
  · rw [if_pos hs] at h
    obtain ⟨-, -, h⟩ := Outcome.bind_eq_ok.1 h
    cases h
  rw [if_neg hs] at h
  cases h
  -- the first `k` bands make up the numbers below `k` steps, as far as the limit
  have key : ∀ k : Nat, k ≤ ((limit + step - 1) / step).toNat →
      (((List.range k).map fun (k : Nat) => (k : Int) * step).map
        fun i => consecutive i (min step (limit - i))).flatten = below (min (k * step) limit) := by
    intro k hk
    induction k with
    | zero => simp [below, hl]
    | succ k ih =>
      have hlt : (k : Int) * step < limit := by
        have h1 : (k : Int) + 1 ≤ (limit + step - 1) / step := by omega
        have h2 := (Int.le_ediv_iff_mul_le (by omega)).1 h1
        linarith [add_mul (k : Int) 1 step]
      rw [List.range_succ, List.map_append, List.map_append, List.flatten_append, ih (by omega)]
      simp only [List.map_cons, List.map_nil, List.flatten_cons, List.flatten_nil, List.append_nil]
      have hks : (0 : Int) ≤ k * step := Int.mul_nonneg (by omega) (by omega)
      rw [Int.min_eq_left hlt.le, consecutive_eq _ (by omega), ← below_add hks (by omega)]
      congr 1
      push_cast
      rw [add_mul]
      omega
  have hend := key _ le_rfl
  rw [hend]
  congr 1
  have h1 : 0 ≤ (limit + step - 1) / step := Int.ediv_nonneg (by omega) (by omega)
  have h2 : limit ≤ (limit + step - 1) / step * step := by
    have := Int.lt_ediv_add_one_mul_self (limit + step - 1) (show 0 < step by omega)
    rw [add_mul] at this
    omega
  rw [Int.toNat_of_nonneg h1]
  omega

/-- A list made of parts has no repeats if no part has and no two parts share an
element. -/
theorem nodup_flatMap_of {f : α → List β} {xs : List α} (hf : ∀ x ∈ xs, (f x).Nodup)
    (hxs : xs.Pairwise fun x y => ∀ b, b ∈ f x → b ∉ f y) : (xs.flatMap f).Nodup := by
  rw [List.nodup_flatMap]
  exact ⟨hf, hxs.imp fun {x y} h b hb hb' => h b hb hb'⟩

/-- A list made of parts of which only one is not empty. -/
theorem flatMap_single {f : α → List β} {xs : List α} (hxs : xs.Nodup) {x : α} (hx : x ∈ xs)
    (hf : ∀ y ∈ xs, y ≠ x → f y = []) : xs.flatMap f = f x := by
  induction xs with
  | nil => cases hx
  | cons y ys ih =>
    obtain ⟨hy, hys⟩ := List.nodup_cons.1 hxs
    rw [List.flatMap_cons]
    by_cases hyx : y = x
    · subst hyx
      have : ys.flatMap f = [] := by
        rw [List.flatMap_eq_nil_iff]
        intro z hz
        exact hf z (List.mem_cons_of_mem _ hz) fun h => hy (h ▸ hz)
      rw [this, List.append_nil]
    · rw [hf y List.mem_cons_self hyx, List.nil_append]
      refine ih hys ?_ fun z hz => hf z (List.mem_cons_of_mem _ hz)
      rcases List.mem_cons.1 hx with h | h
      · exact absurd h.symm hyx
      · exact h

theorem chunksFrom_room (n : Nat) (done : List (List α)) (current : List α) (room : Nat)
    (xs : List α) (hroom : xs.length ≤ room) (hne : current.reverse ++ xs ≠ []) :
    chunksFrom n done current room xs = done.reverse ++ [current.reverse ++ xs] := by
  induction xs generalizing current room with
  | nil =>
    rw [chunksFrom]
    cases current with
    | nil => simp at hne
    | cons c cs => simp
  | cons x xs ih =>
    cases room with
    | zero => simp at hroom
    | succ room =>
      rw [chunksFrom, ih (x :: current) room (by simpa using hroom) (by simp)]
      simp

/-- A list that fits is one piece. -/
theorem chunks_one {n : Nat} {xs : List α} (hlen : xs.length ≤ n) (hne : xs ≠ []) :
    chunks n xs = [xs] := by
  rw [chunks, chunksFrom_room n [] [] n xs hlen (by simpa using hne)]
  simp

/-- Row and column of an entry, as its quotient and its remainder. -/
theorem row_col_ediv {i j n : Int} (hj : 0 ≤ j) (hj' : j < n) :
    (i * n + j) / n = i ∧ (i * n + j) % n = j := by
  rw [Int.add_comm, Int.add_mul_ediv_right _ _ (by omega), Int.ediv_eq_zero_of_lt hj hj',
    Int.zero_add, Int.add_mul_emod_self_right, Int.emod_eq_of_lt hj hj']
  exact ⟨rfl, rfl⟩

/-- The entry of a list made of equal parts, by row and column. -/
theorem row_col_unique {i i' j j' n : Int} (hj : 0 ≤ j) (hj' : j < n) (hk : 0 ≤ j') (hk' : j' < n)
    (h : i * n + j = i' * n + j') : i = i' ∧ j = j' := by
  obtain ⟨h1, h2⟩ := row_col_ediv (i := i) hj hj'
  obtain ⟨h3, h4⟩ := row_col_ediv (i := i') hk hk'
  rw [h] at h1 h2
  exact ⟨h1.symm.trans h3, h2.symm.trans h4⟩

/-- The number of a cell of a grid is below the number of its cells. -/
theorem cell_range {m n i j : Int} (hi : 0 ≤ i ∧ i < m) (hj : 0 ≤ j ∧ j < n) :
    0 ≤ i * n + j ∧ i * n + j < m * n := by
  rw [← mem_below, below_mul (by omega) (by omega)]
  exact List.mem_flatMap.2 ⟨i, mem_below.2 hi, List.mem_map.2 ⟨j, mem_below.2 hj, rfl⟩⟩

/-- Row and column of an entry, as the quotient and the remainder that the code
computes. -/
theorem row_col_tdiv {i j n : Int} (hi : 0 ≤ i) (hj : 0 ≤ j) (hj' : j < n) :
    (i * n + j).tdiv n = i ∧ (i * n + j).tmod n = j := by
  have h0 : 0 ≤ i * n + j := by
    have := Int.mul_nonneg hi (show 0 ≤ n by omega)
    omega
  rw [Int.tdiv_eq_ediv_of_nonneg h0, Int.tmod_eq_emod_of_nonneg h0]
  exact row_col_ediv hj hj'

/-- An element of a list without repeats has one place in it. -/
theorem nodup_place {xs : List α} (hxs : xs.Nodup) {x : α} (hx : x ∈ xs) :
    ∃ place : Nat, ∀ m, xs[m]? = some x ↔ m = place := by
  obtain ⟨place, hp⟩ := List.getElem?_of_mem hx
  refine ⟨place, fun m => ⟨fun hm => ?_, fun hm => hm ▸ hp⟩⟩
  obtain ⟨h1, h2⟩ := List.getElem?_eq_some_iff.1 hm
  obtain ⟨h3, h4⟩ := List.getElem?_eq_some_iff.1 hp
  exact (List.Nodup.getElem_inj_iff hxs).1 (h2.trans h4.symm)

/-- The pieces of the numbers below a bound hold such numbers, each once. -/
theorem piece_of_below {n : Int} {slices : List (List Int)} (h : slices.flatten = below n)
    {ks : List Int} (hks : ks ∈ slices) : (∀ k ∈ ks, 0 ≤ k ∧ k < n) ∧ ks.Nodup := by
  constructor
  · intro k hk
    exact mem_below.1 (h ▸ List.mem_flatten.2 ⟨ks, hks, hk⟩)
  · exact (List.nodup_flatten.1 (h ▸ nodup_below n)).1 ks hks

/-- A list made part by part, with something more after the last part. -/
theorem flatMap_zipIdx_last (f : α → List β) (t : List β) {xs : List α} (hne : xs ≠ []) :
    (xs.zipIdx.flatMap fun q => f q.1 ++ if q.2 + 1 = xs.length then t else []) =
      xs.flatMap f ++ t := by
  obtain ⟨init, x, rfl⟩ : ∃ init x, xs = init ++ [x] :=
    ⟨xs.dropLast, xs.getLast hne, (List.dropLast_append_getLast hne).symm⟩
  rw [List.zipIdx_append, List.flatMap_append, List.flatMap_append]
  have hinit : (init.zipIdx.flatMap fun q =>
      f q.1 ++ if q.2 + 1 = (init ++ [x]).length then t else []) = init.flatMap f := by
    calc _ = init.zipIdx.flatMap fun q => f q.1 := by
          apply List.flatMap_congr
          intro q hq
          have := List.snd_lt_of_mem_zipIdx hq
          rw [if_neg (by simp; omega), List.append_nil]
      _ = (init.zipIdx.map Prod.fst).flatMap f := by rw [List.flatMap_map]
      _ = init.flatMap f := by rw [List.zipIdx_map_fst]
  rw [hinit]
  simp

theorem chunksFrom_full {n : Nat} {done : List (List α)} {current : List α} {room : Nat}
    {xs : List α} (hd : ∀ p ∈ done, p.length = n) (hc : current.length + room = n) (hn : 0 < n) :
    ∀ p ∈ (chunksFrom n done current room xs).dropLast, p.length = n := by
  induction xs generalizing done current room with
  | nil =>
    intro p hp
    rw [chunksFrom] at hp
    cases current with
    | nil => exact hd p (by simpa using List.dropLast_subset _ hp)
    | cons c cs => exact hd p (by simpa using hp)
  | cons x xs ih =>
    cases room with
    | zero =>
      rw [chunksFrom]
      refine ih (fun p hp => ?_) (by simp; omega)
      rcases List.mem_cons.1 hp with rfl | hp
      · rw [List.length_reverse]; omega
      · exact hd p hp
    | succ room =>
      rw [chunksFrom]
      exact ih hd (by rw [List.length_cons]; omega)

/-- All pieces but the last are full. -/
theorem chunks_full {n : Nat} (hn : 0 < n) (xs : List α) :
    ∀ p ∈ (chunks n xs).dropLast, p.length = n :=
  chunksFrom_full (by simp) (by simp) hn

/-- The position of an entry, found from the front. -/
theorem getElem?_of_idxOf? [DecidableEq α] {xs : List α} {x : α} {i : Nat}
    (h : xs.idxOf? x = some i) : xs[i]? = some x := by
  obtain ⟨hi, hx, -⟩ := List.idxOf?_eq_some_iff.1 h
  rw [List.getElem?_eq_getElem hi, hx]

theorem idxOf?_lt [DecidableEq α] {xs : List α} {x : α} {i : Nat} (h : xs.idxOf? x = some i) :
    i < xs.length :=
  (List.getElem?_eq_some_iff.1 (getElem?_of_idxOf? h)).1

theorem mem_of_idxOf? [DecidableEq α] {xs : List α} {x : α} {i : Nat} (h : xs.idxOf? x = some i) :
    x ∈ xs :=
  List.mem_of_getElem? (getElem?_of_idxOf? h)

/-- What stands in a list is found there. -/
theorem exists_idxOf? [DecidableEq α] {xs : List α} {x : α} (h : x ∈ xs) :
    ∃ i, xs.idxOf? x = some i :=
  Option.isSome_iff_exists.1 (List.isSome_idxOf?.2 h)

/-- An entry that stands at one position only is found there. -/
theorem idxOf?_of_unique [DecidableEq α] {xs : List α} {x : α} {i : Nat} (h : xs[i]? = some x)
    (hunique : ∀ j, xs[j]? = some x → j = i) : xs.idxOf? x = some i := by
  obtain ⟨hi, hx⟩ := List.getElem?_eq_some_iff.1 h
  refine List.idxOf?_eq_some_iff.2 ⟨hi, hx, fun j hj heq => ?_⟩
  have := hunique j (by rw [List.getElem?_eq_getElem (Nat.lt_trans hj hi), heq])
  omega

end Tessera
