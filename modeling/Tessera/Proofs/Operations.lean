import Tessera.Proofs.Sequence
import Tessera.Proofs.Shaping

/-!
# The operations of a shaped program

* `Resolved.OnVectors`: an operation writes vectors of the accumulator, and reads
  a second vector exactly if it takes no number.
* `onVectors`: so does every operation of a shaped program.
* `op_eq_of_index`: an operation is known by its number.
* `Shaped.Common.mask_written`: without a product, every vector that holds a result
  is written by some operation.
-/

namespace Tessera

/-- An operation writes vectors below `vectors`; it reads a second vector, below
`total`, exactly if it takes no number, and a number has 16 bits. -/
structure Resolved.OnVectors (r : Resolved) (vectors total : Int) : Prop where
  dst : ∀ s ∈ r.sites, 0 ≤ s.dst ∧ s.dst < vectors
  plain : r.useImm = true → ∀ s ∈ r.sites, s.src = noSource
  src : r.useImm = false → ∀ s ∈ r.sites, 0 ≤ s.src ∧ s.src < total
  imm : -32768 ≤ r.imm ∧ r.imm < 32768

theorem checkVectors_eq_ok {object : String} {vectors : Int} {vs : List Int}
    (h : checkVectors object vectors vs = .ok ()) : ∀ v ∈ vs, 0 ≤ v ∧ v < vectors := by
  induction vs with
  | nil => simp
  | cons v vs ih =>
    unfold checkVectors at h
    split at h
    · simp at h
    · intro u hu
      rcases List.mem_cons.1 hu with rfl | hu
      · omega
      · exact ih h u hu

theorem checkImmediates_eq_ok {entries : List AluEntry}
    (h : Program.checkImmediates entries = .ok ()) {op : AluOp} {imm : Int} {dst : List Int}
    (hmem : AluEntry.immediate op imm dst ∈ entries) : -32768 ≤ imm ∧ imm < 32768 := by
  unfold Program.checkImmediates at h
  rw [List.forM_eq_forM, forM_eq_ok] at h
  obtain ⟨i, hi⟩ := List.getElem?_of_mem hmem
  have := h (.immediate op imm dst, i) (List.mem_zipIdx_iff_getElem?.2 hi)
  simp only at this
  split at this
  · simp at this
  · rename_i hr
    rw [show ((twoTo 15 : Nat) : Int) = 32768 from rfl] at hr
    omega

theorem plainSites_src {dst : List Int} : ∀ s ∈ plainSites dst, s.src = noSource ∧ s.dst ∈ dst := by
  intro s hs
  obtain ⟨d, hd, rfl⟩ := List.mem_map.1 hs
  exact ⟨rfl, hd⟩

/-- One entry of an ALU list, spelled out. -/
theorem entry_onVectors {vectors : Int} {i : Nat} {e : AluEntry} {r : Resolved}
    (himm : ∀ op imm dst, e = .immediate op imm dst → -32768 ≤ imm ∧ imm < 32768)
    (h : e.resolve vectors i = .ok r) :
    r.index = i ∧ r.sites ≠ [] ∧
      (e ≠ .addAccumulators → r.OnVectors vectors vectors) ∧
      (e = .addAccumulators →
        r = ⟨i, "ADD_ACC", .add, false, 0, (below vectors).map fun v => ⟨v, vectors + v⟩⟩) := by
  unfold AluEntry.resolve at h
  have hfinish : ∀ {r' : Resolved},
      (if r'.sites.isEmpty then do Outcome.diagnose r'.object (.shapeMismatch .noVectors); return r'
        else return r' : Outcome Resolved) = .ok r → r' = r ∧ r'.sites ≠ [] := by
    intro r' h
    simp only [Outcome.refused_eq_ok, Outcome.pure_eq_ok] at h
    exact ⟨h.2, by simpa using h.1⟩
  cases e with
  | immediate op imm dst =>
    obtain ⟨⟨⟩, hv, h⟩ := Outcome.bind_eq_ok.1 h
    obtain ⟨rfl, hne⟩ := hfinish h
    refine ⟨rfl, hne, fun _ => ⟨fun s hs => ?_, fun _ s hs => (plainSites_src s hs).1,
      fun hf => by simp at hf, himm op imm dst rfl⟩, fun hf => by cases hf⟩
    exact checkVectors_eq_ok hv _ (plainSites_src s hs).2
  | vector op sites =>
    obtain ⟨⟨⟩, hv, h⟩ := Outcome.bind_eq_ok.1 h
    obtain ⟨rfl, hne⟩ := hfinish h
    have hv := checkVectors_eq_ok hv
    refine ⟨rfl, hne, fun _ => ⟨fun s hs => hv _ ?_, fun hf => by simp at hf,
      fun _ s hs => hv _ ?_, by simp⟩, fun hf => by cases hf⟩
    all_goals exact List.mem_flatMap.2 ⟨s, hs, by simp⟩
  | relu dst =>
    -- with or without a list of vectors, they are checked
    obtain ⟨vs, hv, h⟩ : ∃ vs, checkVectors ((AluEntry.relu dst).object i) vectors vs = .ok () ∧
        (do
          let r ← pure { (⟨i, (AluEntry.relu dst).name, .add, false, 0, []⟩ : Resolved) with
            op := .max, useImm := true, sites := plainSites vs }
          if r.sites.isEmpty then do Outcome.diagnose r.object (.shapeMismatch .noVectors); return r
          else return r : Outcome Resolved) = .ok r := by
      cases dst with
      | some vs =>
        obtain ⟨vs, -, h⟩ := Outcome.bind_eq_ok.1 h
        obtain ⟨⟨⟩, hv, h⟩ := Outcome.bind_eq_ok.1 h
        exact ⟨vs, hv, h⟩
      | none =>
        obtain ⟨vs, -, h⟩ := Outcome.bind_eq_ok.1 h
        obtain ⟨⟨⟩, hv, h⟩ := Outcome.bind_eq_ok.1 h
        exact ⟨vs, hv, h⟩
    obtain ⟨rfl, hne⟩ := hfinish h
    refine ⟨rfl, hne, fun _ => ⟨fun s hs => ?_, fun _ s hs => (plainSites_src s hs).1,
      fun hf => by simp at hf, by simp⟩, fun hf => by cases hf⟩
    exact checkVectors_eq_ok hv _ (plainSites_src s hs).2
  | addAccumulators =>
    obtain ⟨rfl, hne⟩ := hfinish h
    exact ⟨rfl, hne, fun hf => absurd rfl hf, fun _ => rfl⟩

theorem resolve_getElem {entries : List AluEntry} {vectors : Int} {ops : List Resolved}
    (h : resolve entries vectors = .ok ops) {i : Nat} {r : Resolved} (hr : ops[i]? = some r) :
    ∃ e, entries[i]? = some e ∧ e.resolve vectors i = .ok r := by
  unfold resolve at h
  have hall := mapM_eq_ok.1 h
  obtain ⟨hi, hri⟩ := List.getElem?_eq_some_iff.1 hr
  have hlen := hall.length_eq
  have := List.Forall₂.get hall (by omega) hi
  simp only [List.get_eq_getElem, List.getElem_zipIdx, Nat.zero_add, hri] at this
  have hi' : i < entries.length := by
    rw [List.length_zipIdx] at hlen
    omega
  exact ⟨entries[i], List.getElem?_eq_getElem hi', this⟩

namespace Shaped.Common

variable {d : Shaped} {p : Program} {c : Config} {b xr xc : Nat}

theorem op_resolved (h : d.Common p c b xr xc) {i : Nat} {r : Resolved} (hr : d.ops[i]? = some r) :
    ∃ e, p.alu[i]? = some e ∧ r.index = i ∧ r.sites ≠ [] ∧
      (e ≠ .addAccumulators → r.OnVectors (xr * xc * b : Nat) (xr * xc * b : Nat)) ∧
      (e = .addAccumulators → r = ⟨i, "ADD_ACC", .add, false, 0,
        (below (xr * xc * b : Nat)).map fun v => ⟨v, (xr * xc * b : Nat) + v⟩⟩) := by
  obtain ⟨e, he, hres⟩ := resolve_getElem h.ops hr
  refine ⟨e, he, entry_onVectors (fun op imm dst heq => ?_) hres⟩
  exact checkImmediates_eq_ok h.immediates (heq ▸ List.mem_of_getElem? he)

/-- **An operation is known by its number.** -/
theorem op_eq_of_index (h : d.Common p c b xr xc) {r s : Resolved} (hr : r ∈ d.ops) (hs : s ∈ d.ops)
    (heq : r.index = s.index) : r = s := by
  obtain ⟨i, hi⟩ := List.getElem?_of_mem hr
  obtain ⟨j, hj⟩ := List.getElem?_of_mem hs
  obtain ⟨-, -, h1, -⟩ := h.op_resolved hi
  obtain ⟨-, -, h2, -⟩ := h.op_resolved hj
  have : i = j := by omega
  subst this
  rw [hi] at hj
  exact Option.some.inj hj

/-- **Every operation is on vectors of the accumulator**, those of the second one
included for a sum. -/
theorem onVectors (h : d.Common p c b xr xc) {r : Resolved} (hr : r ∈ d.ops) :
    r.OnVectors (xr * xc * b : Nat)
      (if d.form = .add then (xr * xc * b : Nat) + (xr * xc * b : Nat) else (xr * xc * b : Nat)) := by
  obtain ⟨i, hi⟩ := List.getElem?_of_mem hr
  obtain ⟨e, he, -, -, hplain, hadd⟩ := h.op_resolved hi
  by_cases hea : e = .addAccumulators
  · have hform : d.form = .add := by
      rw [h.adds]
      exact List.any_eq_true.2 ⟨e, List.mem_of_getElem? he, by simpa using hea⟩
    rw [if_pos hform, hadd hea]
    refine ⟨fun s hs => ?_, fun hf => by simp at hf, fun _ s hs => ?_, by simp⟩
    all_goals
      obtain ⟨v, hv, rfl⟩ := List.mem_map.1 hs
      have := mem_below.1 hv
      simp only
      omega
  · have := hplain hea
    split
    · exact ⟨this.dst, this.plain, fun hf s hs => by have := this.src hf s hs; omega, this.imm⟩
    · exact this

/-- Without a sum, every operation is on vectors of the one accumulator. -/
theorem onVectors_of_ne (h : d.Common p c b xr xc) (hform : d.form ≠ .add) {r : Resolved}
    (hr : r ∈ d.ops) : r.OnVectors (xr * xc * b : Nat) (xr * xc * b : Nat) := by
  have := h.onVectors hr
  rwa [if_neg hform] at this

/-- The operation of a sum. -/
theorem ops_add (h : d.Common p c b xr xc) (hform : d.form = .add) :
    d.ops = [⟨0, "ADD_ACC", .add, false, 0,
      (below (xr * xc * b : Nat)).map fun v => ⟨v, (xr * xc * b : Nat) + v⟩⟩] := by
  have halu := h.alone (h.adds.1 hform)
  have hlen : d.ops.length = 1 := by
    have hops := h.ops
    unfold resolve at hops
    have := (mapM_eq_ok.1 hops).length_eq
    rw [halu] at this
    simpa using this.symm
  obtain ⟨r, hr⟩ := List.length_eq_one_iff.1 hlen
  obtain ⟨e, he, -, -, -, hadd⟩ := h.op_resolved (i := 0) (r := r) (by rw [hr]; rfl)
  rw [halu] at he
  rw [hr, hadd (by simpa using he.symm)]
  rfl

end Shaped.Common

/-- The time of the last write is set only for vectors that are written. -/
theorem lastUses_write {vectors : Nat} {sites : List Site} {k : Nat}
    (h : (lastUses vectors sites).1.getD k 0 ≠ 0) : ∃ s ∈ sites, s.dst.toNat = k := by
  revert h
  unfold lastUses
  -- along the sites that are left, what is marked was written by a site before
  refine List.foldlRecOn sites _
    (motive := fun uses : Array Nat × Array Nat × Nat =>
      uses.1.getD k 0 ≠ 0 → ∃ s ∈ sites, s.dst.toNat = k) ?_ ?_
  · intro h
    simp only [Array.getD_eq_getD_getElem?, Array.getElem?_replicate] at h
    split at h <;> exact absurd rfl h
  · intro uses ih s hs h
    by_cases hk : s.dst.toNat = k
    · exact ⟨s, hs, hk⟩
    · apply ih
      simpa [Array.getD_eq_getD_getElem?, Array.getElem?_setIfInBounds, hk] using h

theorem mem_resultVectors {form : Form} {vectors : Int} {ops : List Resolved} {v : Int}
    (h : v ∈ resultVectors form vectors ops) :
    (0 ≤ v ∧ v < vectors) ∧
      (form = .gemm ∨ form = .constant ∨ ∃ r ∈ ops, ∃ s ∈ r.sites, s.dst.toNat = v.toNat) := by
  unfold resultVectors at h
  obtain ⟨hb, hf⟩ := List.mem_filter.1 h
  refine ⟨mem_below.1 hb, ?_⟩
  simp only at hf
  split at hf
  · simp only [Bool.or_eq_true, decide_eq_true_eq] at hf
    rcases hf with hf | hf
    · exact Or.inl hf
    · exact Or.inr (Or.inl hf)
  · rename_i hw
    obtain ⟨s, hs, hk⟩ := lastUses_write hw
    obtain ⟨r, hr, hs⟩ := List.mem_flatMap.1 hs
    exact Or.inr (Or.inr ⟨r, hr, s, hs, hk⟩)

theorem nodup_resultVectors (form : Form) (vectors : Int) (ops : List Resolved) :
    (resultVectors form vectors ops).Nodup :=
  (nodup_below vectors).filter _

namespace Shaped.Common

variable {d : Shaped} {p : Program} {c : Config} {b xr xc : Nat}

/-- The vectors that hold results are vectors of the accumulator. -/
theorem mask_range (h : d.Common p c b xr xc) {v : Int} (hv : v ∈ d.storeMask) :
    0 ≤ v ∧ v < (xr * xc * b : Nat) := by
  rw [h.mask] at hv
  exact (mem_resultVectors hv).1

/-- **Without a product, every vector that holds a result is written.** -/
theorem mask_written (h : d.Common p c b xr xc) (hform : d.form = .alu ∨ d.form = .add) {v : Int}
    (hv : v ∈ d.storeMask) : ∃ r ∈ d.ops, ∃ s ∈ r.sites, s.dst = v := by
  rw [h.mask] at hv
  obtain ⟨hr, hw⟩ := mem_resultVectors hv
  rcases hw with hw | hw | ⟨r, hrm, s, hs, hk⟩
  · rcases hform with hf | hf <;> rw [hf] at hw <;> cases hw
  · rcases hform with hf | hf <;> rw [hf] at hw <;> cases hw
  · have := (h.onVectors hrm).dst s hs
    exact ⟨r, hrm, s, hs, by omega⟩

end Shaped.Common

end Tessera
