import Tessera.Hardware.Config
import Tessera.Matrix.Basic
import Tessera.Proofs.Table

/-!
# What a valid configuration fixes

* `Scalar.width`: the bytes of a supported scalar type; its bounds, its bytes and
  the bits it keeps are those of that many bytes.
* `Scalar.wrapped`, `Scalar.narrowed`: what `wrap` and `narrow` make of a number
  in a supported type, where they cannot fail.
* `Config.Sound`: the widths are supported and a block has `b` rows, `b ≤ 64`.
* `Capacities.Within`: the scratchpads hold a block each, and what a
  micro-operation can address at most.
* `Config.validate_sound`: every valid configuration is sound.
-/

namespace Tessera

namespace Scalar

/-- The bytes of a supported scalar type. -/
def width (s : Scalar) : Nat := 2 ^ (s.logWidth - 3).toNat

/-- What `wrap` makes of a number. -/
def wrapped (s : Scalar) (v : Int) : Int := v.bmod (2 ^ (8 * s.width))

/-- What `narrow` makes of a number. -/
def narrowed (s : Scalar) (clip : Bool) (v : Int) : Int :=
  if clip then
    if v < -2 ^ (8 * s.width - 1) then -2 ^ (8 * s.width - 1)
    else if 2 ^ (8 * s.width - 1) - 1 < v then 2 ^ (8 * s.width - 1) - 1 else v
  else s.wrapped v

variable {s : Scalar}

theorem Supported.cases (h : s.Supported) :
    s = ⟨3⟩ ∧ s.width = 1 ∨ s = ⟨4⟩ ∧ s.width = 2 ∨ s = ⟨5⟩ ∧ s.width = 4 := by
  obtain ⟨n⟩ := s
  have h1 : 3 ≤ n := h.1
  have h2 : n ≤ 5 := h.2
  have : n = 3 ∨ n = 4 ∨ n = 5 := by omega
  rcases this with rfl | rfl | rfl
  · exact Or.inl ⟨rfl, rfl⟩
  · exact Or.inr (Or.inl ⟨rfl, rfl⟩)
  · exact Or.inr (Or.inr ⟨rfl, rfl⟩)

theorem Supported.width_pos (h : s.Supported) : 1 ≤ s.width ∧ s.width ≤ 4 := by
  rcases h.cases with ⟨-, hw⟩ | ⟨-, hw⟩ | ⟨-, hw⟩ <;> omega

theorem Supported.bytes (h : s.Supported) : s.bytes = .ok (s.width : Int) := by
  rcases h.cases with ⟨rfl, -⟩ | ⟨rfl, -⟩ | ⟨rfl, -⟩ <;> rfl

theorem Supported.keptBits (h : s.Supported) : s.keptBits = .ok (8 * s.width) := by
  rcases h.cases with ⟨rfl, -⟩ | ⟨rfl, -⟩ | ⟨rfl, -⟩ <;> rfl

theorem Supported.min (h : s.Supported) : s.min = .ok (-2 ^ (8 * s.width - 1)) := by
  rcases h.cases with ⟨rfl, -⟩ | ⟨rfl, -⟩ | ⟨rfl, -⟩ <;> rfl

theorem Supported.max (h : s.Supported) : s.max = .ok (2 ^ (8 * s.width - 1) - 1) := by
  rcases h.cases with ⟨rfl, -⟩ | ⟨rfl, -⟩ | ⟨rfl, -⟩ <;> rfl

theorem Supported.bytesOf (h : s.Supported) (v : Int) : s.bytesOf v = littleEndian s.width v := by
  rcases h.cases with ⟨rfl, hw⟩ | ⟨rfl, hw⟩ | ⟨rfl, hw⟩ <;> rw [hw] <;> rfl

theorem Supported.wrap (h : s.Supported) (v : Int) : s.wrap v = .ok (s.wrapped v) := by
  unfold Scalar.wrap
  rw [h.keptBits]
  rfl

theorem Supported.narrow (h : s.Supported) (v : Int) (clip : Bool) :
    s.narrow v clip = .ok (s.narrowed clip v) := by
  cases clip with
  | false => exact h.wrap v
  | true =>
    simp only [Scalar.narrow, Scalar.clip, h.min, h.max, Outcome.ok_bind, narrowed, if_true]
    split
    · rfl
    · split <;> rfl

theorem Supported.wrapAll (h : s.Supported) (xs : Array Int) :
    s.wrapAll xs = .ok (xs.map s.wrapped) := by
  unfold Scalar.wrapAll
  rw [h.keptBits]
  split
  · rename_i he
    rw [Array.isEmpty_iff.1 he, Array.map_empty]
  · rfl

theorem Supported.narrowAll (h : s.Supported) (xs : Array Int) (clip : Bool) :
    s.narrowAll xs clip = .ok (xs.map (s.narrowed clip)) := by
  cases clip with
  | false => exact h.wrapAll xs
  | true =>
    simp only [Scalar.narrowAll, Scalar.clipAll, h.min, h.max, Outcome.ok_bind, if_true]
    split
    · rename_i he
      rw [Array.isEmpty_iff.1 he, Array.map_empty]
    · rfl

theorem Supported.contains (h : s.Supported) (v : Int) :
    s.contains v = .ok true ↔ -2 ^ (8 * s.width - 1) ≤ v ∧ v < 2 ^ (8 * s.width - 1) := by
  simp only [Scalar.contains, h.min, h.max, Outcome.ok_bind]
  split
  · rename_i hlt
    simp only [Outcome.pure_eq_ok, Bool.false_eq_true, false_iff]
    omega
  · rename_i hge
    simp only [Outcome.pure_eq_ok, decide_eq_true_eq]
    omega

/-- A number of the type is its own wrapped form. -/
theorem wrapped_of_contains (h : s.Supported) {v : Int} (hv : s.contains v = .ok true) :
    s.wrapped v = v := by
  rw [h.contains] at hv
  unfold wrapped
  rcases h.cases with ⟨-, hw⟩ | ⟨-, hw⟩ | ⟨-, hw⟩ <;> rw [hw] at hv ⊢ <;> norm_num at hv ⊢ <;>
    exact Int.bmod_eq_of_le (by omega) (by omega)

theorem narrowed_zero (h : s.Supported) (clip : Bool) : s.narrowed clip 0 = 0 := by
  rcases h.cases with ⟨rfl, -⟩ | ⟨rfl, -⟩ | ⟨rfl, -⟩ <;> cases clip <;> rfl

theorem wrapped_wrapped_add (s : Scalar) (u v : Int) :
    s.wrapped (s.wrapped u + v) = s.wrapped (u + v) := by
  simp [wrapped]

end Scalar

/-- What a valid configuration fixes: supported widths, and blocks of side `b`. -/
structure Config.Sound (c : Config) (b : Nat) : Prop where
  inp : c.inp.Supported
  wgt : c.wgt.Supported
  acc : c.acc.Supported
  block : c.block = .ok (b : Int)
  pos : 1 ≤ b
  le : b ≤ 64

theorem Config.Sound.out {c : Config} {b : Nat} (h : c.Sound b) : c.out.Supported := h.inp

/-- The scratchpads hold at least one unit each, and no more rows and weight
blocks than a micro-operation can address. -/
structure Capacities.Within (caps : Capacities) (b : Nat) : Prop where
  inp_pos : 1 ≤ caps.inp
  wgt_pos : 1 ≤ caps.wgt
  acc_pos : 1 ≤ caps.acc
  uop_pos : 1 ≤ caps.uop
  out : caps.out = caps.acc
  inp_rows : caps.inp * b ≤ 2048
  acc_rows : caps.acc * b ≤ 2048
  wgt_le : caps.wgt ≤ 1024

theorem Capacities.Within.small {caps : Capacities} {b : Nat} (h : caps.Within b) (hb : 1 ≤ b) :
    (1 ≤ caps.inp ∧ caps.inp ≤ 2048) ∧ (1 ≤ caps.wgt ∧ caps.wgt ≤ 1024) ∧
      (1 ≤ caps.acc ∧ caps.acc ≤ 2048) := by
  have hle : ∀ n : Int, 1 ≤ n → n * b ≤ 2048 → n ≤ 2048 := fun n hn hrows =>
    le_trans (le_mul_of_one_le_right (by omega) (by omega)) hrows
  exact ⟨⟨h.inp_pos, hle _ h.inp_pos h.inp_rows⟩, ⟨h.wgt_pos, h.wgt_le⟩,
    ⟨h.acc_pos, hle _ h.acc_pos h.acc_rows⟩⟩

theorem Scalar.supported_of_ofLog {object : String} {n : Int} {s : Scalar}
    (h : Scalar.ofLog object n = .ok s) : Scalar.Supported ⟨n⟩ := by
  unfold Scalar.ofLog at h
  split at h
  · simp at h
  · rename_i hn
    exact ⟨show 3 ≤ n by omega, show n ≤ 5 by omega⟩

theorem shiftOne_block {n : Int} (h0 : 0 ≤ n) (h6 : n ≤ 6) :
    ∃ b : Nat, shiftOne n = .ok (b : Int) ∧ 1 ≤ b ∧ b ≤ 64 := by
  have : n = 0 ∨ n = 1 ∨ n = 2 ∨ n = 3 ∨ n = 4 ∨ n = 5 ∨ n = 6 := by omega
  rcases this with rfl | rfl | rfl | rfl | rfl | rfl | rfl
  exacts [⟨1, rfl, by decide⟩, ⟨2, rfl, by decide⟩, ⟨4, rfl, by decide⟩, ⟨8, rfl, by decide⟩,
    ⟨16, rfl, by decide⟩, ⟨32, rfl, by decide⟩, ⟨64, rfl, by decide⟩]

/-- **Every valid configuration is sound**, and its scratchpads can be addressed. -/
theorem Config.validate_sound {c : Config} (h : c.validate = .ok ()) :
    ∃ b, c.Sound b ∧ ∃ caps, c.schedulingCapacities = .ok caps ∧ caps.Within b := by
  unfold Config.validate at h
  obtain ⟨si, hi, h⟩ := Outcome.bind_eq_ok.1 h
  obtain ⟨sw, hw, h⟩ := Outcome.bind_eq_ok.1 h
  obtain ⟨sa, ha, h⟩ := Outcome.bind_eq_ok.1 h
  simp only [Outcome.refused_eq_ok] at h
  obtain ⟨hblock, h⟩ := h
  obtain ⟨caps, hcaps, h⟩ := Outcome.bind_eq_ok.1 h
  obtain ⟨b, hb, h1, h64⟩ := shiftOne_block (n := c.logBlock) (by omega) (by omega)
  have hfit : ¬(caps.inp < 1 ∨ caps.wgt < 1 ∨ caps.acc < 1 ∨ caps.uop < 1) := by
    intro hbad
    rw [if_pos hbad] at h
    simp at h
  refine ⟨b, ⟨Scalar.supported_of_ofLog hi, Scalar.supported_of_ofLog hw, Scalar.supported_of_ofLog ha, hb, h1, h64⟩,
    caps, hcaps, ?_⟩
  -- the capacities are cut to what a micro-operation addresses
  unfold Config.schedulingCapacities Config.capacities at hcaps
  simp only [Outcome.bind_eq_ok, Outcome.pure_eq_ok] at hcaps
  obtain ⟨_, ⟨_, -, _, -, _, -, acc, -, _, -, _, -, inp, -, _, -, _, -, wgt, -, _, -, uop, -, rfl⟩,
    side, hside, rows, hrows, rfl⟩ := hcaps
  have hb' : c.block = .ok (b : Int) := hb
  rw [hb'] at hside
  obtain rfl := Except.ok.inj hside
  rw [show ((twoTo MicroOp.rowBits : Nat) : Int) = 2048 from rfl,
    quotient_small (by omega) (by omega) (by omega)] at hrows
  obtain rfl := Except.ok.inj hrows
  have hle : (2048 : Int) / b * b ≤ 2048 := Int.ediv_mul_le _ (by omega)
  simp only at hfit
  have hcut : ∀ n : Int, min n (2048 / (b : Int)) * b ≤ 2048 := fun n =>
    le_trans (Int.mul_le_mul_of_nonneg_right (Int.min_le_right _ _) (by omega)) hle
  obtain ⟨h2, h3, h4, h5⟩ : (1 ≤ min inp (2048 / (b : Int)) ∧
      1 ≤ min wgt (twoTo MicroOp.blockBits : Int) ∧ 1 ≤ min acc (2048 / (b : Int)) ∧ 1 ≤ uop) := by
    omega
  exact ⟨h2, h3, h4, h5, rfl, hcut _, hcut _, le_trans (Int.min_le_right _ _) (by decide)⟩

end Tessera
