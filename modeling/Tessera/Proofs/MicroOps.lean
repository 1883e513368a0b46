import Mathlib.Data.Set.List
import Tessera.Proofs.Packing

/-!
# Micro-operations in binary

A micro-operation is a word and a word is a micro-operation: its three fields take all of the
32 bits. So writing a table of micro-operations and reading one are the two directions of one
relation, in which tables of fields that fit stand opposite to bytes that come in fours.

* `MicroOp.Confined`: the fields fit their widths.
* `MicroOp.number`: the number that the fields make.
* `MicroOp.encode_eq_ok_iff`: writing a micro-operation undoes reading a word.
* `encodeTable_eq_ok_iff`, `tables_bijective`: writing a table undoes reading it.
* `encodeTable_refuses`: a table that cannot be written.
-/

namespace Tessera

namespace MicroOp

variable {u v : MicroOp} {w : UInt32}

/-- The rows and the block of a micro-operation fit their widths. -/
structure Confined (u : MicroOp) : Prop where
  dst : u.dst.toNat < 2 ^ 11
  src : u.src.toNat < 2 ^ 11
  wgt : u.wgt.toNat < 2 ^ 10

/-- The number that the fields of a micro-operation make. -/
def number (u : MicroOp) : Nat := u.dst.toNat + u.src.toNat * 2 ^ 11 + u.wgt.toNat * 2 ^ 22

/-- Fields that fit are told apart by their number. -/
theorem Confined.eq_of_number (hu : u.Confined) (hv : v.Confined) (h : u.number = v.number) :
    u = v := by
  obtain ⟨hd, hs, hw⟩ := hu
  obtain ⟨hd', hs', hw'⟩ := hv
  unfold number at h
  obtain ⟨dst, src, wgt⟩ := u
  obtain ⟨dst', src', wgt'⟩ := v
  simp only at *
  rw [mk.injEq, ← UInt32.toNat_inj, ← UInt32.toNat_inj, ← UInt32.toNat_inj]
  omega

/-- Bits set behind the bits of a word add to it. -/
theorem toNat_or_shiftLeft {x y : UInt32} {k n : Nat} (hx : x.toNat < 2 ^ k) (hy : y.toNat < 2 ^ n)
    (hroom : k + n ≤ 32) (hk : k < 32) :
    (x ||| y <<< UInt32.ofNat k).toNat = x.toNat + y.toNat * 2 ^ k := by
  have hshift : (UInt32.ofNat k).toNat % 32 = k := by
    rw [UInt32.toNat_ofNat_of_lt' (hk.trans (by decide)), Nat.mod_eq_of_lt hk]
  rw [UInt32.toNat_or, UInt32.toNat_shiftLeft, hshift, Nat.shiftLeft_eq, Bits.or_eq_add hx hy hroom]

/-- **A micro-operation that fits** is written as its number. -/
theorem Confined.encode (h : u.Confined) : ∃ w, u.encode = .ok w ∧ w.toNat = u.number := by
  obtain ⟨hd, hs, hw⟩ := h
  have hfit : ¬(2 ^ 11 ≤ u.dst.toNat ∨ 2 ^ 11 ≤ u.src.toNat ∨ 2 ^ 10 ≤ u.wgt.toNat) := by omega
  refine ⟨_, if_neg hfit, ?_⟩
  have hpair : (u.dst ||| u.src <<< UInt32.ofNat rowBits).toNat =
      u.dst.toNat + u.src.toNat * 2 ^ 11 := toNat_or_shiftLeft hd hs (by decide) (by decide)
  have hlow : (u.dst ||| u.src <<< UInt32.ofNat rowBits).toNat < 2 ^ (rowBits + rowBits) :=
    hpair ▸ Bits.add_mul_lt hd hs
  rw [toNat_or_shiftLeft hlow hw (by decide) (by decide), hpair]
  rfl

/-- **A micro-operation that does not fit** is refused with all of its fields. -/
theorem encode_refuses (h : ¬u.Confined) : u.encode =
    Outcome.diagnose "uop" (.encodingOverflow (.microOp u.dst.toNat u.src.toNat u.wgt.toNat)) := by
  have hlarge : 2 ^ 11 ≤ u.dst.toNat ∨ 2 ^ 11 ≤ u.src.toNat ∨ 2 ^ 10 ≤ u.wgt.toNat := by
    by_contra hfit
    exact h ⟨by omega, by omega, by omega⟩
  exact if_pos hlarge

/-- **Every word is a micro-operation that fits.** -/
theorem decode_confined (w : UInt32) : (decode w).Confined ∧ (decode w).number = w.toNat := by
  have hlt := w.toNat_lt
  have hdst : (decode w).dst.toNat = w.toNat % 2 ^ 11 :=
    (UInt32.toNat_and _ _).trans (Nat.and_two_pow_sub_one_eq_mod _ 11)
  have hsrc : (decode w).src.toNat = w.toNat / 2 ^ 11 % 2 ^ 11 := by
    have hrow : (w >>> UInt32.ofNat rowBits).toNat = w.toNat / 2 ^ 11 :=
      (UInt32.toNat_shiftRight _ _).trans (Nat.shiftRight_eq_div_pow _ _)
    rw [← hrow]
    exact (UInt32.toNat_and _ _).trans (Nat.and_two_pow_sub_one_eq_mod _ 11)
  have hwgt : (decode w).wgt.toNat = w.toNat / 2 ^ 22 :=
    (UInt32.toNat_shiftRight _ _).trans (Nat.shiftRight_eq_div_pow _ _)
  refine ⟨⟨?_, ?_, ?_⟩, ?_⟩
  · omega
  · omega
  · omega
  · unfold number
    omega

/-- **Writing a micro-operation undoes reading a word**, and reading undoes writing. -/
theorem encode_eq_ok_iff : u.encode = .ok w ↔ u = decode w := by
  obtain ⟨hfits, hnumber⟩ := decode_confined w
  constructor
  · intro h
    have hu : u.Confined := by
      by_contra hlarge
      rw [encode_refuses hlarge] at h
      exact Outcome.diagnose_ne_ok h
    obtain ⟨w', hw', hnumber'⟩ := hu.encode
    obtain rfl := Except.ok.inj (hw'.symm.trans h)
    exact hu.eq_of_number hfits (hnumber'.symm.trans hnumber.symm)
  · rintro rfl
    obtain ⟨w', hw', hnumber'⟩ := hfits.encode
    rw [hw', UInt32.toNat_inj.1 (hnumber'.trans hnumber)]

/-- The micro-operations that fit are those of the words. -/
theorem confined_iff : u.Confined ↔ u ∈ Set.range decode := by
  constructor
  · intro h
    obtain ⟨w, hw, -⟩ := h.encode
    exact ⟨w, (encode_eq_ok_iff.1 hw).symm⟩
  · rintro ⟨w, rfl⟩
    exact (decode_confined w).1

end MicroOp

section Table

variable {us : List MicroOp} {bs : List UInt8}

/-- The bytes of some words. -/
def wordBytes (ws : List UInt32) : List UInt8 :=
  (ws.map fun w => littleEndian MicroOp.byteSize w.toNat).flatten

/-- Bytes are those of some words if they come in fours. -/
theorem exists_wordBytes_iff : (∃ ws, wordBytes ws = bs) ↔ bs.length % 4 = 0 := by
  constructor
  · rintro ⟨ws, rfl⟩
    rw [wordBytes, List.length_flatten]
    simp [MicroOp.byteSize, Function.comp_def]
  · intro h
    have hall : bs.length = bs.length / 4 * 4 := by omega
    obtain ⟨parts, hparts, rfl⟩ := exists_pieces hall
    refine ⟨parts.map fun p => UInt32.ofNat (ofLittleEndian p), ?_⟩
    rw [wordBytes, List.map_map]
    refine congrArg List.flatten ((List.map_congr_left fun p hp => ?_).trans parts.map_id)
    have hlen := hparts p hp
    have hlt := ofLittleEndian_lt p
    rw [hlen] at hlt
    have hbytes := littleEndian_ofLittleEndian p
    rw [hlen] at hbytes
    rwa [Function.comp_apply, UInt32.toNat_ofNat_of_lt' hlt]

/-- A table is written word by word. -/
theorem encodeTable_eq_ok :
    encodeTable us = .ok bs ↔ ∃ ws, us = ws.map MicroOp.decode ∧ wordBytes ws = bs := by
  have hwords : ∀ ws, List.Forall₂ (fun u w => u = MicroOp.decode w) us ws ↔
      us = ws.map MicroOp.decode := fun ws => by
    rw [← List.forall₂_map_right_iff (R := Eq), List.forall₂_eq_eq_eq]
  unfold encodeTable wordBytes
  simp only [Outcome.bind_eq_ok, Outcome.pure_eq_ok, mapIndexed_eq_ok, MicroOp.encode_eq_ok_iff,
    hwords, List.flatMap_def]

/-- A table is read word by word. -/
theorem decodeTable_eq_ok :
    decodeTable bs = .ok us ↔ ∃ ws, us = ws.map MicroOp.decode ∧ wordBytes ws = bs := by
  have hread : ∀ ws, decodeTable (wordBytes ws) = .ok (ws.map MicroOp.decode) := fun ws => by
    have hparts : ∀ p ∈ ws.map fun w => littleEndian MicroOp.byteSize w.toNat,
        p.length = MicroOp.byteSize := by
      simp
    have hall : (wordBytes ws).length % MicroOp.byteSize = 0 := exists_wordBytes_iff.1 ⟨ws, rfl⟩
    rw [decodeTable, if_neg (not_not.2 hall), wordBytes, chunks_flatten (by decide) hparts,
      List.map_map]
    refine congrArg Except.ok (List.map_congr_left fun w _ => congrArg MicroOp.decode ?_)
    exact (congrArg UInt32.ofNat (ofLittleEndian_of_lt w.toNat_lt)).trans UInt32.ofNat_toNat
  constructor
  · intro h
    have hall : bs.length % MicroOp.byteSize = 0 := by
      by_contra hrest
      rw [decodeTable, if_pos hrest] at h
      exact Outcome.complain_ne_ok h
    obtain ⟨ws, rfl⟩ := exists_wordBytes_iff.2 hall
    exact ⟨ws, Except.ok.inj (h.symm.trans (hread ws)), rfl⟩
  · rintro ⟨ws, rfl, rfl⟩
    exact hread ws

/-- **Writing a table undoes reading one**, and reading undoes writing. -/
theorem encodeTable_eq_ok_iff : encodeTable us = .ok bs ↔ decodeTable bs = .ok us :=
  encodeTable_eq_ok.trans decodeTable_eq_ok.symm

theorem exists_encodeTable_iff : (∃ bs, encodeTable us = .ok bs) ↔ ∀ u ∈ us, u.Confined := by
  have hrange : us ∈ Set.range (List.map MicroOp.decode) ↔ ∀ u ∈ us, u ∈ Set.range MicroOp.decode := by
    rw [Set.range_list_map, Set.mem_ofPred_eq]
  simp only [MicroOp.confined_iff, ← hrange, encodeTable_eq_ok]
  constructor
  · rintro ⟨bs, ws, rfl, -⟩
    exact ⟨ws, rfl⟩
  · rintro ⟨ws, rfl⟩
    exact ⟨_, ws, rfl, rfl⟩

/-- A table that can be written is read back. -/
theorem table_round_trip (h : ∀ u ∈ us, u.Confined) :
    ∃ bytes, encodeTable us = .ok bytes ∧ decodeTable bytes = .ok us := by
  obtain ⟨bytes, hbytes⟩ := exists_encodeTable_iff.2 h
  exact ⟨bytes, hbytes, encodeTable_eq_ok_iff.1 hbytes⟩

theorem exists_decodeTable_iff : (∃ us, decodeTable bs = .ok us) ↔ bs.length % 4 = 0 := by
  rw [← exists_wordBytes_iff]
  simp only [decodeTable_eq_ok]
  constructor
  · rintro ⟨us, ws, -, hws⟩
    exact ⟨ws, hws⟩
  · rintro ⟨ws, hws⟩
    exact ⟨_, ws, rfl, hws⟩

/-- **A table that cannot be written** is refused for its first micro-operation that does not
fit. -/
theorem encodeTable_refuses {pre post : List MicroOp} {u : MicroOp} (hpre : ∀ v ∈ pre, v.Confined)
    (hu : ¬u.Confined) : encodeTable (pre ++ u :: post) =
      Outcome.within s!"uop {pre.length}" (Outcome.diagnose "uop"
        (.encodingOverflow (.microOp u.dst.toNat u.src.toNat u.wgt.toNat))) := by
  have hwritten : ∀ v ∈ pre, ∃ w, v.encode = .ok w := fun v hv => by
    obtain ⟨w, hw, -⟩ := (hpre v hv).encode
    exact ⟨w, hw⟩
  unfold encodeTable
  rw [mapIndexed_error hwritten (MicroOp.encode_refuses hu)]
  rfl

/-- **Tables of micro-operations are lists of bytes.** Tables of which all fields fit their widths
can be written, bytes that come in fours can be read, and each undoes the other. -/
theorem tables_bijective (us : List MicroOp) (bs : List UInt8) :
    ((∃ written, encodeTable us = .ok written) ↔
      ∀ u ∈ us, u.dst.toNat < 2 ^ 11 ∧ u.src.toNat < 2 ^ 11 ∧ u.wgt.toNat < 2 ^ 10) ∧
    ((∃ read, decodeTable bs = .ok read) ↔ bs.length % 4 = 0) ∧
    (encodeTable us = .ok bs ↔ decodeTable bs = .ok us) := by
  refine ⟨exists_encodeTable_iff.trans ?_, exists_decodeTable_iff, encodeTable_eq_ok_iff⟩
  exact forall₂_congr fun u _ => ⟨fun ⟨hd, hs, hw⟩ => ⟨hd, hs, hw⟩, fun ⟨hd, hs, hw⟩ => ⟨hd, hs, hw⟩⟩

end Table

end Tessera
