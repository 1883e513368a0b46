import Tessera.Proofs.Packing

/-!
# Fields in two words

A number of 128 bits is kept in two words, and a field is written into it and read from it
word by word. What is written and read is said of the number alone: where the border between
the words lies makes no difference.

* `Wide.number`: the number the two words make.
* `Wide.write_eq`, `Wide.read_eq`: some bits written behind a number, and bits read from it.
* `Packer.putAll_fits`, `Packer.putAll_first`: fields that fit, and the first one that does
  not.
* `Unpacker.get_eq`, `Unpacker.getAll_eq`: a field read, and consecutive fields.
* `fields_round_trip`: fields written one after the other, and read back.
-/

namespace Tessera.Bits

section Words

variable {x m : UInt64} {k n : Nat}

/-- Some bits of a number in two parts. -/
theorem mod_split (a : Nat) (hk : k ≤ n) :
    a % 2 ^ n = a % 2 ^ k + 2 ^ k * (a / 2 ^ k % 2 ^ (n - k)) := by
  rw [← Nat.mod_mul, ← pow_add, Nat.add_sub_cancel' hk]

theorem toNat_shiftLeft (x : UInt64) (n : Nat) :
    (shiftLeft x n).toNat = x.toNat * 2 ^ n % 2 ^ 64 := by
  have hshift := BitVec.toNat_shiftLeft (x := x.toBitVec) (n := n)
  rwa [Nat.shiftLeft_eq] at hshift

theorem toNat_shiftRight (x : UInt64) (n : Nat) : (shiftRight x n).toNat = x.toNat / 2 ^ n := by
  have hshift := BitVec.toNat_ushiftRight x.toBitVec n
  rwa [Nat.shiftRight_eq_div_pow] at hshift

/-- A mask sets the low bits of a word. -/
theorem toNat_mask (hn : n ≤ 64) : (mask n).toNat = 2 ^ n - 1 := by
  unfold mask
  split
  · rename_i h
    rw [h]
    rfl
  · have hlt : 2 ^ n < 2 ^ 64 := Nat.pow_lt_pow_right (by decide) (by omega)
    have hone : (shiftLeft 1 n).toNat = 2 ^ n := by
      rw [toNat_shiftLeft, UInt64.toNat_one, Nat.one_mul, Nat.mod_eq_of_lt hlt]
    rw [UInt64.toNat_sub_of_le _ _ (UInt64.le_iff_toNat_le.2 (by
      rw [hone, UInt64.toNat_one]; exact Nat.one_le_two_pow)), hone, UInt64.toNat_one]

/-- Masking keeps the low bits. -/
theorem toNat_and_mask (x : UInt64) (hn : n ≤ 64) : (x &&& mask n).toNat = x.toNat % 2 ^ n := by
  rw [UInt64.toNat_and, toNat_mask hn, Nat.and_two_pow_sub_one_eq_mod]

/-- Bits set behind the bits of a word add to it. -/
theorem toNat_or_shiftLeft (hx : x.toNat < 2 ^ k) (hm : m.toNat < 2 ^ n) (hroom : k + n ≤ 64) :
    (x ||| shiftLeft m k).toNat = x.toNat + m.toNat * 2 ^ k := by
  rw [UInt64.toNat_or, toNat_shiftLeft, or_eq_add hx hm hroom]

end Words

namespace Wide

variable {w : Wide} {start count : Nat}

/-- The number the two words make. -/
def number (w : Wide) : Nat := w.low.toNat + 2 ^ 64 * w.high.toNat

/-- The 16 bytes are those of the number. -/
theorem bytes_eq (w : Wide) : w.bytes = littleEndian 16 w.number := by
  have hword : ∀ x : UInt64, ofLittleEndian (littleEndian 8 x.toNat) = x.toNat := fun x =>
    ofLittleEndian_of_lt x.toNat_lt
  have hnumber : ofLittleEndian w.bytes = w.number := by
    rw [bytes, ofLittleEndian_append, hword, hword, length_littleEndian]
    rfl
  have hlen : w.bytes.length = 16 := by simp [bytes]
  rw [← hnumber, ← hlen, littleEndian_ofLittleEndian]

/-- The number of 16 bytes. -/
theorem number_ofBytes {bs : List UInt8} (hlen : bs.length = 16) :
    (ofBytes bs).number = ofLittleEndian bs := by
  have hlow : (bs.take 8).length = 8 := by simp [hlen]
  have hhigh : (bs.drop 8).length = 8 := by simp [hlen]
  have hword : ∀ cs : List UInt8, cs.length = 8 →
      (UInt64.ofNat (ofLittleEndian cs)).toNat = ofLittleEndian cs := fun cs hcs => by
    have hlt := ofLittleEndian_lt cs
    rw [hcs] at hlt
    exact UInt64.toNat_ofNat_of_lt' hlt
  rw [number, ofBytes, List.take_of_length_le hhigh.le, hword _ hlow, hword _ hhigh]
  conv_rhs => rw [← List.take_append_drop 8 bs, ofLittleEndian_append, hlow]
  rfl

/-- **Bits set behind a number add to it**, in either word. -/
theorem set_eq {m : UInt64} {n : Nat} (hfree : w.number < 2 ^ start) (hm : m.toNat < 2 ^ n)
    (hn : 0 < n) (hword : start % 64 + n ≤ 64) (hroom : start + n ≤ 128) :
    ∃ w', w.set (shiftLeft m (start % 64)) (start / 64) = .ok w' ∧
      w'.number = w.number + m.toNat * 2 ^ start := by
  unfold number at hfree
  have hi : start / 64 = 0 ∨ start / 64 = 1 := by omega
  rcases hi with hi | hi
  · -- the number ends in the first word
    have hoff : start % 64 = start := by omega
    have hlow : w.low.toNat < 2 ^ start := by omega
    rw [hoff] at hword ⊢
    refine ⟨{ w with low := w.low ||| shiftLeft m start }, by rw [hi]; rfl, ?_⟩
    simp only [number]
    rw [toNat_or_shiftLeft hlow hm hword]
    ring
  · -- the number goes on in the second word
    have hstart : 2 ^ start = 2 ^ 64 * 2 ^ (start % 64) := by rw [← pow_add]; congr 1; omega
    have hhigh : w.high.toNat < 2 ^ (start % 64) := by
      rw [hstart] at hfree
      exact Nat.lt_of_mul_lt_mul_left (Nat.lt_of_le_of_lt (Nat.le_add_left _ _) hfree)
    refine ⟨{ w with high := w.high ||| shiftLeft m (start % 64) }, by rw [hi]; rfl, ?_⟩
    simp only [number]
    rw [toNat_or_shiftLeft hhigh hm hword, hstart]
    ring

/-- **Bits written behind a number add to it.** -/
theorem write_eq {v : UInt64} (hfree : w.number < 2 ^ start) (hcount : count ≤ 64)
    (hroom : start + count ≤ 128) :
    ∃ w', w.write start v count = .ok w' ∧
      w'.number = w.number + v.toNat % 2 ^ count * 2 ^ start := by
  induction count using Nat.strongRecOn generalizing w start v with
  | ind count ih =>
    by_cases hzero : count = 0
    · refine ⟨w, by rw [write, if_pos hzero], ?_⟩
      rw [hzero, pow_zero, Nat.mod_one, Nat.zero_mul, Nat.add_zero]
    · -- `n` bits go to this word, the rest to the next one
      obtain ⟨n, hn⟩ : ∃ n, n = min count (64 - start % 64) := ⟨_, rfl⟩
      have hpiece : (v &&& mask n).toNat = v.toNat % 2 ^ n := toNat_and_mask v (by omega)
      have hlt : (v &&& mask n).toNat < 2 ^ n := hpiece ▸ Nat.mod_lt _ (Nat.two_pow_pos n)
      obtain ⟨w', hset, hnumber⟩ := set_eq hfree hlt (by omega) (by omega) (by omega)
      have hfree' : w'.number < 2 ^ (start + n) := hnumber ▸ add_mul_lt hfree hlt
      obtain ⟨w'', hrest, hnumber'⟩ := ih (count - n) (by omega) (v := shiftRight v n) hfree'
        (by omega) (by omega)
      refine ⟨w'', ?_, ?_⟩
      · rw [write, if_neg hzero]
        exact Outcome.bind_ok (hn ▸ hset) (hn ▸ hrest)
      · rw [hnumber', hnumber, hpiece, toNat_shiftRight, mod_split v.toNat (show n ≤ count by omega),
          pow_add]
        ring

theorem word_eq (w : Wide) {i : Nat} (hi : i < 2) :
    ∃ x, w.word i = .ok x ∧ x.toNat = w.number / 2 ^ (64 * i) % 2 ^ 64 := by
  have hlow := w.low.toNat_lt
  have hhigh := w.high.toNat_lt
  unfold number
  have hcases : i = 0 ∨ i = 1 := by omega
  rcases hcases with rfl | rfl
  · exact ⟨w.low, rfl, by omega⟩
  · exact ⟨w.high, rfl, by omega⟩

/-- Some bits of one word are bits of the number. -/
theorem piece_eq {x : UInt64} {n : Nat}
    (hx : x.toNat = w.number / 2 ^ (64 * (start / 64)) % 2 ^ 64) (hword : start % 64 + n ≤ 64) :
    (shiftRight x (start % 64) &&& mask n).toNat = w.number / 2 ^ start % 2 ^ n := by
  have hsplit : 2 ^ 64 = 2 ^ (start % 64) * 2 ^ (64 - start % 64) := by
    rw [← pow_add]; congr 1; omega
  have hstart : 2 ^ start = 2 ^ (64 * (start / 64)) * 2 ^ (start % 64) := by
    rw [← pow_add]; congr 1; omega
  rw [toNat_and_mask _ (by omega), toNat_shiftRight, hx, hsplit, Nat.mod_mul_right_div_self,
    Nat.mod_mod_of_dvd _ (pow_dvd_pow 2 (by omega)), hstart, Nat.div_div_eq_div_mul]

/-- **Bits read from a number**, set behind what was read before. -/
theorem read_eq (w : Wide) {shift : Nat} {v : UInt64} (hv : v.toNat < 2 ^ shift)
    (hcount : shift + count ≤ 64) (hroom : start + count ≤ 128) :
    ∃ x, w.read start shift v count = .ok x ∧
      x.toNat = v.toNat + w.number / 2 ^ start % 2 ^ count * 2 ^ shift := by
  induction count using Nat.strongRecOn generalizing start shift v with
  | ind count ih =>
    by_cases hzero : count = 0
    · refine ⟨v, by rw [read, if_pos hzero], ?_⟩
      rw [hzero, pow_zero, Nat.mod_one, Nat.zero_mul, Nat.add_zero]
    · obtain ⟨n, hn⟩ : ∃ n, n = min count (64 - start % 64) := ⟨_, rfl⟩
      obtain ⟨x, hx, hbits⟩ := w.word_eq (i := start / 64) (by omega)
      have hpiece := piece_eq (n := n) hbits (by omega)
      have hlt : (shiftRight x (start % 64) &&& mask n).toNat < 2 ^ n :=
        hpiece ▸ Nat.mod_lt _ (Nat.two_pow_pos n)
      have hset := toNat_or_shiftLeft hv hlt (by omega)
      obtain ⟨y, hrest, hnumber⟩ := @ih (count - n) (by omega) (start + n) (shift + n)
        (v ||| shiftLeft (shiftRight x (start % 64) &&& mask n) shift)
        (hset ▸ add_mul_lt hv hlt) (by omega) (by omega)
      refine ⟨y, ?_, ?_⟩
      · rw [read, if_neg hzero]
        exact Outcome.bind_ok hx (hn ▸ hrest)
      · rw [hnumber, hset, hpiece, mod_split (w.number / 2 ^ start) (show n ≤ count by omega),
          Nat.div_div_eq_div_mul, ← pow_add, pow_add 2 shift n]
        ring

end Wide

namespace Packer

variable {p q : Packer} {f : Field} {fs : List Field}

/-- **A field that fits** is written behind the fields before it. -/
theorem put_fits (hopen : p.refused = none) (hfree : p.wide.number < 2 ^ p.used) (hfit : f.Fits)
    (hwidth : f.width ≤ 64) (hroom : p.used + f.width ≤ 128) :
    ∃ w, p.put f = .ok ⟨w, p.used + f.width, none⟩ ∧
      w.number = p.wide.number + f.value * 2 ^ p.used := by
  have hlt : f.value < 2 ^ f.width := hfit
  have hvalue : (UInt64.ofNat f.value).toNat = f.value :=
    UInt64.toNat_ofNat_of_lt' (lt_of_lt_of_le hlt (Nat.pow_le_pow_right (by decide) hwidth))
  obtain ⟨w, hwrite, hnumber⟩ := Wide.write_eq (v := UInt64.ofNat f.value) hfree hwidth hroom
  rw [hvalue, Nat.mod_eq_of_lt hlt] at hnumber
  have hbeyond : shiftRight (UInt64.ofNat f.value) f.width = 0 := by
    rw [← UInt64.toNat_inj, toNat_shiftRight, hvalue, Nat.div_eq_of_lt hlt, UInt64.toNat_zero]
  refine ⟨w, ?_, hnumber⟩
  unfold put
  rw [hopen, if_neg (by simp), if_neg fun h => h.2 hbeyond]
  exact Outcome.bind_ok hwrite rfl

/-- **A field that does not fit** is kept, and nothing of it is written. -/
theorem put_wide (hopen : p.refused = none) (hfit : ¬f.Fits) (hvalue : f.value < 2 ^ 64)
    (hwidth : f.width ≤ 64) : p.put f = .ok { p with refused := some f } := by
  have hge : 2 ^ f.width ≤ f.value := Nat.le_of_not_lt hfit
  have hlt : f.width < 64 := by
    by_contra hno
    rw [show f.width = 64 by omega] at hge
    omega
  have hbeyond : shiftRight (UInt64.ofNat f.value) f.width ≠ 0 := by
    rw [← UInt64.toNat_inj.ne, toNat_shiftRight, UInt64.toNat_ofNat_of_lt' hvalue, UInt64.toNat_zero]
    exact (Nat.div_pos hge (Nat.two_pow_pos _)).ne'
  unfold put
  rw [hopen, if_neg (by simp), if_pos ⟨hlt, hbeyond⟩]

/-- Nothing is written behind a field that was refused. -/
theorem putAll_refused (hclosed : p.refused.isSome) (fs : List Field) : p.putAll fs = .ok p := by
  induction fs with
  | nil => rfl
  | cons f fs ih =>
    refine foldlM_cons_eq_ok.2 ⟨p, ?_, ih⟩
    unfold put
    rw [if_pos hclosed]

/-- **Fields that fit** are written one behind the other. -/
theorem putAll_fits (hopen : p.refused = none) (hfree : p.wide.number < 2 ^ p.used)
    (hfit : ∀ f ∈ fs, f.Fits) (hwidth : ∀ f ∈ fs, f.width ≤ 64)
    (hroom : p.used + width fs ≤ 128) :
    ∃ w, p.putAll fs = .ok ⟨w, p.used + width fs, none⟩ ∧
      w.number = p.wide.number + number p.used fs := by
  induction fs generalizing p with
  | nil => exact ⟨p.wide, by rw [← hopen]; rfl, rfl⟩
  | cons f fs ih =>
    rw [List.forall_mem_cons] at hfit hwidth
    have htotal : width (f :: fs) = f.width + width fs := by simp [width]
    rw [htotal] at hroom
    obtain ⟨w, hput, hnumber⟩ := put_fits hopen hfree hfit.1 hwidth.1 (by omega)
    obtain ⟨w', hrest, hnumber'⟩ := ih (p := ⟨w, p.used + f.width, none⟩) rfl
      (hnumber ▸ add_mul_lt hfree hfit.1) hfit.2 hwidth.2 (by simp only; omega)
    refine ⟨w', foldlM_cons_eq_ok.2 ⟨_, hput, ?_⟩, ?_⟩
    · rw [htotal, ← Nat.add_assoc]
      exact hrest
    · rw [hnumber', hnumber, number, Nat.add_assoc]

/-- Fields that fit, written from the lowest bit on. -/
theorem putAll_empty (hfit : ∀ f ∈ fs, f.Fits) (hwidth : ∀ f ∈ fs, f.width ≤ 64)
    (hroom : width fs ≤ 128) :
    ∃ w, putAll {} fs = .ok ⟨w, width fs, none⟩ ∧ w.number = number 0 fs := by
  have hempty : ({} : Packer).wide.number < 2 ^ ({} : Packer).used := by decide
  have hwritten := putAll_fits rfl hempty hfit hwidth (by rwa [Nat.zero_add])
  rwa [Nat.zero_add, show ({} : Packer).wide.number = 0 from rfl, Nat.zero_add] at hwritten

/-- **The first field that does not fit** is kept, and what was written before it stays. -/
theorem putAll_first {pre post : List Field} (hpre : p.putAll pre = .ok q) (hopen : q.refused = none)
    (hfit : ¬f.Fits) (hvalue : f.value < 2 ^ 64) (hwidth : f.width ≤ 64) :
    p.putAll (pre ++ f :: post) = .ok { q with refused := some f } :=
  foldlM_append_eq_ok.2 ⟨q, hpre, foldlM_cons_eq_ok.2
    ⟨_, put_wide hopen hfit hvalue hwidth, putAll_refused rfl post⟩⟩

/-- Some field does not fit, and the first such is kept. -/
theorem putAll_unfit (hno : ¬∀ f ∈ fs, f.Fits) (hsize : ∀ f ∈ fs, f.value < 2 ^ 64 ∧ f.width ≤ 64)
    (hroom : width fs ≤ 128) :
    ∃ (q : Packer) (f : Field), putAll {} fs = .ok { q with refused := some f } := by
  cases hfind : fs.find? fun f => ¬f.Fits with
  | none => exact absurd (by simpa using hfind) hno
  | some f =>
    obtain ⟨hf, pre, post, rfl, hpre⟩ := List.find?_eq_some_iff_append.1 hfind
    rw [List.forall_mem_append, List.forall_mem_cons] at hsize
    rw [width_append] at hroom
    obtain ⟨w, hput, -⟩ := putAll_empty (fun g hg => by simpa using hpre g hg)
      (fun g hg => (hsize.1 g hg).2) (le_trans (Nat.le_add_right _ _) hroom)
    exact ⟨_, f, putAll_first hput rfl (by simpa using hf) hsize.2.1.1 hsize.2.1.2⟩

end Packer

namespace Unpacker

/-- **A field is read** behind the bits that were read before. -/
theorem get_eq (u : Unpacker) {n : Nat} (hwidth : n ≤ 64) (hroom : u.used + n ≤ 128) :
    ∃ v, u.get n = .ok (v, { u with used := u.used + n }) ∧
      v.toNat = u.wide.number / 2 ^ u.used % 2 ^ n := by
  have hzero : (0 : UInt64).toNat < 2 ^ 0 := by decide
  obtain ⟨v, hread, hvalue⟩ := u.wide.read_eq hzero (by rwa [Nat.zero_add]) hroom
  rw [UInt64.toNat_zero, Nat.zero_add, pow_zero, Nat.mul_one] at hvalue
  exact ⟨v, Outcome.bind_ok hread rfl, hvalue⟩

/-- **Consecutive fields are read one after the other.** -/
theorem getAll_eq (u : Unpacker) {widths : List Nat} (hwidth : ∀ n ∈ widths, n ≤ 64)
    (hroom : u.used + widths.sum ≤ 128) :
    ∃ vs, u.getAll widths = .ok vs ∧
      vs.map (·.toNat) = unpack widths (u.wide.number / 2 ^ u.used) := by
  induction widths generalizing u with
  | nil => exact ⟨[], rfl, rfl⟩
  | cons n widths ih =>
    rw [List.forall_mem_cons] at hwidth
    rw [List.sum_cons] at hroom
    obtain ⟨v, hget, hvalue⟩ := u.get_eq hwidth.1 (by omega)
    obtain ⟨vs, hrest, hvalues⟩ := ih { u with used := u.used + n } hwidth.2 (by simp only; omega)
    refine ⟨v :: vs, Outcome.bind_ok hget (Outcome.bind_ok hrest rfl), ?_⟩
    rw [List.map_cons, hvalue, hvalues, unpack, twoTo_eq, Nat.div_div_eq_div_mul, ← pow_add]

end Unpacker

/-- **Fields written one after the other, and read back.** Fields that fit make up the number in
which each stands behind the widths of those before it, and reading their widths gives their
values, wherever the border between the words lies. The first field that does not fit is kept,
and neither it nor any field behind it is written. -/
theorem fields_round_trip {fs : List Field} (hsize : ∀ f ∈ fs, f.value < 2 ^ 64 ∧ f.width ≤ 64)
    (hroom : (fs.map (·.width)).sum ≤ 128) :
    ((∀ f ∈ fs, f.value < 2 ^ f.width) →
      ∃ p, Packer.putAll {} fs = .ok p ∧ p.refused = none ∧ p.wide.number = number 0 fs ∧
        ∃ vs, Unpacker.getAll { wide := p.wide } (fs.map (·.width)) = .ok vs ∧
          vs.map (·.toNat) = fs.map (·.value)) ∧
    ∀ (pre : List Field) (f : Field) (post : List Field), fs = pre ++ f :: post →
      (∀ g ∈ pre, g.value < 2 ^ g.width) → ¬f.value < 2 ^ f.width →
        ∃ p, Packer.putAll {} pre = .ok p ∧ p.refused = none ∧ p.wide.number = number 0 pre ∧
          Packer.putAll {} fs = .ok { p with refused := some f } := by
  refine ⟨fun hfit => ?_, fun pre f post hfs hpre hf => ?_⟩
  · obtain ⟨w, hput, hnumber⟩ := Packer.putAll_empty hfit (fun f hf => (hsize f hf).2) hroom
    have hwidth : ∀ n ∈ fs.map (·.width), n ≤ 64 := List.forall_mem_map.2 fun f hf => (hsize f hf).2
    obtain ⟨vs, hget, hvalues⟩ := Unpacker.getAll_eq { wide := w } hwidth (by rwa [Nat.zero_add])
    rw [pow_zero, Nat.div_one, hnumber, unpack_number hfit] at hvalues
    exact ⟨_, hput, rfl, hnumber, vs, hget, hvalues⟩
  · subst hfs
    rw [List.forall_mem_append, List.forall_mem_cons] at hsize
    obtain ⟨hsizePre, hsizeF, -⟩ := hsize
    have hroomPre : width pre ≤ 128 := by
      rw [List.map_append, List.sum_append] at hroom
      exact le_trans (Nat.le_add_right _ _) hroom
    obtain ⟨w, hput, hnumber⟩ :=
      Packer.putAll_empty hpre (fun g hg => (hsizePre g hg).2) hroomPre
    exact ⟨_, hput, rfl, hnumber, Packer.putAll_first hput rfl hf hsizeF.1 hsizeF.2⟩

/-- Fields of 128 bits, one of which has bits in both words. -/
def straddling : List Field :=
  [⟨"first", 5, 3⟩, ⟨"empty", 0, 0⟩, ⟨"both", 0xfedcba9876543210, 64⟩, ⟨"last", 1, 61⟩]

/-- A field across the border of the words is read back, and one that does not fit there is
refused with all behind it. -/
theorem straddling_round_trips :
    (∃ p, Packer.putAll {} straddling = .ok p ∧
      p.wide.number = 5 + 0xfedcba9876543210 * 2 ^ 3 + 2 ^ 67 ∧
      ∃ vs, Unpacker.getAll { wide := p.wide } [3, 0, 64, 61] = .ok vs ∧
        vs.map (·.toNat) = [5, 0, 0xfedcba9876543210, 1]) ∧
    ∃ p, Packer.putAll {} [⟨"first", 5, 60⟩] = .ok p ∧
      Packer.putAll {} [⟨"first", 5, 60⟩, ⟨"both", 8, 3⟩, ⟨"last", 1, 64⟩] =
        .ok { p with refused := some ⟨"both", 8, 3⟩ } := by
  obtain ⟨hread, -⟩ := @fields_round_trip straddling (by decide) (by decide)
  obtain ⟨-, hfirst⟩ := @fields_round_trip [⟨"first", 5, 60⟩, ⟨"both", 8, 3⟩, ⟨"last", 1, 64⟩]
    (by decide) (by decide)
  obtain ⟨p, hput, -, hnumber, hvalues⟩ := hread (by decide)
  obtain ⟨q, hpre, -, -, hrefused⟩ := hfirst [⟨"first", 5, 60⟩] _ _ rfl (by decide) (by decide)
  exact ⟨⟨p, hput, hnumber, hvalues⟩, q, hpre, hrefused⟩

end Tessera.Bits
