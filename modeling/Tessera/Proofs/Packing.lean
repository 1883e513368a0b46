import Tessera.Instruction.Codec
import Tessera.Proofs.Contents

/-!
# Fields side by side

A number is made of fields from its lowest bits up, and bytes make a number the
same way. Both readings can be undone.

* `Bits.number`: the sum of the fields, each times two to the power of the widths
  before it.
* `Bits.unpack_number`, `Bits.number_readings`: unpacking it gives the fields, and
  what a number has in consecutive fields makes up its low bits.
* `littleEndian_ofLittleEndian`: bytes read as a number and written again.
* `mapIndexed_eq_ok`, `mapIndexed_error`: a table is made if each entry is, and its
  failure names the first entry that fails.
* `chunks_flatten`: a list made of pieces of one length is cut into these pieces.
-/

namespace Tessera

namespace Bits

/-- Bits above the bits of a number. -/
theorem add_mul_lt {a b k n : Nat} (ha : a < 2 ^ k) (hb : b < 2 ^ n) :
    a + b * 2 ^ k < 2 ^ (k + n) := by
  calc a + b * 2 ^ k < 2 ^ k * (b + 1) := by rw [Nat.mul_add, Nat.mul_one, Nat.mul_comm]; omega
    _ ≤ 2 ^ k * 2 ^ n := Nat.mul_le_mul_left _ hb
    _ = 2 ^ (k + n) := (pow_add 2 k n).symm

/-- Bits set above the bits of a number add to it, in a word that has room for them. -/
theorem or_eq_add {a b k n size : Nat} (ha : a < 2 ^ k) (hb : b < 2 ^ n) (hroom : k + n ≤ size) :
    a ||| b * 2 ^ k % 2 ^ size = a + b * 2 ^ k := by
  have hsum := add_mul_lt ha hb
  have hle : 2 ^ (k + n) ≤ 2 ^ size := Nat.pow_le_pow_right (by decide) hroom
  rw [Nat.mod_eq_of_lt (by omega), Nat.or_comm, Nat.mul_comm, ← Nat.two_pow_add_eq_or_of_lt ha,
    Nat.add_comm]

/-- The sum of the fields, the first one times two to the power `offset`, each other
one above the one before it. -/
def number (offset : Nat) : List Field → Nat
  | [] => 0
  | f :: fs => f.value * 2 ^ offset + number (offset + f.width) fs

/-- The bits some fields take. -/
def width (fs : List Field) : Nat := (fs.map (·.width)).sum

theorem width_append (fs gs : List Field) : width (fs ++ gs) = width fs + width gs := by
  simp [width]

theorem number_append (offset : Nat) (fs gs : List Field) :
    number offset (fs ++ gs) = number offset fs + number (offset + width fs) gs := by
  induction fs generalizing offset with
  | nil => simp [number, width]
  | cons f fs ih =>
    rw [List.cons_append, number, number, ih, width, width, List.map_cons, List.sum_cons,
      Nat.add_assoc, Nat.add_assoc]

theorem number_shift (offset : Nat) (fs : List Field) : number offset fs = 2 ^ offset * number 0 fs := by
  induction fs generalizing offset with
  | nil => rfl
  | cons f fs ih =>
    rw [number, number, ih (offset + f.width), ih (0 + f.width), Nat.zero_add, pow_add, pow_zero]
    ring

theorem number_cons (f : Field) (fs : List Field) :
    number 0 (f :: fs) = f.value + 2 ^ f.width * number 0 fs := by
  rw [number, number_shift, Nat.zero_add, pow_zero, Nat.mul_one]

/-- The values of consecutive fields of the given widths. -/
def unpack : List Nat → Nat → List Nat
  | [], _ => []
  | w :: ws, n => n % twoTo w :: unpack ws (n / twoTo w)

/-- **Unpacking the sum of fields gives the fields.** -/
theorem unpack_number {fs : List Field} (h : ∀ f ∈ fs, f.Fits) :
    unpack (fs.map (·.width)) (number 0 fs) = fs.map (·.value) := by
  induction fs with
  | nil => rfl
  | cons f fs ih =>
    have hf : f.value < 2 ^ f.width := h f List.mem_cons_self
    rw [List.map_cons, List.map_cons, unpack, number_cons, twoTo_eq, Nat.add_mul_mod_self_left,
      Nat.mod_eq_of_lt hf, Nat.add_mul_div_left _ _ (by positivity), Nat.div_eq_of_lt hf,
      Nat.zero_add, ih fun g hg => h g (List.mem_cons_of_mem _ hg)]

theorem number_lt {fs : List Field} (h : ∀ f ∈ fs, f.Fits) : number 0 fs < 2 ^ width fs := by
  induction fs with
  | nil => simp [number]
  | cons f fs ih =>
    have hf : f.value < 2 ^ f.width := h f List.mem_cons_self
    have hrest := ih fun g hg => h g (List.mem_cons_of_mem _ hg)
    rw [number_cons, width, List.map_cons, List.sum_cons, pow_add, ← width]
    calc f.value + 2 ^ f.width * number 0 fs < 2 ^ f.width * (number 0 fs + 1) := by
          rw [Nat.mul_add]; omega
      _ ≤ 2 ^ f.width * 2 ^ width fs := Nat.mul_le_mul_left _ hrest

/-- What `n` has in consecutive fields, given by name and width. -/
def readings : List (String × Nat) → Nat → List Field
  | [], _ => []
  | (name, w) :: ws, n => ⟨name, n % 2 ^ w, w⟩ :: readings ws (n / 2 ^ w)

theorem readings_fit (ws : List (String × Nat)) (n : Nat) : ∀ f ∈ readings ws n, f.Fits := by
  induction ws generalizing n with
  | nil => simp [readings]
  | cons w ws ih =>
    rw [readings, List.forall_mem_cons]
    exact ⟨Nat.mod_lt _ (by positivity), ih _⟩

/-- **What a number has in consecutive fields makes up its low bits.** -/
theorem number_readings (ws : List (String × Nat)) (n : Nat) :
    number 0 (readings ws n) = n % 2 ^ (ws.map (·.2)).sum := by
  induction ws generalizing n with
  | nil => simp [readings, number, Nat.mod_one]
  | cons w ws ih =>
    rw [readings, number_cons, ih, List.map_cons, List.sum_cons, pow_add, Nat.mod_mul]

theorem readings_append (ws vs : List (String × Nat)) (n : Nat) :
    readings (ws ++ vs) n = readings ws n ++ readings vs (n / 2 ^ (ws.map (·.2)).sum) := by
  induction ws generalizing n with
  | nil => simp [readings]
  | cons w ws ih =>
    rw [List.cons_append, readings, readings, ih, List.map_cons, List.sum_cons, pow_add,
      Nat.div_div_eq_div_mul, List.cons_append]

theorem width_readings (ws : List (String × Nat)) (n : Nat) :
    width (readings ws n) = (ws.map (·.2)).sum := by
  induction ws generalizing n with
  | nil => rfl
  | cons w ws ih =>
    rw [readings, width, List.map_cons, List.sum_cons, List.map_cons, List.sum_cons, ← width, ih]

/-- **A number read in two parts with a gap between them**, and put together with nothing
in the gap. -/
theorem number_gap (pre post : List (String × Nat)) (n : Nat) {gap : Field} (hgap : gap.value = 0)
    (hpost : n / 2 ^ ((pre.map (·.2)).sum + gap.width) < 2 ^ (post.map (·.2)).sum) :
    number 0 (readings pre n ++ gap ::
        readings post (n / 2 ^ ((pre.map (·.2)).sum + gap.width))) =
      n % 2 ^ (pre.map (·.2)).sum +
        2 ^ ((pre.map (·.2)).sum + gap.width) * (n / 2 ^ ((pre.map (·.2)).sum + gap.width)) := by
  rw [number_append, number_readings, width_readings, Nat.zero_add, number, hgap, Nat.zero_mul,
    Nat.zero_add, number_shift, number_readings, Nat.mod_eq_of_lt hpost]

end Bits

theorem ofLittleEndian_cons (b : UInt8) (bs : List UInt8) :
    ofLittleEndian (b :: bs) = b.toNat + 256 * ofLittleEndian bs := rfl

theorem ofLittleEndian_append (bs cs : List UInt8) :
    ofLittleEndian (bs ++ cs) = ofLittleEndian bs + 256 ^ bs.length * ofLittleEndian cs := by
  induction bs with
  | nil => simp [ofLittleEndian]
  | cons b bs ih =>
    rw [List.cons_append, ofLittleEndian_cons, ofLittleEndian_cons, ih, List.length_cons, pow_succ]
    ring

theorem ofLittleEndian_lt (bs : List UInt8) : ofLittleEndian bs < 256 ^ bs.length := by
  induction bs with
  | nil => simp [ofLittleEndian]
  | cons b bs ih =>
    have hb := b.toNat_lt
    rw [ofLittleEndian_cons, List.length_cons, pow_succ]
    omega

/-- A number that fits its bytes is read from them. -/
theorem ofLittleEndian_of_lt {n v : Nat} (h : v < 256 ^ n) : ofLittleEndian (littleEndian n v) = v := by
  have hread := ofLittleEndian_littleEndian n v
  have hpow : 2 ^ (8 * n) = 256 ^ n := pow_mul 2 8 n
  rwa [hpow, ← Int.natCast_mod, Nat.mod_eq_of_lt h, Int.natCast_inj] at hread

/-- **Bytes read as a number and written again.** -/
theorem littleEndian_ofLittleEndian (bs : List UInt8) :
    littleEndian bs.length (ofLittleEndian bs) = bs := by
  induction bs with
  | nil => rfl
  | cons b bs ih =>
    have hb := b.toNat_lt
    rw [List.length_cons, littleEndian_succ, ofLittleEndian_cons]
    have hlow : ((b.toNat + 256 * ofLittleEndian bs : Nat) : Int) % 256 = b.toNat := by omega
    have hhigh : ((b.toNat + 256 * ofLittleEndian bs : Nat) : Int) / 256 = ofLittleEndian bs := by
      omega
    rw [hlow, hhigh, ih, Int.toNat_natCast, UInt8.ofNat_toNat]

/-- One byte of a number. -/
theorem getElem_ofLittleEndian {bs : List UInt8} {k : Nat} (hk : k < bs.length) :
    bs[k].toNat = ofLittleEndian bs / 256 ^ k % 256 := by
  induction bs generalizing k with
  | nil => simp at hk
  | cons b bs ih =>
    have hb := b.toNat_lt
    rw [ofLittleEndian_cons]
    cases k with
    | zero =>
      rw [List.getElem_cons_zero, pow_zero, Nat.div_one]
      omega
    | succ k =>
      rw [List.getElem_cons_succ, ih (by simpa using hk), pow_succ', ← Nat.div_div_eq_div_mul]
      congr 2
      omega

/-- Changing one byte of a number. -/
theorem ofLittleEndian_modify {bs : List UInt8} {k : Nat} (f : UInt8 → UInt8) (hk : k < bs.length) :
    ofLittleEndian (bs.modify k f) + 256 ^ k * bs[k].toNat =
      ofLittleEndian bs + 256 ^ k * (f bs[k]).toNat := by
  induction bs generalizing k with
  | nil => simp at hk
  | cons b bs ih =>
    cases k with
    | zero =>
      simp only [List.modify_zero_cons, ofLittleEndian_cons, List.getElem_cons_zero, pow_zero]
      omega
    | succ k =>
      have hrest := ih (k := k) (by simpa using hk)
      simp only [List.modify_succ_cons, ofLittleEndian_cons, List.getElem_cons_succ, pow_succ']
      linarith

variable {α β : Type}

theorem mapIndexed_eq_ok {what : String} {f : α → Outcome β} {xs : List α} {ys : List β} :
    mapIndexed what f xs = .ok ys ↔ List.Forall₂ (fun x y => f x = .ok y) xs ys := by
  unfold mapIndexed
  rw [mapM_eq_ok]
  -- the index of an entry only stands in the report of its failure
  have hzip : ∀ (k : Nat) (xs : List α) (ys : List β),
      List.Forall₂ (fun p y => Outcome.within s!"{what} {p.2}" (f p.1) = .ok y) (xs.zipIdx k) ys ↔
        List.Forall₂ (fun x y => f x = .ok y) xs ys := by
    intro k xs
    induction xs generalizing k with
    | nil => simp
    | cons x xs ih =>
      intro ys
      cases ys with
      | nil => simp
      | cons y ys =>
        rw [List.zipIdx_cons, List.forall₂_cons, List.forall₂_cons, Outcome.within_eq_ok, ih]
  exact hzip 0 xs ys

/-- **The failure of a table names the first entry that fails.** -/
theorem mapIndexed_error {what : String} {f : α → Outcome β} {pre post : List α} {x : α}
    {e : Failure} (hpre : ∀ a ∈ pre, ∃ b, f a = .ok b) (hx : f x = .error e) :
    mapIndexed what f (pre ++ x :: post) = .error (e.within s!"{what} {pre.length}") := by
  unfold mapIndexed
  have hfirst : ∀ (k : Nat) (pre : List α), (∀ a ∈ pre, ∃ b, f a = .ok b) →
      ((pre ++ x :: post).zipIdx k).mapM (fun p => Outcome.within s!"{what} {p.2}" (f p.1)) =
        .error (e.within s!"{what} {k + pre.length}") := by
    intro k pre
    induction pre generalizing k with
    | nil =>
      intro _
      rw [List.nil_append, List.zipIdx_cons, List.mapM_cons, hx]
      rfl
    | cons a pre ih =>
      intro h
      obtain ⟨b, hb⟩ := h a List.mem_cons_self
      rw [List.cons_append, List.zipIdx_cons, List.mapM_cons, Outcome.within_eq_ok.2 hb,
        Outcome.ok_bind, ih (k + 1) fun a ha => h a (List.mem_cons_of_mem _ ha), List.length_cons,
        show k + 1 + pre.length = k + (pre.length + 1) by omega]
      rfl
  rw [hfirst 0 pre hpre, Nat.zero_add]

/-- A list of a multiple of `n` entries is made of pieces of length `n`. -/
theorem exists_pieces {n k : Nat} {xs : List α} (h : xs.length = k * n) :
    ∃ parts : List (List α), (∀ p ∈ parts, p.length = n) ∧ parts.flatten = xs := by
  induction k generalizing xs with
  | zero =>
    rw [Nat.zero_mul] at h
    exact ⟨[], by simp, (List.eq_nil_of_length_eq_zero h).symm⟩
  | succ k ih =>
    rw [Nat.succ_mul] at h
    have hdrop : (xs.drop n).length = k * n := by rw [List.length_drop]; omega
    obtain ⟨parts, hparts, hrest⟩ := ih hdrop
    refine ⟨xs.take n :: parts, List.forall_mem_cons.2 ⟨?_, hparts⟩, ?_⟩
    · rw [List.length_take]
      omega
    · rw [List.flatten_cons, hrest, List.take_append_drop]

theorem chunksFrom_pieces {n : Nat} (hn : 0 < n) {done : List (List α)} {current : List α}
    {parts : List (List α)} (hparts : ∀ p ∈ parts, p.length = n) (hne : current ≠ []) (xs : List α)
    (hxs : current.length + xs.length = n) :
    chunksFrom n done current xs.length (xs ++ parts.flatten) =
      done.reverse ++ (current.reverse ++ xs) :: parts := by
  induction parts generalizing done current xs with
  | nil =>
    rw [List.flatten_nil, List.append_nil]
    exact chunksFrom_room n done current xs.length xs le_rfl (by simp [hne])
  | cons p parts ih =>
    induction xs generalizing current with
    | cons x xs ihx =>
      rw [List.cons_append, List.length_cons, chunksFrom,
        ihx (List.cons_ne_nil x current) (by simp only [List.length_cons] at hxs ⊢; omega)]
      simp
    | nil =>
      -- a full piece is closed, and the next one starts with its first entry
      have hp := hparts p List.mem_cons_self
      cases p with
      | nil => simp only [List.length_nil] at hp; omega
      | cons y ys =>
        have hlen : ys.length = n - 1 := by simp only [List.length_cons] at hp; omega
        rw [List.nil_append, List.flatten_cons, List.cons_append, List.length_nil, chunksFrom,
          ← hlen, ih (fun q hq => hparts q (List.mem_cons_of_mem _ hq)) (by simp) ys
            (by simp only [List.length_cons, List.length_nil]; omega)]
        simp

/-- **A list made of pieces of one length is cut into these pieces.** -/
theorem chunks_flatten {n : Nat} (hn : 0 < n) {parts : List (List α)}
    (hparts : ∀ p ∈ parts, p.length = n) : chunks n parts.flatten = parts := by
  cases parts with
  | nil => rfl
  | cons p parts =>
    have hp := hparts p List.mem_cons_self
    cases p with
    | nil => simp only [List.length_nil] at hp; omega
    | cons y ys =>
      have hlen : n = ys.length + 1 := by simpa using hp.symm
      have hrest : chunksFrom n [] [y] ys.length (ys ++ parts.flatten) = [] ++ (y :: ys) :: parts :=
        chunksFrom_pieces hn (fun q hq => hparts q (List.mem_cons_of_mem _ hq))
          (List.cons_ne_nil y []) ys (by simp only [List.length_cons, List.length_nil]; omega)
      rw [List.flatten_cons, List.cons_append, chunks]
      conv_lhs => rw [hlen, chunksFrom, ← hlen]
      rw [hrest]
      rfl

end Tessera
