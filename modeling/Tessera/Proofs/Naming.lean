import Mathlib.Data.List.Basic
import Tessera.Text.Capital

/-!
# Names are compared in one form

The canonical form of a name is its own canonical form: capitals have no other
capitals, and no capital is white space. So a name that was found in its
canonical form is found again.

* `capital_capital`: the capital of a letter is its own capital.
* `canonical_canonical`: the same for a whole name.
-/

namespace Tessera.Text

/-- The capital of the letter number `k` of a run. -/
def CapitalRange.image (r : CapitalRange) (k : Nat) : Nat :=
  ((r.first + k * r.step : Nat) + r.shift).toNat

/-- The numbers of the letters of a run. -/
def CapitalRange.members (r : CapitalRange) : List Nat :=
  List.range ((r.last - r.first) / r.step + 1)

/-- Whether all capitals of a run lie outside `lo` to `hi`, or else have `p`. -/
def CapitalRange.misses (r : CapitalRange) (lo hi : Nat) (p : Nat → Bool) : Bool :=
  Nat.blt (r.last + r.shift).toNat lo || Nat.blt hi (r.first + r.shift).toNat ||
    r.members.all fun k => p (r.image k)

/-- Whether a code is that of a character, not white space, and in no table of
letters with capitals; below 128, whether it is no small letter. -/
def settled (n : Nat) : Bool :=
  (Char.ofNat n).toNat == n && !isBlank (Char.ofNat n) &&
    if Nat.blt n 128 then (Char.ofNat n).toUpper == Char.ofNat n
    else (capitalSequences.lookup n).isNone && capitalRanges.all fun r => !r.contains n

/-- The capitals of the runs are in no run. -/
theorem ranges_miss_ranges :
    (capitalRanges.all fun r => capitalRanges.all fun s =>
      r.misses s.first s.last fun n => !s.contains n) = true := by
  decide +kernel

/-- The capitals of the runs are no letters with several capitals. -/
theorem ranges_miss_sequences :
    (capitalRanges.all fun r => capitalSequences.all fun s =>
      r.misses s.1 s.1 fun n => n != s.1) = true := by
  decide +kernel

/-- The capitals of the runs are characters and no white space; below 128 they are
capitals. -/
theorem ranges_settled :
    (capitalRanges.all fun r =>
      (Nat.blt (r.last + r.shift).toNat 0xd800 ||
        (Nat.blt 0xdfff (r.first + r.shift).toNat && Nat.blt (r.last + r.shift).toNat 0x110000)) &&
      r.misses 0 127 (fun n => (Char.ofNat n).toUpper == Char.ofNat n) &&
      r.misses 0 0x3000 (fun n => !isBlank (Char.ofNat n))) = true := by
  decide +kernel

theorem sequences_settled :
    ((capitalSequences.flatMap (·.2)).eraseDups.all settled) = true := by
  decide +kernel

theorem CapitalRange.misses_image {r : CapitalRange} {lo hi : Nat} {p : Nat → Bool}
    (h : r.misses lo hi p = true) {n : Nat} (hn : r.contains n = true)
    (hlo : lo ≤ (n + r.shift).toNat) (hhi : (n + r.shift).toNat ≤ hi) :
    p (n + r.shift).toNat = true := by
  simp only [CapitalRange.contains, Bool.and_eq_true, decide_eq_true_eq, beq_iff_eq] at hn
  obtain ⟨⟨h1, h2⟩, h3⟩ := hn
  simp only [CapitalRange.misses, Bool.or_eq_true, Nat.blt_eq, List.all_eq_true] at h
  rcases h with (h | h) | h
  · omega
  · omega
  · have hk : (n - r.first) / r.step ∈ r.members := by
      rw [CapitalRange.members, List.mem_range]
      have := Nat.div_le_div_right (c := r.step) (show n - r.first ≤ r.last - r.first by omega)
      omega
    have himg : r.image ((n - r.first) / r.step) = (n + r.shift).toNat := by
      have := Nat.div_mul_cancel (Nat.dvd_of_mod_eq_zero h3)
      rw [CapitalRange.image, this, Nat.add_sub_cancel' h1]
    rw [← himg]
    exact h _ hk

/-- A settled character is its own capital. -/
theorem capital_of_settled {n : Nat} (h : settled n = true) :
    capital (Char.ofNat n) = [Char.ofNat n] ∧ isBlank (Char.ofNat n) = false := by
  simp only [settled, Bool.and_eq_true, beq_iff_eq, Bool.not_eq_true'] at h
  obtain ⟨⟨hn, hb⟩, h⟩ := h
  refine ⟨?_, hb⟩
  unfold capital
  simp only [hn]
  by_cases h128 : n < 128
  · rw [if_pos (by simpa using h128)] at h
    rw [if_pos h128]; simpa using h
  · rw [if_neg (by simpa using h128)] at h
    simp only [Bool.and_eq_true, Option.isNone_iff_eq_none, List.all_eq_true,
      Bool.not_eq_true'] at h
    rw [if_neg h128, h.1, List.find?_eq_none.2 (fun r hr => by simp [h.2 r hr])]

/-- The capital of a letter of a run is settled. -/
theorem settled_shift {r : CapitalRange} (hr : r ∈ capitalRanges) {n : Nat}
    (hn : r.contains n = true) : settled (n + r.shift).toNat = true := by
  have hsettled := List.all_eq_true.1 ranges_settled r hr
  simp only [Bool.and_eq_true, Bool.or_eq_true, Nat.blt_eq] at hsettled
  obtain ⟨⟨hvalid, hupper⟩, hblank⟩ := hsettled
  have hbounds := hn
  simp only [CapitalRange.contains, Bool.and_eq_true, decide_eq_true_eq] at hbounds
  obtain ⟨⟨h1, h2⟩, -⟩ := hbounds
  have hcode : (Char.ofNat (n + r.shift).toNat).toNat = (n + r.shift).toNat := by
    have hv : (n + r.shift).toNat.isValidChar := by unfold Nat.isValidChar; omega
    have hof : Char.ofNat (n + r.shift).toNat = Char.ofNatAux _ hv := dif_pos hv
    rw [hof]
    rfl
  have hnb : isBlank (Char.ofNat (n + r.shift).toNat) = false := by
    by_cases hle : (n + r.shift).toNat ≤ 0x3000
    · simpa using CapitalRange.misses_image hblank hn (Nat.zero_le _) hle
    · simp only [isBlank, hcode]
      simp only [Bool.or_eq_false_iff, Bool.and_eq_false_iff, decide_eq_false_iff_not,
        beq_eq_false_iff_ne]
      omega
  simp only [settled, Bool.and_eq_true, beq_iff_eq, Bool.not_eq_true']
  refine ⟨⟨hcode, hnb⟩, ?_⟩
  by_cases h128 : (n + r.shift).toNat < 128
  · rw [if_pos (by simpa using h128)]
    exact CapitalRange.misses_image hupper hn (Nat.zero_le _) (by omega)
  · rw [if_neg (by simpa using h128)]
    simp only [Bool.and_eq_true, Option.isNone_iff_eq_none, List.all_eq_true]
    constructor
    · rw [List.lookup_eq_none_iff]
      intro s hs'
      by_contra hne
      have heq : (n + r.shift).toNat = s.1 := by simpa using hne
      have := CapitalRange.misses_image
        (List.all_eq_true.1 (List.all_eq_true.1 ranges_miss_sequences r hr) s hs') hn
        (Nat.le_of_eq heq.symm) (Nat.le_of_eq heq)
      simp [heq] at this
    · intro s hs'
      by_contra hne
      have hin : s.contains (n + r.shift).toNat = true := by simpa using hne
      have hb := hin
      simp only [CapitalRange.contains, Bool.and_eq_true, decide_eq_true_eq] at hb
      have := CapitalRange.misses_image
        (List.all_eq_true.1 (List.all_eq_true.1 ranges_miss_ranges r hr) s hs') hn
        hb.1.1 hb.1.2
      simp [hin] at this

/-- **The capital of a letter is its own capital**, and white space only if the
letter is. -/
theorem capital_capital (c d : Char) (hd : d ∈ capital c) :
    capital d = [d] ∧ (isBlank c = false → isBlank d = false) := by
  unfold capital at hd
  simp only at hd
  split at hd
  · rename_i h128
    -- below 128 there are only so many characters
    have key : ∀ n < 128, capital (Char.ofNat n).toUpper = [(Char.ofNat n).toUpper] ∧
        (isBlank (Char.ofNat n) = false → isBlank (Char.ofNat n).toUpper = false) := by
      decide +kernel
    have := key c.toNat h128
    rw [Char.ofNat_toNat] at this
    rw [List.mem_singleton] at hd
    rwa [hd]
  · split at hd
    · rename_i codes hcodes
      obtain ⟨n, hn, rfl⟩ := List.mem_map.1 hd
      obtain ⟨l₁, l₂, hl, -⟩ := List.lookup_eq_some_iff.1 hcodes
      have hmem : n ∈ (capitalSequences.flatMap (·.2)).eraseDups := by
        rw [List.mem_eraseDups, List.mem_flatMap]
        exact ⟨(c.toNat, codes), by rw [hl]; simp, hn⟩
      have := capital_of_settled (List.all_eq_true.1 sequences_settled n hmem)
      exact ⟨this.1, fun _ => this.2⟩
    · split at hd
      · rename_i r hr
        rw [List.mem_singleton] at hd
        have hin : r.contains c.toNat = true := by simpa using List.find?_some hr
        have hset := settled_shift (List.mem_of_find?_eq_some hr) hin
        have := capital_of_settled hset
        rw [hd]
        exact ⟨this.1, fun _ => this.2⟩
      · rename_i h128 _ hseq _ hrange
        rw [List.mem_singleton] at hd
        subst hd
        refine ⟨?_, id⟩
        unfold capital
        simp only [h128, hseq, hrange, if_false]

theorem capital_ne_nil (c : Char) : capital c ≠ [] := by
  unfold capital
  simp only
  split
  · simp
  · split
    · rename_i codes hcodes
      obtain ⟨l₁, l₂, hl, -⟩ := List.lookup_eq_some_iff.1 hcodes
      have key : ∀ s ∈ capitalSequences, s.2 ≠ [] := by decide +kernel
      have := key (c.toNat, codes) (by rw [hl]; simp)
      simpa using this
    · split <;> simp

theorem capitals_capitals (cs : List Char) :
    (cs.flatMap capital).flatMap capital = cs.flatMap capital := by
  rw [List.flatMap_assoc]
  apply List.flatMap_congr
  intro c _
  have h : ∀ l : List Char, (∀ d ∈ l, capital d = [d]) → l.flatMap capital = l := by
    intro l hl
    induction l with
    | nil => rfl
    | cons d l ih =>
      rw [List.flatMap_cons, hl d (by simp), ih fun e he => hl e (by simp [he])]
      rfl
  exact h _ fun d hd => (capital_capital c d hd).1

/-- Whether neither end of a text is white space. -/
def Trimmed (cs : List Char) : Prop :=
  (∀ c ∈ cs.head?, isBlank c = false) ∧ ∀ c ∈ cs.getLast?, isBlank c = false

theorem dropWhile_head {p : Char → Bool} {cs : List Char} :
    ∀ c ∈ (cs.dropWhile p).head?, p c = false := by
  intro c hc
  induction cs with
  | nil => simp at hc
  | cons a cs ih =>
    rw [List.dropWhile_cons] at hc
    split at hc
    · exact ih hc
    · rename_i ha
      obtain rfl : a = c := by simpa using hc
      simpa using ha

theorem dropWhile_of_head {p : Char → Bool} {cs : List Char} (h : ∀ c ∈ cs.head?, p c = false) :
    cs.dropWhile p = cs := by
  cases cs with
  | nil => rfl
  | cons a cs => rw [List.dropWhile_cons, if_neg (by simp [h a (by simp)])]

theorem trim_trimmed (s : String) : Trimmed (trim s).toList := by
  unfold trim
  rw [String.toList_ofList]
  set l := s.toList.dropWhile isBlank
  constructor
  · intro c hc
    rw [List.head?_reverse] at hc
    -- dropping at the end keeps the first character, unless all go
    have hsuf := List.dropWhile_suffix (p := isBlank) (l := l.reverse)
    obtain ⟨front, hfront⟩ := hsuf
    have hlast : c ∈ l.reverse.getLast? := by
      rw [← hfront, List.getLast?_append, Option.mem_def.1 hc]
      rfl
    rw [List.getLast?_reverse] at hlast
    exact dropWhile_head c hlast
  · intro c hc
    rw [List.getLast?_reverse] at hc
    exact dropWhile_head c hc

theorem trim_of_trimmed {cs : List Char} (h : Trimmed cs) :
    trim (String.ofList cs) = String.ofList cs := by
  unfold trim
  rw [String.toList_ofList, dropWhile_of_head h.1, dropWhile_of_head, List.reverse_reverse]
  rw [List.head?_reverse]
  exact h.2

theorem trimmed_capitals {cs : List Char} (h : Trimmed cs) : Trimmed (cs.flatMap capital) := by
  constructor
  · intro d hd
    cases cs with
    | nil => simp at hd
    | cons c cs =>
      rw [List.flatMap_cons, List.head?_append_of_ne_nil _ (capital_ne_nil c)] at hd
      exact (capital_capital c d (List.mem_of_mem_head? hd)).2 (h.1 c (by simp))
  · intro d hd
    rcases List.eq_nil_or_concat cs with rfl | ⟨front, c, rfl⟩
    · simp at hd
    · rw [List.concat_eq_append, List.flatMap_append, List.flatMap_singleton,
        List.getLast?_append_of_ne_nil _ (capital_ne_nil c)] at hd
      exact (capital_capital c d (List.mem_of_mem_getLast? hd)).2 (h.2 c (by simp))

/-- **The canonical form of a name is its own canonical form.** -/
theorem canonical_canonical (s : String) : canonical (canonical s) = canonical s := by
  unfold canonical capitals
  rw [trim_of_trimmed (trimmed_capitals (trim_trimmed s)), String.toList_ofList, capitals_capitals]

end Tessera.Text
