import Mathlib.Tactic.Ring
import Tessera.Proofs.Machine
import Tessera.Proofs.Table

/-!
# Where objects stand in memory

Addresses are words, so an object may run over the end of the address space. All
objects together are far smaller than that space: counted from the first free byte
they stand one after the other, and no two share a byte.

* `findPage_gap`: the page of an object is a little behind the first free byte.
* `logical_exact`: a logical address leads to its object.
* `place_adds`, `reserve_adds`: an object, its blocks and the memory after it.
* `Placed.Apart`: two objects share no byte.
* `writeBytes_inside`, `writeBytes_outside`: what a write changes.
-/

namespace Tessera

theorem toNat_add_ofNat (a : UInt64) (n : Nat) :
    (a + UInt64.ofNat n).toNat = (a.toNat + n) % 18446744073709551616 := by
  rw [UInt64.toNat_add, UInt64.toNat_ofNat']
  simp

theorem ofInt_natCast64 (n : Nat) : UInt64.ofInt (n : Int) = UInt64.ofNat n := by
  apply UInt64.toNat_inj.1
  unfold UInt64.ofInt
  rw [UInt64.toNat_ofNat', UInt64.toNat_ofNat']
  omega

theorem add_ofNat_add (a : UInt64) (m n : Nat) :
    a + UInt64.ofNat m + UInt64.ofNat n = a + UInt64.ofNat (m + n) := by
  rw [UInt64.ofNat_add, UInt64.add_assoc]

/-- The distance of two addresses that are counted from one start. -/
theorem toNat_sub_offsets (start : UInt64) {m n : Nat} (hm : m < 18446744073709551616)
    (hn : n < 18446744073709551616) :
    (start + UInt64.ofNat m - (start + UInt64.ofNat n)).toNat =
      if n ≤ m then m - n else 18446744073709551616 - (n - m) := by
  have hs := start.toNat_lt
  rw [UInt64.toNat_sub, toNat_add_ofNat, toNat_add_ofNat]
  norm_num at hs ⊢
  split <;> omega

namespace Memory

/-- Rounding up to a page skips less than a page. -/
theorem alignUp_gap (v : UInt64) : ∃ gap < 4096, alignUp v pageSize = v + UInt64.ofNat gap := by
  have hv := v.toNat_lt
  have hsum : (v + pageSize - 1).toNat = (v.toNat + 4095) % 18446744073709551616 := by
    rw [show v + pageSize - 1 = v + UInt64.ofNat 4095 by
      rw [UInt64.sub_eq_add_neg, UInt64.add_assoc]; rfl, toNat_add_ofNat]
  have halign : (alignUp v pageSize).toNat =
      (v.toNat + 4095) % 18446744073709551616 / 4096 * 4096 := by
    unfold alignUp
    rw [UInt64.toNat_mul, UInt64.toNat_div, hsum, show pageSize.toNat = 4096 from rfl]
    norm_num
    omega
  norm_num at hv
  refine ⟨((alignUp v pageSize).toNat + 18446744073709551616 - v.toNat) % 18446744073709551616,
    ?_, ?_⟩
  · rw [halign]
    omega
  · apply UInt64.toNat_inj.1
    rw [toNat_add_ofNat, halign]
    omega

theorem searchPage_eq_ok {m : Memory} {r : Region} {tries : Nat} {physical page : UInt64}
    (h : m.searchPage r tries physical = .ok (some page)) :
    ∃ j < tries, page = physical + UInt64.ofNat (4096 * j) := by
  induction tries generalizing physical with
  | zero => cases h
  | succ tries ih =>
    rw [searchPage] at h
    split at h
    · simp only [Except.ok.injEq, Option.some.injEq] at h
      exact ⟨0, by omega, by rw [← h]; simp⟩
    · obtain ⟨j, hj, rfl⟩ := ih h
      refine ⟨j + 1, by omega, ?_⟩
      rw [show pageSize = UInt64.ofNat 4096 from rfl, add_ofNat_add]
      congr 2
      omega
    · cases h

/-- **The page of an object is a little behind the first free byte.** -/
theorem findPage_gap {m : Memory} {object : String} {r : Region} {page : UInt64}
    (hd : (m.divisor r).toNat ≤ 65536) (h : m.findPage object r = .ok page) :
    ∃ gap < 131072, page = m.cursor + UInt64.ofNat gap := by
  unfold findPage at h
  simp only at h
  obtain ⟨found, hfound, h⟩ := Outcome.bind_eq_ok.1 h
  cases found with
  | none => simp at h
  | some page' =>
    obtain rfl := Outcome.pure_eq_ok.1 h
    obtain ⟨j, hj, rfl⟩ := searchPage_eq_ok hfound
    obtain ⟨gap, hgap, halign⟩ := alignUp_gap m.cursor
    have htries : (max 1 (m.divisor r / pageSize)).toNat ≤ 17 := by
      have : (m.divisor r / pageSize).toNat ≤ 16 := by
        rw [UInt64.toNat_div, show pageSize.toNat = 4096 from rfl]
        omega
      have hmax : max 1 (m.divisor r / pageSize) = 1 ∨
          max 1 (m.divisor r / pageSize) = m.divisor r / pageSize := by
        by_cases hle : 1 ≤ m.divisor r / pageSize
        · exact Or.inr (if_pos hle)
        · exact Or.inl (if_neg hle)
      rcases hmax with hmax | hmax
      · rw [hmax]; decide
      · rw [hmax]; omega
    exact ⟨gap + 4096 * j, by omega, by rw [halign, add_ofNat_add]⟩

/-- **A logical address leads to its object**: counted in units from the origin. -/
theorem logical_exact {m : Memory} {object : String} {r : Region} {physical l : UInt64}
    (h : m.logical object r physical = .ok l) : m.origin + l * m.divisor r = physical := by
  unfold logical at h
  simp only at h
  split at h
  · simp at h
  · obtain ⟨on, hon, h⟩ := Outcome.bind_eq_ok.1 h
    unfold onUnit at hon
    split at hon
    · cases hon
    · cases on with
      | false => simp at h
      | true =>
        obtain rfl := Outcome.pure_eq_ok.1 h
        simp only [Except.ok.injEq, beq_iff_eq] at hon
        have hmul : (physical - m.origin) / m.divisor r * m.divisor r = physical - m.origin := by
          apply UInt64.toNat_inj.1
          have hmod : (physical - m.origin).toNat % (m.divisor r).toNat = 0 := by
            rw [← UInt64.toNat_mod, hon]
            rfl
          have hlt := (physical - m.origin).toNat_lt
          rw [UInt64.toNat_mul, UInt64.toNat_div, Nat.div_mul_cancel (Nat.dvd_of_mod_eq_zero hmod),
            Nat.mod_eq_of_lt (by simpa using hlt)]
        rw [hmul, UInt64.add_comm, UInt64.sub_add_cancel]

/-- The addresses of blocks: each behind those before it, with its logical address. -/
theorem blockAddresses_eq_ok {m : Memory} {name : String} {r : Region} {acc out : Array BlockAddress}
    {i : Nat} {physical stop : UInt64} {sizes : List Nat}
    (h : m.blockAddresses name r acc i physical (sizes.map Int.ofNat) = .ok (out, stop)) :
    stop = physical + UInt64.ofNat sizes.sum ∧ out.size = acc.size + sizes.length ∧
      (∀ n < acc.size, out[n]? = acc[n]?) ∧
      ∀ n < sizes.length, ∃ object l, out[acc.size + n]? =
        some ⟨physical + UInt64.ofNat (sizes.take n).sum, l⟩ ∧
          m.logical object r (physical + UInt64.ofNat (sizes.take n).sum) = .ok l := by
  induction sizes generalizing acc i physical with
  | nil =>
    obtain ⟨rfl, rfl⟩ : acc = out ∧ physical = stop := by simpa [blockAddresses] using h
    exact ⟨by simp, by simp, fun n _ => rfl, fun n hn => by simp at hn⟩
  | cons size sizes ih =>
    rw [List.map_cons, blockAddresses] at h
    split at h
    · rename_i l hl
      rw [Int.ofNat_eq_natCast, ofInt_natCast64] at h
      obtain ⟨h1, h2, h3, h4⟩ := ih h
      rw [Array.size_push] at h2 h3 h4
      refine ⟨?_, by rw [h2, List.length_cons]; omega, fun n hn => ?_, fun n hn => ?_⟩
      · rw [h1, List.sum_cons, add_ofNat_add]
      · rw [h3 n (by omega), Array.getElem?_push_lt hn, Array.getElem?_eq_getElem hn]
      · cases n with
        | zero =>
          refine ⟨_, l, ?_, by simpa using hl⟩
          rw [Nat.add_zero, h3 acc.size (by omega)]
          simp
        | succ n =>
          obtain ⟨object, l', h5, h6⟩ := h4 n (by simpa using hn)
          rw [add_ofNat_add] at h5 h6
          rw [List.take_succ_cons, List.sum_cons]
          exact ⟨object, l', by rw [show acc.size + (n + 1) = acc.size + 1 + n by omega, h5], h6⟩
    · cases h

/-- An object of `bytes` bytes that was placed in a memory, and the memory after it. -/
structure Adds (m m' : Memory) (o : Placed) (bytes : Nat) : Prop where
  gap : ∃ gap < 131072, o.physical = m.cursor + UInt64.ofNat gap
  size : o.size = UInt64.ofNat bytes
  logical : m.origin + o.logical * m.divisor o.region = o.physical
  cursor : m'.cursor = o.physical + UInt64.ofNat bytes
  origin : m'.origin = m.origin
  divisors : m'.divisors = m.divisors
  objects : m'.placed = o :: m.placed

/-- The blocks of an object have the given sizes, and logical addresses that lead to
them. -/
def Blocks (m : Memory) (o : Placed) (sizes : List Nat) : Prop :=
  o.blocks.size = sizes.length ∧ ∀ n < sizes.length, ∃ l,
    o.blocks[n]? = some ⟨o.physical + UInt64.ofNat (sizes.take n).sum, l⟩ ∧
      m.origin + l * m.divisor o.region = o.physical + UInt64.ofNat (sizes.take n).sum

section Commit

variable {m m' : Memory} {name : String} {r : Region} {o : Placed}

theorem granted_eq_ok {answer : Outcome Placed × Memory} :
    granted answer = .ok (o, m') ↔ answer = (.ok o, m') := by
  obtain ⟨x, after⟩ := answer
  cases x <;> simp [granted]

/-- The answer is the object that would come next, if there is one. -/
theorem commit_fst (m : Memory) (x : Outcome Placed) : (m.commit x).1 = x := by
  cases x <;> rfl

/-- An answer that is an object only adds it. -/
theorem commit_eq_ok {x : Outcome Placed} : m.commit x = (.ok o, m') ↔ x = .ok o ∧ m' = m.add o := by
  cases x with
  | error e => simp [commit]
  | ok o' =>
    simp only [commit, Prod.mk.injEq, Except.ok.injEq]
    constructor <;> rintro ⟨rfl, rfl⟩ <;> exact ⟨rfl, rfl⟩

/-- **A refusal leaves the memory as it is.** -/
theorem commit_error {x : Outcome Placed} {e : Failure} (h : (m.commit x).1 = .error e) :
    (m.commit x).2 = m := by
  cases x with
  | error e' => rfl
  | ok o => cases h

/-- Placing an object only adds it. -/
theorem place_eq_ok {sizes : List Int} (h : m.place name r sizes = (.ok o, m')) :
    m' = m.add o ∧ o.name = name := by
  obtain ⟨hobject, rfl⟩ := commit_eq_ok.1 h
  unfold blocked at hobject
  obtain ⟨physical, -, hobject⟩ := Outcome.bind_eq_ok.1 hobject
  obtain ⟨l, -, hobject⟩ := Outcome.bind_eq_ok.1 hobject
  obtain ⟨⟨blocks, stop⟩, -, hobject⟩ := Outcome.bind_eq_ok.1 hobject
  obtain rfl := Outcome.pure_eq_ok.1 hobject
  exact ⟨rfl, rfl⟩

/-- Reserving an object only adds it. -/
theorem reserve_eq_ok {size : Int} (h : m.reserve name r size = (.ok o, m')) :
    m' = m.add o ∧ o.name = name ∧ m.logical name r o.physical = .ok o.logical := by
  obtain ⟨hobject, rfl⟩ := commit_eq_ok.1 h
  unfold plain at hobject
  obtain ⟨physical, -, hobject⟩ := Outcome.bind_eq_ok.1 hobject
  obtain ⟨l, hl, hobject⟩ := Outcome.bind_eq_ok.1 hobject
  obtain rfl := Outcome.pure_eq_ok.1 hobject
  exact ⟨rfl, rfl, hl⟩

theorem place_adds {sizes : List Nat} (hd : (m.divisor r).toNat ≤ 65536)
    (h : m.place name r (sizes.map Int.ofNat) = (.ok o, m')) :
    m.Adds m' o sizes.sum ∧ m.Blocks o sizes ∧ o.name = name ∧ o.region = r := by
  obtain ⟨hobject, rfl⟩ := commit_eq_ok.1 h
  unfold blocked at hobject
  obtain ⟨physical, hpage, hobject⟩ := Outcome.bind_eq_ok.1 hobject
  obtain ⟨l, hl, hobject⟩ := Outcome.bind_eq_ok.1 hobject
  obtain ⟨⟨blocks, stop⟩, hb, hobject⟩ := Outcome.bind_eq_ok.1 hobject
  obtain rfl := Outcome.pure_eq_ok.1 hobject
  obtain ⟨rfl, hsize, -, hblocks⟩ := blockAddresses_eq_ok hb
  have hstop : physical + (physical + UInt64.ofNat sizes.sum - physical) =
      physical + UInt64.ofNat sizes.sum := by
    rw [UInt64.add_comm, UInt64.sub_add_cancel]
  refine ⟨⟨findPage_gap hd hpage, ?_, logical_exact hl, hstop, rfl, rfl, rfl⟩, ⟨?_, ?_⟩, rfl, rfl⟩
  · simp only
    rw [UInt64.add_comm physical, UInt64.add_sub_cancel]
  · simpa using hsize
  · intro n hn
    obtain ⟨object, l', hblock, hl'⟩ := hblocks n hn
    exact ⟨l', by simpa using hblock, logical_exact hl'⟩

theorem reserve_adds {size : Nat} (hd : (m.divisor r).toNat ≤ 65536)
    (h : m.reserve name r size = (.ok o, m')) :
    m.Adds m' o size ∧ o.name = name ∧ o.region = r ∧ o.blocks = #[] := by
  obtain ⟨hobject, rfl⟩ := commit_eq_ok.1 h
  unfold plain at hobject
  obtain ⟨physical, hpage, hobject⟩ := Outcome.bind_eq_ok.1 hobject
  obtain ⟨l, hl, hobject⟩ := Outcome.bind_eq_ok.1 hobject
  obtain rfl := Outcome.pure_eq_ok.1 hobject
  exact ⟨⟨findPage_gap hd hpage, ofInt_natCast64 size, logical_exact hl,
    by show physical + _ = _; rw [ofInt_natCast64], rfl, rfl, rfl⟩, rfl, rfl, rfl⟩

end Commit

end Memory

/-- An object stands between two distances from `start`. -/
def Placed.Between (o : Placed) (start : UInt64) (lo hi : Nat) : Prop :=
  ∃ off, lo ≤ off ∧ off + o.size.toNat ≤ hi ∧ o.physical = start + UInt64.ofNat off

/-- Two objects share no byte. -/
def Placed.Apart (o o' : Placed) : Prop :=
  ∀ i < o.size.toNat, o'.size.toNat ≤ (o.physical + UInt64.ofNat i - o'.physical).toNat

/-- **Objects that stand behind each other share no byte.** -/
theorem Placed.Between.apart {o o' : Placed} {start : UInt64} {lo hi lo' hi' : Nat}
    (h : o.Between start lo hi) (h' : o'.Between start lo' hi') (hle : hi ≤ lo')
    (hsmall : hi' < 18446744073709551616) : o.Apart o' ∧ o'.Apart o := by
  obtain ⟨off, h1, h2, h3⟩ := h
  obtain ⟨off', h1', h2', h3'⟩ := h'
  constructor
  · intro i hi
    rw [h3, h3', add_ofNat_add, toNat_sub_offsets start (by omega) (by omega)]
    split <;> omega
  · intro i hi
    rw [h3, h3', add_ofNat_add, toNat_sub_offsets start (by omega) (by omega)]
    split <;> omega

/-- Memory grows by an object. -/
theorem Memory.Adds.between {m m' : Memory} {o : Placed} {bytes lo : Nat} {start : UInt64}
    (h : m.Adds m' o bytes) (hm : m.cursor = start + UInt64.ofNat lo)
    (hbytes : bytes < 18446744073709551616) :
    ∃ hi, hi < lo + 131072 + bytes ∧ o.Between start lo hi ∧
      m'.cursor = start + UInt64.ofNat hi ∧ lo ≤ hi := by
  obtain ⟨gap, hgap, hphys⟩ := h.gap
  rw [hm, add_ofNat_add] at hphys
  refine ⟨lo + gap + bytes, by omega, ⟨lo + gap, by omega, ?_, hphys⟩, ?_, by omega⟩
  · rw [h.size, UInt64.toNat_ofNat']
    omega
  · rw [h.cursor, hphys, add_ofNat_add]

theorem writeBytes_inside {mem : UInt64 → UInt8} {start : UInt64} {bytes : List UInt8} {i : Nat}
    (hi : i < bytes.length) (hsmall : bytes.length ≤ 18446744073709551616) :
    writeBytes mem start bytes (start + UInt64.ofNat i) = bytes[i] := by
  unfold writeBytes
  rw [UInt64.add_comm, UInt64.add_sub_cancel, UInt64.toNat_ofNat', Nat.mod_eq_of_lt (by norm_num; omega),
    List.getElem?_eq_getElem hi]
  rfl

theorem writeBytes_outside {mem : UInt64 → UInt8} {start a : UInt64} {bytes : List UInt8}
    (ha : bytes.length ≤ (a - start).toNat) : writeBytes mem start bytes a = mem a := by
  unfold writeBytes
  rw [List.getElem?_eq_none ha]
  rfl

end Tessera
