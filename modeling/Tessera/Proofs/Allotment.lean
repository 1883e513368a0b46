import Tessera.Proofs.Allocation

/-!
# Memory handed out by a run of requests

A memory serves one request after the other. What it hands out is said of unbounded
addresses first: an object starts on the next page whose distance from the origin is a whole
number of units, if there is one and its blocks lie on units as well. As long as none of these
addresses exceeds `2 ^ 64`, the memory does the same, although it counts in words: transfer
units are powers of two, so that a distance is a whole number of units whether or not it is
wrapped.

* `Request`, `Request.start`: what is asked for, and where it would start.
* `Request.call_none`, `Request.call_some`: the memory answers accordingly.
* `starts`: where the objects of a run would start; `starts_ordered`: one behind the other.
* `Memory.serveAll`, `Memory.served`: a run of requests, and what is handed out.
* `Memory.served_starts`: the memory does as with unbounded addresses.
* `run_allotted`: whole runs from an empty memory.
-/

namespace Tessera

section Units

variable {c : Config} {b : Nat} {divisors : Divisors}

/-- The side of a block is a power of two. -/
theorem Config.Sound.block_pow (h : c.Sound b) : ∃ n ≤ 6, b = 2 ^ n := by
  have hblock := h.block
  unfold Config.block shiftOne at hblock
  split at hblock
  · cases hblock
  split at hblock
  · have := Except.ok.inj hblock
    have := h.pos
    omega
  · rename_i h0 h64
    obtain ⟨n, hn⟩ : ∃ n : Nat, c.logBlock = n := ⟨c.logBlock.toNat, by omega⟩
    have hb := Except.ok.inj hblock
    rw [hn, Int.toNat_natCast, twoTo_eq] at hb
    have hle := h.le
    have hsmall : n ≤ 62 := by
      by_contra hn63
      obtain rfl : n = 63 := by omega
      rw [show wrap64 ((2 ^ 63 : Nat) : Int) = -9223372036854775808 from rfl] at hb
      omega
    have hpow : ((2 ^ n : Nat) : Int) ≤ (2 ^ 62 : Nat) :=
      Int.ofNat_le.2 (Nat.pow_le_pow_right (by omega) hsmall)
    have hnonneg : (0 : Int) ≤ (2 ^ n : Nat) := Int.natCast_nonneg _
    rw [wrap64_small (le_trans (by norm_num) hnonneg) (lt_of_le_of_lt hpow (by norm_num))] at hb
    have hb : b = 2 ^ n := (Int.ofNat_inj.1 hb).symm
    refine ⟨n, ?_, hb⟩
    by_contra hn7
    have : 2 ^ 7 ≤ 2 ^ n := Nat.pow_le_pow_right (by omega) (by omega)
    omega

/-- **A transfer unit is a power of two** and fits a word. -/
theorem Config.Sound.divisor_dvd (h : c.Sound b) (hd : c.divisors = .ok divisors) (r : Region) :
    0 < (r.divisor divisors).toNat ∧ (r.divisor divisors).toNat ∣ 18446744073709551616 := by
  obtain ⟨n, hn, hb⟩ := h.block_pow
  have hwidth : ∀ {s : Scalar}, s.Supported → ∃ k ≤ 2, s.width = 2 ^ k := fun hs => by
    rcases hs.cases with ⟨-, hw⟩ | ⟨-, hw⟩ | ⟨-, hw⟩
    exacts [⟨0, by omega, hw⟩, ⟨1, by omega, hw⟩, ⟨2, by omega, hw⟩]
  obtain ⟨ki, hki, hi⟩ := hwidth h.inp
  obtain ⟨kw, hkw, hw⟩ := hwidth h.wgt
  obtain ⟨ka, hka, ha⟩ := hwidth h.acc
  -- a word that is a small power of two
  have hpow : ∀ {v : Nat} {k : Nat}, v = 2 ^ k → k < 64 →
      0 < (UInt64.ofInt (v : Int)).toNat ∧ (UInt64.ofInt (v : Int)).toNat ∣ 18446744073709551616 := by
    rintro v k rfl hk
    have hlt : 2 ^ k < 2 ^ 64 := Nat.pow_lt_pow_right (by omega) hk
    rw [ofInt_natCast64, UInt64.toNat_ofNat_of_lt' hlt]
    exact ⟨by positivity, Nat.pow_dvd_pow 2 hk.le⟩
  rw [h.divisors_eq] at hd
  obtain rfl := Except.ok.inj hd
  -- sides and widths are powers of two, and so are their products
  cases r with
  | inp => exact hpow (k := n + ki) (by rw [hb, hi, pow_add]) (by omega)
  | wgt => exact hpow (k := n + n + kw) (by rw [hb, hw, pow_add, pow_add]) (by omega)
  | acc => exact hpow (k := n + ka) (by rw [hb, ha, pow_add]) (by omega)
  | out => exact hpow (k := n + ki) (by rw [hb, hi, pow_add]) (by omega)
  | uop => exact hpow (v := 4) (k := 2) rfl (by omega)
  | insn => exact hpow (v := 16) (k := 4) rfl (by omega)
  | unnamed code outside => exact hpow (v := 16) (k := 4) rfl (by omega)

end Units

/-- What is asked of a memory: an object made of blocks of the given sizes, or one without. -/
inductive Request where
  | place (name : String) (region : Region) (sizes : List Nat)
  | reserve (name : String) (region : Region) (size : Nat)

namespace Request

/-- The name of the object. -/
def name : Request → String
  | place name _ _ => name
  | reserve name _ _ => name

/-- The kind of the object. -/
def region : Request → Region
  | place _ region _ => region
  | reserve _ region _ => region

/-- The bytes of the object. -/
def bytes : Request → Nat
  | place _ _ sizes => sizes.sum
  | reserve _ _ size => size

/-- How far each block lies behind the start of the object. -/
def offsets : Request → List Nat
  | place _ _ sizes => (List.range sizes.length).map fun n => (sizes.take n).sum
  | reserve _ _ _ => []

/-- The request put to a memory: the answer, and the memory after it. -/
def call (m : Memory) : Request → Outcome Placed × Memory
  | place name region sizes => m.place name region (sizes.map Int.ofNat)
  | reserve name region size => m.reserve name region size

/-- The object that would come next. -/
def object (m : Memory) : Request → Outcome Placed
  | place name region sizes => m.blocked name region (sizes.map Int.ofNat)
  | reserve name region size => m.plain name region size

theorem call_eq (m : Memory) (q : Request) : q.call m = m.commit (q.object m) := by
  cases q <;> rfl

/-- **What a request does**: it is refused and leaves the memory as it is, or it adds the object that
it is answered with. -/
theorem call_cases (m : Memory) (q : Request) :
    (∃ e, q.call m = (.error e, m)) ∨ ∃ o, q.call m = (.ok o, m.add o) := by
  rw [call_eq]
  cases q.object m with
  | error e => exact .inl ⟨e, rfl⟩
  | ok o => exact .inr ⟨o, rfl⟩

/-- Where the object starts if addresses are unbounded and those from `free` on are free. -/
def start (q : Request) (origin unit free : Nat) : Option Nat :=
  if ∀ off ∈ q.offsets, unit ∣ off then
    ((List.range (max 1 (unit / 4096))).map fun j => (free + 4095) / 4096 * 4096 + 4096 * j).find?
      fun page => unit ∣ page - origin
  else none

end Request

section Search

variable {m : Memory} {r : Region}

theorem Memory.divisor_ne_zero (hpos : 0 < (m.divisor r).toNat) : m.divisor r ≠ 0 := by
  intro h
  rw [h] at hpos
  exact absurd hpos (by decide)

/-- Whether a distance is a whole number of units does not depend on its word. -/
theorem Memory.onUnit_ofNat {page : Nat} (hpos : 0 < (m.divisor r).toNat)
    (hdvd : (m.divisor r).toNat ∣ 18446744073709551616) (hle : m.origin.toNat ≤ page) :
    m.onUnit r (UInt64.ofNat page) = .ok (decide ((m.divisor r).toNat ∣ page - m.origin.toNat)) := by
  unfold onUnit
  rw [if_neg (divisor_ne_zero hpos)]
  have hlt := m.origin.toNat_lt
  have hmod : ((UInt64.ofNat page - m.origin) % m.divisor r).toNat =
      (page - m.origin.toNat) % (m.divisor r).toNat := by
    obtain ⟨k, hk⟩ := hdvd
    have hdist : (UInt64.ofNat page - m.origin).toNat =
        (page - m.origin.toNat) % 18446744073709551616 := by
      rw [UInt64.toNat_sub, UInt64.toNat_ofNat']
      norm_num at hlt ⊢
      omega
    rw [UInt64.toNat_mod, hdist, Nat.mod_mod_of_dvd _ ⟨k, hk⟩]
  refine congrArg Except.ok (Bool.eq_iff_iff.2 ?_)
  rw [beq_iff_eq, decide_eq_true_eq, ← UInt64.toNat_inj, hmod, Nat.dvd_iff_mod_eq_zero]
  rfl

theorem Memory.alignUp_ofNat (free : Nat) :
    alignUp (UInt64.ofNat free) pageSize = UInt64.ofNat ((free + 4095) / 4096 * 4096) := by
  have hsum : UInt64.ofNat free + pageSize - 1 = UInt64.ofNat (free + 4095) := by
    rw [UInt64.sub_eq_add_neg, UInt64.add_assoc, UInt64.ofNat_add]
    rfl
  apply UInt64.toNat_inj.1
  unfold alignUp
  rw [hsum, UInt64.toNat_mul, UInt64.toNat_div, show pageSize.toNat = 4096 from rfl,
    UInt64.toNat_ofNat', UInt64.toNat_ofNat']
  norm_num
  omega

/-- **The pages are searched** as if addresses were unbounded. -/
theorem Memory.searchPage_ofNat (hpos : 0 < (m.divisor r).toNat)
    (hdvd : (m.divisor r).toNat ∣ 18446744073709551616) (tries : Nat) {first : Nat}
    (hle : m.origin.toNat ≤ first) :
    m.searchPage r tries (UInt64.ofNat first) =
      .ok ((((List.range tries).map fun j => first + 4096 * j).find?
        fun page => (m.divisor r).toNat ∣ page - m.origin.toNat).map UInt64.ofNat) := by
  induction tries generalizing first with
  | zero => rfl
  | succ tries ih =>
    rw [searchPage, onUnit_ofNat hpos hdvd hle, List.range_succ_eq_map, List.map_cons,
      List.find?_cons, Nat.mul_zero, Nat.add_zero]
    by_cases hunit : (m.divisor r).toNat ∣ first - m.origin.toNat
    · simp [hunit]
    · have hnext := @ih (first + 4096) (by omega)
      simp only [hunit, decide_false]
      rw [show UInt64.ofNat first + pageSize = UInt64.ofNat (first + 4096) by
        rw [UInt64.ofNat_add]; rfl, hnext, List.map_map]
      congr 4
      funext j
      simp only [Function.comp_apply]
      omega

/-- **The page of an object** is the one it would have if addresses were unbounded; there is none
if no page that is tried lies on a unit. -/
theorem Memory.findPage_eq (object : String) {free : Nat} (hpos : 0 < (m.divisor r).toNat)
    (hdvd : (m.divisor r).toNat ∣ 18446744073709551616) (hcursor : m.cursor = UInt64.ofNat free)
    (hle : m.origin.toNat ≤ free) :
    m.findPage object r =
      match ((List.range (max 1 ((m.divisor r).toNat / 4096))).map fun j =>
          (free + 4095) / 4096 * 4096 + 4096 * j).find?
        fun page => (m.divisor r).toNat ∣ page - m.origin.toNat with
      | some n => .ok (UInt64.ofNat n)
      | none => Outcome.diagnose object (.addressMisaligned
          (.noPage m.origin.toNat (m.divisor r).toNat)) := by
  have htries : (max 1 (m.divisor r / pageSize)).toNat = max 1 ((m.divisor r).toNat / 4096) := by
    have hdiv : (m.divisor r / pageSize).toNat = (m.divisor r).toNat / 4096 := by
      rw [UInt64.toNat_div]
      rfl
    rw [← hdiv]
    by_cases hone : (1 : UInt64) ≤ m.divisor r / pageSize
    · have : 1 ≤ (m.divisor r / pageSize).toNat := UInt64.le_iff_toNat_le.1 hone
      rw [show max 1 (m.divisor r / pageSize) = m.divisor r / pageSize from if_pos hone]
      omega
    · have : ¬1 ≤ (m.divisor r / pageSize).toNat := fun h => hone (UInt64.le_iff_toNat_le.2 h)
      rw [show max 1 (m.divisor r / pageSize) = 1 from if_neg hone, UInt64.toNat_one]
      omega
  unfold findPage
  simp only
  rw [hcursor, alignUp_ofNat, searchPage_ofNat hpos hdvd _ (by omega), htries, Outcome.ok_bind]
  cases ((List.range (max 1 ((m.divisor r).toNat / 4096))).map fun j =>
    (free + 4095) / 4096 * 4096 + 4096 * j).find?
      fun page => (m.divisor r).toNat ∣ page - m.origin.toNat <;> rfl

theorem Memory.findPage_ofNat {object : String} {page : UInt64} {free : Nat}
    (hpos : 0 < (m.divisor r).toNat) (hdvd : (m.divisor r).toNat ∣ 18446744073709551616)
    (hcursor : m.cursor = UInt64.ofNat free) (hle : m.origin.toNat ≤ free) :
    m.findPage object r = .ok page ↔ ∃ n,
      (((List.range (max 1 ((m.divisor r).toNat / 4096))).map fun j =>
          (free + 4095) / 4096 * 4096 + 4096 * j).find?
        fun page => (m.divisor r).toNat ∣ page - m.origin.toNat) = some n ∧
      page = UInt64.ofNat n := by
  rw [findPage_eq object hpos hdvd hcursor hle]
  split
  · rename_i n hn
    simp only [hn, Option.some.injEq, exists_eq_left', Except.ok.injEq, eq_comm]
  · rename_i hn
    simp [hn]

/-- **When an address has a logical one**: its word is not before the origin, and it lies on a
unit. -/
theorem Memory.logical_iff (object : String) {address : Nat} (hpos : 0 < (m.divisor r).toNat)
    (hdvd : (m.divisor r).toNat ∣ 18446744073709551616) (hle : m.origin.toNat ≤ address) :
    (∃ l, m.logical object r (UInt64.ofNat address) = .ok l) ↔
      m.origin.toNat ≤ address % 18446744073709551616 ∧
        (m.divisor r).toNat ∣ address - m.origin.toNat := by
  unfold logical
  simp only
  rw [onUnit_ofNat hpos hdvd hle, Outcome.ok_bind]
  by_cases hbefore : UInt64.ofNat address < m.origin
  · rw [if_pos hbefore]
    rw [UInt64.lt_iff_toNat_lt, UInt64.toNat_ofNat'] at hbefore
    simp only [Outcome.diagnose_ne_ok, exists_false, false_iff, not_and]
    intro h
    omega
  · rw [if_neg hbefore]
    rw [UInt64.lt_iff_toNat_lt, UInt64.toNat_ofNat'] at hbefore
    by_cases hunit : (m.divisor r).toNat ∣ address - m.origin.toNat
    · simp only [hunit, decide_true, if_true, Outcome.pure_eq_ok, exists_eq', and_true, true_iff]
      omega
    · simp [hunit]

/-- An address has a logical one only on a unit. -/
theorem Memory.logical_dvd {object : String} {l : UInt64} {address : Nat}
    (hpos : 0 < (m.divisor r).toNat) (hdvd : (m.divisor r).toNat ∣ 18446744073709551616)
    (hle : m.origin.toNat ≤ address) (h : m.logical object r (UInt64.ofNat address) = .ok l) :
    (m.divisor r).toNat ∣ address - m.origin.toNat :=
  ((logical_iff object hpos hdvd hle).1 ⟨l, h⟩).2

/-- **Logical addresses are exact**: the distance from the origin, in units. -/
theorem Memory.logical_ofNat (object : String) {address : Nat}
    (hpos : 0 < (m.divisor r).toNat) (hdvd : (m.divisor r).toNat ∣ 18446744073709551616)
    (hle : m.origin.toNat ≤ address) (hlt : address < 18446744073709551616)
    (hunit : (m.divisor r).toNat ∣ address - m.origin.toNat) :
    ∃ l, m.logical object r (UInt64.ofNat address) = .ok l ∧
      l.toNat * (m.divisor r).toNat = address - m.origin.toNat := by
  have haddress : (UInt64.ofNat address).toNat = address := UInt64.toNat_ofNat_of_lt' hlt
  refine ⟨(UInt64.ofNat address - m.origin) / m.divisor r, ?_, ?_⟩
  · unfold logical
    simp only
    rw [if_neg (by rw [UInt64.lt_iff_toNat_lt, haddress]; omega), onUnit_ofNat hpos hdvd hle,
      Outcome.ok_bind, if_pos (by simpa using hunit)]
    rfl
  · have hsub : m.origin ≤ UInt64.ofNat address := by
      rw [UInt64.le_iff_toNat_le, haddress]
      exact hle
    rw [UInt64.toNat_div, UInt64.toNat_sub_of_le _ _ hsub, haddress, Nat.div_mul_cancel hunit]

/-- The blocks of an object can be placed if each lies on a unit. -/
theorem Memory.blockAddresses_progress (name : String) {sizes : List Nat} (acc : Array BlockAddress)
    (i : Nat) {address : Nat} (hpos : 0 < (m.divisor r).toNat)
    (hdvd : (m.divisor r).toNat ∣ 18446744073709551616) (hle : m.origin.toNat ≤ address)
    (hblocks : ∀ n < sizes.length, address + (sizes.take n).sum < 18446744073709551616 ∧
      (m.divisor r).toNat ∣ address + (sizes.take n).sum - m.origin.toNat) :
    ∃ out, m.blockAddresses name r acc i (UInt64.ofNat address) (sizes.map Int.ofNat) =
      .ok (out, UInt64.ofNat (address + sizes.sum)) := by
  induction sizes generalizing acc i address with
  | nil => exact ⟨acc, by simp [blockAddresses]⟩
  | cons size sizes ih =>
    obtain ⟨hlt, hunit⟩ := hblocks 0 (by simp)
    obtain ⟨l, hl, -⟩ := logical_ofNat s!"{name}[{i}]" hpos hdvd hle (by simpa using hlt)
      (by simpa using hunit)
    -- the offsets of the blocks that follow count from the next address
    obtain ⟨out, hout⟩ := @ih (acc.push ⟨UInt64.ofNat address, l⟩) (i + 1)
      (address + size) (by omega) fun n hn => by
        have := hblocks (n + 1) (by simpa using hn)
        rwa [List.take_succ_cons, List.sum_cons, ← Nat.add_assoc] at this
    refine ⟨out, ?_⟩
    rw [List.map_cons, blockAddresses, hl]
    simp only [Int.ofNat_eq_natCast] at hout ⊢
    rw [ofInt_natCast64, ← UInt64.ofNat_add, hout, List.sum_cons, Nat.add_assoc]

end Search

/-- The first free byte of a memory if addresses were unbounded. -/
structure Memory.Free (m : Memory) (free : Nat) : Prop where
  cursor : m.cursor = UInt64.ofNat free
  origin : m.origin.toNat ≤ free
  units : ∀ r, 0 < (m.divisor r).toNat ∧ (m.divisor r).toNat ∣ 18446744073709551616

namespace Request

/-- No address of an object that starts at `page` exceeds `2 ^ 64`: it starts and its blocks start
below, and it ends there at the latest. -/
structure Fits (q : Request) (page : Nat) : Prop where
  start : page < 18446744073709551616
  blocks : ∀ off ∈ q.offsets, page + off < 18446744073709551616
  stop : page + q.bytes ≤ 18446744073709551616

instance (q : Request) (page : Nat) : Decidable (q.Fits page) :=
  decidable_of_iff (page < 18446744073709551616 ∧
      (∀ off ∈ q.offsets, page + off < 18446744073709551616) ∧
      page + q.bytes ≤ 18446744073709551616)
    ⟨fun h => ⟨h.1, h.2.1, h.2.2⟩, fun h => ⟨h.start, h.blocks, h.stop⟩⟩

/-- The object that a request is answered with. -/
structure Answers (q : Request) (origin unit : Nat) (o : Placed) : Prop where
  name : o.name = q.name
  region : o.region = q.region
  page : 4096 ∣ o.physical.toNat
  logical : o.logical.toNat * unit = o.physical.toNat - origin
  stop : o.stop = UInt64.ofNat (o.physical.toNat + q.bytes)
  room : o.physical.toNat + q.bytes ≤ 18446744073709551616
  blocks_size : o.blocks.size = q.offsets.length
  blocks : ∀ (n off : Nat), q.offsets[n]? = some off → ∃ k : BlockAddress, o.blocks[n]? = some k ∧
    k.physical.toNat = o.physical.toNat + off ∧ k.logical.toNat * unit = k.physical.toNat - origin

theorem mem_offsets_place {name : String} {r : Region} {sizes : List Nat} {off : Nat} :
    off ∈ (place name r sizes).offsets ↔ ∃ n < sizes.length, (sizes.take n).sum = off := by
  simp [offsets]

theorem getElem?_offsets_place {name : String} {r : Region} {sizes : List Nat} {n off : Nat} :
    (place name r sizes).offsets[n]? = some off ↔ n < sizes.length ∧ (sizes.take n).sum = off := by
  simp only [offsets, List.getElem?_map, Option.map_eq_some_iff, List.getElem?_eq_some_iff,
    List.length_range, List.getElem_range]
  constructor
  · rintro ⟨_, ⟨hn, rfl⟩, rfl⟩
    exact ⟨hn, rfl⟩
  · rintro ⟨hn, rfl⟩
    exact ⟨n, ⟨hn, rfl⟩, rfl⟩

variable {q : Request} {m : Memory} {free : Nat}

/-- The page of an object, with blocks on units. -/
theorem start_eq_some {origin unit page : Nat} :
    q.start origin unit free = some page ↔ (∀ off ∈ q.offsets, unit ∣ off) ∧
      ((List.range (max 1 (unit / 4096))).map fun j => (free + 4095) / 4096 * 4096 + 4096 * j).find?
        (fun page => unit ∣ page - origin) = some page := by
  unfold start
  split <;> simp_all

/-- An object starts on a page, on a unit, and not before the first free byte. -/
theorem start_page {origin unit page : Nat} (h : q.start origin unit free = some page) :
    free ≤ page ∧ 4096 ∣ page ∧ unit ∣ page - origin := by
  obtain ⟨-, h⟩ := start_eq_some.1 h
  obtain ⟨j, -, rfl⟩ := List.mem_map.1 (List.mem_of_find?_eq_some h)
  have hunit := List.find?_some h
  exact ⟨by omega, by omega, of_decide_eq_true hunit⟩

/-- **A memory refuses** what could not be placed even if addresses were unbounded. -/
theorem call_none (hm : m.Free free)
    (hstart : q.start m.origin.toNat (m.divisor q.region).toNat free = none) :
    ∃ e, q.call m = (.error e, m) := by
  obtain ⟨hpos, hdvd⟩ := hm.units q.region
  rw [call_eq]
  cases hcall : q.object m with
  | error e => exact ⟨e, rfl⟩
  | ok o =>
    -- an object that is placed has a page, and its blocks lie on units
    exfalso
    obtain ⟨page, hpage, hblocks⟩ : ∃ page, m.findPage q.name q.region = .ok page ∧
        ∀ n, page = UInt64.ofNat n → m.origin.toNat ≤ n →
          (m.divisor q.region).toNat ∣ n - m.origin.toNat →
            ∀ off ∈ q.offsets, (m.divisor q.region).toNat ∣ off := by
      cases q with
      | reserve name r size =>
        obtain ⟨page, hpage, -⟩ := Outcome.bind_eq_ok.1 hcall
        exact ⟨page, hpage, fun n _ _ _ off hoff => by cases hoff⟩
      | place name r sizes =>
        obtain ⟨page, hpage, hcall⟩ := Outcome.bind_eq_ok.1 hcall
        obtain ⟨l, -, hcall⟩ := Outcome.bind_eq_ok.1 hcall
        obtain ⟨⟨out, stop⟩, hout, -⟩ := Outcome.bind_eq_ok.1 hcall
        refine ⟨page, hpage, fun n hn hle hunit off hoff => ?_⟩
        obtain ⟨i, hi, rfl⟩ := mem_offsets_place.1 hoff
        obtain ⟨-, -, -, hblocks⟩ := Memory.blockAddresses_eq_ok hout
        obtain ⟨object, l', -, hl'⟩ := hblocks i hi
        rw [hn, ← UInt64.ofNat_add] at hl'
        have hsum := Memory.logical_dvd hpos hdvd (by omega) hl'
        rw [show n + (sizes.take i).sum - m.origin.toNat =
          n - m.origin.toNat + (sizes.take i).sum by omega] at hsum
        exact (Nat.dvd_add_right hunit).1 hsum
    obtain ⟨n, hfind, rfl⟩ := (Memory.findPage_ofNat hpos hdvd hm.cursor hm.origin).1 hpage
    have hmem := List.mem_of_find?_eq_some hfind
    obtain ⟨j, -, hj⟩ := List.mem_map.1 hmem
    have hunit := List.find?_some hfind
    simp only [decide_eq_true_eq] at hunit
    have hle : m.origin.toNat ≤ n := by have := hm.origin; omega
    rw [start_eq_some.2 ⟨hblocks n rfl hle hunit, hfind⟩] at hstart
    cases hstart

/-- **A memory answers** with the object that would be placed if addresses were unbounded. -/
theorem call_some (hm : m.Free free) {page : Nat}
    (hstart : q.start m.origin.toNat (m.divisor q.region).toNat free = some page)
    (hfits : q.Fits page) :
    ∃ o, q.call m = (.ok o, m.add o) ∧ o.physical.toNat = page ∧
      q.Answers m.origin.toNat (m.divisor q.region).toNat o := by
  obtain ⟨hpos, hdvd⟩ := hm.units q.region
  obtain ⟨hfree, hpage, hunit⟩ := start_page hstart
  obtain ⟨hoffsets, hfind⟩ := start_eq_some.1 hstart
  have hle : m.origin.toNat ≤ page := by have := hm.origin; omega
  have hphysical : (UInt64.ofNat page).toNat = page := UInt64.toNat_ofNat_of_lt' hfits.start
  have hfound : m.findPage q.name q.region = .ok (UInt64.ofNat page) :=
    (Memory.findPage_ofNat hpos hdvd hm.cursor hm.origin).2 ⟨page, hfind, rfl⟩
  obtain ⟨l, hl, hexact⟩ := Memory.logical_ofNat q.name hpos hdvd hle hfits.start hunit
  cases q with
  | reserve name r size =>
    refine ⟨_, Memory.commit_eq_ok.2 ⟨Outcome.bind_ok hfound (Outcome.bind_ok hl rfl), rfl⟩,
      hphysical, rfl, rfl, ?_, ?_, ?_, ?_, rfl, fun n off hoff => by cases hoff⟩ <;>
      simp only [hphysical]
    · exact hpage
    · exact hexact
    · show UInt64.ofNat page + UInt64.ofInt (size : Int) = UInt64.ofNat (page + size)
      rw [ofInt_natCast64, UInt64.ofNat_add]
    · exact hfits.stop
  | place name r sizes =>
    have hunits : ∀ n < sizes.length, (m.divisor r).toNat ∣ page + (sizes.take n).sum -
        m.origin.toNat := fun n hn => by
      have hoff := hoffsets _ (mem_offsets_place.2 ⟨n, hn, rfl⟩)
      rw [show page + (sizes.take n).sum - m.origin.toNat =
        page - m.origin.toNat + (sizes.take n).sum by omega]
      exact Nat.dvd_add hunit hoff
    have hbelow : ∀ n < sizes.length, page + (sizes.take n).sum < 18446744073709551616 :=
      fun n hn => hfits.blocks _ (mem_offsets_place.2 ⟨n, hn, rfl⟩)
    obtain ⟨out, hout⟩ := Memory.blockAddresses_progress name #[] 0 hpos hdvd
      hle fun n hn => ⟨hbelow n hn, hunits n hn⟩
    obtain ⟨-, hsize, -, hblocks⟩ := Memory.blockAddresses_eq_ok hout
    refine ⟨_, Memory.commit_eq_ok.2
      ⟨Outcome.bind_ok hfound (Outcome.bind_ok hl (Outcome.bind_ok hout rfl)), rfl⟩,
      hphysical, rfl, rfl, ?_, ?_, ?_, ?_, ?_, ?_⟩ <;> simp only [hphysical]
    · exact hpage
    · exact hexact
    · show UInt64.ofNat page + (UInt64.ofNat (page + sizes.sum) - UInt64.ofNat page) = _
      rw [UInt64.add_comm, UInt64.sub_add_cancel]
      rfl
    · exact hfits.stop
    · simpa [offsets] using hsize
    · intro n off hoff
      obtain ⟨hn, rfl⟩ := getElem?_offsets_place.1 hoff
      obtain ⟨object, k, hk, hlogical⟩ := hblocks n hn
      obtain ⟨k', hk', hexact'⟩ := Memory.logical_ofNat object hpos hdvd
        (le_add_right hle) (hbelow n hn) (hunits n hn)
      -- a block has one logical address, and it is the exact one
      rw [← UInt64.ofNat_add, hk'] at hlogical
      obtain rfl := Except.ok.inj hlogical
      rw [← UInt64.ofNat_add, Array.size_empty, Nat.zero_add] at hk
      have hvalue := UInt64.toNat_ofNat_of_lt' (hbelow n hn)
      exact ⟨_, hk, hvalue, by rw [hvalue]; exact hexact'⟩

end Request

section Starts

variable {origin free : Nat} {unit : Region → Nat} {qs : List Request}

/-- Where the objects of a run start if addresses are unbounded: a request whose object has no
start is passed over. -/
def starts (origin : Nat) (unit : Region → Nat) : Nat → List Request → List (Request × Nat)
  | _, [] => []
  | free, q :: qs =>
    match q.start origin (unit q.region) free with
    | some page => (q, page) :: starts origin unit (page + q.bytes) qs
    | none => starts origin unit free qs

/-- Nothing starts before the first free byte, and everything on a page. -/
theorem starts_page {x : Request × Nat} (h : x ∈ starts origin unit free qs) :
    free ≤ x.2 ∧ 4096 ∣ x.2 := by
  induction qs generalizing free with
  | nil => cases h
  | cons q qs ih =>
    unfold starts at h
    split at h
    · rename_i page hpage
      obtain ⟨hfree, hdvd, -⟩ := Request.start_page hpage
      rcases List.mem_cons.1 h with rfl | h
      · exact ⟨hfree, hdvd⟩
      · obtain ⟨hle, hx⟩ := ih h
        exact ⟨by omega, hx⟩
    · exact ih h

/-- **Each object starts behind those before it.** -/
theorem starts_ordered (origin free : Nat) (unit : Region → Nat) (qs : List Request) :
    (starts origin unit free qs).Pairwise fun x y => x.2 + x.1.bytes ≤ y.2 := by
  induction qs generalizing free with
  | nil => exact .nil
  | cons q qs ih =>
    unfold starts
    split
    · exact .cons (fun x hx => (starts_page hx).1) (ih _)
    · exact ih _

end Starts

namespace Memory

variable {m : Memory} {q : Request} {qs : List Request} {free : Nat}

/-- The memory after a request. -/
def serve (m : Memory) (q : Request) : Memory := (q.call m).2

/-- The memory after a run of requests. -/
def serveAll (m : Memory) (qs : List Request) : Memory := qs.foldl serve m

/-- What the requests of a run are answered with. -/
def answers (m : Memory) : List Request → List (Outcome Placed)
  | [] => []
  | q :: qs => (q.call m).1 :: (m.serve q).answers qs

/-- The requests of a run that are not refused, each with its object. -/
def served (m : Memory) : List Request → List (Request × Placed)
  | [] => []
  | q :: qs =>
    match q.call m with
    | (.ok o, m') => (q, o) :: m'.served qs
    | (.error _, m') => m'.served qs

/-- The objects after a run: those from before it, and those handed out. -/
theorem objects_serveAll (m : Memory) (qs : List Request) :
    (m.serveAll qs).objects = m.objects ++ (m.served qs).map Prod.snd := by
  induction qs generalizing m with
  | nil => simp [serveAll, served]
  | cons q qs ih =>
    have hnext := ih (m.serve q)
    unfold serveAll at hnext ⊢
    rw [List.foldl_cons, hnext, served, serve]
    obtain ⟨e, hcall⟩ | ⟨o, hcall⟩ := Request.call_cases m q
    · simp only [hcall]
    · simp [hcall, objects, add]

section Refused

theorem serve_refused {e : Failure} (h : (q.call m).1 = .error e) : m.serve q = m := by
  rw [Request.call_eq] at h
  rw [serve, Request.call_eq, commit_error h]

theorem serveAll_append (m : Memory) (before after : List Request) :
    m.serveAll (before ++ after) = (m.serveAll before).serveAll after :=
  List.foldl_append

theorem answers_append (m : Memory) (before after : List Request) :
    m.answers (before ++ after) = m.answers before ++ (m.serveAll before).answers after := by
  induction before generalizing m with
  | nil => rfl
  | cons q before ih => exact congrArg _ (ih (m.serve q))

theorem length_answers (m : Memory) (qs : List Request) : (m.answers qs).length = qs.length := by
  induction qs generalizing m with
  | nil => rfl
  | cons q qs ih => exact congrArg _ (ih (m.serve q))

/-- **A request that is refused** might as well not have been made. -/
theorem refused_erased {before : List Request} (after : List Request) {e : Failure}
    (h : (q.call (m.serveAll before)).1 = .error e) :
    m.serveAll (before ++ q :: after) = m.serveAll (before ++ after) ∧
      m.answers (before ++ after) = (m.answers (before ++ q :: after)).eraseIdx before.length := by
  constructor
  · rw [serveAll_append, serveAll_append]
    show ((m.serveAll before).serve q).serveAll after = _
    rw [serve_refused h]
  · rw [answers_append, answers_append,
      List.eraseIdx_append_of_length_le (by rw [length_answers]), length_answers, Nat.sub_self]
    show _ = _ ++ ((m.serveAll before).serve q).answers after
    rw [serve_refused h]

end Refused

/-- The memory with an object more has its first free byte behind it. -/
theorem Free.add (hm : m.Free free) {o : Placed} {bytes : Nat} (hle : free ≤ o.physical.toNat)
    (hstop : o.stop = UInt64.ofNat (o.physical.toNat + bytes)) :
    (m.add o).Free (o.physical.toNat + bytes) where
  cursor := hstop
  origin := by
    have := hm.origin
    show m.origin.toNat ≤ _
    omega
  units := hm.units

/-- **A run hands out what it would with unbounded addresses**, if no address of it exceeds the
words. -/
theorem served_starts (hm : m.Free free)
    (hfits : ∀ x ∈ starts m.origin.toNat (fun r => (m.divisor r).toNat) free qs, x.1.Fits x.2) :
    (m.served qs).map (fun x => (x.1, x.2.physical.toNat)) =
        starts m.origin.toNat (fun r => (m.divisor r).toNat) free qs ∧
      ∀ x ∈ m.served qs, x.1.Answers m.origin.toNat (m.divisor x.1.region).toNat x.2 := by
  -- along the run, the first free byte stands for the cursor; a refusal moves neither
  induction qs generalizing m free with
  | nil => exact ⟨rfl, fun x hx => by cases hx⟩
  | cons q qs ih =>
    unfold served
    unfold starts at hfits ⊢
    cases hstart : q.start m.origin.toNat (m.divisor q.region).toNat free with
    | none =>
      obtain ⟨e, hcall⟩ := Request.call_none hm hstart
      simp only [hstart] at hfits
      simp only [hcall]
      exact ih hm hfits
    | some page =>
      simp only [hstart, List.forall_mem_cons] at hfits
      obtain ⟨o, hcall, rfl, hanswers⟩ := Request.call_some hm hstart hfits.1
      have hfree := hm.add (Request.start_page hstart).1 hanswers.stop
      obtain ⟨hrest, hall⟩ := ih hfree hfits.2
      simp only [hcall, List.map_cons, List.forall_mem_cons]
      exact ⟨congrArg _ hrest, hanswers, hall⟩

end Memory

section Run

variable {c : Config} {base origin : UInt64} {divisors : Divisors}

/-- An empty memory is free from its base or its origin on, whichever is greater. -/
theorem empty_free (hvalid : c.validate = .ok ()) (hd : c.divisors = .ok divisors) :
    (Memory.empty base origin divisors).Free (max base.toNat origin.toNat) := by
  obtain ⟨b, hsound, -⟩ := Config.validate_sound hvalid
  have hmax : max base.toNat origin.toNat = (max base origin).toNat := by
    by_cases h : base ≤ origin
    · rw [show max base origin = origin from if_pos h, max_eq_right (UInt64.le_iff_toNat_le.1 h)]
    · rw [show max base origin = base from if_neg h,
        max_eq_left (Nat.le_of_not_le fun hle => h (UInt64.le_iff_toNat_le.2 hle))]
  refine ⟨?_, le_max_right _ _, fun r => hsound.divisor_dvd hd r⟩
  rw [hmax, UInt64.ofNat_toNat]
  rfl

/-- **Whole runs.** From an empty memory on, whatever the run asks for and whatever is refused
of it, as long as no address exceeds the words: what is handed out stands on pages and on units, with
its blocks one behind the other; the objects stand one behind the other as they were asked for; and
a request that is refused changes nothing, now or later. -/
theorem run_allotted (hvalid : c.validate = .ok ()) (hd : c.divisors = .ok divisors)
    {qs : List Request}
    (hfits : ∀ x ∈ starts origin.toNat (fun r => (r.divisor divisors).toNat)
      (max base.toNat origin.toNat) qs, x.1.Fits x.2) :
    ((Memory.empty base origin divisors).serveAll qs).objects =
        ((Memory.empty base origin divisors).served qs).map Prod.snd ∧
      (∀ x ∈ (Memory.empty base origin divisors).served qs,
        max base.toNat origin.toNat ≤ x.2.physical.toNat ∧
          x.1.Answers origin.toNat (x.1.region.divisor divisors).toNat x.2) ∧
      ((Memory.empty base origin divisors).served qs).Pairwise (fun x y =>
        x.2.physical.toNat + x.1.bytes ≤ y.2.physical.toNat) ∧
      ∀ (before after : List Request) (q : Request) (e : Failure), qs = before ++ q :: after →
        (q.call ((Memory.empty base origin divisors).serveAll before)).1 = .error e →
          (Memory.empty base origin divisors).serveAll (before ++ [q]) =
              (Memory.empty base origin divisors).serveAll before ∧
            (Memory.empty base origin divisors).serveAll qs =
              (Memory.empty base origin divisors).serveAll (before ++ after) ∧
            (Memory.empty base origin divisors).answers (before ++ after) =
              ((Memory.empty base origin divisors).answers qs).eraseIdx before.length := by
  obtain ⟨hstarts, hanswers⟩ := Memory.served_starts (empty_free hvalid hd) hfits
  refine ⟨Memory.objects_serveAll _ qs, fun x hx => ⟨?_, hanswers x hx⟩, ?_, ?_⟩
  · have hmem := List.mem_map_of_mem (f := fun x => (x.1, x.2.physical.toNat)) hx
    rw [hstarts] at hmem
    exact (starts_page hmem).1
  · have hordered := starts_ordered origin.toNat (max base.toNat origin.toNat)
      (fun r => (r.divisor divisors).toNat) qs
    exact List.pairwise_map.1 (hstarts ▸ hordered)
  · rintro before after q e rfl hcall
    obtain ⟨hmemory, hrest⟩ := Memory.refused_erased after hcall
    refine ⟨?_, hmemory, hrest⟩
    rw [Memory.serveAll_append]
    exact Memory.serve_refused hcall

/-- Blocks of weights that are larger than a page. -/
def Config.wideWeights : Config := ⟨3, 4, 5, 6, 15, 18, 17, 15⟩

/-- Requests of which the third is refused: its second block is smaller than a unit, so that the
third lies on none. -/
def wideRun : List Request :=
  [.reserve "INSN" .insn 20, .place "WGT" .wgt [8192, 8192], .place "OUT" .out [64, 32, 64],
    .place "INP" .inp [64, 64]]

/-- The weights leave out a page, and the inputs follow them. -/
theorem wideRun_allotted : Config.wideWeights.validate = .ok () ∧
    Config.wideWeights.divisors = .ok ⟨64, 8192, 256, 64, 4, 16⟩ ∧
    (∀ x ∈ starts 4096 (fun r => (r.divisor ⟨64, 8192, 256, 64, 4, 16⟩).toNat) 4096 wideRun,
      x.1.Fits x.2) ∧
    ((Memory.empty 0 4096 ⟨64, 8192, 256, 64, 4, 16⟩).served wideRun).map
        (fun x => (x.1.name, x.2.physical, x.2.logical)) =
      [("INSN", 4096, 0), ("WGT", 12288, 1), ("INP", 28672, 384)] ∧
    ((Memory.empty 0 4096 ⟨64, 8192, 256, 64, 4, 16⟩).served wideRun).Pairwise (fun x y =>
      x.2.physical.toNat + x.1.bytes ≤ y.2.physical.toNat) := by
  have hvalid : Config.wideWeights.validate = .ok () := by decide
  have hd : Config.wideWeights.divisors = .ok ⟨64, 8192, 256, 64, 4, 16⟩ := by decide
  have hfits : ∀ x ∈ starts 4096 (fun r => (r.divisor ⟨64, 8192, 256, 64, 4, 16⟩).toNat) 4096 wideRun,
      x.1.Fits x.2 := by decide
  have hrun := @run_allotted Config.wideWeights 0 4096 _ hvalid hd wideRun hfits
  exact ⟨hvalid, hd, hfits, by decide, hrun.2.2.1⟩

end Run

end Tessera
