import Mathlib.Data.Nat.Prime.Basic
import Mathlib.Order.Bounds.Basic
import Tessera.Proofs.Allotment

/-!
# The search for a page

An object starts on a page whose distance from the origin is a whole number of units. Only
as many pages are tried as a unit covers, but that is enough: a unit is a power of two, so
that pages which are a unit apart are as good as each other. The search finds the least page
from the cursor on, and none only if there is none at all.

* `Memory.Suits`: the pages on which an object may start, if addresses are unbounded.
* `pages_period`: pages that are as many pages apart as are tried.
* `firstPage_least`, `firstPage_none`: what the search finds among unbounded addresses.
* `findPage_least`: the search of a memory.
-/

namespace Tessera

/-- An object of a kind may start on a page, if addresses are unbounded: it lies at the cursor or
behind it, and its distance from the origin is a whole number of units. -/
def Memory.Suits (m : Memory) (r : Region) (page : Nat) : Prop :=
  4096 ∣ page ∧ m.cursor.toNat ≤ page ∧ (m.divisor r).toNat ∣ page - m.origin.toNat

section Search

variable {origin unit free n : Nat}

/-- **Pages that are as many pages apart as are tried** are both on a unit or neither is. -/
theorem pages_period (hdvd : unit ∣ 18446744073709551616) {first : Nat} (hle : origin ≤ first)
    (j k : Nat) : unit ∣ first + 4096 * (j + max 1 (unit / 4096) * k) - origin ↔
      unit ∣ first + 4096 * j - origin := by
  -- a power of two divides a page or is a whole number of pages
  have hpages : unit ∣ 4096 * max 1 (unit / 4096) := by
    obtain ⟨e, -, rfl⟩ := (Nat.dvd_prime_pow Nat.prime_two (m := 64)).1 hdvd
    rcases Nat.le_total e 12 with he | he
    · exact (Nat.pow_dvd_pow 2 he).mul_right _
    · have hdiv : 2 ^ e / 4096 = 2 ^ (e - 12) := Nat.pow_div he (by omega)
      have hone : 1 ≤ 2 ^ (e - 12) := Nat.one_le_two_pow
      rw [hdiv, max_eq_right hone, show 4096 = 2 ^ 12 from rfl, ← pow_add, Nat.add_sub_cancel' he]
  rw [show first + 4096 * (j + max 1 (unit / 4096) * k) - origin =
    4096 * max 1 (unit / 4096) * k + (first + 4096 * j - origin) by
      rw [Nat.mul_add, Nat.mul_assoc]
      omega]
  exact (Nat.dvd_add_iff_right (hpages.mul_right k)).symm

/-- The pages from the first one at `free` or behind it, by their number. -/
theorem page_number (h : 4096 ∣ n) (hle : free ≤ n) :
    ∃ j, n = (free + 4095) / 4096 * 4096 + 4096 * j := by
  obtain ⟨k, rfl⟩ := h
  exact ⟨k - (free + 4095) / 4096, by omega⟩

/-- **The search finds the least page.** -/
theorem firstPage_least
    (h : (((List.range (max 1 (unit / 4096))).map fun j =>
      (free + 4095) / 4096 * 4096 + 4096 * j).find? fun page => unit ∣ page - origin) = some n) :
    IsLeast {page | 4096 ∣ page ∧ free ≤ page ∧ unit ∣ page - origin} n := by
  rw [List.find?_map, Option.map_eq_some_iff] at h
  obtain ⟨j, hj, rfl⟩ := h
  obtain ⟨hunit, hlt, hbefore⟩ := List.find?_range_eq_some.1 hj
  simp only [Function.comp_apply, decide_eq_true_eq] at hunit
  refine ⟨⟨⟨(free + 4095) / 4096 + j, by omega⟩, by omega, hunit⟩, ?_⟩
  rintro page ⟨hpage, hle, hpunit⟩
  obtain ⟨k, rfl⟩ := page_number hpage hle
  by_contra hless
  have hk := hbefore k (by omega)
  simp only [Function.comp_apply, Bool.not_eq_eq_eq_not, Bool.not_true, decide_eq_false_iff_not]
    at hk
  exact hk hpunit

/-- **The search finds no page only if there is none.** -/
theorem firstPage_none (free : Nat) (hdvd : unit ∣ 18446744073709551616) (hle : origin ≤ free) :
    (((List.range (max 1 (unit / 4096))).map fun j =>
      (free + 4095) / 4096 * 4096 + 4096 * j).find? fun page => unit ∣ page - origin) = none ↔
      ∀ page, ¬(4096 ∣ page ∧ free ≤ page ∧ unit ∣ page - origin) := by
  simp only [List.find?_eq_none, List.forall_mem_map, List.mem_range, decide_eq_true_eq]
  constructor
  · rintro h page ⟨hpage, hfree, hunit⟩
    obtain ⟨j, rfl⟩ := page_number hpage hfree
    -- the same place among the pages that are tried
    refine h (j % max 1 (unit / 4096)) (Nat.mod_lt _ (by omega)) ?_
    rw [← Nat.mod_add_div j (max 1 (unit / 4096))] at hunit
    exact (pages_period hdvd (by omega) _ _).1 hunit
  · intro h j _ hunit
    exact h _ ⟨⟨(free + 4095) / 4096 + j, by omega⟩, by omega, hunit⟩

end Search

/-- **The search for a page is complete, and it finds the least one.** If some page suits, the
memory answers with the least of them, of which it takes the low 64 bits; so it is that page, as long
as it is an address. The memory refuses exactly if no page suits, however far away. -/
theorem findPage_least {c : Config} (hvalid : c.validate = .ok ()) {m : Memory}
    (hd : c.divisors = .ok m.divisors) (hle : m.origin ≤ m.cursor) (object : String) (r : Region) :
    (∀ page, IsLeast {page | m.Suits r page} page → ∃ w, m.findPage object r = .ok w ∧
        w.toNat = page % 2 ^ 64 ∧ (page < 2 ^ 64 → w.toNat = page)) ∧
      (m.findPage object r = Outcome.diagnose object (.addressMisaligned
          (.noPage m.origin.toNat (m.divisor r).toNat)) ↔ ∀ page, ¬m.Suits r page) := by
  obtain ⟨b, hsound, -⟩ := Config.validate_sound hvalid
  obtain ⟨hpos, hdvd⟩ := hsound.divisor_dvd hd r
  have hle := UInt64.le_iff_toNat_le.1 hle
  have hfind := Memory.findPage_eq object hpos hdvd UInt64.ofNat_toNat.symm hle
  have hnone := firstPage_none m.cursor.toNat hdvd hle
  rw [Memory.divisor] at hfind ⊢
  split at hfind
  · rename_i n hn
    have hleast := firstPage_least hn
    rw [hfind]
    refine ⟨fun page hpage => ⟨_, rfl, ?_, fun hlt => ?_⟩, ⟨fun h => (by cases h), fun h => ?_⟩⟩
    · rw [hleast.unique hpage, UInt64.toNat_ofNat']
    · rw [hleast.unique hpage, UInt64.toNat_ofNat_of_lt' hlt]
    · exact absurd hleast.1 (h n)
  · rename_i hn
    have hno := hnone.1 hn
    exact ⟨fun page hpage => absurd hpage.1 (hno page), fun _ => hno, fun _ => hfind⟩

/-- Weights of 8192 bytes leave out the page behind the cursor, which lies half a unit from
the origin; from an origin that is no multiple of 16 they find no page. -/
theorem wideWeights_least : Config.wideWeights.validate = .ok () ∧
    Config.wideWeights.divisors = .ok ⟨64, 8192, 256, 64, 4, 16⟩ ∧
    (⟨4096, ⟨64, 8192, 256, 64, 4, 16⟩, 4116, []⟩ : Memory).findPage "WGT" .wgt = .ok 12288 ∧
    IsLeast {page | (⟨4096, ⟨64, 8192, 256, 64, 4, 16⟩, 4116, []⟩ : Memory).Suits .wgt page} 12288 ∧
    ∀ page, ¬(⟨8, ⟨64, 8192, 256, 64, 4, 16⟩, 4116, []⟩ : Memory).Suits .wgt page := by
  have hvalid : Config.wideWeights.validate = .ok () := by decide
  have hd : Config.wideWeights.divisors = .ok ⟨64, 8192, 256, 64, 4, 16⟩ := by decide
  have hleast : IsLeast {page | (⟨4096, ⟨64, 8192, 256, 64, 4, 16⟩, 4116, []⟩ : Memory).Suits .wgt page}
      12288 := by
    refine ⟨⟨by decide, by decide, by decide⟩, fun page h => ?_⟩
    obtain ⟨-, hle, hunit⟩ := h
    have hle : 4116 ≤ page := hle
    have hunit : 8192 ∣ page - 4096 := hunit
    omega
  obtain ⟨w, hw, -, hexact⟩ := (@findPage_least _ hvalid ⟨4096, _, 4116, []⟩ hd (by decide) "WGT"
    .wgt).1 12288 hleast
  have hw' : w = 12288 := UInt64.toNat_inj.1 (hexact (by decide))
  exact ⟨hvalid, hd, hw' ▸ hw, hleast, (@findPage_least _ hvalid ⟨8, _, 4116, []⟩ hd (by decide)
    "WGT" .wgt).2.1 (by decide)⟩

end Tessera
