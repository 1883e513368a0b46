import Tessera.Bytes
import Tessera.Word

/-!
# Scalar types

A scalar type has `2 ^ logWidth` bits and holds signed numbers. The accelerator
has the three with logarithms 3, 4 and 5; the functions here are defined for
every logarithm and fault where a shift amount would be negative.

* `Scalar.wrap`: the number of the type that agrees in the low bits.
* `Scalar.clip`: the nearest number of the type.
* `Scalar.bytesOf`: the little-endian bytes of a number.
-/

namespace Tessera

/-- A signed scalar type of `2 ^ logWidth` bits. -/
structure Scalar where
  logWidth : Int
  deriving Repr, DecidableEq, Inhabited

namespace Scalar

/-- The scalar types the accelerator has. -/
def Supported (s : Scalar) : Prop := 3 ≤ s.logWidth ∧ s.logWidth ≤ 5

instance (s : Scalar) : Decidable s.Supported := inferInstanceAs (Decidable (_ ∧ _))

/-- The supported type of the given logarithm, or a diagnosis of `object`. -/
def ofLog (object : String) (logWidth : Int) : Outcome Scalar :=
  if logWidth < 3 ∨ 5 < logWidth then
    Outcome.diagnose object (.dtypeUnsupported (.logWidth logWidth))
  else .ok ⟨logWidth⟩

/-- The width in bits. -/
def bits (s : Scalar) : Outcome Int := shiftOne s.logWidth

/-- The width in bytes. -/
def bytes (s : Scalar) : Outcome Int := return (← s.bits).tdiv 8

/-- The least number of the type. -/
def min (s : Scalar) : Outcome Int := do
  let half ← shiftOne (wrap64 ((← s.bits) - 1))
  return wrap64 (-half)

/-- The greatest number of the type. -/
def max (s : Scalar) : Outcome Int := do
  let half ← shiftOne (wrap64 ((← s.bits) - 1))
  return wrap64 (half - 1)

/-- The name of the type, as in `int8`. -/
def name (s : Scalar) : Outcome String := return s!"int{← s.bits}"

/-- How many low bits `wrap` keeps. -/
def keptBits (s : Scalar) : Outcome Nat := do
  let shift := wrap64 (64 - (← s.bits))
  if shift < 0 then .error .fault else return 64 - shift.toNat

/-- The number whose low bits are those of `v` and whose other bits repeat the
sign. -/
def wrap (s : Scalar) (v : Int) : Outcome Int := return v.bmod (twoTo (← s.keptBits))

/-- The number of the type nearest to `v`. -/
def clip (s : Scalar) (v : Int) : Outcome Int := do
  let lo ← s.min
  if v < lo then return lo
  let hi ← s.max
  if hi < v then return hi
  return v

/-- Brings `v` into the type, by `clip` or by `wrap`. -/
def narrow (s : Scalar) (v : Int) (clipped : Bool) : Outcome Int :=
  if clipped then s.clip v else s.wrap v

/-- Whether `v` is a number of the type. -/
def contains (s : Scalar) (v : Int) : Outcome Bool := do
  if v < (← s.min) then return false
  return decide (v ≤ (← s.max))

/-- The little-endian bytes of `v`: one and two for the two narrow types, four
for every other. -/
def bytesOf (s : Scalar) (v : Int) : List UInt8 :=
  if s.logWidth = 3 then littleEndian 1 v
  else if s.logWidth = 4 then littleEndian 2 v
  else littleEndian 4 v

end Scalar

end Tessera
