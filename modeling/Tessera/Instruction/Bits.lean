import Tessera.Bytes
import Tessera.Failure

/-!
# Packing fields into a number

Fields of fixed widths stand side by side in a number of 128 bits, the first field in
the lowest bits. The number is kept in two words, and a field that does not end with the
first of them goes on in the second.

* `Wide.write`, `Wide.read`: some bits of the number, word by word.
* `Packer.put`: writes a field behind the fields before it. The first field that is too
  wide is kept, and from then on nothing is written.
* `Unpacker.get`: reads the field behind the fields before it.
-/

namespace Tessera.Bits

/-- A value to be written in `width` bits. -/
structure Field where
  name : String
  value : Nat
  width : Nat
  deriving Repr, DecidableEq

/-- Whether the value fits its width. -/
def Field.Fits (f : Field) : Prop := f.value < twoTo f.width

instance (f : Field) : Decidable f.Fits := inferInstanceAs (Decidable (_ < _))

/-- The word shifted left by `n` places: zero from 64 places on. -/
def shiftLeft (x : UInt64) (n : Nat) : UInt64 := ⟨x.toBitVec <<< n⟩

/-- The word shifted right by `n` places: zero from 64 places on. -/
def shiftRight (x : UInt64) (n : Nat) : UInt64 := ⟨x.toBitVec >>> n⟩

/-- The word in which just the low `n` bits are set. -/
def mask (n : Nat) : UInt64 := if n = 64 then 0xffffffffffffffff else shiftLeft 1 n - 1

/-- A number of 128 bits in two words. -/
structure Wide where
  low : UInt64 := 0
  high : UInt64 := 0
  deriving Repr, DecidableEq, Inhabited

namespace Wide

/-- The word at `i`; there is none behind the second. -/
def word (w : Wide) : Nat → Outcome UInt64
  | 0 => .ok w.low
  | 1 => .ok w.high
  | _ => .error .fault

/-- The number with the bits of `x` set in the word at `i`, too. -/
def set (w : Wide) (x : UInt64) : Nat → Outcome Wide
  | 0 => .ok { w with low := w.low ||| x }
  | 1 => .ok { w with high := w.high ||| x }
  | _ => .error .fault

/-- Writes the low `count` bits of `v` from the bit `start` on, as many in each word as it
has room for. -/
def write (w : Wide) (start : Nat) (v : UInt64) (count : Nat) : Outcome Wide :=
  if count = 0 then .ok w
  else do
    let n := min count (64 - start % 64)
    let w ← w.set (shiftLeft (v &&& mask n) (start % 64)) (start / 64)
    w.write (start + n) (shiftRight v n) (count - n)
termination_by count

/-- Reads `count` bits from the bit `start` on, as many from each word as it has, and sets
them in `v` from the bit `shift` on. -/
def read (w : Wide) (start shift : Nat) (v : UInt64) (count : Nat) : Outcome UInt64 :=
  if count = 0 then .ok v
  else do
    let n := min count (64 - start % 64)
    let x ← w.word (start / 64)
    w.read (start + n) (shift + n) (v ||| shiftLeft (shiftRight x (start % 64) &&& mask n) shift)
      (count - n)
termination_by count

/-- The 16 bytes of the number, least significant first. -/
def bytes (w : Wide) : List UInt8 :=
  littleEndian 8 w.low.toNat ++ littleEndian 8 w.high.toNat

/-- The number of 16 bytes. -/
def ofBytes (bytes : List UInt8) : Wide where
  low := UInt64.ofNat (ofLittleEndian (bytes.take 8))
  high := UInt64.ofNat (ofLittleEndian ((bytes.drop 8).take 8))

end Wide

/-- A number in the making: `used` bits of it are written, and `refused` is the first field
that was too wide. -/
structure Packer where
  wide : Wide := {}
  used : Nat := 0
  refused : Option Field := none
  deriving DecidableEq

namespace Packer

/-- Writes a field, unless it or one before it is too wide. -/
def put (p : Packer) (f : Field) : Outcome Packer :=
  if p.refused.isSome then .ok p
  else
    let v := UInt64.ofNat f.value
    if f.width < 64 ∧ shiftRight v f.width ≠ 0 then .ok { p with refused := some f }
    else return { p with wide := ← p.wide.write p.used v f.width, used := p.used + f.width }

/-- Writes fields one after the other. -/
def putAll (p : Packer) (fs : List Field) : Outcome Packer := fs.foldlM put p

end Packer

/-- A number of which the low `used` bits were read. -/
structure Unpacker where
  wide : Wide
  used : Nat := 0
  deriving DecidableEq

namespace Unpacker

/-- Reads a field. -/
def get (u : Unpacker) (width : Nat) : Outcome (UInt64 × Unpacker) :=
  return (← u.wide.read u.used 0 0 width, { u with used := u.used + width })

/-- Reads fields of the given widths one after the other. -/
def getAll (u : Unpacker) : List Nat → Outcome (List UInt64)
  | [] => .ok []
  | width :: widths => do
    let (v, u) ← u.get width
    return v :: (← u.getAll widths)

end Unpacker

end Tessera.Bits
