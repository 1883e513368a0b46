import Tessera.Scalar

/-!
# Matrices

A matrix has a shape and its entries row by row. Shape and entries are kept
apart: a shape may promise more entries than there are, and then reading a
missing one is a fault.

* `Matrix.zero`: all entries zero.
* `Matrix.ofRows`: from rows of one length.
* `Matrix.narrow`: every entry brought into a scalar type.
* `ceilDiv`, `roundUp`: how many blocks a length takes, and their total length.
-/

namespace Tessera

/-- A matrix with its entries row by row. -/
structure Matrix where
  rows : Int
  cols : Int
  data : Array Int
  deriving Repr, DecidableEq, Inhabited

/-- The first row whose length differs from that of row zero. -/
structure Ragged where
  row : Nat
  given : Nat
  want : Nat
  deriving Repr, DecidableEq

namespace Matrix

/-- The matrix has as many entries as its shape says. -/
def WellFormed (m : Matrix) : Prop := 0 ≤ m.rows ∧ 0 ≤ m.cols ∧ (m.data.size : Int) = m.rows * m.cols

/-- The matrix of zeros. -/
def zero (rows cols : Int) : Outcome Matrix := do
  return ⟨rows, cols, Array.replicate (← tableSize (wrap64 (rows * cols))) 0⟩

/-- The matrix of the given rows, which must have the length of the first. -/
def ofRows (rows : List (List Int)) : Except Ragged Matrix :=
  match rows with
  | [] => .ok ⟨0, 0, #[]⟩
  | first :: _ =>
    match rows.zipIdx.find? fun (r, _) => r.length ≠ first.length with
    | some (r, i) => .error ⟨i, r.length, first.length⟩
    | none => .ok ⟨rows.length, first.length, rows.flatten.toArray⟩

/-- Where entry `(i, j)` stands. -/
def index (m : Matrix) (i j : Int) : Int := wrap64 (wrap64 (i * m.cols) + j)

/-- Entry `(i, j)`. -/
def get (m : Matrix) (i j : Int) : Outcome Int := entry m.data (m.index i j)

/-- The matrix with entry `(i, j)` replaced. -/
def set (m : Matrix) (i j v : Int) : Outcome Matrix :=
  let k := m.index i j
  if 0 ≤ k ∧ k < m.data.size then .ok { m with data := m.data.setIfInBounds k.toNat v }
  else .error .fault

/-- Row `i`. -/
def row (m : Matrix) (i : Int) : Outcome (Array Int) :=
  slice m.data (wrap64 (i * m.cols)) (wrap64 (wrap64 (i + 1) * m.cols))

/-- Whether the entries of the first list are those the second starts with; a
fault if the second ends before they differ. -/
def sameEntries : List Int → List Int → Outcome Bool
  | [], _ => .ok true
  | _ :: _, [] => .error .fault
  | x :: xs, y :: ys => if x = y then sameEntries xs ys else .ok false

/-- Whether two matrices have the same shape and entries. -/
def equal (m n : Matrix) : Outcome Bool :=
  if m.rows ≠ n.rows ∨ m.cols ≠ n.cols then .ok false
  else sameEntries m.data.toList n.data.toList

end Matrix

namespace Scalar

/-- Every number of a table by `wrap`. -/
def wrapAll (s : Scalar) (xs : Array Int) : Outcome (Array Int) :=
  if xs.isEmpty then .ok #[] else do
    let kept ← s.keptBits
    return xs.map (·.bmod (twoTo kept))

/-- Every number of a table by `clip`. -/
def clipAll (s : Scalar) (xs : Array Int) : Outcome (Array Int) :=
  if xs.isEmpty then .ok #[] else do
    let lo ← s.min
    let hi ← s.max
    return xs.map fun v => if v < lo then lo else if hi < v then hi else v

/-- Every number of a table brought into the type. -/
def narrowAll (s : Scalar) (xs : Array Int) (clipped : Bool) : Outcome (Array Int) :=
  if clipped then s.clipAll xs else s.wrapAll xs

end Scalar

namespace Matrix

/-- Every entry brought into a scalar type; entries the shape does not promise
are a fault and missing ones zero. -/
def narrow (m : Matrix) (s : Scalar) (clipped : Bool) : Outcome Matrix := do
  let out ← zero m.rows m.cols
  if out.data.size < m.data.size then .error .fault
  return { out with data := copyInto out.data 0 (← s.narrowAll m.data clipped) }

end Matrix

/-- The number of pieces of length `b` that cover `a`. -/
def ceilDiv (a b : Int) : Outcome Int := quotient (wrap64 (wrap64 (a + b) - 1)) b

/-- The least multiple of `b` that is at least `a`. -/
def roundUp (a b : Int) : Outcome Int := return wrap64 ((← ceilDiv a b) * b)

end Tessera
