import Tessera.Matrix.Basic

/-!
# The product of matrices

`mulAdd a b x acc` is `x + a · b` in the scalar type `acc`: every entry is the
integer sum, brought into the type by wrapping. Rows of `x` below those of `a`
are only wrapped.
-/

namespace Tessera

/-- Row `i` of the product added to `row`: the rows of `b` weighted by the
entries of row `i` of `a`. -/
def addRow (a b : Matrix) (i : Int) (row : Array Int) : Outcome (Array Int) :=
  loopBelow a.cols row fun p row => do
    let factor ← entry a.data (wrap64 (i * a.cols + p))
    if factor = 0 then return row
    return Array.zipWith (fun d v => d + factor * v) row (← b.row p)

/-- The sum of `x` and the product of `a` and `b` in the scalar type `acc`. -/
def mulAdd (a b x : Matrix) (acc : Scalar) : Outcome Matrix := do
  if a.cols ≠ b.rows then
    Outcome.complain (.factorShapes a.rows a.cols b.rows b.cols)
  if x.cols ≠ b.cols ∨ x.rows < a.rows then
    Outcome.complain (.accumulatorShape x.rows x.cols a.rows b.cols)
  let data ← loopBelow a.rows x.data fun i data => do
    let start := wrap64 (i * b.cols)
    let row ← slice data start (wrap64 (wrap64 (i + 1) * b.cols))
    overwrite data start (← addRow a b i row)
  return { x with data := ← acc.wrapAll data }

end Tessera
