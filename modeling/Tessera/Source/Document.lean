import Tessera.Json.Assign
import Tessera.Json.Reader
import Tessera.Power
import Tessera.Source.Program
import Tessera.Text.Numeral

/-!
# Program documents

A program is written as a JSON object. Reading it has two steps: the members of
the object are collected, and then a program is made of them.

* `Document.read?`: the members; an unknown member or one of the wrong type
  spoils the document.
* `Program.ofDocument`: declares the matrices in the order of their roles and
  then of their names, attaches data, and reads the product and the ALU list.
* `Program.decode`: both, and `Program.validate`.
-/

namespace Tessera

/-- The members of a program document. -/
structure Document where
  name : String
  /-- The shapes of the matrices by name. -/
  matrices : List (String × List Int)
  /-- The rows of matrices by name. -/
  data : List (String × List (List Int))
  gemm : Option (List Json.Node)
  alu : List (List Json.Node)
  baseAddress : Option Json.Node
  dramOffset : Option Json.Node
  clip : Bool
  nonSquareInput : Bool
  seed : Int
  valueRange : Option (List Int)

namespace Document

/-- The variables the members of a document are assigned to. -/
structure Draft where
  name : String := ""
  matrices : List (String × Option (Json.Cells Int)) := []
  data : List (String × Option (Json.Cells (Option (Json.Cells Int)))) := []
  gemm : Option (Json.Cells (Option Json.Node)) := none
  alu : Option (Json.Cells (Option (Json.Cells (Option Json.Node)))) := none
  baseAddress : Option Json.Node := none
  dramOffset : Option Json.Node := none
  clip : Bool := false
  nonSquareInput : Bool := false
  seed : Int := 0
  valueRange : Option (Json.Cells Int) := none

/-- Assigns a list of integers. -/
def assignInts : Json.Assign (Option (Json.Cells Int)) := Json.assignList 0 Json.assignInt

/-- Assigns a list of values as they stand. -/
def assignNodes : Json.Assign (Option (Json.Cells (Option Json.Node))) :=
  Json.assignList none Json.assignNode

/-- The members of a program document. -/
def fields : List (String × Json.Assign Draft) :=
  [("NAME", fun d n => (Json.assignString d.name n).map ({ d with name := · })),
    ("MATRICES", fun d n =>
      (Json.assignMap none assignInts d.matrices n).map ({ d with matrices := · })),
    ("DATA", fun d n =>
      (Json.assignMap none (Json.assignList none assignInts) d.data n).map ({ d with data := · })),
    ("GEMM", fun d n => (assignNodes d.gemm n).map ({ d with gemm := · })),
    ("ALU", fun d n => (Json.assignList none assignNodes d.alu n).map ({ d with alu := · })),
    ("BASE_ADDRESS", fun d n =>
      (Json.assignNode d.baseAddress n).map ({ d with baseAddress := · })),
    ("DRAM_OFFSET", fun d n =>
      (Json.assignNode d.dramOffset n).map ({ d with dramOffset := · })),
    ("CLIP", fun d n => (Json.assignBool d.clip n).map ({ d with clip := · })),
    ("NON_SQUARE_INPUT", fun d n =>
      (Json.assignBool d.nonSquareInput n).map ({ d with nonSquareInput := · })),
    ("SEED", fun d n => (Json.assignInt d.seed n).map ({ d with seed := · })),
    ("VALUE_RANGE", fun d n => (assignInts d.valueRange n).map ({ d with valueRange := · }))]

/-- The elements of a list variable, none if it has no list. -/
def elements {α : Type} (c : Option (Json.Cells α)) : List α :=
  match c with
  | some c => c.toList
  | none => []

/-- The document the variables describe. -/
def ofDraft (d : Draft) : Document where
  name := d.name
  matrices := d.matrices.map fun (name, shape) => (name, elements shape)
  data := d.data.map fun (name, rows) => (name, (elements rows).map elements)
  gemm := d.gemm.map fun c => c.toList.filterMap id
  alu := (elements d.alu).map fun entry => (elements entry).filterMap id
  baseAddress := d.baseAddress
  dramOffset := d.dramOffset
  clip := d.clip
  nonSquareInput := d.nonSquareInput
  seed := d.seed
  valueRange := d.valueRange.map (·.toList)

/-- The members of the object a text starts with. -/
def read? (text : List Char) : Option Document := do
  let json ← Json.read? text
  let draft ← Json.assignRecord (Json.fieldOf fields) {} (⟨text, []⟩, json)
  return ofDraft draft

end Document

/-- The value assigned to a fresh variable, or the report of a bad document. -/
def readNode {α : Type} (zero : α) (assign : Json.Assign α) (node : Json.Node) : Outcome α :=
  match assign zero node with
  | some a => .ok a
  | none => Outcome.refuse .document

/-- A list of integers, none for `null`. -/
def readInts? (node : Json.Node) : Outcome (Option (List Int)) :=
  return (← readNode none Document.assignInts node).map (·.toList)

/-- An address: a numeral in a string, or a number; zero if it is left out. -/
def readAddress (field : String) (node : Option Json.Node) : Outcome UInt64 :=
  Outcome.within field <|
    match node with
    | none => .ok 0
    | some (_, .null) => .ok 0
    | some (_, .string s) =>
      let numeral := Text.trim s
      match Text.unsigned numeral.toList with
      | .ok n => .ok (UInt64.ofNat n)
      | .error e => Outcome.complain (.addressNumeral (Text.quoted numeral) e)
    | some (span, value) =>
      match value with
      | .number ('-' :: _) => Outcome.complain (.addressForm span.text)
      | _ =>
        match Json.assignInteger 0 (twoTo 64 - 1) 0 (span, value) with
        | some n => .ok (UInt64.ofInt n)
        | none => Outcome.complain (.addressForm span.text)

/-- The product `[input, weight or number, accumulator?]`. -/
def readGemm (nodes : List Json.Node) : Outcome Gemm := do
  let (first, second, third) ← match nodes with
    | [a, b] => pure (a, b, none)
    | [a, b, c] => pure (a, b, some c)
    | _ => Outcome.complain (.gemmArity nodes.length)
  let input ← Outcome.within "GEMM input" (readNode "" Json.assignString first)
  let g : Gemm ← match Json.assignString "" second with
    | some weight => pure { input, weight }
    | none =>
      match Json.assignInt 0 second with
      | some scalar => pure { input, scalar, constant := true }
      | none => Outcome.complain (.weightForm second.1.text)
  match third with
  | none => return g
  | some node =>
    let accumulator ← Outcome.within "GEMM accumulator" (readNode "" Json.assignString node)
    return { g with accumulator }

/-- Vectors: one index, or first index, step and count. -/
def readIndices (node : Json.Node) : Outcome (List Int) :=
  match Json.assignInt 0 node with
  | some v => .ok [v]
  | none =>
    match (Document.assignInts none node).map Document.elements with
    | some [first, step, count] =>
      if count < 0 then Outcome.complain (.negativeCount [first, step, count])
      else progression first step count
    | _ => Outcome.complain (.indexForm node.1.text)

/-- Whether the parameters are two zeros, which stand for every vector. -/
def meansAll (params : List Json.Node) : Bool :=
  params.length == 2 && params.all fun node => Json.assignInt 0 node == some 0

/-- The maximum with zero: of listed vectors, of those the first parameter
gives, or of all. -/
def readRelu (params : List Json.Node) (sites : Option Json.Node) : Outcome AluEntry :=
  match sites with
  | some node => return .relu (← Outcome.within "RELU sites" (readInts? node))
  | none =>
    match params with
    | [] => .ok (.relu none)
    | first :: _ =>
      if meansAll params then .ok (.relu none)
      else return .relu (some (← Outcome.within "RELU" (readIndices first)))

/-- An operation with a number: parameters are vectors and the number. -/
def readImmediate (name : String) (op : AluOp) (params : List Json.Node)
    (sites : Option Json.Node) : Outcome AluEntry := do
  let (dst, number) ← match params with
    | [dst, number] => pure (dst, number)
    | _ => Outcome.within name (Outcome.complain .immediateParams)
  let imm ← Outcome.within s!"{name} immediate" (readNode 0 Json.assignInt number)
  match sites with
  | some node =>
    return .immediate op imm ((← Outcome.within s!"{name} sites" (readInts? node)).getD [])
  | none => return .immediate op imm (← Outcome.within name (readIndices dst))

/-- An operation on pairs: a list of pairs, or destinations and sources; one
source may serve all destinations. -/
def readVector (name : String) (op : AluOp) (params : List Json.Node)
    (sites : Option Json.Node) : Outcome AluEntry := do
  match sites with
  | some node =>
    let pairs ← Outcome.within s!"{name} sites"
      (readNode none (Json.assignList (0, 0) Json.assignPair) node)
    return .vector op ((Document.elements pairs).map fun (d, s) => ⟨d, s⟩)
  | none =>
    let (first, second) ← match params with
      | [first, second] => pure (first, second)
      | _ => Outcome.within name (Outcome.complain .vectorParams)
    let dst ← Outcome.within s!"{name} dst" (readIndices first)
    let src ← Outcome.within s!"{name} src" (readIndices second)
    let src := match src with
      | [s] => if 1 < dst.length then List.replicate dst.length s else [s]
      | _ => src
    if src.length ≠ dst.length then
      Outcome.diagnose name (.shapeMismatch (.sitesUnequal dst.length src.length))
    return .vector op (List.zipWith Site.mk dst src)

/-- An entry `[name, parameters?, vectors?]` of the ALU list. -/
def readAlu (entry : List Json.Node) : Outcome AluEntry :=
  match entry with
  | [] => Outcome.diagnose "" (.unknownOp .emptyEntry)
  | first :: rest => do
    let given ← Outcome.within "op name" (readNode "" Json.assignString first)
    let name := Text.canonical given
    match classify name with
    | (none, _) => Outcome.diagnose given (.unknownOp .nameUnknown)
    | (some op, takesNumber) =>
      let params ← match rest with
        | [] => pure []
        | node :: _ => do
          pure (Document.elements
            (← Outcome.within s!"{name} params" (readNode none Document.assignNodes node)))
      let params := params.filterMap id
      let sites := (rest.drop 1).head?
      if name = "ADD_ACC" then return .addAccumulators
      else if name = "RELU" then readRelu params sites
      else if takesNumber then readImmediate name op params sites
      else readVector name op params sites

namespace Program

/-- The names with a meaning in the order of their roles. -/
def roleNames : List String :=
  [inputName, weightName, accumulatorName, addAccumulatorName, outputName]

/-- Whether a name comes before another or equals it: names with a meaning in
the order of their roles, then all others in the order of their characters. -/
def nameLe (a b : String) : Bool :=
  match roleNames.idxOf? a, roleNames.idxOf? b with
  | some i, some j => i ≤ j
  | some _, none => true
  | none, some _ => false
  | none, none => decide (a ≤ b)

/-- The matrices of a document in the order they are declared in. -/
def declare (matrices : List (String × List Int)) : Outcome (List Declared) :=
  (matrices.mergeSort fun a b => nameLe (Text.canonical a.1) (Text.canonical b.1)).mapM
    fun (name, shape) =>
      match shape with
      | [rows, cols] => pure { name := Text.canonical name, rows, cols }
      | _ => Outcome.diagnose name (.shapeMismatch (.shapeArity shape))

/-- Gives data to the first matrix of a name. -/
def attach (matrices : List Declared) (name : String) (rows : List (List Int)) :
    Outcome (List Declared) :=
  match matrices.findIdx? (·.name = Text.canonical name) with
  | none => Outcome.diagnose name (.shapeMismatch .dataUndeclared)
  | some i =>
    match Matrix.ofRows rows with
    | .error e => Outcome.diagnose name (.shapeMismatch (.raggedData e.row e.given e.want))
    | .ok data => .ok (matrices.modify i ({ · with data := some data }))

/-- The range of seeded values, zero to three if it is left out. -/
def valueRange : Option (List Int) → Outcome (Int × Int)
  | none => .ok (0, 3)
  | some [lo, hi] => .ok (lo, hi)
  | some values => Outcome.complain (.valueRangeArity values)

/-- The program a document describes. -/
def ofDocument (d : Document) : Outcome Program := do
  let (valueMin, valueMax) ← valueRange d.valueRange
  let baseAddress ← readAddress "BASE_ADDRESS" d.baseAddress
  let dramOffset ← readAddress "DRAM_OFFSET" d.dramOffset
  let declared ← declare d.matrices
  let matrices ← d.data.foldlM (fun ms (name, rows) => attach ms name rows) declared
  let gemm ← d.gemm.mapM readGemm
  let alu ← d.alu.zipIdx.mapM fun (entry, i) => Outcome.within s!"alu[{i}]" (readAlu entry)
  let p : Program :=
    { name := d.name, matrices, gemm, alu, baseAddress, dramOffset, clip := d.clip,
      nonSquareInput := d.nonSquareInput, seed := d.seed, valueMin, valueMax }
  p.validate
  return p

/-- The program a text describes. -/
def decode (text : List Char) : Outcome Program :=
  match Document.read? text with
  | some d => ofDocument d
  | none => Outcome.within "decoding program" (Outcome.refuse .document)

end Program

end Tessera
