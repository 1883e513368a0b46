import Tessera.Hardware.Capacities

/-!
# What can be wrong with a program, a configuration or a stream

A diagnosis names an object (a matrix, `alu[3]`, `step[7]`, …) and says what is
wrong with it. There are ten kinds of diagnosis, and each kind has its own type
of details, so that a detail determines its kind.

* `ErrorKind`: the ten kinds, and numbers without a name.
* `Detail`: the details of every kind, with `Detail.kind` and `Detail.message`.
* `Diagnosis.message`: kind, object and detail as one line; an empty object is
  left out.
-/

namespace Tessera

/-- The kinds of diagnosis, numbered from one in this order; every other number
is a kind without a name. -/
inductive ErrorKind where
  | shapeMismatch
  | unknownOp
  | unsupportedCombination
  | capacityTooSmall
  | semaphoreUnderflow
  | dtypeUnsupported
  | unresolvedBlock
  | encodingOverflow
  | semaphoreImbalance
  | addressMisaligned
  | unnamed (code : Int) (outside : code < 1 ∨ 10 < code)
  deriving DecidableEq

namespace ErrorKind

/-- The named kinds in the order of their numbers. -/
def named : List ErrorKind :=
  [shapeMismatch, unknownOp, unsupportedCombination, capacityTooSmall, semaphoreUnderflow,
    dtypeUnsupported, unresolvedBlock, encodingOverflow, semaphoreImbalance, addressMisaligned]

/-- The kind with the number `code`. -/
def ofCode (code : Int) : ErrorKind :=
  if h : code < 1 ∨ 10 < code then unnamed code h
  else named.getD (code - 1).toNat shapeMismatch

/-- The name of the kind; one without a name shows its number. -/
def name : ErrorKind → String
  | shapeMismatch => "ShapeMismatch"
  | unknownOp => "UnknownOp"
  | unsupportedCombination => "UnsupportedCombination"
  | capacityTooSmall => "CapacityTooSmall"
  | semaphoreUnderflow => "SemaphoreUnderflow"
  | dtypeUnsupported => "DtypeUnsupported"
  | unresolvedBlock => "UnresolvedBlock"
  | encodingOverflow => "EncodingOverflow"
  | semaphoreImbalance => "SemaphoreImbalance"
  | addressMisaligned => "AddressMisaligned"
  | unnamed code _ => s!"ErrorKind({code})"

end ErrorKind

/-- Shapes that do not belong together. -/
inductive ShapeMismatch where
  | shapeArity (shape : List Int)
  | dataUndeclared
  | raggedData (row given want : Int)
  | sitesUnequal (destinations sources : Nat)
  | undeclared
  | noUniqueAccumulator (candidates : List String)
  | emptyShape (rows cols : Int)
  | declaredTwice
  | dataShape (dataRows dataCols rows cols : Int)
  | vectorOutside (vector vectors : Int)
  | noVectors
  | weightRows (rows : Int) (input : String) (cols : Int)
  | weightBlockRows (rows cols : Int)
  | productShape (rows cols productRows productCols : Int)
  | pairShape (rows cols : Int) (other : String) (otherRows otherCols : Int)
  | unsplittable (cols block : Int)
  | blocksNotMultiple (blocks cols : Int)
  | blockRowsDiffer (rows inputRows : Int)
  | blockColsDiffer (cols weightCols : Int)
  deriving Repr, DecidableEq

/-- Operations and opcodes nobody defined. -/
inductive UnknownOp where
  | emptyEntry
  | nameUnknown
  | noSemantics
  | opcodeUnassigned (code : Nat)
  deriving Repr, DecidableEq

/-- Requests that are each valid but cannot be met together. -/
inductive UnsupportedCombination where
  | nothingToDo
  | addWithGemm
  | addNotAlone (ops : Nat)
  | strategyOutside (number : Int)
  | vectorAfterSplitGemm
  | gemmAfterAlu (op : String)
  deriving Repr, DecidableEq

/-- Scratchpads below what a schedule needs. -/
inductive CapacityTooSmall where
  | blockSize (log : Int)
  | noBlockFits (capacities : Capacities)
  | accumulatorVectors (vectors : Int)
  | pinned (vectors capacity : Int)
  | constantBuffer (blocks : Int)
  | pairBuffer (blocks : Int)
  | smallestScratchpad (blocks : Int)
  | noSlice (height width : Int)
  | overfull (what : String) (blocks capacity : Int)
  | accumulatorOverfull (count : Int) (unit : String) (capacity : Int)
  deriving Repr, DecidableEq

/-- A token taken that nobody gave. -/
inductive SemaphoreUnderflow where
  | popsEmpty (opcode channel : String)
  deriving Repr, DecidableEq

/-- Tokens given twice, left over, or addressed to a stage that does not exist. -/
inductive SemaphoreImbalance where
  | pushesFull (opcode channel : String)
  | noPreviousStage
  | noNextStage
  | outstanding (tokens : String)
  deriving Repr, DecidableEq

/-- Scalar types the accelerator does not have. -/
inductive DtypeUnsupported where
  | logWidth (log : Int)
  | scalarOutside (scalar : Int) (type : String)
  deriving Repr, DecidableEq

/-- Blocks and vectors that are named but not there. -/
inductive UnresolvedBlock where
  | heldTwice (units : List Int)
  | loadedNowhere (what : String) (unit : Int)
  | operandAbsent (op : String)
  | siteAbsent (op : String) (dst src : Int)
  | storedAbsent (unit : String) (index : Int)
  | storesDiffer (recorded stored : List Int)
  | blockOutside (block : Int) (blocks : Nat)
  | layoutIncomplete
  | operandUnplaced (op : String)
  | storeUnrecorded (vector : Int)
  | vectorAbsent (vector : Int)
  | operandMissing (what : String) (blocks : List Int)
  | blockUnplaced (what : String) (block : Int)
  | vectorUnplaced (vector : Int)
  deriving Repr, DecidableEq

/-- Values beyond the width of their field. -/
inductive EncodingOverflow where
  | field (name : String) (value width : Nat)
  | immediateField (imm : Int)
  | microOp (dst src wgt : Nat)
  | immediate (imm : Int)
  | dramAddress (address : Nat)
  | uopAddress (address : Nat)
  | zeroFill (what : String) (block rows fill : Int)
  deriving Repr, DecidableEq

/-- Addresses that are no multiple of their transfer unit. -/
inductive AddressMisaligned where
  | offUnit (address divisor offset : Nat)
  | noPage (offset divisor : Nat)
  deriving Repr, DecidableEq

/-- What is wrong, of any kind. -/
inductive Detail where
  | shapeMismatch (d : ShapeMismatch)
  | unknownOp (d : UnknownOp)
  | unsupportedCombination (d : UnsupportedCombination)
  | capacityTooSmall (d : CapacityTooSmall)
  | semaphoreUnderflow (d : SemaphoreUnderflow)
  | dtypeUnsupported (d : DtypeUnsupported)
  | unresolvedBlock (d : UnresolvedBlock)
  | encodingOverflow (d : EncodingOverflow)
  | semaphoreImbalance (d : SemaphoreImbalance)
  | addressMisaligned (d : AddressMisaligned)
  | remark (kind : ErrorKind) (text : String)
  deriving DecidableEq

/-- The wording of a shape mismatch. -/
def ShapeMismatch.message : ShapeMismatch → String
  | shapeArity shape => s!"shape must be [rows, cols], got {Text.integers shape}"
  | dataUndeclared => "DATA for undeclared matrix"
  | raggedData row given want => s!"row {row} has {given} columns, want {want}"
  | sitesUnequal destinations sources => s!"{destinations} destinations but {sources} sources"
  | undeclared => "matrix is not declared"
  | noUniqueAccumulator candidates =>
    s!"no GEMM and no unique accumulator matrix among {Text.bracketed candidates}"
  | emptyShape rows cols => s!"shape {rows}x{cols}"
  | declaredTwice => "declared twice"
  | dataShape dataRows dataCols rows cols =>
    s!"data is {dataRows}x{dataCols}, declared {rows}x{cols}"
  | vectorOutside vector vectors =>
    s!"vector {vector} outside accumulator of {vectors} vectors"
  | noVectors => "op touches no vectors"
  | weightRows rows input cols => s!"has {rows} rows, {input} has {cols} columns"
  | weightBlockRows rows cols => s!"{rows} block rows, input has {cols} block columns"
  | productShape rows cols productRows productCols =>
    s!"is {rows}x{cols}, product is {productRows}x{productCols}"
  | pairShape rows cols other otherRows otherCols =>
    s!"is {rows}x{cols}, {other} is {otherRows}x{otherCols}"
  | unsplittable cols block => s!"split: {cols} columns not a multiple of block {block}"
  | blocksNotMultiple blocks cols => s!"{blocks} blocks not a multiple of {cols} block columns"
  | blockRowsDiffer rows inputRows => s!"{rows} block rows, input has {inputRows}"
  | blockColsDiffer cols weightCols => s!"{cols} block columns, weight has {weightCols}"

/-- The wording of an unknown operation. -/
def UnknownOp.message : UnknownOp → String
  | emptyEntry => "empty ALU entry"
  | nameUnknown => "not one of MIN, MAX, ADD, MUL, SHR (optionally _IMM), RELU, ADD_ACC"
  | noSemantics => "no reference semantics"
  | opcodeUnassigned code => s!"opcode {code}"

/-- The wording of an unsupported combination. -/
def UnsupportedCombination.message : UnsupportedCombination → String
  | nothingToDo => "program has neither GEMM nor ALU ops"
  | addWithGemm => "cannot be combined with GEMM"
  | addNotAlone ops => s!"must be the only ALU op, have {ops}"
  | strategyOutside number => s!"{number} not in 1..4"
  | vectorAfterSplitGemm => "vector-vector ALU op cannot follow an overflowing GEMM"
  | gemmAfterAlu op => s!"{op} follows an ALU op"

/-- The wording of a capacity that is too small. -/
def CapacityTooSmall.message : CapacityTooSmall → String
  | blockSize log => s!"block size 2^{log} unsupported"
  | noBlockFits capacities => s!"scratchpad cannot hold a single block: {capacities.text}"
  | accumulatorVectors vectors => s!"accumulator holds {vectors} vectors, need 2"
  | pinned vectors capacity =>
    s!"{vectors} vectors stay resident until a later use; accumulator holds {capacity}"
  | constantBuffer blocks => s!"buffer of {blocks} blocks, need 2"
  | pairBuffer blocks => s!"accumulator of {blocks} blocks, need 2"
  | smallestScratchpad blocks => s!"smallest scratchpad holds {blocks} blocks, need 2"
  | noSlice height width => s!"{height}x{width} output tile leaves no room for a k-slice"
  | overfull what blocks capacity => s!"{blocks} {what} blocks, capacity {capacity}"
  | accumulatorOverfull count unit capacity =>
    s!"{count} accumulator {unit}s, capacity {capacity}"

/-- The wording of a token underflow. -/
def SemaphoreUnderflow.message : SemaphoreUnderflow → String
  | popsEmpty opcode channel => s!"{opcode} pops {channel} with no token outstanding"

/-- The wording of a token imbalance. -/
def SemaphoreImbalance.message : SemaphoreImbalance → String
  | pushesFull opcode channel => s!"{opcode} pushes {channel} while a token is outstanding"
  | noPreviousStage => "load stage has no previous stage"
  | noNextStage => "store stage has no next stage"
  | outstanding tokens => s!"tokens outstanding after FINISH: {tokens}"

/-- The wording of an unsupported scalar type. -/
def DtypeUnsupported.message : DtypeUnsupported → String
  | logWidth log => s!"log width {log} not in \x7b3,4,5\x7d"
  | scalarOutside scalar type => s!"scalar {scalar} does not fit {type}"

/-- The wording of an unresolved block. -/
def UnresolvedBlock.message : UnresolvedBlock → String
  | heldTwice units => s!"accumulator holds {Text.integers units} twice"
  | loadedNowhere what unit => s!"loaded {what} {unit} has no position"
  | operandAbsent op => s!"{op} operand not resident"
  | siteAbsent op dst src => s!"{op} site \x7bDst:{dst} Src:{src}\x7d not resident"
  | storedAbsent unit index => s!"stores {unit} {index} which is not resident"
  | storesDiffer recorded stored =>
    s!"DramState {Text.integers recorded}, stores so far {Text.integers stored}"
  | blockOutside block blocks => s!"block {block} not in object of {blocks} blocks"
  | layoutIncomplete => "accumulator and output objects must be placed"
  | operandUnplaced op => s!"{op} operand has no scratchpad position"
  | storeUnrecorded vector => s!"stored vector {vector} missing from DramState"
  | vectorAbsent vector => s!"vector {vector} is not resident"
  | operandMissing what blocks =>
    s!"{what} blocks {Text.integers blocks} referenced but the program has no {what}"
  | blockUnplaced what block => s!"{what} block {block} has no scratchpad position"
  | vectorUnplaced vector => s!"ACC vector {vector} has no scratchpad position"

/-- The wording of a field overflow. -/
def EncodingOverflow.message : EncodingOverflow → String
  | field name value width => s!"field {name} = {value} does not fit in {width} bits"
  | immediateField imm => s!"imm {imm} does not fit in 16 bits"
  | microOp dst src wgt => s!"({dst}, {src}, {wgt}) exceeds 11/11/10-bit fields"
  | immediate imm => s!"immediate {imm} does not fit 16 bits"
  | dramAddress address => s!"DRAM address {Text.hexLiteral address} exceeds 32 bits"
  | uopAddress address => s!"UOP address {Text.hexLiteral address} exceeds 32 bits"
  | zeroFill what block rows fill =>
    s!"{what} block {block} has {rows} rows, zero fill of {fill} exceeds x_pad_right"

/-- The wording of a misaligned address. -/
def AddressMisaligned.message : AddressMisaligned → String
  | offUnit address divisor offset =>
    s!"address {Text.hexLiteral address} is not a multiple of {divisor} bytes past DRAM offset {Text.hexLiteral offset}"
  | noPage offset divisor =>
    s!"DRAM offset {Text.hexLiteral offset} admits no page-aligned address divisible by {divisor}"

/-- The kind of a detail. -/
def Detail.kind : Detail → ErrorKind
  | shapeMismatch _ => .shapeMismatch
  | unknownOp _ => .unknownOp
  | unsupportedCombination _ => .unsupportedCombination
  | capacityTooSmall _ => .capacityTooSmall
  | semaphoreUnderflow _ => .semaphoreUnderflow
  | dtypeUnsupported _ => .dtypeUnsupported
  | unresolvedBlock _ => .unresolvedBlock
  | encodingOverflow _ => .encodingOverflow
  | semaphoreImbalance _ => .semaphoreImbalance
  | addressMisaligned _ => .addressMisaligned
  | remark kind _ => kind

/-- The wording of a detail. -/
def Detail.message : Detail → String
  | shapeMismatch d => d.message
  | unknownOp d => d.message
  | unsupportedCombination d => d.message
  | capacityTooSmall d => d.message
  | semaphoreUnderflow d => d.message
  | dtypeUnsupported d => d.message
  | unresolvedBlock d => d.message
  | encodingOverflow d => d.message
  | semaphoreImbalance d => d.message
  | addressMisaligned d => d.message
  | remark _ text => text

/-- An object and what is wrong with it. -/
structure Diagnosis where
  object : String
  detail : Detail
  deriving DecidableEq

namespace Diagnosis

/-- The kind of the diagnosis. -/
def kind (d : Diagnosis) : ErrorKind := d.detail.kind

/-- The diagnosis as one line. -/
def message (d : Diagnosis) : String :=
  if d.object = "" then s!"{d.kind.name}: {d.detail.message}"
  else s!"{d.kind.name}: {d.object}: {d.detail.message}"

/-- Two diagnoses are of a kind when their kinds agree, whatever their objects. -/
def sameKind (d e : Diagnosis) : Bool := d.kind == e.kind

end Diagnosis

end Tessera
