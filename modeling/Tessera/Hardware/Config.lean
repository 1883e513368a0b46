import Tessera.Instruction.Basic
import Tessera.Json.Assign
import Tessera.Json.Reader
import Tessera.Power
import Tessera.Scalar

/-!
# The accelerator's configuration

Eight logarithms describe an accelerator: the widths of its three scalar types,
the side of a block and the sizes of four buffers.

* `Config.capacities`: what each scratchpad holds.
* `Config.schedulingCapacities`: the same, limited to what a micro-operation
  can address: `2 ^ 11` rows and `2 ^ 10` weight blocks.
* `Config.divisors`: the bytes of one transfer unit.
* `Config.validate`: the widths are supported, a block has at most 64 rows, and
  every scratchpad holds at least one unit.
* `Config.decode`: a JSON document, with `Config.standard` for absent members.
-/

namespace Tessera

/-- The logarithms that describe an accelerator. -/
structure Config where
  logInpWidth : Int
  logWgtWidth : Int
  logAccWidth : Int
  logBlock : Int
  logInpBuffer : Int
  logWgtBuffer : Int
  logAccBuffer : Int
  logUopBuffer : Int
  deriving Repr, DecidableEq, Inhabited

namespace Config

/-- The standard accelerator: 8-bit inputs and weights, 32-bit accumulators and
blocks of 16 by 16. -/
def standard : Config := ⟨3, 3, 5, 4, 15, 18, 17, 15⟩

/-- The side of a block. -/
def block (c : Config) : Outcome Int := shiftOne c.logBlock

/-- The scalar type of inputs. -/
def inp (c : Config) : Scalar := ⟨c.logInpWidth⟩

/-- The scalar type of weights. -/
def wgt (c : Config) : Scalar := ⟨c.logWgtWidth⟩

/-- The scalar type of accumulators. -/
def acc (c : Config) : Scalar := ⟨c.logAccWidth⟩

/-- The scalar type of outputs, which is that of inputs. -/
def out (c : Config) : Scalar := c.inp

/-- What each scratchpad holds: rows of a block for inputs, accumulators and
outputs, whole blocks for weights, four-byte words for micro-operations. -/
def capacities (c : Config) : Outcome Capacities := do
  let b ← c.block
  let acc ← quotient (← shiftOne c.logAccBuffer) (wrap64 ((← c.acc.bytes) * b))
  let inp ← quotient (← shiftOne c.logInpBuffer) (wrap64 ((← c.inp.bytes) * b))
  let wgt ← quotient (← shiftOne c.logWgtBuffer) (wrap64 (wrap64 ((← c.wgt.bytes) * b) * b))
  let uop ← quotient (← shiftOne c.logUopBuffer) 4
  return ⟨inp, wgt, acc, acc, uop⟩

/-- The capacities as far as micro-operations can address them. -/
def schedulingCapacities (c : Config) : Outcome Capacities := do
  let caps ← c.capacities
  let rows ← quotient (twoTo MicroOp.rowBits) (← c.block)
  return { caps with
    inp := min caps.inp rows
    acc := min caps.acc rows
    out := min caps.out rows
    wgt := min caps.wgt (twoTo MicroOp.blockBits) }

/-- The bytes of one transfer unit: a row of a block for inputs, accumulators
and outputs, a whole block for weights. -/
def divisors (c : Config) : Outcome Divisors := do
  let b ← c.block
  let inp ← c.inp.bytes
  let wgt ← c.wgt.bytes
  let acc ← c.acc.bytes
  return ⟨wrap64 (b * inp), wrap64 (wrap64 (b * b) * wgt), wrap64 (b * acc), wrap64 (b * inp),
    4, 16⟩

/-- Checks the widths, the side of a block and that every scratchpad holds at
least one unit. -/
def validate (c : Config) : Outcome Unit := do
  let _ ← Scalar.ofLog "LOG_INP_WIDTH" c.logInpWidth
  let _ ← Scalar.ofLog "LOG_WGT_WIDTH" c.logWgtWidth
  let _ ← Scalar.ofLog "LOG_ACC_WIDTH" c.logAccWidth
  if c.logBlock < 0 ∨ 6 < c.logBlock then
    Outcome.diagnose "LOG_BLOCK" (.capacityTooSmall (.blockSize c.logBlock))
  let caps ← c.schedulingCapacities
  if caps.inp < 1 ∨ caps.wgt < 1 ∨ caps.acc < 1 ∨ caps.uop < 1 then
    Outcome.diagnose "config" (.capacityTooSmall (.noBlockFits caps))

/-- The members of a configuration document. -/
def fields : List (String × Json.Assign Config) :=
  [("LOG_INP_WIDTH", fun c n => (Json.assignInt c.logInpWidth n).map ({ c with logInpWidth := · })),
    ("LOG_WGT_WIDTH", fun c n => (Json.assignInt c.logWgtWidth n).map ({ c with logWgtWidth := · })),
    ("LOG_ACC_WIDTH", fun c n => (Json.assignInt c.logAccWidth n).map ({ c with logAccWidth := · })),
    ("LOG_BLOCK", fun c n => (Json.assignInt c.logBlock n).map ({ c with logBlock := · })),
    ("LOG_INP_BUFF_SIZE",
      fun c n => (Json.assignInt c.logInpBuffer n).map ({ c with logInpBuffer := · })),
    ("LOG_WGT_BUFF_SIZE",
      fun c n => (Json.assignInt c.logWgtBuffer n).map ({ c with logWgtBuffer := · })),
    ("LOG_ACC_BUFF_SIZE",
      fun c n => (Json.assignInt c.logAccBuffer n).map ({ c with logAccBuffer := · })),
    ("LOG_UOP_BUFF_SIZE",
      fun c n => (Json.assignInt c.logUopBuffer n).map ({ c with logUopBuffer := · }))]

/-- The configuration a text describes, over the standard one; the text may
hold more after its first value. -/
def read? (text : List Char) : Option Config :=
  (Json.read? text).bind fun json =>
    Json.assignRecord (Json.fieldOf fields) standard (⟨text, []⟩, json)

/-- Reads and validates a configuration document. -/
def decode (text : List Char) : Outcome Config := do
  let c ← match read? text with
    | some c => pure c
    | none => Outcome.within "decoding config" (Outcome.refuse .document)
  c.validate
  return c

end Config

end Tessera
