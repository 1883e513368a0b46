import Tessera.Compile

/-!
# The files of a compilation

A compiled program is written as files: the bytes of its tensors, what the
output must read when it has run and what it reads before, the code, and the
addresses of the objects in memory.

* `Compiled.expectedOut`: the output region after the program has run.
* `Compiled.artefacts`: all files in order.
-/

namespace Tessera

/-- A file: its name and its bytes. -/
structure Artefact where
  name : String
  bytes : List UInt8
  deriving DecidableEq

namespace Compiled

/-- The name of a file that starts with `stem` and goes on with the program's
name. -/
def fileName (r : Compiled) (stem : String) : String :=
  if r.program.name = "" then s!"{stem}.bin" else s!"{stem}_{r.program.name}.bin"

/-- Where in the output region the `i`th stored unit stands, and its values:
vectors are packed in the order of their stores, blocks stand at their places. -/
def storedUnit (r : Compiled) (out : Placed) (i : Nat) (unit : Int) :
    Outcome (Int × List Int) := do
  let c := r.data.c
  match r.schedule.storeGrain with
  | .vector =>
    let block ← entry c.blocks (← quotient unit r.data.b)
    let values ← block.vector (← remainder unit r.data.b) r.data.b
    return (wrap64 (i * wrap64 (r.data.b * (← c.scalar.bytes))), values.toList)
  | .block =>
    let block ← entry c.blocks unit
    let address := (← entry out.blocks unit).physical - out.physical
    return (address.toNat, block.data.toList)

/-- The output region as it must read when the program has run. -/
def expectedOut (r : Compiled) : Outcome (List UInt8) := do
  let out ← Outcome.ofOption r.layout.out
  let blank : Array UInt8 := Array.replicate out.size.toNat 0
  let bytes ← r.schedule.stored.zipIdx.foldlM (fun (bytes : Array UInt8) (unit, i) => do
    let (start, values) ← r.storedUnit out i unit
    overwrite bytes start (values.flatMap r.data.c.scalar.bytesOf).toArray) blank
  return bytes.toList

/-- The output region before the program runs. -/
def blankOut (r : Compiled) : Outcome (List UInt8) :=
  return List.replicate (← Outcome.ofOption r.layout.out).size.toNat 0

/-- The file of a tensor, if there is one. -/
def tensorFile (r : Compiled) (stem : String) : Option Tensor → Outcome (List Artefact)
  | none => .ok []
  | some t => return [⟨r.fileName stem, ← t.bytes⟩]

/-- The files of the compilation. -/
def artefacts (r : Compiled) : Outcome (List Artefact) := do
  let (stream, table) ← r.code.encode
  let d := r.data
  let input ← r.tensorFile "input" d.a
  let weight ← r.tensorFile "weight" d.w
  let accumulator ← r.tensorFile "accumulator" (some d.x)
  let addAccumulator ← r.tensorFile "add_accumulator" d.y
  let expected := Artefact.mk (r.fileName "expected_out") (← r.expectedOut)
  let blank := Artefact.mk (r.fileName "out_init") (← r.blankOut)
  let result ← r.tensorFile "expected_out_sram" (some d.c)
  return input ++ weight ++ accumulator ++ addAccumulator ++ [expected, blank] ++ result ++
    [⟨r.fileName "instructions", stream⟩, ⟨r.fileName "uop", table⟩,
      ⟨"memory_addresses.csv", r.memory.table.toUTF8.toList⟩]

end Compiled

end Tessera
