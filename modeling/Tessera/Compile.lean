import Tessera.Logged
import Tessera.Schedule.Check
import Tessera.Schedule.Plan
import Tessera.Stream.Lower

/-!
# Compiling a program

A program is shaped into blocks, scheduled, placed in memory and lowered to
code; then the code and its micro-operations are placed behind the data. Every
stage says in one line what it made, and a failure names its stage.

* `Compiled`: all that a compilation makes.
* `Compiled.finish`: places the code and moves it to its table.
* `compileLogged`, `compile`: the whole way, with and without lines.
-/

namespace Tessera

/-- Everything a compilation made. -/
structure Compiled where
  program : Program
  data : Shaped
  schedule : Schedule
  layout : Layout
  memory : Memory
  code : Code

/-- The bytes of an instruction. -/
def instructionBytes : Int := 16

/-- The bytes of a micro-operation. -/
def microOpBytes : Int := 4

/-- Places the code behind the data, first the table of micro-operations and then
the stream, moves the loads to the table, and checks the tokens. -/
def placeCode (m : Memory) (c : Code) : Outcome (Code × Memory) := do
  let (table, m) ← Outcome.within "dram" (Memory.granted
    (m.reserve "UOP" .uop (wrap64 (c.microOps.length * microOpBytes))))
  let (_, m) ← Outcome.within "dram" (Memory.granted
    (m.reserve "INSN" .insn (wrap64 (c.instructions.length * instructionBytes))))
  let (c, moved) := c.relocate table.logical
  Outcome.within "emit" moved
  Outcome.within "emit" (audit c.instructions)
  return (c, m)

namespace Config

/-- The configuration as one line. -/
def line (c : Config) (caps : Capacities) : Outcome String := do
  let block ← c.block
  let inp ← c.inp.name
  let wgt ← c.wgt.name
  let acc ← c.acc.name
  return s!"config: B={block} inp={inp} wgt={wgt} acc={acc} capacities {caps.text}"

end Config

namespace Shaped

/-- The shaped program as one line. -/
def line (d : Shaped) : String :=
  let n := d.counts
  let blocks := s!"A={n.nA} ({n.aCols} cols) W={n.nB} ({n.bCols} cols) X={n.nX} ({n.xCols} cols)"
  s!"shape: {d.form.name} program, {blocks} blocks, {d.ops.length} ALU ops, {d.storeMask.length} stored vectors"

end Shaped

namespace Schedule

/-- The schedule as one line. -/
def line (s : Schedule) : String :=
  let way := s!"{s.path.name} path, strategy {s.strategy.number}, {s.steps.length} steps"
  s!"partition: {way}, overflow={Text.truth s.overflow}, {s.storeGrain.name} stores"

end Schedule

namespace Code

/-- The code as one line. -/
def line (c : Code) : String :=
  let kinds := s!"{c.count .load} LOAD, {c.count .gemm} GEMM, {c.count .alu} ALU, {c.count .store} STORE"
  s!"emit: {c.instructions.length} instructions ({kinds}), {c.microOps.length} UOPs"

end Code

namespace Placed

/-- The object as one line. -/
def line (o : Placed) : String :=
  let addresses := s!"phys={Text.hexLiteral8 o.physical.toNat} logical={Text.hexLiteral8 o.logical.toNat}"
  s!"dram: {Text.padRight 7 o.name} {addresses} size={o.size}"

end Placed

/-- Compiles a program; `host` describes the machine this runs on. -/
def compileLogged (host : String) (config : Config) (options : PlanOptions) (p : Program) :
    Logged Compiled := do
  Outcome.within "config" config.validate
  let caps ← config.schedulingCapacities
  Logged.line s!"host: {host}"
  Logged.line (← config.line caps)
  let d ← Outcome.within "shape" (Shaped.build p config)
  Logged.line d.line
  let s ← Outcome.within "partition" (plan d caps options)
  Outcome.within "partition" s.validate
  Logged.line s.line
  let m := Memory.empty p.baseAddress p.dramOffset (← config.divisors)
  let (layout, m) ← Outcome.within "dram" (Layout.allocate m d s)
  let c ← Outcome.within "emit" (lower s d layout)
  let (c, m) ← placeCode m c
  Logged.line c.line
  Logged.write (m.objects.map (·.line))
  return { program := p, data := d, schedule := s, layout, memory := m, code := c }

/-- Compiles a program. -/
def compile (config : Config) (options : PlanOptions) (p : Program) : Outcome Compiled :=
  (compileLogged "" config options p).outcome

/-- The stages of a compilation without their lines. -/
theorem compile_eq (config : Config) (options : PlanOptions) (p : Program) :
    compile config options p = do
      Outcome.within "config" config.validate
      let caps ← config.schedulingCapacities
      let _ ← config.line caps
      let d ← Outcome.within "shape" (Shaped.build p config)
      let s ← Outcome.within "partition" (plan d caps options)
      Outcome.within "partition" s.validate
      let divisors ← config.divisors
      let m := Memory.empty p.baseAddress p.dramOffset divisors
      let (layout, m) ← Outcome.within "dram" (Layout.allocate m d s)
      let c ← Outcome.within "emit" (lower s d layout)
      let (c, m) ← placeCode m c
      return { program := p, data := d, schedule := s, layout, memory := m, code := c } := by
  simp only [compile, compileLogged, Logged.outcome_bind, Logged.outcome_lift,
    Logged.outcome_line, Logged.outcome_write, Logged.outcome_pure]
  rfl

end Tessera
