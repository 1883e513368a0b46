import Tessera.Proofs.Execution

/-!
# What a compilation reads of its data

A schedule and a layout are made from how many blocks there are and how large they are, not
from the numbers in them. The frame of a shaped program is what is left of it when its
numbers are taken away; schedules and layouts are those of the frame.

* `Shaped.frame`: a shaped program without its numbers.
* `plan_frame`, `allocate_frame`: the schedule and the layout of a frame.
* `Compiled.Made.same_plan`: compilations of the same frame have the same schedule and layout.
-/

namespace Tessera

/-- A block with all its numbers zero. -/
def Block.frame (k : Block) : Block := ⟨k.height, Array.replicate k.data.size 0⟩

/-- A tensor with all its numbers zero. -/
def Tensor.frame (t : Tensor) : Tensor :=
  { t with blocks := t.blocks.map Block.frame, padded := default }

/-- A shaped program with all its numbers zero, and no results. -/
def Shaped.frame (d : Shaped) : Shaped :=
  { d with a := d.a.map Tensor.frame, w := d.w.map Tensor.frame, x := d.x.frame
           y := d.y.map Tensor.frame, acc := default, final := default, c := d.c.frame }

@[simp] theorem Tensor.size_frame (t : Tensor) : t.frame.size = t.size := by
  simp [Tensor.size, Tensor.frame]

@[simp] theorem Tensor.blockSizes_frame (t : Tensor) : t.frame.blockSizes = t.blockSizes := by
  simp [Tensor.blockSizes, Tensor.frame, Block.frame, List.map_map, Function.comp_def]

@[simp] theorem Shaped.vectors_frame (d : Shaped) : d.frame.vectors = d.vectors := by
  simp [Shaped.vectors, Shaped.frame]

@[simp] theorem Shaped.counts_frame (d : Shaped) : d.frame.counts = d.counts := by
  unfold Shaped.counts Shaped.frame
  simp only [Option.map_map, Tensor.size_frame, Function.comp_def]
  rfl

namespace Planner

theorem nameOf_frame (t : Option Tensor) : nameOf (t.map Tensor.frame) = nameOf t := by
  cases t <;> rfl

theorem checkShape_frame (p : Planner) :
    checkShape { p with data := p.data.frame } = p.checkShape := by
  unfold checkShape
  simp only [Shaped.frame, nameOf_frame]
  rfl

theorem aluOverflow_frame (p : Planner) :
    aluOverflow { p with data := p.data.frame } = p.aluOverflow := by
  unfold aluOverflow
  simp only [Shaped.vectors_frame]
  rfl

/-- **The steps of a program are those of its frame.** -/
theorem steps_frame (p : Planner) : steps { p with data := p.data.frame } = p.steps := by
  unfold steps
  simp only [checkShape_frame, aluOverflow_frame]
  rfl

end Planner

/-- **The schedule of a program is that of its frame.** -/
theorem plan_frame (d : Shaped) (caps : Capacities) (options : PlanOptions) :
    plan d.frame caps options = plan d caps options := by
  unfold plan
  simp only [Outcome.ite_bind, Shaped.counts_frame]
  refine Outcome.bind_congr fun strategy _ => ?_
  have hsteps := Planner.steps_frame
    { data := d, counts := d.counts, caps, strategy, inclusiveFit := options.inclusiveFit
      results := Std.TreeSet.ofList d.storeBlocks }
  exact congrArg (· >>= _) hsteps

/-- **The layout of a program is that of its frame.** -/
theorem allocate_frame (m : Memory) (d : Shaped) (s : Schedule) :
    Layout.allocate m d.frame s = Layout.allocate m d s := by
  have htensor : ∀ (m : Memory) (name : String) (r : Region) (t : Option Tensor),
      Layout.placeTensor m name r (t.map Tensor.frame) = Layout.placeTensor m name r t := by
    intro m name r t
    cases t with
    | none => rfl
    | some t => simp only [Option.map_some, Layout.placeTensor, Tensor.blockSizes_frame]
  have hout : ∀ m : Memory, Layout.placeOutput m d.frame s = Layout.placeOutput m d s := by
    intro m
    unfold Layout.placeOutput
    cases s.storeGrain with
    | block => exact htensor m "OUT" .out (some d.c)
    | vector => rfl
  have hx : ∀ m : Memory, Layout.placeTensor m "ACC" .acc (some d.x.frame) =
      Layout.placeTensor m "ACC" .acc (some d.x) := fun m => htensor m "ACC" .acc (some d.x)
  unfold Layout.allocate
  simp only [hout]
  simp only [Shaped.frame, htensor, hx]

section Made

variable {r r' : Compiled} {c : Config} {caps caps' : Capacities} {options : PlanOptions}
  {divisors divisors' : Divisors} {data data' : Memory} {code code' : Code} {table table' : Placed}

/-- **Compilations of the same frame** at the same addresses have the same schedule and layout. -/
theorem Compiled.Made.same_plan (h : r.Made c caps options divisors data code table)
    (h' : r'.Made c caps' options divisors' data' code' table') (hframe : r.data.frame = r'.data.frame)
    (hbase : r.program.baseAddress = r'.program.baseAddress)
    (hoffset : r.program.dramOffset = r'.program.dramOffset) :
    r.schedule = r'.schedule ∧ r.layout = r'.layout := by
  obtain rfl := Except.ok.inj (h.capacities.symm.trans h'.capacities)
  obtain rfl := Except.ok.inj (h.units.symm.trans h'.units)
  have hplan := h.planned
  have halloc := h.allocated
  rw [← plan_frame, hframe, plan_frame, h'.planned] at hplan
  obtain hschedule := Except.ok.inj hplan
  rw [← allocate_frame, hframe, allocate_frame, hbase, hoffset, ← hschedule, h'.allocated] at halloc
  exact ⟨hschedule.symm, (Prod.mk.inj (Except.ok.inj halloc)).1.symm⟩

/-- **What is expected of the output** depends on the numbers of the output only. -/
theorem Compiled.expectedOut_congr (hschedule : r.schedule = r'.schedule)
    (hlayout : r.layout = r'.layout) (hb : r.data.b = r'.data.b)
    (hscalar : r.data.c.scalar = r'.data.c.scalar) (hblocks : r.data.c.blocks = r'.data.c.blocks) :
    r.expectedOut = r'.expectedOut := by
  unfold Compiled.expectedOut Compiled.storedUnit
  simp only [hschedule, hlayout, hb, hscalar, hblocks]

end Made

end Tessera
