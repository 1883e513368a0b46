import Tessera.Schedule.Planner

/-!
# Operations that do not fit

When the accumulator is larger than its scratchpad, operations are scheduled
vector by vector. A vector that was written stays until its last use and is
stored then if it holds a result; a vector that was only read may give up its
place and be loaded again.

* `flatten`: the sites of all operations, one by one, in order.
* `hazardFree`: whether an order keeps every two conflicting accesses in order; an access
  outside the tables is a fault.
* `orderEntries`: the sites grouped by destination, if that is free of hazards.
* `Planner.aluOverflow`: places the sites one after the other and closes a step
  whenever there is no room.
-/

namespace Tessera

/-- One site of one operation, with its number in the list of all sites. -/
structure Entry where
  op : Resolved
  site : Site
  seq : Nat
  deriving DecidableEq

/-- The vectors an entry touches: its destination, and a source other than that. -/
def Entry.need (e : Entry) : List Int :=
  if e.site.src ≠ noSource ∧ e.site.src ≠ e.site.dst then [e.site.dst, e.site.src]
  else [e.site.dst]

/-- The sites of all operations in order. -/
def flatten (ops : List Resolved) : List Entry :=
  (ops.flatMap fun r => r.sites.map fun s => (r, s)).zipIdx.map fun ((r, s), n) => ⟨r, s, n⟩

/-- What is known of the accesses to each vector: the latest place of a write,
and of any access; zero stands for none, and places count from one. -/
structure Accesses where
  write : Array Nat
  any : Array Nat

/-- A table with one entry replaced, a fault outside of it. -/
def replaced (table : Array Nat) (i : Int) (x : Nat) : Outcome (Array Nat) :=
  (entry table i).map fun _ => table.setIfInBounds i.toNat x

/-- A table with one entry raised to `p` at least, a fault outside of it. -/
def raisedTo (p : Nat) (table : Array Nat) (i : Int) : Outcome (Array Nat) := do
  replaced table i (max (← entry table i) p)

namespace Accesses

/-- The accesses after a site at place `p` has read its source, if it has one. There
are none if a write of the source comes later. -/
def afterRead (seen : Accesses) (s : Site) (p : Nat) : Outcome (Option Accesses) := do
  if s.src = noSource then return some seen
  else if p < (← entry seen.write s.src) then return none
  else return some { seen with any := ← raisedTo p seen.any s.src }

/-- The accesses after a site at place `p` has written its destination. There are none
if any access to it comes later. -/
def afterWrite (seen : Accesses) (s : Site) (p : Nat) : Outcome (Option Accesses) := do
  if p < (← entry seen.any s.dst) then return none
  else return some ⟨← raisedTo p seen.write s.dst, ← raisedTo p seen.any s.dst⟩

end Accesses

/-- Whether the entries, in their first order, come to places in `place` that
keep conflicting accesses in order; `seen` are the accesses so far. -/
def hazardFreeFrom (place : Array Nat) (seen : Accesses) : List Entry → Outcome Bool
  | [] => .ok true
  | e :: es => do
    let p := (← entry place e.seq) + 1
    match ← seen.afterRead e.site p with
    | none => return false
    | some seen =>
      match ← seen.afterWrite e.site p with
      | none => return false
      | some seen => hazardFreeFrom place seen es

/-- Whether `order` runs every two accesses to one vector, one of which writes
it, in the order of `entries`. A vector or an entry that has no place in the tables
is a fault. -/
def hazardFree (entries order : List Entry) (vectors : Nat) : Outcome Bool := do
  let place ← order.zipIdx.foldlM (fun place (e, i) => replaced place e.seq i)
    (Array.replicate order.length 0)
  hazardFreeFrom place ⟨Array.replicate vectors 0, Array.replicate vectors 0⟩ entries

/-- The entries by destination, those with one destination in the order they have. -/
def byDestination (entries : List Entry) : List Entry :=
  entries.mergeSort fun a b => a.site.dst ≤ b.site.dst

/-- The entries by destination if that keeps conflicting accesses in order, and
as they are otherwise. -/
def orderEntries (entries : List Entry) (vectors : Nat) : Outcome (List Entry) := do
  return if ← hazardFree entries (byDestination entries) vectors then byDestination entries
    else entries

/-- The number of the last entry that touches each vector. -/
def lastTouch (vectors : Nat) (order : List Entry) : Array Nat :=
  order.zipIdx.foldl (fun last (e, i) =>
    e.need.foldl (fun last v => last.setIfInBounds v.toNat i) last) (Array.replicate vectors 0)

/-- A vector in the scratchpad: whether it was written since it was loaded, and
whether the step in work touches it. -/
structure Held where
  vector : Int
  dirty : Bool := false
  used : Bool := false
  deriving Repr, DecidableEq

/-- The scratchpad, the step in work and the finished steps; lists that grow are
kept latest first. -/
structure Placing where
  slots : List (Option Held) := []
  loadX : List Int := []
  ops : List (Resolved × List Site) := []
  done : List Step := []

namespace Placing

/-- Whether a vector is in the scratchpad. -/
def holds (s : Placing) (v : Int) : Bool :=
  s.slots.any fun slot => slot.any (·.vector = v)

/-- Whether a slot can take a new vector while those of `need` stay. -/
def yields (need : List Int) : Option Held → Bool
  | none => true
  | some h => !h.dirty && !h.used && !need.contains h.vector

/-- How many new vectors there is room for. -/
def room (s : Placing) (capacity : Int) (need : List Int) : Int :=
  capacity - s.slots.length + s.slots.countP (yields need)

/-- The slots with one vector more: in a free slot, else a new one, else in place of a
vector that yields. If none does there is a fault. -/
def slotsWith (s : Placing) (capacity : Int) (need : List Int) (v : Int) :
    Outcome (List (Option Held)) :=
  match s.slots.findIdx? Option.isNone with
  | some i => .ok (s.slots.set i (some { vector := v }))
  | none =>
    if s.slots.length < capacity then .ok (s.slots ++ [some { vector := v }])
    else match s.slots.findIdx? (yields need) with
      | some i => .ok (s.slots.set i (some { vector := v }))
      | none => .error .fault

/-- Loads a vector into a slot. -/
def place (s : Placing) (capacity : Int) (need : List Int) (v : Int) : Outcome Placing := do
  return { s with slots := ← s.slotsWith capacity need v, loadX := v :: s.loadX }

/-- Whether a vector is used again from entry `next` on. -/
def lives (last : Array Nat) (next : Nat) (h : Held) : Bool :=
  next ≤ last.getD h.vector.toNat 0

/-- Closes the step in work before entry `next`: vectors not used again are
stored, if they hold results, and give up their slots. -/
def flush (s : Placing) (last : Array Nat) (results : Std.TreeSet Int) (next : Nat) : Placing :=
  let stores := s.slots.filterMap fun
    | some h => if !lives last next h && h.dirty && results.contains h.vector then some h.vector
      else none
    | none => none
  let step : Step :=
    { loadX := s.loadX.reverse
      ops := s.ops.reverse.map fun (r, sites) => .alu r sites.reverse
      store := stores
      sramResident := s.slots.map fun
        | some h => h.vector
        | none => free
      residentGrain := .vector, storeGrain := .vector }
  { slots := s.slots.map fun slot =>
      (slot.filter (lives last next)).map fun h => { h with used := false }
    done := step :: s.done }

/-- Runs an entry on vectors that are all there. -/
def execute (s : Placing) (e : Entry) : Placing :=
  let need := e.need
  let slots := s.slots.map fun slot => slot.map fun h =>
    { h with
      used := h.used || need.contains h.vector
      dirty := h.dirty || h.vector == e.site.dst }
  let ops := match s.ops with
    | (r, sites) :: rest =>
      if r.index = e.op.index then (r, e.site :: sites) :: rest
      else (e.op, [e.site]) :: (r, sites) :: rest
    | [] => [(e.op, [e.site])]
  { s with slots, ops }

/-- Places entry number `t`: closes the step in work if there is no room for its
vectors, and fails if there is none even then. -/
def entry (capacity : Int) (last : Array Nat) (results : Std.TreeSet Int) (s : Placing)
    (t : Nat) (e : Entry) : Outcome Placing := do
  let need := e.need
  let missing (s : Placing) := need.filter (!s.holds ·)
  let full (s : Placing) := s.room capacity need < (missing s).length
  let s := if full s && !s.ops.isEmpty then s.flush last results t else s
  if full s then
    let pinned := s.slots.countP fun slot => slot.any (·.dirty)
    Outcome.diagnose e.op.object (.capacityTooSmall (.pinned pinned capacity))
  let s ← (missing s).foldlM (fun s v => s.place capacity need v) s
  return s.execute e

end Placing

namespace Planner

/-- The schedule of operations on an accumulator that does not fit. -/
def aluOverflow (p : Planner) : Outcome (List Step) := do
  let capacity := wrap64 (p.caps.acc * p.data.b)
  if capacity < 2 then
    Outcome.diagnose "alu" (.capacityTooSmall (.accumulatorVectors capacity))
  let vectors := p.data.vectors.toNat
  let order ← orderEntries (flatten p.data.ops) vectors
  let last := lastTouch vectors order
  let results := Std.TreeSet.ofList p.data.storeMask
  let s ← order.zipIdx.foldlM (fun (s : Placing) (e, t) => s.entry capacity last results t e) {}
  let s := if s.ops.isEmpty then s else s.flush last results order.length
  return s.done.reverse

end Planner

end Tessera
