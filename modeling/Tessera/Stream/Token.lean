import Tessera.Failure
import Tessera.Instruction.Basic
import Tessera.Power

/-!
# Tokens between the stages

Neighbouring stages exchange tokens over four channels. Before it runs, an
instruction takes the tokens its flags name, and when it is done it gives
others. A channel holds at most one token.

* `Instruction.moves`: the tokens an instruction takes and gives, in order.
* `Tokens.apply`: one instruction; on a refusal the moves before it stay made.
* `audit`: a whole stream, which must leave every channel empty.
-/

namespace Tessera

/-- The channels between neighbouring stages, named for giver and taker. -/
inductive Channel where
  | loadCompute
  | computeLoad
  | computeStore
  | storeCompute
  deriving Repr, DecidableEq

/-- The name of a channel. -/
def Channel.name : Channel → String
  | loadCompute => "ld→cmp"
  | computeLoad => "cmp→ld"
  | computeStore => "cmp→st"
  | storeCompute => "st→cmp"

/-- How many tokens each channel holds. -/
structure Tokens where
  loadCompute : Int := 0
  computeLoad : Int := 0
  computeStore : Int := 0
  storeCompute : Int := 0
  deriving Repr, DecidableEq, Inhabited

/-- A token taken from a channel or given to it. -/
inductive Move where
  | pop (c : Channel)
  | push (c : Channel)
  deriving Repr, DecidableEq

namespace Tokens

/-- The tokens of a channel. -/
def get (t : Tokens) : Channel → Int
  | .loadCompute => t.loadCompute
  | .computeLoad => t.computeLoad
  | .computeStore => t.computeStore
  | .storeCompute => t.storeCompute

/-- The state with `n` tokens on a channel. -/
def set (t : Tokens) (c : Channel) (n : Int) : Tokens :=
  match c with
  | .loadCompute => { t with loadCompute := n }
  | .computeLoad => { t with computeLoad := n }
  | .computeStore => { t with computeStore := n }
  | .storeCompute => { t with storeCompute := n }

/-- The number on each channel. -/
def text (t : Tokens) : String :=
  s!"ld→cmp={t.loadCompute} cmp→ld={t.computeLoad} cmp→st={t.computeStore} st→cmp={t.storeCompute}"

/-- Whether every channel is empty. -/
def isZero (t : Tokens) : Bool := t == {}

end Tokens

namespace Instruction

/-- The moves that are wanted, in order. -/
def wanted (moves : List (Bool × Move)) : List Move :=
  (moves.filter Prod.fst).map Prod.snd

/-- What an instruction takes and then gives. The load stage has no stage before
it, and the store stage none after it. -/
def moves (i : Instruction) : Except SemaphoreImbalance (List Move) :=
  let f := i.flags
  match i.stage with
  | .load =>
    if f.popPrev || f.pushPrev then .error .noPreviousStage
    else .ok (wanted [(f.popNext, .pop .computeLoad), (f.pushNext, .push .loadCompute)])
  | .compute =>
    .ok (wanted [(f.popPrev, .pop .loadCompute), (f.popNext, .pop .storeCompute),
      (f.pushPrev, .push .computeLoad), (f.pushNext, .push .computeStore)])
  | .store =>
    if f.popNext || f.pushNext then .error .noNextStage
    else .ok (wanted [(f.popPrev, .pop .computeStore), (f.pushPrev, .push .storeCompute)])

end Instruction

namespace Tokens

/-- One move: an empty channel has nothing to take, and a channel that holds a
token takes no other. -/
def move (opcode : Opcode) (t : Tokens) : Move → Except Detail Tokens
  | .pop c =>
    if t.get c = 0 then .error (.semaphoreUnderflow (.popsEmpty opcode.name c.name))
    else .ok (t.set c ((t.get c - 1).bmod (twoTo 64)))
  | .push c =>
    if t.get c = 0 then .ok (t.set c 1)
    else .error (.semaphoreImbalance (.pushesFull opcode.name c.name))

/-- Makes moves up to the first that is refused, and says why it was. -/
def makeMoves (opcode : Opcode) (t : Tokens) : List Move → Tokens × Option Detail
  | [] => (t, none)
  | m :: ms =>
    match t.move opcode m with
    | .ok t' => makeMoves opcode t' ms
    | .error d => (t, some d)

/-- Makes the moves of instruction number `n`. -/
def apply (n : Nat) (i : Instruction) (t : Tokens) : Tokens × Outcome Unit :=
  match i.moves with
  | .error d => (t, Outcome.diagnose s!"insn[{n}]" (.semaphoreImbalance d))
  | .ok moves =>
    match t.makeMoves i.opcode moves with
    | (t', none) => (t', .ok ())
    | (t', some d) => (t', Outcome.diagnose s!"insn[{n}]" d)

/-- The state after instruction number `n`, if it is not refused. -/
def step (n : Nat) (i : Instruction) (t : Tokens) : Outcome Tokens :=
  match t.apply n i with
  | (t', .ok ()) => .ok t'
  | (_, .error e) => .error e

/-- The state after the instructions, the first of which has number `n`. -/
def run (n : Nat) (t : Tokens) : List Instruction → Outcome Tokens
  | [] => .ok t
  | i :: is =>
    match t.step n i with
    | .ok t' => run (n + 1) t' is
    | .error e => .error e

end Tokens

/-- Checks that a stream never takes a missing token, never gives a second one
and leaves none behind. -/
def audit (insns : List Instruction) : Outcome Unit := do
  let t ← Tokens.run 0 {} insns
  if t.isZero then return ()
  Outcome.diagnose "program" (.semaphoreImbalance (.outstanding t.text))

end Tessera
