import Tessera.Power
import Tessera.Random.Table

/-!
# Seeded numbers

An additive lagged Fibonacci generator over 607 words of 64 bits: each number is
the sum of two words of the state, and replaces one of them. The seed fills the
state through a linear congruential generator modulo `2 ^ 31 - 1` and the
generator's table.

* `Generator.ofSeed`: the generator of a seed.
* `Generator.next`: a number of 64 bits.
* `Generator.belowBound`: a number below a bound, each equally likely: numbers
  beyond the last whole multiple of the bound are drawn again.
-/

namespace Tessera.Random

/-- The number of words of the state. -/
def length : Nat := 607

/-- The distance of the two words that are added. -/
def lag : Nat := 273

/-- The modulus of the seeding sequence, `2 ^ 31 - 1`. -/
def modulus : Int := 2147483647

/-- The seeding sequence: multiplication by 48271 modulo `2 ^ 31 - 1`. -/
def seedStep (x : Int) : Int :=
  let y := 48271 * (x % 44488) - 3399 * (x / 44488)
  if y < 0 then y + modulus else y

/-- The sequence after `n` steps. -/
def seedSteps : Nat → Int → Int
  | 0, x => x
  | n + 1, x => seedSteps n (seedStep x)

/-- The first number of the sequence for a seed. -/
def seedStart (seed : Int) : Int :=
  let s := seed.tmod modulus
  let s := if s < 0 then s + modulus else s
  if s = 0 then 89482311 else s

/-- The state of the generator: its words and the two places that are added. -/
structure Generator where
  words : Array UInt64
  tap : Nat
  feed : Nat

namespace Generator

/-- Three numbers of the seeding sequence and a word of the table make a word. -/
def seedWord (x y z : Int) (mix : UInt64) : UInt64 :=
  (UInt64.ofInt x <<< 40) ^^^ (UInt64.ofInt y <<< 20) ^^^ UInt64.ofInt z ^^^ mix

/-- The generator of a seed. -/
def ofSeed (seed : Int) : Generator :=
  let (words, _) := table.foldl (fun (words, x) mix =>
    let x₁ := seedStep x
    let x₂ := seedStep x₁
    let x₃ := seedStep x₂
    (words.push (seedWord x₁ x₂ x₃ mix), x₃))
    ((#[] : Array UInt64), seedSteps 20 (seedStart seed))
  { words, tap := 0, feed := length - lag }

/-- The place before `n`, around the state. -/
def before (n : Nat) : Nat := if n = 0 then length - 1 else n - 1

/-- A number of 64 bits and the generator after it. -/
def next (g : Generator) : UInt64 × Generator :=
  let tap := before g.tap
  let feed := before g.feed
  let sum := g.words.getD feed 0 + g.words.getD tap 0
  (sum, { words := g.words.setIfInBounds feed sum, tap, feed })

/-- A number of 63 bits. -/
def next63 (g : Generator) : Nat × Generator :=
  let (n, g) := g.next
  (n.toNat % twoTo 63, g)

/-- Draws until a number is at most `limit`, at most `tries` times more. -/
def drawUpTo (limit : Nat) : (tries : Nat) → Generator → Nat × Generator
  | 0, g => g.next63
  | tries + 1, g =>
    let (v, g) := g.next63
    if limit < v then drawUpTo limit tries g else (v, g)

/-- How often a number beyond the last whole multiple is drawn again; with
bounds up to `2 ^ 32` a draw fails less than once in `2 ^ 30` times. -/
def retries : Nat := 1000

/-- A number below `bound`. -/
def belowBound (bound : Nat) (g : Generator) : Nat × Generator :=
  if twoTo bound.log2 = bound then
    let (v, g) := g.next63
    (v % bound, g)
  else
    let (v, g) := drawUpTo (twoTo 63 - 1 - twoTo 63 % bound) retries g
    (v % bound, g)

/-- `count` numbers from `lo` on, below `lo + bound`. -/
def draws (lo : Int) (bound : Nat) : (count : Nat) → Array Int → Generator → Array Int × Generator
  | 0, acc, g => (acc, g)
  | count + 1, acc, g =>
    let (v, g) := g.belowBound bound
    draws lo bound count (acc.push (lo + v)) g

end Generator

end Tessera.Random
