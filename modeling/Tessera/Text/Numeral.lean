import Tessera.Failure
import Tessera.Power

/-!
# Numerals

A numeral is written in base ten, or with a mark of its base in front: `0x` for
sixteen, `0o` or a plain `0` for eight, `0b` for two. A single underscore may
stand between digits and after the mark.

* `unsigned`: a number below `2 ^ 64`.
* `signed?`: a number of 64 bits with an optional sign.
-/

namespace Tessera.Text

/-- The value of a digit in bases up to 36. -/
def digitValue? (c : Char) : Option Nat :=
  if '0' ≤ c && c ≤ '9' then some (c.toNat - 48)
  else if 'a' ≤ c.toLower && c.toLower ≤ 'z' then some (c.toLower.toNat - 87)
  else none

/-- The base of a numeral and what follows the mark of the base. -/
def baseOf : List Char → Nat × List Char
  | '0' :: m :: c :: rest =>
    if m.toLower = 'b' then (2, c :: rest)
    else if m.toLower = 'o' then (8, c :: rest)
    else if m.toLower = 'x' then (16, c :: rest)
    else (8, m :: c :: rest)
  | '0' :: rest => (8, rest)
  | cs => (10, cs)

/-- Reads digits onto `n` up to the first that is wrong or makes the number too
large; underscores are passed over. -/
def readDigits (base : Nat) : Nat → List Char → Except NumeralError Nat
  | n, [] => .ok n
  | n, c :: cs =>
    if c = '_' then readDigits base n cs
    else match digitValue? c with
      | none => .error .syntaxInvalid
      | some d =>
        if base ≤ d then .error .syntaxInvalid
        else if twoTo 64 ≤ n * base + d then .error .outOfRange
        else readDigits base (n * base + d) cs

/-- What stands before a character of a numeral. -/
inductive Before where
  | start
  | digit
  | underscore
  | other
  deriving DecidableEq

/-- Whether every underscore has a digit before and after it. -/
def underscoresFrom (hexadecimal : Bool) : Before → List Char → Bool
  | before, [] => before ≠ .underscore
  | before, c :: cs =>
    if c.isDigit || (hexadecimal && 'a' ≤ c.toLower && c.toLower ≤ 'f') then
      underscoresFrom hexadecimal .digit cs
    else if c = '_' then before = .digit && underscoresFrom hexadecimal .underscore cs
    else before ≠ .underscore && underscoresFrom hexadecimal .other cs

/-- Whether the underscores of a numeral stand between digits; the mark of the
base counts as a digit. -/
def underscoresFit : List Char → Bool
  | '0' :: m :: rest =>
    if m.toLower = 'b' || m.toLower = 'o' || m.toLower = 'x' then
      underscoresFrom (m.toLower = 'x') .digit rest
    else underscoresFrom false .start ('0' :: m :: rest)
  | cs => underscoresFrom false .start cs

/-- The number a numeral stands for. -/
def unsigned (cs : List Char) : Except NumeralError Nat :=
  if cs.isEmpty then .error .syntaxInvalid
  else
    let (base, digits) := baseOf cs
    match readDigits base 0 digits with
    | .error e => .error e
    | .ok n => if cs.contains '_' && !underscoresFit cs then .error .syntaxInvalid else .ok n

/-- The number a numeral with an optional sign stands for, if it has 64 bits. -/
def signed? (cs : List Char) : Option Int :=
  let (negative, digits) := match cs with
    | '-' :: rest => (true, rest)
    | '+' :: rest => (false, rest)
    | _ => (false, cs)
  match unsigned digits with
  | .error _ => none
  | .ok n =>
    if negative then if n ≤ twoTo 63 then some (-(n : Int)) else none
    else if n < twoTo 63 then some n else none

end Tessera.Text
