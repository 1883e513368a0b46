/-!
# Text of numbers and lists

The small vocabulary of output: decimal and hexadecimal numbers, columns of a
fixed width, and lists in square brackets with single blanks between the items.

* `hex`: lower-case digits without leading zeros.
* `padLeft`, `padRight`: a column of at least the given width.
* `bracketed`: a list of texts, as in `[A B C]`.
-/

namespace Tessera.Text

/-- The lower-case hexadecimal digits of `n`, without leading zeros. -/
def hex (n : Nat) : String := String.ofList (Nat.toDigits 16 n)

/-- The hexadecimal number `n` as a literal, `0x0` for zero. -/
def hexLiteral (n : Nat) : String := "0x" ++ hex n

/-- Blanks before `s` up to `width` characters; a longer text stays as it is. -/
def padLeft (width : Nat) (s : String) : String :=
  String.ofList (List.replicate (width - s.length) ' ') ++ s

/-- Blanks after `s` up to `width` characters; a longer text stays as it is. -/
def padRight (width : Nat) (s : String) : String :=
  s ++ String.ofList (List.replicate (width - s.length) ' ')

/-- The hexadecimal literal of `n` with at least eight digits. -/
def hexLiteral8 (n : Nat) : String :=
  let digits := Nat.toDigits 16 n
  "0x" ++ String.ofList (List.replicate (8 - digits.length) '0' ++ digits)

/-- The items between square brackets, separated by single blanks. -/
def bracketed (items : List String) : String := "[" ++ " ".intercalate items ++ "]"

/-- A list of integers, as in `[1 -2 3]`. -/
def integers (xs : List Int) : String := bracketed (xs.map toString)

/-- The two lower-case hexadecimal digits of a byte. -/
def byteDigits (b : UInt8) : List Char :=
  [Nat.digitChar (b.toNat / 16), Nat.digitChar (b.toNat % 16)]

/-- The truth value as a lower-case word. -/
def truth (b : Bool) : String := if b then "true" else "false"

end Tessera.Text
