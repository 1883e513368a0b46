/-!
# JSON values

A JSON value as it was written: numbers keep their literal, and each element of
a list and each member of an object knows the piece of text it came from.

* `Span.text`: the characters between two places of one text.
* `Node`: a value with the text it was read from.
-/

namespace Tessera

/-- A piece of a text, given by what follows its first and its last character:
`stop` is a tail of `start`. -/
structure Json.Span where
  start : List Char
  stop : List Char

/-- The characters of the piece. -/
def Json.Span.text (s : Json.Span) : String :=
  String.ofList (s.start.take (s.start.length - s.stop.length))

/-- A JSON value. Numbers are literals, and the members of an object stand in
the order of the text, repeated names included. -/
inductive Json where
  | null
  | bool (value : Bool)
  | number (literal : List Char)
  | string (value : String)
  | array (items : List (Json.Span × Json))
  | object (members : List (String × Json.Span × Json))

namespace Json

/-- A value with the text it was read from. -/
abbrev Node := Span × Json

/-- The integer a literal stands for; a literal with a fraction or an exponent
stands for none. -/
def integer? : List Char → Option Int
  | '-' :: digits => if digits.isEmpty || !digits.all Char.isDigit then none
      else some (-(Nat.ofDigitChars 10 digits 0 : Nat))
  | digits => if digits.isEmpty || !digits.all Char.isDigit then none
      else some (Nat.ofDigitChars 10 digits 0 : Nat)

end Json

end Tessera
