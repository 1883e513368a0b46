import Tessera.Json.Value

/-!
# Reading JSON

`Json.read?` reads the first JSON value of a text and ignores what follows it.
Blanks are the four characters space, tab, carriage return and line feed.

* A string holds no control character; an escape `\u` is followed by four
  hexadecimal digits, a pair of escaped surrogates is one character, and a
  surrogate without its partner is the replacement character.
* A number is a JSON number literal; it ends where the literal ends.
* Lists and objects nest at most `maxDepth` levels.
-/

namespace Tessera.Json

/-- The deepest nesting of lists and objects. -/
def maxDepth : Nat := 10000

/-- The text without its leading blanks. -/
def skipBlanks (cs : List Char) : List Char :=
  cs.dropWhile fun c => c = ' ' || c = '\t' || c = '\r' || c = '\n'

/-- The value of a hexadecimal digit. -/
def hexDigit? (c : Char) : Option Nat :=
  if '0' ≤ c && c ≤ '9' then some (c.toNat - 48)
  else if 'a' ≤ c && c ≤ 'f' then some (c.toNat - 87)
  else if 'A' ≤ c && c ≤ 'F' then some (c.toNat - 55)
  else none

/-- The number four hexadecimal digits stand for. -/
def hexUnit? (a b c d : Char) : Option Nat := do
  return (((← hexDigit? a) * 16 + (← hexDigit? b)) * 16 + (← hexDigit? c)) * 16 + (← hexDigit? d)

/-- The code of a simple escape. -/
def escape? : Char → Option Nat
  | '"' => some 34
  | '\\' => some 92
  | '/' => some 47
  | 'b' => some 8
  | 'f' => some 12
  | 'n' => some 10
  | 'r' => some 13
  | 't' => some 9
  | _ => none

/-- The codes of a string up to its closing quote, latest first, and the text
after the quote. Surrogates come from escapes only. -/
def codes (acc : List Nat) : List Char → Option (List Nat × List Char)
  | [] => none
  | '"' :: rest => some (acc, rest)
  | '\\' :: 'u' :: a :: b :: c :: d :: rest =>
    match hexUnit? a b c d with
    | some n => codes (n :: acc) rest
    | none => none
  | '\\' :: c :: rest =>
    match escape? c with
    | some n => codes (n :: acc) rest
    | none => none
  | c :: rest => if c.toNat < 32 || c = '\\' then none else codes (c.toNat :: acc) rest

/-- The characters of a list of codes: a high surrogate followed by a low one is
one character, any other surrogate the replacement character. -/
def joinSurrogates : List Nat → List Char
  | [] => []
  | [n] => [if 0xD800 ≤ n && n < 0xE000 then '\uFFFD' else Char.ofNat n]
  | n :: m :: rest =>
    if 0xD800 ≤ n && n < 0xDC00 && 0xDC00 ≤ m && m < 0xE000 then
      Char.ofNat ((n - 0xD800) * 0x400 + (m - 0xDC00) + 0x10000) :: joinSurrogates rest
    else (if 0xD800 ≤ n && n < 0xE000 then '\uFFFD' else Char.ofNat n) :: joinSurrogates (m :: rest)

/-- The string after an opening quote and the text after its closing one. -/
def stringBody? (cs : List Char) : Option (String × List Char) :=
  (codes [] cs).map fun (found, rest) => (String.ofList (joinSurrogates found.reverse), rest)

/-- One or more digits and the text after them. -/
def digits? (cs : List Char) : Option (List Char × List Char) :=
  match cs.takeWhile Char.isDigit with
  | [] => none
  | ds => some (ds, cs.dropWhile Char.isDigit)

/-- The integer part of a number: a zero, or digits that do not start with one. -/
def whole? : List Char → Option (List Char × List Char)
  | '0' :: rest => some (['0'], rest)
  | cs => digits? cs

/-- The fraction of a number, empty when there is none. -/
def fraction? : List Char → Option (List Char × List Char)
  | '.' :: rest => (digits? rest).map fun (ds, rest) => ('.' :: ds, rest)
  | cs => some ([], cs)

/-- The exponent of a number, empty when there is none. -/
def exponent? : List Char → Option (List Char × List Char)
  | e :: rest =>
    if e = 'e' || e = 'E' then
      match rest with
      | '+' :: rest => (digits? rest).map fun (ds, rest) => (e :: '+' :: ds, rest)
      | '-' :: rest => (digits? rest).map fun (ds, rest) => (e :: '-' :: ds, rest)
      | _ => (digits? rest).map fun (ds, rest) => (e :: ds, rest)
    else some ([], e :: rest)
  | [] => some ([], [])

/-- A number literal and the text after it. -/
def number? (cs : List Char) : Option (List Char × List Char) := do
  let (sign, cs) := match cs with
    | '-' :: rest => (['-'], rest)
    | _ => ([], cs)
  let (whole, cs) ← whole? cs
  let (fraction, cs) ← fraction? cs
  let (exponent, cs) ← exponent? cs
  return (sign ++ whole ++ fraction ++ exponent, cs)

/-- The text after `word`, if it starts with it. -/
def after? (word : List Char) (cs : List Char) : Option (List Char) :=
  if word.isPrefixOf cs then some (cs.drop word.length) else none

mutual

/-- Reads one value. `depth` counts the levels that may still be opened, and
`fuel` bounds the calls: two for each character are enough. -/
def value (fuel depth : Nat) (cs : List Char) : Option (Json × List Char) :=
  match fuel with
  | 0 => none
  | fuel + 1 =>
    match skipBlanks cs with
    | '"' :: rest => (stringBody? rest).map fun (s, rest) => (.string s, rest)
    | '[' :: rest =>
      if depth = 0 then none else
      match skipBlanks rest with
      | ']' :: rest => some (.array [], rest)
      | rest => items fuel (depth - 1) [] rest
    | '\x7b' :: rest =>
      if depth = 0 then none else
      match skipBlanks rest with
      | '\x7d' :: rest => some (.object [], rest)
      | rest => members fuel (depth - 1) [] rest
    | 't' :: rest => (after? "rue".toList rest).map ((.bool true, ·))
    | 'f' :: rest => (after? "alse".toList rest).map ((.bool false, ·))
    | 'n' :: rest => (after? "ull".toList rest).map ((.null, ·))
    | cs => (number? cs).map fun (literal, rest) => (.number literal, rest)

/-- Reads the items of a list up to its closing bracket; `acc` holds those read,
latest first. -/
def items (fuel depth : Nat) (acc : List Node) (cs : List Char) : Option (Json × List Char) :=
  match fuel with
  | 0 => none
  | fuel + 1 =>
    let start := skipBlanks cs
    match value fuel depth start with
    | none => none
    | some (v, stop) =>
      match skipBlanks stop with
      | ',' :: rest => items fuel depth ((⟨start, stop⟩, v) :: acc) rest
      | ']' :: rest => some (.array ((⟨start, stop⟩, v) :: acc).reverse, rest)
      | _ => none

/-- Reads the members of an object up to its closing brace; `acc` holds those
read, latest first. -/
def members (fuel depth : Nat) (acc : List (String × Node)) (cs : List Char) :
    Option (Json × List Char) :=
  match fuel with
  | 0 => none
  | fuel + 1 =>
    match skipBlanks cs with
    | '"' :: rest =>
      match stringBody? rest with
      | none => none
      | some (name, rest) =>
        match skipBlanks rest with
        | ':' :: rest =>
          let start := skipBlanks rest
          match value fuel depth start with
          | none => none
          | some (v, stop) =>
            match skipBlanks stop with
            | ',' :: rest => members fuel depth ((name, ⟨start, stop⟩, v) :: acc) rest
            | '\x7d' :: rest => some (.object ((name, ⟨start, stop⟩, v) :: acc).reverse, rest)
            | _ => none
        | _ => none
    | _ => none

end

/-- The first value of a text. -/
def read? (text : List Char) : Option Json :=
  (value (2 * text.length + 2) maxDepth text).map Prod.fst

end Tessera.Json
