import Tessera.Text.Blank

/-!
# Lines of comma-separated fields

A field is quoted if it holds a comma, a quote or a line break, if it begins
with white space, or if it is the two characters `\.`; inside the quotes a
quote is written twice. Lines end with a line feed.
-/

namespace Tessera.Text

/-- Whether a field has to be quoted. -/
def needsQuotes (field : List Char) : Bool :=
  field == ['\\', '.'] || field.any (fun c => c == ',' || c == '"' || c == '\r' || c == '\n') ||
    match field with
    | c :: _ => isBlank c
    | [] => false

/-- A field as it is written. -/
def separatedField (field : String) : String :=
  let cs := field.toList
  if needsQuotes cs then
    String.ofList ('"' :: cs.flatMap (fun c => if c = '"' then ['"', '"'] else [c]) ++ ['"'])
  else field

/-- The fields of one line. -/
def separatedLine (fields : List String) : String :=
  ",".intercalate (fields.map separatedField) ++ "\n"

end Tessera.Text
