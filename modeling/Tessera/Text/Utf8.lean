/-!
# Text of bytes

Bytes are read as UTF-8. A byte that starts no character is read as the
replacement character, and reading goes on behind it, so every file has a text.
-/

namespace Tessera.Text

/-- Stands for a byte that starts no character. -/
def replacement : Char := Char.ofNat 0xFFFD

/-- Appends the text of the bytes from `i` on. -/
def appendBytes (bytes : ByteArray) (i : Nat) (done : String) : String :=
  if i < bytes.size then
    match bytes.utf8DecodeChar? i with
    | some c => appendBytes bytes (i + c.utf8Size) (done.push c)
    | none => appendBytes bytes (i + 1) (done.push replacement)
  else done
termination_by bytes.size - i
decreasing_by
  · have := c.utf8Size_pos
    omega
  · omega

/-- The text of some bytes. -/
def ofBytes (bytes : List UInt8) : String := appendBytes ⟨bytes.toArray⟩ 0 ""

end Tessera.Text
