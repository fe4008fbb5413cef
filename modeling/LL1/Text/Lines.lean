/-
# Lines of a file

A file is a list of bytes. A line ends at a line feed, and one carriage return right before the
line feed belongs to the line break. What follows the last line feed is a line unless it is empty.
Each line is decoded on its own, so a line that is not valid UTF-8 does not spoil the others.
-/
namespace LL1

/-! ## Splitting -/

/-- Adds a byte at the front of the first line. -/
def consByte (b : UInt8) : List (List UInt8) → List (List UInt8)
  | [] => [[b]]
  | line :: more => (b :: line) :: more

/-- The lines of a file, without their line breaks. -/
def byteLines : List UInt8 → List (List UInt8)
  | [] => []
  | 13 :: 10 :: rest => [] :: byteLines rest
  | 10 :: rest => [] :: byteLines rest
  | b :: rest => consByte b (byteLines rest)

/-! ## Decoding -/

/-- The characters of a line, or `none` if its bytes are not valid UTF-8. -/
def decodeLine (line : List UInt8) : Option (List Char) :=
  (String.fromUTF8? ⟨line.toArray⟩).map String.toList

/-- The decoded lines of a file. -/
def textLines (bytes : List UInt8) : List (Option (List Char)) :=
  (byteLines bytes).map decodeLine

end LL1
