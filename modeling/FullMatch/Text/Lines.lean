/-!
# Lines of a byte stream

A line ends behind a line feed, or with the stream. A line feed takes one carriage return in front
of it along; the last line keeps its carriage return when no line feed follows. A line is text when
its bytes are UTF-8.
-/

namespace FullMatch.Text

/-- The byte that ends a line. -/
def lineFeed : UInt8 := 10

/-- The byte that a line feed takes along. -/
def carriageReturn : UInt8 := 13

/-- A line as it was read, with whether a line feed ended it. -/
structure Line where
  bytes : List UInt8
  ended : Bool

namespace Line

/-- The bytes of a line without what ended it. -/
def content (line : Line) : List UInt8 :=
  if line.ended && line.bytes.getLast? = some carriageReturn then line.bytes.dropLast
  else line.bytes

/-- The text of a line, if its bytes are UTF-8. -/
def text? (line : Line) : Option String :=
  String.fromUTF8? (ByteArray.mk line.content.toArray)

end Line

/-- The lines of the bytes, behind the lines `done`; the first of them begins with `read`. Both
stand in reverse. -/
def linesFrom (done : List Line) (read : List UInt8) : List UInt8 → List Line
  | [] => (if read.isEmpty then done else ⟨read.reverse, false⟩ :: done).reverse
  | b :: bytes =>
    if b = lineFeed then linesFrom (⟨read.reverse, true⟩ :: done) [] bytes
    else linesFrom done (b :: read) bytes

/-- The lines of a byte stream. -/
def lines (bytes : List UInt8) : List Line :=
  linesFrom [] [] bytes

end FullMatch.Text
