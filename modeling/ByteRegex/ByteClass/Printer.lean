import ByteRegex.Byte.Interval
import ByteRegex.ByteClass
import ByteRegex.Text.Quoted

/-!
# The text of a byte class

A class is written as the intervals of the bytes it lists, with a caret in front when it
is negated. Bytes are shown as the quoted characters of the same number, so the text
names the listed bytes and the kind of the class, and nothing else.
-/

namespace ByteRegex

/-- The byte as the quoted character of the same number. -/
def Byte.quoted (b : UInt8) : String := Text.quoteChar (Byte.toChar b)

/-- An interval of one byte is that byte; a longer one is its two ends. -/
def Byte.Interval.text (i : Byte.Interval) : String :=
  if i.first = i.last then Byte.quoted i.first
  else Byte.quoted i.first ++ "-" ++ Byte.quoted i.last

namespace ByteClass

/-- The intervals of the listed bytes between brackets, a caret first for a negated
class. -/
def text (c : ByteClass) : String :=
  "ByteClass([" ++ (if c.negated then "^" else "")
    ++ ", ".intercalate ((Byte.intervals c.listing).map Byte.Interval.text) ++ "])"

/-- The number of matching bytes and the kind of the class. -/
def summary (c : ByteClass) : String :=
  "[" ++ c.size.repr ++ " bytes" ++ (if c.negated then ", negated" else "") ++ "]"

end ByteClass

end ByteRegex
