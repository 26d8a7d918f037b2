import ByteRegex.Text.Hidden

/-!
# Quoted characters and strings

A quoted text stands between two delimiters. A tab, a line end, NUL, the backslash and
the delimiter itself get a short escape; a character that would not show gets its number
in hexadecimal; every other character stands for itself. Only the delimiter in use is
escaped, so each kind of quote is plain text inside the other.
-/

namespace ByteRegex.Text

/-- The quoting of one character between the given delimiters. -/
def escapeChar (delimiter c : Char) : String :=
  if c = '\x00' then "\\0"
  else if c = '\t' then "\\t"
  else if c = '\n' then "\\n"
  else if c = '\r' then "\\r"
  else if c = '\\' then "\\\\"
  else if c = delimiter then String.ofList ['\\', c]
  else if isHidden c then "\\u\x7b" ++ String.ofList (Nat.toDigits 16 c.toNat) ++ "\x7d"
  else String.singleton c

/-- A single character between apostrophes. -/
def quoteChar (c : Char) : String := "'" ++ escapeChar '\'' c ++ "'"

/-- A string between double quotes. -/
def quoteString (s : String) : String :=
  "\"" ++ String.join (s.toList.map (escapeChar '"')) ++ "\""

end ByteRegex.Text
