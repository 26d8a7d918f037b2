/-!
# Outlines of structured values

An outline is a value reduced to words, named fields and bracketed groups. It is
written on one line, or indented with one part to a line and a comma after each. Both
forms share the words, so a value describes itself once and is printed in either form.
-/

namespace ByteRegex.Text

/-- The printable shape of a value. -/
inductive Outline where
  /-- Text that is never broken. -/
  | word (text : String)
  /-- A part with a name in front of it. -/
  | field (name : String) (value : Outline)
  /-- Parts between an opening and a closing text. On one line, `pad` stands inside
  both ends. -/
  | group (opening pad closing : String) (parts : List Outline)

namespace Outline

/-- A number in decimal digits. -/
def number (n : Nat) : Outline := word n.repr

/-- A truth value, in lowercase. -/
def truth (b : Bool) : Outline := word (if b then "true" else "false")

/-- A named value with unnamed parts. -/
def tuple (name : String) (parts : List Outline) : Outline :=
  group (name ++ "(") "" ")" parts

/-- A named value with named parts. -/
def record (name : String) (fields : List (String × Outline)) : Outline :=
  group (name ++ " \x7b") " " "\x7d" (fields.map fun f => field f.1 f.2)

/-- A sequence of parts. -/
def list (parts : List Outline) : Outline := group "[" "" "]" parts

/-- An optional value: its absence is a word of its own. -/
def optional : Option Outline → Outline
  | none => word "None"
  | some value => tuple "Some" [value]

mutual

/-- The outline on one line, parts separated by a comma and a blank. -/
def inline : Outline → String
  | word text => text
  | field name value => name ++ ": " ++ value.inline
  | group opening _ closing [] => opening ++ closing
  | group opening pad closing (part :: parts) =>
    opening ++ pad ++ ", ".intercalate (part.inline :: inlineAll parts) ++ pad ++ closing

/-- The one-line texts of a list of outlines. -/
def inlineAll : List Outline → List String
  | [] => []
  | part :: parts => part.inline :: inlineAll parts

end

mutual

/-- The outline with every part on a line of its own, four blanks deeper than the group
it belongs to, and a comma behind it. The margin is that of the line it starts on. -/
def indentedAt (margin : String) : Outline → String
  | word text => text
  | field name value => name ++ ": " ++ value.indentedAt margin
  | group opening _ closing [] => opening ++ closing
  | group opening _ closing (part :: parts) =>
    let inner := margin ++ "    "
    opening ++ "\n" ++ String.join ((inner ++ part.indentedAt inner ++ ",\n") :: linesAt inner parts)
      ++ margin ++ closing

/-- The indented lines of a list of outlines. -/
def linesAt (margin : String) : List Outline → List String
  | [] => []
  | part :: parts => (margin ++ part.indentedAt margin ++ ",\n") :: linesAt margin parts

end

/-- The indented form of a whole value, at the left margin. -/
def indented (outline : Outline) : String := outline.indentedAt ""

end Outline

end ByteRegex.Text
