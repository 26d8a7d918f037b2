import ByteRegex.ByteClass.Printer
import ByteRegex.Text.Outline
import ByteRegex.Token

/-!
# The texts of tokens

A token has a short text for streams that people read and an outline for exact
inspection. The short text shows a class by its size only; the outline shows it whole.
-/

namespace ByteRegex

namespace Operator

/-- What the operator is called, with its sign when it has one. -/
def title : Operator → String
  | star => "star (*)"
  | plus => "plus (+)"
  | question => "question (?)"
  | concat => "concatenation"
  | alt => "alternation (|)"

/-- The sign of the operator; concatenation, which patterns leave unwritten, gets a
middle dot. -/
def sign : Operator → String
  | star => "*"
  | plus => "+"
  | question => "?"
  | concat => "·"
  | alt => "|"

/-- The operator's name in outlines. -/
def name : Operator → String
  | star => "Star"
  | plus => "Plus"
  | question => "Question"
  | concat => "Concat"
  | alt => "Alt"

end Operator

namespace Token

/-- The short text of the token. -/
def text : Token → String
  | literal b => Byte.escaped b
  | charClass c => c.summary
  | dot => "."
  | op o => o.sign
  | lparen => "("
  | rparen => ")"

/-- The outline of the token. -/
def outline : Token → Text.Outline
  | literal b => .tuple "Literal" [.number b.toNat]
  | charClass c => .tuple "CharClass" [.word c.text]
  | dot => .word "Dot"
  | op o => .word o.name
  | lparen => .word "LParen"
  | rparen => .word "RParen"

/-- The short texts of a stream, separated by blanks. -/
def streamText (ts : List Token) : String := " ".intercalate (ts.map text)

end Token

end ByteRegex
