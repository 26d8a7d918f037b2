import ByteRegex.Juxtaposition
import ByteRegex.Lexeme
import ByteRegex.Postorder

/-!
# Patterns

A pattern is a list of bytes. It is read into tokens, concatenation is made explicit,
and the operators are moved behind their operands. No step fails: whether the result is
one expression is found out when it is built into an automaton.
-/

namespace ByteRegex

/-- A pattern as it is written. -/
abbrev Pattern := List UInt8

namespace Pattern

/-- The tokens of the pattern, in the order in which they are written. -/
def tokens (p : Pattern) : List Token := (Reading.ofBytes p).tokens

/-- The empty pattern has no tokens. -/
theorem tokens_nil : tokens [] = [] := rfl

/-- A byte that begins neither an escape nor a class is a token, and the rest is read behind it. -/
theorem tokens_plain {b : UInt8} (hslash : b ≠ Lexeme.backslash) (hleft : b ≠ Lexeme.leftBracket)
    (rest : Pattern) : tokens (b :: rest) = Lexeme.plainToken b :: tokens rest := by
  rw [tokens, Reading.ofBytes_plain hslash hleft, Reading.tokens_cons, Lexeme.token, tokens]

/-- A backslash and the byte behind it are a token, and the rest is read behind them. -/
theorem tokens_escape (b : UInt8) (rest : Pattern) :
    tokens (Lexeme.backslash :: b :: rest) = Lexeme.escapeToken b :: tokens rest := by
  rw [tokens, Reading.ofBytes_escape, Reading.tokens_cons, Lexeme.token, tokens]

/-- A class is a token, and the rest is read behind its closing bracket. -/
theorem tokens_bracket {body : List UInt8} (h : Lexeme.rightBracket ∉ body) (rest : Pattern) :
    tokens (Lexeme.leftBracket :: (body ++ Lexeme.rightBracket :: rest)) =
      .charClass (Lexeme.bodyClass body) :: tokens rest := by
  rw [tokens, Reading.ofBytes_bracket h, Reading.tokens_cons, Lexeme.token, tokens]

/-- A class that is not closed is read byte by byte to the end, and a bracket that is the last byte
is such a class without a body. -/
theorem tokens_openBracket {body : List UInt8} (h : Lexeme.rightBracket ∉ body) :
    tokens (Lexeme.leftBracket :: body) = (Lexeme.leftBracket :: body).map .literal := by
  rw [tokens, Reading.ofBytes_openBracket h, Reading.tokens, Tail.bytes, List.map_nil,
    List.nil_append]

/-- A backslash that is the last byte stands for itself. -/
theorem tokens_loneBackslash : tokens [Lexeme.backslash] = [.literal Lexeme.backslash] := rfl

/-- The tokens with concatenation made explicit. -/
def explicitTokens (p : Pattern) : List Token := insertConcats p.tokens

/-- The operator-last stream of the pattern. -/
def postorder (p : Pattern) : List Token := toPostorder p.explicitTokens

/-- The pattern of a text is its UTF-8 encoding. -/
def ofString (s : String) : Pattern := s.toUTF8.data.toList

end Pattern

end ByteRegex
