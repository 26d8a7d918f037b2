import ByteRegex.Token

/-!
# Juxtaposition: concatenation made explicit

Patterns leave concatenation unwritten. It is put between two neighbouring tokens when
an expression may end with the first and begin with the second. Only the tokens of the
input decide, so a token that was put in never causes another.
-/

namespace ByteRegex

/-- Whether two neighbours are the end of one expression and the beginning of the next. -/
def Token.joins (t u : Token) : Bool := t.canEnd && u.canBegin

/-- Put the concatenation operator between all neighbours that it joins. -/
def insertConcats : List Token → List Token
  | [] => []
  | [t] => [t]
  | t :: u :: rest =>
    if t.joins u then t :: .op .concat :: insertConcats (u :: rest)
    else t :: insertConcats (u :: rest)

end ByteRegex
