import ByteRegex.Token.Printer

/-!
# Why a stream of tokens is not an automaton

There are three causes: an operator without its operands, a stream that is not exactly
one expression, and an automaton that would be larger than allowed. The wording stands
here alone.
-/

namespace ByteRegex

/-- The cause of a failed construction. -/
inductive CompileError where
  /-- The operator came when too few expressions were complete. -/
  | insufficientOperands (operator : Operator)
  /-- The stream left this number of complete expressions instead of one. -/
  | unterminatedExpression (fragments : Nat)
  /-- The automaton needs more states than this limit. -/
  | tooComplex (limit : Nat)
deriving DecidableEq, Repr

namespace CompileError

/-- The cause in words. -/
def message : CompileError → String
  | insufficientOperands operator =>
    "malformed pattern: " ++ operator.title ++ " is missing an operand"
  | unterminatedExpression 0 => "malformed pattern: nothing to match"
  | unterminatedExpression fragments =>
    "malformed pattern: expected one expression, found " ++ fragments.repr
  | tooComplex limit => "pattern needs more than " ++ limit.repr ++ " NFA states"

/-- The outline of the cause. -/
def outline : CompileError → Text.Outline
  | insufficientOperands operator => .tuple "InsufficientOperands" [.word operator.name]
  | unterminatedExpression fragments =>
    .record "UnterminatedExpression" [("fragments", .number fragments)]
  | tooComplex limit => .record "TooComplex" [("limit", .number limit)]

end CompileError

end ByteRegex
