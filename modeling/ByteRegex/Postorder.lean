import ByteRegex.Token

/-!
# Postorder: operators behind their operands

An operator yard turns a stream with binary operators between their operands into one with all
operators behind them. Operands and repetitions pass at once; binary operators wait on
a stack until an operator that binds no tighter, a closing parenthesis or the end of
the stream releases them. Parentheses never come out, and unbalanced ones are dropped.
-/

namespace ByteRegex

/-- A conversion in progress. -/
structure Yard where
  /-- The tokens released so far, latest first. -/
  released : List Token
  /-- The binary operators and opening parentheses that wait, topmost first. -/
  stack : List Token
  /-- How many closing parentheses found none to close. -/
  unmatched : Nat
deriving DecidableEq

namespace Yard

/-- Nothing read yet. -/
def start : Yard := ⟨[], [], 0⟩

/-- Pass a token through. -/
def release (y : Yard) (t : Token) : Yard := { y with released := t :: y.released }

/-- Whether a waiting token gives way to the operator: equal strength gives way, which
makes every operator associate to the left. -/
def yieldsTo (waiting t : Token) : Bool := waiting.isOperator && t.precedence ≤ waiting.precedence

/-- Release the operators that give way to the new one, then let it wait. -/
def pushOperator (y : Yard) (t : Token) : Yard :=
  { y with
    released := (y.stack.takeWhile (yieldsTo · t)).reverse ++ y.released
    stack := t :: y.stack.dropWhile (yieldsTo · t) }

/-- Release all operators of the group and drop the parenthesis that opened it. Without
one, the whole stack is released and the closing parenthesis is counted. -/
def closeGroup (y : Yard) : Yard :=
  let released := (y.stack.takeWhile (· ≠ .lparen)).reverse ++ y.released
  match y.stack.dropWhile (· ≠ .lparen) with
  | [] => ⟨released, [], y.unmatched + 1⟩
  | _ :: below => ⟨released, below, y.unmatched⟩

/-- Read one token. -/
def feed (y : Yard) (t : Token) : Yard :=
  match t with
  | .lparen => { y with stack := .lparen :: y.stack }
  | .rparen => y.closeGroup
  | .op o => if o.isUnary then y.release t else y.pushOperator t
  | .literal _ | .charClass _ | .dot => y.release t

/-- Read a stream from the beginning. -/
def run (ts : List Token) : Yard := ts.foldl feed start

/-- Everything released in order, then what still waits, without the parentheses. -/
def finish (y : Yard) : List Token := y.released.reverse ++ y.stack.filter (· ≠ .lparen)

end Yard

/-- The stream with every operator behind its operands. -/
def toPostorder (ts : List Token) : List Token := (Yard.run ts).finish

/-- How many closing parentheses have no opening one left to close. -/
def unmatchedClosings (ts : List Token) : Nat := (Yard.run ts).unmatched

end ByteRegex
