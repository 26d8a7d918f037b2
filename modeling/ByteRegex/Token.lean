import ByteRegex.ByteClass

/-!
# Tokens

A pattern and its operator-last form are both lists of tokens: operands, operators and
parentheses. The predicates here are all that the reordering and the juxtaposition rule
know of a token.
-/

namespace ByteRegex

/-- An operator on complete expressions. -/
inductive Operator where
  /-- Zero or more repetitions. -/
  | star
  /-- One or more repetitions. -/
  | plus
  /-- Zero or one occurrence. -/
  | question
  /-- One expression after another. -/
  | concat
  /-- Either of two expressions. -/
  | alt
deriving DecidableEq, Repr

namespace Operator

/-- The repetitions stand behind their only operand. -/
def isUnary : Operator → Bool
  | star | plus | question => true
  | concat | alt => false

/-- How many complete expressions the operator takes. -/
def arity (op : Operator) : Nat := if op.isUnary then 1 else 2

/-- Binding strength: repetition binds tightest, alternation loosest. -/
def precedence : Operator → Nat
  | star | plus | question => 3
  | concat => 2
  | alt => 1

end Operator

/-- One lexical unit of a pattern. -/
inductive Token where
  /-- The given byte. -/
  | literal (byte : UInt8)
  /-- Any one byte that matches the class. -/
  | charClass (bytes : ByteClass)
  /-- Any byte but the line feed, as an operand of its own. -/
  | dot
  /-- An operator. -/
  | op (operator : Operator)
  /-- An opening parenthesis. -/
  | lparen
  /-- A closing parenthesis. -/
  | rparen
deriving DecidableEq

namespace Token

/-- The operator that the token stands for. -/
def operator? : Token → Option Operator
  | op o => some o
  | _ => none

/-- Operands are expressions by themselves. -/
def isOperand : Token → Bool
  | literal _ | charClass _ | dot => true
  | op _ | lparen | rparen => false

/-- Whether the token is an operator. -/
def isOperator (t : Token) : Bool := t.operator?.isSome

/-- Whether the token is a repetition, the operators with one operand. -/
def isUnary : Token → Bool
  | op o => o.isUnary
  | _ => false

/-- Binding strength of an operator; every other token binds with strength zero. -/
def precedence : Token → Nat
  | op o => o.precedence
  | _ => 0

/-- Whether an expression may end with the token. -/
def canEnd (t : Token) : Bool := t.isOperand || t.isUnary || t == rparen

/-- Whether an expression may begin with the token. -/
def canBegin (t : Token) : Bool := t.isOperand || t == lparen

end Token

end ByteRegex
