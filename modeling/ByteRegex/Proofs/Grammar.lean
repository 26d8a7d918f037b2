import ByteRegex.Lexeme
import ByteRegex.Proofs.Block

/-!
# The grammar of patterns

The grammar has four tiers. An alternation is a row of sequences with bars between them, a
sequence is a row of repetitions, a repetition is an atom with any number of signs behind it,
and an atom is an operand or an alternation in parentheses. A phrase is a derivation in this
grammar. It is spelled in one way, and its language is read off the derivation.

Operands may be anything here. Those of a pattern are glyphs: a byte that is no sign, an
escaped byte, the full stop and a bracketed body. What a glyph matches is said in terms of
bytes alone.
-/

namespace ByteRegex

/-- The tiers of the grammar, from the loosest to the tightest. -/
inductive Tier where
  /-- Sequences with bars between them. -/
  | alternation
  /-- Repetitions in a row. -/
  | sequence
  /-- An atom and signs behind it. -/
  | repetition
  /-- An operand or a group. -/
  | atom
deriving DecidableEq, Repr

/-- The signs of repetition. -/
inductive Repeat where
  /-- Zero or more times. -/
  | star
  /-- One or more times. -/
  | plus
  /-- At most once. -/
  | question
deriving DecidableEq, Repr

namespace Repeat

/-- The byte that is written. -/
def sign : Repeat → UInt8
  | star => 0x2a
  | plus => 0x2b
  | question => 0x3f

/-- The operator that is meant. -/
def operator : Repeat → Operator
  | star => .star
  | plus => .plus
  | question => .question

/-- The words of a repeated expression. -/
def language : Repeat → Language UInt8 → Language UInt8
  | star, L => KStar.kstar L
  | plus, L => L * KStar.kstar L
  | question, L => L + 1

end Repeat

/-- A derivation of an expression of a tier, with operands of the given type. -/
inductive Phrase (α : Type) : Tier → Type where
  /-- An operand is an atom. -/
  | operand (a : α) : Phrase α .atom
  /-- An alternation in parentheses is an atom. -/
  | group (p : Phrase α .alternation) : Phrase α .atom
  /-- An atom without a sign. -/
  | once (p : Phrase α .atom) : Phrase α .repetition
  /-- One more sign, which applies to all that the signs before it make. -/
  | repeated (p : Phrase α .repetition) (r : Repeat) : Phrase α .repetition
  /-- A sequence of one repetition. -/
  | single (p : Phrase α .repetition) : Phrase α .sequence
  /-- A sequence and one more repetition. -/
  | followed (p : Phrase α .sequence) (q : Phrase α .repetition) : Phrase α .sequence
  /-- An alternation of one sequence. -/
  | only (p : Phrase α .sequence) : Phrase α .alternation
  /-- An alternation and one more sequence. -/
  | either (p : Phrase α .alternation) (q : Phrase α .sequence) : Phrase α .alternation

namespace Phrase

variable {α : Type}

/-- The bytes of the phrase, from those of its operands. -/
def spell (spelling : α → List UInt8) : {l : Tier} → Phrase α l → List UInt8
  | _, operand a => spelling a
  | _, group p => 0x28 :: p.spell spelling ++ [0x29]
  | _, once p => p.spell spelling
  | _, repeated p r => p.spell spelling ++ [r.sign]
  | _, single p => p.spell spelling
  | _, followed p q => p.spell spelling ++ q.spell spelling
  | _, only p => p.spell spelling
  | _, either p q => p.spell spelling ++ 0x7c :: q.spell spelling

/-- The words of the phrase, from those of its operands. -/
def meaning (language : α → Language UInt8) : {l : Tier} → Phrase α l → Language UInt8
  | _, operand a => language a
  | _, group p => p.meaning language
  | _, once p => p.meaning language
  | _, repeated p r => r.language (p.meaning language)
  | _, single p => p.meaning language
  | _, followed p q => p.meaning language * q.meaning language
  | _, only p => p.meaning language
  | _, either p q => p.meaning language + q.meaning language

end Phrase

/-- The bytes that are signs when they are not escaped and not in brackets. -/
def signs : List UInt8 := [0x5c, 0x5b, 0x2a, 0x2b, 0x3f, 0x7c, 0x28, 0x29, 0x2e]

/-- An operand as it is written in a pattern. -/
inductive Glyph where
  /-- A byte that is no sign. -/
  | plain (byte : UInt8) (h : byte ∉ signs)
  /-- A backslash and any byte. -/
  | escaped (byte : UInt8)
  /-- The full stop. -/
  | dot
  /-- A body in brackets, without a closing bracket inside. -/
  | bracketed (body : List UInt8) (h : 0x5d ∉ body)
deriving DecidableEq, Repr

namespace Glyph

/-- The bytes that are written. -/
def bytes : Glyph → List UInt8
  | plain b _ => [b]
  | escaped b => [0x5c, b]
  | dot => [0x2e]
  | bracketed body _ => 0x5b :: body ++ [0x5d]

/-- Whether the byte is a decimal digit. -/
def IsDigit (b : UInt8) : Prop := 0x30 ≤ b ∧ b ≤ 0x39

/-- Whether the byte is a letter, a decimal digit or the underscore. -/
def IsWord (b : UInt8) : Prop :=
  IsDigit b ∨ (0x61 ≤ b ∧ b ≤ 0x7a) ∨ (0x41 ≤ b ∧ b ≤ 0x5a) ∨ b = 0x5f

/-- Whether the byte fits the body: a caret in front asks for a byte that does not follow it,
and any other body for one of its bytes. -/
def FitsBody (b : UInt8) : List UInt8 → Prop
  | [] => False
  | c :: rest => if c = 0x5e then b ∉ rest else b ∈ c :: rest

/-- Whether the byte matches. An escaped `d` asks for a digit, an escaped `w` for a word byte,
and every other escaped byte for itself. -/
def Matches (b : UInt8) : Glyph → Prop
  | plain c _ => b = c
  | escaped c => if c = 0x64 then IsDigit b else if c = 0x77 then IsWord b else b = c
  | dot => b ≠ 0x0a
  | bracketed body _ => FitsBody b body

/-- The words of a glyph are its bytes. -/
def language (g : Glyph) : Language UInt8 := oneOf (g.Matches ·)

end Glyph

namespace Phrase

variable {l : Tier}

/-- The pattern that a derivation spells. -/
def bytes (p : Phrase Glyph l) : List UInt8 := p.spell Glyph.bytes

/-- The language of a derivation. -/
def language (p : Phrase Glyph l) : Language UInt8 := p.meaning Glyph.language

end Phrase

end ByteRegex
