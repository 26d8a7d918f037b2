import ByteRegex.Pattern
import ByteRegex.Proofs.Meaning
import ByteRegex.Proofs.Parsing

/-!
# From the bytes of a derivation to its tokens

Every glyph is read as one lexeme, wherever it stands, because nothing that follows it can
change it. Reading the bytes of a phrase therefore gives the tokens of the phrase, and each
operand's token matches the bytes that its glyph asks for.
-/

namespace ByteRegex

/-- The digits of the class are the decimal digits. -/
theorem ByteClass.contains_digit (b : UInt8) : digit.contains b = true ↔ Glyph.IsDigit b := by
  rw [digit, contains_insertRange, contains_empty, negated_empty, Glyph.IsDigit, Bool.not_false,
    Bool.if_true_left, Bool.or_false, decide_eq_true_eq]

/-- The word bytes of the class are the letters, the digits and the underscore. -/
theorem ByteClass.contains_word (b : UInt8) : word.contains b = true ↔ Glyph.IsWord b := by
  simp only [word, contains_insert, contains_insertRange, negated_insertRange, contains_empty,
    negated_empty, Bool.not_false, Bool.if_true_left, Bool.or_false, Bool.or_eq_true,
    decide_eq_true_eq, Glyph.IsWord, Glyph.IsDigit]
  tauto

/-- The class of a bracket body matches the bytes that fit the body. -/
theorem Lexeme.contains_bodyClass (body : List UInt8) (b : UInt8) :
    (bodyClass body).contains b = true ↔ Glyph.FitsBody b body := by
  cases body with
  | nil =>
    rw [bodyClass, ByteClass.contains_empty, Glyph.FitsBody]
    exact iff_of_false Bool.false_ne_true not_false
  | cons c rest =>
    rw [bodyClass, Glyph.FitsBody, Lexeme.caret]
    by_cases hc : c = 0x5e
    · rw [if_pos hc, if_pos hc, ByteClass.contains_insertMany, ByteClass.contains_full,
        ByteClass.negated_full]
      simp
    · rw [if_neg hc, if_neg hc, ByteClass.contains_insertMany, ByteClass.contains_empty,
        ByteClass.negated_empty]
      simp

namespace Glyph

/-- The lexeme as which the glyph is read. -/
def lexeme : Glyph → Lexeme
  | plain b _ => .plain b
  | escaped b => .escape b
  | dot => .plain 0x2e
  | bracketed body _ => .bracket body

/-- The token of the glyph. -/
def token (g : Glyph) : Token := g.lexeme.token

/-- A byte that is no sign stands for itself. -/
theorem token_plain {b : UInt8} (h : b ∉ signs) : (plain b h).token = .literal b := by
  simp only [signs, List.mem_cons, List.not_mem_nil, or_false, not_or] at h
  simp only [token, lexeme, Lexeme.token, Lexeme.plainToken, h, if_false]

/-- Every glyph is an operand. -/
theorem isOperand_token (g : Glyph) : g.token.isOperand = true := by
  cases g with
  | plain b h =>
    rw [token_plain h]
    rfl
  | escaped b =>
    rw [token, lexeme, Lexeme.token, Lexeme.escapeToken]
    split_ifs <;> rfl
  | dot => rfl
  | bracketed body h => rfl

/-- A class operand that matches the bytes of a glyph puts its words on the stack. -/
theorem apply_charClass {g : Glyph} {c : ByteClass}
    (h : ∀ b, c.contains b = true ↔ g.Matches b) (stack : List (Language UInt8)) :
    (Token.charClass c).apply stack = some (g.language :: stack) := by
  have hwords : (fun b => c.contains b = true) = (g.Matches ·) := funext fun b => propext (h b)
  rw [Token.apply, hwords, language]

/-- A literal operand puts the words of a glyph that asks for this byte on the stack. -/
theorem apply_literal {g : Glyph} {b : UInt8} (h : ∀ x, x = b ↔ g.Matches x)
    (stack : List (Language UInt8)) :
    (Token.literal b).apply stack = some (g.language :: stack) := by
  have hwords : (fun x => x = b) = (g.Matches ·) := funext fun x => propext (h x)
  rw [Token.apply, hwords, language]

/-- The operand of a glyph puts the words of the glyph on the stack. -/
theorem apply_token (g : Glyph) (stack : List (Language UInt8)) :
    g.token.apply stack = some (g.language :: stack) := by
  cases g with
  | plain b h =>
    rw [token_plain h]
    exact apply_literal (fun x => Iff.rfl) stack
  | escaped b =>
    rw [token, lexeme, Lexeme.token, Lexeme.escapeToken]
    by_cases hd : b = 0x64
    · rw [if_pos hd]
      refine apply_charClass (fun x => ?_) stack
      rw [ByteClass.contains_digit, Matches, if_pos hd]
    · by_cases hw : b = 0x77
      · rw [if_neg hd, if_pos hw]
        refine apply_charClass (fun x => ?_) stack
        rw [ByteClass.contains_word, Matches, if_neg hd, if_pos hw]
      · rw [if_neg hd, if_neg hw]
        refine apply_literal (fun x => ?_) stack
        rw [Matches, if_neg hd, if_neg hw]
  | dot => exact apply_charClass ByteClass.contains_anyExceptNewline stack
  | bracketed body h => exact apply_charClass (Lexeme.contains_bodyClass body) stack

/-- A glyph is read as its token, whatever follows. -/
theorem tokens_bytes_append (g : Glyph) (rest : List UInt8) :
    Pattern.tokens (g.bytes ++ rest) = g.token :: Pattern.tokens rest := by
  cases g with
  | plain b h =>
    simp only [signs, List.mem_cons, List.not_mem_nil, or_false, not_or] at h
    exact Pattern.tokens_plain h.left h.right.left rest
  | escaped b => exact Pattern.tokens_escape b rest
  | dot => exact Pattern.tokens_plain (by decide) (by decide) rest
  | bracketed body h =>
    rw [bytes, List.cons_append, List.cons_append, List.append_assoc, List.singleton_append]
    exact Pattern.tokens_bracket h rest

end Glyph

namespace Phrase

variable {l : Tier}

/-- Reading the bytes of a phrase gives the tokens of the phrase, whatever follows. -/
theorem tokens_bytes_append (p : Phrase Glyph l) (rest : List UInt8) :
    Pattern.tokens (p.bytes ++ rest) = p.tokens Glyph.token ++ Pattern.tokens rest := by
  rw [bytes]
  induction p generalizing rest with
  | operand g =>
    rw [spell, tokens, Glyph.tokens_bytes_append, List.singleton_append]
  | group p ih =>
    have hclose := Pattern.tokens_plain (b := 0x29) (by decide) (by decide) rest
    rw [spell, tokens, List.cons_append, List.cons_append, List.append_assoc,
      Pattern.tokens_plain (by decide) (by decide), ih, List.singleton_append, hclose]
    simp only [List.append_assoc, List.cons_append, List.nil_append]
    rfl
  | once p ih => exact ih rest
  | repeated p r ih =>
    have hsign : Pattern.tokens (r.sign :: rest) = .op r.operator :: Pattern.tokens rest := by
      cases r with
      | star => exact Pattern.tokens_plain (by decide) (by decide) rest
      | plus => exact Pattern.tokens_plain (by decide) (by decide) rest
      | question => exact Pattern.tokens_plain (by decide) (by decide) rest
    rw [spell, tokens, List.append_assoc, ih, List.singleton_append, hsign]
    simp only [List.append_assoc, List.singleton_append]
  | single p ih => exact ih rest
  | followed p q ihp ihq => rw [spell, tokens, List.append_assoc, ihp, ihq, List.append_assoc]
  | only p ih => exact ih rest
  | either p q ihp ihq =>
    have hbar := Pattern.tokens_plain (b := 0x7c) (by decide) (by decide)
      (q.spell Glyph.bytes ++ rest)
    rw [spell, tokens, List.append_assoc, ihp, List.cons_append, hbar, ihq]
    simp only [List.append_assoc, List.cons_append]
    rfl

/-- Reading the bytes of a phrase gives the tokens of the phrase. -/
theorem tokens_bytes (p : Phrase Glyph l) : Pattern.tokens p.bytes = p.tokens Glyph.token := by
  have h := tokens_bytes_append p []
  rwa [List.append_nil, Pattern.tokens_nil, List.append_nil] at h

end Phrase

end ByteRegex
