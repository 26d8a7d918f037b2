import ByteRegex.Proofs.Compilable
import ByteRegex.Proofs.Factoring
import ByteRegex.Proofs.Lexing
import Mathlib.Data.List.Forall2

/-!
# The tokens of a pattern, lexeme by lexeme

The lexicon says for which token a lexeme stands. Classes are described by their kind and the
bytes that they match, which settles them. Whatever the pattern, there is one way to cut it into
lexemes and a tail, and its tokens are those for which the lexemes stand and then one literal for
each byte of the tail.
-/

namespace ByteRegex

namespace ByteClass

/-- The class is of this kind and matches the bytes with the property. -/
structure Matches (c : ByteClass) (negated : Bool) (p : UInt8 → Prop) : Prop where
  /-- The kind of the class. -/
  kind : c.negated = negated
  /-- The bytes that match. -/
  contains_iff : ∀ b, c.contains b = true ↔ p b

variable {c d : ByteClass} {negated : Bool} {p : UInt8 → Prop}

/-- The kind and the matching bytes settle a class. -/
theorem eq_of_contains (hkind : c.negated = d.negated) (h : ∀ b, c.contains b = d.contains b) :
    c = d := by
  refine eq_of_lists hkind fun b => ?_
  have hcontains := h b
  rw [contains, contains, hkind] at hcontains
  exact Bool.bne_left_inj.mp hcontains

/-- There is no other class of the same description. -/
theorem Matches.iff_eq (hc : c.Matches negated p) : d.Matches negated p ↔ d = c := by
  constructor
  · intro hd
    refine eq_of_contains (hd.kind.trans hc.kind.symm) fun b => ?_
    rw [Bool.eq_iff_iff, hd.contains_iff, hc.contains_iff]
  · rintro rfl
    exact hc

/-- The class of the digits is a plain one. -/
theorem matches_digit : digit.Matches false Glyph.IsDigit where
  kind := by rw [digit, negated_insertRange, negated_empty]
  contains_iff := contains_digit

/-- The class of the word bytes is a plain one. -/
theorem matches_word : word.Matches false Glyph.IsWord where
  kind := by
    rw [word, negated_insert, negated_insertRange, negated_insertRange, negated_insertRange,
      negated_empty]
  contains_iff := contains_word

/-- The class of all bytes but the line feed is a plain one. -/
theorem matches_anyExceptNewline : anyExceptNewline.Matches false (· ≠ 0x0a) where
  kind := by rw [anyExceptNewline, negated_insertRange, negated_insertRange, negated_empty]
  contains_iff := contains_anyExceptNewline

end ByteClass

namespace Lexeme

/-- The signs that are tokens by themselves. -/
def signTokens : List (UInt8 × Token) :=
  [(0x2a, .op .star), (0x2b, .op .plus), (0x3f, .op .question), (0x7c, .op .alt),
    (0x28, .lparen), (0x29, .rparen)]

/-- The full stop. -/
def fullStop : UInt8 := 0x2e

/-- The lexicon: for which token a lexeme stands. -/
inductive StandsFor : Lexeme → Token → Prop
  /-- Operator signs and parentheses stand for themselves. -/
  | sign {b : UInt8} {t : Token} : (b, t) ∈ signTokens → StandsFor (.plain b) t
  /-- The full stop is any byte but the line feed. -/
  | anyByte {c : ByteClass} :
      c.Matches false (· ≠ 0x0a) → StandsFor (.plain fullStop) (.charClass c)
  /-- Every other byte is a literal. -/
  | literal {b : UInt8} :
      b ∉ signTokens.map Prod.fst → b ≠ fullStop → StandsFor (.plain b) (.literal b)
  /-- An escaped `d` is a digit. -/
  | digit {c : ByteClass} : c.Matches false Glyph.IsDigit → StandsFor (.escape 0x64) (.charClass c)
  /-- An escaped `w` is a letter, a digit or the underscore. -/
  | word {c : ByteClass} : c.Matches false Glyph.IsWord → StandsFor (.escape 0x77) (.charClass c)
  /-- Every other escaped byte is a literal. -/
  | escaped {b : UInt8} : b ≠ 0x64 → b ≠ 0x77 → StandsFor (.escape b) (.literal b)
  /-- A body is the plain class of its bytes, unless a caret stands in front. -/
  | listing {body : List UInt8} {c : ByteClass} :
      body.head? ≠ some caret → c.Matches false (· ∈ body) →
        StandsFor (.bracket body) (.charClass c)
  /-- A caret in front makes the negated class that excludes the bytes behind it. -/
  | excluding {body : List UInt8} {c : ByteClass} :
      c.Matches true (· ∉ body) → StandsFor (.bracket (caret :: body)) (.charClass c)

/-- The class of a body without a caret in front. -/
theorem matches_bodyClass_listing {body : List UInt8} (h : body.head? ≠ some caret) :
    (bodyClass body).Matches false (· ∈ body) := by
  cases body with
  | nil =>
    refine ⟨rfl, fun b => ?_⟩
    rw [contains_bodyClass]
    exact ⟨False.elim, List.not_mem_nil⟩
  | cons b rest =>
    have hb : b ≠ caret := fun heq => h (congrArg some heq)
    refine ⟨?_, fun x => ?_⟩
    · rw [bodyClass, if_neg hb]
      exact ByteClass.negated_insertMany _ _
    · rw [contains_bodyClass, Glyph.FitsBody, ← caret, if_neg hb]

/-- The class of a body behind a caret. -/
theorem matches_bodyClass_excluding (body : List UInt8) :
    (bodyClass (caret :: body)).Matches true (· ∉ body) where
  kind := by
    rw [bodyClass, if_pos rfl]
    exact ByteClass.negated_insertMany _ _
  contains_iff b := by
    rw [contains_bodyClass, Glyph.FitsBody, ← caret, if_pos rfl]

/-- The token of a sign. -/
theorem plainToken_sign {b : UInt8} {t : Token} (h : (b, t) ∈ signTokens) : plainToken b = t := by
  simp only [signTokens, List.mem_cons, Prod.mk.injEq, List.not_mem_nil, or_false] at h
  rcases h with ⟨rfl, rfl⟩ | ⟨rfl, rfl⟩ | ⟨rfl, rfl⟩ | ⟨rfl, rfl⟩ | ⟨rfl, rfl⟩ | ⟨rfl, rfl⟩
  all_goals rfl

/-- The token of a byte that is no sign. -/
theorem plainToken_literal {b : UInt8} (hsign : b ∉ signTokens.map Prod.fst)
    (hstop : b ≠ fullStop) : plainToken b = .literal b := by
  simp only [signTokens, List.map_cons, List.map_nil, List.mem_cons, List.not_mem_nil, or_false,
    not_or] at hsign
  rw [fullStop] at hstop
  simp only [plainToken, hsign, hstop, if_false]

/-- Every lexeme stands for its token. -/
theorem standsFor_token (l : Lexeme) : l.StandsFor l.token := by
  cases l with
  | plain b =>
    rw [token]
    by_cases hsign : b ∈ signTokens.map Prod.fst
    · obtain ⟨⟨_, t⟩, ht, rfl⟩ := List.mem_map.mp hsign
      rw [plainToken_sign ht]
      exact .sign ht
    · by_cases hstop : b = fullStop
      · subst hstop
        exact .anyByte ByteClass.matches_anyExceptNewline
      · rw [plainToken_literal hsign hstop]
        exact .literal hsign hstop
  | escape b =>
    rw [token, escapeToken]
    by_cases hd : b = 0x64
    · subst hd
      exact .digit ByteClass.matches_digit
    · by_cases hw : b = 0x77
      · subst hw
        exact .word ByteClass.matches_word
      · rw [if_neg hd, if_neg hw]
        exact .escaped hd hw
  | bracket body =>
    rw [token]
    by_cases hcaret : body.head? = some caret
    · obtain ⟨rest, rfl⟩ := List.head?_eq_some_iff.mp hcaret
      exact .excluding (matches_bodyClass_excluding rest)
    · exact .listing hcaret (matches_bodyClass_listing hcaret)

/-- No lexeme stands for another token. -/
theorem StandsFor.eq_token {l : Lexeme} {t : Token} (h : l.StandsFor t) : t = l.token := by
  cases h with
  | sign ht => exact (plainToken_sign ht).symm
  | anyByte hc =>
    rw [ByteClass.matches_anyExceptNewline.iff_eq.mp hc]
    rfl
  | literal hsign hstop => exact (plainToken_literal hsign hstop).symm
  | digit hc =>
    rw [ByteClass.matches_digit.iff_eq.mp hc]
    rfl
  | word hc =>
    rw [ByteClass.matches_word.iff_eq.mp hc]
    rfl
  | escaped hd hw => rw [token, escapeToken, if_neg hd, if_neg hw]
  | listing hcaret hc => rw [(matches_bodyClass_listing hcaret).iff_eq.mp hc, token]
  | excluding hc => rw [(matches_bodyClass_excluding _).iff_eq.mp hc, token]

/-- The tokens for which a row of lexemes stands are theirs. -/
theorem forall₂_standsFor_iff {ls : List Lexeme} {ts : List Token} :
    List.Forall₂ StandsFor ls ts ↔ ts = ls.map token := by
  constructor
  · intro h
    induction h with
    | nil => rfl
    | cons hl _ ih => rw [List.map_cons, hl.eq_token, ih]
  · rintro rfl
    rw [List.forall₂_map_right_iff, List.forall₂_same]
    exact fun l _ => l.standsFor_token

end Lexeme

namespace Pattern

/-- Every pattern, whatever its bytes, is spelled by exactly one row of lawful lexemes with a
lawful tail. Its tokens are those for which the lexemes stand, in order, and one literal for each
byte of the tail; a concatenation or an operand for any byte is never among them. -/
theorem tokens_from_only_reading (p : Pattern) :
    ∃ r : Reading, (∀ s : Reading, s.Lawful ∧ s.bytes = p ↔ s = r) ∧
      (∀ ts, ts = p.tokens ↔ ∃ us, List.Forall₂ Lexeme.StandsFor r.lexemes us ∧
        ts = us ++ r.tail.bytes.map Token.literal) ∧
      Token.op .concat ∉ p.tokens ∧ Token.dot ∉ p.tokens := by
  refine ⟨Reading.ofBytes p, fun s => Reading.lawful_and_bytes_eq_iff, fun ts => ?_, ?_, ?_⟩
  · simp only [Lexeme.forall₂_standsFor_iff, exists_eq_left]
    rfl
  · exact fun h => (written_of_mem_tokens h).right rfl
  · exact fun h => (written_of_mem_tokens h).left rfl

/-- An open bracket turns what follows into literals, the escape and the star with it. -/
example : tokens [0x5c, 0x64, 0x5b, 0x5e, 0x5c, 0x2a] =
    [.charClass .digit, .literal 0x5b, .literal 0x5e, .literal 0x5c, .literal 0x2a] := by
  decide

end Pattern

end ByteRegex
