import ByteRegex.Proofs.Lexing
import ByteRegex.Regex

/-!
# Patterns match the languages of their derivations

The stages of the program meet here. The bytes of a derivation are read into its tokens, the
tokens are brought into its operator-last form, that form denotes the language of the
derivation, and the construction builds an automaton of what it is given.
-/

namespace ByteRegex

namespace Phrase

variable {l : Tier}

/-- The operator-last form of a phrase puts the language of the phrase on the stack. -/
theorem denote_postorder (p : Phrase Glyph l) (stack : List (Language UInt8)) :
    denote (p.postorder Glyph.token) stack = some (p.language :: stack) := by
  rw [language]
  induction p generalizing stack with
  | operand g =>
    rw [postorder, denote, Glyph.apply_token]
    rfl
  | group p ih => exact ih stack
  | once p ih => exact ih stack
  | repeated p r ih =>
    rw [postorder, denote_append, ih]
    cases r <;> rfl
  | single p ih => exact ih stack
  | followed p q ihp ihq =>
    rw [postorder, denote_append, denote_append, ihp, Option.bind_some, ihq]
    rfl
  | only p ih => exact ih stack
  | either p q ihp ihq =>
    rw [postorder, denote_append, denote_append, ihp, Option.bind_some, ihq]
    rfl

/-- The bytes of a derivation are brought into its operator-last form. -/
theorem postorder_bytes (p : Phrase Glyph l) :
    Pattern.postorder p.bytes = p.postorder Glyph.token := by
  rw [Pattern.postorder, Pattern.explicitTokens, tokens_bytes,
    toPostorder_tokens Glyph.isOperand_token]

/-- The bytes of a derivation compile to an automaton that recognizes its language. -/
theorem exists_compile_bytes (p : Phrase Glyph l) :
    ∃ n, Thompson.compile none (Pattern.postorder p.bytes) = .ok n ∧ n.Recognizes p.language := by
  rw [postorder_bytes]
  obtain ⟨n, hn⟩ := Thompson.compile_eq_ok_iff.mpr (p.depthFrom_postorder Glyph.isOperand_token 0)
  obtain ⟨L, hdenote, hrange, hpaths⟩ := Thompson.compile_paths hn
  have hlanguage : L = p.language := by
    have h := (p.denote_postorder []).symm.trans hdenote
    exact (List.cons.inj (Option.some.inj h)).left.symm
  rw [hlanguage] at hpaths
  exact ⟨n, hn, Nfa.recognizes_of_paths hrange hpaths⟩

end Phrase

namespace Regex

/-- A text that spells a derivation compiles, and the matcher accepts exactly the inputs that
belong, as a whole, to the language of the derivation. The same holds of every pattern of
bytes, whether it is a text or not. -/
theorem matches_derivation (p : Phrase Glyph .alternation) :
    (∃ n, Thompson.compile none (Pattern.postorder p.bytes) = .ok n ∧
      n.Recognizes p.language) ∧
    ∀ text, Pattern.ofString text = p.bytes →
      ∃ r, Regex.compile text = .ok r ∧ r.pattern = text ∧
        r.nfa.Recognizes p.language ∧ ∀ w, r.isMatch w = true ↔ w ∈ p.language := by
  obtain ⟨n, hn, hrecognizes⟩ := p.exists_compile_bytes
  refine ⟨⟨n, hn, hrecognizes⟩, fun text htext => ⟨⟨text, n⟩, ?_, rfl, hrecognizes, ?_⟩⟩
  · rw [Regex.compile, Builder.build]
    simp only [Builder.ofPattern, htext, hn]
  · intro w
    exact (hrecognizes w).right

/-- Either of two bytes any number of times, and then a third. -/
def choiceLoop : Phrase Glyph .alternation :=
  .only (.followed
    (.single (.repeated (.once (.group (.either
      (.only (.single (.once (.operand (.plain 0x61 (by decide))))))
      (.single (.once (.operand (.plain 0x62 (by decide)))))))) .star))
    (.once (.operand (.plain 0x63 (by decide)))))

/-- The text of the loop compiles and matches the language of the loop. -/
theorem choiceLoop_matches : ∃ r, Regex.compile "(a|b)*c" = .ok r ∧ r.pattern = "(a|b)*c" ∧
    r.nfa.Recognizes choiceLoop.language ∧
      ∀ w, r.isMatch w = true ↔ w ∈ choiceLoop.language :=
  (matches_derivation choiceLoop).right "(a|b)*c" (by decide)

end Regex

end ByteRegex
