import ByteRegex.Proofs.Parsing

/-!
# The ways of writing an expression

An expression is a tree, and it can be written in many ways: parentheses have to be put around
some of its parts, depending on where they stand, and may be put around any part, any number
of times. Concatenation is not written. Whatever the way, the parser makes the operator-last
listing of the tree, so parentheses that are not needed leave no trace.

Every way of writing is the stream of a derivation: where a part stands tells which tier of
the grammar it has to be of, and what needs parentheses there is what is of a looser tier.
-/

namespace ByteRegex

/-- An expression, in which grouping is the shape of the tree. -/
inductive Expression where
  /-- An operand. -/
  | operand (t : Token) (h : t.isOperand = true)
  /-- A repeated expression. -/
  | repeated (a : Expression) (r : Repeat)
  /-- One expression after another. -/
  | concat (a b : Expression)
  /-- Either of two expressions. -/
  | alt (a b : Expression)

/-- The operands of the expression in order, with every operator behind its operands. -/
def Expression.postorder : Expression → List Token
  | operand t _ => [t]
  | repeated a r => a.postorder ++ [.op r.operator]
  | concat a b => a.postorder ++ b.postorder ++ [.op .concat]
  | alt a b => a.postorder ++ b.postorder ++ [.op .alt]

/-- Where a part of an expression stands. -/
inductive Place where
  /-- Alone, or in parentheses. -/
  | whole
  /-- In front of a repetition. -/
  | repeated
  /-- First in a concatenation. -/
  | concatLeft
  /-- Second in a concatenation. -/
  | concatRight
  /-- First in an alternation. -/
  | altLeft
  /-- Second in an alternation. -/
  | altRight

/-- Whether the expression needs parentheses at the place. An alternation does in a
concatenation and in front of a repetition, a concatenation does in front of a repetition, and
so does the second operand of an operator if it is made by the same operator. -/
def Place.needsParens : Place → Expression → Bool
  | concatLeft, .alt _ _ => true
  | concatRight, .alt _ _ => true
  | repeated, .alt _ _ => true
  | repeated, .concat _ _ => true
  | concatRight, .concat _ _ => true
  | altRight, .alt _ _ => true
  | _, _ => false

/-- The ways of writing an expression at a place. -/
inductive Writes : Place → Expression → List Token → Prop
  /-- An operand is written as it is. -/
  | operand {p : Place} {t : Token} {h : t.isOperand = true} : Writes p (.operand t h) [t]
  /-- A repetition is written behind what it repeats. -/
  | repeated {p : Place} {a : Expression} {r : Repeat} {ts : List Token} :
      Writes .repeated a ts → Writes p (.repeated a r) (ts ++ [.op r.operator])
  /-- Concatenation is not written. -/
  | concat {p : Place} {a b : Expression} {ts us : List Token} :
      p.needsParens (.concat a b) = false → Writes .concatLeft a ts → Writes .concatRight b us →
        Writes p (.concat a b) (ts ++ us)
  /-- A bar is written between the sides of an alternation. -/
  | alt {p : Place} {a b : Expression} {ts us : List Token} :
      p.needsParens (.alt a b) = false → Writes .altLeft a ts → Writes .altRight b us →
        Writes p (.alt a b) (ts ++ .op .alt :: us)
  /-- Any expression may be put in parentheses, needed or not. -/
  | parens {p : Place} {a : Expression} {ts : List Token} :
      Writes .whole a ts → Writes p a (.lparen :: ts ++ [.rparen])

variable {p : Place} {a b : Expression} {ts us : List Token}

/-- Every expression can be written, whatever its place. -/
theorem exists_writes (p : Place) (a : Expression) : ∃ ts, Writes p a ts := by
  induction a generalizing p with
  | operand t h => exact ⟨_, .operand⟩
  | repeated a r ih =>
    obtain ⟨ts, h⟩ := ih .repeated
    exact ⟨_, .repeated h⟩
  | concat a b iha ihb =>
    obtain ⟨ts, ha⟩ := iha .concatLeft
    obtain ⟨us, hb⟩ := ihb .concatRight
    cases hneeds : p.needsParens (.concat a b) with
    | false => exact ⟨_, .concat hneeds ha hb⟩
    | true => exact ⟨_, .parens (.concat rfl ha hb)⟩
  | alt a b iha ihb =>
    obtain ⟨ts, ha⟩ := iha .altLeft
    obtain ⟨us, hb⟩ := ihb .altRight
    cases hneeds : p.needsParens (.alt a b) with
    | false => exact ⟨_, .alt hneeds ha hb⟩
    | true => exact ⟨_, .parens (.alt rfl ha hb)⟩

/-- No way of writing an expression has a concatenation in it. -/
theorem Writes.concat_not_mem (h : Writes p a ts) : Token.op .concat ∉ ts := by
  induction h with
  | @operand p t ht =>
    intro hmem
    obtain rfl := List.mem_singleton.mp hmem
    cases ht
  | @repeated p a r ts _ ih =>
    have hr : Token.op .concat ∉ [Token.op r.operator] := by
      cases r <;> decide
    exact List.not_mem_append ih hr
  | concat _ _ _ iha ihb => exact List.not_mem_append iha ihb
  | alt _ _ _ iha ihb =>
    exact List.not_mem_append iha (List.not_mem_cons_of_ne_of_not_mem (by decide) ihb)
  | parens _ ih =>
    refine List.not_mem_append (List.not_mem_cons_of_ne_of_not_mem (by decide) ih) ?_
    decide

/-- The tier of what may stand at the place without parentheses. -/
def Place.tier : Place → Tier
  | whole => .alternation
  | repeated => .repetition
  | concatLeft => .sequence
  | concatRight => .repetition
  | altLeft => .alternation
  | altRight => .sequence

/-- A token that is an operand. -/
structure Operand where
  /-- The token. -/
  token : Token
  /-- It is an operand. -/
  isOperand : token.isOperand = true

/-- The phrase is written with these tokens and means the expression: both have the same
operator-last form. -/
def Phrase.Spells {l : Tier} (q : Phrase Operand l) (ts : List Token) (a : Expression) : Prop :=
  q.tokens Operand.token = ts ∧ q.postorder Operand.token = a.postorder

namespace Phrase.Spells

/-- One more sign means one more repetition. -/
theorem repeated {q : Phrase Operand .repetition} (h : q.Spells ts a) (r : Repeat) :
    (q.repeated r).Spells (ts ++ [.op r.operator]) (a.repeated r) := by
  obtain ⟨rfl, hpost⟩ := h
  refine ⟨rfl, ?_⟩
  rw [Phrase.postorder, hpost, Expression.postorder]

/-- A sequence and one more repetition mean a concatenation. -/
theorem followed {q : Phrase Operand .sequence} {r : Phrase Operand .repetition}
    (hq : q.Spells ts a) (hr : r.Spells us b) : (q.followed r).Spells (ts ++ us) (a.concat b) := by
  obtain ⟨rfl, hqpost⟩ := hq
  obtain ⟨rfl, hrpost⟩ := hr
  refine ⟨rfl, ?_⟩
  rw [Phrase.postorder, hqpost, hrpost, Expression.postorder]

/-- An alternation and one more sequence mean an alternation. -/
theorem either {q : Phrase Operand .alternation} {r : Phrase Operand .sequence}
    (hq : q.Spells ts a) (hr : r.Spells us b) :
    (q.either r).Spells (ts ++ .op .alt :: us) (a.alt b) := by
  obtain ⟨rfl, hqpost⟩ := hq
  obtain ⟨rfl, hrpost⟩ := hr
  refine ⟨rfl, ?_⟩
  rw [Phrase.postorder, hqpost, hrpost, Expression.postorder]

/-- Parentheses mean nothing. -/
theorem group {q : Phrase Operand .alternation} (h : q.Spells ts a) :
    (Phrase.group q).Spells (.lparen :: ts ++ [.rparen]) a := by
  obtain ⟨rfl, hpost⟩ := h
  exact ⟨rfl, hpost⟩

/-- A repetition may stand anywhere. -/
theorem repetition_at {q : Phrase Operand .repetition} (h : q.Spells ts a) (p : Place) :
    ∃ r : Phrase Operand p.tier, r.Spells ts a := by
  cases p with
  | whole => exact ⟨.only (.single q), h⟩
  | repeated => exact ⟨q, h⟩
  | concatLeft => exact ⟨.single q, h⟩
  | concatRight => exact ⟨q, h⟩
  | altLeft => exact ⟨.only (.single q), h⟩
  | altRight => exact ⟨.single q, h⟩

/-- A sequence may stand where a concatenation needs no parentheses. -/
theorem sequence_at {q : Phrase Operand .sequence} (h : q.Spells ts (a.concat b))
    (hp : p.needsParens (a.concat b) = false) :
    ∃ r : Phrase Operand p.tier, r.Spells ts (a.concat b) := by
  cases p with
  | whole => exact ⟨.only q, h⟩
  | repeated => cases hp
  | concatLeft => exact ⟨q, h⟩
  | concatRight => cases hp
  | altLeft => exact ⟨.only q, h⟩
  | altRight => exact ⟨q, h⟩

/-- An alternation may stand where it needs no parentheses. -/
theorem alternation_at {q : Phrase Operand .alternation} (h : q.Spells ts (a.alt b))
    (hp : p.needsParens (a.alt b) = false) :
    ∃ r : Phrase Operand p.tier, r.Spells ts (a.alt b) := by
  cases p with
  | whole => exact ⟨q, h⟩
  | repeated => cases hp
  | concatLeft => cases hp
  | concatRight => cases hp
  | altLeft => exact ⟨q, h⟩
  | altRight => cases hp

end Phrase.Spells

/-- Every way of writing an expression at a place is the stream of a derivation of the tier of
the place. -/
theorem Writes.exists_phrase (h : Writes p a ts) : ∃ q : Phrase Operand p.tier, q.Spells ts a := by
  induction h with
  | @operand p t ht =>
    have hq : (Phrase.once (.operand ⟨t, ht⟩)).Spells [t] (.operand t ht) := ⟨rfl, rfl⟩
    exact hq.repetition_at p
  | @repeated p a r ts _ ih =>
    obtain ⟨q, hq⟩ := ih
    exact (Phrase.Spells.repeated hq r).repetition_at p
  | concat hp _ _ iha ihb =>
    obtain ⟨q, hq⟩ := iha
    obtain ⟨r, hr⟩ := ihb
    exact (Phrase.Spells.followed hq hr).sequence_at hp
  | alt hp _ _ iha ihb =>
    obtain ⟨q, hq⟩ := iha
    obtain ⟨r, hr⟩ := ihb
    exact (Phrase.Spells.either hq hr).alternation_at hp
  | @parens p a ts _ ih =>
    obtain ⟨q, hq⟩ := ih
    have hgroup : (Phrase.once (.group q)).Spells (.lparen :: ts ++ [.rparen]) a :=
      Phrase.Spells.group hq
    exact hgroup.repetition_at p

/-- The parser makes the operator-last listing of an expression from every way of writing it. -/
theorem Writes.toPostorder_eq (h : Writes p a ts) :
    toPostorder (insertConcats ts) = a.postorder := by
  obtain ⟨q, rfl, hq⟩ := h.exists_phrase
  rw [q.toPostorder_tokens Operand.isOperand, hq]

/-- An expression can be written, without concatenations, and however that is done, the parser
makes the operator-last listing of the expression. So two ways of writing it, which differ in
parentheses that are not needed, compile to the same automaton under every limit. -/
theorem Expression.parsed_from_every_writing (a : Expression) :
    (∃ ts, Writes .whole a ts) ∧
    ∀ ts, Writes .whole a ts → Token.op .concat ∉ ts ∧
      toPostorder (insertConcats ts) = a.postorder ∧
      ∀ us, Writes .whole a us → toPostorder (insertConcats us) = toPostorder (insertConcats ts) ∧
        ∀ limit, Thompson.compile limit (toPostorder (insertConcats us)) =
          Thompson.compile limit (toPostorder (insertConcats ts)) := by
  refine ⟨exists_writes .whole a, fun ts hts => ?_⟩
  refine ⟨hts.concat_not_mem, hts.toPostorder_eq, fun us hus => ?_⟩
  have hsame : toPostorder (insertConcats us) = toPostorder (insertConcats ts) :=
    hus.toPostorder_eq.trans hts.toPostorder_eq.symm
  exact ⟨hsame, fun limit => congrArg (Thompson.compile limit) hsame⟩

/-- Redundant pairs around the alternation, and the needed one, leave the same stream. -/
example : toPostorder (insertConcats [.literal 0x61, .lparen, .lparen, .literal 0x62, .op .alt,
      .literal 0x63, .rparen, .rparen, .op .star]) =
    [.literal 0x61, .literal 0x62, .literal 0x63, .op .alt, .op .star, .op .concat] := by
  decide

end ByteRegex
