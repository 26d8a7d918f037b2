import ByteRegex.Proofs.Joining
import Mathlib.Data.List.ReduceOption

/-!
# Which concatenations are made explicit

A stream is seen as a row in which some concatenations are not written. The row is complete when
each of them separates an expression from the next one and no further one could be put in. Every
stream is what is written of exactly one complete row, and making concatenation explicit writes out
that row. The result is a complete row itself, with nothing left to be written, so a second pass
changes nothing. Two streams that meet share at most one place, the one between them.
-/

namespace ByteRegex

variable {t u : Token} {ts us : List Token}

/-- A row of tokens in which `none` stands for a concatenation that is not written. -/
abbrev Row := List (Option Token)

namespace Row

variable {row : Row}

/-- The tokens that are written. -/
def written (row : Row) : List Token := row.reduceOption

/-- The tokens, with every concatenation written out. -/
def explicit (row : Row) : List Token := row.map (·.getD (.op .concat))

/-- Exactly those concatenations are not written that need not be. -/
structure Complete (row : Row) : Prop where
  /-- What is not written stands between the end of an expression and the beginning of another. -/
  separates : ∀ b a, row = b ++ none :: a →
    ∃ t u, b.getLast? = some (some t) ∧ a.head? = some (some u) ∧ t.joins u = true
  /-- Between two tokens that are next to each other no concatenation is missing. -/
  apart : ∀ b t u a, row = b ++ some t :: some u :: a → t.joins u = false

/-- The empty row is complete. -/
theorem complete_nil : Complete [] where
  separates b a h := by cases b <;> cases h
  apart b t u a h := by cases b <;> cases h

/-- A single token has no neighbour to be joined to. -/
theorem complete_singleton (t : Token) : Complete [some t] where
  separates b a h := by rcases b with - | ⟨v, - | ⟨w, b⟩⟩ <;> cases h
  apart b v w a h := by rcases b with - | ⟨x, - | ⟨y, b⟩⟩ <;> cases h

/-- No concatenation is left out in front of the first token. -/
theorem not_complete_none_cons : ¬ Complete (none :: row) := by
  intro h
  obtain ⟨t, u, hlast, -⟩ := h.separates [] row rfl
  cases hlast

/-- Two tokens next to each other are not to be joined, and what begins with the second one is
complete. -/
theorem complete_some_some : Complete (some t :: some u :: row) ↔
    t.joins u = false ∧ Complete (some u :: row) := by
  constructor
  · intro h
    refine ⟨h.apart [] t u row rfl, fun b a hrow => ?_, fun b v w a hrow => ?_⟩
    · have hplace := h.separates (some t :: b) a (congrArg (some t :: ·) hrow)
      cases b with
      | nil => cases hrow
      | cons v b => exact hplace
    · exact h.apart (some t :: b) v w a (congrArg (some t :: ·) hrow)
  · rintro ⟨hjoins, h⟩
    refine ⟨fun b a hrow => ?_, fun b v w a hrow => ?_⟩
    · rcases b with - | ⟨v, - | ⟨w, b⟩⟩
      · cases hrow
      · cases hrow
      · exact h.separates (w :: b) a (List.cons.inj hrow).right
    · cases b with
      | nil =>
        obtain ⟨rfl, rfl, -⟩ : t = v ∧ u = w ∧ row = a := by simpa using hrow
        exact hjoins
      | cons x b => exact h.apart b v w a (List.cons.inj hrow).right

/-- A concatenation that is left out stands in front of a token that is joined to the one in front
of it, and what begins with that token is complete. -/
theorem complete_some_none : Complete (some t :: none :: row) ↔
    ∃ u rest, row = some u :: rest ∧ t.joins u = true ∧ Complete row := by
  constructor
  · intro h
    obtain ⟨v, u, hv, hu, hjoins⟩ := h.separates [some t] row rfl
    obtain ⟨rest, rfl⟩ := List.head?_eq_some_iff.mp hu
    obtain rfl : t = v := by simpa using hv
    refine ⟨u, rest, rfl, hjoins, fun b a hrow => ?_, fun b v w a hrow => ?_⟩
    · have hplace := h.separates (some t :: none :: b) a (congrArg (some t :: none :: ·) hrow)
      cases b with
      | nil => cases hrow
      | cons v b => exact hplace
    · exact h.apart (some t :: none :: b) v w a (congrArg (some t :: none :: ·) hrow)
  · rintro ⟨u, rest, rfl, hjoins, h⟩
    refine ⟨fun b a hrow => ?_, fun b v w a hrow => ?_⟩
    · rcases b with - | ⟨v, - | ⟨w, - | ⟨x, b⟩⟩⟩
      · cases hrow
      · obtain ⟨rfl, rfl⟩ : some t = v ∧ some u :: rest = a := by simpa using hrow
        exact ⟨t, u, rfl, rfl, hjoins⟩
      · cases hrow
      · exact h.separates (x :: b) a (List.cons.inj (List.cons.inj hrow).right).right
    · rcases b with - | ⟨x, - | ⟨y, b⟩⟩
      · cases hrow
      · cases hrow
      · exact h.apart b v w a (List.cons.inj (List.cons.inj hrow).right).right

/-- A complete row begins with the first token that is written. -/
theorem Complete.exists_cons (h : Complete row) (hrow : row.written = t :: ts) :
    ∃ rest : Row, row = some t :: rest ∧ rest.written = ts := by
  rcases row with - | ⟨- | v, rest⟩
  · cases hrow
  · exact absurd h not_complete_none_cons
  · obtain ⟨rfl, hrest⟩ := List.cons.inj hrow
    exact ⟨rest, rfl, hrest⟩

/-- The row of a stream, with a concatenation left out wherever two neighbours are to be joined. -/
def ofTokens : List Token → Row
  | [] => []
  | [t] => [some t]
  | t :: u :: rest =>
    if t.joins u then some t :: none :: ofTokens (u :: rest) else some t :: ofTokens (u :: rest)

/-- The row of a stream begins as the stream does. -/
theorem exists_ofTokens_cons (t : Token) (ts : List Token) :
    ∃ rest : Row, ofTokens (t :: ts) = some t :: rest := by
  cases ts with
  | nil => exact ⟨[], rfl⟩
  | cons u ts =>
    rw [ofTokens]
    split
    · exact ⟨_, rfl⟩
    · exact ⟨_, rfl⟩

/-- Written out, the row of a stream is the stream with concatenation made explicit. -/
theorem explicit_ofTokens (ts : List Token) : (ofTokens ts).explicit = insertConcats ts := by
  fun_induction ofTokens ts with
  | case1 => rfl
  | case2 t => rfl
  | case3 t u rest hjoins ih =>
    rw [insertConcats, if_pos hjoins, ← ih]
    rfl
  | case4 t u rest hjoins ih =>
    rw [insertConcats, if_neg hjoins, ← ih]
    rfl

/-- The stream is what is written of its row. -/
theorem written_ofTokens (ts : List Token) : (ofTokens ts).written = ts := by
  fun_induction ofTokens ts with
  | case1 => rfl
  | case2 t => rfl
  | case3 t u rest hjoins ih => exact congrArg (t :: ·) ih
  | case4 t u rest hjoins ih => exact congrArg (t :: ·) ih

/-- The row of a stream is complete. -/
theorem complete_ofTokens (ts : List Token) : (ofTokens ts).Complete := by
  fun_induction ofTokens ts with
  | case1 => exact complete_nil
  | case2 t => exact complete_singleton t
  | case3 t u rest hjoins ih =>
    obtain ⟨row, hrow⟩ := exists_ofTokens_cons u rest
    exact complete_some_none.mpr ⟨u, row, hrow, hjoins, ih⟩
  | case4 t u rest hjoins ih =>
    obtain ⟨row, hrow⟩ := exists_ofTokens_cons u rest
    rw [hrow] at ih ⊢
    exact complete_some_some.mpr ⟨Bool.eq_false_iff.mpr hjoins, ih⟩

/-- There is no other complete row of the same tokens. -/
theorem Complete.eq_ofTokens (h : Complete row) (hrow : row.written = ts) : row = ofTokens ts := by
  fun_induction ofTokens ts generalizing row with
  | case1 =>
    rcases row with - | ⟨- | v, rest⟩
    · rfl
    · exact absurd h not_complete_none_cons
    · cases hrow
  | case2 t =>
    obtain ⟨rest, rfl, hrest⟩ := h.exists_cons hrow
    rcases rest with - | ⟨- | v, rest⟩
    · rfl
    · obtain ⟨u, more, rfl, -⟩ := complete_some_none.mp h
      cases hrest
    · cases hrest
  | case3 t u rest hjoins ih =>
    obtain ⟨behind, rfl, hbehind⟩ := h.exists_cons hrow
    rcases behind with - | ⟨- | v, behind⟩
    · cases hbehind
    · obtain ⟨-, -, -, -, hcomplete⟩ := complete_some_none.mp h
      rw [ih hcomplete hbehind]
    · obtain ⟨rfl, -⟩ := List.cons.inj hbehind
      have hapart := (complete_some_some.mp h).left
      rw [hjoins] at hapart
      cases hapart
  | case4 t u rest hjoins ih =>
    obtain ⟨behind, rfl, hbehind⟩ := h.exists_cons hrow
    rcases behind with - | ⟨- | v, behind⟩
    · cases hbehind
    · obtain ⟨v, more, rfl, hjoined, -⟩ := complete_some_none.mp h
      obtain ⟨rfl, -⟩ := List.cons.inj hbehind
      exact absurd hjoined hjoins
    · rw [ih (complete_some_some.mp h).right hbehind]

end Row

/-- Where no neighbours are to be joined, nothing is put in. -/
theorem Spaced.insertConcats_eq (h : Spaced ts) : insertConcats ts = ts := by
  fun_induction insertConcats ts with
  | case1 => rfl
  | case2 t => rfl
  | case3 t u rest hjoins ih =>
    have hapart := (List.isChain_cons_cons.mp h).left
    rw [hjoins] at hapart
    cases hapart
  | case4 t u rest hjoins ih => rw [ih (List.isChain_cons_cons.mp h).right]

/-- The place between two streams is filled when the first ends with an expression and the second
begins with one. -/
theorem endedBehind_and_canBegin_iff :
    (endedBehind false ts && us.head?.any Token.canBegin) = true ↔
      ∃ t ∈ ts.getLast?, ∃ u ∈ us.head?, t.joins u = true := by
  cases hlast : ts.getLast? with
  | none => simp [endedBehind, hlast]
  | some t =>
    cases hhead : us.head? with
    | none => simp
    | some u => simp [endedBehind, hlast, Token.joins]

/-- Explicit concatenation puts in exactly what is missing. On every stream, whatever tokens it
has, the result is the only complete row of its tokens, written out: take away what was put in, and
the stream is left; each concatenation that was put in separates two neighbours of the stream that
are to be joined, and no such neighbours are left. A second pass changes nothing, and two streams
are made explicit one by one, with a concatenation between them if and only if the last token of
the first is to be joined to the first token of the second. -/
theorem insertConcats_only_completion (ts : List Token) :
    (∃ row : Row, row.explicit = insertConcats ts ∧
      ∀ r : Row, r.written = ts ∧ r.Complete ↔ r = row) ∧
    Spaced (insertConcats ts) ∧
    insertConcats (insertConcats ts) = insertConcats ts ∧
    ∀ us, ∃ between,
      insertConcats (ts ++ us) = insertConcats ts ++ between ++ insertConcats us ∧
      (between = [.op .concat] ∨ between = []) ∧
      (between = [.op .concat] ↔ ∃ t ∈ ts.getLast?, ∃ u ∈ us.head?, t.joins u = true) := by
  have hspaced := spaced_insertConcats ts
  refine ⟨⟨.ofTokens ts, Row.explicit_ofTokens ts, fun r => ⟨fun ⟨hr, h⟩ => h.eq_ofTokens hr, ?_⟩⟩,
    hspaced, hspaced.insertConcats_eq, fun us => ?_⟩
  · rintro rfl
    exact ⟨Row.written_ofTokens ts, Row.complete_ofTokens ts⟩
  · refine ⟨if endedBehind false ts && us.head?.any Token.canBegin then [.op .concat] else [],
      ?_, ?_, ?_⟩
    · rw [insertConcats_eq_joinFrom, insertConcats_eq_joinFrom, insertConcats_eq_joinFrom,
        joinFrom_append, joinFrom_eq_append (endedBehind false ts), List.append_assoc]
    · cases endedBehind false ts && us.head?.any Token.canBegin
      · exact .inr rfl
      · exact .inl rfl
    · rw [← endedBehind_and_canBegin_iff]
      cases endedBehind false ts && us.head?.any Token.canBegin <;> simp

/-- An operand for any byte and a concatenation that is written are joined to what is next to them
as everything else is. -/
example : insertConcats [.dot, .op .star, .dot, .op .concat, .lparen, .rparen, .dot] =
    [.dot, .op .star, .op .concat, .dot, .op .concat, .lparen, .rparen, .op .concat, .dot] := by
  decide

end ByteRegex
