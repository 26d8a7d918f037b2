import ByteRegex.Juxtaposition
import ByteRegex.Proofs.Reordering
import Mathlib.Data.List.Chain

/-!
# What explicit concatenation does to a stream

Whether a concatenation is put in front of a token depends on that token and on whether an
expression may end in front of it. Carrying the second fact along as a flag gives the rule
one case for each token instead of one for each pair of neighbours, and a stream can be split
anywhere: the flag is all that the first part hands on to the second.

With the flag, the places that wait for an operand in vain can be counted. This number and
the number of operands make up the number of binary operators and one more, however the
parentheses stand. Without such a place, operands stand exactly where they are expected.
-/

namespace ByteRegex

variable {ended : Bool} {t : Token} {ts us : List Token}

/-- The stream with concatenation made explicit, where the flag tells whether an expression
may end in front of the stream. -/
def joinFrom : Bool → List Token → List Token
  | _, [] => []
  | ended, t :: rest =>
    (if ended && t.canBegin then [.op .concat] else []) ++ t :: joinFrom t.canEnd rest

/-- The rule for neighbours and the rule with a flag agree behind a token. -/
theorem insertConcats_cons (t : Token) (ts : List Token) :
    insertConcats (t :: ts) = t :: joinFrom t.canEnd ts := by
  induction ts generalizing t with
  | nil => rfl
  | cons u rest ih =>
    rw [insertConcats, joinFrom, ih u, Token.joins]
    cases t.canEnd && u.canBegin <;> rfl

/-- No expression may end in front of the first token. -/
theorem insertConcats_eq_joinFrom (ts : List Token) : insertConcats ts = joinFrom false ts := by
  cases ts with
  | nil => rfl
  | cons t rest => exact insertConcats_cons t rest

/-- Whether an expression may end behind the stream, where the flag tells whether one may end in
front of it. -/
def endedBehind (ended : Bool) (ts : List Token) : Bool := (ts.getLast?.map Token.canEnd).getD ended

/-- Behind a token the flag does not matter any more. -/
theorem endedBehind_cons (ended : Bool) (t : Token) (ts : List Token) :
    endedBehind ended (t :: ts) = endedBehind t.canEnd ts := by
  rw [endedBehind, endedBehind, List.getLast?_cons]
  cases ts.getLast? <;> rfl

/-- The second part of a stream is made explicit as it is behind the first one. -/
theorem joinFrom_append (ended : Bool) (ts us : List Token) :
    joinFrom ended (ts ++ us) = joinFrom ended ts ++ joinFrom (endedBehind ended ts) us := by
  induction ts generalizing ended with
  | nil => rfl
  | cons t rest ih =>
    rw [List.cons_append, joinFrom, ih, joinFrom, endedBehind_cons, List.append_assoc,
      List.cons_append]

/-- What is in front of a stream decides on the first place only. -/
theorem joinFrom_eq_append (ended : Bool) (ts : List Token) : joinFrom ended ts =
    (if ended && ts.head?.any Token.canBegin then [.op .concat] else []) ++ joinFrom false ts := by
  cases ts with
  | nil => cases ended <;> rfl
  | cons t rest => simp [joinFrom]

/-- No neighbours are left to be joined. -/
def Spaced (ts : List Token) : Prop := ts.IsChain fun t u => t.joins u = false

/-- Explicit concatenation leaves no neighbours to be joined. -/
theorem spaced_joinFrom (ended : Bool) (ts : List Token) : Spaced (joinFrom ended ts) := by
  induction ts generalizing ended with
  | nil => exact .nil
  | cons t rest ih =>
    have htail : Spaced (t :: joinFrom t.canEnd rest) := by
      refine List.isChain_cons.mpr ⟨fun u hu => ?_, ih t.canEnd⟩
      cases rest with
      | nil => cases hu
      | cons v rest =>
        rw [joinFrom] at hu
        cases hjoined : t.canEnd && v.canBegin with
        | true =>
          rw [hjoined] at hu
          obtain rfl := Option.some.inj hu
          exact Bool.and_false t.canEnd
        | false =>
          rw [hjoined] at hu
          obtain rfl := Option.some.inj hu
          exact hjoined
    rw [joinFrom]
    cases ended && t.canBegin with
    | false => exact htail
    | true => exact List.isChain_cons.mpr ⟨fun u _ => rfl, htail⟩

/-- Two neighbours are not left to be joined. -/
theorem Spaced.joins_eq_false {b a : List Token} {t u : Token} (h : Spaced (b ++ t :: u :: a)) :
    t.joins u = false :=
  (List.isChain_append_cons_cons.mp h).right.left

/-- The rule for neighbours leaves none to be joined. -/
theorem spaced_insertConcats (ts : List Token) : Spaced (insertConcats ts) := by
  rw [insertConcats_eq_joinFrom]
  exact spaced_joinFrom false ts

/-- Nothing but concatenations is put in, so tokens of a kind that has none of them keep their
number. -/
theorem countP_joinFrom_of_concat {p : Token → Bool} (hp : p (.op .concat) = false) (ended : Bool)
    (ts : List Token) : (joinFrom ended ts).countP p = ts.countP p := by
  induction ts generalizing ended with
  | nil => rfl
  | cons t rest ih =>
    have hput : (if ended && t.canBegin then [Token.op .concat] else []).countP p = 0 := by
      cases ended && t.canBegin <;> simp [hp]
    rw [joinFrom, List.countP_append, hput, Nat.zero_add, List.countP_cons, List.countP_cons, ih]

/-- The parser keeps the number of tokens of a kind that has neither parentheses nor
concatenations. -/
theorem countP_toPostorder_insertConcats {p : Token → Bool} (hl : p .lparen = false)
    (hr : p .rparen = false) (hp : p (.op .concat) = false) (ts : List Token) :
    (toPostorder (insertConcats ts)).countP p = ts.countP p := by
  rw [Yard.countP_toPostorder hl hr, insertConcats_eq_joinFrom, countP_joinFrom_of_concat hp]

/-- The number of places that wait for the beginning of an expression in vain. -/
def unfilled : Bool → List Token → Nat
  | ended, [] => (!ended).toNat
  | ended, t :: rest => (!ended && !t.canBegin).toNat + unfilled t.canEnd rest

/-- Each token stands where it is expected: the beginning of an expression where none may
end, any other token where one may end, and an expression may end with the last one. -/
def Fits : Bool → List Token → Prop
  | ended, [] => ended = true
  | ended, t :: rest => t.canBegin = !ended ∧ Fits t.canEnd rest

/-- A token is an operand, ends an expression without being one, is a binary operator, or
opens a group; nothing else is asked about it here. -/
theorem Token.kinds (t : Token) :
    t.isOperand = true ∧ t.isBinary = false ∧ t.canEnd = true ∧ t.canBegin = true ∨
    t.isOperand = false ∧ t.isBinary = false ∧ t.canEnd = true ∧ t.canBegin = false ∨
    t.isOperand = false ∧ t.isBinary = true ∧ t.canEnd = false ∧ t.canBegin = false ∨
    t.isOperand = false ∧ t.isBinary = false ∧ t.canEnd = false ∧ t.canBegin = true := by
  cases t with
  | op o => cases o <;> decide
  | lparen => decide
  | rparen => decide
  | _ => exact .inl ⟨rfl, rfl, rfl, rfl⟩

/-- Operands and places left empty make up the binary operators and one more. -/
theorem countP_joinFrom (ended : Bool) (ts : List Token) :
    (joinFrom ended ts).countP Token.isOperand + unfilled ended ts =
      (joinFrom ended ts).countP Token.isBinary + (!ended).toNat := by
  induction ts generalizing ended with
  | nil => rfl
  | cons t rest ih =>
    have hrest := ih t.canEnd
    have hconcat : (Token.op .concat).isOperand = false ∧ (Token.op .concat).isBinary = true :=
      ⟨rfl, rfl⟩
    rw [joinFrom, List.countP_append, List.countP_append, List.countP_cons, List.countP_cons,
      unfilled]
    rcases t.kinds with ⟨ho, hb, he, hg⟩ | ⟨ho, hb, he, hg⟩ | ⟨ho, hb, he, hg⟩ | ⟨ho, hb, he, hg⟩
    all_goals
      cases ended
      all_goals
        simp only [ho, hb, he, hg, hconcat, Bool.toNat_true, Bool.toNat_false, Bool.not_true,
          Bool.not_false, Bool.and_true, Bool.and_false, Bool.and_self, Bool.false_eq_true,
          if_true, if_false, List.countP_cons, List.countP_nil] at hrest ⊢
        omega

/-- Where no place is left empty, making concatenation explicit puts every token where it is
expected. -/
theorem fits_joinFrom (h : unfilled ended ts = 0) : Fits ended (joinFrom ended ts) := by
  induction ts generalizing ended with
  | nil =>
    cases ended with
    | true => rfl
    | false => cases h
  | cons t rest ih =>
    rw [unfilled, Nat.add_eq_zero_iff] at h
    obtain ⟨hplace, hrest⟩ := h
    have hfits := ih hrest
    rw [joinFrom]
    cases ended with
    | false =>
      cases hbegin : t.canBegin with
      | true => exact ⟨hbegin, hfits⟩
      | false =>
        rw [hbegin] at hplace
        cases hplace
    | true =>
      cases hbegin : t.canBegin with
      | true => exact ⟨rfl, hbegin, hfits⟩
      | false => exact ⟨hbegin, hfits⟩

/-- Reading tokens that fit keeps a conversion balanced to the end. -/
theorem Yard.Balanced.foldl {y : Yard} (h : y.Balanced ended) (hts : Fits ended ts) :
    (ts.foldl Yard.feed y).Balanced true := by
  induction ts generalizing y ended with
  | nil =>
    obtain rfl : ended = true := hts
    exact h
  | cons t rest ih =>
    obtain ⟨ht, hrest⟩ := hts
    exact ih (h.feed ht) hrest

/-- Whatever number of expressions a stream leaves, that number and the number of places left
empty make one. -/
theorem depth_add_unfilled {k : Nat}
    (h : depthFrom 0 (toPostorder (insertConcats ts)) = .ok k) : k + unfilled false ts = 1 := by
  have hbalance := (depthFrom_balance h).left
  rw [Yard.countP_toPostorder rfl rfl, Yard.countP_toPostorder rfl rfl,
    insertConcats_eq_joinFrom] at hbalance
  have hcount := countP_joinFrom false ts
  rw [Bool.not_false, Bool.toNat_true] at hcount
  omega

/-- A stream makes exactly one expression when no place is left empty. -/
theorem depth_eq_one_iff :
    depthFrom 0 (toPostorder (insertConcats ts)) = .ok 1 ↔ unfilled false ts = 0 := by
  constructor
  · intro h
    have hone := depth_add_unfilled h
    omega
  · intro h
    have hfits := fits_joinFrom h
    rw [← insertConcats_eq_joinFrom] at hfits
    exact (Yard.balanced_start.foldl hfits).depth_finish

end ByteRegex
