import ByteRegex.Pattern
import ByteRegex.Proofs.Joining

/-!
# Which patterns compile, and which error the others give

A pattern compiles when an expression begins at its first token, behind every opening
parenthesis and behind every bar; how its parentheses are balanced does not matter. A
pattern of opening parentheses and then closing ones has nothing to match. Every other
pattern has an operator without its operands, and no pattern is reported as more than one
expression.
-/

namespace ByteRegex

variable {ended : Bool} {t : Token} {ts : List Token}

/-- An expression begins with the token: it is an operand of a pattern or opens a group. -/
def Token.Opens (t : Token) : Prop :=
  (∃ b, t = .literal b) ∨ (∃ c, t = .charClass c) ∨ t = .lparen

/-- An expression begins with the first token. -/
def Begins (ts : List Token) : Prop := ∃ t rest, ts = t :: rest ∧ t.Opens

/-- An expression begins behind every opening parenthesis and behind every bar. -/
def BeginsBehind (ts : List Token) : Prop :=
  ∀ before t after, ts = before ++ t :: after → t = .lparen ∨ t = .op .alt → Begins after

/-- An expression begins wherever the stream needs one. -/
structure Filled (ts : List Token) : Prop where
  /-- One begins with the first token. -/
  first : Begins ts
  /-- One begins behind every opening parenthesis and behind every bar. -/
  behind : BeginsBehind ts

/-- The requirement on a stream is one on its first token and one on the rest. -/
theorem beginsBehind_cons :
    BeginsBehind (t :: ts) ↔ (t = .lparen ∨ t = .op .alt → Begins ts) ∧ BeginsBehind ts := by
  constructor
  · intro h
    refine ⟨h [] t ts rfl, fun before u after hsplit => ?_⟩
    exact h (t :: before) u after (congrArg (t :: ·) hsplit)
  · rintro ⟨hfirst, hrest⟩ before u after hsplit
    cases before with
    | nil =>
      obtain ⟨rfl, rfl⟩ := List.cons.inj hsplit
      exact hfirst
    | cons v before => exact hrest before u after (List.cons.inj hsplit).right

/-- The token can be written in a pattern. -/
def Token.Written (t : Token) : Prop := t ≠ .dot ∧ t ≠ .op .concat

/-- Among the written tokens, an expression begins with those that may begin one. -/
theorem Token.Written.canBegin_iff (h : t.Written) : t.canBegin = true ↔ t.Opens := by
  cases t with
  | literal b => exact ⟨fun _ => .inl ⟨b, rfl⟩, fun _ => rfl⟩
  | charClass c => exact ⟨fun _ => .inr (.inl ⟨c, rfl⟩), fun _ => rfl⟩
  | dot => exact absurd rfl h.left
  | lparen => exact ⟨fun _ => .inr (.inr rfl), fun _ => rfl⟩
  | op o => simp [canBegin, isOperand, Opens]
  | rparen => simp [canBegin, isOperand, Opens]

/-- Among the written tokens, none may end an expression but opening parentheses and bars. -/
theorem Token.Written.canEnd_eq_false_iff (h : t.Written) :
    t.canEnd = false ↔ t = .lparen ∨ t = .op .alt := by
  cases t with
  | op o =>
    cases o with
    | concat => exact absurd rfl h.right
    | _ => decide
  | lparen => decide
  | rparen => decide
  | _ => simp [canEnd, isOperand]

/-- Every token of a pattern can be written. -/
theorem Pattern.written_of_mem_tokens {p : Pattern} (h : t ∈ p.tokens) : t.Written := by
  rw [tokens, Reading.tokens, List.mem_append, List.mem_map, List.mem_map] at h
  rcases h with ⟨l, -, rfl⟩ | ⟨b, -, rfl⟩
  · cases l with
    | plain b =>
      rw [Lexeme.token, Lexeme.plainToken]
      split_ifs <;> simp [Token.Written]
    | escape b =>
      rw [Lexeme.token, Lexeme.escapeToken]
      split_ifs <;> simp [Token.Written]
    | bracket body => simp [Lexeme.token, Token.Written]
  · simp [Token.Written]

/-- No place is left empty when an expression begins wherever the stream needs one. -/
theorem unfilled_eq_zero_iff (h : ∀ t ∈ ts, t.Written) :
    unfilled ended ts = 0 ↔ (ended = false → Begins ts) ∧ BeginsBehind ts := by
  induction ts generalizing ended with
  | nil =>
    have hbehind : BeginsBehind [] := by
      intro before t after hsplit
      cases before <;> cases hsplit
    have hnone : ¬ Begins [] := by
      rintro ⟨t, rest, hsplit, -⟩
      cases hsplit
    cases ended with
    | true => exact ⟨fun _ => ⟨Bool.noConfusion, hbehind⟩, fun _ => rfl⟩
    | false => exact ⟨Nat.noConfusion, fun hb => absurd (hb.left rfl) hnone⟩
  | cons t rest ih =>
    have ht := h t List.mem_cons_self
    have hwritten : ∀ u ∈ rest, u.Written := fun u hu => h u (List.mem_cons_of_mem t hu)
    have hrest : unfilled t.canEnd rest = 0 ↔ _ := ih hwritten
    have hplace : (!ended && !t.canBegin).toNat = 0 ↔ (ended = false → t.canBegin = true) := by
      cases ended <;> cases t.canBegin <;> decide
    have hbegins : Begins (t :: rest) ↔ t.canBegin = true := by
      rw [ht.canBegin_iff]
      constructor
      · rintro ⟨u, after, hsplit, hu⟩
        rwa [(List.cons.inj hsplit).left]
      · exact fun hu => ⟨t, rest, rfl, hu⟩
    rw [unfilled, Nat.add_eq_zero_iff, hplace, hrest, ht.canEnd_eq_false_iff, hbegins,
      beginsBehind_cons]

/-- Opening parentheses and then closing ones, in any number, are the streams to which
explicit concatenation adds nothing but parentheses. -/
theorem forall_joinFrom_isParen_iff :
    (∀ u ∈ joinFrom ended ts, u.isParen = true) ↔
      ∃ j l, ts = List.replicate j .lparen ++ List.replicate l .rparen ∧
        (ended = true → j = 0) := by
  induction ts generalizing ended with
  | nil => exact ⟨fun _ => ⟨0, 0, rfl, fun _ => rfl⟩, fun _ u hu => absurd hu List.not_mem_nil⟩
  | cons t rest ih =>
    constructor
    · intro h
      have htail : ∀ u ∈ t :: joinFrom t.canEnd rest, u.isParen = true :=
        fun u hu => h u (List.mem_append_right _ hu)
      obtain ⟨j, l, hrest, hj⟩ := ih.mp fun u hu => htail u (List.mem_cons_of_mem t hu)
      have ht := htail t List.mem_cons_self
      cases t with
      | lparen =>
        refine ⟨j + 1, l, congrArg (Token.lparen :: ·) hrest, ?_⟩
        rintro rfl
        have hconcat := h (.op .concat) List.mem_cons_self
        cases hconcat
      | rparen =>
        rw [hj rfl] at hrest
        exact ⟨0, l + 1, congrArg (Token.rparen :: ·) hrest, fun _ => rfl⟩
      | _ => cases ht
    · rintro ⟨j, l, hsplit, hj⟩ u hu
      cases j with
      | succ j =>
        obtain ⟨rfl, hrest⟩ := List.cons.inj hsplit
        cases ended with
        | true => cases hj rfl
        | false =>
          rcases List.mem_cons.mp hu with rfl | hu
          · rfl
          · exact ih.mpr ⟨j, l, hrest, Bool.noConfusion⟩ u hu
      | zero =>
        cases l with
        | zero => cases hsplit
        | succ l =>
          obtain ⟨rfl, hrest⟩ := List.cons.inj hsplit
          have htail : u ∈ Token.rparen :: joinFrom true rest := by
            cases ended <;> exact hu
          rcases List.mem_cons.mp htail with rfl | hu
          · rfl
          · exact ih.mpr ⟨0, l, hrest, fun _ => rfl⟩ u hu

/-- Nothing but opening parentheses and then closing ones leaves no expression at all. -/
theorem depth_eq_zero_iff : depthFrom 0 (toPostorder (insertConcats ts)) = .ok 0 ↔
    ∃ j l, ts = List.replicate j .lparen ++ List.replicate l .rparen := by
  have hparens : (∀ u ∈ insertConcats ts, u.isParen = true) ↔
      ∃ j l, ts = List.replicate j .lparen ++ List.replicate l .rparen := by
    rw [insertConcats_eq_joinFrom, forall_joinFrom_isParen_iff]
    simp only [Bool.false_eq_true, false_imp_iff, and_true]
  rw [← hparens]
  constructor
  · intro h u hu
    have hall := ((depthFrom_balance h).right rfl).right
    cases hparen : u.isParen with
    | true => rfl
    | false =>
      have hout : u ∈ toPostorder (insertConcats ts) := by
        rw [(Yard.perm_toPostorder _).mem_iff, List.mem_filter, hparen]
        exact ⟨hu, rfl⟩
      rw [← hparen]
      exact hall u hout
  · intro h
    have hnone : toPostorder (insertConcats ts) = [] := by
      refine List.eq_nil_iff_forall_not_mem.mpr fun u hu => ?_
      have hin := (Yard.perm_toPostorder _).mem_iff.mp hu
      have hparen := h u (List.mem_of_mem_filter hin)
      rw [Yard.not_isParen_of_mem_toPostorder hu] at hparen
      cases hparen
    rw [hnone]
    rfl

namespace Pattern

/-- Without a state limit a pattern compiles exactly when an expression begins wherever its
tokens need one, it has nothing to match exactly when its tokens are opening parentheses and
then closing ones, and an operator lacks an operand in every other case. A pattern is never
reported as more than one expression. -/
theorem compile_cases (p : Pattern) :
    ((∃ n, Thompson.compile none p.postorder = .ok n) ↔ Filled p.tokens) ∧
    (Thompson.compile none p.postorder = .error (.unterminatedExpression 0) ↔
      ∃ j l, p.tokens = List.replicate j .lparen ++ List.replicate l .rparen) ∧
    ((∃ o, Thompson.compile none p.postorder = .error (.insufficientOperands o)) ↔
      ¬ Filled p.tokens ∧
        ¬ ∃ j l, p.tokens = List.replicate j .lparen ++ List.replicate l .rparen) ∧
    ∀ k, Thompson.compile none p.postorder ≠ .error (.unterminatedExpression (k + 1)) := by
  have hfilled : Filled p.tokens ↔ depthFrom 0 p.postorder = .ok 1 := by
    rw [postorder, explicitTokens, depth_eq_one_iff,
      unfilled_eq_zero_iff fun t ht => written_of_mem_tokens ht]
    exact ⟨fun h => ⟨fun _ => h.first, h.behind⟩, fun h => ⟨h.left rfl, h.right⟩⟩
  have hparens : depthFrom 0 p.postorder = .ok 0 ↔
      ∃ j l, p.tokens = List.replicate j .lparen ++ List.replicate l .rparen := depth_eq_zero_iff
  rw [← hparens, hfilled, Thompson.compile_eq_ok_iff]
  simp only [ne_eq, Thompson.compile_eq_error_iff]
  cases hdepth : depthFrom 0 p.postorder with
  | error e =>
    obtain ⟨o, rfl⟩ := depthFrom_error hdepth
    simp
  | ok k =>
    have hk : k + unfilled false p.tokens = 1 := depth_add_unfilled hdepth
    have hbound : k = 0 ∨ k = 1 := by omega
    rcases hbound with rfl | rfl
    · simp
    · simp

end Pattern

end ByteRegex
