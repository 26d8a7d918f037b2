import ByteRegex.Proofs.Writing

/-!
# Counting decides what a stream is

The operands less the binary operators in front of a token are the expressions that are complete
there, so a count tells whether an operator finds its operands. Where every operator does, the
stream is a row of expressions side by side, parentheses aside, and the count at its end is their
number. So the count alone tells whether a stream compiles without a state limit, and with which
error it fails otherwise.
-/

namespace ByteRegex

variable {d k i j : Nat} {t : Token} {ts us : List Token} {e : CompileError} {o p : Operator}

/-- The operands less the binary operators among the first tokens of a stream. -/
def surplus (ts : List Token) (i : Nat) : Int :=
  (ts.take i).countP Token.isOperand - (ts.take i).countP Token.isBinary

/-- The operator stands at the position, and what is in front of it leaves it too few operands. -/
def Lacks (ts : List Token) (i : Nat) (o : Operator) : Prop :=
  ts[i]? = some (.op o) ∧ surplus ts i < o.arity

/-- The operator lacks operands at the position, and no operator in front of it does. -/
def LacksFirst (ts : List Token) (i : Nat) (o : Operator) : Prop :=
  Lacks ts i o ∧ ∀ j < i, ∀ p, ¬ Lacks ts j p

/-- Every operator of the stream finds its operands. -/
def Supplied (ts : List Token) : Prop := ∀ i o, ¬ Lacks ts i o

/-- Parentheses aside, the stream is this number of expressions side by side, each with its
operators behind their operands. -/
def Lists (ts : List Token) (k : Nat) : Prop :=
  ∃ es : List Expression, es.length = k ∧
    es.flatMap Expression.postorder = ts.filter fun t => !t.isParen

/-- The surplus of the first tokens is a matter of these tokens alone. -/
theorem surplus_take (ts : List Token) (i : Nat) : surplus (ts.take i) i = surplus ts i := by
  rw [surplus, List.take_take, Nat.min_self, surplus]

/-- What follows the first tokens does not change their surplus. -/
theorem surplus_append (h : i ≤ ts.length) : surplus (ts ++ us) i = surplus ts i := by
  rw [surplus, List.take_append_of_le_length h, surplus]

/-- Behind a stream that leaves a number of expressions, that number is the surplus. -/
theorem surplus_of_depthFrom (h : depthFrom 0 ts = .ok k) : surplus ts ts.length = k := by
  have hbalance := (depthFrom_balance h).left
  rw [surplus, List.take_length]
  omega

/-- A stream that runs out of operands does so at one of its tokens, and the tokens in front of
it leave some number of expressions. -/
theorem depthFrom_eq_error (h : depthFrom d ts = .error e) : ∃ before t after m,
    ts = before ++ t :: after ∧ depthFrom d before = .ok m ∧ t.depth m = .error e := by
  induction ts generalizing d with
  | nil => cases h
  | cons t rest ih =>
    cases ht : t.depth d with
    | error f =>
      rw [depthFrom, ht] at h
      obtain rfl := Except.error.inj h
      exact ⟨[], t, rest, d, rfl, rfl, ht⟩
    | ok m =>
      rw [depthFrom_cons ht] at h
      obtain ⟨before, u, after, n, rfl, hbefore, hu⟩ := ih h
      refine ⟨t :: before, u, after, n, rfl, ?_, hu⟩
      rw [depthFrom_cons ht]
      exact hbefore

/-- In a stream that leaves a number of expressions, no operator lacks operands. -/
theorem supplied_of_depthFrom (h : depthFrom 0 ts = .ok k) : Supplied ts := by
  rintro i o ⟨hat, hless⟩
  obtain ⟨hlt, hget⟩ := List.getElem?_eq_some_iff.mp hat
  rw [← List.take_append_drop i ts] at h
  obtain ⟨m, hbefore, hbehind⟩ := exists_of_depthFrom_append h
  rw [List.drop_eq_getElem_cons hlt, hget] at hbehind
  have hsurplus := surplus_of_depthFrom hbefore
  rw [List.length_take_of_le (Nat.le_of_lt hlt), surplus_take] at hsurplus
  cases hop : (Token.op o).depth m with
  | error e =>
    rw [depthFrom, hop] at hbehind
    cases hbehind
  | ok n =>
    obtain ⟨harity, -⟩ := Token.depth_op_eq_ok hop
    omega

/-- A stream that runs out of operands does so at the first operator that lacks them. -/
theorem exists_lacksFirst (h : depthFrom 0 ts = .error e) :
    ∃ i o, LacksFirst ts i o ∧ e = .insufficientOperands o := by
  obtain ⟨before, t, after, m, rfl, hbefore, ht⟩ := depthFrom_eq_error h
  have hsupplied := supplied_of_depthFrom hbefore
  have hsurplus := surplus_of_depthFrom hbefore
  cases t with
  | op o =>
    obtain ⟨hless, rfl⟩ := Token.depth_op_eq_error ht
    refine ⟨before.length, o, ⟨⟨?_, ?_⟩, fun j hj p hlacks => hsupplied j p ⟨?_, ?_⟩⟩, rfl⟩
    · rw [List.getElem?_append_right (Nat.le_refl _), Nat.sub_self]
      rfl
    · rw [surplus_append (Nat.le_refl _), hsurplus]
      exact Int.ofNat_lt.mpr hless
    · rw [← hlacks.left, List.getElem?_append_left hj]
    · have hsame : surplus (before ++ .op o :: after) j = surplus before j :=
        surplus_append (Nat.le_of_lt hj)
      rw [← hsame]
      exact hlacks.right
  | _ => cases ht

/-- There is one operator that is the first to lack operands. -/
theorem LacksFirst.unique (hi : LacksFirst ts i o) (hj : LacksFirst ts j p) : o = p := by
  have hge : ¬ j < i := fun hlt => hi.right j hlt p hj.left
  have hle : ¬ i < j := fun hlt => hj.right i hlt o hi.left
  obtain rfl : i = j := by omega
  have hsame := hi.left.left.symm.trans hj.left.left
  exact Token.op.inj (Option.some.inj hsame)

/-- Parentheses do not change the number of expressions. -/
theorem depthFrom_filter (d : Nat) (ts : List Token) :
    depthFrom d (ts.filter fun t => !t.isParen) = depthFrom d ts := by
  induction ts generalizing d with
  | nil => rfl
  | cons t rest ih =>
    cases hparen : t.isParen with
    | true =>
      have ht : t.depth d = .ok d := by
        cases t with
        | lparen => rfl
        | rparen => rfl
        | _ => cases hparen
      rw [List.filter_cons_of_neg (by rw [hparen]; decide), depthFrom_cons ht]
      exact ih d
    | false =>
      rw [List.filter_cons_of_pos (by rw [hparen]; rfl), depthFrom, depthFrom]
      cases t.depth d with
      | error e => rfl
      | ok m => exact ih m

/-- An expression is one expression. -/
theorem Expression.depthFrom_postorder (a : Expression) (d : Nat) :
    depthFrom d a.postorder = .ok (d + 1) := by
  obtain ⟨ts, hts⟩ := exists_writes .whole a
  obtain ⟨q, -, hq⟩ := hts.exists_phrase
  rw [← hq]
  exact q.depthFrom_postorder Operand.isOperand d

/-- Expressions side by side are as many as they are. -/
theorem depthFrom_flatMap_postorder (es : List Expression) (d : Nat) :
    depthFrom d (es.flatMap Expression.postorder) = .ok (d + es.length) := by
  induction es generalizing d with
  | nil => rfl
  | cons a rest ih =>
    rw [List.flatMap_cons, depthFrom_append (a.depthFrom_postorder d), ih, List.length_cons,
      Nat.add_right_comm, Nat.add_assoc]

/-- A repetition of an expression is an expression. -/
theorem Operator.exists_repeated (h : o.isUnary = true) (a : Expression) :
    ∃ b : Expression, b.postorder = a.postorder ++ [.op o] := by
  cases o with
  | star => exact ⟨a.repeated .star, rfl⟩
  | plus => exact ⟨a.repeated .plus, rfl⟩
  | question => exact ⟨a.repeated .question, rfl⟩
  | concat => cases h
  | alt => cases h

/-- Two expressions with a binary operator are an expression. -/
theorem Operator.exists_joined (h : o.isUnary = false) (a b : Expression) :
    ∃ c : Expression, c.postorder = a.postorder ++ b.postorder ++ [.op o] := by
  cases o with
  | concat => exact ⟨a.concat b, rfl⟩
  | alt => exact ⟨a.alt b, rfl⟩
  | _ => cases h

/-- Behind a row of expressions, an operator that finds its operands makes one expression of the
last one or two. -/
theorem exists_row_of_operator {es : List Expression} (h : o.arity ≤ es.length) :
    ∃ fs : List Expression, fs.length = es.length + 1 - o.arity ∧
      fs.flatMap Expression.postorder = es.flatMap Expression.postorder ++ [.op o] := by
  rcases List.eq_nil_or_concat' es with rfl | ⟨front, a, rfl⟩
  · cases o <;> cases h
  rw [List.length_append, List.length_singleton] at h ⊢
  cases hunary : o.isUnary with
  | true =>
    obtain ⟨b, hb⟩ := Operator.exists_repeated hunary a
    refine ⟨front ++ [b], ?_, ?_⟩
    · rw [Operator.arity, hunary, if_pos rfl, List.length_append, List.length_singleton,
        Nat.add_sub_cancel]
    · simp only [List.flatMap_append, List.flatMap_singleton, hb, List.append_assoc]
  | false =>
    rw [Operator.arity, hunary, if_neg Bool.false_ne_true] at h ⊢
    rcases List.eq_nil_or_concat' front with rfl | ⟨first, b, rfl⟩
    · rw [List.length_nil] at h
      omega
    obtain ⟨c, hc⟩ := Operator.exists_joined hunary b a
    refine ⟨first ++ [c], ?_, ?_⟩
    · simp only [List.length_append, List.length_singleton]
      omega
    · simp only [List.flatMap_append, List.flatMap_singleton, hc, List.append_assoc]

/-- Behind a row of expressions, a token that finds its operands leaves a row of expressions. -/
theorem exists_row_of_depth {es : List Expression} (h : t.depth es.length = .ok k) :
    ∃ fs : List Expression, fs.length = k ∧ fs.flatMap Expression.postorder =
      es.flatMap Expression.postorder ++ [t].filter fun t => !t.isParen := by
  have hoperand : ∀ ht : t.isOperand = true, ∃ fs : List Expression,
      fs.length = es.length + 1 ∧
        fs.flatMap Expression.postorder = es.flatMap Expression.postorder ++ [t] := by
    intro ht
    refine ⟨es ++ [.operand t ht], List.length_append, ?_⟩
    rw [List.flatMap_append, List.flatMap_singleton, Expression.postorder]
  cases t with
  | op o =>
    obtain ⟨harity, rfl⟩ := Token.depth_op_eq_ok h
    exact exists_row_of_operator harity
  | lparen => exact ⟨es, Except.ok.inj h, (List.append_nil _).symm⟩
  | rparen => exact ⟨es, Except.ok.inj h, (List.append_nil _).symm⟩
  | _ =>
    obtain rfl := Except.ok.inj h
    exact hoperand rfl

/-- Behind a row of expressions, a stream that leaves a number of expressions leaves a row of
that many. -/
theorem exists_row_of_depthFrom {es : List Expression} (h : depthFrom es.length ts = .ok k) :
    ∃ fs : List Expression, fs.length = k ∧ fs.flatMap Expression.postorder =
      es.flatMap Expression.postorder ++ ts.filter fun t => !t.isParen := by
  induction ts generalizing es with
  | nil => exact ⟨es, Except.ok.inj h, (List.append_nil _).symm⟩
  | cons t rest ih =>
    cases ht : t.depth es.length with
    | error e =>
      rw [depthFrom, ht] at h
      cases h
    | ok m =>
      obtain ⟨fs, rfl, hfs⟩ := exists_row_of_depth ht
      rw [depthFrom_cons ht] at h
      obtain ⟨gs, hlength, hgs⟩ := ih h
      have hcons : (t :: rest).filter (fun t => !t.isParen) =
          [t].filter (fun t => !t.isParen) ++ rest.filter (fun t => !t.isParen) :=
        List.filter_append [t] rest
      refine ⟨gs, hlength, ?_⟩
      rw [hgs, hfs, hcons, List.append_assoc]

/-- The number of expressions that a stream leaves is the number that it lists side by side. -/
theorem depthFrom_eq_ok_iff_lists : depthFrom 0 ts = .ok k ↔ Lists ts k := by
  constructor
  · intro h
    have hnone : ([] : List Expression).length = 0 := rfl
    rw [← hnone] at h
    exact exists_row_of_depthFrom h
  · rintro ⟨es, rfl, hes⟩
    rw [← depthFrom_filter, ← hes, depthFrom_flatMap_postorder, Nat.zero_add]

/-- A stream whose operators find their operands leaves some number of expressions. -/
theorem exists_depth_of_supplied (h : Supplied ts) : ∃ k, depthFrom 0 ts = .ok k := by
  cases hdepth : depthFrom 0 ts with
  | ok k => exact ⟨k, rfl⟩
  | error e =>
    obtain ⟨i, o, ⟨hlacks, -⟩, -⟩ := exists_lacksFirst hdepth
    exact absurd hlacks (h i o)

/-- A stream lists expressions exactly if its operators find their operands, and as many as its
surplus. -/
theorem lists_iff : Lists ts k ↔ Supplied ts ∧ surplus ts ts.length = k := by
  rw [← depthFrom_eq_ok_iff_lists]
  constructor
  · exact fun h => ⟨supplied_of_depthFrom h, surplus_of_depthFrom h⟩
  · rintro ⟨hsupplied, hsurplus⟩
    obtain ⟨m, hm⟩ := exists_depth_of_supplied hsupplied
    have hsame := (surplus_of_depthFrom hm).symm.trans hsurplus
    rw [hm, Int.ofNat_inj.mp hsame]

/-- Every operator of a stream finds its operands exactly if the stream lists expressions. -/
theorem supplied_iff : Supplied ts ↔ ∃ k, Lists ts k := by
  simp only [← depthFrom_eq_ok_iff_lists]
  exact ⟨exists_depth_of_supplied, fun ⟨_, h⟩ => supplied_of_depthFrom h⟩

/-- The count stops at an operator exactly if that is the first one that lacks operands. -/
theorem depthFrom_eq_error_iff :
    depthFrom 0 ts = .error (.insufficientOperands o) ↔ ∃ i, LacksFirst ts i o := by
  constructor
  · intro h
    obtain ⟨i, p, hlacks, heq⟩ := exists_lacksFirst h
    obtain rfl := CompileError.insufficientOperands.inj heq
    exact ⟨i, hlacks⟩
  · rintro ⟨i, hlacks⟩
    cases h : depthFrom 0 ts with
    | ok k => exact absurd hlacks.left (supplied_of_depthFrom h i o)
    | error e =>
      obtain ⟨j, p, hfirst, rfl⟩ := exists_lacksFirst h
      rw [hlacks.unique hfirst]

/-- Where some operator lacks operands, one is the first that does. -/
theorem exists_lacksFirst_iff : (∃ o i, LacksFirst ts i o) ↔ ∃ i o, Lacks ts i o := by
  constructor
  · rintro ⟨o, i, hlacks, -⟩
    exact ⟨i, o, hlacks⟩
  · rintro ⟨i, o, hlacks⟩
    cases h : depthFrom 0 ts with
    | ok k => exact absurd hlacks (supplied_of_depthFrom h i o)
    | error e =>
      obtain ⟨j, p, hfirst, -⟩ := exists_lacksFirst h
      exact ⟨p, j, hfirst⟩

namespace Thompson

/-- An operator is reported exactly if it is the first one that lacks operands. -/
theorem compile_eq_insufficientOperands_iff :
    compile none ts = .error (.insufficientOperands o) ↔ ∃ i, LacksFirst ts i o := by
  rw [compile_eq_error_iff, ← depthFrom_eq_error_iff]
  refine or_iff_left ?_
  rintro ⟨d, -, -, heq⟩
  cases heq

/-- A number of expressions is reported exactly if the stream lists as many, and not just one. -/
theorem compile_eq_unterminatedExpression_iff :
    compile none ts = .error (.unterminatedExpression k) ↔ Lists ts k ∧ k ≠ 1 := by
  rw [compile_eq_error_iff, ← depthFrom_eq_ok_iff_lists]
  constructor
  · rintro (h | ⟨d, hd, h, heq⟩)
    · obtain ⟨o, heq⟩ := depthFrom_error h
      cases heq
    · obtain rfl := CompileError.unterminatedExpression.inj heq
      exact ⟨h, hd⟩
  · rintro ⟨h, hk⟩
    exact .inr ⟨k, hk, h, rfl⟩

/-- Without a state limit, counting decides what becomes of a stream. If an operator lacks
operands, the first one that does is reported. Otherwise the surplus of the stream is reported,
unless it is one, and then the stream compiles. Whenever no operator lacks operands, the stream
lists expressions side by side, and the surplus is their number. -/
theorem compile_by_counting (ts : List Token) :
    (∀ o, compile none ts = .error (.insufficientOperands o) ↔ ∃ i, LacksFirst ts i o) ∧
    ((∃ o, compile none ts = .error (.insufficientOperands o)) ↔ ∃ i o, Lacks ts i o) ∧
    (∀ k, compile none ts = .error (.unterminatedExpression k) ↔
      Supplied ts ∧ surplus ts ts.length = k ∧ k ≠ 1) ∧
    ((∃ n, compile none ts = .ok n) ↔ Supplied ts ∧ surplus ts ts.length = 1) ∧
    (Supplied ts ↔ ∃ k, Lists ts k) ∧
    ∀ k, Lists ts k ↔ Supplied ts ∧ surplus ts ts.length = k := by
  refine ⟨fun _ => compile_eq_insufficientOperands_iff, ?_, fun k => ?_, ?_, supplied_iff,
    fun k => lists_iff⟩
  · simp only [compile_eq_insufficientOperands_iff, exists_lacksFirst_iff]
  · rw [compile_eq_unterminatedExpression_iff, lists_iff, and_assoc]
  · rw [compile_eq_ok_iff, depthFrom_eq_ok_iff_lists, lists_iff]
    rfl

end Thompson

end ByteRegex
