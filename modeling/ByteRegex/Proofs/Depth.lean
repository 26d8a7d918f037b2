import ByteRegex.Thompson

/-!
# How many expressions are complete

Without a state limit, whether a construction fails, and with which error, does not depend
on the automaton. It is settled by the number of complete expressions, which every operand
raises by one, every repetition leaves alone and every binary operator lowers by one.
-/

namespace ByteRegex

/-- Whether the token is an operator on two expressions. -/
def Token.isBinary (t : Token) : Bool := t.isOperator && !t.isUnary

/-- Whether the token is a parenthesis. -/
def Token.isParen (t : Token) : Bool := t == lparen || t == rparen

/-- An operator is binary unless it is a repetition. -/
theorem Token.isBinary_op (o : Operator) : (op o).isBinary = !o.isUnary := by
  cases o <;> rfl

/-- A binary operator is an operator. -/
theorem Token.isOperator_of_isBinary {t : Token} (h : t.isBinary = true) : t.isOperator = true :=
  (Bool.and_eq_true_iff.mp h).left

/-- Among the operators only a repetition may end an expression. -/
theorem Token.canEnd_op (o : Operator) : (op o).canEnd = o.isUnary := by
  cases o <;> rfl

/-- The number of complete expressions behind a token, from their number before it. -/
def Token.depth (d : Nat) : Token → Except CompileError Nat
  | .literal _ | .charClass _ | .dot => .ok (d + 1)
  | .op o => if d < o.arity then .error (.insufficientOperands o) else .ok (d + 1 - o.arity)
  | .lparen | .rparen => .ok d

/-- The number of complete expressions behind a stream, from their number before it. -/
def depthFrom : Nat → List Token → Except CompileError Nat
  | d, [] => .ok d
  | d, t :: rest =>
    match t.depth d with
    | .error e => .error e
    | .ok d => depthFrom d rest

variable {d k : Nat} {t : Token} {ts us : List Token} {e : CompileError}

/-- What a token that succeeds leaves is where the rest of the stream begins. -/
theorem depthFrom_cons (h : t.depth d = .ok k) : depthFrom d (t :: ts) = depthFrom k ts := by
  rw [depthFrom, h]

/-- A stream is counted in two parts. -/
theorem depthFrom_append_eq (d : Nat) (ts us : List Token) :
    depthFrom d (ts ++ us) = (depthFrom d ts).bind (depthFrom · us) := by
  induction ts generalizing d with
  | nil => rfl
  | cons t rest ih =>
    rw [List.cons_append, depthFrom, depthFrom]
    cases t.depth d with
    | error e => rfl
    | ok m => exact ih m

/-- What the first part of a stream leaves is where the second part begins. -/
theorem depthFrom_append (h : depthFrom d ts = .ok k) :
    depthFrom d (ts ++ us) = depthFrom k us := by
  rw [depthFrom_append_eq, h]
  rfl

/-- A stream that succeeds does so in its first part and then in its second one. -/
theorem exists_of_depthFrom_append (h : depthFrom d (ts ++ us) = .ok k) :
    ∃ m, depthFrom d ts = .ok m ∧ depthFrom m us = .ok k := by
  rw [depthFrom_append_eq] at h
  cases hts : depthFrom d ts with
  | error e =>
    rw [hts] at h
    cases h
  | ok m =>
    rw [hts] at h
    exact ⟨m, rfl, h⟩

/-- An operator that finds its operands puts one expression in their place. -/
theorem Token.depth_op_eq_ok {o : Operator} (h : (op o).depth d = .ok k) :
    o.arity ≤ d ∧ k = d + 1 - o.arity := by
  rw [depth] at h
  by_cases hd : d < o.arity
  · rw [if_pos hd] at h
    cases h
  · rw [if_neg hd] at h
    exact ⟨Nat.not_lt.mp hd, (Except.ok.inj h).symm⟩

/-- An operator that does not find its operands is the one that is reported. -/
theorem Token.depth_op_eq_error {o : Operator} (h : (op o).depth d = .error e) :
    d < o.arity ∧ e = .insufficientOperands o := by
  rw [depth] at h
  by_cases hd : d < o.arity
  · rw [if_pos hd] at h
    exact ⟨hd, (Except.error.inj h).symm⟩
  · rw [if_neg hd] at h
    cases h

/-- An operand is one more complete expression. -/
theorem Token.depth_operand (ht : t.isOperand = true) : t.depth d = .ok (d + 1) := by
  cases t with
  | literal b => rfl
  | charClass c => rfl
  | dot => rfl
  | _ => cases ht

/-- A repetition makes one complete expression of one. -/
theorem Token.depth_unary (ht : t.isUnary = true) : t.depth (d + 1) = .ok (d + 1) := by
  cases t with
  | op o =>
    cases o with
    | star => rfl
    | plus => rfl
    | question => rfl
    | _ => cases ht
  | _ => cases ht

/-- A binary operator makes one complete expression of two. -/
theorem Token.depth_binary (ht : t.isBinary = true) : t.depth (d + 2) = .ok (d + 1) := by
  cases t with
  | op o =>
    cases o with
    | concat => rfl
    | alt => rfl
    | _ => cases ht
  | _ => cases ht

/-- Binary operators in a row make one complete expression of one more than they are. -/
theorem depthFrom_binaries (h : ∀ t ∈ ts, t.isBinary = true) :
    depthFrom (ts.length + d + 1) ts = .ok (d + 1) := by
  induction ts with
  | nil => rw [List.length_nil, Nat.zero_add, depthFrom]
  | cons t rest ih =>
    have ht := h t List.mem_cons_self
    have hlength : (t :: rest).length + d + 1 = rest.length + d + 2 := by
      rw [List.length_cons]
      omega
    rw [hlength, depthFrom_cons (Token.depth_binary ht)]
    exact ih fun u hu => h u (List.mem_cons_of_mem t hu)

/-- Only a missing operand stops the count. -/
theorem depthFrom_error (h : depthFrom d ts = .error e) : ∃ o, e = .insufficientOperands o := by
  induction ts generalizing d with
  | nil => cases h
  | cons t rest ih =>
    cases ht : t.depth d with
    | ok m =>
      rw [depthFrom_cons ht] at h
      exact ih h
    | error f =>
      rw [depthFrom, ht] at h
      obtain rfl := Except.error.inj h
      cases t with
      | op o => exact ⟨o, (Token.depth_op_eq_error ht).right⟩
      | _ => cases ht

/-- A token raises the number by the operand that it is and lowers it by the binary operator
that it is, and never lowers it to nothing. -/
theorem Token.depth_balance (h : t.depth d = .ok k) :
    d + t.isOperand.toNat = k + t.isBinary.toNat ∧ (0 < d ∨ t.isParen = false → 0 < k) := by
  cases t with
  | op o =>
    obtain ⟨hd, hk⟩ := depth_op_eq_ok h
    have hoperand : (op o).isOperand = false := rfl
    rw [hoperand, isBinary_op, Bool.toNat_false]
    cases hunary : o.isUnary with
    | true =>
      rw [Operator.arity, hunary, if_pos rfl] at hk hd
      rw [Bool.not_true, Bool.toNat_false]
      omega
    | false =>
      rw [Operator.arity, hunary, if_neg Bool.false_ne_true] at hk hd
      rw [Bool.not_false, Bool.toNat_true]
      omega
  | lparen =>
    obtain rfl := Except.ok.inj h
    exact ⟨rfl, fun hd => hd.resolve_right Bool.noConfusion⟩
  | rparen =>
    obtain rfl := Except.ok.inj h
    exact ⟨rfl, fun hd => hd.resolve_right Bool.noConfusion⟩
  | literal b =>
    obtain rfl := Except.ok.inj h
    exact ⟨rfl, fun _ => Nat.succ_pos d⟩
  | charClass c =>
    obtain rfl := Except.ok.inj h
    exact ⟨rfl, fun _ => Nat.succ_pos d⟩
  | dot =>
    obtain rfl := Except.ok.inj h
    exact ⟨rfl, fun _ => Nat.succ_pos d⟩

/-- A stream raises the number by its operands and lowers it by its binary operators, and
leaves nothing only when it has nothing but parentheses to begin with. -/
theorem depthFrom_balance (h : depthFrom d ts = .ok k) :
    d + ts.countP Token.isOperand = k + ts.countP Token.isBinary ∧
      (k = 0 → d = 0 ∧ ∀ t ∈ ts, t.isParen = true) := by
  induction ts generalizing d with
  | nil =>
    obtain rfl := Except.ok.inj h
    exact ⟨rfl, fun hd => ⟨hd, fun t ht => absurd ht List.not_mem_nil⟩⟩
  | cons t rest ih =>
    cases ht : t.depth d with
    | error e =>
      rw [depthFrom, ht] at h
      cases h
    | ok m =>
      rw [depthFrom_cons ht] at h
      obtain ⟨hsum, hzero⟩ := ih h
      obtain ⟨hstep, hpos⟩ := Token.depth_balance ht
      constructor
      · rw [List.countP_cons, List.countP_cons]
        cases hoperand : t.isOperand <;> cases hbinary : t.isBinary
        all_goals
          simp only [hoperand, hbinary, Bool.toNat_true, Bool.toNat_false, Bool.false_eq_true,
            if_true, if_false] at hstep ⊢
          omega
      · intro hk
        obtain ⟨hm, hrest⟩ := hzero hk
        have hd : ¬ 0 < d := fun hd => by
          have := hpos (.inl hd)
          omega
        cases hparen : t.isParen with
        | false =>
          have := hpos (.inr hparen)
          omega
        | true =>
          refine ⟨by omega, fun u hu => ?_⟩
          rcases List.mem_cons.mp hu with rfl | hu
          · exact hparen
          · exact hrest u hu

namespace Thompson

variable {a : Assembly}

/-- Without a limit a token does to the stack what it does to the number. -/
theorem Assembly.push_depth (a : Assembly) (t : Token) :
    (a.push none t).map (fun b => b.stack.length) = t.depth a.stack.length := by
  obtain ⟨states, fs⟩ := a
  cases t with
  | op o =>
    rcases fs with - | ⟨x, - | ⟨y, rest⟩⟩
    all_goals
      cases o
      all_goals rfl
  | _ => rfl

/-- Without a limit a stream does to the stack what it does to the number. -/
theorem Assembly.pushAll_depth (a : Assembly) (ts : List Token) :
    (a.pushAll none ts).map (fun b => b.stack.length) = depthFrom a.stack.length ts := by
  induction ts generalizing a with
  | nil => rfl
  | cons t rest ih =>
    rw [Assembly.pushAll, depthFrom, ← Assembly.push_depth a t]
    cases a.push none t with
    | error e => rfl
    | ok b => exact ih b

/-- What a number of complete expressions at the end of a stream means: one is the result, and
any other number is an error that reports it. -/
def outcome (d : Nat) : Except CompileError Unit :=
  if d = 1 then .ok () else .error (.unterminatedExpression d)

/-- Without a limit the number of complete expressions decides over success and error. -/
theorem compile_none (ts : List Token) :
    (compile none ts).map (fun _ => ()) = (depthFrom 0 ts).bind outcome := by
  have hdepth : _ = depthFrom 0 ts := Assembly.pushAll_depth .empty ts
  rw [← hdepth, compile]
  cases Assembly.empty.pushAll none ts with
  | error e => rfl
  | ok a =>
    obtain ⟨states, fs⟩ := a
    rcases fs with - | ⟨f, - | ⟨g, rest⟩⟩
    all_goals rfl

/-- Without a limit a construction succeeds when one expression is complete. -/
theorem compile_eq_ok_iff : (∃ n, compile none ts = .ok n) ↔ depthFrom 0 ts = .ok 1 := by
  have hmap : (∃ n, compile none ts = .ok n) ↔
      (compile none ts).map (fun _ => ()) = .ok () := by
    cases compile none ts with
    | error e => simp [Except.map]
    | ok n => simp [Except.map]
  rw [hmap, compile_none]
  cases depthFrom 0 ts with
  | error e => simp [Except.bind]
  | ok d =>
    by_cases hd : d = 1
    · simp [Except.bind, outcome, hd]
    · simp [Except.bind, outcome, hd]

/-- Without a limit a construction fails for a missing operand or for a wrong number of
complete expressions. -/
theorem compile_eq_error_iff : compile none ts = .error e ↔ depthFrom 0 ts = .error e ∨
    ∃ d, d ≠ 1 ∧ depthFrom 0 ts = .ok d ∧ e = .unterminatedExpression d := by
  have hmap : compile none ts = .error e ↔
      (compile none ts).map (fun _ => ()) = .error e := by
    cases compile none ts with
    | error f => simp [Except.map]
    | ok n => simp [Except.map]
  rw [hmap, compile_none]
  cases depthFrom 0 ts with
  | error f => simp [Except.bind]
  | ok d =>
    have hwrong : (∃ k, k ≠ 1 ∧ (Except.ok d : Except CompileError Nat) = .ok k ∧
        e = .unterminatedExpression k) ↔ d ≠ 1 ∧ e = .unterminatedExpression d := by
      constructor
      · rintro ⟨k, hk, hd, he⟩
        obtain rfl := Except.ok.inj hd
        exact ⟨hk, he⟩
      · rintro ⟨hd, he⟩
        exact ⟨d, hd, rfl, he⟩
    rw [hwrong]
    by_cases hd : d = 1
    · simp [Except.bind, outcome, hd]
    · simp [Except.bind, outcome, hd, eq_comm]

end Thompson

end ByteRegex
