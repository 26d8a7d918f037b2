import ByteRegex.Proofs.Grammar
import ByteRegex.Proofs.Joining

/-!
# A derivation and the stream that is made of it

The tokens of a phrase are written down along its derivation, and so are the same tokens
with concatenation made explicit and with the operators behind their operands. The two
steps of the parser lead from the first stream to the second and from the second to the
third, for every phrase and with every kind of operand.

In the yard, a phrase that is read above a weaker operator or a parenthesis leaves the stack
below it alone. What waits when the phrase is complete are operators that bind at least as
tight as the tier of the phrase.
-/

namespace ByteRegex

/-- The binding strength of the weakest operator outside of parentheses that a phrase of the
tier may have. -/
def Tier.strength : Tier → Nat
  | alternation => 1
  | sequence => 2
  | repetition => 3
  | atom => 3

namespace Phrase

variable {α : Type}

/-- The tokens of the phrase, from those of its operands. -/
def tokens (token : α → Token) : {l : Tier} → Phrase α l → List Token
  | _, operand a => [token a]
  | _, group p => .lparen :: p.tokens token ++ [.rparen]
  | _, once p => p.tokens token
  | _, repeated p r => p.tokens token ++ [.op r.operator]
  | _, single p => p.tokens token
  | _, followed p q => p.tokens token ++ q.tokens token
  | _, only p => p.tokens token
  | _, either p q => p.tokens token ++ .op .alt :: q.tokens token

/-- The tokens with concatenation made explicit. -/
def explicitTokens (token : α → Token) : {l : Tier} → Phrase α l → List Token
  | _, operand a => [token a]
  | _, group p => .lparen :: p.explicitTokens token ++ [.rparen]
  | _, once p => p.explicitTokens token
  | _, repeated p r => p.explicitTokens token ++ [.op r.operator]
  | _, single p => p.explicitTokens token
  | _, followed p q => p.explicitTokens token ++ .op .concat :: q.explicitTokens token
  | _, only p => p.explicitTokens token
  | _, either p q => p.explicitTokens token ++ .op .alt :: q.explicitTokens token

/-- The tokens with every operator behind its operands. -/
def postorder (token : α → Token) : {l : Tier} → Phrase α l → List Token
  | _, operand a => [token a]
  | _, group p => p.postorder token
  | _, once p => p.postorder token
  | _, repeated p r => p.postorder token ++ [.op r.operator]
  | _, single p => p.postorder token
  | _, followed p q => p.postorder token ++ q.postorder token ++ [.op .concat]
  | _, only p => p.postorder token
  | _, either p q => p.postorder token ++ q.postorder token ++ [.op .alt]

section Juxtaposition

variable {token : α → Token} (htoken : ∀ a, (token a).isOperand = true) {l : Tier}

include htoken

/-- A phrase is joined to an expression in front of it, and an expression behind it is joined
to the phrase. -/
theorem joinFrom_tokens (p : Phrase α l) (ended : Bool) (rest : List Token) :
    joinFrom ended (p.tokens token ++ rest) =
      (if ended then [.op .concat] else []) ++ p.explicitTokens token ++ joinFrom true rest := by
  induction p generalizing ended rest with
  | operand a =>
    have hbegin : (token a).canBegin = true := by
      rw [Token.canBegin, htoken a, Bool.true_or]
    have hend : (token a).canEnd = true := by
      rw [Token.canEnd, htoken a, Bool.true_or, Bool.true_or]
    rw [tokens, explicitTokens, List.singleton_append, joinFrom, hbegin, hend, Bool.and_true,
      List.append_assoc, List.singleton_append]
  | group p ih =>
    have hopen : ∀ us, joinFrom ended (Token.lparen :: us) =
        (if ended then [.op .concat] else []) ++ Token.lparen :: joinFrom false us := by
      intro us
      cases ended <;> rfl
    have hclose : joinFrom true (Token.rparen :: rest) = Token.rparen :: joinFrom true rest := rfl
    rw [tokens, explicitTokens, List.cons_append, List.cons_append, List.append_assoc, hopen, ih,
      List.singleton_append, hclose]
    simp only [List.append_assoc, List.cons_append, List.nil_append, Bool.false_eq_true, if_false]
  | once p ih => exact ih ended rest
  | repeated p r ih =>
    have hr : joinFrom true (Token.op r.operator :: rest) =
        Token.op r.operator :: joinFrom true rest := by
      cases r <;> rfl
    rw [tokens, explicitTokens, List.append_assoc, ih, List.singleton_append, hr]
    simp only [List.append_assoc, List.singleton_append]
  | single p ih => exact ih ended rest
  | followed p q ihp ihq =>
    rw [tokens, explicitTokens, List.append_assoc, ihp, ihq, if_pos rfl]
    simp only [List.append_assoc, List.cons_append, List.nil_append]
  | only p ih => exact ih ended rest
  | either p q ihp ihq =>
    have halt : joinFrom true (Token.op .alt :: (q.tokens token ++ rest)) =
        Token.op .alt :: joinFrom false (q.tokens token ++ rest) := rfl
    rw [tokens, explicitTokens, List.append_assoc, ihp, List.cons_append, halt, ihq]
    simp only [List.append_assoc, List.cons_append, List.nil_append, Bool.false_eq_true, if_false]

/-- Explicit concatenation stands between the parts of the sequences of a phrase, and nowhere
else. -/
theorem insertConcats_tokens (p : Phrase α l) :
    insertConcats (p.tokens token) = p.explicitTokens token := by
  have h := joinFrom_tokens htoken p false []
  rw [List.append_nil] at h
  rw [insertConcats_eq_joinFrom, h]
  simp only [joinFrom, Bool.false_eq_true, if_false, List.nil_append, List.append_nil]

end Juxtaposition

end Phrase

namespace Yard

variable {y : Yard} {k m : Nat} {ts us post rest : List Token} {stack : List Token}

/-- The topmost token, if it is an operator, binds weaker than the given strength. -/
def Under (k : Nat) (stack : List Token) : Prop :=
  ∀ t below, stack = t :: below → t.isOperator = true → t.precedence < k

/-- Reading the first stream passes the second one on, up to some binary operators of at least
the given strength, which wait above the stack as it was. -/
def Emits (y : Yard) (k : Nat) (ts post : List Token) : Prop :=
  ∃ out waiting, post = out ++ waiting ∧
    (∀ t ∈ waiting, t.isBinary = true ∧ k ≤ t.precedence) ∧
    ts.foldl feed y = ⟨out.reverse ++ y.released, waiting ++ y.stack, y.unmatched⟩

/-- Operators of some strength are also of any smaller one. -/
theorem Emits.mono (h : y.Emits k ts post) (hm : m ≤ k) : y.Emits m ts post := by
  obtain ⟨out, waiting, hpost, hwaiting, hfold⟩ := h
  refine ⟨out, waiting, hpost, fun t ht => ?_, hfold⟩
  obtain ⟨hbinary, hstrength⟩ := hwaiting t ht
  exact ⟨hbinary, Nat.le_trans hm hstrength⟩

/-- No binary operator is as strong as a repetition, so then none waits. -/
theorem emits_repetition_iff : y.Emits 3 ts post ↔
    ts.foldl feed y = ⟨post.reverse ++ y.released, y.stack, y.unmatched⟩ := by
  constructor
  · rintro ⟨out, waiting, rfl, hwaiting, hfold⟩
    have hnone : waiting = [] := by
      refine List.eq_nil_iff_forall_not_mem.mpr fun t ht => ?_
      obtain ⟨hbinary, hstrength⟩ := hwaiting t ht
      cases t with
      | op o => cases o <;> simp_all [Token.isBinary, Token.precedence, Operator.precedence,
          Token.isUnary, Operator.isUnary]
      | _ => cases hbinary
    rw [hfold, hnone, List.append_nil, List.nil_append]
  · intro hfold
    exact ⟨post, [], (List.append_nil post).symm, fun t ht => absurd ht List.not_mem_nil, hfold⟩

/-- A binary operator releases the operators above it that bind as tight, and no other. -/
theorem feed_binary {o : Operator} {released waiting : List Token} {unmatched : Nat}
    (ho : o.isUnary = false)
    (hwaiting : ∀ t ∈ waiting, t.isBinary = true ∧ o.precedence ≤ t.precedence)
    (hstack : Under o.precedence stack) :
    feed ⟨released, waiting ++ stack, unmatched⟩ (.op o) =
      ⟨waiting.reverse ++ released, .op o :: stack, unmatched⟩ := by
  have hyields : ∀ t ∈ waiting, yieldsTo t (.op o) = true := by
    intro t ht
    obtain ⟨hbinary, hstrength⟩ := hwaiting t ht
    exact yieldsTo_iff.mpr ⟨Token.isOperator_of_isBinary hbinary, hstrength⟩
  have hstays : stack.takeWhile (yieldsTo · (.op o)) = [] ∧
      stack.dropWhile (yieldsTo · (.op o)) = stack := by
    cases stack with
    | nil => exact ⟨rfl, rfl⟩
    | cons t below =>
      have hno : yieldsTo t (.op o) = false := by
        rw [Bool.eq_false_iff, Ne, yieldsTo_iff]
        rintro ⟨hop, hle⟩
        exact Nat.not_le.mpr (hstack t below rfl hop) hle
      rw [List.takeWhile_cons, List.dropWhile_cons, hno]
      exact ⟨rfl, rfl⟩
  rw [feed_eq_pushOperator ho, pushOperator]
  simp only
  rw [List.takeWhile_append_of_pos hyields, List.dropWhile_append_of_pos hyields, hstays.left,
    hstays.right, List.append_nil]

/-- A closing parenthesis releases the operators above the opening one. -/
theorem feed_rparen {released waiting : List Token} {unmatched : Nat}
    (hwaiting : ∀ t ∈ waiting, t.isBinary = true) :
    feed ⟨released, waiting ++ .lparen :: stack, unmatched⟩ .rparen =
      ⟨waiting.reverse ++ released, stack, unmatched⟩ := by
  have hinside : ∀ t ∈ waiting, (decide (t ≠ Token.lparen)) = true := by
    intro t ht
    refine decide_eq_true ?_
    rintro rfl
    cases hwaiting _ ht
  have htake : (waiting ++ Token.lparen :: stack).takeWhile (· ≠ .lparen) = waiting := by
    rw [List.takeWhile_append_of_pos hinside]
    exact List.append_nil waiting
  have hdrop : (waiting ++ Token.lparen :: stack).dropWhile (· ≠ .lparen) = .lparen :: stack :=
    List.dropWhile_append_of_pos hinside
  rw [feed, closeGroup_of_cons hdrop, htake]

/-- Two streams around a binary operator pass on both outputs and then the operator. -/
theorem Emits.binary {o : Operator} (ho : o.isUnary = false) (hm : o.precedence ≤ m)
    (hy : Under o.precedence y.stack) (h : y.Emits o.precedence ts post)
    (hus : ∀ z : Yard, z.stack = .op o :: y.stack → z.Emits m us rest) :
    y.Emits o.precedence (ts ++ .op o :: us) (post ++ rest ++ [.op o]) := by
  obtain ⟨out, waiting, rfl, hwaiting, hfold⟩ := h
  obtain ⟨right, last, rfl, hlast, hright⟩ :=
    hus ⟨waiting.reverse ++ (out.reverse ++ y.released), .op o :: y.stack, y.unmatched⟩ rfl
  refine ⟨out ++ waiting ++ right, last ++ [.op o], ?_, fun t ht => ?_, ?_⟩
  · simp only [List.append_assoc]
  · rcases List.mem_append.mp ht with ht | ht
    · obtain ⟨hbinary, hstrength⟩ := hlast t ht
      exact ⟨hbinary, Nat.le_trans hm hstrength⟩
    · obtain rfl := List.mem_singleton.mp ht
      rw [Token.isBinary_op, ho]
      exact ⟨rfl, Nat.le_refl _⟩
  · rw [List.foldl_append, hfold, List.foldl_cons, feed_binary ho hwaiting hy, hright]
    simp only [List.reverse_append, List.append_assoc, List.singleton_append]

/-- A stream in parentheses passes on all of its output. -/
theorem Emits.group (h : ∀ z : Yard, z.stack = .lparen :: y.stack → z.Emits k ts post) :
    y.Emits 3 (.lparen :: ts ++ [.rparen]) post := by
  rw [emits_repetition_iff]
  obtain ⟨out, waiting, rfl, hwaiting, hfold⟩ :=
    h ⟨y.released, .lparen :: y.stack, y.unmatched⟩ rfl
  rw [List.cons_append, List.foldl_cons, List.foldl_append]
  have hopen : y.feed .lparen = ⟨y.released, .lparen :: y.stack, y.unmatched⟩ := rfl
  rw [hopen, hfold, List.foldl_cons, feed_rparen fun t ht => (hwaiting t ht).left]
  simp only [List.foldl_nil, List.reverse_append, List.append_assoc]

/-- A stream whose output is known from the beginning of a conversion. -/
theorem toPostorder_of_emits (h : start.Emits k ts post) : toPostorder ts = post := by
  obtain ⟨out, waiting, rfl, hwaiting, hfold⟩ := h
  have hkept : (waiting ++ start.stack).filter (· ≠ .lparen) = waiting := by
    rw [show waiting ++ start.stack = waiting from List.append_nil waiting]
    refine List.filter_eq_self.mpr fun t ht => decide_eq_true ?_
    rintro rfl
    cases (hwaiting _ ht).left
  rw [toPostorder, run, hfold, finish, hkept]
  rw [show start.released = [] from rfl, List.append_nil, List.reverse_reverse]

/-- What binds weaker than some strength also binds weaker than a larger one. -/
theorem Under.mono (h : Under k stack) (hm : k ≤ m) : Under m stack :=
  fun t below hstack hop => Nat.lt_of_lt_of_le (h t below hstack hop) hm

/-- An operator is under every strength above its own. -/
theorem under_op {o : Operator} (ho : o.precedence < k) : Under k (.op o :: stack) := by
  intro t below hstack _
  obtain ⟨rfl, -⟩ := List.cons.inj hstack
  exact ho

/-- A parenthesis is under every strength. -/
theorem under_lparen : Under k (.lparen :: stack) := by
  intro t below hstack hop
  obtain ⟨rfl, -⟩ := List.cons.inj hstack
  cases hop

end Yard

namespace Phrase

variable {α : Type} {token : α → Token} {l : Tier}

/-- Above weaker operators the yard turns the tokens of a phrase into its operator-last form,
up to the operators that wait at the end. A binary operator of the phrase releases all that waits
behind the part in front of it, and the part behind it waits above the operator. -/
theorem emits (htoken : ∀ a, (token a).isOperand = true) (p : Phrase α l) {y : Yard}
    (hy : Yard.Under l.strength y.stack) :
    y.Emits l.strength (p.explicitTokens token) (p.postorder token) := by
  induction p generalizing y with
  | operand a =>
    have hfeed : y.feed (token a) = y.release (token a) := by
      have ha := htoken a
      cases htok : token a with
      | op o =>
        rw [htok] at ha
        cases ha
      | lparen =>
        rw [htok] at ha
        cases ha
      | rparen =>
        rw [htok] at ha
        cases ha
      | _ => rfl
    refine Yard.emits_repetition_iff.mpr ?_
    rw [explicitTokens, postorder, List.foldl_cons, List.foldl_nil, hfeed]
    rfl
  | group p ih =>
    refine Yard.Emits.group (k := 1) fun z hz => ih ?_
    rw [hz]
    exact Yard.under_lparen
  | once p ih => exact ih hy
  | repeated p r ih =>
    have hp := Yard.emits_repetition_iff.mp (ih hy)
    have hr : ∀ z : Yard, z.feed (.op r.operator) = z.release (.op r.operator) := by
      intro z
      cases r <;> rfl
    refine Yard.emits_repetition_iff.mpr ?_
    rw [explicitTokens, postorder, List.foldl_append, hp, List.foldl_cons, List.foldl_nil, hr,
      Yard.release]
    simp only [List.reverse_append, List.reverse_singleton, List.cons_append, List.nil_append]
  | single p ih => exact (ih (hy.mono (by decide))).mono (by decide)
  | followed p q ihp ihq =>
    refine Yard.Emits.binary (o := .concat) (m := 3) rfl (by decide) hy (ihp hy) fun z hz => ihq ?_
    rw [hz]
    exact Yard.under_op (by decide)
  | only p ih => exact (ih (hy.mono (by decide))).mono (by decide)
  | either p q ihp ihq =>
    refine Yard.Emits.binary (o := .alt) (m := 2) rfl (by decide) hy (ihp hy) fun z hz => ihq ?_
    rw [hz]
    exact Yard.under_op (by decide)

/-- The parser makes the operator-last form of a derivation from its tokens. -/
theorem toPostorder_tokens (htoken : ∀ a, (token a).isOperand = true) (p : Phrase α l) :
    toPostorder (insertConcats (p.tokens token)) = p.postorder token := by
  have hempty : Yard.Under l.strength Yard.start.stack := by
    intro t below hstack
    cases hstack
  rw [insertConcats_tokens htoken]
  exact Yard.toPostorder_of_emits (p.emits htoken hempty)

/-- The operator-last form of a phrase is one more complete expression. -/
theorem depthFrom_postorder (htoken : ∀ a, (token a).isOperand = true) (p : Phrase α l) (d : Nat) :
    depthFrom d (p.postorder token) = .ok (d + 1) := by
  induction p generalizing d with
  | operand a =>
    rw [postorder, depthFrom_cons (Token.depth_operand (htoken a)), depthFrom]
  | group p ih => exact ih d
  | once p ih => exact ih d
  | repeated p r ih =>
    have hr : (Token.op r.operator).isUnary = true := by
      cases r <;> rfl
    rw [postorder, depthFrom_append (ih d), depthFrom_cons (Token.depth_unary hr), depthFrom]
  | single p ih => exact ih d
  | followed p q ihp ihq =>
    have hop : (Token.op .concat).isBinary = true := rfl
    rw [postorder, List.append_assoc, depthFrom_append (ihp d), depthFrom_append (ihq _),
      depthFrom_cons (Token.depth_binary hop), depthFrom]
  | only p ih => exact ih d
  | either p q ihp ihq =>
    have hop : (Token.op .alt).isBinary = true := rfl
    rw [postorder, List.append_assoc, depthFrom_append (ihp d), depthFrom_append (ihq _),
      depthFrom_cons (Token.depth_binary hop), depthFrom]

end Phrase

end ByteRegex
