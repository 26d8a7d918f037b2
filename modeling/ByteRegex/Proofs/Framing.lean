import ByteRegex.Proofs.Parentheses

/-!
# A group is converted as it is by itself

An opening parenthesis on the stack keeps what waits below it out of reach. As long as a stream
closes no group but its own, reading it inside of a group is reading it by itself, on top of the
stack. So a balanced stream in parentheses releases its own operator-last form and leaves nothing
else behind, wherever it stands.
-/

namespace ByteRegex

variable {t : Token} {ts : List Token}

namespace Nesting

/-- Unmatched parentheses stay unmatched. -/
theorem unmatched_le_feed (n : Nesting) (t : Token) : n.unmatched ≤ (n.feed t).unmatched := by
  cases t with
  | rparen =>
    obtain ⟨opened, unmatched⟩ := n
    cases opened with
    | zero => exact Nat.le_succ unmatched
    | succ opened => exact Nat.le_refl unmatched
  | _ => exact Nat.le_refl n.unmatched

/-- Unmatched parentheses stay unmatched to the end. -/
theorem unmatched_le_foldl (n : Nesting) (ts : List Token) :
    n.unmatched ≤ (ts.foldl feed n).unmatched := by
  induction ts generalizing n with
  | nil => exact Nat.le_refl n.unmatched
  | cons t rest ih => exact Nat.le_trans (n.unmatched_le_feed t) (ih (n.feed t))

/-- Explicit concatenation changes nothing of how the parentheses pair up. -/
theorem foldl_joinFrom (n : Nesting) (ended : Bool) (ts : List Token) :
    (joinFrom ended ts).foldl feed n = ts.foldl feed n := by
  induction ts generalizing n ended with
  | nil => rfl
  | cons t rest ih =>
    rw [joinFrom, List.foldl_append, List.foldl_cons, ih]
    cases ended && t.canBegin <;> rfl

/-- What follows a balanced stream in parentheses pairs up as it does by itself. -/
theorem of_group_append (h : of ts = ⟨0, 0⟩) (rest : List Token) :
    of (.lparen :: ts ++ .rparen :: rest) = of rest := by
  have hopen : of (.lparen :: ts) = ⟨1, 0⟩ := by
    have hbury := of_lparens_append 1 ts
    rwa [h] at hbury
  rw [of, List.foldl_append, ← of, hopen]
  rfl

end Nesting

namespace Yard

variable {y : Yard}

/-- The conversion inside of a group that was opened on top of another one. -/
def inside (base y : Yard) : Yard :=
  ⟨y.released ++ base.released, y.stack ++ .lparen :: base.stack, base.unmatched⟩

/-- Inside of a group a token does what it does by itself, unless it closes the group. -/
theorem feed_inside (base : Yard) (h : (y.feed t).unmatched = y.unmatched) :
    (base.inside y).feed t = base.inside (y.feed t) := by
  cases t with
  | rparen =>
    have hp : decide (Token.lparen ≠ .lparen) = false := rfl
    have htake := takeWhile_append_lparen (p := (· ≠ .lparen)) hp y.stack base.stack
    have hdrop := dropWhile_append_lparen (p := (· ≠ .lparen)) hp y.stack base.stack
    rw [feed] at h ⊢
    rcases closeGroup_cases y with ⟨below, hbelow, hclose⟩ | ⟨-, hclose⟩
    · rw [hbelow] at hdrop
      rw [feed, hclose, closeGroup_of_cons hdrop]
      simp only [inside, htake, List.append_assoc]
      rfl
    · rw [hclose] at h
      exact absurd h (Nat.succ_ne_self y.unmatched)
  | op o =>
    rw [feed, feed]
    cases o.isUnary with
    | true => rfl
    | false =>
      have hp : yieldsTo .lparen (.op o) = false := rfl
      have htake := takeWhile_append_lparen (p := (yieldsTo · (.op o))) hp y.stack base.stack
      have hdrop := dropWhile_append_lparen (p := (yieldsTo · (.op o))) hp y.stack base.stack
      simp only [Bool.false_eq_true, if_false, pushOperator, inside, htake, hdrop,
        List.append_assoc, List.cons_append]
  | _ => rfl

/-- Inside of a group a stream does what it does by itself, unless it closes the group. -/
theorem foldl_feed_inside (base : Yard) (h : (ts.foldl feed y).unmatched = y.unmatched) :
    ts.foldl feed (base.inside y) = base.inside (ts.foldl feed y) := by
  induction ts generalizing y with
  | nil => rfl
  | cons t rest ih =>
    have hunmatched : ∀ (us : List Token) (z : Yard),
        z.unmatched ≤ (us.foldl feed z).unmatched := by
      intro us z
      have hnesting : (us.foldl feed z).nesting = us.foldl Nesting.feed z.nesting :=
        (List.foldl_hom nesting fun z t => (nesting_feed z t).symm).symm
      have hle := z.nesting.unmatched_le_foldl us
      rwa [← hnesting] at hle
    have hstep := hunmatched [t] y
    have hrest := hunmatched rest (y.feed t)
    rw [List.foldl_cons] at h
    rw [List.foldl_cons, feed_inside base (Nat.le_antisymm (by omega) hstep), List.foldl_cons]
    refine ih (Nat.le_antisymm ?_ hrest)
    rw [h]
    exact hstep

/-- A stream that finds all the groups that it closes is read inside of a group as by itself. -/
theorem foldl_feed_lparen (base : Yard) (h : (Nesting.of ts).unmatched = 0) :
    (Token.lparen :: ts).foldl feed base = base.inside (run ts) := by
  have hrun : (run ts).unmatched = 0 := by
    rw [← h, ← nesting_run]
    rfl
  exact foldl_feed_inside base hrun

/-- A balanced stream in parentheses releases its operator-last form, and nothing else changes. -/
theorem foldl_feed_group (h : Nesting.of ts = ⟨0, 0⟩) (y : Yard) :
    (Token.lparen :: ts ++ [Token.rparen]).foldl feed y =
      ⟨(toPostorder ts).reverse ++ y.released, y.stack, y.unmatched⟩ := by
  have hnone : ∀ t ∈ (run ts).stack, decide (t ≠ Token.lparen) = true := by
    have hcount : (run ts).stack.count .lparen = 0 := by
      have hopened := congrArg Nesting.opened (nesting_run ts)
      rwa [h] at hopened
    intro t ht
    refine decide_eq_true ?_
    rintro rfl
    exact List.count_eq_zero.mp hcount ht
  have htake : (y.inside (run ts)).stack.takeWhile (· ≠ .lparen) = (run ts).stack := by
    rw [inside, List.takeWhile_append_of_pos hnone]
    exact List.append_nil _
  have hdrop : (y.inside (run ts)).stack.dropWhile (· ≠ .lparen) = .lparen :: y.stack :=
    List.dropWhile_append_of_pos hnone
  have hkept : (run ts).stack.filter (· ≠ .lparen) = (run ts).stack :=
    List.filter_eq_self.mpr hnone
  have hclose := closeGroup_of_cons hdrop
  rw [htake] at hclose
  rw [List.foldl_append, foldl_feed_lparen y (by rw [h]), List.foldl_cons, List.foldl_nil]
  refine hclose.trans ?_
  rw [toPostorder, finish, hkept]
  simp only [inside, List.reverse_append, List.reverse_reverse, List.append_assoc]

end Yard

end ByteRegex
