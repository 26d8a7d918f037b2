import ByteRegex.Proofs.Joining

/-!
# What unbalanced parentheses mean

Opening parentheses in front of a stream lie at the bottom of the yard's stack. There they do
nothing but wait for the closing ones that would find no group to close, and releasing the whole
stack or a group above such a parenthesis is the same. Closing parentheses behind a stream only
release what the end of the stream would release in the same order. So a stream may be enclosed
in any parentheses, and enclosing it in those that its own parentheses lack balances it.
-/

namespace ByteRegex

/-- The stream with opening parentheses in front and closing ones behind. -/
def enclose (opening closing : Nat) (ts : List Token) : List Token :=
  List.replicate opening .lparen ++ ts ++ List.replicate closing .rparen

/-- How the parentheses of a stream pair up. -/
structure Nesting where
  /-- The groups that are not closed. -/
  opened : Nat
  /-- The closing parentheses that found no group to close. -/
  unmatched : Nat
deriving DecidableEq, Repr

namespace Nesting

/-- A closing parenthesis closes a group, if one is open. -/
def close : Nesting → Nesting
  | ⟨0, unmatched⟩ => ⟨0, unmatched + 1⟩
  | ⟨opened + 1, unmatched⟩ => ⟨opened, unmatched⟩

/-- Read one token. Only parentheses matter. -/
def feed (n : Nesting) : Token → Nesting
  | .lparen => ⟨n.opened + 1, n.unmatched⟩
  | .rparen => n.close
  | .literal _ | .charClass _ | .dot | .op _ => n

/-- The pairing behind a stream. -/
def of (ts : List Token) : Nesting := ts.foldl feed ⟨0, 0⟩

/-- The pairing behind one more token. -/
theorem of_concat (ts : List Token) (t : Token) : of (ts ++ [t]) = (of ts).feed t := by
  rw [of, List.foldl_append, List.foldl_cons, List.foldl_nil, of]

/-- The pairing with more groups opened at the very beginning: they wait for the closing
parentheses that have nothing else to close. -/
def bury (k : Nat) (n : Nesting) : Nesting := ⟨n.opened + (k - n.unmatched), n.unmatched - k⟩

/-- A closing parenthesis closes a group of the stream before one that was opened in front. -/
theorem close_bury (k : Nat) (n : Nesting) : (n.bury k).close = n.close.bury k := by
  obtain ⟨opened, unmatched⟩ := n
  cases opened with
  | succ opened =>
    have hopened : opened + 1 + (k - unmatched) = opened + (k - unmatched) + 1 := by omega
    rw [bury, hopened]
    rfl
  | zero =>
    rw [bury, close, bury, Nat.zero_add, Nat.zero_add]
    cases hleft : k - unmatched with
    | zero =>
      have hnone : k - (unmatched + 1) = 0 := by omega
      have hcount : unmatched - k + 1 = unmatched + 1 - k := by omega
      rw [close, hnone, hcount]
    | succ left =>
      have hone : k - (unmatched + 1) = left := by omega
      have hcount : unmatched - k = unmatched + 1 - k := by omega
      rw [close, hone, hcount]

/-- Groups that are opened in front make no other difference. -/
theorem feed_bury (k : Nat) (n : Nesting) (t : Token) :
    (n.bury k).feed t = (n.feed t).bury k := by
  cases t with
  | lparen =>
    have hopened : n.opened + (k - n.unmatched) + 1 = n.opened + 1 + (k - n.unmatched) := by omega
    rw [feed, feed, bury, bury, hopened]
  | rparen => exact close_bury k n
  | _ => rfl

/-- Opening parentheses in a row open as many groups. -/
theorem foldl_feed_lparens (n : Nesting) (k : Nat) :
    (List.replicate k .lparen).foldl feed n = ⟨n.opened + k, n.unmatched⟩ := by
  induction k generalizing n with
  | zero => rfl
  | succ k ih =>
    rw [List.replicate_succ, List.foldl_cons, ih, feed, Nat.add_assoc, Nat.add_comm 1 k]

/-- As many closing parentheses as there are groups close all of them. -/
theorem foldl_feed_rparens (opened unmatched : Nat) :
    (List.replicate opened .rparen).foldl feed ⟨opened, unmatched⟩ = ⟨0, unmatched⟩ := by
  induction opened with
  | zero => rfl
  | succ opened ih => exact ih

/-- Opening parentheses in front of a stream are buried. -/
theorem of_lparens_append (k : Nat) (ts : List Token) :
    of (List.replicate k .lparen ++ ts) = (of ts).bury k := by
  have hfront : (List.replicate k .lparen).foldl feed ⟨0, 0⟩ = bury k ⟨0, 0⟩ := by
    rw [foldl_feed_lparens, bury, Nat.sub_zero, Nat.zero_sub]
  rw [of, List.foldl_append, hfront, of]
  exact List.foldl_hom (bury k) fun n t => feed_bury k n t

/-- Enclosing a stream in the parentheses that it lacks balances it. -/
theorem of_enclose (ts : List Token) :
    of (enclose (of ts).unmatched (of ts).opened ts) = ⟨0, 0⟩ := by
  have hfront : of (List.replicate (of ts).unmatched .lparen ++ ts) = ⟨(of ts).opened, 0⟩ := by
    rw [of_lparens_append, bury, Nat.sub_self, Nat.add_zero]
  rw [enclose, of, List.foldl_append, ← of, hfront, foldl_feed_rparens]

end Nesting

namespace Yard

variable {y : Yard} {k : Nat} {p : Token → Bool}

/-- The conversion with opening parentheses at the bottom of the stack, of which each unmatched
closing one has taken one. -/
def bury (k : Nat) (y : Yard) : Yard :=
  ⟨y.released, y.stack ++ List.replicate (k - y.unmatched) .lparen, y.unmatched - k⟩

/-- What is released from a stack ends at an opening parenthesis. -/
theorem takeWhile_append_lparen (hp : p .lparen = false) (stack below : List Token) :
    (stack ++ .lparen :: below).takeWhile p = stack.takeWhile p := by
  induction stack with
  | nil =>
    rw [List.nil_append, List.takeWhile_cons, hp]
    rfl
  | cons t stack ih =>
    rw [List.cons_append, List.takeWhile_cons, List.takeWhile_cons, ih]

/-- What stays of a stack stays above the opening parenthesis. -/
theorem dropWhile_append_lparen (hp : p .lparen = false) (stack below : List Token) :
    (stack ++ .lparen :: below).dropWhile p = stack.dropWhile p ++ .lparen :: below := by
  induction stack with
  | nil =>
    rw [List.nil_append, List.dropWhile_cons, hp]
    rfl
  | cons t stack ih =>
    rw [List.cons_append, List.dropWhile_cons, List.dropWhile_cons, ih]
    cases p t <;> rfl

/-- What is released from a stack ends above the parentheses at the bottom. -/
theorem takeWhile_append_lparens (hp : p .lparen = false) (stack : List Token) (k : Nat) :
    (stack ++ List.replicate k Token.lparen).takeWhile p = stack.takeWhile p := by
  cases k with
  | zero => rw [List.replicate_zero, List.append_nil]
  | succ k => exact takeWhile_append_lparen hp stack _

/-- What stays on a stack stays above the parentheses at the bottom. -/
theorem dropWhile_append_lparens (hp : p .lparen = false) (stack : List Token) (k : Nat) :
    (stack ++ List.replicate k Token.lparen).dropWhile p =
      stack.dropWhile p ++ List.replicate k .lparen := by
  cases k with
  | zero => rw [List.replicate_zero, List.append_nil, List.append_nil]
  | succ k => exact dropWhile_append_lparen hp stack _

/-- A closing parenthesis takes one of the parentheses at the bottom when it would else be
unmatched. What is released is the same. -/
theorem closeGroup_bury (k : Nat) (y : Yard) : (y.bury k).closeGroup = y.closeGroup.bury k := by
  have hp : decide (Token.lparen ≠ .lparen) = false := rfl
  have htake : (y.bury k).stack.takeWhile (· ≠ .lparen) = y.stack.takeWhile (· ≠ .lparen) :=
    takeWhile_append_lparens (p := (· ≠ .lparen)) hp y.stack _
  have hdrop : (y.bury k).stack.dropWhile (· ≠ .lparen) =
      y.stack.dropWhile (· ≠ .lparen) ++ List.replicate (k - y.unmatched) .lparen :=
    dropWhile_append_lparens (p := (· ≠ .lparen)) hp y.stack _
  cases hstack : y.stack.dropWhile (· ≠ .lparen) with
  | cons t below =>
    rw [hstack, List.cons_append] at hdrop
    rw [closeGroup_of_cons hstack, closeGroup_of_cons hdrop, htake]
    rfl
  | nil =>
    rw [hstack, List.nil_append] at hdrop
    rw [closeGroup_of_nil hstack]
    cases hleft : k - y.unmatched with
    | zero =>
      have hnone : k - (y.unmatched + 1) = 0 := by omega
      have hcount : y.unmatched - k + 1 = y.unmatched + 1 - k := by omega
      rw [hleft] at hdrop
      rw [closeGroup_of_nil hdrop, htake]
      simp only [bury, hnone, hcount, List.replicate_zero, List.append_nil]
    | succ left =>
      have hone : k - (y.unmatched + 1) = left := by omega
      have hcount : y.unmatched - k = y.unmatched + 1 - k := by omega
      rw [hleft, List.replicate_succ] at hdrop
      rw [closeGroup_of_cons hdrop, htake]
      simp only [bury, hone, hcount, List.nil_append]

/-- An operator never releases a parenthesis, so those at the bottom make no difference to it. -/
theorem pushOperator_bury (k : Nat) (y : Yard) (t : Token) :
    (y.bury k).pushOperator t = (y.pushOperator t).bury k := by
  have hp : yieldsTo .lparen t = false := rfl
  have htake := takeWhile_append_lparens (p := (yieldsTo · t)) hp y.stack (k - y.unmatched)
  have hdrop := dropWhile_append_lparens (p := (yieldsTo · t)) hp y.stack (k - y.unmatched)
  simp only [pushOperator, bury, htake, hdrop, List.cons_append]

/-- Reading a token keeps the parentheses at the bottom, but for those that it takes. -/
theorem feed_bury (k : Nat) (y : Yard) (t : Token) : (y.bury k).feed t = (y.feed t).bury k := by
  cases t with
  | rparen => exact closeGroup_bury k y
  | op o =>
    rw [feed, feed]
    cases o.isUnary with
    | true => rfl
    | false => exact pushOperator_bury k y (.op o)
  | _ => rfl

/-- Parentheses that are left at the bottom are dropped in the end. -/
theorem finish_bury (k : Nat) (y : Yard) : (y.bury k).finish = y.finish := by
  have hnone : (List.replicate (k - y.unmatched) Token.lparen).filter (· ≠ .lparen) = [] := by
    refine List.filter_eq_nil_iff.mpr fun t ht => ?_
    rw [List.eq_of_mem_replicate ht]
    decide
  rw [finish, finish, bury, List.filter_append, hnone, List.append_nil]

/-- Opening parentheses in a row wait on the stack. -/
theorem foldl_feed_lparens (y : Yard) (k : Nat) :
    (List.replicate k .lparen).foldl feed y =
      ⟨y.released, List.replicate k .lparen ++ y.stack, y.unmatched⟩ := by
  induction k generalizing y with
  | zero => rfl
  | succ k ih =>
    have hstack : List.replicate k Token.lparen ++ .lparen :: y.stack =
        List.replicate (k + 1) .lparen ++ y.stack := by
      rw [List.replicate_succ', List.append_assoc, List.singleton_append]
    rw [← hstack]
    exact ih (y.feed .lparen)

/-- Opening parentheses in front of a stream are buried. -/
theorem run_lparens_append (k : Nat) (ts : List Token) :
    run (List.replicate k .lparen ++ ts) = (run ts).bury k := by
  have hfront : (List.replicate k .lparen).foldl feed start = start.bury k := by
    rw [foldl_feed_lparens, bury, start, List.append_nil, List.nil_append, Nat.sub_zero,
      Nat.zero_sub]
  rw [run, List.foldl_append, hfront, run]
  exact List.foldl_hom (bury k) fun y t => feed_bury k y t

/-- A closing parenthesis releases early what comes out first in the end. -/
theorem finish_closeGroup (y : Yard) : y.closeGroup.finish = y.finish := by
  have hsplit := filter_eq_takeWhile_append (p := (· ≠ .lparen))
    (fun t => of_decide_eq_true) y.stack
  rw [finish, finish, hsplit]
  rcases closeGroup_cases y with ⟨below, hdrop, hclose⟩ | ⟨hdrop, hclose⟩
  · rw [hdrop, hclose]
    simp only [List.reverse_append, List.reverse_reverse, List.append_assoc]
    rfl
  · rw [hdrop, hclose]
    simp only [List.reverse_append, List.reverse_reverse, List.append_assoc]

/-- Closing parentheses behind a stream change nothing of what comes out. -/
theorem finish_foldl_rparens (y : Yard) (l : Nat) :
    ((List.replicate l .rparen).foldl feed y).finish = y.finish := by
  induction l generalizing y with
  | zero => rfl
  | succ l ih => exact (ih y.closeGroup).trans (finish_closeGroup y)

/-- How the parentheses that were read pair up: those of open groups are on the stack. -/
def nesting (y : Yard) : Nesting := ⟨y.stack.count .lparen, y.unmatched⟩

/-- The operators that are released hold no parenthesis. -/
theorem count_takeWhile_append (hp : p .lparen = false) (stack rest : List Token) :
    (stack.takeWhile p ++ rest).count .lparen = rest.count .lparen := by
  have hnone : (stack.takeWhile p).count .lparen = 0 := by
    refine List.count_eq_zero.mpr fun hmem => ?_
    have htrue := List.mem_takeWhile_imp hmem
    rw [hp] at htrue
    cases htrue
  rw [List.count_append, hnone, Nat.zero_add]

/-- Closing a group pairs the parenthesis with the one that opened the group. -/
theorem nesting_closeGroup (y : Yard) : y.closeGroup.nesting = y.nesting.close := by
  have hp : decide (Token.lparen ≠ .lparen) = false := rfl
  have hcount : y.stack.count .lparen = (y.stack.dropWhile (· ≠ .lparen)).count .lparen := by
    conv_lhs => rw [← List.takeWhile_append_dropWhile (p := (· ≠ .lparen)) (l := y.stack)]
    exact count_takeWhile_append (p := (· ≠ .lparen)) hp y.stack _
  rcases closeGroup_cases y with ⟨below, hdrop, hclose⟩ | ⟨hdrop, hclose⟩
  · rw [hclose, nesting, nesting, hcount, hdrop, List.count_cons_self]
    rfl
  · rw [hclose, nesting, nesting, hcount, hdrop]
    rfl

/-- The yard pairs the parentheses as counting does, whatever operators wait between them. -/
theorem nesting_feed (y : Yard) (t : Token) : (y.feed t).nesting = y.nesting.feed t := by
  cases t with
  | lparen =>
    rw [feed, nesting, List.count_cons_self]
    rfl
  | rparen => exact nesting_closeGroup y
  | op o =>
    rw [feed]
    cases o.isUnary with
    | true => rfl
    | false =>
      have hp : yieldsTo .lparen (.op o) = false := rfl
      have hcount := count_takeWhile_append (p := (yieldsTo · (.op o))) hp y.stack
        (y.stack.dropWhile (yieldsTo · (.op o)))
      rw [List.takeWhile_append_dropWhile] at hcount
      have hop : (Token.op o == Token.lparen) = false := rfl
      simp only [Bool.false_eq_true, if_false, pushOperator, nesting, List.count_cons, hop, hcount]
      rfl
  | _ => rfl

/-- The pairing behind a stream is the one that counting finds. -/
theorem nesting_run (ts : List Token) : (run ts).nesting = Nesting.of ts :=
  (List.foldl_hom nesting fun y t => (nesting_feed y t).symm).symm

end Yard

/-- Parentheses around a stream leave no trace in the operator-last stream. -/
theorem toPostorder_enclose (j l : Nat) (ts : List Token) :
    toPostorder (enclose j l ts) = toPostorder ts := by
  rw [toPostorder, enclose, Yard.run, List.foldl_append, Yard.finish_foldl_rparens, ← Yard.run,
    Yard.run_lparens_append, Yard.finish_bury]
  rfl

/-- No concatenation is put behind an opening parenthesis. -/
theorem joinFrom_lparens_append (j : Nat) (ts : List Token) :
    joinFrom false (List.replicate j .lparen ++ ts) =
      List.replicate j .lparen ++ joinFrom false ts := by
  induction j with
  | zero => rfl
  | succ j ih => exact congrArg (Token.lparen :: ·) ih

/-- Closing parentheses are not joined to each other or to what is in front of them. -/
theorem joinFrom_rparens (ended : Bool) (l : Nat) :
    joinFrom ended (List.replicate l .rparen) = List.replicate l .rparen := by
  induction l generalizing ended with
  | zero => rfl
  | succ l ih =>
    have hbegin : (ended && Token.rparen.canBegin) = false := Bool.and_false ended
    rw [List.replicate_succ, joinFrom, hbegin, ih]
    rfl

/-- No concatenation is put in front of a closing parenthesis. -/
theorem joinFrom_append_rparens (ended : Bool) (ts : List Token) (l : Nat) :
    joinFrom ended (ts ++ List.replicate l .rparen) =
      joinFrom ended ts ++ List.replicate l .rparen := by
  rw [joinFrom_append, joinFrom_rparens]

/-- Explicit concatenation is the same inside of parentheses. -/
theorem insertConcats_enclose (j l : Nat) (ts : List Token) :
    insertConcats (enclose j l ts) = enclose j l (insertConcats ts) := by
  rw [insertConcats_eq_joinFrom, insertConcats_eq_joinFrom, enclose, joinFrom_append_rparens,
    joinFrom_lparens_append]
  rfl

/-- Any opening parentheses in front of a stream and any closing ones behind it leave no trace in
the operator-last stream, whether concatenation was made explicit before or is not, and however
the parentheses of the stream itself are balanced. Those that the stream lacks, an opening one in
front for each unmatched closing one and a closing one behind for each group left open, balance
it, so the unbalanced parentheses mean what they would mean if these were written. -/
theorem toPostorder_outer_parentheses (ts : List Token) :
    (∀ j l, toPostorder (enclose j l ts) = toPostorder ts ∧
      toPostorder (insertConcats (enclose j l ts)) = toPostorder (insertConcats ts)) ∧
    Nesting.of (enclose (unmatchedClosings ts) (Nesting.of ts).opened ts) = ⟨0, 0⟩ := by
  refine ⟨fun j l => ⟨toPostorder_enclose j l ts, ?_⟩, ?_⟩
  · rw [insertConcats_enclose, toPostorder_enclose]
  · have hunmatched : unmatchedClosings ts = (Nesting.of ts).unmatched :=
      congrArg Nesting.unmatched (Yard.nesting_run ts)
    rw [hunmatched]
    exact Nesting.of_enclose ts

end ByteRegex
