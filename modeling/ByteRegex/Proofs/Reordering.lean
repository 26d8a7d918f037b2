import ByteRegex.Postorder
import ByteRegex.Proofs.Depth
import Mathlib.Data.List.Perm.Basic
import Mathlib.Data.List.TakeWhile

/-!
# What the operator yard does to a stream

Three facts hold at every point of a conversion. No token but a parenthesis is lost, and none
is added, so the output is an arrangement of the input. Operands and repetitions never wait, so
they keep their order. And as long as every operand stands where one is expected, the waiting
binary operators are the ones that still have an operand to come: the number of complete
expressions among the released tokens is the number of waiting operators, and one more behind a
complete operand.
-/

namespace ByteRegex.Yard

variable {y : Yard} {t w : Token} {o : Operator} {ts : List Token}

/-- One more token is read last. -/
theorem run_concat (ts : List Token) (t : Token) : run (ts ++ [t]) = (run ts).feed t := by
  rw [run, List.foldl_append, List.foldl_cons, List.foldl_nil, run]

/-- A binary operator releases what gives way to it, and waits. -/
theorem feed_eq_pushOperator (ho : o.isUnary = false) (y : Yard) :
    y.feed (.op o) = y.pushOperator (.op o) := by
  rw [feed, ho, if_neg Bool.false_ne_true]

/-- A token gives way when it is an operator that binds at least as tight. -/
theorem yieldsTo_iff :
    yieldsTo w t = true ↔ w.isOperator = true ∧ t.precedence ≤ w.precedence := by
  rw [yieldsTo, Bool.and_eq_true, decide_eq_true_eq]

/-- A parenthesis never gives way. -/
theorem ne_lparen_of_yieldsTo (w : Token) (hw : yieldsTo w t = true) : w ≠ .lparen := by
  rintro rfl
  cases hw

/-- All tokens that are going to come out, in some order. -/
def content (y : Yard) : List Token := y.released ++ y.stack.filter (· ≠ .lparen)

/-- What comes out in the end is what was going to come out. -/
theorem finish_perm (y : Yard) : y.finish.Perm y.content :=
  (List.reverse_perm y.released).append_right _

/-- Releasing a part of the stack that has no parenthesis splits what is left to come out. -/
theorem filter_eq_takeWhile_append {p : Token → Bool} (hp : ∀ t, p t = true → t ≠ .lparen)
    (stack : List Token) : stack.filter (· ≠ .lparen) =
      stack.takeWhile p ++ (stack.dropWhile p).filter (· ≠ .lparen) := by
  have hkept : (stack.takeWhile p).filter (· ≠ .lparen) = stack.takeWhile p := by
    refine List.filter_eq_self.mpr fun t ht => ?_
    exact decide_eq_true (hp t (List.mem_takeWhile_imp ht))
  conv_lhs => rw [← List.takeWhile_append_dropWhile (p := p) (l := stack)]
  rw [List.filter_append, hkept]

/-- Releasing a part of the stack changes nothing of what is going to come out. -/
theorem release_perm {p : Token → Bool} (hp : ∀ t, p t = true → t ≠ .lparen)
    (released stack : List Token) :
    ((stack.takeWhile p).reverse ++ released ++
      (stack.dropWhile p).filter (· ≠ .lparen)).Perm
        (released ++ stack.filter (· ≠ .lparen)) := by
  rw [filter_eq_takeWhile_append hp stack, ← List.append_assoc]
  refine List.Perm.append_right _ ?_
  exact ((List.reverse_perm _).append_right _).trans List.perm_append_comm

/-- A closing parenthesis releases the operators above the opening one, which is dropped. -/
theorem closeGroup_of_cons {below : List Token}
    (h : y.stack.dropWhile (· ≠ .lparen) = t :: below) :
    y.closeGroup =
      ⟨(y.stack.takeWhile (· ≠ .lparen)).reverse ++ y.released, below, y.unmatched⟩ := by
  simp only [closeGroup, h]

/-- A closing parenthesis releases the whole stack when no opening one is there. -/
theorem closeGroup_of_nil (h : y.stack.dropWhile (· ≠ .lparen) = []) :
    y.closeGroup =
      ⟨(y.stack.takeWhile (· ≠ .lparen)).reverse ++ y.released, [], y.unmatched + 1⟩ := by
  simp only [closeGroup, h]

/-- Either a group is open, and below its operators is the parenthesis that opened it, or no
group is open. -/
theorem closeGroup_cases (y : Yard) :
    (∃ below, y.stack.dropWhile (· ≠ .lparen) = .lparen :: below ∧ y.closeGroup =
      ⟨(y.stack.takeWhile (· ≠ .lparen)).reverse ++ y.released, below, y.unmatched⟩) ∨
    (y.stack.dropWhile (· ≠ .lparen) = [] ∧ y.closeGroup =
      ⟨(y.stack.takeWhile (· ≠ .lparen)).reverse ++ y.released, [], y.unmatched + 1⟩) := by
  cases hstack : y.stack.dropWhile (· ≠ .lparen) with
  | nil => exact .inr ⟨rfl, closeGroup_of_nil hstack⟩
  | cons t below =>
    have hhead := List.head?_dropWhile_not (fun t : Token => decide (t ≠ .lparen)) y.stack
    rw [hstack] at hhead
    obtain rfl : t = .lparen := by simpa using hhead
    exact .inl ⟨below, rfl, closeGroup_of_cons hstack⟩

/-- What waits behind a token has waited in front of it, unless it is the token itself, which then
is a binary operator or an opening parenthesis. -/
theorem mem_stack_feed (hw : w ∈ (y.feed t).stack) :
    w ∈ y.stack ∨ w = t ∧ (w.isBinary = true ∨ w = .lparen) := by
  have hdropped : ∀ p : Token → Bool, w ∈ y.stack.dropWhile p → w ∈ y.stack :=
    fun p hw => (List.dropWhile_sublist p).subset hw
  cases t with
  | lparen =>
    rcases List.mem_cons.mp hw with rfl | hw
    · exact .inr ⟨rfl, .inr rfl⟩
    · exact .inl hw
  | rparen =>
    rw [feed] at hw
    rcases closeGroup_cases y with ⟨below, hdrop, hclose⟩ | ⟨-, hclose⟩
    · rw [hclose] at hw
      refine .inl (hdropped (· ≠ .lparen) ?_)
      rw [hdrop]
      exact List.mem_cons_of_mem _ hw
    · rw [hclose] at hw
      exact absurd hw List.not_mem_nil
  | op o =>
    cases hunary : o.isUnary with
    | true =>
      rw [feed, hunary] at hw
      exact .inl hw
    | false =>
      rw [feed_eq_pushOperator hunary] at hw
      rcases List.mem_cons.mp hw with rfl | hw
      · rw [Token.isBinary_op, hunary]
        exact .inr ⟨rfl, .inl rfl⟩
      · exact .inl (hdropped _ hw)
  | _ => exact .inl hw

/-- A token that is no parenthesis is going to come out, and a parenthesis is not. -/
theorem content_feed_perm (y : Yard) (t : Token) :
    (y.feed t).content.Perm ([t].filter (fun t => !t.isParen) ++ y.content) := by
  cases t with
  | lparen => exact .refl _
  | rparen =>
    have hperm := release_perm (p := (· ≠ .lparen)) (fun t => of_decide_eq_true)
      y.released y.stack
    rw [feed]
    rcases closeGroup_cases y with ⟨below, hdrop, hclose⟩ | ⟨hdrop, hclose⟩
    · rw [hdrop] at hperm
      rw [hclose]
      exact hperm
    · rw [hdrop] at hperm
      rw [hclose]
      exact hperm
  | op o =>
    cases hunary : o.isUnary with
    | true =>
      simp only [feed, hunary, if_true]
      exact .refl _
    | false =>
      have hperm := release_perm (ne_lparen_of_yieldsTo (t := .op o)) y.released y.stack
      rw [feed_eq_pushOperator hunary]
      exact List.perm_middle.trans (hperm.cons _)
  | literal b => exact .refl _
  | charClass c => exact .refl _
  | dot => exact .refl _

/-- A stream adds its tokens, without the parentheses, to what is going to come out. -/
theorem content_foldl_perm (y : Yard) (ts : List Token) :
    (ts.foldl feed y).content.Perm (ts.filter (fun t => !t.isParen) ++ y.content) := by
  induction ts generalizing y with
  | nil => exact .refl _
  | cons t rest ih =>
    have hstep := content_feed_perm y t
    have hrest := ih (y.feed t)
    refine hrest.trans ((hstep.append_left _).trans ?_)
    have hcons : (t :: rest).filter (fun t => !t.isParen) =
        [t].filter (fun t => !t.isParen) ++ rest.filter (fun t => !t.isParen) :=
      List.filter_append [t] rest
    rw [← List.append_assoc, hcons]
    exact List.perm_append_comm.append_right _

/-- The output is an arrangement of the input without its parentheses. -/
theorem perm_toPostorder (ts : List Token) :
    (toPostorder ts).Perm (ts.filter (fun t => !t.isParen)) := by
  have hcontent := content_foldl_perm start ts
  rw [show start.content = [] from rfl, List.append_nil] at hcontent
  exact (finish_perm (run ts)).trans hcontent

/-- The output has as many tokens of a kind as the input, if parentheses are not of that kind. -/
theorem countP_toPostorder {p : Token → Bool} (hl : p .lparen = false) (hr : p .rparen = false)
    (ts : List Token) : (toPostorder ts).countP p = ts.countP p := by
  rw [(perm_toPostorder ts).countP_eq, List.countP_filter]
  refine List.countP_congr fun t _ => ?_
  rw [Bool.and_eq_true, Bool.not_eq_true']
  refine ⟨fun h => h.left, fun h => ⟨h, ?_⟩⟩
  cases t with
  | lparen =>
    rw [hl] at h
    cases h
  | rparen =>
    rw [hr] at h
    cases h
  | _ => rfl

/-- No parenthesis comes out. -/
theorem not_isParen_of_mem_toPostorder (h : t ∈ toPostorder ts) : t.isParen = false := by
  have hfilter := (perm_toPostorder ts).mem_iff.mp h
  rw [List.mem_filter, Bool.not_eq_true'] at hfilter
  exact hfilter.right

/-- Whether a token passes through at once. Operands and repetitions never wait. -/
def passes (t : Token) : Bool := t.isOperand || t.isUnary

/-- What may wait does not pass. -/
theorem passes_eq_false (h : t.isBinary = true ∨ t = .lparen) : passes t = false := by
  rcases h with hbinary | rfl
  · cases t with
    | op o =>
      rw [Token.isBinary_op, Bool.not_eq_true'] at hbinary
      exact hbinary
    | _ => cases hbinary
  · rfl

/-- Releasing waiting tokens adds nothing to the tokens that passed, when none of them is one
that passes. -/
theorem filter_passes_release {stack : List Token} (h : ∀ u ∈ stack, passes u = false)
    (p : Token → Bool) (released : List Token) :
    ((stack.takeWhile p).reverse ++ released).filter passes = released.filter passes := by
  have hnone : (stack.takeWhile p).reverse.filter passes = [] := by
    refine List.filter_eq_nil_iff.mpr fun u hu => ?_
    have hwaits := h u ((List.takeWhile_sublist p).subset (List.mem_reverse.mp hu))
    rw [hwaits]
    exact Bool.false_ne_true
  rw [List.filter_append, hnone, List.nil_append]

/-- A token that passes comes out behind those that passed before, any other token adds nothing
to them, and what waits still does not pass. -/
theorem feed_passes (h : ∀ u ∈ y.stack, passes u = false) (t : Token) :
    (∀ u ∈ (y.feed t).stack, passes u = false) ∧
      (y.feed t).released.filter passes = [t].filter passes ++ y.released.filter passes := by
  have hrelease : (y.release t).released.filter passes =
      [t].filter passes ++ y.released.filter passes := List.filter_append [t] y.released
  have hreleased : ∀ p : Token → Bool,
      ((y.stack.takeWhile p).reverse ++ y.released).filter passes = y.released.filter passes :=
    fun p => filter_passes_release h p y.released
  refine ⟨fun u hu => ?_, ?_⟩
  · rcases mem_stack_feed hu with hu | ⟨-, hwaits⟩
    · exact h u hu
    · exact passes_eq_false hwaits
  · cases t with
    | lparen => rfl
    | rparen =>
      rw [feed]
      rcases closeGroup_cases y with ⟨below, -, hclose⟩ | ⟨-, hclose⟩
      · rw [hclose]
        exact hreleased (· ≠ .lparen)
      · rw [hclose]
        exact hreleased (· ≠ .lparen)
    | op o =>
      cases hunary : o.isUnary with
      | true =>
        simp only [feed, hunary, if_true]
        exact hrelease
      | false =>
        have hwaits : passes (.op o) = false := hunary
        rw [feed_eq_pushOperator hunary, pushOperator, hreleased,
          List.filter_cons_of_neg (by rw [hwaits]; decide)]
        rfl
    | _ => exact hrelease

/-- A stream adds its tokens that pass, in their order, to those that passed before. -/
theorem foldl_feed_passes (h : ∀ u ∈ y.stack, passes u = false) (ts : List Token) :
    (∀ u ∈ (ts.foldl feed y).stack, passes u = false) ∧
      (ts.foldl feed y).released.filter passes =
        (ts.filter passes).reverse ++ y.released.filter passes := by
  induction ts generalizing y with
  | nil => exact ⟨h, rfl⟩
  | cons t rest ih =>
    obtain ⟨hwaits, hstep⟩ := feed_passes h t
    obtain ⟨hlast, hrest⟩ := ih hwaits
    refine ⟨hlast, hrest.trans ?_⟩
    have hcons : (t :: rest).filter passes = [t].filter passes ++ rest.filter passes :=
      List.filter_append [t] rest
    have hsingle : ([t].filter passes).reverse = [t].filter passes := by
      cases hpass : passes t <;> simp [hpass]
    rw [hstep, hcons, List.reverse_append, hsingle, List.append_assoc]

/-- Operands and repetitions come out in the order in which they went in. -/
theorem filter_passes_toPostorder (ts : List Token) :
    (toPostorder ts).filter passes = ts.filter passes := by
  have hstart : ∀ u ∈ start.stack, passes u = false := fun u hu => absurd hu List.not_mem_nil
  obtain ⟨hwaits, hreleased⟩ := foldl_feed_passes hstart ts
  have hstack : ((run ts).stack.filter (· ≠ .lparen)).filter passes = [] := by
    refine List.filter_eq_nil_iff.mpr fun u hu => ?_
    rw [hwaits u (List.mem_of_mem_filter hu)]
    exact Bool.false_ne_true
  have hnone : start.released.filter passes = [] := rfl
  rw [toPostorder, finish, List.filter_append, hstack, List.append_nil, List.filter_reverse, run,
    hreleased, hnone, List.append_nil, List.reverse_reverse]

/-- On every stream, well formed or not, the yard neither loses nor adds a token: no parenthesis
comes out, what comes out is an arrangement of the other tokens, and the operands and the
repetitions come out in the order in which they went in. -/
theorem toPostorder_arranges (ts : List Token) :
    (∀ t ∈ toPostorder ts, t.isParen = false) ∧
    (toPostorder ts).Perm (ts.filter fun t => !t.isParen) ∧
    (toPostorder ts).filter (fun t => t.isOperand || t.isUnary) =
      ts.filter fun t => t.isOperand || t.isUnary :=
  ⟨fun _ => not_isParen_of_mem_toPostorder, perm_toPostorder ts, filter_passes_toPostorder ts⟩

/-- Only binary operators and opening parentheses wait. -/
theorem waits_feed (h : ∀ w ∈ y.stack, w.isBinary = true ∨ w = .lparen) (t : Token) :
    ∀ w ∈ (y.feed t).stack, w.isBinary = true ∨ w = .lparen := by
  intro w hw
  rcases mem_stack_feed hw with hw | ⟨rfl, ht⟩
  · exact h w hw
  · exact ht

/-- Every waiting operator has one complete expression and still needs another, which is
there when the input so far ended with one. -/
structure Balanced (ended : Bool) (y : Yard) : Prop where
  /-- Only binary operators and opening parentheses wait. -/
  waits : ∀ t ∈ y.stack, t.isBinary = true ∨ t = .lparen
  /-- The released tokens leave one expression for each waiting operator, and one more
  when the input so far ended with one. -/
  depth : depthFrom 0 y.released.reverse = .ok (y.stack.countP Token.isBinary + ended.toNat)

/-- A conversion begins without operators and without expressions. -/
theorem balanced_start : start.Balanced false where
  waits _ ht := absurd ht List.not_mem_nil
  depth := rfl

/-- Behind a complete expression a part of the stack that has no parenthesis can be
released, and every operator in it finds its operands. -/
theorem Balanced.depth_release (h : y.Balanced true) {p : Token → Bool}
    (hp : ∀ t, p t = true → t ≠ .lparen) :
    depthFrom 0 ((y.stack.takeWhile p).reverse ++ y.released).reverse =
      .ok ((y.stack.dropWhile p).countP Token.isBinary + 1) := by
  have hbinary : ∀ t ∈ y.stack.takeWhile p, t.isBinary = true := by
    intro t ht
    have hstack := h.waits t ((List.takeWhile_sublist p).subset ht)
    exact hstack.resolve_right (hp t (List.mem_takeWhile_imp ht))
  have hcount : y.stack.countP Token.isBinary =
      (y.stack.takeWhile p).length + (y.stack.dropWhile p).countP Token.isBinary := by
    conv_lhs => rw [← List.takeWhile_append_dropWhile (p := p) (l := y.stack)]
    rw [List.countP_append, List.countP_eq_length.mpr hbinary]
  have hdepth := h.depth
  rw [hcount, Bool.toNat_true] at hdepth
  rw [List.reverse_append, List.reverse_reverse, depthFrom_append hdepth]
  exact depthFrom_binaries hbinary

/-- A token that stands where it is expected keeps a conversion balanced. Where an expression is to
begin, that is an operand or an opening parenthesis. Behind one it is anything else, and what such a
token releases finds the complete expression. -/
theorem Balanced.feed {ended : Bool} (h : y.Balanced ended) (ht : t.canBegin = !ended) :
    (y.feed t).Balanced t.canEnd := by
  refine ⟨waits_feed h.waits t, ?_⟩
  have hoperand : t.isOperand = true → ended = false →
      depthFrom 0 (y.release t).released.reverse = .ok (y.stack.countP Token.isBinary + 1) := by
    rintro hoperand rfl
    simp only [release, List.reverse_cons]
    rw [depthFrom_append h.depth, depthFrom_cons (Token.depth_operand hoperand)]
    rfl
  cases ended with
  | false =>
    cases t with
    | literal b => exact hoperand rfl rfl
    | charClass c => exact hoperand rfl rfl
    | dot => exact hoperand rfl rfl
    | lparen => exact h.depth
    | op o => cases ht
    | rparen => cases ht
  | true =>
    cases t with
    | literal b => cases ht
    | charClass c => cases ht
    | dot => cases ht
    | lparen => cases ht
    | op o =>
      cases hunary : o.isUnary with
      | true =>
        rw [Token.canEnd_op, hunary]
        simp only [Yard.feed, hunary, if_true, release, List.reverse_cons]
        have hdepth := Token.depth_unary (t := .op o) (d := y.stack.countP Token.isBinary) hunary
        rw [depthFrom_append h.depth, Bool.toNat_true, depthFrom_cons hdepth]
        rfl
      | false =>
        have hbinary : (Token.op o).isBinary = true := by
          rw [Token.isBinary_op, hunary, Bool.not_false]
        rw [Token.canEnd_op, hunary, feed_eq_pushOperator hunary, pushOperator, List.countP_cons,
          hbinary, if_pos rfl]
        exact h.depth_release ne_lparen_of_yieldsTo
    | rparen =>
      have hdepth := h.depth_release (p := (· ≠ .lparen)) fun u => of_decide_eq_true
      rw [Yard.feed]
      rcases closeGroup_cases y with ⟨below, hdrop, hclose⟩ | ⟨hdrop, hclose⟩
      · rw [hdrop] at hdepth
        rw [hclose]
        exact hdepth
      · rw [hdrop] at hdepth
        rw [hclose]
        exact hdepth

/-- A balanced conversion that ends with a complete expression leaves exactly one. -/
theorem Balanced.depth_finish (h : y.Balanced true) : depthFrom 0 y.finish = .ok 1 := by
  have hbinary : ∀ t ∈ y.stack.filter (· ≠ .lparen), t.isBinary = true := by
    intro t ht
    obtain ⟨hstack, hne⟩ := List.mem_filter.mp ht
    exact (h.waits t hstack).resolve_right (of_decide_eq_true hne)
  have hcount : y.stack.countP Token.isBinary = (y.stack.filter (· ≠ .lparen)).length := by
    rw [← List.countP_eq_length_filter]
    refine List.countP_congr fun t ht => ⟨fun hbinary => ?_, fun hne => ?_⟩
    · refine decide_eq_true ?_
      rintro rfl
      cases hbinary
    · exact (h.waits t ht).resolve_right (of_decide_eq_true hne)
  have hdepth := h.depth
  rw [hcount, Bool.toNat_true] at hdepth
  rw [finish, depthFrom_append hdepth]
  exact depthFrom_binaries (d := 0) hbinary

end ByteRegex.Yard
