import ByteRegex.Proofs.Tracking

/-!
# What waits on the yard's stack

Opening parentheses cut the stack into groups. Within a group the operators bind tighter from the
bottom up, because an operator is put only on top of weaker ones, whatever was read before and
however the parentheses are balanced. There are two strengths of binary operators, so a group holds
at most an alternation with a concatenation above it, and the depth of the stack is bounded by the
number of groups that are open.
-/

namespace ByteRegex

/-- The binary operators are the alternation and the concatenation. -/
theorem Token.eq_of_isBinary {t : Token} (h : t.isBinary = true) :
    t = .op .alt ∨ t = .op .concat := by
  cases t with
  | op o =>
    cases o with
    | alt => exact .inl rfl
    | concat => exact .inr rfl
    | _ => cases h
  | _ => cases h

/-- A concatenation binds tighter than an alternation, and there is nothing between or beyond. -/
theorem Token.precedence_lt_iff {v w : Token} (hv : v.isBinary = true) (hw : w.isBinary = true) :
    v.precedence < w.precedence ↔ v = .op .alt ∧ w = .op .concat := by
  rcases eq_of_isBinary hv with rfl | rfl <;> rcases eq_of_isBinary hw with rfl | rfl <;> decide

namespace Yard

variable {stack group : List Token}

/-- What a group on the stack may hold, from the bottom up. -/
def layers : List (List Token) := [[], [.op .alt], [.op .concat], [.op .alt, .op .concat]]

/-- On an ordered stack, operators without a parenthesis between them bind tighter from the bottom
up. -/
theorem Ordered.pairwise (h : Ordered stack) (hgroup : group <:+: stack.reverse)
    (hoperators : ∀ w ∈ group, w.isOperator = true) :
    group.Pairwise fun v w => v.precedence < w.precedence := by
  obtain ⟨below, above, hsplit⟩ := hgroup
  have hwhole := List.isChain_reverse.mpr h
  rw [← hsplit] at hwhole
  have hchain := (List.isChain_append.mp (List.isChain_append.mp hwhole).left).right.left
  have hincreasing : group.IsChain fun v w => v.precedence < w.precedence :=
    hchain.imp_of_mem_imp fun v w hv hw hlt => hlt (hoperators w hw) (hoperators v hv)
  exact List.pairwise_map.mp (List.isChain_iff_pairwise.mp ((List.isChain_map _).mpr hincreasing))

/-- Binary operators that bind tighter from the bottom up are at most an alternation and a
concatenation above it, because nothing binds tighter than a concatenation. -/
theorem mem_layers (hbinary : ∀ w ∈ group, w.isBinary = true)
    (h : group.Pairwise fun v w => v.precedence < w.precedence) : group ∈ layers := by
  rcases group with - | ⟨v, - | ⟨w, rest⟩⟩
  · decide
  · rcases Token.eq_of_isBinary (hbinary v List.mem_cons_self) with rfl | rfl <;> decide
  · have hw : w.isBinary = true := hbinary w (List.mem_cons_of_mem v List.mem_cons_self)
    obtain ⟨hv, habove⟩ := List.pairwise_cons.mp h
    obtain ⟨rfl, rfl⟩ := (Token.precedence_lt_iff (hbinary v List.mem_cons_self) hw).mp
      (hv w List.mem_cons_self)
    cases rest with
    | nil => decide
    | cons x rest =>
      have hx := hbinary x (List.mem_cons_of_mem _ (List.mem_cons_of_mem _ List.mem_cons_self))
      have hlt := (List.pairwise_cons.mp habove).left x List.mem_cons_self
      obtain ⟨heq, -⟩ := (Token.precedence_lt_iff hw hx).mp hlt
      cases heq

/-- When no group holds more than two operators, the depth of the stack is bounded by the number of
its parentheses. -/
theorem length_le_of_groups
    (h : ∀ group, group <:+: stack → .lparen ∉ group → group.length ≤ 2) :
    stack.length ≤ 3 * stack.count .lparen + 2 := by
  generalize hcount : stack.count .lparen = opened
  induction opened generalizing stack with
  | zero => exact h stack List.infix_rfl (List.count_eq_zero.mp hcount)
  | succ opened ih =>
    have hopen : .lparen ∈ stack := List.count_pos_iff.mp (by omega)
    obtain ⟨top, below, rfl, htop⟩ := List.eq_append_cons_of_mem hopen
    have hlower : below.length ≤ 3 * opened + 2 := by
      refine ih (fun group hgroup => h group (hgroup.trans ?_)) ?_
      · exact (List.suffix_cons .lparen below).isInfix.trans (List.suffix_append ..).isInfix
      · rw [List.count_append, List.count_eq_zero.mpr htop, List.count_cons_self] at hcount
        omega
    have hupper := h top (List.prefix_append ..).isInfix htop
    rw [List.length_append, List.length_cons]
    omega

/-- What waits between two parentheses is one of the layers and binds tighter from the bottom up,
behind every stream. -/
theorem group_of_run (ts : List Token) (hgroup : group <:+: (run ts).stack.reverse)
    (hopen : .lparen ∉ group) :
    group ∈ layers ∧ group.Pairwise fun v w => v.precedence < w.precedence := by
  have hbinary : ∀ w ∈ group, w.isBinary = true := by
    intro w hw
    refine (waits_run ts w (List.mem_reverse.mp (hgroup.subset hw))).resolve_right ?_
    rintro rfl
    exact hopen hw
  have hincreasing := (ordered_run ts).pairwise hgroup
    fun w hw => Token.isOperator_of_isBinary (hbinary w hw)
  exact ⟨mem_layers hbinary hincreasing, hincreasing⟩

/-- The stack is layered by binding strength. Wherever the reading of a stream has got to, only
opening parentheses, alternations and concatenations wait, and every stretch of the stack that has
no parenthesis, so each longest one too, is one of the four layers, with strength strictly growing
from the bottom up. Hence at most two operators wait for each group that is open and two outside of
all groups. -/
theorem stack_layered (ts : List Token) (i : Nat) :
    (∀ w ∈ (run (ts.take i)).stack, w = .lparen ∨ w = .op .alt ∨ w = .op .concat) ∧
    (∀ group, group <:+: (run (ts.take i)).stack.reverse → .lparen ∉ group →
      group ∈ layers ∧ group.Pairwise fun v w => v.precedence < w.precedence) ∧
    (run (ts.take i)).stack.length ≤ 3 * (Nesting.of (ts.take i)).opened + 2 := by
  refine ⟨fun w hw => ?_, fun group => group_of_run (ts.take i), ?_⟩
  · rcases waits_run (ts.take i) w hw with hbinary | rfl
    · exact .inr (Token.eq_of_isBinary hbinary)
    · exact .inl rfl
  · have hopened : (run (ts.take i)).stack.count .lparen = (Nesting.of (ts.take i)).opened :=
      congrArg Nesting.opened (nesting_run (ts.take i))
    rw [← hopened]
    refine length_le_of_groups fun group hgroup hopen => ?_
    have hlayer := (group_of_run (ts.take i) (List.reverse_infix.mpr hgroup)
      (mt List.mem_reverse.mp hopen)).left
    rw [← List.length_reverse]
    exact (by decide : ∀ g ∈ layers, g.length ≤ 2) _ hlayer

/-- Behind `a|b(c|d`, with concatenation made explicit and one more to come, as many operators wait
as can. -/
example : (run [.literal 0x61, .op .alt, .literal 0x62, .op .concat, .lparen, .literal 0x63,
      .op .alt, .literal 0x64, .op .concat]).stack =
    [.op .concat, .op .alt, .lparen, .op .concat, .op .alt] := by
  decide

end Yard

end ByteRegex
