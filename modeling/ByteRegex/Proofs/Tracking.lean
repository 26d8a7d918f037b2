import ByteRegex.Proofs.Pairing
import Mathlib.Data.List.Chain
import Mathlib.Data.List.Induction

/-!
# A conversion with unbalanced parentheses and one without

A closing parenthesis that finds no group releases what waits, and an opening one that is never
closed keeps what waits out of reach. Without them, the same tokens are released in the end, but
some of them later or earlier. The two conversions are compared token by token: as long as every
operator makes up for what was released early, and would reach nothing below an opening
parenthesis that is never closed, both have released the same, but for the operators that a
closing parenthesis has just released, and the same waits in both, but for the opening
parentheses.
-/

namespace ByteRegex.Yard

variable {y z : Yard} {t x : Token} {ts done todo U L : List Token}

/-- Only binary operators and opening parentheses wait behind a stream. -/
theorem waits_run (ts : List Token) :
    ∀ w ∈ (run ts).stack, w.isBinary = true ∨ w = .lparen := by
  induction ts using List.reverseRecOn with
  | nil => exact fun w hw => absurd hw List.not_mem_nil
  | append_singleton ts t ih =>
    rw [run_concat]
    exact waits_feed ih t

/-- A closing parenthesis that finds no group leaves nothing to wait. -/
theorem stack_run_rparen (h : (Nesting.of ts).opened = 0) : (run (ts ++ [.rparen])).stack = [] := by
  have hcount : (run ts).stack.count .lparen = 0 :=
    (congrArg Nesting.opened (nesting_run ts)).trans h
  rw [run_concat, feed]
  rcases closeGroup_cases (run ts) with ⟨below, hdrop, -⟩ | ⟨-, hclose⟩
  · refine absurd ((List.dropWhile_sublist (· ≠ .lparen)).subset ?_) (List.count_eq_zero.mp hcount)
    rw [hdrop]
    exact List.mem_cons_self
  · rw [hclose]

/-- A token takes a part off the top of the stack and may wait there itself. As far as something is
left below, the parentheses above it go on to pair up by counting. -/
theorem exists_stack_feed (y : Yard) (t : Token) : ∃ popped pushed kept,
    y.stack = popped ++ kept ∧ (y.feed t).stack = pushed ++ kept ∧
      (pushed = [] ∨ pushed = [t]) ∧
        (kept ≠ [] → ∀ above : List Token,
          Nesting.feed ⟨(popped ++ above).count .lparen, 0⟩ t =
            ⟨(pushed ++ above).count .lparen, 0⟩) := by
  cases t with
  | lparen =>
    refine ⟨[], [.lparen], y.stack, rfl, rfl, .inr rfl, fun _ above => ?_⟩
    rw [List.singleton_append, List.count_cons_self]
    rfl
  | rparen =>
    rw [feed]
    rcases closeGroup_cases y with ⟨below, hdrop, hclose⟩ | ⟨-, hclose⟩
    · have hp : decide (Token.lparen ≠ .lparen) = false := rfl
      refine ⟨y.stack.takeWhile (· ≠ .lparen) ++ [.lparen], [], below, ?_, ?_, .inl rfl,
        fun _ above => ?_⟩
      · rw [List.append_assoc, List.singleton_append, ← hdrop, List.takeWhile_append_dropWhile]
      · rw [hclose, List.nil_append]
      · rw [List.append_assoc, List.singleton_append,
          count_takeWhile_append (p := (· ≠ .lparen)) hp, List.count_cons_self]
        rfl
    · refine ⟨y.stack, [], [], (List.append_nil _).symm, ?_, .inl rfl, fun h => absurd rfl h⟩
      rw [hclose, List.append_nil]
  | op o =>
    cases hunary : o.isUnary with
    | true =>
      refine ⟨[], [], y.stack, rfl, ?_, .inl rfl, fun _ above => rfl⟩
      rw [feed, hunary]
      rfl
    | false =>
      have hp : yieldsTo .lparen (.op o) = false := rfl
      refine ⟨y.stack.takeWhile (yieldsTo · (.op o)), [.op o],
        y.stack.dropWhile (yieldsTo · (.op o)), ?_, ?_, .inr rfl, fun _ above => ?_⟩
      · rw [List.takeWhile_append_dropWhile]
      · rw [feed_eq_pushOperator hunary, pushOperator, List.singleton_append]
      · rw [count_takeWhile_append (p := (yieldsTo · (.op o))) hp, List.singleton_append,
          List.count_cons_of_ne Token.noConfusion]
        rfl
  | _ => exact ⟨[], [], y.stack, rfl, rfl, .inl rfl, fun _ above => rfl⟩

/-- Whatever waits was read, and on top of what still waits below it: below the token that was read
last, the stack is part of what waited before. -/
theorem exists_of_stack (h : (run done).stack = U ++ x :: L) : ∃ b m, done = b ++ x :: m ∧
    Nesting.of m = ⟨U.count .lparen, 0⟩ ∧ (run (b ++ [x])).stack = x :: L := by
  induction done using List.reverseRecOn generalizing U with
  | nil =>
    cases U <;> cases h
  | append_singleton done t ih =>
    obtain ⟨popped, pushed, kept, hbefore, hbehind, hpushed, hpairs⟩ :=
      exists_stack_feed (run done) t
    have hearlier : ∀ above, U = pushed ++ above → kept = above ++ x :: L →
        ∃ b m, done ++ [t] = b ++ x :: m ∧ Nesting.of m = ⟨U.count .lparen, 0⟩ ∧
          (run (b ++ [x])).stack = x :: L := by
      rintro above rfl rfl
      rw [← List.append_assoc] at hbefore
      obtain ⟨b, m, rfl, hm, hb⟩ := ih hbefore
      refine ⟨b, m ++ [t], by rw [List.append_assoc, List.cons_append], ?_, hb⟩
      rw [Nesting.of_concat, hm]
      exact hpairs (List.append_ne_nil_of_right_ne_nil above (List.cons_ne_nil x L)) above
    have hstack := h
    rw [run_concat, hbehind] at hstack
    rcases hpushed with rfl | rfl
    · exact hearlier U rfl hstack
    · rcases U with - | ⟨v, U⟩
      · obtain ⟨rfl, -⟩ := List.cons.inj hstack
        exact ⟨done, [], rfl, rfl, h⟩
      · obtain ⟨rfl, hkept⟩ := List.cons.inj hstack
        exact hearlier U rfl hkept

/-- The stack without its opening parentheses, except for the given number of the topmost ones. -/
def sift : Nat → List Token → List Token
  | _, [] => []
  | 0, t :: below => if t = .lparen then sift 0 below else t :: sift 0 below
  | u + 1, t :: below => t :: sift (if t = .lparen then u else u + 1) below

variable {u : Nat} {p : Token → Bool} {stack below : List Token}

/-- A token that is no opening parenthesis is kept. -/
theorem sift_cons (h : t ≠ .lparen) (u : Nat) (below : List Token) :
    sift u (t :: below) = t :: sift u below := by
  cases u with
  | zero => rw [sift, if_neg h]
  | succ u => rw [sift, if_neg h]

/-- Above what is sifted, operators are kept. -/
theorem sift_append (h : ∀ w ∈ stack, w ≠ .lparen) (u : Nat) (below : List Token) :
    sift u (stack ++ below) = stack ++ sift u below := by
  induction stack with
  | nil => rfl
  | cons w rest ih =>
    have hrest := ih fun v hv => h v (List.mem_cons_of_mem w hv)
    rw [List.cons_append, sift_cons (h w List.mem_cons_self), hrest, List.cons_append]

/-- Where no group is open, all that waits is kept. -/
theorem sift_eq_self (h : .lparen ∉ stack) (u : Nat) : sift u stack = stack := by
  have hkept := sift_append (fun w hw (hlparen : w = .lparen) => h (hlparen ▸ hw)) u []
  rw [List.append_nil] at hkept
  rw [hkept]
  cases u <;> exact List.append_nil stack

/-- In the end no opening parenthesis is kept. -/
theorem sift_zero (stack : List Token) : sift 0 stack = stack.filter (· ≠ .lparen) := by
  induction stack with
  | nil => rfl
  | cons t rest ih =>
    rw [sift, List.filter_cons, ih]
    by_cases ht : t = .lparen
    · rw [if_pos ht, if_neg (by simpa using ht)]
    · rw [if_neg ht, if_pos (by simpa using ht)]

/-- A part of the stack that is released stands in front of the rest, sifted or not. -/
theorem sift_eq_append (hp : ∀ w, p w = true → w ≠ .lparen) (u : Nat) (stack : List Token) :
    sift u stack = stack.takeWhile p ++ sift u (stack.dropWhile p) := by
  rw [← sift_append fun w hw => hp w (List.mem_takeWhile_imp hw), List.takeWhile_append_dropWhile]

/-- A part of the stack that is released is the same part of the sifted stack, unless more could
be released there. -/
theorem split_sift (hp : ∀ w, p w = true → w ≠ .lparen)
    (h : (sift u (stack.dropWhile p)).takeWhile p = []) :
    (sift u stack).takeWhile p = stack.takeWhile p ∧
      (sift u stack).dropWhile p = sift u (stack.dropWhile p) := by
  have hyields : ∀ w ∈ stack.takeWhile p, p w = true := fun w hw => List.mem_takeWhile_imp hw
  have hrest := List.takeWhile_append_dropWhile (p := p) (l := sift u (stack.dropWhile p))
  rw [h, List.nil_append] at hrest
  rw [sift_eq_append hp, List.takeWhile_append_of_pos hyields,
    List.dropWhile_append_of_pos hyields, h, List.append_nil, hrest]
  exact ⟨rfl, rfl⟩

/-- What could be released below an opening parenthesis, but not above it, has one directly above
it. -/
theorem exists_below_lparen (h : ((stack.dropWhile p).filter (· ≠ .lparen)).takeWhile p ≠ []) :
    ∃ U v L, stack = U ++ .lparen :: v :: L ∧ p v = true := by
  have hgroup : ∀ below : List Token, (below.filter (· ≠ .lparen)).takeWhile p ≠ [] →
      ∃ U v L, .lparen :: below = U ++ .lparen :: v :: L ∧ p v = true := by
    intro below
    induction below with
    | nil => exact fun hbelow => absurd rfl hbelow
    | cons v below ih =>
      intro hbelow
      by_cases hv : v = .lparen
      · subst hv
        obtain ⟨U, w, L, hsplit, hw⟩ := ih hbelow
        exact ⟨.lparen :: U, w, L, congrArg (Token.lparen :: ·) hsplit, hw⟩
      · refine ⟨[], v, below, rfl, ?_⟩
        by_contra hno
        rw [List.filter_cons_of_pos (by simpa using hv), List.takeWhile_cons_of_neg hno] at hbelow
        exact hbelow rfl
  induction stack with
  | nil => exact absurd rfl h
  | cons t rest ih =>
    by_cases ht : p t = true
    · rw [List.dropWhile_cons_of_pos ht] at h
      obtain ⟨U, v, L, rfl, hv⟩ := ih h
      exact ⟨t :: U, v, L, rfl, hv⟩
    · rw [List.dropWhile_cons_of_neg ht] at h
      by_cases hparen : t = .lparen
      · subst hparen
        exact hgroup rest h
      · rw [List.filter_cons_of_pos (by simpa using hparen), List.takeWhile_cons_of_neg ht] at h
        exact absurd rfl h

/-- A conversion `z` without the unbalanced parentheses and a conversion `y` with them, where that
many groups are still to be closed. Some operators that still wait in `z` have been released in
`y`; otherwise the two differ in the opening parentheses that are never closed. -/
structure Tracks (ahead : List Token) (u : Nat) (y z : Yard) : Prop where
  /-- What `y` has released and `z` has not. -/
  released : y.released = ahead.reverse ++ z.released
  /-- What waits in `z`. -/
  stack : z.stack = ahead ++ sift u y.stack
  /-- Nothing waits where operators have been released early. -/
  drained : ahead ≠ [] → y.stack = []
  /-- What has been released early are operators. -/
  operators : ∀ w ∈ ahead, w.isBinary = true

/-- The operator releases what has been released early, and nothing from below an opening
parenthesis that is not there without the unbalanced ones. -/
structure Calm (ahead : List Token) (u : Nat) (stack : List Token) (o : Operator) : Prop where
  /-- What has been released early gives way to the operator. -/
  early : ∀ w ∈ ahead, o.precedence ≤ w.precedence
  /-- What stays gives way to it neither with the parentheses nor without. -/
  late : o.isUnary = false →
    (sift u (stack.dropWhile (yieldsTo · (.op o)))).takeWhile (yieldsTo · (.op o)) = []

namespace Tracks

variable {ahead : List Token} {o : Operator}

/-- A token that passes passes in both. -/
theorem release (h : Tracks [] u y z) (t : Token) : Tracks [] u (y.release t) (z.release t) where
  released := congrArg (t :: ·) h.released
  stack := h.stack
  drained := h.drained
  operators := h.operators

/-- A group that is closed is opened in both. -/
theorem openKept (h : Tracks [] u y z) :
    Tracks [] (u + 1) (y.feed .lparen) (z.feed .lparen) where
  released := h.released
  stack := congrArg (Token.lparen :: ·) h.stack
  drained hne := absurd rfl hne
  operators := h.operators

/-- A group that is never closed is opened in one of them only. -/
theorem openMissing (h : Tracks [] 0 y z) : Tracks [] 0 (y.feed .lparen) z where
  released := h.released
  stack := h.stack
  drained hne := absurd rfl hne
  operators := h.operators

/-- A group that was opened in both is closed in both. -/
theorem closeKept (h : Tracks [] (u + 1) y z) (hopen : .lparen ∈ y.stack) :
    Tracks [] u (y.feed .rparen) (z.feed .rparen) := by
  obtain ⟨hreleased, hstack, -, -⟩ := h
  rcases closeGroup_cases y with ⟨below, hdrop, hclose⟩ | ⟨hdrop, -⟩
  · have hinside : ∀ w ∈ y.stack.takeWhile (· ≠ .lparen), decide (w ≠ .lparen) = true :=
      fun w hw => List.mem_takeWhile_imp (p := (· ≠ Token.lparen)) hw
    have hsplit : z.stack = y.stack.takeWhile (· ≠ .lparen) ++ .lparen :: sift u below := by
      have hkept := sift_append (fun w hw => of_decide_eq_true (hinside w hw)) (u + 1)
        (.lparen :: below)
      rw [← hdrop, List.takeWhile_append_dropWhile] at hkept
      rw [hstack, List.nil_append, hkept, hdrop]
      rfl
    have htake : z.stack.takeWhile (· ≠ .lparen) = y.stack.takeWhile (· ≠ .lparen) := by
      rw [hsplit, List.takeWhile_append_of_pos hinside]
      exact List.append_nil _
    have hbelow : z.stack.dropWhile (· ≠ .lparen) = .lparen :: sift u below := by
      rw [hsplit]
      exact List.dropWhile_append_of_pos hinside
    rw [feed, feed, hclose, closeGroup_of_cons hbelow, htake]
    exact ⟨congrArg _ hreleased, rfl, fun hne => absurd rfl hne,
      fun w hw => absurd hw List.not_mem_nil⟩
  · rw [List.dropWhile_eq_nil_iff] at hdrop
    exact absurd rfl (of_decide_eq_true (hdrop .lparen hopen))

/-- A closing parenthesis that finds no group releases early what waits. -/
theorem closeMissing (h : Tracks ahead (u + 1) y z) (hwaits : ∀ w ∈ y.stack, w.isBinary = true) :
    Tracks (ahead ++ y.stack) u (y.feed .rparen) z := by
  obtain ⟨hreleased, hstack, -, hahead⟩ := h
  have hinside : ∀ w ∈ y.stack, decide (w ≠ .lparen) = true := by
    intro w hw
    refine decide_eq_true ?_
    rintro rfl
    cases hwaits _ hw
  have hdrop : y.stack.dropWhile (· ≠ .lparen) = [] := List.dropWhile_eq_nil_iff.mpr hinside
  have htake : y.stack.takeWhile (· ≠ .lparen) = y.stack := List.takeWhile_eq_self_iff.mpr hinside
  have hkept : sift (u + 1) y.stack = y.stack :=
    sift_eq_self (fun hmem => of_decide_eq_true (hinside _ hmem) rfl) (u + 1)
  rw [feed, closeGroup_of_nil hdrop, htake, hreleased]
  refine ⟨?_, ?_, fun _ => rfl, fun w hw => ?_⟩
  · rw [List.reverse_append, List.append_assoc]
  · rw [hstack, hkept]
    exact (List.append_nil _).symm
  · rcases List.mem_append.mp hw with hw | hw
    · exact hahead w hw
    · exact hwaits w hw

/-- A binary operator that is calm makes up for what was released early. -/
theorem binary (h : Tracks ahead u y z) (ho : o.isUnary = false)
    (hcalm : Calm ahead u y.stack o) :
    Tracks [] u (y.feed (.op o)) (z.feed (.op o)) := by
  obtain ⟨hreleased, hstack, hdrained, hahead⟩ := h
  have hearly : ∀ w ∈ ahead, yieldsTo w (.op o) = true := by
    intro w hw
    exact yieldsTo_iff.mpr ⟨Token.isOperator_of_isBinary (hahead w hw), hcalm.early w hw⟩
  obtain ⟨htake, hdrop⟩ := split_sift ne_lparen_of_yieldsTo (hcalm.late ho)
  have hz : z.feed (.op o) =
      ⟨(ahead ++ y.stack.takeWhile (yieldsTo · (.op o))).reverse ++ z.released,
        .op o :: sift u (y.stack.dropWhile (yieldsTo · (.op o))), z.unmatched⟩ := by
    rw [feed_eq_pushOperator ho, pushOperator, hstack, List.takeWhile_append_of_pos hearly,
      List.dropWhile_append_of_pos hearly, htake, hdrop]
  rw [hz, feed_eq_pushOperator ho, pushOperator, hreleased]
  refine ⟨?_, ?_, fun hne => absurd rfl hne, fun w hw => absurd hw List.not_mem_nil⟩
  · rw [List.reverse_append, List.append_assoc]
    rfl
  · rw [sift_cons Token.noConfusion]
    rfl

/-- In the end both have released the same. -/
theorem finish_eq (h : Tracks ahead 0 y z) : y.finish = z.finish := by
  obtain ⟨hreleased, hstack, -, hahead⟩ := h
  have hkept : ahead.filter (· ≠ .lparen) = ahead := by
    refine List.filter_eq_self.mpr fun w hw => decide_eq_true ?_
    rintro rfl
    cases hahead _ hw
  rw [finish, finish, hreleased, hstack, sift_zero, List.filter_append, hkept, List.filter_filter,
    List.reverse_append, List.reverse_reverse, List.append_assoc]
  simp only [Bool.and_self]

end Tracks

/-- What was released stays released. -/
theorem exists_released (y : Yard) (ts : List Token) :
    ∃ out, (ts.foldl feed y).released = out ++ y.released := by
  induction ts generalizing y with
  | nil => exact ⟨[], rfl⟩
  | cons t rest ih =>
    have hfeed : ∃ out, (y.feed t).released = out ++ y.released := by
      cases t with
      | lparen => exact ⟨[], rfl⟩
      | rparen =>
        rw [feed]
        rcases closeGroup_cases y with ⟨below, -, hclose⟩ | ⟨-, hclose⟩
        · rw [hclose]
          exact ⟨_, rfl⟩
        · rw [hclose]
          exact ⟨_, rfl⟩
      | op o =>
        rw [feed]
        cases o.isUnary with
        | true => exact ⟨[.op o], rfl⟩
        | false => exact ⟨_, rfl⟩
      | literal b => exact ⟨[.literal b], rfl⟩
      | charClass c => exact ⟨[.charClass c], rfl⟩
      | dot => exact ⟨[.dot], rfl⟩
    obtain ⟨first, hfirst⟩ := hfeed
    obtain ⟨out, hout⟩ := ih (y.feed t)
    exact ⟨out ++ first, by rw [List.foldl_cons, hout, hfirst, List.append_assoc]⟩

/-- What was released comes out first. -/
theorem exists_finish (y : Yard) (ts : List Token) :
    ∃ more, (ts.foldl feed y).finish = y.released.reverse ++ more := by
  obtain ⟨out, hout⟩ := exists_released y ts
  rw [finish, hout, List.reverse_append, List.append_assoc]
  exact ⟨_, rfl⟩

/-- Where an expression is expected, an operand comes out next. -/
theorem exists_finish_operand (h : Fits false ts) (y : Yard) :
    ∃ x more, x.isOperand = true ∧ (ts.foldl feed y).finish = y.released.reverse ++ x :: more := by
  induction ts generalizing y with
  | nil => cases h
  | cons t rest ih =>
    obtain ⟨hbegin, hrest⟩ := h
    have hoperand : t.isOperand = true → y.feed t = y.release t →
        ∃ x more, x.isOperand = true ∧
          ((t :: rest).foldl feed y).finish = y.released.reverse ++ x :: more := by
      intro ht hfeed
      obtain ⟨more, hmore⟩ := exists_finish (y.release t) rest
      refine ⟨t, more, ht, ?_⟩
      rw [List.foldl_cons, hfeed, hmore, release, List.reverse_cons, List.append_assoc]
      rfl
    cases t with
    | lparen => exact ih hrest (y.feed .lparen)
    | rparen => cases hbegin
    | op o => cases hbegin
    | _ => exact hoperand rfl rfl

/-- Two rows that begin with tokens of a kind, and go on with one that is not of that kind, begin
with the same ones. -/
theorem eq_of_append_cons {q : Token → Bool} {A B more more' : List Token} {x x' : Token}
    (hA : ∀ w ∈ A, q w = true) (hB : ∀ w ∈ B, q w = true) (hx : q x = false)
    (hx' : q x' = false) (h : A ++ x :: more = B ++ x' :: more') : A = B := by
  have htake := congrArg (List.takeWhile q) h
  rwa [List.takeWhile_append_of_pos hA, List.takeWhile_append_of_pos hB,
    List.takeWhile_cons_of_neg (by rw [hx]; decide),
    List.takeWhile_cons_of_neg (by rw [hx']; decide), List.append_nil, List.append_nil] at htake

/-- What gives way to an operator is a binary operator itself. -/
theorem isBinary_of_mem_takeWhile (hstack : ∀ w ∈ stack, w.isBinary = true ∨ w = .lparen) :
    ∀ w ∈ stack.takeWhile (yieldsTo · t), w.isBinary = true := by
  intro w hw
  have hyields := List.mem_takeWhile_imp (p := (yieldsTo · t)) hw
  have hwaits := hstack w ((List.takeWhile_sublist _).subset hw)
  exact hwaits.resolve_right (ne_lparen_of_yieldsTo w hyields)

/-- If the same comes out in the end of both conversions, a repetition is calm: it comes out at once
in both, so nothing was released early. -/
theorem Tracks.calm_of_unary {ahead rest rest' : List Token} {o : Operator}
    (h : Tracks ahead u y z) (ho : o.isUnary = true)
    (hfinish : ((Token.op o :: rest).foldl feed y).finish =
      ((Token.op o :: rest').foldl feed z).finish) : Calm ahead u y.stack o := by
  have hnotBinary : (Token.op o).isBinary = false := by
    rw [Token.isBinary_op, ho, Bool.not_true]
  have hfeed : ∀ v : Yard, v.feed (.op o) = v.release (.op o) := fun v => if_pos ho
  obtain ⟨more, hmore⟩ := exists_finish (y.release (.op o)) rest
  obtain ⟨more', hmore'⟩ := exists_finish (z.release (.op o)) rest'
  rw [List.foldl_cons, List.foldl_cons, hfeed, hfeed, hmore, hmore', Yard.release, Yard.release,
    h.released] at hfinish
  simp only [List.reverse_cons, List.reverse_append, List.reverse_reverse, List.append_assoc,
    List.append_cancel_left_eq, List.singleton_append] at hfinish
  have hnone : ahead = [] := eq_of_append_cons (B := []) h.operators
    (fun w hw => absurd hw List.not_mem_nil) hnotBinary hnotBinary hfinish
  refine ⟨fun w hw => ?_, fun hbinary => ?_⟩
  · rw [hnone] at hw
    exact absurd hw List.not_mem_nil
  · rw [ho] at hbinary
    cases hbinary

/-- An operator is calm if what was released early and what gives way to it in the first conversion
are together what gives way to it in the second one. -/
theorem Tracks.calm_of_yields {ahead : List Token} {o : Operator} (h : Tracks ahead u y z)
    (hsame : ahead ++ y.stack.takeWhile (yieldsTo · (.op o)) =
      z.stack.takeWhile (yieldsTo · (.op o))) : Calm ahead u y.stack o := by
  have hearly : ∀ w ∈ ahead, yieldsTo w (.op o) = true := by
    intro w hw
    refine List.mem_takeWhile_imp (p := (yieldsTo · (.op o))) (l := z.stack) ?_
    rw [← hsame]
    exact List.mem_append_left _ hw
  have hall : ∀ w ∈ y.stack.takeWhile (yieldsTo · (.op o)), yieldsTo w (.op o) = true :=
    fun w hw => List.mem_takeWhile_imp (p := (yieldsTo · (.op o))) hw
  refine ⟨fun w hw => (yieldsTo_iff.mp (hearly w hw)).right, fun _ => ?_⟩
  rw [h.stack, List.takeWhile_append_of_pos hearly,
    sift_eq_append (p := (yieldsTo · (.op o))) ne_lparen_of_yieldsTo,
    List.takeWhile_append_of_pos hall, List.append_cancel_left_eq] at hsame
  exact List.append_cancel_left ((List.append_nil _).trans hsame).symm

/-- If the same comes out in the end of both conversions, a binary operator is calm with everything
where it is expected behind it: an operand comes out next in both, so the operators in front of that
are the same. -/
theorem Tracks.calm_of_binary {ahead rest rest' : List Token} {o : Operator}
    (h : Tracks ahead u y z) (ho : o.isUnary = false)
    (hy : ∀ w ∈ y.stack, w.isBinary = true ∨ w = .lparen)
    (hz : ∀ w ∈ z.stack, w.isBinary = true ∨ w = .lparen)
    (hrest : Fits false rest) (hrest' : Fits false rest')
    (hfinish : ((Token.op o :: rest).foldl feed y).finish =
      ((Token.op o :: rest').foldl feed z).finish) : Calm ahead u y.stack o := by
  have hnotBinary : ∀ x : Token, x.isOperand = true → x.isBinary = false := by
    intro x hx
    cases x with
    | op o => cases hx
    | _ => rfl
  obtain ⟨x, more, hx, hmore⟩ := exists_finish_operand hrest (y.pushOperator (.op o))
  obtain ⟨x', more', hx', hmore'⟩ := exists_finish_operand hrest' (z.pushOperator (.op o))
  rw [List.foldl_cons, List.foldl_cons, feed_eq_pushOperator ho, feed_eq_pushOperator ho, hmore,
    hmore', pushOperator, pushOperator, h.released] at hfinish
  simp only [List.reverse_append, List.reverse_reverse, List.append_assoc,
    List.append_cancel_left_eq] at hfinish
  rw [← List.append_assoc] at hfinish
  have hfront : ∀ w ∈ ahead ++ y.stack.takeWhile (yieldsTo · (.op o)), w.isBinary = true := by
    intro w hw
    rcases List.mem_append.mp hw with hw | hw
    · exact h.operators w hw
    · exact isBinary_of_mem_takeWhile hy w hw
  exact h.calm_of_yields (eq_of_append_cons hfront (isBinary_of_mem_takeWhile hz)
    (hnotBinary x hx) (hnotBinary x' hx') hfinish)

/-- If the same comes out in the end of both conversions, an operator with everything where it is
expected behind it is calm. -/
theorem Tracks.calm {ahead rest rest' : List Token} {o : Operator} (h : Tracks ahead u y z)
    (hy : ∀ w ∈ y.stack, w.isBinary = true ∨ w = .lparen)
    (hz : ∀ w ∈ z.stack, w.isBinary = true ∨ w = .lparen)
    (hrest : Fits (Token.op o).canEnd rest) (hrest' : Fits (Token.op o).canEnd rest')
    (hfinish : ((Token.op o :: rest).foldl feed y).finish =
      ((Token.op o :: rest').foldl feed z).finish) : Calm ahead u y.stack o := by
  cases ho : o.isUnary with
  | true => exact h.calm_of_unary ho hfinish
  | false =>
    rw [Token.canEnd_op, ho] at hrest hrest'
    exact h.calm_of_binary ho hy hz hrest hrest' hfinish

/-- Of two operators next to each other on a stack, the upper one binds tighter. -/
def Ordered (stack : List Token) : Prop :=
  stack.IsChain fun v w => v.isOperator = true → w.isOperator = true → w.precedence < v.precedence

/-- An operator is put on top of weaker ones. -/
theorem ordered_feed (h : Ordered y.stack) (t : Token) : Ordered (y.feed t).stack := by
  have hdropped : ∀ p : Token → Bool, Ordered (y.stack.dropWhile p) :=
    fun p => h.suffix (List.dropWhile_suffix p)
  cases t with
  | lparen => exact List.isChain_cons.mpr ⟨fun w _ hop => Bool.noConfusion hop, h⟩
  | rparen =>
    rw [feed]
    rcases closeGroup_cases y with ⟨below, hdrop, hclose⟩ | ⟨-, hclose⟩
    · have hbelow := hdropped (· ≠ .lparen)
      rw [hdrop] at hbelow
      rw [hclose]
      exact hbelow.tail
    · rw [hclose]
      exact .nil
  | op o =>
    rw [feed]
    cases o.isUnary with
    | true => exact h
    | false =>
      refine List.isChain_cons.mpr ⟨fun w hw _ hop => ?_, hdropped _⟩
      have hhead := List.head?_dropWhile_not (yieldsTo · (.op o)) y.stack
      rw [Option.mem_def.mp hw] at hhead
      have hstays : yieldsTo w (.op o) = false := hhead
      refine Nat.lt_of_not_le fun hle => ?_
      rw [yieldsTo_iff.mpr ⟨hop, hle⟩] at hstays
      cases hstays
  | _ => exact h

/-- What waits behind a stream is ordered. -/
theorem ordered_run (ts : List Token) : Ordered (run ts).stack := by
  induction ts using List.reverseRecOn with
  | nil => exact .nil
  | append_singleton ts t ih =>
    rw [run_concat]
    exact ordered_feed ih t

/-- Operators above another one bind tighter. -/
theorem Ordered.lt (h : Ordered (stack ++ x :: below)) (hstack : ∀ w ∈ stack, w.isOperator = true)
    (hx : x.isOperator = true) : ∀ w ∈ stack, x.precedence < w.precedence := by
  induction stack with
  | nil => exact fun w hw => absurd hw List.not_mem_nil
  | cons v rest ih =>
    obtain ⟨hhead, hrest⟩ := List.isChain_cons.mp h
    have hbelow := ih hrest fun w hw => hstack w (List.mem_cons_of_mem v hw)
    have hv := hstack v List.mem_cons_self
    intro w hw
    rcases List.mem_cons.mp hw with rfl | hw
    · cases rest with
      | nil => exact hhead x rfl hv hx
      | cons u rest =>
        have hu := hstack u (List.mem_cons_of_mem w List.mem_cons_self)
        exact Nat.lt_trans (hbelow u List.mem_cons_self) (hhead u rfl hv hu)
    · exact hbelow w hw

/-- An operator that is calm binds tighter than any that waits directly below an opening
parenthesis that is never closed. If one of them gave way, the topmost operator that stays, which
binds tighter than it, would give way too. -/
theorem Tracks.lt_of_calm {o w : Operator} (h : Tracks [] 0 y z) (hz : Ordered z.stack)
    (hy : ∀ v ∈ y.stack, v.isBinary = true ∨ v = .lparen) (hcalm : Calm [] 0 y.stack o)
    (ho : o.isUnary = false) (hstack : y.stack = U ++ .lparen :: .op w :: L) :
    w.precedence < o.precedence := by
  refine Nat.lt_of_not_le fun hle => ?_
  have hp : yieldsTo .lparen (.op o) = false := rfl
  have hw : yieldsTo (.op w) (.op o) = true := decide_eq_true hle
  have hlate := hcalm.late ho
  rw [hstack, dropWhile_append_lparen hp, sift_zero, List.filter_append] at hlate
  have hrest : (Token.lparen :: .op w :: L).filter (· ≠ .lparen) =
      .op w :: L.filter (· ≠ .lparen) := rfl
  rw [hrest] at hlate
  have hoperators : ∀ v ∈ (U.dropWhile (yieldsTo · (.op o))).filter (· ≠ .lparen),
      v.isOperator = true := by
    intro v hv
    obtain ⟨hmem, hne⟩ := List.mem_filter.mp hv
    refine Token.isOperator_of_isBinary ((hy v ?_).resolve_right (of_decide_eq_true hne))
    rw [hstack]
    exact List.mem_append_left _ ((List.dropWhile_sublist _).subset hmem)
  have hordered : Ordered ((U.dropWhile (yieldsTo · (.op o))).filter (· ≠ .lparen) ++
      .op w :: L.filter (· ≠ .lparen)) := by
    refine hz.suffix ?_
    rw [h.stack, List.nil_append, sift_zero, hstack, List.filter_append, hrest]
    refine ⟨(U.takeWhile (yieldsTo · (.op o))).filter (· ≠ .lparen), ?_⟩
    rw [← List.append_assoc, ← List.filter_append, List.takeWhile_append_dropWhile]
  have htop := hordered.lt hoperators rfl
  generalize (U.dropWhile (yieldsTo · (.op o))).filter (· ≠ .lparen) = stays at *
  cases stays with
  | nil =>
    rw [List.nil_append, List.takeWhile_cons_of_pos (p := (yieldsTo · (Token.op o))) hw] at hlate
    cases hlate
  | cons v stays =>
    have hv : yieldsTo v (.op o) = true := by
      have hlt := htop v List.mem_cons_self
      exact yieldsTo_iff.mpr
        ⟨hoperators v List.mem_cons_self, Nat.le_trans hle (Nat.le_of_lt hlt)⟩
    rw [List.cons_append, List.takeWhile_cons_of_pos (p := (yieldsTo · (Token.op o))) hv] at hlate
    cases hlate

/-- Below all groups an operator waits that binds at most as tight as the given strength. -/
def Weak (k : Nat) (waiting : List Token) : Prop :=
  ∃ U v L, waiting = U ++ v :: L ∧ .lparen ∉ L ∧ v.isBinary = true ∧ v.precedence ≤ k

namespace Weak

variable {k : Nat} {ahead waiting : List Token} {o : Operator}

/-- Opening a group changes nothing below it. -/
theorem cons (h : Weak k waiting) (t : Token) : Weak k (t :: waiting) := by
  obtain ⟨U, v, L, rfl, hL, hbinary, hv⟩ := h
  exact ⟨t :: U, v, L, rfl, hL, hbinary, hv⟩

/-- Closing a group changes nothing below it. -/
theorem closeGroup (h : Weak k y.stack) (hopen : .lparen ∈ y.stack) :
    Weak k (y.feed .rparen).stack := by
  obtain ⟨U, v, L, hstack, hL, hbinary, hv⟩ := h
  have hsplit := List.takeWhile_append_dropWhile (p := (· ≠ Token.lparen)) (l := y.stack)
  rw [feed]
  rcases closeGroup_cases y with ⟨below, hdrop, hclose⟩ | ⟨hdrop, -⟩
  · rw [hdrop, hstack] at hsplit
    rw [hclose]
    rcases List.append_eq_append_iff.mp hsplit with ⟨V, -, hV⟩ | ⟨V, -, hV⟩
    · rcases V with - | ⟨w, V⟩
      · obtain ⟨rfl, -⟩ := List.cons.inj hV
        cases hbinary
      · obtain ⟨-, rfl⟩ := List.cons.inj hV
        exact ⟨V, v, L, rfl, hL, hbinary, hv⟩
    · rcases V with - | ⟨w, V⟩
      · obtain ⟨rfl, -⟩ := List.cons.inj hV
        cases hbinary
      · obtain ⟨-, rfl⟩ := List.cons.inj hV
        exact absurd (List.mem_append_right V List.mem_cons_self) hL
  · rw [List.dropWhile_eq_nil_iff] at hdrop
    exact absurd rfl (of_decide_eq_true (hdrop .lparen hopen))

/-- An operator that is calm is no stronger than what it releases. -/
theorem binary (h : Weak k (ahead ++ y.stack)) (ho : o.isUnary = false)
    (hdrained : ahead ≠ [] → y.stack = []) (hearly : ∀ w ∈ ahead, o.precedence ≤ w.precedence) :
    Weak k (y.feed (.op o)).stack := by
  obtain ⟨U, v, L, hstack, hL, hbinary, hv⟩ := h
  have hobinary : (Token.op o).isBinary = true := by rw [Token.isBinary_op, ho, Bool.not_false]
  rw [feed_eq_pushOperator ho, pushOperator]
  cases ahead with
  | cons w ahead =>
    have hnone := hdrained (List.cons_ne_nil w ahead)
    have hmem : v ∈ w :: ahead := by
      rw [hnone, List.append_nil] at hstack
      rw [hstack]
      exact List.mem_append_right U List.mem_cons_self
    rw [hnone]
    exact ⟨[], .op o, [], rfl, List.not_mem_nil, hobinary, Nat.le_trans (hearly v hmem) hv⟩
  | nil =>
    have hsplit := List.takeWhile_append_dropWhile (p := (yieldsTo · (.op o))) (l := y.stack)
    rcases List.append_eq_append_iff.mp (hsplit.trans hstack) with ⟨V, -, hV⟩ | ⟨V, hU, hV⟩
    · rw [hV]
      exact ⟨.op o :: V, v, L, rfl, hL, hbinary, hv⟩
    · rcases V with - | ⟨w, V⟩
      · rw [List.nil_append] at hV
        rw [← hV]
        exact ⟨[.op o], v, L, rfl, hL, hbinary, hv⟩
      · obtain ⟨rfl, hbelow⟩ := List.cons.inj hV
        have hmem : v ∈ y.stack.takeWhile (yieldsTo · (.op o)) := by
          rw [hU]
          exact List.mem_append_right U List.mem_cons_self
        have hyields : yieldsTo v (.op o) = true :=
          List.mem_takeWhile_imp (p := (yieldsTo · (.op o))) hmem
        have hle := (yieldsTo_iff.mp hyields).right
        refine ⟨[], .op o, _, rfl, fun hmem => hL ?_, hobinary, Nat.le_trans hle hv⟩
        rw [hbelow]
        exact List.mem_append_right V hmem

end Weak

end ByteRegex.Yard
