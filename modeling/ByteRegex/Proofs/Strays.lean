import ByteRegex.Pattern
import ByteRegex.Proofs.Tracking

/-!
# When unbalanced parentheses are ignored

An unmatched closing parenthesis groups everything in front of it, and an opening one that is never
closed groups everything behind it. In a stream that makes one expression this makes no difference
exactly when each of these groups is one without parentheses too: the operator behind the closing
parenthesis must bind no tighter than any operator in front of it, and the operator in front of the
opening parenthesis must bind weaker than any operator behind it, where operators in other groups
do not count. An unbalanced parenthesis is ignored there and nowhere else.
-/

namespace ByteRegex

variable {done todo rest ahead front ts : List Token} {t : Token} {o : Operator}

/-- Every unbalanced parenthesis groups what is a group without it. -/
structure Redundant (ts : List Token) : Prop where
  /-- The operator behind an unmatched closing parenthesis binds no tighter than any operator in
  front of the parenthesis that is outside of groups. -/
  closing : ∀ b w m o a, ts = b ++ .op w :: m ++ .rparen :: .op o :: a →
    (Nesting.of b).opened = 0 → (Nesting.of (b ++ .op w :: m)).opened = 0 →
      o.precedence ≤ w.precedence
  /-- The operator in front of an opening parenthesis that is never closed binds weaker than any
  operator behind the parenthesis that is outside of groups. -/
  opening : ∀ b w m o a, ts = b ++ .op w :: .lparen :: m ++ .op o :: a →
    (Nesting.of (m ++ .op o :: a)).unmatched = 0 → (Nesting.of a).unmatched = 0 →
      w.precedence < o.precedence

/-- A binary operator binds weaker than a repetition. -/
theorem Token.precedence_lt (ht : t.isBinary = true) (ho : o.isUnary = true) :
    t.precedence < o.precedence := by
  cases t with
  | op w =>
    rw [isBinary_op, Bool.not_eq_true'] at ht
    revert ht ho
    cases w <;> cases o <;> decide
  | _ => cases ht

/-- A stream in the middle of both conversions, with its unbalanced parentheses and without: `front`
is what is left of the part that has been read, and `ahead` has been released early. -/
structure Snapshot (done todo ahead front : List Token) : Prop where
  /-- What is left of the stream. -/
  kept : paired (done ++ todo) = front ++ pairedFrom (Nesting.of done) todo
  /-- The conversions have kept in step. -/
  tracks : Yard.Tracks ahead (Nesting.of todo).unmatched (Yard.run done) (Yard.run front)
  /-- What was released early was read in front of an unmatched closing parenthesis, outside of
  groups. -/
  early : ∀ w ∈ ahead, ∃ b m, done = b ++ w :: m ++ [.rparen] ∧ (Nesting.of b).opened = 0 ∧
    (Nesting.of (b ++ w :: m)).opened = 0
  /-- Of every operator outside of groups, one that binds no tighter still waits or was released
  early. -/
  weak : ∀ b w m, done = b ++ .op w :: m → w.isUnary = false → (Nesting.of b).opened = 0 →
    Yard.Weak w.precedence (ahead ++ (Yard.run done).stack)

namespace Snapshot

/-- Nothing has been read. -/
theorem start (ts : List Token) : Snapshot [] ts [] [] where
  kept := rfl
  tracks := by
    refine ⟨rfl, ?_, fun hne => absurd rfl hne, fun w hw => absurd hw List.not_mem_nil⟩
    cases (Nesting.of ts).unmatched <;> rfl
  early w hw := absurd hw List.not_mem_nil
  weak b w m h := by cases b <;> cases h

/-- One more token has been read. -/
theorem next (h : Snapshot done (t :: rest) ahead front) (ahead' : List Token)
    (htracks : Yard.Tracks ahead' (Nesting.of rest).unmatched ((Yard.run done).feed t)
      (Yard.run (front ++ if t.pairs (Nesting.of done).opened rest then [t] else [])))
    (hearly : ∀ w ∈ ahead', ∃ b m, done ++ [t] = b ++ w :: m ++ [.rparen] ∧
      (Nesting.of b).opened = 0 ∧ (Nesting.of (b ++ w :: m)).opened = 0)
    (hweak : ∀ k, Yard.Weak k (ahead ++ (Yard.run done).stack) →
      Yard.Weak k (ahead' ++ ((Yard.run done).feed t).stack))
    (hlatest : ∀ o, t = .op o → o.isUnary = false → (Nesting.of done).opened = 0 →
      Yard.Weak o.precedence (ahead' ++ ((Yard.run done).feed t).stack)) :
    ∃ ahead front, Snapshot (done ++ [t]) rest ahead front := by
  refine ⟨ahead', front ++ if t.pairs (Nesting.of done).opened rest then [t] else [], ?_, ?_,
    hearly, ?_⟩
  · rw [List.append_assoc, List.singleton_append, h.kept, pairedFrom, Nesting.of_concat,
      List.append_assoc]
  · rw [Yard.run_concat]
    exact htracks
  · intro b w m hsplit hw hb
    rw [Yard.run_concat]
    rcases List.eq_nil_or_concat m with rfl | ⟨m, u, rfl⟩
    · obtain ⟨rfl, hlast⟩ := List.append_inj' hsplit rfl
      obtain rfl := (List.cons.inj hlast).left
      exact hlatest w rfl hw hb
    · have hearlier : done ++ [t] = (b ++ .op w :: m) ++ [u] := by
        rw [hsplit, List.concat_eq_append, List.append_assoc, List.cons_append]
      exact hweak _ (h.weak b w m (List.append_inj' hearlier rfl).left hw hb)

/-- An operand or a repetition has been read where nothing was released early. -/
theorem pass (h : Snapshot done (t :: rest) [] front) (ht : Yard.passes t = true) :
    ∃ ahead front, Snapshot (done ++ [t]) rest ahead front := by
  have hpairs : t.pairs (Nesting.of done).opened rest = true ∧
      Nesting.of (t :: rest) = Nesting.of rest := by
    cases t with
    | lparen => cases ht
    | rparen => cases ht
    | _ => exact ⟨rfl, rfl⟩
  have hfeed : ∀ y : Yard, y.feed t = y.release t := by
    intro y
    cases t with
    | op o =>
      have hunary : o.isUnary = true := ht
      simp only [Yard.feed, hunary, if_true]
    | lparen => cases ht
    | rparen => cases ht
    | _ => rfl
  have htracks := h.tracks
  rw [hpairs.right] at htracks
  refine h.next [] ?_ (fun w hw => absurd hw List.not_mem_nil) (fun k hk => ?_)
    fun o ho hbinary => ?_
  · rw [hpairs.left, if_pos rfl, Yard.run_concat, hfeed, hfeed]
    exact htracks.release t
  · rw [hfeed]
    exact hk
  · subst ho
    have hunary : o.isUnary = true := ht
    rw [hunary] at hbinary
    cases hbinary

/-- A group has been opened where nothing was released early. -/
theorem openGroup (h : Snapshot done (.lparen :: rest) [] front) :
    ∃ ahead front, Snapshot (done ++ [.lparen]) rest ahead front := by
  have htracks := h.tracks
  rw [Nesting.unmatched_lparen_cons] at htracks
  refine h.next [] ?_ (fun w hw => absurd hw List.not_mem_nil) (fun k hk => hk.cons _)
    fun o ho => Token.noConfusion ho
  cases hclosed : (Nesting.of rest).unmatched with
  | zero =>
    have hpairs : Token.lparen.pairs (Nesting.of done).opened rest = false := by
      rw [Token.pairs, hclosed]
      rfl
    rw [hclosed] at htracks
    rw [hpairs, if_neg Bool.false_ne_true, List.append_nil]
    exact htracks.openMissing
  | succ closing =>
    have hpairs : Token.lparen.pairs (Nesting.of done).opened rest = true := by
      rw [Token.pairs, hclosed]
      rfl
    rw [hclosed] at htracks
    rw [hpairs, if_pos rfl, Yard.run_concat]
    exact htracks.openKept

/-- Where no group is open, all that waits is released early by a closing parenthesis. -/
theorem closeMissing (h : Snapshot done (.rparen :: rest) ahead front)
    (hopened : (Nesting.of done).opened = 0) :
    ∃ ahead front, Snapshot (done ++ [.rparen]) rest ahead front := by
  have hnone : .lparen ∉ (Yard.run done).stack :=
    List.count_eq_zero.mp ((congrArg Nesting.opened (Yard.nesting_run done)).trans hopened)
  have hwaits : ∀ w ∈ (Yard.run done).stack, w.isBinary = true := by
    intro w hw
    refine (Yard.waits_run done w hw).resolve_right ?_
    rintro rfl
    exact hnone hw
  have hpairs : Token.rparen.pairs (Nesting.of done).opened rest = false := by
    rw [hopened]
    rfl
  have htracks := h.tracks
  rw [Nesting.unmatched_rparen_cons] at htracks
  have hclosed := htracks.closeMissing hwaits
  have hdrained := Yard.stack_run_rparen hopened
  rw [Yard.run_concat] at hdrained
  refine h.next (ahead ++ (Yard.run done).stack) ?_ (fun w hw => ?_) (fun k hk => ?_)
    fun o ho => Token.noConfusion ho
  · rw [hpairs, if_neg Bool.false_ne_true, List.append_nil]
    exact hclosed
  · rcases List.mem_append.mp hw with hw | hw
    · obtain ⟨b, m, rfl, hb, hm⟩ := h.early w hw
      refine ⟨b, m ++ [.rparen], ?_, hb, ?_⟩
      · simp only [List.append_assoc, List.cons_append]
      · rw [← hopened, List.append_assoc, List.cons_append]
    · obtain ⟨U, L, hstack⟩ := List.append_of_mem hw
      obtain ⟨b, m, rfl, hm, hb⟩ := Yard.exists_of_stack hstack
      refine ⟨b, m, rfl, ?_, hopened⟩
      have hbelow : (Nesting.of (b ++ [w])).opened = 0 := by
        rw [← Yard.nesting_run, Yard.nesting, hb, List.count_eq_zero]
        intro hmem
        rw [hstack] at hnone
        exact hnone (List.mem_append_right U hmem)
      rw [Nesting.of_concat] at hbelow
      cases w with
      | op o => exact hbelow
      | _ => cases hwaits _ hw
  · rw [hdrained, List.append_nil]
    exact hk

/-- Where a group is open, nothing was released early, and a closing parenthesis closes the group in
both conversions. -/
theorem closeKept (h : Snapshot done (.rparen :: rest) ahead front)
    (hopened : (Nesting.of done).opened ≠ 0) :
    ∃ ahead front, Snapshot (done ++ [.rparen]) rest ahead front := by
  have hopen : .lparen ∈ (Yard.run done).stack := by
    refine List.count_pos_iff.mp (Nat.pos_of_ne_zero fun hcount => hopened ?_)
    exact (congrArg Nesting.opened (Yard.nesting_run done)).symm.trans hcount
  have htracks := h.tracks
  rw [Nesting.unmatched_rparen_cons] at htracks
  have hnone : ahead = [] := by
    by_contra hne
    rw [htracks.drained hne] at hopen
    cases hopen
  subst hnone
  have hpairs : Token.rparen.pairs (Nesting.of done).opened rest = true := decide_eq_true hopened
  refine h.next [] ?_ (fun w hw => absurd hw List.not_mem_nil) (fun k hk => hk.closeGroup hopen)
    fun o ho => Token.noConfusion ho
  rw [hpairs, if_pos rfl, Yard.run_concat]
  exact htracks.closeKept hopen

/-- A closing parenthesis has been read. -/
theorem closeGroup (h : Snapshot done (.rparen :: rest) ahead front) :
    ∃ ahead front, Snapshot (done ++ [.rparen]) rest ahead front := by
  by_cases hopened : (Nesting.of done).opened = 0
  · exact h.closeMissing hopened
  · exact h.closeKept hopened

/-- A binary operator has been read that is calm. -/
theorem binary (h : Snapshot done (.op o :: rest) ahead front) (ho : o.isUnary = false)
    (hcalm : Yard.Calm ahead (Nesting.of rest).unmatched (Yard.run done).stack o) :
    ∃ ahead front, Snapshot (done ++ [.op o]) rest ahead front := by
  have hcount : (Yard.run done).stack.count .lparen = (Nesting.of done).opened :=
    congrArg Nesting.opened (Yard.nesting_run done)
  have htracks : Yard.Tracks ahead (Nesting.of rest).unmatched _ _ := h.tracks
  refine h.next [] ?_ (fun w hw => absurd hw List.not_mem_nil)
    (fun k hk => hk.binary ho htracks.drained hcalm.early) fun o' ho' hbinary hopened => ?_
  · rw [Token.pairs, if_pos rfl, Yard.run_concat]
    exact htracks.binary ho hcalm
  · obtain rfl := Token.op.inj ho'
    rw [hopened, List.count_eq_zero] at hcount
    rw [Yard.feed_eq_pushOperator ho, Yard.pushOperator]
    refine ⟨[], .op o, _, rfl, fun hmem => hcount ((List.dropWhile_sublist _).subset hmem), ?_,
      Nat.le_refl _⟩
    rw [Token.isBinary_op, ho, Bool.not_false]

/-- As long as every operator is calm, the conversions keep in step. No binary operator binds as
tight as a repetition, so nothing was released early in front of a repetition. -/
theorem step (h : Snapshot done (t :: rest) ahead front) (hspaced : Spaced (done ++ t :: rest))
    (hcalm : ∀ o, t = .op o →
      Yard.Calm ahead (Nesting.of rest).unmatched (Yard.run done).stack o) :
    ∃ ahead front, Snapshot (done ++ [t]) rest ahead front := by
  have hbegin : t.canBegin = true → ahead = [] := by
    intro ht
    cases ahead with
    | nil => rfl
    | cons w ahead =>
      obtain ⟨b, m, rfl, -, -⟩ := h.early w List.mem_cons_self
      rw [List.append_assoc] at hspaced
      have hjoins : Token.rparen.joins t = false := hspaced.joins_eq_false
      rw [Token.joins, ht] at hjoins
      cases hjoins
  have hoperand : t.isOperand = true → ∃ ahead front, Snapshot (done ++ [t]) rest ahead front := by
    intro ht
    have hnone := hbegin (by rw [Token.canBegin, ht, Bool.true_or])
    subst hnone
    exact h.pass (by rw [Yard.passes, ht, Bool.true_or])
  cases t with
  | lparen =>
    have hnone := hbegin rfl
    subst hnone
    exact h.openGroup
  | rparen => exact h.closeGroup
  | op o =>
    have hop := hcalm o rfl
    cases hunary : o.isUnary with
    | false => exact h.binary hunary hop
    | true =>
      have hnone : ahead = [] := by
        refine List.eq_nil_iff_forall_not_mem.mpr fun w hw => ?_
        have hbinary := h.tracks.operators w hw
        exact Nat.not_lt.mpr (hop.early w hw) (Token.precedence_lt hbinary hunary)
      subst hnone
      exact h.pass hunary
  | _ => exact hoperand rfl

end Snapshot

/-- Where every operator is calm, the conversions keep in step to the end. -/
theorem exists_snapshot (hspaced : Spaced ts)
    (hcalm : ∀ done o rest ahead front, ts = done ++ .op o :: rest →
      Snapshot done (.op o :: rest) ahead front →
        Yard.Calm ahead (Nesting.of rest).unmatched (Yard.run done).stack o) :
    ∀ done todo, ts = done ++ todo → ∃ ahead front, Snapshot done todo ahead front := by
  intro done
  induction done using List.reverseRecOn with
  | nil =>
    intro todo hts
    obtain rfl : ts = todo := hts
    exact ⟨[], [], .start ts⟩
  | append_singleton done t ih =>
    intro todo hts
    rw [List.append_assoc, List.singleton_append] at hts
    obtain ⟨ahead, front, h⟩ := ih (t :: todo) hts
    rw [hts] at hspaced
    refine h.step hspaced ?_
    rintro o rfl
    exact hcalm done o todo ahead front hts h

/-- At the end of both conversions the same comes out. -/
theorem Snapshot.toPostorder_eq (h : Snapshot ts [] ahead front) :
    toPostorder (paired ts) = toPostorder ts := by
  have hkept := h.kept
  rw [List.append_nil, pairedFrom, List.append_nil] at hkept
  rw [hkept]
  exact h.tracks.finish_eq.symm

/-- In front of an opening parenthesis is the operator that waits below it. -/
theorem exists_front_of_lparen {b a L : List Token} {v : Token}
    (hspaced : Spaced (b ++ .lparen :: a)) (hv : v.isOperator = true)
    (hstack : (Yard.run b).stack = v :: L) : ∃ b' w, b = b' ++ [.op w] ∧ v = .op w := by
  rcases List.eq_nil_or_concat b with rfl | ⟨b, t, rfl⟩
  · cases hstack
  · rw [List.concat_eq_append] at hstack hspaced ⊢
    rw [List.append_assoc] at hspaced
    have hjoins : t.joins .lparen = false := hspaced.joins_eq_false
    have hend : t.canEnd = false := by
      rw [Token.joins] at hjoins
      exact (Bool.and_true t.canEnd).symm.trans hjoins
    rw [Yard.run_concat] at hstack
    cases t with
    | lparen =>
      obtain ⟨rfl, -⟩ := List.cons.inj hstack
      cases hv
    | op w =>
      rw [Token.canEnd_op] at hend
      rw [Yard.feed, hend] at hstack
      obtain ⟨rfl, -⟩ := List.cons.inj hstack
      exact ⟨b, w, rfl, rfl⟩
    | _ => cases hend

/-- Where the unbalanced parentheses are redundant, every operator is calm. In front of an unmatched
closing parenthesis the topmost token that stays is kept, and it does not give way. -/
theorem Redundant.calm (h : Redundant ts) (hspaced : Spaced ts) (hts : ts = done ++ .op o :: rest)
    (hsnapshot : Snapshot done (.op o :: rest) ahead front) :
    Yard.Calm ahead (Nesting.of rest).unmatched (Yard.run done).stack o where
  early w hw := by
    obtain ⟨b, m, rfl, hb, hm⟩ := hsnapshot.early w hw
    have hbinary := hsnapshot.tracks.operators w hw
    cases w with
    | op w =>
      refine h.closing b w m o rest ?_ hb hm
      rw [hts, List.append_assoc, List.singleton_append]
    | _ => cases hbinary
  late ho := by
    cases hclosing : (Nesting.of rest).unmatched with
    | succ closing =>
      have hhead := List.head?_dropWhile_not (Yard.yieldsTo · (.op o)) (Yard.run done).stack
      cases hstays : (Yard.run done).stack.dropWhile (Yard.yieldsTo · (.op o)) with
      | nil => rfl
      | cons w stays =>
        rw [hstays] at hhead
        have hw : Yard.yieldsTo w (.op o) = false := hhead
        rw [Yard.sift, List.takeWhile_cons, hw]
        rfl
    | zero =>
      rw [Yard.sift_zero]
      by_contra hreleased
      obtain ⟨U, v, L, hstack, hv⟩ := Yard.exists_below_lparen hreleased
      obtain ⟨b, m, rfl, hm, hb⟩ := Yard.exists_of_stack hstack
      obtain ⟨hoperator, hle⟩ := Yard.yieldsTo_iff.mp hv
      rw [Yard.run_concat] at hb
      have hbelow : (Yard.run b).stack = v :: L := (List.cons.inj hb).right
      rw [List.append_assoc, List.cons_append] at hts
      rw [hts] at hspaced
      obtain ⟨b, w, rfl, rfl⟩ := exists_front_of_lparen hspaced hoperator hbelow
      have hlt := h.opening b w m o rest ?_ ?_ hclosing
      · exact Nat.not_lt.mpr hle hlt
      · rw [hts]
        simp only [List.append_assoc, List.cons_append, List.nil_append]
      · have hbehind : Nesting.of (.op o :: rest) = Nesting.of rest := rfl
        rw [Nesting.unmatched_append, hbehind, hclosing, Nat.zero_sub, hm, Nat.zero_add]

/-- Behind a token that stands where it is expected, the others do too. -/
theorem Fits.behind {ended : Bool} (h : Fits ended (done ++ t :: rest)) : Fits t.canEnd rest := by
  induction done generalizing ended with
  | nil => exact h.right
  | cons u done ih => exact ih h.right

/-- Where the same comes out of both conversions, every operator is calm. -/
theorem calm_of_toPostorder_eq (hfits : Fits false ts)
    (heq : toPostorder (paired ts) = toPostorder ts) (hts : ts = done ++ .op o :: rest)
    (h : Snapshot done (.op o :: rest) ahead front) :
    Yard.Calm ahead (Nesting.of rest).unmatched (Yard.run done).stack o := by
  have hpaired : Fits false (paired ts) := fits_pairedFrom hfits
  have hkept := h.kept
  rw [pairedFrom_cons_of_pairs rfl, ← hts] at hkept
  rw [hkept] at heq hpaired
  rw [hts] at heq hfits
  rw [toPostorder, toPostorder, Yard.run, Yard.run, List.foldl_append, List.foldl_append] at heq
  exact h.tracks.calm (Yard.waits_run done) (Yard.waits_run front) hfits.behind hpaired.behind
    heq.symm

/-- What waits in an open group lies above the parenthesis that opens it, and that one above the
operator in front of it. -/
theorem stack_run_open {b m : List Token} {w : Operator} (hw : w.isUnary = false)
    (hm : (Nesting.of m).unmatched = 0) : (Yard.run (b ++ .op w :: .lparen :: m)).stack =
      (Yard.run m).stack ++
        .lparen :: .op w :: (Yard.run b).stack.dropWhile (Yard.yieldsTo · (.op w)) := by
  have hfront : (Yard.run (b ++ [.op w])).stack =
      .op w :: (Yard.run b).stack.dropWhile (Yard.yieldsTo · (.op w)) := by
    rw [Yard.run_concat, Yard.feed_eq_pushOperator hw, Yard.pushOperator]
  have hrun : Yard.run (b ++ .op w :: .lparen :: m) =
      (Token.lparen :: m).foldl Yard.feed (Yard.run (b ++ [.op w])) := by
    rw [Yard.run, Yard.run, ← List.foldl_append, List.append_assoc, List.singleton_append]
  rw [← hfront, hrun, Yard.foldl_feed_lparen _ hm]
  rfl

/-- Where every operator is calm, the unbalanced parentheses are redundant. -/
theorem redundant_of_calm (hspaced : Spaced ts)
    (hcalm : ∀ done o rest ahead front, ts = done ++ .op o :: rest →
      Snapshot done (.op o :: rest) ahead front →
        Yard.Calm ahead (Nesting.of rest).unmatched (Yard.run done).stack o) :
    Redundant ts where
  closing b w m o a hts hb hm := by
    have hsplit : ts = (b ++ .op w :: m ++ [.rparen]) ++ .op o :: a := by
      rw [hts]
      simp only [List.append_assoc, List.cons_append, List.nil_append]
    obtain ⟨ahead, front, h⟩ := exists_snapshot hspaced hcalm _ _ hsplit
    have hop := hcalm _ o a ahead front hsplit h
    cases hw : w.isUnary with
    | true =>
      revert hw
      cases w <;> cases o <;> decide
    | false =>
      have hweak := h.weak b w (m ++ [.rparen])
        (by simp only [List.append_assoc, List.cons_append]) hw hb
      rw [Yard.stack_run_rparen hm, List.append_nil] at hweak
      obtain ⟨U, v, L, rfl, -, -, hv⟩ := hweak
      exact Nat.le_trans (hop.early v (List.mem_append_right U List.mem_cons_self)) hv
  opening b w m o a hts hm ha := by
    have hsplit : ts = (b ++ .op w :: .lparen :: m) ++ .op o :: a := hts
    obtain ⟨ahead, front, h⟩ := exists_snapshot hspaced hcalm _ _ hsplit
    have hop := hcalm _ o a ahead front hsplit h
    have hw : w.isUnary = false := by
      rw [hts, List.append_assoc] at hspaced
      have hjoins : (Token.op w).joins .lparen = false := hspaced.joins_eq_false
      rw [Token.joins, Token.canEnd_op] at hjoins
      exact (Bool.and_true w.isUnary).symm.trans hjoins
    cases ho : o.isUnary with
    | true =>
      refine Token.precedence_lt (t := .op w) ?_ ho
      rw [Token.isBinary_op, hw, Bool.not_false]
    | false =>
      have hbehind : (Nesting.of (.op o :: a)).unmatched = 0 := ha
      have hinside : (Nesting.of m).unmatched = 0 := by
        rw [Nesting.unmatched_append] at hm
        omega
      have hstack := stack_run_open (b := b) hw hinside
      have htracks := h.tracks
      have hnone : ahead = [] := by
        by_contra hne
        rw [htracks.drained hne] at hstack
        exact absurd hstack.symm (List.append_ne_nil_of_right_ne_nil _ (List.cons_ne_nil _ _))
      subst hnone
      rw [hbehind] at htracks
      rw [ha] at hop
      exact htracks.lt_of_calm (Yard.ordered_run front) (Yard.waits_run _) hop ho hstack

/-- Redundant parentheses are ignored. -/
theorem Redundant.toPostorder_paired (h : Redundant ts) (hspaced : Spaced ts) :
    toPostorder (paired ts) = toPostorder ts := by
  obtain ⟨ahead, front, hend⟩ := exists_snapshot hspaced (fun _ _ _ _ _ => h.calm hspaced) ts []
    (List.append_nil ts).symm
  exact hend.toPostorder_eq

/-- Where every token stands where it is expected, only redundant parentheses are ignored. -/
theorem redundant_of_toPostorder_eq (hfits : Fits false ts) (hspaced : Spaced ts)
    (heq : toPostorder (paired ts) = toPostorder ts) : Redundant ts :=
  redundant_of_calm hspaced fun _ _ _ _ _ => calm_of_toPostorder_eq hfits heq

/-- When the unbalanced parentheses of a stream are ignored. If their place makes no difference to
explicit concatenation and what they group is a group without them, the parser makes the same of
the stream as of the stream without them. A stream that makes one expression does so without them
too, and if the stream without them makes one expression, the same one comes out exactly when the
stream itself makes one and its unbalanced parentheses are redundant. -/
theorem unbalanced_parentheses_ignored_iff (ts : List Token) :
    (paired (insertConcats ts) = insertConcats (paired ts) → Redundant (insertConcats ts) →
      toPostorder (insertConcats (paired ts)) = toPostorder (insertConcats ts)) ∧
    ((∃ n, Thompson.compile none (toPostorder (insertConcats ts)) = .ok n) →
      ∃ n, Thompson.compile none (toPostorder (insertConcats (paired ts))) = .ok n) ∧
    ((∃ n, Thompson.compile none (toPostorder (insertConcats (paired ts))) = .ok n) →
      (toPostorder (insertConcats (paired ts)) = toPostorder (insertConcats ts) ↔
        (∃ n, Thompson.compile none (toPostorder (insertConcats ts)) = .ok n) ∧
          Redundant (insertConcats ts))) := by
  have hspaced : Spaced (insertConcats ts) := by
    rw [insertConcats_eq_joinFrom]
    exact spaced_joinFrom false ts
  have hcompiles : (∃ n, Thompson.compile none (toPostorder (insertConcats ts)) = .ok n) →
      Fits false (insertConcats ts) ∧ paired (insertConcats ts) = insertConcats (paired ts) := by
    intro h
    rw [Thompson.compile_eq_ok_iff, depth_eq_one_iff] at h
    have hfits := fits_joinFrom h
    rw [insertConcats_eq_joinFrom, insertConcats_eq_joinFrom]
    exact ⟨hfits, pairedFrom_joinFrom hfits⟩
  refine ⟨fun hkept h => ?_, fun h => ?_, fun h => ⟨fun heq => ?_, fun ⟨hts, hredundant⟩ => ?_⟩⟩
  · rw [← hkept]
    exact h.toPostorder_paired hspaced
  · obtain ⟨hfits, hkept⟩ := hcompiles h
    have hpaired : Fits false (paired (insertConcats ts)) := fits_pairedFrom hfits
    rw [hkept] at hpaired
    exact Thompson.compile_eq_ok_iff.mpr (Yard.balanced_start.foldl hpaired).depth_finish
  · have hts := h
    rw [heq] at hts
    obtain ⟨hfits, hkept⟩ := hcompiles hts
    rw [← hkept] at heq
    exact ⟨hts, redundant_of_toPostorder_eq hfits hspaced heq⟩
  · rw [← (hcompiles hts).right]
    exact hredundant.toPostorder_paired hspaced

/-- In `a)|(b` both parentheses are redundant. -/
theorem barBetweenParentheses_redundant :
    Redundant (Pattern.explicitTokens [0x61, 0x29, 0x7c, 0x28, 0x62]) := by
  have h := unbalanced_parentheses_ignored_iff (Pattern.tokens [0x61, 0x29, 0x7c, 0x28, 0x62])
  exact ((h.right.right ⟨_, rfl⟩).mp (by decide)).right

/-- In `)a`, `a(` and `a|b)*c` the parenthesis is not ignored: it brings a concatenation along that
lacks an operand, or makes the loop one of the whole choice. -/
theorem unbalanced_parenthesis_not_ignored :
    toPostorder (insertConcats (paired (Pattern.tokens [0x29, 0x61]))) ≠
      Pattern.postorder [0x29, 0x61] ∧
    toPostorder (insertConcats (paired (Pattern.tokens [0x61, 0x28]))) ≠
      Pattern.postorder [0x61, 0x28] ∧
    toPostorder (insertConcats (paired (Pattern.tokens [0x61, 0x7c, 0x62, 0x29, 0x2a, 0x63]))) ≠
      Pattern.postorder [0x61, 0x7c, 0x62, 0x29, 0x2a, 0x63] := by
  decide

end ByteRegex
