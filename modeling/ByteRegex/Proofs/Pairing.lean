import ByteRegex.Proofs.Framing

/-!
# A stream without its unbalanced parentheses

A closing parenthesis is unbalanced when no group is open, an opening one when none of the closing
ones behind it is left to close it. Without them a stream is balanced, and nothing else of it is
missing. In a stream whose tokens stand where they are expected, an unbalanced parenthesis stands
where an expression has ended or where one begins, as what is around it does, so explicit
concatenation does not depend on it.
-/

namespace ByteRegex

variable {ended : Bool} {n : Nesting} {t : Token} {ts : List Token}

namespace Nesting

/-- The pairing with more unmatched parentheses in front. -/
def raise (k : Nat) (n : Nesting) : Nesting := ⟨n.opened, n.unmatched + k⟩

/-- Unmatched parentheses in front make no other difference. -/
theorem feed_raise (k : Nat) (n : Nesting) (t : Token) :
    (n.raise k).feed t = (n.feed t).raise k := by
  cases t with
  | rparen =>
    obtain ⟨opened, unmatched⟩ := n
    cases opened with
    | zero => exact congrArg (Nesting.mk 0) (Nat.succ_add_eq_add_succ unmatched k).symm
    | succ opened => rfl
  | _ => rfl

/-- A closing parenthesis in front of a stream is one more that is unmatched. -/
theorem unmatched_rparen_cons (ts : List Token) :
    (of (.rparen :: ts)).unmatched = (of ts).unmatched + 1 := by
  have hraise : ts.foldl feed (raise 1 ⟨0, 0⟩) = (of ts).raise 1 :=
    List.foldl_hom (raise 1) fun n t => feed_raise 1 n t
  exact congrArg Nesting.unmatched hraise

/-- An opening parenthesis in front of a stream is closed by the first one that is unmatched. -/
theorem unmatched_lparen_cons (ts : List Token) :
    (of (.lparen :: ts)).unmatched = (of ts).unmatched - 1 := by
  exact congrArg Nesting.unmatched (of_lparens_append 1 ts)

/-- The second part of a stream closes groups that the first one leaves open. -/
theorem unmatched_append (ts us : List Token) : (of (ts ++ us)).unmatched =
    (of us).unmatched - (of ts).opened + (of ts).unmatched := by
  have hbury : us.foldl feed (bury (of ts).opened ⟨0, 0⟩) = (of us).bury (of ts).opened :=
    List.foldl_hom (bury (of ts).opened) fun n t => feed_bury (of ts).opened n t
  have hraise : us.foldl feed ((bury (of ts).opened ⟨0, 0⟩).raise (of ts).unmatched) =
      (us.foldl feed (bury (of ts).opened ⟨0, 0⟩)).raise (of ts).unmatched :=
    List.foldl_hom (raise (of ts).unmatched) fun n t => feed_raise (of ts).unmatched n t
  have hfront : (bury (of ts).opened ⟨0, 0⟩).raise (of ts).unmatched = of ts := by
    simp only [bury, raise, Nat.sub_zero, Nat.zero_sub, Nat.zero_add]
  rw [hbury, hfront] at hraise
  rw [of, List.foldl_append, ← of, hraise]
  rfl

end Nesting

/-- Whether the token is no parenthesis or pairs up, where that many groups are open in front of it
and the given tokens follow. -/
def Token.pairs (opened : Nat) (t : Token) (rest : List Token) : Bool :=
  match t with
  | .lparen => (Nesting.of rest).unmatched ≠ 0
  | .rparen => opened ≠ 0
  | .literal _ | .charClass _ | .dot | .op _ => true

/-- The tokens that pair up, where the parentheses in front of them pair up as given. -/
def pairedFrom : Nesting → List Token → List Token
  | _, [] => []
  | n, t :: rest => (if t.pairs n.opened rest then [t] else []) ++ pairedFrom (n.feed t) rest

/-- The stream without its unbalanced parentheses. -/
def paired (ts : List Token) : List Token := pairedFrom ⟨0, 0⟩ ts

/-- A token that pairs up is kept. -/
theorem pairedFrom_cons_of_pairs (h : t.pairs n.opened ts = true) :
    pairedFrom n (t :: ts) = t :: pairedFrom (n.feed t) ts := by
  rw [pairedFrom, if_pos h, List.singleton_append]

/-- A token that does not pair up is left out. -/
theorem pairedFrom_cons_of_not_pairs (h : t.pairs n.opened ts = false) :
    pairedFrom n (t :: ts) = pairedFrom (n.feed t) ts := by
  rw [pairedFrom, h]
  rfl

/-- Only parentheses are left out. -/
theorem Token.paren_of_not_pairs {opened : Nat} (h : t.pairs opened ts = false) :
    t = .lparen ∧ (Nesting.of ts).unmatched = 0 ∨ t = .rparen ∧ opened = 0 := by
  cases t with
  | lparen => exact .inl ⟨rfl, by simpa [pairs] using h⟩
  | rparen => exact .inr ⟨rfl, by simpa [pairs] using h⟩
  | _ => cases h

/-- Behind a parenthesis that stands where it is expected and does not pair up, the same is
expected as in front of it. -/
theorem Token.canEnd_of_not_pairs {opened : Nat} (h : t.pairs opened ts = false)
    (hbegin : t.canBegin = !ended) : t.canEnd = ended := by
  rcases t.paren_of_not_pairs h with ⟨rfl, -⟩ | ⟨rfl, -⟩
  · cases ended with
    | false => rfl
    | true => cases hbegin
  · cases ended with
    | false => cases hbegin
    | true => rfl

/-- Explicit concatenation does not change which tokens pair up. -/
theorem Token.pairs_joinFrom (t : Token) (opened : Nat) (ended : Bool) (ts : List Token) :
    t.pairs opened (joinFrom ended ts) = t.pairs opened ts := by
  have hbehind : Nesting.of (joinFrom ended ts) = Nesting.of ts :=
    Nesting.foldl_joinFrom ⟨0, 0⟩ ended ts
  cases t with
  | lparen => rw [pairs, hbehind, pairs]
  | _ => rfl

/-- The tokens that are kept keep their order. -/
theorem pairedFrom_sublist (n : Nesting) (ts : List Token) : (pairedFrom n ts).Sublist ts := by
  induction ts generalizing n with
  | nil => exact .slnil
  | cons t rest ih =>
    rw [pairedFrom]
    cases t.pairs n.opened rest with
    | true => exact (ih (n.feed t)).cons_cons t
    | false => exact (ih (n.feed t)).cons t

/-- How many of the open groups are closed by the stream. -/
def Nesting.closedBy (ts : List Token) (n : Nesting) : Nat := min n.opened (of ts).unmatched

/-- A token that pairs up opens or closes a group that is closed, and any other parenthesis leaves
the groups that are closed as they are and one more parenthesis unbalanced. -/
theorem closedBy_cons (n : Nesting) (t : Token) (rest : List Token) :
    (t.pairs n.opened rest = true →
      Nesting.feed ⟨n.closedBy (t :: rest), 0⟩ t = ⟨(n.feed t).closedBy rest, 0⟩ ∧
      n.closedBy (t :: rest) + (n.feed t).unmatched + (n.feed t).opened =
        (n.feed t).closedBy rest + n.unmatched + n.opened) ∧
    (t.pairs n.opened rest = false →
      n.closedBy (t :: rest) = (n.feed t).closedBy rest ∧
      (n.feed t).unmatched + (n.feed t).opened = n.unmatched + n.opened + 1) := by
  obtain ⟨opened, unmatched⟩ := n
  cases t with
  | lparen =>
    have hbehind := Nesting.unmatched_lparen_cons rest
    simp only [Token.pairs, Nesting.closedBy, Nesting.feed, hbehind, decide_eq_true_eq,
      decide_eq_false_iff_not, Decidable.not_not, Nesting.mk.injEq, and_true]
    omega
  | rparen =>
    have hbehind := Nesting.unmatched_rparen_cons rest
    cases opened with
    | zero =>
      refine ⟨fun h => absurd h Bool.false_ne_true, fun _ => ⟨?_, rfl⟩⟩
      rw [Nesting.closedBy, Nesting.closedBy, Nat.zero_min]
      exact (Nat.zero_min _).symm
    | succ opened =>
      refine ⟨fun _ => ?_, fun h => absurd h.symm Bool.false_ne_true⟩
      have hclosed : Nesting.closedBy (.rparen :: rest) ⟨opened + 1, unmatched⟩ =
          Nesting.closedBy rest ⟨opened, unmatched⟩ + 1 := by
        rw [Nesting.closedBy, hbehind, Nesting.closedBy, Nat.add_min_add_right]
      have hfeed : Nesting.feed ⟨opened + 1, unmatched⟩ .rparen = ⟨opened, unmatched⟩ := rfl
      rw [hclosed, hfeed]
      exact ⟨rfl, by simp only; omega⟩
  | _ => exact ⟨fun _ => ⟨rfl, rfl⟩, fun h => absurd h.symm Bool.false_ne_true⟩

/-- The tokens that are kept close the groups in front that are closed at all, and leave none of
their own open. As many tokens are missing as parentheses are unbalanced. -/
theorem pairedFrom_balanced (n : Nesting) (ts : List Token) :
    (pairedFrom n ts).foldl Nesting.feed ⟨n.closedBy ts, 0⟩ = ⟨0, 0⟩ ∧
      (pairedFrom n ts).length + (ts.foldl Nesting.feed n).unmatched +
          (ts.foldl Nesting.feed n).opened + n.closedBy ts =
        ts.length + n.unmatched + n.opened := by
  induction ts generalizing n with
  | nil =>
    have hnone : n.closedBy [] = 0 := Nat.min_zero n.opened
    simp only [pairedFrom, hnone, List.foldl_nil, List.length_nil, Nat.zero_add, Nat.add_zero,
      true_and]
  | cons t rest ih =>
    obtain ⟨hrest, hlength⟩ := ih (n.feed t)
    obtain ⟨hkept, hmissing⟩ := closedBy_cons n t rest
    cases hpairs : t.pairs n.opened rest with
    | true =>
      obtain ⟨hfeed, hcount⟩ := hkept hpairs
      rw [pairedFrom_cons_of_pairs hpairs, List.foldl_cons, hfeed]
      refine ⟨hrest, ?_⟩
      rw [List.length_cons, List.foldl_cons, List.length_cons]
      omega
    | false =>
      obtain ⟨hsame, hcount⟩ := hmissing hpairs
      rw [pairedFrom_cons_of_not_pairs hpairs, hsame]
      refine ⟨hrest, ?_⟩
      rw [List.foldl_cons, List.length_cons]
      omega

/-- What is left is balanced. -/
theorem nesting_paired (ts : List Token) : Nesting.of (paired ts) = ⟨0, 0⟩ := by
  have hnone : Nesting.closedBy ts ⟨0, 0⟩ = 0 := Nat.zero_min _
  have h := (pairedFrom_balanced ⟨0, 0⟩ ts).left
  rwa [hnone] at h

/-- Nothing but the unbalanced parentheses is missing. -/
theorem length_paired (ts : List Token) :
    (paired ts).length + (Nesting.of ts).unmatched + (Nesting.of ts).opened = ts.length := by
  have hnone : Nesting.closedBy ts ⟨0, 0⟩ = 0 := Nat.zero_min _
  have h := (pairedFrom_balanced ⟨0, 0⟩ ts).right
  rwa [hnone] at h

/-- Tokens that stand where they are expected still do without unbalanced parentheses. -/
theorem fits_pairedFrom (h : Fits ended ts) : Fits ended (pairedFrom n ts) := by
  induction ts generalizing ended n with
  | nil => exact h
  | cons t rest ih =>
    obtain ⟨hbegin, hrest⟩ := h
    have hpaired := ih (n := n.feed t) hrest
    cases hpairs : t.pairs n.opened rest with
    | true =>
      rw [pairedFrom_cons_of_pairs hpairs]
      exact ⟨hbegin, hpaired⟩
    | false =>
      rw [pairedFrom_cons_of_not_pairs hpairs]
      rwa [Token.canEnd_of_not_pairs hpairs hbegin] at hpaired

/-- A stream that begins with an expression is joined to one in front of it. -/
theorem joinFrom_true (h : Fits false (joinFrom false ts)) :
    joinFrom true ts = .op .concat :: joinFrom false ts := by
  cases ts with
  | nil => cases h
  | cons t rest =>
    have hbegin : t.canBegin = true := h.left
    rw [joinFrom, hbegin]
    rfl

/-- Where explicit concatenation puts every token where it is expected, it does not depend on the
unbalanced parentheses. -/
theorem pairedFrom_joinFrom (h : Fits ended (joinFrom ended ts)) :
    pairedFrom n (joinFrom ended ts) = joinFrom ended (pairedFrom n ts) := by
  induction ts generalizing ended n with
  | nil => rfl
  | cons t rest ih =>
    have hsame := t.pairs_joinFrom n.opened t.canEnd rest
    rw [joinFrom] at h ⊢
    cases hjoined : ended && t.canBegin with
    | true =>
      rw [Bool.and_eq_true] at hjoined
      obtain ⟨rfl, hbegin⟩ := hjoined
      rw [hbegin] at h
      have hrest : Fits t.canEnd (joinFrom t.canEnd rest) := h.right.right
      have hnext := ih (n := n.feed t) hrest
      have hfeed : n.feed (.op .concat) = n := rfl
      rw [if_pos rfl, List.singleton_append, pairedFrom_cons_of_pairs rfl, hfeed]
      cases hpairs : t.pairs n.opened rest with
      | true =>
        rw [pairedFrom_cons_of_pairs hpairs, pairedFrom_cons_of_pairs (hsame.trans hpairs), hnext,
          joinFrom, hbegin]
        rfl
      | false =>
        have hclosed : t.canEnd = false := Token.canEnd_of_not_pairs hpairs hbegin
        have hpaired := fits_pairedFrom (n := n.feed t) hrest
        rw [hnext, hclosed] at hpaired
        rw [pairedFrom_cons_of_not_pairs hpairs, pairedFrom_cons_of_not_pairs (hsame.trans hpairs),
          hnext, hclosed, joinFrom_true hpaired]
    | false =>
      rw [hjoined] at h
      obtain ⟨hbegin, hrest⟩ := h
      have hnext := ih (n := n.feed t) hrest
      rw [if_neg Bool.false_ne_true, List.nil_append]
      cases hpairs : t.pairs n.opened rest with
      | true =>
        rw [pairedFrom_cons_of_pairs hpairs, pairedFrom_cons_of_pairs (hsame.trans hpairs), hnext,
          joinFrom, hjoined]
        rfl
      | false =>
        rw [pairedFrom_cons_of_not_pairs hpairs, pairedFrom_cons_of_not_pairs (hsame.trans hpairs),
          hnext, Token.canEnd_of_not_pairs hpairs hbegin]

end ByteRegex
