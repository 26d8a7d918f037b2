import ByteRegex.Proofs.Factoring
import ByteRegex.Proofs.Framing
import ByteRegex.Proofs.Lexing
import ByteRegex.Proofs.Limit
import ByteRegex.Proofs.Relocation
import ByteRegex.Proofs.Shape

/-!
# The grouping of concatenations leaves no trace

A concatenation allocates nothing. All it does to the arena is to add one edge to the accept state
of its left operand, and an accept state has no other edge before it is wired itself. So of three
expressions in a row the two edges between them may be added in either order, and before or behind
the states of the third expression: the arena is the same in the end, and so is what any limit
makes of it.

A pattern whose parentheses pair up among themselves, and which has nothing that could swallow what
follows, may be put in parentheses. Then a row of such patterns is a row of such expressions.
-/

namespace ByteRegex

namespace Thompson

variable {base states : Array State} {i j k l : Nat} {a b : Assembly} {p q r ts us : List Token}

/-- The stream compiles by itself, under some limit or without one. -/
def Compiles (ts : List Token) : Prop := ∃ limit n, compile limit ts = .ok n

/-- What compiles under a limit compiles without one. -/
theorem Compiles.exists_compile_none (h : Compiles ts) : ∃ n, compile none ts = .ok n := by
  obtain ⟨limit, n, hn⟩ := h
  cases limit with
  | none => exact ⟨n, hn⟩
  | some limit =>
    obtain ⟨a, hstops⟩ := exists_stops ts
    rw [hstops.compile_some] at hn
    by_cases hle : a.states.size ≤ limit
    · rw [if_pos hle] at hn
      exact ⟨n, hn⟩
    · rw [if_neg hle] at hn
      cases hn

/-- Edges that are added to two states may be added in either order. -/
theorem link_comm (h : i ≠ k) (states : Array State) :
    link (link states i j) k l = link (link states k l) i j := by
  refine Array.ext_getElem? fun s => ?_
  simp only [link, addEdges, Array.getElem?_modify]
  by_cases hi : i = s
  · rw [if_pos hi, if_pos hi, if_neg (by omega), if_neg (by omega)]
  · rw [if_neg hi, if_neg hi]

/-- An edge that is added to a state of an arena may be added when others stand behind it. -/
theorem place_link (h : i < base.size) (states : Array State) :
    place (link base i j) states = link (place base states) i j := by
  have hsize : (link base i j).size = base.size := size_addEdges ..
  refine Array.ext_getElem? fun s => ?_
  simp only [place, hsize]
  rw [link, link, addEdges, addEdges, Array.getElem?_modify, Array.getElem?_append,
    Array.getElem?_append, Array.size_modify, Array.getElem?_modify]
  by_cases hs : s < base.size
  · rw [if_pos hs, if_pos hs]
  · rw [if_neg hs, if_neg hs, if_neg (by omega)]

namespace Assembly

/-- Behind any construction, a stream that compiles puts its own arena behind the states that are
there, and on the stack a fragment that is left by one of the new states. -/
theorem exists_placed (h : Compiles ts) : ∃ (made : Array State) (f : Fragment),
    f.accept < made.size ∧ ∀ a : Assembly, a.pushAll none ts =
      .ok ⟨place a.states made, f.shift a.states.size :: a.stack⟩ := by
  obtain ⟨n, hn⟩ := h.exists_compile_none
  obtain ⟨b, hrun, hfinish⟩ := exists_of_compile hn
  obtain ⟨made, f, rfl, -⟩ := exists_of_finish hfinish
  have hempty : Assembly.empty.Denotes [] := Tiling.nil
  obtain ⟨Ls, -, htiling⟩ := pushAll_denotes hempty hrun
  obtain ⟨-, haccept, -⟩ := Tiling.mem htiling List.mem_cons_self
  refine ⟨made, f, haccept, fun a => ?_⟩
  have hplaced := pushAll_above hrun a
  rwa [a.above_empty] at hplaced

/-- A stream that succeeds is followed by the rest of the stream. -/
theorem pushAll_append_of_ok {limit : Option Nat} (h : a.pushAll limit ts = .ok b) :
    a.pushAll limit (ts ++ us) = b.pushAll limit us := by
  rw [pushAll_append, h]
  rfl

/-- Three expressions in a row become one, in the same way however they are grouped. The two edges
that join them leave different states, and both of these are there before the third expression. -/
theorem exists_pushAll_regrouped (hp : Compiles p) (hq : Compiles q) (hr : Compiles r)
    (a : Assembly) : ∃ states f,
      a.pushAll none (p ++ q ++ r ++ [.op .concat, .op .concat]) = .ok ⟨states, f :: a.stack⟩ ∧
      a.pushAll none (p ++ q ++ [.op .concat] ++ r ++ [.op .concat]) =
        .ok ⟨states, f :: a.stack⟩ := by
  obtain ⟨first, x, hx, hfirst⟩ := exists_placed hp
  obtain ⟨second, y, hy, hsecond⟩ := exists_placed hq
  obtain ⟨third, z, -, hthird⟩ := exists_placed hr
  let one := place a.states first
  let two := place one second
  have hone : one.size = first.size + a.states.size := size_place ..
  have htwo : two.size = second.size + one.size := size_place ..
  have hfront : (x.shift a.states.size).accept < two.size := by
    simp only [Fragment.shift]
    omega
  have hdistinct : (x.shift a.states.size).accept ≠ (y.shift one.size).accept := by
    simp only [Fragment.shift]
    omega
  let joined := link two (x.shift a.states.size).accept (y.shift one.size).start
  have hjoined : joined.size = two.size := size_addEdges ..
  have hpair : a.pushAll none (p ++ q) =
      .ok ⟨two, y.shift one.size :: x.shift a.states.size :: a.stack⟩ := by
    rw [pushAll_append_of_ok (hfirst a)]
    exact hsecond _
  have hrow : a.pushAll none (p ++ q ++ r) = .ok ⟨place two third,
      z.shift two.size :: y.shift one.size :: x.shift a.states.size :: a.stack⟩ := by
    rw [pushAll_append_of_ok hpair]
    exact hthird _
  have hleft : a.pushAll none (p ++ q ++ [.op .concat]) =
      .ok ⟨joined, ⟨(x.shift a.states.size).start, (y.shift one.size).accept⟩ :: a.stack⟩ := by
    rw [pushAll_append_of_ok hpair]
    rfl
  have hlast : a.pushAll none (p ++ q ++ [.op .concat] ++ r) = .ok ⟨place joined third,
      z.shift two.size :: ⟨(x.shift a.states.size).start, (y.shift one.size).accept⟩ ::
        a.stack⟩ := by
    rw [pushAll_append_of_ok hleft, ← hjoined]
    exact hthird _
  refine ⟨link (place joined third) (y.shift one.size).accept (z.shift two.size).start,
    ⟨(x.shift a.states.size).start, (z.shift two.size).accept⟩, ?_, ?_⟩
  · rw [pushAll_append_of_ok hrow, place_link hfront, link_comm hdistinct]
    rfl
  · rw [pushAll_append_of_ok hlast]
    rfl

end Assembly

/-- Streams that make the same assembly without a limit have the same result under every limit. -/
theorem compile_congr (hts : Assembly.empty.pushAll none ts = .ok a)
    (hus : Assembly.empty.pushAll none us = .ok a) (limit : Option Nat) :
    compile limit ts = compile limit us := by
  cases limit with
  | none => rw [compile, compile, hts, hus]
  | some limit =>
    have hempty : Assembly.empty.states.size ≤ limit := Nat.zero_le limit
    rw [compile, compile, Assembly.pushAll_some hempty hts, Assembly.pushAll_some hempty hus]

/-- Under every limit it makes no difference in which order three expressions are joined. -/
theorem compile_regrouped (hp : Compiles p) (hq : Compiles q) (hr : Compiles r)
    (limit : Option Nat) : compile limit (p ++ q ++ r ++ [.op .concat, .op .concat]) =
      compile limit (p ++ q ++ [.op .concat] ++ r ++ [.op .concat]) := by
  obtain ⟨states, f, hrow, hleft⟩ := Assembly.exists_pushAll_regrouped hp hq hr .empty
  exact compile_congr hrow hleft limit

/-- Three expressions in a row compile. -/
theorem exists_compile_row (hp : Compiles p) (hq : Compiles q) (hr : Compiles r) :
    ∃ n, compile none (p ++ q ++ r ++ [.op .concat, .op .concat]) = .ok n := by
  obtain ⟨states, f, hrow, -⟩ := Assembly.exists_pushAll_regrouped hp hq hr .empty
  rw [compile, hrow]
  exact ⟨_, rfl⟩

end Thompson

/-- A pattern that ends in nothing incomplete is cut in the same way whatever follows. -/
theorem Reading.ofBytes_append {p : Pattern} (h : (ofBytes p).tail = .complete) (rest : Pattern) :
    ofBytes (p ++ rest) =
      ⟨(ofBytes p).lexemes ++ (ofBytes rest).lexemes, (ofBytes rest).tail⟩ := by
  have hp : (ofBytes p).Lawful := lawful_resume .start p trivial
  have hrest : (ofBytes rest).Lawful := lawful_resume .start rest trivial
  have hbytes := bytes_ofBytes p
  rw [bytes, h, Tail.bytes, List.append_nil] at hbytes
  have hlawful : Lawful ⟨(ofBytes p).lexemes ++ (ofBytes rest).lexemes, (ofBytes rest).tail⟩ := by
    refine ⟨fun l hl => ?_, hrest.tail⟩
    rcases List.mem_append.mp hl with hl | hl
    · exact hp.lexemes l hl
    · exact hrest.lexemes l hl
  refine (lawful_and_bytes_eq_iff.mp ⟨hlawful, ?_⟩).symm
  rw [bytes, List.flatMap_append, hbytes, List.append_assoc, ← bytes, bytes_ofBytes]

/-- No concatenation stands in front of a closing parenthesis, and an expression has ended behind
it. -/
theorem joinFrom_append_rparen (ended : Bool) (ts rest : List Token) :
    joinFrom ended (ts ++ .rparen :: rest) =
      joinFrom ended ts ++ .rparen :: joinFrom true rest := by
  rw [joinFrom_append]
  cases endedBehind ended ts <;> rfl

/-- A stream in parentheses is joined to an expression in front of it, and otherwise made explicit
by itself. -/
theorem joinFrom_group (ended : Bool) (ts rest : List Token) :
    joinFrom ended (.lparen :: ts ++ .rparen :: rest) =
      (if ended then [.op .concat] else []) ++
        (.lparen :: joinFrom false ts ++ .rparen :: joinFrom true rest) := by
  have hopen : joinFrom ended (.lparen :: ts ++ .rparen :: rest) =
      (if ended then [.op .concat] else []) ++
        .lparen :: joinFrom false (ts ++ .rparen :: rest) := by
    cases ended <;> rfl
  rw [hopen, joinFrom_append_rparen, List.cons_append]

namespace Pattern

/-- The pattern in parentheses. -/
def group (p : Pattern) : Pattern := 0x28 :: p ++ [0x29]

/-- The parentheses of the pattern pair up, and it ends in neither a lone backslash nor a bracket
that is never closed. -/
structure Closed (p : Pattern) : Prop where
  /-- Every parenthesis has its partner. -/
  balanced : Nesting.of p.tokens = ⟨0, 0⟩
  /-- Nothing is left to be completed. -/
  complete : (Reading.ofBytes p).tail = .complete

variable {x y z : Pattern}

/-- A closed pattern in parentheses is cut in the same way whatever follows. -/
theorem ofBytes_group_append (hx : x.Closed) (rest : Pattern) :
    Reading.ofBytes (x.group ++ rest) =
      ⟨.plain 0x28 :: (Reading.ofBytes x).lexemes ++ .plain 0x29 :: (Reading.ofBytes rest).lexemes,
        (Reading.ofBytes rest).tail⟩ := by
  have hopen : Reading.ofBytes (0x28 :: (x ++ 0x29 :: rest)) =
      (Reading.ofBytes (x ++ 0x29 :: rest)).cons (.plain 0x28) :=
    Reading.ofBytes_plain (by decide) (by decide) _
  have hclose : Reading.ofBytes (0x29 :: rest) = (Reading.ofBytes rest).cons (.plain 0x29) :=
    Reading.ofBytes_plain (by decide) (by decide) rest
  rw [group, List.cons_append, List.cons_append, List.append_assoc, List.singleton_append, hopen,
    Reading.ofBytes_append hx.complete, hclose]
  rfl

/-- The tokens of a closed pattern in parentheses and of what follows it. -/
theorem tokens_group_append (hx : x.Closed) (rest : Pattern) :
    tokens (x.group ++ rest) = .lparen :: x.tokens ++ .rparen :: tokens rest := by
  have hx' : x.tokens = (Reading.ofBytes x).lexemes.map Lexeme.token := by
    rw [tokens, Reading.tokens, hx.complete]
    exact List.append_nil _
  rw [tokens, ofBytes_group_append hx, hx', tokens, Reading.tokens, Reading.tokens]
  simp only [List.map_append, List.map_cons, List.append_assoc, List.cons_append]
  rfl

/-- Two closed patterns in parentheses, one behind the other, are closed. -/
theorem Closed.group_append_group (hx : x.Closed) (hy : y.Closed) :
    (x.group ++ y.group).Closed where
  balanced := by
    have htokens := tokens_group_append hy []
    rw [List.append_nil] at htokens
    rw [tokens_group_append hx, htokens, Nesting.of_group_append hx.balanced,
      Nesting.of_group_append hy.balanced]
    rfl
  complete := by
    have hread := ofBytes_group_append hy []
    rw [List.append_nil] at hread
    rw [ofBytes_group_append hx, hread]
    rfl

/-- Two closed patterns in parentheses are converted one by one and then joined. -/
theorem postorder_group_append_group (hx : x.Closed) (hy : y.Closed) :
    (x.group ++ y.group).postorder = x.postorder ++ y.postorder ++ [.op .concat] := by
  have hgroup : ∀ {p : Pattern}, p.Closed → ∀ yard : Yard,
      yard.Emits 3 (.lparen :: joinFrom false p.tokens ++ [.rparen]) p.postorder := by
    intro p hp yard
    have hbalanced : Nesting.of (joinFrom false p.tokens) = ⟨0, 0⟩ := by
      rw [Nesting.of, Nesting.foldl_joinFrom]
      exact hp.balanced
    rw [Yard.emits_repetition_iff, Yard.foldl_feed_group hbalanced, postorder, explicitTokens,
      insertConcats_eq_joinFrom]
  have htokens := tokens_group_append hy []
  rw [List.append_nil] at htokens
  have hexplicit : (x.group ++ y.group).explicitTokens =
      (.lparen :: joinFrom false x.tokens ++ [.rparen]) ++
        .op .concat :: (.lparen :: joinFrom false y.tokens ++ [.rparen]) := by
    rw [explicitTokens, insertConcats_eq_joinFrom, tokens_group_append hx, htokens,
      joinFrom_group, joinFrom_group]
    simp only [Bool.false_eq_true, if_false, if_true, List.nil_append, List.cons_append,
      List.append_assoc]
    rfl
  have hunder : Yard.Under (Operator.precedence .concat) Yard.start.stack := by
    intro t below hstack
    cases hstack
  rw [postorder, hexplicit]
  exact Yard.toPostorder_of_emits (Yard.Emits.binary (o := .concat) (m := 3) rfl (by decide) hunder
    ((hgroup hx _).mono (by decide)) fun yard _ => hgroup hy yard)

end Pattern

/-- The grouping of concatenations leaves no trace in the automaton. Of three streams that compile
it makes no difference, under any limit, whether the last two are joined first or the first two.
Hence of three closed patterns that compile, each in parentheses, it makes no difference whether
further parentheses are put around the last two or around the first two: without a limit both
patterns compile to one automaton, and under every limit they have the same result. -/
theorem concat_grouping_leaves_no_trace :
    (∀ p q r, Thompson.Compiles p → Thompson.Compiles q → Thompson.Compiles r → ∀ limit,
      Thompson.compile limit (p ++ q ++ r ++ [.op .concat, .op .concat]) =
        Thompson.compile limit (p ++ q ++ [.op .concat] ++ r ++ [.op .concat])) ∧
    ∀ x y z : Pattern, x.Closed → y.Closed → z.Closed → Thompson.Compiles x.postorder →
      Thompson.Compiles y.postorder → Thompson.Compiles z.postorder →
      (∃ n, Thompson.compile none (x.group ++ (y.group ++ z.group).group).postorder = .ok n ∧
        Thompson.compile none ((x.group ++ y.group).group ++ z.group).postorder = .ok n) ∧
      ∀ limit, Thompson.compile limit (x.group ++ (y.group ++ z.group).group).postorder =
        Thompson.compile limit ((x.group ++ y.group).group ++ z.group).postorder := by
  refine ⟨fun p q r hp hq hr => Thompson.compile_regrouped hp hq hr,
    fun x y z hx hy hz hpx hpy hpz => ?_⟩
  have hright : (x.group ++ (y.group ++ z.group).group).postorder =
      x.postorder ++ y.postorder ++ z.postorder ++ [.op .concat, .op .concat] := by
    rw [Pattern.postorder_group_append_group hx (hy.group_append_group hz),
      Pattern.postorder_group_append_group hy hz]
    simp only [List.append_assoc, List.singleton_append]
  have hleft : ((x.group ++ y.group).group ++ z.group).postorder =
      x.postorder ++ y.postorder ++ [.op .concat] ++ z.postorder ++ [.op .concat] := by
    rw [Pattern.postorder_group_append_group (hx.group_append_group hy) hz,
      Pattern.postorder_group_append_group hx hy]
  have hsame := Thompson.compile_regrouped hpx hpy hpz
  obtain ⟨n, hn⟩ := Thompson.exists_compile_row hpx hpy hpz
  rw [hright, hleft]
  exact ⟨⟨n, hn, (hsame none).symm.trans hn⟩, hsame⟩

/-- A byte, a loop and a choice, in the two groupings of their concatenation. -/
theorem choiceBehindLoop_leaves_no_trace :
    (∃ n, Thompson.compile none (Pattern.ofString "(a)((b*)(c|d))").postorder = .ok n ∧
      Thompson.compile none (Pattern.ofString "((a)(b*))(c|d)").postorder = .ok n) ∧
    Thompson.compile (some 5) (Pattern.ofString "(a)((b*)(c|d))").postorder =
      Thompson.compile (some 5) (Pattern.ofString "((a)(b*))(c|d)").postorder := by
  have h := concat_grouping_leaves_no_trace.right [0x61] [0x62, 0x2a] [0x63, 0x7c, 0x64]
    ⟨rfl, rfl⟩ ⟨rfl, rfl⟩ ⟨rfl, rfl⟩ ⟨none, _, rfl⟩ ⟨none, _, rfl⟩ ⟨none, _, rfl⟩
  exact ⟨h.left, h.right (some 5)⟩

end ByteRegex
