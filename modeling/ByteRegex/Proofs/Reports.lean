import ByteRegex.Diagnostic
import ByteRegex.Proofs.Factoring
import ByteRegex.Proofs.Pairing
import Mathlib.Data.List.Infix

/-!
# What reading a pattern reports

Reading never fails, but it reports where it falls back: a class that is begun and not closed is
read byte by byte, and a closing parenthesis without a partner is passed over. Both are told here by
the pattern and its tokens alone. The offset of the class comes from the only way to cut the
pattern into lexemes, and the parentheses are counted by what is opened and closed in front of
them, whatever operators wait in the yard at that moment.
-/

namespace ByteRegex

variable {p : Pattern} {ts : List Token} {k : Nat} {body : List UInt8}

/-- No group of the stream is open at its end: each part that reaches to the end closes at least as
many groups as it opens. -/
def Exhausted (ts : List Token) : Prop :=
  ∀ us, us <:+ ts → us.count .lparen ≤ us.count .rparen

instance : DecidablePred Exhausted := fun ts =>
  decidable_of_iff (∀ us ∈ ts.tails, us.count .lparen ≤ us.count .rparen)
    ⟨fun h us hus => h us ((List.mem_tails us ts).mpr hus),
      fun h us hus => h us ((List.mem_tails us ts).mp hus)⟩

/-- How many closing parentheses have no opening one left in front of them to match. -/
def strayClosings (ts : List Token) : Nat :=
  (List.range ts.length).countP fun i => ts[i]? = some .rparen ∧ Exhausted (ts.take i)

namespace Nesting

/-- A closing parenthesis closes at most one group. -/
theorem opened_close (n : Nesting) : n.close.opened = n.opened - 1 := by
  obtain ⟨opened, unmatched⟩ := n
  cases opened with
  | zero => rfl
  | succ opened => rfl

/-- A token is unmatched if it is a closing parenthesis and no group is open. -/
theorem unmatched_feed (n : Nesting) (t : Token) : (n.feed t).unmatched =
    n.unmatched + if t = .rparen ∧ n.opened = 0 then 1 else 0 := by
  obtain ⟨opened, unmatched⟩ := n
  cases t with
  | rparen =>
    cases opened with
    | zero => rfl
    | succ opened => rfl
  | _ => rfl

/-- The parts of a stream that reach to its end are those of the stream before, with its last
token. -/
theorem forall_suffix_concat {P : List Token → Prop} {t : Token} (hnil : P []) :
    (∀ us, us <:+ ts ++ [t] → P us) ↔ ∀ us, us <:+ ts → P (us ++ [t]) := by
  constructor
  · exact fun h us hus => h _ (List.suffix_concat_iff.mpr (.inr ⟨us, rfl, hus⟩))
  · intro h us hus
    rcases List.suffix_concat_iff.mp hus with rfl | ⟨vs, rfl, hvs⟩
    · exact hnil
    · exact h vs hvs

/-- As many groups are open at the end of a stream as some part that reaches to the end opens more
than it closes. The bound is any number, because a token at the end moves it for all parts. -/
theorem opened_le_iff : (of ts).opened ≤ k ↔
    ∀ us, us <:+ ts → us.count .lparen ≤ us.count .rparen + k := by
  induction ts using List.reverseRecOn generalizing k with
  | nil =>
    refine ⟨fun _ us hus => ?_, fun _ => Nat.zero_le k⟩
    rw [List.suffix_nil.mp hus]
    exact Nat.zero_le _
  | append_singleton ts t ih =>
    rw [of_concat, forall_suffix_concat (Nat.zero_le _)]
    simp only [List.count_append, List.count_singleton]
    cases t with
    | lparen =>
      cases k with
      | zero =>
        refine ⟨fun h => absurd h (Nat.not_succ_le_zero _), fun h => ?_⟩
        exact absurd (h [] List.nil_suffix) (by decide)
      | succ k =>
        simpa [feed, Nat.add_le_add_iff_right, ← Nat.add_assoc] using ih (k := k)
    | rparen =>
      have hclose : ((of ts).feed .rparen).opened ≤ k ↔ (of ts).opened ≤ k + 1 := by
        rw [feed, opened_close]
        omega
      rw [hclose, ih]
      simp [Nat.add_assoc, Nat.add_comm 1 k]
    | _ => simpa [feed] using ih (k := k)

/-- A stream is exhausted if no group of it is open at its end. -/
theorem exhausted_iff : Exhausted ts ↔ (of ts).opened = 0 := by
  rw [← Nat.le_zero, opened_le_iff]
  rfl

end Nesting

/-- A token adds a stray closing parenthesis if it is one and what is in front of it is
exhausted. -/
theorem strayClosings_concat (ts : List Token) (t : Token) : strayClosings (ts ++ [t]) =
    strayClosings ts + if t = .rparen ∧ Exhausted ts then 1 else 0 := by
  have hfront : ∀ i ∈ List.range ts.length,
      (decide ((ts ++ [t])[i]? = some .rparen ∧ Exhausted ((ts ++ [t]).take i)) = true ↔
        decide (ts[i]? = some .rparen ∧ Exhausted (ts.take i)) = true) := by
    intro i hi
    have hlt := List.mem_range.mp hi
    rw [List.getElem?_append_left hlt, List.take_append_of_le_length (Nat.le_of_lt hlt)]
  rw [strayClosings, List.length_append, List.length_singleton, List.range_succ,
    List.countP_append, List.countP_congr hfront, strayClosings, List.countP_singleton,
    List.getElem?_concat_length, List.take_left]
  simp only [Option.some.injEq, decide_eq_true_eq]

/-- The stray closing parentheses are those that counting leaves unmatched. -/
theorem strayClosings_eq (ts : List Token) : strayClosings ts = (Nesting.of ts).unmatched := by
  induction ts using List.reverseRecOn with
  | nil => rfl
  | append_singleton ts t ih =>
    rw [strayClosings_concat, ih, Nesting.of_concat, Nesting.unmatched_feed]
    simp only [Nesting.exhausted_iff]

/-- An opening parenthesis that nothing behind it closes makes no closing one stray, and saves none
from it. -/
theorem strayClosings_append_lparen_cons {ts us : List Token} (h : strayClosings us = 0) :
    strayClosings (ts ++ .lparen :: us) = strayClosings (ts ++ us) := by
  rw [strayClosings_eq] at h
  rw [strayClosings_eq, strayClosings_eq, Nesting.unmatched_append, Nesting.unmatched_append,
    Nesting.unmatched_lparen_cons, h]

/-- The yard finds no group to close exactly at the stray closing parentheses of what it reads,
before concatenation was made explicit. -/
theorem unmatchedClosings_insertConcats (ts : List Token) :
    unmatchedClosings (insertConcats ts) = strayClosings ts := by
  have hjoined : Nesting.of (insertConcats ts) = Nesting.of ts := by
    rw [insertConcats_eq_joinFrom]
    exact Nesting.foldl_joinFrom ⟨0, 0⟩ false ts
  rw [strayClosings_eq, ← hjoined, ← Yard.nesting_run]
  rfl

namespace Pattern

/-- The pattern begins with complete lexemes of so many bytes, and behind them it has an opening
bracket that is not closed in the rest. -/
def OpensAt (p : Pattern) (k : Nat) (body : List UInt8) : Prop :=
  ∃ ls : List Lexeme, (∀ l ∈ ls, l.Lawful) ∧ (ls.flatMap Lexeme.bytes).length = k ∧
    Lexeme.rightBracket ∉ body ∧ p = ls.flatMap Lexeme.bytes ++ Lexeme.leftBracket :: body

/-- Such a bracket is the one that reading finds behind the last lexeme. -/
theorem opensAt_iff : p.OpensAt k body ↔
    (Reading.ofBytes p).tail = .openBracket body ∧
      ((Reading.ofBytes p).lexemes.flatMap Lexeme.bytes).length = k := by
  constructor
  · rintro ⟨ls, hls, rfl, hbody, hp⟩
    have hread : ⟨ls, .openBracket body⟩ = Reading.ofBytes p :=
      Reading.lawful_and_bytes_eq_iff.mp ⟨⟨hls, hbody⟩, hp.symm⟩
    rw [← hread]
    exact ⟨rfl, rfl⟩
  · rintro ⟨htail, hk⟩
    obtain ⟨hlawful, hbytes⟩ :=
      Reading.lawful_and_bytes_eq_iff.mpr (rfl : Reading.ofBytes p = Reading.ofBytes p)
    have hbody := hlawful.tail
    rw [htail] at hbody
    refine ⟨_, hlawful.lexemes, hk, hbody, ?_⟩
    rw [Reading.bytes, htail] at hbytes
    exact hbytes.symm

/-- An unterminated class is a bracket that is not closed and is not the last byte. -/
theorem unterminatedClass?_eq_some_iff :
    (Reading.ofBytes p).unterminatedClass? = some k ↔ ∃ body, body ≠ [] ∧ p.OpensAt k body := by
  simp only [opensAt_iff, Reading.unterminatedClass?]
  rcases (Reading.ofBytes p).tail with - | - | ⟨- | ⟨b, rest⟩⟩ <;>
    simp [Tail.isUnterminatedClass]

end Pattern

/-- A session begins with the diagnostics of its pattern, and no later one is about reading. -/
theorem Session.exists_diagnostics_eq (limit : Option Nat) (p : Pattern) (input : List UInt8) :
    ∃ later, (Session.of limit p input).diagnostics = p.diagnostics ++ later ∧
      ∀ d ∈ later, d.stage ≠ .reading := by
  cases hcompile : Thompson.compile limit p.postorder with
  | error cause =>
    exact ⟨[], by simp only [Session.of, hcompile, List.append_nil], List.forall_mem_nil _⟩
  | ok n =>
    have hcompiled (later : List Diagnostic) (hlater : ∀ d ∈ later, d.stage ≠ .reading) :
        ∀ d ∈ .compiled p.postorder.length n.size :: later, d.stage ≠ .reading :=
      List.forall_mem_cons.mpr ⟨Stage.noConfusion, hlater⟩
    cases hrun : n.run input with
    | error cause =>
      refine ⟨_, ?_, hcompiled [] (List.forall_mem_nil _)⟩
      simp only [Session.of, hcompile, hrun]
    | ok r =>
      refine ⟨_, ?_, hcompiled (r.steps.map .stepped) fun d hd => ?_⟩
      · simp only [Session.of, hcompile, hrun, List.append_assoc, List.singleton_append]
      · obtain ⟨s, -, rfl⟩ := List.mem_map.mp hd
        exact Stage.noConfusion

/-- The diagnostics of reading tell exactly where it falls back, in this order: at most one class
that is begun and not closed, at the only offset at which that is so, then one for each stray
closing parenthesis, then the sizes. Nothing is told of a bracket that is the last byte, and an
opening parenthesis that is never closed makes no difference to what is told. A session tells all
of this first, in little detail, whatever comes of the pattern later. -/
theorem Pattern.diagnostics_report_fallbacks (p : Pattern) :
    (∃ classes : List Nat, classes.length ≤ 1 ∧
      (∀ k, k ∈ classes ↔ ∃ body, body ≠ [] ∧ p.OpensAt k body) ∧
      (∀ k, p.OpensAt k [] → classes = []) ∧
      p.diagnostics = classes.map .unterminatedClass ++
        List.replicate (strayClosings p.tokens) .unmatchedClosing ++
          [.parsed p.length p.postorder.length] ∧
      p.diagnostics.map Diagnostic.message =
        classes.map (fun k =>
          "unterminated class at offset " ++ k.repr ++ ", treating it as literals") ++
        List.replicate (strayClosings p.tokens) "unmatched ')' in pattern, ignoring it" ++
          ["parsed pattern of " ++ p.length.repr ++ " bytes into " ++ p.postorder.length.repr ++
            " postfix tokens"]) ∧
    (∀ front behind, p.tokens = front ++ .lparen :: behind → strayClosings behind = 0 →
      strayClosings (front ++ behind) = strayClosings p.tokens) ∧
    (∀ d ∈ p.diagnostics, d.level = .debug) ∧
    ∀ limit input, ∃ later,
      (Session.of limit p input).diagnostics = p.diagnostics ++ later ∧
        ∀ d ∈ later, d.stage ≠ .reading := by
  have htold : p.diagnostics =
      (Reading.ofBytes p).unterminatedClass?.toList.map .unterminatedClass ++
        List.replicate (strayClosings p.tokens) .unmatchedClosing ++
          [.parsed p.length p.postorder.length] := by
    rw [diagnostics, explicitTokens, unmatchedClosings_insertConcats, Option.toList_map]
  refine ⟨⟨(Reading.ofBytes p).unterminatedClass?.toList, Option.length_toList_le, fun k => ?_,
    fun k hk => ?_, htold, ?_⟩, fun front behind htokens hbehind => ?_,
    fun d hd => (of_mem_diagnostics hd).right,
    fun limit input => Session.exists_diagnostics_eq limit p input⟩
  · rw [Option.mem_toList, unterminatedClass?_eq_some_iff]
  · rw [Reading.unterminatedClass?, (opensAt_iff.mp hk).left]
    rfl
  · rw [htold, List.map_append, List.map_append, List.map_map, List.map_replicate]
    rfl
  · rw [htokens, strayClosings_append_lparen_cons hbehind]

/-- The pattern `)[](\[b` begins with a closing parenthesis and a class without members, and then
it leaves a group and a class open. -/
example : Pattern.diagnostics [0x29, 0x5b, 0x5d, 0x28, 0x5b, 0x62] =
    [.unterminatedClass 4, .unmatchedClosing, .parsed 6 6] := by
  decide

end ByteRegex
