import ByteRegex.Nfa.Run
import ByteRegex.Pattern
import ByteRegex.Thompson

/-!
# Diagnostics

Reading a pattern, building its automaton and running it leave a trail of diagnostics.
The diagnostics are computed from the same values as the results, so a trail can be
asked for at any time and changes nothing.
-/

namespace ByteRegex

/-- Which part of the work a diagnostic comes from. -/
inductive Stage where
  /-- Reading a pattern. -/
  | reading
  /-- Building an automaton. -/
  | building
  /-- Running an automaton. -/
  | running
deriving DecidableEq, Repr

/-- How much detail a diagnostic shows. -/
inductive Level where
  /-- One of a few per pattern. -/
  | debug
  /-- One for each byte of input. -/
  | trace
deriving DecidableEq, Repr

/-- One observation about the work on a pattern. -/
inductive Diagnostic where
  /-- A class that is begun at this offset is not closed, so its bytes are literals. -/
  | unterminatedClass (offset : Nat)
  /-- A closing parenthesis has none to close. -/
  | unmatchedClosing
  /-- The pattern was read: its number of bytes and of operator-last tokens. -/
  | parsed (bytes tokens : Nat)
  /-- The automaton was built: the number of tokens and of states. -/
  | compiled (tokens states : Nat)
  /-- A byte was read by the automaton. -/
  | stepped (step : Nfa.Step)
deriving DecidableEq, Repr

namespace Diagnostic

/-- The part of the work that the diagnostic comes from. -/
def stage : Diagnostic → Stage
  | unterminatedClass _ | unmatchedClosing | parsed _ _ => .reading
  | compiled _ _ => .building
  | stepped _ => .running

/-- The detail that the diagnostic shows. -/
def level : Diagnostic → Level
  | unterminatedClass _ | unmatchedClosing | parsed _ _ | compiled _ _ => .debug
  | stepped _ => .trace

/-- The diagnostic in words. -/
def message : Diagnostic → String
  | unterminatedClass offset =>
    "unterminated class at offset " ++ offset.repr ++ ", treating it as literals"
  | unmatchedClosing => "unmatched ')' in pattern, ignoring it"
  | parsed bytes tokens =>
    "parsed pattern of " ++ bytes.repr ++ " bytes into " ++ tokens.repr ++ " postfix tokens"
  | compiled tokens states =>
    "compiled " ++ tokens.repr ++ " postfix tokens into an NFA with " ++ states.repr
      ++ " states"
  | stepped step =>
    "after byte '" ++ Byte.escaped step.byte ++ "': " ++ step.active.repr ++ " active states"

end Diagnostic

/-- What reading the pattern reports: an unterminated class, every unmatched closing
parenthesis, and the sizes. -/
def Pattern.diagnostics (p : Pattern) : List Diagnostic :=
  ((Reading.ofBytes p).unterminatedClass?.map Diagnostic.unterminatedClass).toList
    ++ List.replicate (unmatchedClosings p.explicitTokens) .unmatchedClosing
    ++ [.parsed p.length p.postorder.length]

/-- Reading has no part in the work that follows it, and reports little. -/
theorem Pattern.of_mem_diagnostics {p : Pattern} {d : Diagnostic} (h : d ∈ p.diagnostics) :
    d.stage = .reading ∧ d.level = .debug := by
  rw [diagnostics, List.mem_append, List.mem_append, Option.mem_toList] at h
  rcases h with (h | h) | h
  · obtain ⟨offset, -, rfl⟩ := Option.map_eq_some_iff.mp h
    exact ⟨rfl, rfl⟩
  · rw [List.eq_of_mem_replicate h]
    exact ⟨rfl, rfl⟩
  · rw [List.mem_singleton.mp h]
    exact ⟨rfl, rfl⟩

/-- Why a pattern gives no verdict on an input. -/
inductive SessionError where
  /-- The pattern is no expression, or too large. -/
  | compile (cause : CompileError)
  /-- The run left the automaton. -/
  | run (cause : OutOfRange)
deriving DecidableEq, Repr

/-- Everything about one pattern and one input. -/
structure Session where
  /-- Whether the input matches. -/
  verdict : Except SessionError Bool
  /-- The diagnostics of all stages, in order. -/
  diagnostics : List Diagnostic

/-- Read a pattern, build its automaton within the limit and run it on the input. -/
def Session.of (limit : Option Nat) (p : Pattern) (input : List UInt8) : Session :=
  let ts := p.postorder
  match Thompson.compile limit ts with
  | .error cause => ⟨.error (.compile cause), p.diagnostics⟩
  | .ok nfa =>
    let before := p.diagnostics ++ [.compiled ts.length nfa.size]
    match nfa.run input with
    | .error cause => ⟨.error (.run cause), before⟩
    | .ok r => ⟨.ok r.accepted, before ++ r.steps.map .stepped⟩

end ByteRegex
