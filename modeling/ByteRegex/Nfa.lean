import ByteRegex.Byte

/-!
# Automata

A nondeterministic automaton is an array of states, whose positions are the ids that edges
refer to, with a start and an accept state. Edges read one byte or nothing. It is plain
data: nothing here promises that ids are in range, so looking up a state may fail, and
the failure names the id and the number of states.
-/

namespace ByteRegex

/-- An edge to the state with the given id. -/
inductive Edge where
  /-- Reads exactly this byte. -/
  | byte (byte : UInt8) (target : Nat)
  /-- Reads nothing. -/
  | epsilon (target : Nat)
deriving DecidableEq, Repr

namespace Edge

/-- Where the edge leads. -/
def target : Edge → Nat
  | byte _ target => target
  | epsilon target => target

/-- The byte that the edge reads, if any. -/
def label : Edge → Option UInt8
  | byte b _ => some b
  | epsilon _ => none

/-- Where the edge leads on the given label, if it carries that label. -/
def targetOn (label : Option UInt8) (e : Edge) : Option Nat :=
  if e.label = label then some e.target else none

end Edge

/-- A state: its outgoing edges, in the order in which they were added, and its mark. -/
structure State where
  /-- The outgoing edges. -/
  edges : List Edge
  /-- Whether the state is marked as accepting. -/
  accepting : Bool
deriving DecidableEq, Repr

namespace State

/-- A state without edges and without the mark. -/
def blank : State := ⟨[], false⟩

/-- The targets of the edges with the given label, in edge order. -/
def targetsOn (s : State) (label : Option UInt8) : List Nat :=
  s.edges.filterMap (Edge.targetOn label)

end State

/-- A nondeterministic automaton over bytes. -/
structure Nfa where
  /-- The states; a state's id is its position. -/
  states : Array State
  /-- The id of the state in which every run starts. -/
  start : Nat
  /-- The id of the state that decides acceptance. -/
  accept : Nat
deriving DecidableEq, Repr

/-- A look-up of a state that does not exist. -/
structure OutOfRange where
  /-- The number of states. -/
  size : Nat
  /-- The id that was looked up. -/
  id : Nat
deriving DecidableEq, Repr

/-- The fault in words. -/
def OutOfRange.message (e : OutOfRange) : String :=
  "index out of bounds: the len is " ++ e.size.repr ++ " but the index is " ++ e.id.repr

namespace Nfa

/-- The number of states. -/
def size (n : Nfa) : Nat := n.states.size

/-- Whether there is no state at all. -/
def isEmpty (n : Nfa) : Bool := n.states.isEmpty

/-- The state with the given id. -/
def state (n : Nfa) (id : Nat) : Except OutOfRange State :=
  match n.states[id]? with
  | some s => .ok s
  | none => .error ⟨n.size, id⟩

/-- A look-up succeeds exactly on the ids below the number of states. -/
theorem state_eq_ok_iff (n : Nfa) (id : Nat) (s : State) :
    n.state id = .ok s ↔ n.states[id]? = some s := by
  unfold state
  cases h : n.states[id]? with
  | none => simp
  | some t => simp

end Nfa

end ByteRegex
