import ByteRegex.Nfa.Closure

/-!
# Runs

A run holds every state the automaton could be in and moves the whole set with each
byte, so no input is read twice. It ends early when the set is empty, because an empty
set stays empty. The report of a run keeps the verdict and the size of the set after
each byte that was read.
-/

namespace ByteRegex.Nfa

/-- What one byte left of the run. -/
structure Step where
  /-- The byte that was read. -/
  byte : UInt8
  /-- The number of states the automaton could then be in. -/
  active : Nat
deriving DecidableEq, Repr

/-- The report of a run. -/
structure Run where
  /-- Whether the automaton accepts the whole input. -/
  accepted : Bool
  /-- One entry for each byte that was read. -/
  steps : List Step
deriving DecidableEq, Repr

/-- Put a step in front. -/
def Run.cons (step : Step) (r : Run) : Run := { r with steps := step :: r.steps }

/-- The states in which a run starts. -/
def startSet (n : Nfa) : Except OutOfRange StateSet :=
  n.epsilonClosure ((∅ : StateSet).insert n.start)

/-- Read one byte, then follow silent edges. -/
def advance (n : Nfa) (active : StateSet) (b : UInt8) : Except OutOfRange StateSet :=
  n.step active b >>= n.epsilonClosure

/-- Continue a run from the given states. -/
def runFrom (n : Nfa) (active : StateSet) : List UInt8 → Except OutOfRange Run
  | [] => .ok ⟨n.isAccepting active, []⟩
  | b :: rest =>
    match n.advance active b with
    | .error e => .error e
    | .ok next =>
      if next.isEmpty then .ok ⟨false, [⟨b, 0⟩]⟩
      else (n.runFrom next rest).map (Run.cons ⟨b, next.size⟩)

/-- Run the automaton on the whole input. -/
def run (n : Nfa) (input : List UInt8) : Except OutOfRange Run :=
  n.startSet >>= fun active => n.runFrom active input

/-- Whether the automaton accepts the whole input. A run that leaves the automaton
accepts nothing. -/
def accepts (n : Nfa) (input : List UInt8) : Bool :=
  match n.run input with
  | .ok r => r.accepted
  | .error _ => false

end ByteRegex.Nfa
