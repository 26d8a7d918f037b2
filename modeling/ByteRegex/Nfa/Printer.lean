import ByteRegex.Nfa
import ByteRegex.Text.Outline

/-!
# The texts of an automaton

The dump lists the start and accept ids, then every state on a line of its own followed
by its edges, one to a line. The outline shows the same data with every field named.
-/

namespace ByteRegex

/-- The text, moved to the right end of a column of the given width. -/
def Text.alignRight (width : Nat) (s : String) : String :=
  String.ofList (List.replicate (width - s.length) ' ') ++ s

namespace Edge

/-- The line of the edge: the quoted byte or an epsilon, and the target. -/
def line : Edge → String
  | byte b target => "       '" ++ Byte.escaped b ++ "' -> " ++ target.repr ++ "\n"
  | epsilon target => "       ε -> " ++ target.repr ++ "\n"

/-- The outline of the edge. -/
def outline : Edge → Text.Outline
  | byte b target => .record "Byte" [("byte", .number b.toNat), ("target", .number target)]
  | epsilon target => .record "Epsilon" [("target", .number target)]

end Edge

namespace State

/-- The lines of the state with the given id: its own, then one for each edge. -/
def lines (id : Nat) (s : State) : List String :=
  (Text.alignRight 4 id.repr ++ (if s.accepting then " (accept)" else "") ++ ":\n")
    :: s.edges.map Edge.line

/-- The outline of the state. -/
def outline (s : State) : Text.Outline :=
  .record "State" [("transitions", .list (s.edges.map Edge.outline)),
    ("is_accept", .truth s.accepting)]

end State

namespace Nfa

/-- The lines of the states of a list, which are numbered from the given id. -/
def stateLines (id : Nat) : List State → List String
  | [] => []
  | s :: rest => s.lines id ++ stateLines (id + 1) rest

/-- The dump of the automaton. -/
def dump (n : Nfa) : String :=
  String.join (("start: " ++ n.start.repr ++ "\n") :: ("accept: " ++ n.accept.repr ++ "\n")
    :: stateLines 0 n.states.toList)

/-- The outline of the automaton. -/
def outline (n : Nfa) : Text.Outline :=
  .record "NFA" [("states", .list (n.states.toList.map State.outline)),
    ("start", .number n.start), ("accept", .number n.accept)]

end Nfa

end ByteRegex
