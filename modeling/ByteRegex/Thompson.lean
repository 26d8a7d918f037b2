import ByteRegex.CompileError
import ByteRegex.Nfa

/-!
# Thompson's construction

Tokens are read with operators behind their operands. Every complete expression is a
fragment of one growing automaton, with a start and an accept state, and the fragments
wait on a stack. An operand allocates a pair of states; an operator takes its fragments
from the stack, wires them with silent edges and puts one fragment back. A missing
operand is reported before the state limit is looked at.
-/

namespace ByteRegex.Thompson

/-- A part of the automaton that reads one complete expression. -/
structure Fragment where
  /-- The id of the state it is entered by. -/
  start : Nat
  /-- The id of the state it is left by. -/
  accept : Nat
deriving DecidableEq, Repr

/-- A construction in progress. -/
structure Assembly where
  /-- The states allocated so far. -/
  states : Array State
  /-- The complete expressions, latest first. -/
  stack : List Fragment
deriving DecidableEq, Repr

/-- Nothing allocated. -/
def Assembly.empty : Assembly := ⟨#[], []⟩

/-- Add edges behind those that the state with the given id has. -/
def addEdges (states : Array State) (id : Nat) (edges : List Edge) : Array State :=
  states.modify id fun s => { s with edges := s.edges ++ edges }

/-- Add a silent edge between two states. -/
def link (states : Array State) (source target : Nat) : Array State :=
  addEdges states source [.epsilon target]

/-- Refuse a number of states that the limit does not allow. -/
def checkSize (limit : Option Nat) (size : Nat) : Except CompileError Unit :=
  match limit with
  | none => .ok ()
  | some most => if size ≤ most then .ok () else .error (.tooComplex most)

/-- Allocate two blank states. They are the fragment that `wire` completes, and the
fragment is put on top of the given stack. -/
def allocate (limit : Option Nat) (states : Array State) (stack : List Fragment)
    (wire : Fragment → Array State → Array State) : Except CompileError Assembly :=
  match checkSize limit (states.size + 2) with
  | .error e => .error e
  | .ok () =>
    let fresh : Fragment := ⟨states.size, states.size + 1⟩
    .ok ⟨wire fresh ((states.push .blank).push .blank), fresh :: stack⟩

/-- One edge for each byte leads from the start to the accept state. -/
def wireBytes (bytes : List UInt8) (f : Fragment) (states : Array State) : Array State :=
  addEdges states f.start (bytes.map (Edge.byte · f.accept))

/-- The start splits into both branches, and both branches join at the accept state. -/
def wireAlt (a b f : Fragment) (states : Array State) : Array State :=
  link (link (link (link states f.start a.start) f.start b.start) a.accept f.accept)
    b.accept f.accept

/-- Enter the loop or skip it; behind each pass, repeat or leave. -/
def wireStar (a f : Fragment) (states : Array State) : Array State :=
  link (link (link (link states f.start a.start) f.start f.accept) a.accept a.start)
    a.accept f.accept

/-- Enter the loop; behind each pass, repeat or leave. -/
def wirePlus (a f : Fragment) (states : Array State) : Array State :=
  link (link (link states f.start a.start) a.accept a.start) a.accept f.accept

/-- Pass through once or skip. -/
def wireQuestion (a f : Fragment) (states : Array State) : Array State :=
  link (link (link states f.start a.start) f.start f.accept) a.accept f.accept

namespace Assembly

/-- An operand that reads one of the given bytes. -/
def pushBytes (limit : Option Nat) (bytes : List UInt8) (a : Assembly) :
    Except CompileError Assembly :=
  allocate limit a.states a.stack (wireBytes bytes)

/-- Replace the fragments on top of the stack by the one that an operator makes of them.
Concatenation joins two fragments and allocates nothing. -/
def reduce (limit : Option Nat) (op : Operator) (a : Assembly) : Except CompileError Assembly :=
  match op, a.stack with
  | .concat, y :: x :: rest =>
    .ok ⟨link a.states x.accept y.start, ⟨x.start, y.accept⟩ :: rest⟩
  | .alt, y :: x :: rest => allocate limit a.states rest (wireAlt x y)
  | .star, x :: rest => allocate limit a.states rest (wireStar x)
  | .plus, x :: rest => allocate limit a.states rest (wirePlus x)
  | .question, x :: rest => allocate limit a.states rest (wireQuestion x)
  | op, _ => .error (.insufficientOperands op)

/-- Read one token. Parentheses mean nothing here, because the order of the tokens
expresses all grouping. -/
def push (limit : Option Nat) (a : Assembly) : Token → Except CompileError Assembly
  | .literal b => a.pushBytes limit [b]
  | .charClass c => a.pushBytes limit c.members
  | .dot => a.pushBytes limit ByteClass.anyExceptNewline.members
  | .op o => a.reduce limit o
  | .lparen | .rparen => .ok a

/-- Read a stream of tokens. -/
def pushAll (limit : Option Nat) (a : Assembly) : List Token → Except CompileError Assembly
  | [] => .ok a
  | t :: rest =>
    match a.push limit t with
    | .error e => .error e
    | .ok a => a.pushAll limit rest

/-- The only fragment becomes the automaton, and its accept state gets the mark. -/
def finish (a : Assembly) : Except CompileError Nfa :=
  match a.stack with
  | [f] => .ok ⟨a.states.modify f.accept fun s => { s with accepting := true }, f.start, f.accept⟩
  | stack => .error (.unterminatedExpression stack.length)

end Assembly

/-- Build the automaton of a stream of tokens, operators behind their operands, with at
most the given number of states. -/
def compile (limit : Option Nat) (ts : List Token) : Except CompileError Nfa :=
  match Assembly.empty.pushAll limit ts with
  | .error e => .error e
  | .ok a => a.finish

end ByteRegex.Thompson
