import ByteRegex.Nfa.Run
import ByteRegex.Pattern
import ByteRegex.Text.Quoted
import ByteRegex.Thompson

/-!
# Regular expressions over text

A regular expression is a pattern given as text together with its automaton. It matches
whole inputs only. A builder collects the options before anything is compiled, and an
error keeps the pattern beside the cause.
-/

namespace ByteRegex

/-- A compiled pattern. -/
structure Regex where
  /-- The pattern as it was given. -/
  pattern : String
  /-- The automaton of the pattern. -/
  nfa : Nfa

namespace Regex

/-- A pattern that could not be compiled. -/
structure Error where
  /-- The pattern as it was given. -/
  pattern : String
  /-- What is wrong with it. -/
  cause : CompileError
deriving DecidableEq, Repr

/-- The pattern and the cause in words. -/
def Error.message (e : Error) : String :=
  "failed to compile '" ++ e.pattern ++ "': " ++ e.cause.message

/-- A pattern and the options to compile it with. -/
structure Builder where
  /-- The pattern as it was given. -/
  pattern : String
  /-- The largest number of states allowed, if there is one. -/
  stateLimit : Option Nat
deriving DecidableEq, Repr

namespace Builder

/-- The pattern without a limit. -/
def ofPattern (pattern : String) : Builder := ⟨pattern, none⟩

/-- Replace the limit. -/
def withStateLimit (b : Builder) (limit : Option Nat) : Builder := { b with stateLimit := limit }

/-- Compile the pattern. -/
def build (b : Builder) : Except Error Regex :=
  match Thompson.compile b.stateLimit (Pattern.ofString b.pattern).postorder with
  | .ok nfa => .ok ⟨b.pattern, nfa⟩
  | .error cause => .error ⟨b.pattern, cause⟩

/-- The outline of the builder. -/
def outline (b : Builder) : Text.Outline :=
  .record "RegexBuilder" [("pattern", .word (Text.quoteString b.pattern)),
    ("config", .record "Config" [("state_limit",
      .optional (b.stateLimit.map Text.Outline.number))])]

end Builder

/-- Compile a pattern without a limit. -/
def compile (pattern : String) : Except Error Regex := (Builder.ofPattern pattern).build

/-- Whether the whole input matches. -/
def isMatch (r : Regex) (input : List UInt8) : Bool := r.nfa.accepts input

end Regex

end ByteRegex
