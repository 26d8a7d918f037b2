import ByteRegex.Command
import ByteRegex.Nfa.Printer
import ByteRegex.Pattern
import ByteRegex.Text.Numeral
import ByteRegex.Thompson

/-!
# The command that dumps automata

The command takes patterns and shows, for each, its tokens, their operator-last order
and the automaton. A state limit may stand anywhere among the patterns; the last one
counts for all of them. A pattern that does not compile is shown with the reason and is
no failure of the command.
-/

namespace ByteRegex.Command.Dump

/-- How the command is used. -/
def usage : String :=
  "Usage: nfa-dump [--state-limit <N>] <pattern>...\n\n"
    ++ "Prints the token stream, the postfix stream and the compiled NFA for each\n"
    ++ "pattern. Set RUST_LOG=debug to see what the compiler logs."

/-- Why the arguments are refused. -/
inductive ArgumentError where
  /-- The limit option is the last argument. -/
  | missingLimit
  /-- The value of the limit option is not a numeral below 2^64. -/
  | invalidLimit (value : String) (fault : Text.NumeralFault)
  /-- There is no pattern. -/
  | noPatterns
deriving DecidableEq, Repr

/-- The complaint in words, with its cause in a paragraph of its own. -/
def ArgumentError.message : ArgumentError → String
  | missingLimit => "--state-limit needs a value"
  | invalidLimit value fault =>
    "invalid state limit '" ++ value ++ "'\n\nCaused by:\n    " ++ fault.message
  | noPatterns => "no patterns given\n\n" ++ usage

/-- What the arguments ask for. -/
inductive Request where
  /-- Show how the command is used. -/
  | help
  /-- Dump the patterns, in order, with this limit. -/
  | dump (limit : Option Nat) (patterns : List String)
deriving DecidableEq, Repr

/-- Continue to read arguments, from left to right, after the given limit and patterns,
the latest pattern first. The argument behind a limit option is its value, whatever it
looks like. -/
def readArguments (limit : Option Nat) (patterns : List String) :
    List String → Except ArgumentError Request
  | [] => if patterns.isEmpty then .error .noPatterns else .ok (.dump limit patterns.reverse)
  | argument :: rest =>
    if argument = "-h" ∨ argument = "--help" then .ok .help
    else if argument = "--state-limit" then
      match rest with
      | [] => .error .missingLimit
      | value :: rest =>
        match Text.readNumeral UInt64.size value with
        | .error fault => .error (.invalidLimit value fault)
        | .ok n => readArguments (some n) patterns rest
    else readArguments limit (argument :: patterns) rest

/-- What the arguments ask for, from the first one on. -/
def parseArguments (arguments : List String) : Except ArgumentError Request :=
  readArguments none [] arguments

/-- Everything shown for one pattern. -/
def block (limit : Option Nat) (pattern : String) : String :=
  let p := Pattern.ofString pattern
  "\n=== Pattern: '" ++ pattern ++ "' ===\ntokens:  " ++ Token.streamText p.explicitTokens
    ++ "\npostfix: " ++ Token.streamText p.postorder ++ "\n"
    ++ (match Thompson.compile limit p.postorder with
      | .ok nfa => nfa.dump
      | .error e => "Failed to compile: " ++ e.message ++ "\n")

/-- The whole command. -/
def run (arguments : List String) : Outcome :=
  match parseArguments arguments with
  | .error e => .failure ("Error: " ++ e.message ++ "\n")
  | .ok .help => .success (usage ++ "\n")
  | .ok (.dump limit patterns) => .success (String.join (patterns.map (block limit)))

end ByteRegex.Command.Dump
