import ByteRegex.Command
import ByteRegex.Regex

/-!
# The command that matches one line

The command takes a flag and a pattern, reads the first line of standard input and says
whether the line matches. The arguments are judged, and the pattern is compiled, before
standard input is touched.
-/

namespace ByteRegex.Command.Match

/-- Why the arguments are refused. -/
inductive ArgumentError where
  /-- There are not exactly two arguments. -/
  | count
  /-- The first argument is not the flag. -/
  | flag
  /-- The second argument does not compile. -/
  | pattern (error : Regex.Error)
deriving DecidableEq, Repr

/-- The complaint in words. A bad pattern is named with its cause, and the cause is
repeated as the reason. -/
def ArgumentError.message : ArgumentError → String
  | count => "Expected two arguments\n\nUsage: grape -E <pattern>"
  | flag => "Expected first argument to be '-E'"
  | pattern error => error.message ++ ": " ++ error.cause.message

/-- The regular expression that the arguments ask for. -/
def parseArguments : List String → Except ArgumentError Regex
  | [flag, pattern] =>
    if flag = "-E" then (Regex.compile pattern).mapError .pattern else .error .flag
  | _ => .error .count

/-- The first line of the input, without its line feed and one carriage return directly
before it. Input without a line feed is a line as it is. -/
def firstLine (input : List UInt8) : List UInt8 :=
  let line := input.takeWhile (· ≠ 0x0a)
  match input.dropWhile (· ≠ 0x0a) with
  | [] => line
  | _ :: _ => if line.getLast? = some 0x0d then line.dropLast else line

/-- Say whether the first line of the input matches; a line that does not is a failure. -/
def answer (r : Regex) (input : List UInt8) : Outcome :=
  if r.isMatch (firstLine input) then ⟨0, "true\n", ""⟩ else ⟨1, "false\n", ""⟩

/-- The whole command. -/
def run (arguments : List String) (input : List UInt8) : Outcome :=
  match parseArguments arguments with
  | .ok r => answer r input
  | .error e => .failure (e.message ++ "\n")

end ByteRegex.Command.Match
