import ByteRegex.Command.Dump
import ByteRegex.Command.Match

/-!
# The command line

The first argument chooses the command, and the rest are the command's own. Only this
module reads or writes anything.
-/

namespace ByteRegex.CommandLine

/-- Read standard input up to the first line feed or the end. -/
partial def readFirstLine (input : IO.FS.Stream) (read : ByteArray) : IO ByteArray := do
  let chunk ← input.read 4096
  let read := read ++ chunk
  if chunk.isEmpty || chunk.data.contains 0x0a then return read
  readFirstLine input read

/-- Write an outcome and give back its exit code. -/
def report (outcome : Command.Outcome) : IO UInt32 := do
  IO.print outcome.stdout
  IO.eprint outcome.stderr
  return outcome.code

/-- Match a line of standard input; it is read only when the arguments are accepted. -/
def matchLine (arguments : List String) : IO UInt32 := do
  match Command.Match.parseArguments arguments with
  | .error _ => report (Command.Match.run arguments [])
  | .ok r =>
    let input ← readFirstLine (← IO.getStdin) .empty
    report (Command.Match.answer r input.data.toList)

/-- Run the command that the first argument names. -/
def run (arguments : List String) : IO UInt32 := do
  match arguments with
  | "match" :: rest => matchLine rest
  | "dump" :: rest => report (Command.Dump.run rest)
  | _ => report (.failure "Expected a command, match or dump\n")

end ByteRegex.CommandLine

/-- The entry point of the program. -/
def main (arguments : List String) : IO UInt32 := ByteRegex.CommandLine.run arguments
