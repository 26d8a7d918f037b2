/-!
# Outcomes of commands

A command is a function of its arguments and of standard input. Its outcome is the exit
code and all text it writes.
-/

namespace ByteRegex.Command

/-- What a command leaves behind. -/
structure Outcome where
  /-- The exit code, zero for success. -/
  code : UInt32
  /-- The text on standard output. -/
  stdout : String
  /-- The text on standard error. -/
  stderr : String
deriving DecidableEq, Repr

/-- Success with the given output. -/
def Outcome.success (stdout : String) : Outcome := ⟨0, stdout, ""⟩

/-- Failure with the given complaint. -/
def Outcome.failure (stderr : String) : Outcome := ⟨1, "", stderr⟩

end ByteRegex.Command
