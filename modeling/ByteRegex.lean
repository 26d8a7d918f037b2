import ByteRegex.Diagnostic
import ByteRegex.Main
import ByteRegex.Proofs.Closure
import ByteRegex.Proofs.Simulation
import ByteRegex.Proofs.Exploration
import ByteRegex.Proofs.Arena
import ByteRegex.Proofs.Block
import ByteRegex.Proofs.Compilable
import ByteRegex.Proofs.Grammar
import ByteRegex.Proofs.Lexing
import ByteRegex.Proofs.Lexicon
import ByteRegex.Proofs.Matching
import ByteRegex.Proofs.Limit
import ByteRegex.Proofs.Parentheses
import ByteRegex.Proofs.Relocation
import ByteRegex.Proofs.Shape
import ByteRegex.Proofs.Trim
import ByteRegex.Proofs.Writing
import ByteRegex.Proofs.Listing
import ByteRegex.Proofs.Size
import ByteRegex.Proofs.Viability
import ByteRegex.Proofs.Verdict
import ByteRegex.Proofs.Spelling
import ByteRegex.Proofs.Regrouping
import ByteRegex.Proofs.Pairing
import ByteRegex.Proofs.Strays
import ByteRegex.Proofs.Membership
import ByteRegex.Proofs.Dumping
import ByteRegex.Proofs.Runs
import ByteRegex.Proofs.Arguments
import ByteRegex.Proofs.Insertion
import ByteRegex.Proofs.Waiting
import ByteRegex.Proofs.Partition
import ByteRegex.Proofs.Reports
