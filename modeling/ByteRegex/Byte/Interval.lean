/-!
# Intervals of consecutive bytes

A sorted list of bytes is read best as its maximal intervals. `intervals` cuts a list
between two neighbours exactly where the second is not the successor of the first. An
interval that ends at the last byte needs no special case, because successors are
compared as numbers and the last byte has none among the bytes.
-/

namespace ByteRegex.Byte

/-- Consecutive bytes, both ends included. -/
structure Interval where
  /-- The first byte. -/
  first : UInt8
  /-- The last byte, at least the first one. -/
  last : UInt8
deriving DecidableEq, Repr

/-- The maximal intervals of a list, in its order: a byte joins the interval behind it
when that starts at the byte's successor, and opens an interval of its own otherwise. -/
def intervals : List UInt8 → List Interval
  | [] => []
  | b :: rest =>
    match intervals rest with
    | [] => [⟨b, b⟩]
    | i :: later =>
      if b.toNat + 1 = i.first.toNat then ⟨b, i.last⟩ :: later
      else ⟨b, b⟩ :: i :: later

end ByteRegex.Byte
