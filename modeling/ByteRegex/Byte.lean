/-!
# The alphabet: all bytes, in order, and their escaped text

Automata read bytes, so the alphabet is the 256 values of `UInt8`. The list of all
bytes is the only enumeration in this library: classes, edges and intervals are cut out of
it, and its order is the order of all of them. The escaped text writes any byte in
printable ASCII.
-/

namespace ByteRegex.Byte

/-- Every byte, once, in ascending order. -/
def all : List UInt8 := (List.range 256).map UInt8.ofNat

/-- No byte is missing from the alphabet. -/
theorem mem_all (b : UInt8) : b ∈ all := by
  refine List.mem_map.mpr ⟨b.toNat, List.mem_range.mpr b.toNat_lt, ?_⟩
  exact UInt8.ofNat_toNat

/-- The alphabet is listed in strictly ascending order. -/
theorem all_ascending : all.Pairwise (· < ·) := by
  refine List.pairwise_map.mpr ?_
  refine List.Pairwise.imp_of_mem ?_ List.pairwise_lt_range
  intro m n hm hn hlt
  have hm := List.mem_range.mp hm
  have hn := List.mem_range.mp hn
  rw [UInt8.lt_iff_toNat_lt, UInt8.toNat_ofNat', UInt8.toNat_ofNat']
  omega

/-- The Unicode character with the number of the byte. -/
def toChar (b : UInt8) : Char := Char.ofNat b.toNat

/-- Printable ASCII, the bytes that are written as themselves. -/
def isPrintable (b : UInt8) : Bool := 0x20 ≤ b && b ≤ 0x7e

/-- Two lowercase hexadecimal digits. -/
def hexDigits (b : UInt8) : String :=
  String.ofList [Nat.digitChar (b.toNat / 16), Nat.digitChar (b.toNat % 16)]

/-- The byte in printable ASCII: tab, line ends, both quotes and the backslash have a
short escape, other printable bytes stand for themselves, and the rest is `\xNN`. -/
def escaped (b : UInt8) : String :=
  if b = 0x09 then "\\t"
  else if b = 0x0a then "\\n"
  else if b = 0x0d then "\\r"
  else if b = 0x22 then "\\\""
  else if b = 0x27 then "\\'"
  else if b = 0x5c then "\\\\"
  else if isPrintable b then String.singleton (toChar b)
  else "\\x" ++ hexDigits b

end ByteRegex.Byte
