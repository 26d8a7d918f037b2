import ByteRegex.Byte

/-!
# Byte classes

A byte class is the set of bytes written in a pair of brackets, together with its kind:
a plain class matches the bytes it lists, a negated class all others. Listing is the
only operation, so the order and the repetition of the listed bytes are forgotten, and
two classes are equal exactly when they list the same bytes and are of the same kind.
-/

namespace ByteRegex

/-- A set of listed bytes and whether the class matches its complement. -/
structure ByteClass where
  /-- Bit `b` is set when byte `b` is listed. -/
  listed : BitVec 256
  /-- The kind: a negated class matches the bytes that are not listed. -/
  negated : Bool
deriving DecidableEq

namespace ByteClass

/-- The plain class that lists nothing, and so matches nothing. -/
def empty : ByteClass := ⟨0, false⟩

/-- The negated class that lists nothing, and so matches every byte. -/
def full : ByteClass := ⟨0, true⟩

/-- Whether the byte is listed, in either kind of class. -/
def lists (c : ByteClass) (b : UInt8) : Bool := c.listed.getLsbD b.toNat

/-- Whether the byte matches. -/
def contains (c : ByteClass) (b : UInt8) : Bool := c.lists b != c.negated

/-- List one more byte; a negated class thereby loses it. -/
def insert (c : ByteClass) (b : UInt8) : ByteClass :=
  { c with listed := c.listed ||| BitVec.twoPow 256 b.toNat }

/-- List every byte of a list. -/
def insertMany (c : ByteClass) (bytes : List UInt8) : ByteClass := bytes.foldl insert c

/-- List every byte from `lo` to `hi`, both included; nothing when `lo` is above `hi`. -/
def insertRange (c : ByteClass) (lo hi : UInt8) : ByteClass :=
  c.insertMany (Byte.all.filter fun b => lo ≤ b && b ≤ hi)

/-- The decimal digits. -/
def digit : ByteClass := empty.insertRange 0x30 0x39

/-- The decimal digits, the ASCII letters and the underscore. -/
def word : ByteClass :=
  (((empty.insertRange 0x30 0x39).insertRange 0x61 0x7a).insertRange 0x41 0x5a).insert 0x5f

/-- Every byte but the line feed, as a plain class. -/
def anyExceptNewline : ByteClass := (empty.insertRange 0x00 0x09).insertRange 0x0b 0xff

/-- The listed bytes, in ascending order. -/
def listing (c : ByteClass) : List UInt8 := Byte.all.filter c.lists

/-- The matching bytes, in ascending order. -/
def members (c : ByteClass) : List UInt8 := Byte.all.filter c.contains

/-- The number of matching bytes. -/
def size (c : ByteClass) : Nat := c.members.length

/-- Whether no byte matches. -/
def isEmpty (c : ByteClass) : Bool := c.size == 0

/-- A plain class lists nothing at first. -/
theorem lists_empty (b : UInt8) : empty.lists b = false := BitVec.getLsbD_zero

/-- A negated class lists nothing at first. -/
theorem lists_full (b : UInt8) : full.lists b = false := BitVec.getLsbD_zero

/-- The kind and the listed bytes are all there is to a class. -/
theorem eq_of_lists {c d : ByteClass} (hkind : c.negated = d.negated)
    (h : ∀ b, c.lists b = d.lists b) : c = d := by
  obtain ⟨listed, negated⟩ := c
  obtain ⟨listed', negated'⟩ := d
  obtain rfl : negated = negated' := hkind
  congr 1
  refine BitVec.eq_of_getLsbD_eq fun i hi => ?_
  have hbyte : (UInt8.ofNat i).toNat = i := by
    rw [UInt8.toNat_ofNat']
    omega
  have hlists := h (UInt8.ofNat i)
  rwa [lists, lists, hbyte] at hlists

/-- Listing a byte adds that byte to the listed ones and no other. -/
theorem lists_insert (c : ByteClass) (b x : UInt8) :
    (c.insert b).lists x = (c.lists x || b == x) := by
  have hb : b.toNat < 256 := b.toNat_lt
  have hx : (b == x) = decide (b.toNat = x.toNat) := by
    rw [Bool.eq_iff_iff, beq_iff_eq, decide_eq_true_iff, UInt8.toNat_inj]
  rw [lists, insert, BitVec.getLsbD_or, BitVec.getLsbD_twoPow, hx]
  simp [lists, hb]

/-- Listing never changes the kind of a class. -/
theorem negated_insert (c : ByteClass) (b : UInt8) : (c.insert b).negated = c.negated := rfl

/-- The class that matches nothing at first is a plain one. -/
theorem negated_empty : empty.negated = false := rfl

/-- The class that matches every byte at first is a negated one. -/
theorem negated_full : full.negated = true := rfl

/-- A plain class matches nothing at first. -/
theorem contains_empty (b : UInt8) : empty.contains b = false := by
  rw [contains, lists_empty, negated_empty, Bool.bne_false]

/-- A negated class matches every byte at first. -/
theorem contains_full (b : UInt8) : full.contains b = true := by
  rw [contains, lists_full, negated_full, Bool.bne_true, Bool.not_false]

/-- A plain class gains the byte that is listed, a negated class loses it, and no other byte is
affected. -/
theorem contains_insert (c : ByteClass) (b x : UInt8) :
    (c.insert b).contains x = if x = b then !c.negated else c.contains x := by
  rw [contains, lists_insert, negated_insert]
  by_cases hx : x = b
  · rw [if_pos hx, hx, beq_self_eq_true, Bool.or_true, Bool.true_bne]
  · rw [if_neg hx, beq_false_of_ne (Ne.symm hx), Bool.or_false, contains]

/-- Listing many bytes adds exactly those bytes. -/
theorem lists_insertMany (c : ByteClass) (bytes : List UInt8) (x : UInt8) :
    (c.insertMany bytes).lists x = (c.lists x || bytes.contains x) := by
  induction bytes generalizing c with
  | nil => simp [insertMany]
  | cons b rest ih =>
    have h := ih (c.insert b)
    simp only [insertMany, List.foldl_cons] at h ⊢
    rw [h, lists_insert, List.contains_cons, Bool.or_assoc]
    congr 2
    rw [Bool.eq_iff_iff, beq_iff_eq, beq_iff_eq]
    exact eq_comm

/-- Listing many bytes never changes the kind of a class. -/
theorem negated_insertMany (c : ByteClass) (bytes : List UInt8) :
    (c.insertMany bytes).negated = c.negated := by
  induction bytes generalizing c with
  | nil => rfl
  | cons b rest ih => exact (ih (c.insert b)).trans (negated_insert c b)

/-- A plain class gains the bytes that are listed, a negated class loses them, and no other byte is
affected. -/
theorem contains_insertMany (c : ByteClass) (bytes : List UInt8) (x : UInt8) :
    (c.insertMany bytes).contains x = if x ∈ bytes then !c.negated else c.contains x := by
  induction bytes generalizing c with
  | nil => rfl
  | cons b rest ih =>
    have hrest := ih (c.insert b)
    rw [negated_insert, contains_insert] at hrest
    rw [insertMany, List.foldl_cons, ← insertMany, hrest]
    by_cases hb : x = b
    · simp [hb]
    · simp [hb]

/-- A range lists the bytes between its ends and no other. -/
theorem lists_insertRange (c : ByteClass) (lo hi x : UInt8) :
    (c.insertRange lo hi).lists x = (c.lists x || (decide (lo ≤ x) && decide (x ≤ hi))) := by
  rw [insertRange, lists_insertMany]
  congr 1
  rw [Bool.eq_iff_iff, List.contains_iff_mem, List.mem_filter]
  exact and_iff_right (Byte.mem_all x)

/-- Listing a range never changes the kind of a class. -/
theorem negated_insertRange (c : ByteClass) (lo hi : UInt8) :
    (c.insertRange lo hi).negated = c.negated := negated_insertMany c _

/-- A plain class gains the bytes between the ends of a range, a negated class loses them, and no
other byte is affected. -/
theorem contains_insertRange (c : ByteClass) (lo hi x : UInt8) :
    (c.insertRange lo hi).contains x =
      if lo ≤ x ∧ x ≤ hi then !c.negated else c.contains x := by
  rw [insertRange, contains_insertMany]
  simp only [List.mem_filter, Byte.mem_all, true_and, Bool.and_eq_true, decide_eq_true_eq]

/-- The listing holds the listed bytes. -/
theorem mem_listing (c : ByteClass) (b : UInt8) : b ∈ c.listing ↔ c.lists b = true := by
  rw [listing, List.mem_filter]
  exact and_iff_right (Byte.mem_all b)

/-- The listing is in strictly ascending order. -/
theorem listing_ascending (c : ByteClass) : c.listing.Pairwise (· < ·) :=
  Byte.all_ascending.filter _

/-- The members are the matching bytes. -/
theorem mem_members (c : ByteClass) (b : UInt8) : b ∈ c.members ↔ c.contains b = true := by
  rw [members, List.mem_filter]
  exact and_iff_right (Byte.mem_all b)

/-- The members are in strictly ascending order. -/
theorem members_ascending (c : ByteClass) : c.members.Pairwise (· < ·) :=
  Byte.all_ascending.filter _

/-- No byte is twice among the members. -/
theorem members_nodup (c : ByteClass) : c.members.Nodup := c.members_ascending.imp UInt8.ne_of_lt

end ByteClass

end ByteRegex
