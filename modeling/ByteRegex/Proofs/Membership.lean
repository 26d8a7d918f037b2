import ByteRegex.ByteClass
import Mathlib.Data.Set.Card

/-!
# What a class matches after any calls

A class starts as one of two kinds and is then told, in any number of calls, which bytes it lists. A
call only ever adds to the listed bytes and never touches the kind, so after a whole run of calls
the listed bytes are those that some call names. Nothing else about the calls can be found out from
the class: not their order, not how often a byte was named, and not whether a byte was named by
itself or in a range.
-/

namespace ByteRegex.ByteClass

/-- What a class is told to list at a time. -/
inductive Call where
  /-- List one byte. -/
  | byte (b : UInt8)
  /-- List the bytes of a range, both ends included. -/
  | range (lo hi : UInt8)
deriving DecidableEq

/-- The call names the byte. A range whose ends are in the wrong order names none. -/
def Call.Names : Call → UInt8 → Prop
  | byte b, x => x = b
  | range lo hi, x => lo ≤ x ∧ x ≤ hi

/-- The class after a call. -/
def apply (c : ByteClass) : Call → ByteClass
  | .byte b => c.insert b
  | .range lo hi => c.insertRange lo hi

/-- The class of a kind before any call. -/
def ofKind (negated : Bool) : ByteClass := if negated then full else empty

/-- The class of a kind after some calls, from left to right. -/
def build (negated : Bool) (calls : List Call) : ByteClass := calls.foldl apply (ofKind negated)

/-- Some call names the byte. -/
def Named (calls : List Call) (b : UInt8) : Prop := ∃ call ∈ calls, call.Names b

variable {negated : Bool} {call : Call} {calls others : List Call} {b : UInt8}

/-- Neither kind lists anything before the first call. -/
theorem lists_ofKind (negated : Bool) (b : UInt8) : (ofKind negated).lists b = false := by
  cases negated with
  | false => exact lists_empty b
  | true => exact lists_full b

/-- The kind is the one that was asked for. -/
theorem negated_ofKind (negated : Bool) : (ofKind negated).negated = negated := by
  cases negated with
  | false => rfl
  | true => rfl

/-- A call adds the bytes that it names, and no other, to the listed ones. -/
theorem lists_apply (c : ByteClass) (call : Call) (b : UInt8) :
    (c.apply call).lists b = true ↔ c.lists b = true ∨ call.Names b := by
  cases call with
  | byte x =>
    rw [apply, lists_insert, Bool.or_eq_true, beq_iff_eq, Call.Names, eq_comm (a := x)]
  | range lo hi =>
    rw [apply, lists_insertRange, Bool.or_eq_true, Bool.and_eq_true, decide_eq_true_eq,
      decide_eq_true_eq, Call.Names]

/-- A call leaves the kind as it is. -/
theorem negated_apply (c : ByteClass) (call : Call) : (c.apply call).negated = c.negated := by
  cases call with
  | byte x => exact negated_insert c x
  | range lo hi => exact negated_insertRange c lo hi

/-- The first call names the byte, or a later one does. -/
theorem named_cons : Named (call :: calls) b ↔ call.Names b ∨ Named calls b := by
  rw [Named, Named, List.exists_mem_cons_iff]

/-- After a run of calls, the bytes are listed that were listed before or that a call names. -/
theorem lists_foldl (calls : List Call) (c : ByteClass) (b : UInt8) :
    (calls.foldl apply c).lists b = true ↔ c.lists b = true ∨ Named calls b := by
  induction calls generalizing c with
  | nil => simp [Named]
  | cons call calls ih => rw [List.foldl_cons, ih, lists_apply, named_cons, or_assoc]

/-- A run of calls leaves the kind as it is. -/
theorem negated_foldl (calls : List Call) (c : ByteClass) :
    (calls.foldl apply c).negated = c.negated := by
  induction calls generalizing c with
  | nil => rfl
  | cons call calls ih => rw [List.foldl_cons, ih, negated_apply]

/-- The listed bytes of a class that was built by calls. -/
theorem lists_build (negated : Bool) (calls : List Call) (b : UInt8) :
    (build negated calls).lists b = true ↔ Named calls b := by
  rw [build, lists_foldl, lists_ofKind]
  simp

/-- The kind of a class that was built by calls. -/
theorem negated_build (negated : Bool) (calls : List Call) :
    (build negated calls).negated = negated := by
  rw [build, negated_foldl, negated_ofKind]

/-- A byte matches when it is listed and the class is plain, or is not listed and the class is
negated. -/
theorem contains_iff (c : ByteClass) (b : UInt8) :
    c.contains b = true ↔ Xor (c.lists b = true) (c.negated = true) := by
  rw [contains]
  cases c.lists b <;> cases c.negated <;> simp

/-- Classes that were built by calls are equal when they are of one kind and the calls name the same
bytes. -/
theorem build_eq_iff {kind : Bool} : build negated calls = build kind others ↔
    negated = kind ∧ ∀ b, Named calls b ↔ Named others b := by
  constructor
  · intro heq
    refine ⟨?_, fun b => ?_⟩
    · rw [← negated_build negated calls, heq, negated_build]
    · rw [← lists_build negated, heq, lists_build]
  · rintro ⟨rfl, hnamed⟩
    refine eq_of_lists ((negated_build _ _).trans (negated_build _ _).symm) fun b => ?_
    rw [Bool.eq_iff_iff, lists_build, lists_build, hnamed]

/-- The number of members is the number of matching bytes. -/
theorem size_eq_ncard (c : ByteClass) : c.size = {b | c.contains b = true}.ncard := by
  have hset : {b | c.contains b = true} = ↑c.members.toFinset := by
    ext b
    rw [List.coe_toFinset, Set.mem_ofPred_eq, Set.mem_ofPred_eq, mem_members]
  rw [hset, Set.ncard_coe_finset, List.toFinset_card_of_nodup c.members_nodup, size]

/-- A class is settled by its kind and the bytes that its calls name. A byte matches when exactly
one of the two holds: a call names it, the class is negated. The members are the matching bytes in
ascending order, and the size is their number. Calls in another order, or repeated, make the same
class, and classes are equal just when their kinds are and their calls name the same bytes. The two
kinds match opposite bytes after the same calls. -/
theorem build_settled (negated : Bool) (calls : List Call) :
    (build negated calls).negated = negated ∧
    (∀ b, (build negated calls).contains b = true ↔ Xor (Named calls b) (negated = true)) ∧
    (∀ b, b ∈ (build negated calls).members ↔ (build negated calls).contains b = true) ∧
    (build negated calls).members.Pairwise (· < ·) ∧
    (build negated calls).size = {b | (build negated calls).contains b = true}.ncard ∧
    (∀ others : List Call, (∀ call, call ∈ calls ↔ call ∈ others) →
      build negated calls = build negated others) ∧
    (∀ kind others, build negated calls = build kind others ↔
      negated = kind ∧ ∀ b, Named calls b ↔ Named others b) ∧
    ∀ b, (build true calls).contains b = !(build false calls).contains b := by
  refine ⟨negated_build _ _, fun b => ?_, mem_members _, members_ascending _, size_eq_ncard _,
    fun others hsame => ?_, fun kind others => build_eq_iff, fun b => ?_⟩
  · rw [contains_iff, lists_build, negated_build]
  · have hnamed : ∀ b, Named calls b ↔ Named others b := by
      intro b
      simp only [Named, hsame]
    exact build_eq_iff.mpr ⟨rfl, hnamed⟩
  · have hlists : (build true calls).lists b = (build false calls).lists b := by
      rw [Bool.eq_iff_iff, lists_build, lists_build]
    rw [contains, contains, negated_build, negated_build, hlists, Bool.bne_true, Bool.bne_false]

/-- A range that ends at the last byte, a range with its ends in the wrong order and a byte that was
listed before. -/
example : (build true [.range 0xfd 0xff, .byte 0xfe, .range 0x05 0x03, .range 0x01 0xfb]).members =
    [0x00, 0xfc] := by
  decide +kernel

end ByteRegex.ByteClass
