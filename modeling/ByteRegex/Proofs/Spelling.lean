import ByteRegex.Proofs.Step
import Mathlib.Data.List.Nodup

/-!
# Different spellings of an operand

A construction asks of an operand which bytes it reads, and nothing else. So the operand for any
byte, the class of all bytes but the line feed and every class that matches as much are one operand,
and so are a byte and the classes that match it alone. Parentheses are passed over. Two streams
that differ in nothing else, at however many places, are read in lockstep: every token allocates
the same states, looks at the limit at the same time and adds the same edges in the same order.
-/

namespace ByteRegex

variable {t u : Token} {ts us : List Token} {c d : ByteClass}

/-- Classes that match the same bytes have the same members, whatever their kinds are. -/
theorem ByteClass.members_congr (h : ∀ b, c.contains b = d.contains b) : c.members = d.members := by
  rw [members, members, funext h]

/-- A class that matches one byte has one member. -/
theorem ByteClass.members_eq_singleton {b : UInt8} (h : ∀ x, c.contains x = true ↔ x = b) :
    c.members = [b] := by
  have hperm : c.members.Perm [b] := by
    refine (List.perm_ext_iff_of_nodup c.members_nodup (List.nodup_singleton b)).mpr fun x => ?_
    rw [mem_members, h, List.mem_singleton]
  exact List.perm_singleton.mp hperm

/-- The tokens are two spellings of one operand. -/
inductive Token.SameOperand : Token → Token → Prop
  /-- The operand for any byte is the class of all bytes but the line feed. -/
  | dot : SameOperand .dot (.charClass .anyExceptNewline)
  /-- Classes that match the same bytes, be they plain or negated. -/
  | classes {c d : ByteClass} : (∀ b, c.contains b = d.contains b) →
      SameOperand (.charClass c) (.charClass d)
  /-- A byte and a class that matches this byte alone. -/
  | single {b : UInt8} {c : ByteClass} : (∀ x, c.contains x = true ↔ x = b) →
      SameOperand (.literal b) (.charClass c)
  /-- Each may be put in the place of the other. -/
  | symm {t u : Token} : SameOperand t u → SameOperand u t

/-- Two spellings of an operand read the same bytes. -/
theorem Token.SameOperand.operandBytes_eq (h : t.SameOperand u) :
    ∃ bytes, t.operandBytes = some bytes ∧ u.operandBytes = some bytes := by
  induction h with
  | dot => exact ⟨_, rfl, rfl⟩
  | classes hsame => exact ⟨_, rfl, congrArg some (ByteClass.members_congr hsame).symm⟩
  | single hsingle => exact ⟨_, rfl, congrArg some (ByteClass.members_eq_singleton hsingle)⟩
  | symm _ ih =>
    obtain ⟨bytes, ht, hu⟩ := ih
    exact ⟨bytes, hu, ht⟩

/-- The streams are equal but for the spelling of operands and for parentheses, which may be
missing or be added anywhere. -/
inductive Respelled : List Token → List Token → Prop
  /-- Nothing is left on either side. -/
  | nil : Respelled [] []
  /-- A token stays as it is. -/
  | same {t : Token} {ts us : List Token} : Respelled ts us → Respelled (t :: ts) (t :: us)
  /-- An operand is spelled in another way. -/
  | operand {t u : Token} {ts us : List Token} :
      t.SameOperand u → Respelled ts us → Respelled (t :: ts) (u :: us)
  /-- A parenthesis is removed. -/
  | removed {t : Token} {ts us : List Token} :
      t.isParen = true → Respelled ts us → Respelled (t :: ts) us
  /-- A parenthesis is inserted. -/
  | inserted {t : Token} {ts us : List Token} :
      t.isParen = true → Respelled ts us → Respelled ts (t :: us)

namespace Thompson

variable {limit : Option Nat} {a : Assembly}

namespace Assembly

/-- All that is read of an operand are its bytes. -/
theorem push_operand {bytes : List UInt8} (h : t.operandBytes = some bytes) (a : Assembly) :
    a.push limit t = a.pushBytes limit bytes := by
  cases t with
  | op o => cases h
  | lparen => cases h
  | rparen => cases h
  | _ =>
    obtain rfl := Option.some.inj h
    rfl

/-- A parenthesis is passed over. -/
theorem pushAll_paren (h : t.isParen = true) (a : Assembly) (ts : List Token) :
    a.pushAll limit (t :: ts) = a.pushAll limit ts := by
  cases t with
  | lparen => rfl
  | rparen => rfl
  | _ => cases h

/-- Streams that are spelled in different ways are read in lockstep. -/
theorem pushAll_respelled (h : Respelled ts us) (a : Assembly) :
    a.pushAll limit ts = a.pushAll limit us := by
  induction h generalizing a with
  | nil => rfl
  | @same t ts us _ ih =>
    rw [pushAll, pushAll]
    cases a.push limit t with
    | error e => rfl
    | ok b => exact ih b
  | @operand t u ts us hsame _ ih =>
    obtain ⟨bytes, ht, hu⟩ := hsame.operandBytes_eq
    rw [pushAll, pushAll, push_operand ht, push_operand hu]
    cases a.pushBytes limit bytes with
    | error e => rfl
    | ok b => exact ih b
  | removed ht _ ih => exact (pushAll_paren ht a _).trans (ih a)
  | inserted hu _ ih => exact (ih a).trans (pushAll_paren hu a _).symm

end Assembly

/-- Under every limit, and whether they succeed or fail, streams that differ only in the spelling
of operands and in parentheses come to the same result. -/
theorem compile_respelled (limit : Option Nat) (ts us : List Token) (h : Respelled ts us) :
    compile limit ts = compile limit us := by
  rw [compile, compile, Assembly.pushAll_respelled h]

/-- A byte with any byte behind it, or else any byte at all. -/
def byteThenAny : List Token :=
  [.lparen, .literal 0x61, .dot, .op .concat, .rparen, .charClass .full, .op .alt]

/-- The same in other words: classes throughout, a plain one in the place of a negated one, and a
parenthesis in another place. -/
def byteThenAnyInClasses : List Token :=
  [.charClass (.insert .empty 0x61), .charClass .anyExceptNewline, .op .concat,
    .charClass (.insertRange .empty 0x00 0xff), .lparen, .op .alt]

/-- The two streams are spellings of each other, and too large for a limit of seven states alike. -/
theorem byteThenAny_respelled : Respelled byteThenAny byteThenAnyInClasses ∧
    compile (some 7) byteThenAny = compile (some 7) byteThenAnyInClasses := by
  have hsingle : ∀ x, (ByteClass.insert .empty 0x61).contains x = true ↔ x = 0x61 := by
    intro x
    rw [ByteClass.contains_insert, ByteClass.contains_empty, ByteClass.negated_empty,
      Bool.not_false, Bool.if_true_left, Bool.or_false, decide_eq_true_eq]
  have hall : ∀ x, ByteClass.full.contains x =
      (ByteClass.insertRange .empty 0x00 0xff).contains x := by
    intro x
    have hlow : 0x00 ≤ x := UInt8.le_iff_toNat_le.mpr (Nat.zero_le _)
    have hhigh : x ≤ 0xff := UInt8.le_iff_toNat_le.mpr (Nat.le_of_lt_succ x.toNat_lt)
    rw [ByteClass.contains_full, ByteClass.contains_insertRange, if_pos ⟨hlow, hhigh⟩,
      ByteClass.negated_empty, Bool.not_false]
  have h : Respelled byteThenAny byteThenAnyInClasses :=
    .removed rfl (.operand (.single hsingle) (.operand .dot (.same (.removed rfl
      (.operand (.classes hall) (.inserted rfl (.same .nil)))))))
  exact ⟨h, compile_respelled (some 7) _ _ h⟩

end Thompson

end ByteRegex
