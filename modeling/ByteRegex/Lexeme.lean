import ByteRegex.Token

/-!
# Lexemes: how a pattern is read

A pattern is a row of lexemes and a tail. A lexeme is one plain byte, a backslash with
the byte it escapes, or a bracketed class body; the tail is what cannot be completed at
the end of the pattern, a lone backslash or a bracket that is never closed. Reading
never fails: the bytes of the tail stand for themselves.
-/

namespace ByteRegex

/-- A complete lexical unit of a pattern. -/
inductive Lexeme where
  /-- A byte other than the backslash and the opening bracket. -/
  | plain (byte : UInt8)
  /-- A backslash and the byte behind it. -/
  | escape (byte : UInt8)
  /-- The bytes between an opening bracket and the next closing one. -/
  | bracket (body : List UInt8)
deriving DecidableEq, Repr

/-- What is left at the end of a pattern when no lexeme fits. -/
inductive Tail where
  /-- Nothing is left. -/
  | complete
  /-- A backslash with nothing to escape. -/
  | loneBackslash
  /-- An opening bracket and the bytes behind it, none of them a closing bracket. -/
  | openBracket (body : List UInt8)
deriving DecidableEq, Repr

/-- A pattern, cut into its lexemes. -/
structure Reading where
  /-- The complete lexemes, in order. -/
  lexemes : List Lexeme
  /-- The rest of the pattern. -/
  tail : Tail
deriving DecidableEq, Repr

namespace Lexeme

/-- The backslash. -/
def backslash : UInt8 := 0x5c

/-- The opening bracket of a class. -/
def leftBracket : UInt8 := 0x5b

/-- The closing bracket of a class. -/
def rightBracket : UInt8 := 0x5d

/-- The caret, which negates a class when it opens the body. -/
def caret : UInt8 := 0x5e

/-- The spelling of the lexeme. -/
def bytes : Lexeme → List UInt8
  | plain b => [b]
  | escape b => [backslash, b]
  | bracket body => leftBracket :: body ++ [rightBracket]

/-- Operator signs and grouping signs have tokens of their own, the full stop is the
class of all bytes but the line feed, and any other byte is a literal. -/
def plainToken (b : UInt8) : Token :=
  if b = 0x2a then .op .star
  else if b = 0x2b then .op .plus
  else if b = 0x3f then .op .question
  else if b = 0x7c then .op .alt
  else if b = 0x28 then .lparen
  else if b = 0x29 then .rparen
  else if b = 0x2e then .charClass .anyExceptNewline
  else .literal b

/-- An escaped `d` is a digit, an escaped `w` a word byte, and any other escaped byte
stands for itself. -/
def escapeToken (b : UInt8) : Token :=
  if b = 0x64 then .charClass .digit
  else if b = 0x77 then .charClass .word
  else .literal b

/-- The class of a bracket body: the caret in front negates it, and every other byte is
listed as it is. -/
def bodyClass : List UInt8 → ByteClass
  | [] => .empty
  | b :: rest =>
    if b = caret then ByteClass.full.insertMany rest else ByteClass.empty.insertMany (b :: rest)

/-- The token that the lexeme stands for. -/
def token : Lexeme → Token
  | plain b => plainToken b
  | escape b => escapeToken b
  | bracket body => .charClass (bodyClass body)

end Lexeme

namespace Tail

/-- The spelling of the tail. -/
def bytes : Tail → List UInt8
  | complete => []
  | loneBackslash => [Lexeme.backslash]
  | openBracket body => Lexeme.leftBracket :: body

/-- Whether the tail is a class that was begun and not closed. A bracket that is the
last byte of the pattern begins nothing. -/
def isUnterminatedClass : Tail → Bool
  | openBracket (_ :: _) => true
  | _ => false

end Tail

namespace Reading

/-- Put a lexeme in front. -/
def cons (l : Lexeme) (r : Reading) : Reading := { r with lexemes := l :: r.lexemes }

/-- The spelling of everything that was read. -/
def bytes (r : Reading) : List UInt8 := r.lexemes.flatMap Lexeme.bytes ++ r.tail.bytes

/-- One token for each lexeme, and one literal for each byte of the tail. -/
def tokens (r : Reading) : List Token :=
  r.lexemes.map Lexeme.token ++ r.tail.bytes.map Token.literal

/-- Where the unterminated class begins, as the number of bytes before it. -/
def unterminatedClass? (r : Reading) : Option Nat :=
  if r.tail.isUnterminatedClass then some (r.lexemes.flatMap Lexeme.bytes).length else none

end Reading

/-- What has been read of the lexeme at hand. -/
inductive Lexeme.Partial where
  /-- Nothing: the next byte begins a lexeme. -/
  | start
  /-- The backslash. -/
  | escaping
  /-- The opening bracket and these bytes of the body, latest first. -/
  | inBracket (reversed : List UInt8)

/-- The bytes of the lexeme at hand. -/
def Lexeme.Partial.bytes : Lexeme.Partial → List UInt8
  | start => []
  | escaping => [Lexeme.backslash]
  | inBracket reversed => Lexeme.leftBracket :: reversed.reverse

/-- Continue a lexeme with the rest of the pattern, then read on. -/
def Reading.resume : Lexeme.Partial → List UInt8 → Reading
  | .start, [] => ⟨[], .complete⟩
  | .escaping, [] => ⟨[], .loneBackslash⟩
  | .inBracket reversed, [] => ⟨[], .openBracket reversed.reverse⟩
  | .start, b :: rest =>
    if b = Lexeme.backslash then resume .escaping rest
    else if b = Lexeme.leftBracket then resume (.inBracket []) rest
    else (resume .start rest).cons (.plain b)
  | .escaping, b :: rest => (resume .start rest).cons (.escape b)
  | .inBracket reversed, b :: rest =>
    if b = Lexeme.rightBracket then (resume .start rest).cons (.bracket reversed.reverse)
    else resume (.inBracket (b :: reversed)) rest

/-- Cut a pattern into its lexemes and tail. -/
def Reading.ofBytes (pattern : List UInt8) : Reading := resume .start pattern

/-- Putting a lexeme in front puts its spelling in front. -/
theorem Reading.bytes_cons (l : Lexeme) (r : Reading) : (r.cons l).bytes = l.bytes ++ r.bytes := by
  simp [cons, bytes]

/-- Reading neither loses nor adds a byte, from any point of a lexeme. -/
theorem Reading.bytes_resume (p : Lexeme.Partial) (rest : List UInt8) :
    (resume p rest).bytes = p.bytes ++ rest := by
  fun_induction resume p rest with
  | case1 => rfl
  | case2 => rfl
  | case3 reversed => simp [bytes, Tail.bytes, Lexeme.Partial.bytes]
  | case4 rest ih => simpa [Lexeme.Partial.bytes] using ih
  | case5 rest h ih => simpa [Lexeme.Partial.bytes] using ih
  | case6 b rest hslash hleft ih => rw [bytes_cons, ih]; rfl
  | case7 b rest ih => rw [bytes_cons, ih]; rfl
  | case8 reversed rest ih => rw [bytes_cons, ih]; simp [Lexeme.bytes, Lexeme.Partial.bytes]
  | case9 reversed b rest h ih => rw [ih]; simp [Lexeme.Partial.bytes]

/-- The lexemes and the tail of a pattern spell the pattern. -/
theorem Reading.bytes_ofBytes (pattern : List UInt8) : (ofBytes pattern).bytes = pattern :=
  bytes_resume .start pattern

namespace Reading

/-- A lexeme in front puts its token in front. -/
theorem tokens_cons (l : Lexeme) (r : Reading) : (r.cons l).tokens = l.token :: r.tokens := rfl

/-- Bytes that do not close a body are added to it. -/
theorem resume_body {body : List UInt8} (h : Lexeme.rightBracket ∉ body)
    (reversed rest : List UInt8) :
    resume (.inBracket reversed) (body ++ rest) =
      resume (.inBracket (body.reverse ++ reversed)) rest := by
  induction body generalizing reversed with
  | nil => rfl
  | cons b body ih =>
    obtain ⟨hb, hbody⟩ := not_or.mp (mt List.mem_cons.mpr h)
    rw [List.cons_append, resume, if_neg (Ne.symm hb), ih hbody, List.reverse_cons,
      List.append_assoc, List.singleton_append]

/-- A byte that begins neither an escape nor a class is a lexeme of its own. -/
theorem ofBytes_plain {b : UInt8} (hslash : b ≠ Lexeme.backslash) (hleft : b ≠ Lexeme.leftBracket)
    (rest : List UInt8) : ofBytes (b :: rest) = (ofBytes rest).cons (.plain b) := by
  rw [ofBytes, resume, if_neg hslash, if_neg hleft, ofBytes]

/-- A backslash takes the byte behind it, whatever that is. -/
theorem ofBytes_escape (b : UInt8) (rest : List UInt8) :
    ofBytes (Lexeme.backslash :: b :: rest) = (ofBytes rest).cons (.escape b) := rfl

/-- A class ends at the first closing bracket. -/
theorem ofBytes_bracket {body : List UInt8} (h : Lexeme.rightBracket ∉ body)
    (rest : List UInt8) :
    ofBytes (Lexeme.leftBracket :: (body ++ Lexeme.rightBracket :: rest)) =
      (ofBytes rest).cons (.bracket body) := by
  refine (resume_body h [] _).trans ?_
  rw [resume, if_pos rfl, List.append_nil, List.reverse_reverse, ofBytes]

/-- A class without a closing bracket takes the rest of the pattern. -/
theorem ofBytes_openBracket {body : List UInt8} (h : Lexeme.rightBracket ∉ body) :
    ofBytes (Lexeme.leftBracket :: body) = ⟨[], .openBracket body⟩ := by
  have hbody := resume_body h [] []
  rw [List.append_nil, List.append_nil, resume, List.reverse_reverse] at hbody
  exact hbody

end Reading

end ByteRegex
