import ByteRegex.Pattern

/-!
# Every pattern factors in one way

A lexeme or a tail is lawful when its spelling tells where it ends: a plain byte begins nothing
longer, and a bracket body does not hold the bracket that closes it. Reading a lawful lexeme
takes exactly its bytes, whatever follows, and what reading leaves is lawful. So every pattern
is spelled by one lawful reading, and that is the one that is found.
-/

namespace ByteRegex

/-- A plain byte begins neither an escape nor a class, and a body ends at the first closing
bracket. -/
def Lexeme.Lawful : Lexeme → Prop
  | plain b => b ≠ backslash ∧ b ≠ leftBracket
  | escape _ => True
  | bracket body => rightBracket ∉ body

/-- What follows an opening bracket that is never closed has no closing bracket. -/
def Tail.Lawful : Tail → Prop
  | complete | loneBackslash => True
  | openBracket body => Lexeme.rightBracket ∉ body

/-- All lexemes and the tail are lawful. -/
structure Reading.Lawful (r : Reading) : Prop where
  /-- Every lexeme is lawful. -/
  lexemes : ∀ l ∈ r.lexemes, l.Lawful
  /-- The tail is lawful. -/
  tail : r.tail.Lawful

/-- The part of a body that has been read has no closing bracket. -/
def Lexeme.Partial.Lawful : Lexeme.Partial → Prop
  | start | escaping => True
  | inBracket reversed => rightBracket ∉ reversed

namespace Reading

/-- A lawful lexeme in front of a lawful reading. -/
theorem Lawful.cons {l : Lexeme} {r : Reading} (hl : l.Lawful) (hr : r.Lawful) :
    (r.cons l).Lawful where
  lexemes k hk := by
    rcases List.mem_cons.mp hk with rfl | hk
    · exact hl
    · exact hr.lexemes k hk
  tail := hr.tail

/-- Whatever is read is lawful. -/
theorem lawful_resume (p : Lexeme.Partial) (rest : List UInt8) (h : p.Lawful) :
    (resume p rest).Lawful := by
  fun_induction resume p rest with
  | case1 => exact ⟨fun l hl => absurd hl List.not_mem_nil, trivial⟩
  | case2 => exact ⟨fun l hl => absurd hl List.not_mem_nil, trivial⟩
  | case3 reversed =>
    refine ⟨fun l hl => absurd hl List.not_mem_nil, ?_⟩
    exact fun hmem => h (List.mem_reverse.mp hmem)
  | case4 rest ih => exact ih trivial
  | case5 rest _ ih => exact ih List.not_mem_nil
  | case6 b rest hslash hleft ih => exact .cons ⟨hslash, hleft⟩ (ih trivial)
  | case7 b rest ih => exact .cons trivial (ih trivial)
  | case8 reversed rest ih =>
    have hbody : (Lexeme.bracket reversed.reverse).Lawful :=
      fun hmem => h (List.mem_reverse.mp hmem)
    exact .cons hbody (ih trivial)
  | case9 reversed b rest hb ih =>
    exact ih (List.not_mem_cons_of_ne_of_not_mem (Ne.symm hb) h)

/-- A lawful lexeme is read as such, whatever follows. -/
theorem ofBytes_lexeme {l : Lexeme} (h : l.Lawful) (rest : List UInt8) :
    ofBytes (l.bytes ++ rest) = (ofBytes rest).cons l := by
  cases l with
  | plain b => exact ofBytes_plain h.left h.right rest
  | escape b => exact ofBytes_escape b rest
  | bracket body =>
    rw [Lexeme.bytes, List.cons_append, List.cons_append, List.append_assoc, List.singleton_append]
    exact ofBytes_bracket h rest

/-- A lawful tail is read as such. -/
theorem ofBytes_tail {t : Tail} (h : t.Lawful) : ofBytes t.bytes = ⟨[], t⟩ := by
  cases t with
  | complete => rfl
  | loneBackslash => rfl
  | openBracket body => exact ofBytes_openBracket h

/-- Reading finds every lawful reading from its spelling. -/
theorem ofBytes_bytes {r : Reading} (h : r.Lawful) : ofBytes r.bytes = r := by
  obtain ⟨ls, t⟩ := r
  induction ls with
  | nil => exact ofBytes_tail h.tail
  | cons l ls ih =>
    have hl : l.Lawful := h.lexemes l List.mem_cons_self
    have hrest : Lawful ⟨ls, t⟩ := ⟨fun k hk => h.lexemes k (List.mem_cons_of_mem l hk), h.tail⟩
    have hbytes : bytes ⟨l :: ls, t⟩ = l.bytes ++ bytes ⟨ls, t⟩ := bytes_cons l ⟨ls, t⟩
    rw [hbytes, ofBytes_lexeme hl, ih hrest]
    rfl

/-- The lawful reading that spells a pattern is the one that is found. -/
theorem lawful_and_bytes_eq_iff {p : Pattern} {r : Reading} :
    r.Lawful ∧ r.bytes = p ↔ r = ofBytes p := by
  constructor
  · rintro ⟨hr, rfl⟩
    exact (ofBytes_bytes hr).symm
  · rintro rfl
    exact ⟨lawful_resume .start p trivial, bytes_ofBytes p⟩

end Reading

end ByteRegex
