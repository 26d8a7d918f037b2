import ByteRegex.Nfa.Printer
import ByteRegex.Proofs.Legible

/-!
# A dump can be read back

Automata with the same dump are equal, whatever their edges lead to and however many states they
have. The line of an edge begins with a margin of seven blanks. The line that begins a state has a
digit among its first four characters, so the edges of a state end where the next state begins.
Within the lines, numerals, escaped bytes and the mark of an accepting state are legible.
-/

namespace ByteRegex

open Text

variable {id : Nat} {r t : List Char}

/-- The blanks with which the line of an edge begins. -/
def Edge.margin : List Char := List.replicate 7 ' '

/-- The parts of the line of a byte edge. -/
theorem Edge.toList_line_byte (b : UInt8) (n : Nat) : (byte b n).line.toList =
    margin ++ '\'' :: ((Byte.escaped b).toList ++ ("' -> ".toList ++ (n.repr ++ "\n").toList)) := by
  unfold line
  simp only [String.append_assoc, String.toList_append]
  rfl

/-- The parts of the line of a silent edge. -/
theorem Edge.toList_line_epsilon (n : Nat) : (epsilon n).line.toList =
    margin ++ 'ε' :: (" -> ".toList ++ (n.repr ++ "\n").toList) := by
  unfold line
  simp only [String.append_assoc, String.toList_append]
  rfl

/-- The line of an edge begins with the margin. -/
theorem Edge.exists_line_eq (e : Edge) : ∃ t, e.line.toList = margin ++ t := by
  cases e with
  | byte b n => exact ⟨_, toList_line_byte b n⟩
  | epsilon n => exact ⟨_, toList_line_epsilon n⟩

/-- A numeral is legible with the end of its line. -/
theorem legible_numeralLine : Legible Anything (fun n : Nat => n.repr ++ "\n") := by
  intro m n r s _ _ h
  simp only [String.toList_append, List.append_assoc] at h
  obtain ⟨hnumber, hrest⟩ :=
    legible_repr (notBefore_cons.mpr (by decide)) (notBefore_cons.mpr (by decide)) h
  exact ⟨hnumber, (List.cons.inj hrest).right⟩

/-- The lines of edges are legible before everything. -/
theorem Edge.legible_line : Legible Anything line := by
  intro e f r s _ _ h
  cases e with
  | byte b m =>
    cases f with
    | byte c n =>
      simp only [toList_line_byte, List.append_assoc, List.cons_append] at h
      have hbyte := (List.cons.inj (List.append_cancel_left h)).right
      obtain ⟨rfl, htarget⟩ := Byte.legible_escaped trivial trivial hbyte
      obtain ⟨rfl, hrest⟩ := legible_numeralLine trivial trivial (List.append_cancel_left htarget)
      exact ⟨rfl, hrest⟩
    | epsilon n =>
      simp only [toList_line_byte, toList_line_epsilon, List.append_assoc, List.cons_append] at h
      exact absurd (List.cons.inj (List.append_cancel_left h)).left (by decide)
  | epsilon m =>
    cases f with
    | byte c n =>
      simp only [toList_line_byte, toList_line_epsilon, List.append_assoc, List.cons_append] at h
      exact absurd (List.cons.inj (List.append_cancel_left h)).left (by decide)
    | epsilon n =>
      simp only [toList_line_epsilon, List.append_assoc, List.cons_append] at h
      have htarget := (List.cons.inj (List.append_cancel_left h)).right
      obtain ⟨rfl, hrest⟩ := legible_numeralLine trivial trivial (List.append_cancel_left htarget)
      exact ⟨rfl, hrest⟩

namespace State

/-- The end of the line with which a state begins. -/
def mark (accepting : Bool) : String := (if accepting then " (accept)" else "") ++ ":\n"

/-- The lines of a state begin with its number and its mark. -/
theorem toList_join_lines (id : Nat) (s : State) : (String.join (s.lines id)).toList =
    (alignRight 4 id.repr).toList ++
      ((mark s.accepting).toList ++ (writeRow Edge.line s.edges).toList) := by
  simp only [lines, mark, writeRow, String.join_cons, String.append_assoc, String.toList_append,
    List.append_assoc]

/-- The mark is legible before everything. -/
theorem legible_mark : Legible Anything mark := by
  intro a b r s _ _ h
  cases a with
  | false =>
    cases b with
    | false => exact ⟨rfl, List.append_cancel_left h⟩
    | true => exact absurd (List.cons.inj h).left (by decide)
  | true =>
    cases b with
    | false => exact absurd (List.cons.inj h).left (by decide)
    | true => exact ⟨rfl, List.append_cancel_left h⟩

/-- A numeral in a column of four characters has a digit where an edge has its margin: the blanks in
front of it are fewer than those of the margin. -/
theorem alignRight_ne_margin (id : Nat) (r t : List Char) :
    (alignRight 4 id.repr).toList ++ r ≠ Edge.margin ++ t := by
  intro h
  obtain ⟨d, ds, hdigits⟩ := List.exists_cons_of_ne_nil (Nat.toDigits_ne_nil (n := id) (b := 10))
  have hdigit : d.isDigit = true := by
    refine Nat.isDigit_of_mem_toDigits (b := 10) (n := id) (by decide) (by decide) ?_
    rw [hdigits]
    exact List.mem_cons_self
  have hrepr : id.repr = String.ofList (d :: ds) := by
    rw [Nat.repr_eq_ofList_toDigits, hdigits]
  obtain ⟨k, hblanks⟩ : ∃ k, 7 = 4 - id.repr.length + (k + 1) := by
    have hpos : 0 < id.repr.length := by
      rw [hrepr, String.length_ofList]
      exact Nat.succ_pos _
    exact ⟨6 - (4 - id.repr.length), by omega⟩
  rw [alignRight, Edge.margin, hblanks, ← List.replicate_append_replicate, List.replicate_succ,
    String.toList_append, String.toList_ofList, List.append_assoc, List.append_assoc] at h
  have hnumeral := List.append_cancel_left h
  rw [hrepr, String.toList_ofList] at hnumeral
  rw [(List.cons.inj hnumeral).left] at hdigit
  exact absurd hdigit (by decide)

/-- The lines of a state are legible before what does not begin with the margin. -/
theorem legible_lines (id : Nat) : Legible (fun r => ∀ t, r ≠ Edge.margin ++ t)
    (fun s : State => String.join (s.lines id)) := by
  intro s t r u hr hu h
  have hends : ∀ {r : List Char}, (∀ t, r ≠ Edge.margin ++ t) →
      Anything r ∧ ∀ (e : Edge) t, r ≠ e.line.toList ++ t := by
    intro r hr
    refine ⟨trivial, fun e t => ?_⟩
    obtain ⟨rest, hline⟩ := e.exists_line_eq
    rw [hline, List.append_assoc]
    exact hr _
  simp only [toList_join_lines, List.append_assoc] at h
  obtain ⟨haccepting, hlines⟩ := legible_mark trivial trivial (List.append_cancel_left h)
  obtain ⟨hedges, hrest⟩ := Edge.legible_line.row (fun _ _ => trivial) (hends hr) (hends hu) hlines
  cases s
  cases t
  exact ⟨congrArg₂ State.mk hedges haccepting, hrest⟩

end State

namespace Nfa

/-- The lines of states do not begin with the margin of an edge. -/
theorem stateLines_ne_margin (id : Nat) (states : List State) (t : List Char) :
    (String.join (stateLines id states)).toList ≠ Edge.margin ++ t := by
  cases states with
  | nil => exact List.cons_ne_nil _ _ ∘ Eq.symm
  | cons s states =>
    rw [stateLines, String.join_append, String.toList_append, State.toList_join_lines,
      List.append_assoc]
    exact State.alignRight_ne_margin id _ t

/-- A state has a line. -/
theorem toList_stateLines_ne_nil (id : Nat) (s : State) (states : List State) :
    (String.join (stateLines id (s :: states))).toList ≠ [] := by
  have hmark : (State.mark s.accepting).toList ≠ [] := by
    cases s.accepting <;> exact List.cons_ne_nil _ _
  rw [stateLines, String.join_append, String.toList_append, State.toList_join_lines]
  simp [hmark]

/-- The lines of states that are numbered from a known id tell the states. -/
theorem stateLines_inj {states others : List State}
    (h : (String.join (stateLines id states)).toList = (String.join (stateLines id others)).toList) :
    states = others := by
  induction states generalizing id others with
  | nil =>
    cases others with
    | nil => rfl
    | cons s others => exact absurd h.symm (toList_stateLines_ne_nil id s others)
  | cons s states ih =>
    cases others with
    | nil => exact absurd h (toList_stateLines_ne_nil id s states)
    | cons t others =>
      simp only [stateLines, String.join_append, String.toList_append] at h
      obtain ⟨rfl, hrest⟩ := State.legible_lines id (stateLines_ne_margin _ _)
        (stateLines_ne_margin _ _) h
      rw [ih hrest]

/-- The parts of a dump. -/
theorem toList_dump (n : Nfa) : n.dump.toList = "start: ".toList ++ ((n.start.repr ++ "\n").toList ++
    ("accept: ".toList ++ ((n.accept.repr ++ "\n").toList ++
      (String.join (stateLines 0 n.states.toList)).toList))) := by
  simp only [dump, String.join_cons, String.append_assoc, String.toList_append, List.append_assoc]

/-- Automata are equal just when their dumps are: the dump tells all states in order with their
edges and marks, and both ids, of whatever automaton. -/
theorem dump_eq_iff (m n : Nfa) : m.dump = n.dump ↔ m = n := by
  refine ⟨fun h => ?_, fun h => congrArg dump h⟩
  have htext := congrArg String.toList h
  rw [toList_dump, toList_dump] at htext
  obtain ⟨hstart, hbehind⟩ := legible_numeralLine trivial trivial (List.append_cancel_left htext)
  obtain ⟨haccept, hlines⟩ := legible_numeralLine trivial trivial (List.append_cancel_left hbehind)
  have hstates := Array.toList_inj.mp (stateLines_inj hlines)
  cases m
  cases n
  rw [mk.injEq]
  exact ⟨hstates, hstart, haccept⟩

/-- An edge for an apostrophe and one for a backslash. -/
example : (Nfa.mk #[⟨[.byte 0x27 1, .byte 0x5c 1], false⟩, ⟨[], true⟩] 0 1).dump =
    "start: 0\naccept: 1\n   0:\n       '\\'' -> 1\n       '\\\\' -> 1\n   1 (accept):\n" := by
  rfl

end Nfa

end ByteRegex
