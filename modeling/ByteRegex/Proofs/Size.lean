import ByteRegex.Pattern
import ByteRegex.Proofs.Joining
import ByteRegex.Proofs.Shape
import Mathlib.Algebra.BigOperators.Group.List.Basic
import Mathlib.Algebra.GroupWithZero.Nat

/-!
# How large an automaton is

Operands, repetitions and alternations allocate two states each, and nothing else does. Every
operator adds a fixed number of silent edges, which all leave states of the arena, so that none of
them is lost. No step of the parser repeats an operand or an operator, and every token takes at
least one byte of the pattern. So the numbers of states and of silent edges are sums over the
tokens, and the number of states is at most twice the number of bytes.
-/

namespace ByteRegex

/-- Whether the edge reads nothing. -/
def Edge.isSilent (e : Edge) : Bool := e.label.isNone

/-- The number of silent edges of all states. -/
def silentCount (states : Array State) : Nat :=
  (states.toList.flatMap State.edges).countP Edge.isSilent

/-- The number of silent edges that a token adds. -/
def Token.silentEdges : Token → Nat
  | op .concat => 1
  | op .alt | op .star => 4
  | op .plus | op .question => 3
  | literal _ | charClass _ | dot | lparen | rparen => 0

/-- An operand adds no silent edge. -/
theorem Token.silentEdges_operand {t : Token} {bytes : List UInt8}
    (h : t.operandBytes = some bytes) : t.silentEdges = 0 := by
  cases t with
  | op o => cases h
  | _ => rfl

/-- A parenthesis adds no silent edge. -/
theorem Token.silentEdges_paren {t : Token} (h : t.isParen = true) : t.silentEdges = 0 := by
  cases t with
  | op o => cases h
  | _ => rfl

namespace Thompson

variable {states : Array State} {id : Nat} {limit : Option Nat} {ts : List Token} {t : Token}
  {a b : Assembly} {n : Nfa} {Ls : List (Language UInt8)}

/-- A change of a state that adds a number of silent edges to it adds as many to the arena. -/
theorem silentCount_modify {f : State → State} {k : Nat} (h : id < states.size)
    (hf : ∀ s, (f s).edges.countP Edge.isSilent = s.edges.countP Edge.isSilent + k) :
    silentCount (states.modify id f) = silentCount states + k := by
  obtain ⟨front, s, back, hstates, -, hmodify⟩ :=
    List.exists_of_modify f (i := id) (l := states.toList) h
  rw [silentCount, silentCount, Array.toList_modify, hmodify, hstates]
  simp only [List.flatMap_append, List.flatMap_cons, List.countP_append, hf]
  omega

/-- Adding edges adds those of them that are silent. -/
theorem silentCount_addEdges (h : id < states.size) (edges : List Edge) :
    silentCount (addEdges states id edges) =
      silentCount states + edges.countP Edge.isSilent :=
  silentCount_modify h fun _ => List.countP_append

/-- New states have no edges. -/
theorem silentCount_grow (states : Array State) :
    silentCount (grow states) = silentCount states := by
  rw [silentCount, silentCount, grow, Array.toList_push, Array.toList_push]
  simp only [List.flatMap_append, List.flatMap_singleton, State.blank, List.append_nil]

/-- Every link is one more silent edge. -/
theorem silentCount_linkAll {links : List (Nat × Nat)} (h : ∀ l ∈ links, l.1 < states.size) :
    silentCount (linkAll states links) = silentCount states + links.length := by
  induction links generalizing states with
  | nil => rfl
  | cons l rest ih =>
    have hl : silentCount (link states l.1 l.2) = silentCount states + 1 :=
      silentCount_addEdges (h l List.mem_cons_self) _
    have hrest : ∀ k ∈ rest, k.1 < (link states l.1 l.2).size := by
      intro k hk
      rw [link, size_addEdges]
      exact h k (List.mem_cons_of_mem l hk)
    rw [linkAll, List.foldl_cons, ← linkAll, ih hrest, hl, List.length_cons, Nat.add_assoc,
      Nat.add_comm 1]

/-- With two more states, every link from an old or a new one is one more silent edge. -/
theorem silentCount_linkAll_grow {links : List (Nat × Nat)}
    (h : ∀ l ∈ links, l.1 < states.size + 2) :
    silentCount (linkAll (grow states) links) = silentCount states + links.length := by
  rw [silentCount_linkAll, silentCount_grow]
  intro l hl
  rw [size_grow]
  exact h l hl

/-- A repetition has two links, and one more for each of what it allows. -/
theorem length_loopLinks {o : Operator} (ho : o.isUnary = true) (x f : Fragment) :
    (loopLinks o.skips o.repeats x f).length = (Token.op o).silentEdges := by
  cases o with
  | concat => cases ho
  | alt => cases ho
  | _ => rfl

namespace Assembly

/-- A step adds the silent edges of its token. -/
theorem Step.silentCount_eq (h : Step a t b) (ha : a.Denotes Ls) :
    silentCount b.states = silentCount a.states + t.silentEdges := by
  cases h with
  | paren ht => rw [Token.silentEdges_paren ht, Nat.add_zero]
  | @operand states stack t bytes ht =>
    have hstart : (fresh states).start < (grow states).size := by
      rw [size_grow]
      exact fresh_start_lt states
    have hnone : (bytes.map (Edge.byte · (fresh states).accept)).countP Edge.isSilent = 0 := by
      rw [List.countP_map]
      exact List.countP_eq_zero.mpr fun byte _ => Bool.false_ne_true
    rw [Token.silentEdges_operand ht, wireBytes, silentCount_addEdges hstart, hnone,
      silentCount_grow]
  | @concat states x y rest =>
    obtain ⟨-, hxlt, -⟩ := Tiling.mem ha (List.mem_cons_of_mem y List.mem_cons_self)
    refine silentCount_linkAll fun l hl => ?_
    obtain rfl := List.mem_singleton.mp hl
    exact hxlt
  | @alt states x y rest =>
    obtain ⟨-, hylt, -⟩ := Tiling.mem ha List.mem_cons_self
    obtain ⟨-, hxlt, -⟩ := Tiling.mem ha (List.mem_cons_of_mem y List.mem_cons_self)
    have hsources : ∀ l ∈ altLinks x y (fresh states), l.1 < states.size + 2 :=
      forall_source_altLinks (P := (· < states.size + 2)) (fresh_start_lt states)
        (Nat.lt_add_right 2 hxlt) (Nat.lt_add_right 2 hylt)
    rw [silentCount_linkAll_grow hsources]
    rfl
  | @loop states x rest o ho =>
    obtain ⟨-, hxlt, -⟩ := Tiling.mem ha List.mem_cons_self
    have hsources : ∀ l ∈ loopLinks o.skips o.repeats x (fresh states), l.1 < states.size + 2 :=
      forall_source_loopLinks (P := (· < states.size + 2)) (fresh_start_lt states)
        (Nat.lt_add_right 2 hxlt)
    rw [silentCount_linkAll_grow hsources, length_loopLinks ho]

/-- A stream adds the silent edges of its tokens. -/
theorem silentCount_of_pushAll (ha : a.Denotes Ls) (h : a.pushAll limit ts = .ok b) :
    silentCount b.states = silentCount a.states + (ts.map Token.silentEdges).sum := by
  induction ts generalizing a Ls with
  | nil =>
    obtain rfl := Except.ok.inj h
    rfl
  | cons t rest ih =>
    obtain ⟨next, hpush, hrest⟩ := exists_of_pushAll_cons h
    obtain ⟨Ks, -, hnext⟩ := push_denotes ha hpush
    rw [ih hnext hrest, (step_of_push hpush).silentCount_eq ha, List.map_cons, List.sum_cons,
      Nat.add_assoc]

end Assembly

/-- The automaton has the silent edges that its tokens add. -/
theorem silentCount_of_compile (h : compile limit ts = .ok n) :
    silentCount n.states = (ts.map Token.silentEdges).sum := by
  obtain ⟨a, hrun, hfinish⟩ := exists_of_compile h
  have hempty : Assembly.empty.Denotes [] := Tiling.nil
  have hnone : silentCount Assembly.empty.states = 0 := rfl
  obtain ⟨Ks, -, ha⟩ := Assembly.pushAll_denotes hempty hrun
  have hcount := Assembly.silentCount_of_pushAll hempty hrun
  obtain ⟨states, f, rfl, rfl⟩ := Assembly.exists_of_finish hfinish
  obtain ⟨-, haccept, -⟩ := Tiling.mem ha List.mem_cons_self
  have hmark : silentCount (states.modify f.accept fun s => { s with accepting := true }) =
      silentCount states + 0 := silentCount_modify haccept fun _ => rfl
  rw [hmark, hcount, hnone, Nat.zero_add, Nat.add_zero]

/-- The automaton has two states for each token that allocates. -/
theorem size_of_compile (h : compile limit ts = .ok n) :
    n.size = 2 * ts.countP Token.allocates := by
  obtain ⟨a, hrun, hfinish⟩ := exists_of_compile h
  have hsize := Assembly.size_of_pushAll hrun
  have hnone : Assembly.empty.states.size = 0 := rfl
  obtain ⟨states, f, rfl, rfl⟩ := Assembly.exists_of_finish hfinish
  rw [Nfa.size, Array.size_modify, hsize, hnone, Nat.zero_add]

end Thompson

/-- What allocates are the operands, the repetitions and the alternations. -/
theorem countP_allocates (ts : List Token) : ts.countP Token.allocates =
    ts.countP Token.isOperand + ts.countP Token.isUnary + ts.count (.op .alt) := by
  induction ts with
  | nil => rfl
  | cons t rest ih =>
    have ht : t.allocates.toNat =
        t.isOperand.toNat + t.isUnary.toNat + (t == .op .alt).toNat := by
      cases t with
      | op o => cases o <;> rfl
      | _ => rfl
    simp only [Bool.toNat, cond_eq_ite] at ht
    rw [List.countP_cons, List.countP_cons, List.countP_cons, List.count_cons]
    omega

/-- The silent edges that tokens add, by kinds of tokens. -/
theorem sum_silentEdges (ts : List Token) : (ts.map Token.silentEdges).sum =
    ts.count (.op .concat) + 4 * (ts.count (.op .alt) + ts.count (.op .star)) +
      3 * (ts.count (.op .plus) + ts.count (.op .question)) := by
  induction ts with
  | nil => rfl
  | cons t rest ih =>
    have ht : t.silentEdges = (t == .op .concat).toNat +
        4 * ((t == .op .alt).toNat + (t == .op .star).toNat) +
          3 * ((t == .op .plus).toNat + (t == .op .question).toNat) := by
      cases t with
      | op o => cases o <;> rfl
      | _ => rfl
    simp only [Bool.toNat, cond_eq_ite] at ht
    simp only [List.map_cons, List.sum_cons, List.count_cons]
    omega

/-- Every lexeme is spelled with at least one byte. -/
theorem Lexeme.length_le_length_bytes (ls : List Lexeme) :
    ls.length ≤ (ls.flatMap Lexeme.bytes).length := by
  have hbytes : ∀ l : Lexeme, 1 ≤ l.bytes.length := by
    intro l
    cases l <;> exact Nat.succ_pos _
  have hsum := List.length_le_sum_of_one_le (ls.map (·.bytes.length))
    (List.forall_mem_map.mpr fun l _ => hbytes l)
  rw [List.length_map] at hsum
  rw [List.length_flatMap]
  exact hsum

/-- Every token takes at least one byte of the pattern. -/
theorem Pattern.length_tokens_le (p : Pattern) : p.tokens.length ≤ p.length := by
  have hlexemes := Lexeme.length_le_length_bytes (Reading.ofBytes p).lexemes
  conv_rhs => rw [← Reading.bytes_ofBytes p]
  rw [Pattern.tokens, Reading.tokens, Reading.bytes, List.length_append, List.length_append,
    List.length_map, List.length_map]
  omega

namespace Thompson

/-- The size of an automaton is known from its tokens, whatever the state limit. There are two
states for each operand, repetition and alternation, every operator adds its number of silent
edges, and if the tokens are those of a pattern, there are at most two states for each of its
bytes. -/
theorem compile_size_linear (limit : Option Nat) (ts : List Token) (n : Nfa)
    (h : compile limit ts = .ok n) :
    n.size = 2 * (ts.countP Token.isOperand + ts.countP Token.isUnary + ts.count (.op .alt)) ∧
    silentCount n.states =
      ts.count (.op .concat) + 4 * (ts.count (.op .alt) + ts.count (.op .star)) +
        3 * (ts.count (.op .plus) + ts.count (.op .question)) ∧
    ∀ p : Pattern, p.postorder = ts → n.size ≤ 2 * p.length := by
  refine ⟨?_, ?_, ?_⟩
  · rw [size_of_compile h, countP_allocates]
  · rw [silentCount_of_compile h, sum_silentEdges]
  · rintro p rfl
    have hkept : p.postorder.countP Token.allocates = p.tokens.countP Token.allocates :=
      countP_toPostorder_insertConcats rfl rfl rfl p.tokens
    have hallocates : p.tokens.countP Token.allocates ≤ p.tokens.length := List.countP_le_length
    have hlength := p.length_tokens_le
    rw [size_of_compile h, hkept]
    omega

/-- Either of two bytes in a loop, and then perhaps a third: the pattern `(a|b)+c?`. -/
def choiceLoopThenOption : Pattern := [0x28, 0x61, 0x7c, 0x62, 0x29, 0x2b, 0x63, 0x3f]

/-- Three operands, two repetitions and an alternation make twelve states, where the eight bytes
allow sixteen, and the concatenation makes the eleventh silent edge. -/
theorem choiceLoopThenOption_size : ∃ n,
    compile none choiceLoopThenOption.postorder = .ok n ∧
      n.size = 12 ∧ silentCount n.states = 11 ∧ n.size ≤ 2 * choiceLoopThenOption.length := by
  obtain ⟨n, hn⟩ := compile_eq_ok_iff.mpr
    (show depthFrom 0 choiceLoopThenOption.postorder = .ok 1 from rfl)
  obtain ⟨hsize, hsilent, hbytes⟩ :=
    compile_size_linear none choiceLoopThenOption.postorder n hn
  exact ⟨n, hn, hsize, hsilent, hbytes choiceLoopThenOption rfl⟩

end Thompson

end ByteRegex
