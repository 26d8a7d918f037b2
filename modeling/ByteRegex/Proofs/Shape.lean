import ByteRegex.Proofs.Meaning
import ByteRegex.Proofs.Step

/-!
# The shape of a compiled automaton

The bytes of a state are read in ascending order and lead to the next state, or the state has
at most two silent edges and no other. No construction spoils this, because it wires only new
states and accept states of complete expressions, none of which has an edge yet. No state is
marked before the construction is finished, and then the last one is.
-/

namespace ByteRegex

/-- The edges of a state: one for each of some bytes in ascending order, to the next state, or
at most two silent ones. -/
inductive UniformEdges (id : Nat) : List Edge → Prop
  /-- The state reads bytes only, each of them at most once. -/
  | reads (bytes : List UInt8) :
      bytes.Pairwise (· < ·) → UniformEdges id (bytes.map (Edge.byte · (id + 1)))
  /-- The state has silent edges only. -/
  | silent (targets : List Nat) : targets.length ≤ 2 → UniformEdges id (targets.map Edge.epsilon)

/-- The shape of an automaton that is made of tokens. -/
structure Nfa.Shaped (n : Nfa) : Prop extends n.InRange where
  /-- The accept state is marked, and no other one is. -/
  accepting_iff : ∀ id s, n.states[id]? = some s → (s.accepting = true ↔ id = n.accept)
  /-- The accept state is the last one. -/
  accept_last : n.accept + 1 = n.size
  /-- No edge leaves the accept state. -/
  accept_sink : edgesFrom n.states n.accept = []
  /-- No edge leads to the start state. -/
  start_fresh : ∀ id, ∀ e ∈ edgesFrom n.states id, e.target ≠ n.start
  /-- Every state reads bytes or has silent edges, and not both. -/
  uniform : ∀ id, UniformEdges id (edgesFrom n.states id)

/-- The bytes of an operand are in ascending order. -/
theorem Token.operandBytes_ascending {t : Token} {bytes : List UInt8}
    (h : t.operandBytes = some bytes) : bytes.Pairwise (· < ·) := by
  cases t with
  | literal b =>
    obtain rfl := Option.some.inj h
    exact List.pairwise_singleton _ b
  | charClass c =>
    obtain rfl := Option.some.inj h
    exact c.members_ascending
  | dot =>
    obtain rfl := Option.some.inj h
    exact ByteClass.anyExceptNewline.members_ascending
  | op o => cases h
  | lparen => cases h
  | rparen => cases h

namespace Thompson

variable {states new : Array State} {fs : List Fragment} {Ls : List (Language UInt8)} {hi : Nat}
  {x y f : Fragment} {links : List (Nat × Nat)} {a b : Assembly} {t : Token} {n : Nfa}

/-- Every fragment of a tiling is entered and left within it, and nothing leaves its accept
state. -/
theorem Tiling.mem (h : Tiling states fs Ls hi) (hf : f ∈ fs) :
    f.start < hi ∧ f.accept < hi ∧ edgesFrom states f.accept = [] := by
  induction h with
  | nil => cases hf
  | @cons lo hi g L fs Ls hblock _ ih =>
    have hge := hblock.start_ge
    have hlt := hblock.start_lt
    have hlast := hblock.accept_last
    rcases List.mem_cons.mp hf with rfl | hf
    · exact ⟨hlt, by omega, hblock.accept_sink⟩
    · obtain ⟨hstart, haccept, hsink⟩ := ih hf
      exact ⟨by omega, by omega, hsink⟩

/-- A later fragment has a later accept state. -/
theorem Tiling.accept_lt (h : Tiling states (y :: x :: fs) Ls hi) : x.accept < y.accept := by
  cases h with
  | cons hy hbelow =>
    cases hbelow with
    | cons hx _ =>
      have hlast := hx.accept_last
      have hge := hy.accept_ge
      omega

/-- The silent edges that links ask for, as a list of their targets. -/
theorem linksFrom_eq_map (links : List (Nat × Nat)) (s : Nat) :
    linksFrom links s = ((links.filter (·.1 = s)).map Prod.snd).map Edge.epsilon := by
  induction links with
  | nil => rfl
  | cons l rest ih =>
    rw [linksFrom, List.flatMap_cons, ← linksFrom, ih, List.filter_cons]
    by_cases hl : l.1 = s
    · simp only [hl, decide_true, if_true, List.map_cons, List.singleton_append]
    · simp only [hl, decide_false, Bool.false_eq_true, if_false, List.nil_append]

/-- Links from states without an edge, at most two from each, keep the edges of every state
uniform. -/
theorem uniform_linked
    (hnew : ∀ s, edgesFrom new s = edgesFrom states s ++ linksFrom links s)
    (hblank : ∀ l ∈ links, edgesFrom states l.1 = [])
    (hfew : ∀ s, links.countP (·.1 = s) ≤ 2) (h : ∀ s, UniformEdges s (edgesFrom states s))
    (s : Nat) : UniformEdges s (edgesFrom new s) := by
  rw [hnew]
  by_cases hs : ∃ l ∈ links, l.1 = s
  · obtain ⟨l, hl, rfl⟩ := hs
    rw [hblank l hl, List.nil_append, linksFrom_eq_map]
    refine .silent _ ?_
    rw [List.length_map, ← List.countP_eq_length_filter]
    exact hfew _
  · rw [linksFrom_eq_nil fun l hl heq => hs ⟨l, hl, heq⟩, List.append_nil]
    exact h s

/-- The same holds with two new states, which have no edge either. -/
theorem uniform_linkAll_grow
    (hsources : ∀ l ∈ links, l.1 < states.size + 2 ∧ edgesFrom states l.1 = [])
    (hfew : ∀ s, links.countP (·.1 = s) ≤ 2) (h : ∀ s, UniformEdges s (edgesFrom states s))
    (s : Nat) : UniformEdges s (edgesFrom (linkAll (grow states) links) s) := by
  have hnew := edgesFrom_linkAll_grow fun l hl => (hsources l hl).left
  exact uniform_linked hnew (fun l hl => (hsources l hl).right) hfew h s

/-- An alternation wires its start twice and the accept states of its operands once each. -/
theorem countP_altLinks (hxy : x.accept < y.accept) (hy : y.accept < f.start) (s : Nat) :
    (altLinks x y f).countP (·.1 = s) ≤ 2 := by
  simp only [altLinks, List.countP_cons, List.countP_nil, decide_eq_true_eq]
  split_ifs <;> omega

/-- A repetition wires its start and the accept state of its operand at most twice each. -/
theorem countP_loopLinks {skip again : Bool} (hx : x.accept < f.start) (s : Nat) :
    (loopLinks skip again x f).countP (·.1 = s) ≤ 2 := by
  cases skip <;> cases again
  all_goals
    simp only [loopLinks, Bool.false_eq_true, if_true, if_false, List.cons_append, List.nil_append,
      List.countP_cons, List.countP_nil, decide_eq_true_eq]
    split_ifs <;> omega

namespace Assembly

/-- A step keeps the edges of every state uniform. -/
theorem Step.uniform (h : Step a t b) (ha : a.Denotes Ls)
    (huniform : ∀ s, UniformEdges s (edgesFrom a.states s)) (s : Nat) :
    UniformEdges s (edgesFrom b.states s) := by
  cases h with
  | paren _ => exact huniform s
  | @operand states stack t bytes ht =>
    rw [edgesFrom_wireBytes]
    by_cases hs : states.size = s
    · subst hs
      rw [if_pos rfl, edgesFrom_eq_nil (Nat.le_refl _), List.nil_append]
      exact .reads bytes (Token.operandBytes_ascending ht)
    · rw [if_neg hs, List.append_nil]
      exact huniform s
  | @concat states x y rest =>
    obtain ⟨-, hxlt, hxsink⟩ := Tiling.mem ha (List.mem_cons_of_mem y List.mem_cons_self)
    have hnew := edgesFrom_linkAll_single hxlt y.start
    dsimp only at huniform ⊢
    refine uniform_linked hnew (fun l hl => ?_) (fun s => ?_) huniform s
    · obtain rfl := List.mem_singleton.mp hl
      exact hxsink
    · exact Nat.le_trans List.countP_le_length (Nat.le_succ 1)
  | @alt states x y rest =>
    obtain ⟨-, hylt, hysink⟩ := Tiling.mem ha List.mem_cons_self
    obtain ⟨-, hxlt, hxsink⟩ := Tiling.mem ha (List.mem_cons_of_mem y List.mem_cons_self)
    have hblank := edgesFrom_eq_nil (Nat.le_refl states.size)
    have hsources : ∀ l ∈ altLinks x y (fresh states),
        l.1 < states.size + 2 ∧ edgesFrom states l.1 = [] :=
      forall_source_altLinks (P := fun s => s < states.size + 2 ∧ edgesFrom states s = [])
        ⟨fresh_start_lt states, hblank⟩ ⟨Nat.lt_add_right 2 hxlt, hxsink⟩
        ⟨Nat.lt_add_right 2 hylt, hysink⟩
    have hfew : ∀ s, (altLinks x y (fresh states)).countP (·.1 = s) ≤ 2 :=
      countP_altLinks (Tiling.accept_lt ha) hylt
    dsimp only at huniform ⊢
    exact uniform_linkAll_grow hsources hfew huniform s
  | @loop states x rest o _ =>
    obtain ⟨-, hxlt, hxsink⟩ := Tiling.mem ha List.mem_cons_self
    have hblank := edgesFrom_eq_nil (Nat.le_refl states.size)
    have hsources : ∀ l ∈ loopLinks o.skips o.repeats x (fresh states),
        l.1 < states.size + 2 ∧ edgesFrom states l.1 = [] :=
      forall_source_loopLinks (P := fun s => s < states.size + 2 ∧ edgesFrom states s = [])
        ⟨fresh_start_lt states, hblank⟩ ⟨Nat.lt_add_right 2 hxlt, hxsink⟩
    have hfew : ∀ s, (loopLinks o.skips o.repeats x (fresh states)).countP (·.1 = s) ≤ 2 :=
      countP_loopLinks hxlt
    dsimp only at huniform ⊢
    exact uniform_linkAll_grow hsources hfew huniform s

end Assembly

/-- Whether the state with the given id is marked. An id without a state is not. -/
def markOf (states : Array State) (id : Nat) : Bool :=
  match states[id]? with
  | some s => s.accepting
  | none => false

/-- A blank state is not marked. -/
theorem markOf_push_blank (states : Array State) (id : Nat) :
    markOf (states.push .blank) id = markOf states id := by
  unfold markOf
  rw [Array.getElem?_push]
  by_cases hid : id = states.size
  · rw [if_pos hid, Array.getElem?_eq_none (by omega)]
    rfl
  · rw [if_neg hid]

/-- New states are not marked. -/
theorem markOf_grow (states : Array State) (id : Nat) :
    markOf (grow states) id = markOf states id := by
  rw [grow, markOf_push_blank, markOf_push_blank]

/-- Adding edges marks no state. -/
theorem markOf_addEdges (states : Array State) (source : Nat) (edges : List Edge) (id : Nat) :
    markOf (addEdges states source edges) id = markOf states id := by
  unfold addEdges markOf
  rw [Array.getElem?_modify]
  by_cases hid : source = id
  · rw [if_pos hid]
    cases states[id]? <;> rfl
  · rw [if_neg hid]

/-- Links mark no state. -/
theorem markOf_linkAll (states : Array State) (links : List (Nat × Nat)) (id : Nat) :
    markOf (linkAll states links) id = markOf states id := by
  induction links generalizing states with
  | nil => rfl
  | cons l rest ih => exact (ih (link states l.1 l.2)).trans (markOf_addEdges ..)

/-- A step marks no state. -/
theorem Assembly.Step.markOf_eq (h : Step a t b) (id : Nat) :
    markOf b.states id = markOf a.states id := by
  cases h with
  | paren _ => rfl
  | operand _ => rw [wireBytes, markOf_addEdges, markOf_grow]
  | concat => rw [markOf_linkAll]
  | alt => rw [markOf_linkAll, markOf_grow]
  | loop _ => rw [markOf_linkAll, markOf_grow]

/-- What is known of an assembly at any moment. -/
structure Assembly.Shaped (a : Assembly) : Prop where
  /-- The blocks of the complete expressions tile the arena. -/
  tiled : ∃ Ls, a.Denotes Ls
  /-- No state is marked. -/
  unmarked : ∀ id, markOf a.states id = false
  /-- Every state reads bytes or has silent edges, and not both. -/
  uniform : ∀ id, UniformEdges id (edgesFrom a.states id)

/-- Nothing is wrong with nothing. -/
theorem Assembly.shaped_empty : Assembly.empty.Shaped where
  tiled := ⟨[], .nil⟩
  unmarked _ := rfl
  uniform _ := .silent [] (Nat.zero_le 2)

/-- A token that succeeds keeps the shape. -/
theorem Assembly.Shaped.push {limit : Option Nat} (ha : a.Shaped) (h : a.push limit t = .ok b) :
    b.Shaped := by
  obtain ⟨Ls, hdenotes⟩ := ha.tiled
  have hstep := step_of_push h
  obtain ⟨Ks, -, hb⟩ := push_denotes hdenotes h
  refine ⟨⟨Ks, hb⟩, fun id => ?_, hstep.uniform hdenotes ha.uniform⟩
  rw [hstep.markOf_eq, ha.unmarked]

/-- Setting the mark of one state marks that state and no other. -/
theorem accepting_of_mark {marked id : Nat} {s : State} (h : ∀ id, markOf states id = false)
    (hs : (states.modify marked fun s => { s with accepting := true })[id]? = some s) :
    s.accepting = true ↔ id = marked := by
  rw [Array.getElem?_modify] at hs
  by_cases hid : marked = id
  · rw [if_pos hid, Option.map_eq_some_iff] at hs
    obtain ⟨u, -, rfl⟩ := hs
    exact ⟨fun _ => hid.symm, fun _ => rfl⟩
  · rw [if_neg hid] at hs
    have hmark := h id
    simp only [markOf, hs] at hmark
    rw [hmark]
    exact ⟨Bool.noConfusion, fun heq => absurd heq.symm hid⟩

/-- The mark completes the shape. -/
theorem Assembly.Shaped.finish (ha : a.Shaped) (h : a.finish = .ok n) : n.Shaped := by
  obtain ⟨⟨Ls, hdenotes⟩, hunmarked, huniform⟩ := ha
  obtain ⟨L, rfl, hrange, -⟩ := finish_paths hdenotes h
  obtain ⟨states, f, rfl, rfl⟩ := exists_of_finish h
  cases hdenotes with
  | cons hblock hbelow =>
    cases hbelow with
    | nil =>
      refine ⟨hrange, fun id s hs => accepting_of_mark hunmarked hs, ?_, ?_, fun id e he => ?_,
        fun id => ?_⟩
      · rw [Nfa.size, Array.size_modify]
        exact hblock.accept_last
      · rw [edgesFrom_mark]
        exact hblock.accept_sink
      · rw [edgesFrom_mark] at he
        exact hblock.start_fresh id (Nat.zero_le id) (lt_size_of_mem_edgesFrom he) e he
      · rw [edgesFrom_mark]
        exact huniform id

/-- Every automaton that is made of tokens, of whatever stream and under whatever limit, has
the shape. -/
theorem compile_shaped (limit : Option Nat) (ts : List Token) (n : Nfa)
    (h : compile limit ts = .ok n) : n.Shaped := by
  obtain ⟨a, hrun, hfinish⟩ := exists_of_compile h
  have ha : a.Shaped := Assembly.pushAll_induction (P := Assembly.Shaped) Assembly.shaped_empty
    (fun t _ a b hpush ha => ha.push hpush) hrun
  exact ha.finish hfinish

/-- Either of two bytes in a loop, and then perhaps a third. -/
theorem loopThenOption_shaped : ∃ n,
    compile none [.literal 0x61, .literal 0x62, .op .alt, .op .star, .literal 0x63, .op .question,
      .op .concat] = .ok n ∧ n.Shaped := by
  obtain ⟨n, hn⟩ := compile_eq_ok_iff.mpr (show depthFrom 0 [.literal 0x61, .literal 0x62,
    .op .alt, .op .star, .literal 0x63, .op .question, .op .concat] = .ok 1 from rfl)
  exact ⟨n, hn, compile_shaped none _ n hn⟩

end Thompson

end ByteRegex
