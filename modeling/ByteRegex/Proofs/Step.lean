import ByteRegex.Proofs.Arena
import ByteRegex.Proofs.Depth

/-!
# What one token does to an assembly

A token that succeeds does one of five things. A parenthesis does nothing, an operand puts
two new states on the stack as a fragment, a concatenation links two fragments, and an
alternation or a repetition puts two new states around its fragments. Neither the limit nor
the wiring of a single operator is visible any more, so what holds of all constructions is
proved for these five cases and carried along the stream by one induction.
-/

namespace ByteRegex

/-- The bytes of which an operand reads one. -/
def Token.operandBytes : Token → Option (List UInt8)
  | literal b => some [b]
  | charClass c => some c.members
  | dot => some ByteClass.anyExceptNewline.members
  | op _ | lparen | rparen => none

/-- Whether a token allocates a pair of states. -/
def Token.allocates : Token → Bool
  | literal _ | charClass _ | dot => true
  | op o => o ≠ .concat
  | lparen | rparen => false

/-- An operand allocates a pair. -/
theorem Token.allocates_operand {t : Token} {bytes : List UInt8} (h : t.operandBytes = some bytes) :
    t.allocates = true := by
  cases t with
  | op o => cases h
  | lparen => cases h
  | rparen => cases h
  | _ => rfl

/-- A repetition allocates a pair. -/
theorem Token.allocates_unary {o : Operator} (h : o.isUnary = true) : (op o).allocates = true := by
  cases o with
  | concat => cases h
  | _ => rfl

namespace Operator

/-- Whether a repetition may be skipped. -/
def skips : Operator → Bool
  | star | question => true
  | plus | concat | alt => false

/-- Whether a repetition may read its operand more than once. -/
def repeats : Operator → Bool
  | star | plus => true
  | question | concat | alt => false

end Operator

namespace Thompson

variable {limit : Option Nat} {a b : Assembly} {t : Token} {ts us : List Token} {n : Nfa}

/-- The fragment of the two states that are allocated next. -/
def fresh (states : Array State) : Fragment := ⟨states.size, states.size + 1⟩

/-- The next fragment is entered by the first new state. -/
@[simp] theorem fresh_start (states : Array State) : (fresh states).start = states.size := rfl

/-- The next fragment is left by the second new state. -/
@[simp] theorem fresh_accept (states : Array State) : (fresh states).accept = states.size + 1 := rfl

/-- The next fragment is entered by one of the states that are then there. -/
theorem fresh_start_lt (states : Array State) : (fresh states).start < states.size + 2 :=
  Nat.lt_add_of_pos_right Nat.zero_lt_two

/-- The start of a new fragment of bytes has one edge for each of them, and nothing else is new. -/
theorem edgesFrom_wireBytes (states : Array State) (bytes : List UInt8) (s : Nat) :
    edgesFrom (wireBytes bytes (fresh states) (grow states)) s =
      edgesFrom states s ++
        if states.size = s then bytes.map (Edge.byte · (states.size + 1)) else [] := by
  have hlt : (fresh states).start < (grow states).size := by
    rw [size_grow]
    exact fresh_start_lt states
  rw [wireBytes, edgesFrom_addEdges hlt, edgesFrom_grow]
  rfl

/-- With two more states, links between the old and the new ones are all that is new. -/
theorem edgesFrom_linkAll_grow {states : Array State} {links : List (Nat × Nat)}
    (h : ∀ l ∈ links, l.1 < states.size + 2) (s : Nat) :
    edgesFrom (linkAll (grow states) links) s = edgesFrom states s ++ linksFrom links s := by
  rw [edgesFrom_linkAll, edgesFrom_grow]
  intro l hl
  rw [size_grow]
  exact h l hl

/-- What holds of the new start and of both accept states holds of all sources of the links of an
alternation. -/
theorem forall_source_altLinks {P : Nat → Prop} {x y f : Fragment} (hstart : P f.start)
    (hx : P x.accept) (hy : P y.accept) : ∀ l ∈ altLinks x y f, P l.1 := by
  intro l hl
  rcases mem_altLinks.mp hl with rfl | rfl | rfl | rfl
  · exact hstart
  · exact hstart
  · exact hx
  · exact hy

/-- What holds of the new start and of the accept state holds of all sources of the links of a
repetition. -/
theorem forall_source_loopLinks {P : Nat → Prop} {skip again : Bool} {x f : Fragment}
    (hstart : P f.start) (hx : P x.accept) : ∀ l ∈ loopLinks skip again x f, P l.1 := by
  intro l hl
  rcases mem_loopLinks.mp hl with rfl | ⟨-, rfl⟩ | ⟨-, rfl⟩ | rfl
  · exact hstart
  · exact hstart
  · exact hx
  · exact hx

/-- A single link from a state is all that is new. -/
theorem edgesFrom_linkAll_single {states : Array State} {source : Nat} (h : source < states.size)
    (target s : Nat) : edgesFrom (linkAll states [(source, target)]) s =
      edgesFrom states s ++ linksFrom [(source, target)] s := by
  refine edgesFrom_linkAll (fun l hl => ?_) s
  obtain rfl := List.mem_singleton.mp hl
  exact h

namespace Assembly

/-- What a token does when it succeeds. -/
inductive Step : Assembly → Token → Assembly → Prop
  /-- A parenthesis does nothing. -/
  | paren {a : Assembly} {t : Token} : t.isParen = true → Step a t a
  /-- An operand puts a new fragment on the stack. -/
  | operand {states : Array State} {stack : List Fragment} {t : Token} {bytes : List UInt8} :
      t.operandBytes = some bytes → Step ⟨states, stack⟩ t
        ⟨wireBytes bytes (fresh states) (grow states), fresh states :: stack⟩
  /-- A concatenation links the accept state of one fragment to the start of the next. -/
  | concat {states : Array State} {x y : Fragment} {rest : List Fragment} :
      Step ⟨states, y :: x :: rest⟩ (.op .concat)
        ⟨linkAll states [(x.accept, y.start)], ⟨x.start, y.accept⟩ :: rest⟩
  /-- An alternation puts a new fragment around two. -/
  | alt {states : Array State} {x y : Fragment} {rest : List Fragment} :
      Step ⟨states, y :: x :: rest⟩ (.op .alt)
        ⟨linkAll (grow states) (altLinks x y (fresh states)), fresh states :: rest⟩
  /-- A repetition puts a new fragment around one. -/
  | loop {states : Array State} {x : Fragment} {rest : List Fragment} {o : Operator} :
      o.isUnary = true → Step ⟨states, x :: rest⟩ (.op o)
        ⟨linkAll (grow states) (loopLinks o.skips o.repeats x (fresh states)),
          fresh states :: rest⟩

/-- An operator that succeeds does a step. -/
theorem step_of_reduce {o : Operator} (h : a.reduce limit o = .ok b) : Step a (.op o) b := by
  obtain ⟨states, fs⟩ := a
  rcases fs with - | ⟨y, rest⟩
  · cases o <;> cases h
  cases o with
  | concat =>
    rcases rest with - | ⟨x, rest⟩
    · cases h
    · obtain rfl := Except.ok.inj h
      exact .concat
  | alt =>
    rcases rest with - | ⟨x, rest⟩
    · cases h
    · rw [allocate_eq_ok h, wireAlt_eq]
      exact .alt
  | star =>
    rw [allocate_eq_ok h, wireStar_eq]
    exact .loop rfl
  | plus =>
    rw [allocate_eq_ok h, wirePlus_eq]
    exact .loop rfl
  | question =>
    rw [allocate_eq_ok h, wireQuestion_eq]
    exact .loop rfl

/-- A token that succeeds does a step. -/
theorem step_of_push (h : a.push limit t = .ok b) : Step a t b := by
  cases t with
  | literal byte =>
    rw [allocate_eq_ok h]
    exact .operand rfl
  | charClass c =>
    rw [allocate_eq_ok h]
    exact .operand rfl
  | dot =>
    rw [allocate_eq_ok h]
    exact .operand rfl
  | op o => exact step_of_reduce h
  | lparen =>
    obtain rfl := Except.ok.inj h
    exact .paren rfl
  | rparen =>
    obtain rfl := Except.ok.inj h
    exact .paren rfl

/-- A step allocates a pair of states or none. -/
theorem Step.size_eq (h : Step a t b) :
    b.states.size = a.states.size + 2 * t.allocates.toNat := by
  cases h with
  | @paren _ t ht =>
    cases t with
    | lparen => rfl
    | rparen => rfl
    | _ => cases ht
  | operand ht =>
    rw [Token.allocates_operand ht, wireBytes, size_addEdges, size_grow, Bool.toNat_true]
  | concat => exact size_linkAll ..
  | alt =>
    rw [size_linkAll, size_grow]
    rfl
  | loop ho => rw [Token.allocates_unary ho, size_linkAll, size_grow, Bool.toNat_true]

/-- A stream that succeeds does so with its first token and then with the others. -/
theorem exists_of_pushAll_cons (h : a.pushAll limit (t :: ts) = .ok b) :
    ∃ next, a.push limit t = .ok next ∧ next.pushAll limit ts = .ok b := by
  rw [pushAll] at h
  cases hpush : a.push limit t with
  | error e =>
    rw [hpush] at h
    cases h
  | ok next =>
    rw [hpush] at h
    exact ⟨next, rfl, h⟩

/-- The second part of a stream is read behind the first one. -/
theorem pushAll_append (a : Assembly) (ts us : List Token) :
    a.pushAll limit (ts ++ us) = (a.pushAll limit ts).bind (·.pushAll limit us) := by
  induction ts generalizing a with
  | nil => rfl
  | cons t rest ih =>
    rw [List.cons_append, pushAll, pushAll]
    cases a.push limit t with
    | error e => rfl
    | ok b => exact ih b

/-- What holds at first and is kept by every token holds behind the stream. -/
theorem pushAll_induction {P : Assembly → Prop} (hstart : P a)
    (hstep : ∀ t ∈ ts, ∀ a b, a.push limit t = .ok b → P a → P b)
    (h : a.pushAll limit ts = .ok b) : P b := by
  induction ts generalizing a with
  | nil =>
    obtain rfl := Except.ok.inj h
    exact hstart
  | cons t rest ih =>
    obtain ⟨next, hpush, hrest⟩ := exists_of_pushAll_cons h
    have hnext := hstep t List.mem_cons_self a next hpush hstart
    exact ih hnext (fun u hu => hstep u (List.mem_cons_of_mem t hu)) hrest

/-- A stream allocates a pair of states for each of its tokens that does. -/
theorem size_of_pushAll (h : a.pushAll limit ts = .ok b) :
    b.states.size = a.states.size + 2 * ts.countP Token.allocates := by
  induction ts generalizing a with
  | nil =>
    obtain rfl := Except.ok.inj h
    rfl
  | cons t rest ih =>
    obtain ⟨next, hpush, hrest⟩ := exists_of_pushAll_cons h
    rw [ih hrest, (step_of_push hpush).size_eq, List.countP_cons]
    cases t.allocates
    all_goals
      simp only [Bool.toNat_true, Bool.toNat_false, Bool.false_eq_true, if_true, if_false]
      omega

/-- The automaton of an assembly is its only fragment, and all that happens to the states is
that the accept state is marked. -/
theorem exists_of_finish (h : a.finish = .ok n) : ∃ states f, a = ⟨states, [f]⟩ ∧
    n = ⟨states.modify f.accept fun s => { s with accepting := true }, f.start, f.accept⟩ := by
  obtain ⟨states, fs⟩ := a
  rcases fs with - | ⟨f, - | ⟨g, rest⟩⟩
  · cases h
  · exact ⟨states, f, rfl, (Except.ok.inj h).symm⟩
  · cases h

end Assembly

/-- A construction that succeeds reads every token and finishes. -/
theorem exists_of_compile (h : compile limit ts = .ok n) :
    ∃ a, Assembly.empty.pushAll limit ts = .ok a ∧ a.finish = .ok n := by
  rw [compile] at h
  cases hrun : Assembly.empty.pushAll limit ts with
  | error e =>
    rw [hrun] at h
    cases h
  | ok a =>
    rw [hrun] at h
    exact ⟨a, rfl, h⟩

end Thompson

end ByteRegex
