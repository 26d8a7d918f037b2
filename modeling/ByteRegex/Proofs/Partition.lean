import ByteRegex.Proofs.Shape

/-!
# The fragments divide the arena among themselves

The blocks of the complete expressions follow each other from the bottom of the stack up, and
together they hold every state. An operand puts a block behind them, an operator makes one of the
topmost blocks, and no other block notices. So whatever a token or the end of the construction
addresses is there: adding the edges one by one, each with a look at both of its ends, never meets
an id without a state.
-/

namespace ByteRegex.Thompson

variable {states : Array State} {fs : List Fragment} {Ls : List (Language UInt8)} {hi : Nat}
  {a b : Assembly} {t : Token} {limit : Option Nat}

/-- The arena is cut into consecutive intervals, one for each fragment from the bottom of the stack
up. -/
structure Assembly.CutBy (a : Assembly) (cut : Nat → Nat) : Prop where
  /-- The first interval begins with the first state. -/
  first : cut 0 = 0
  /-- The last interval ends with the last state. -/
  last : cut a.stack.length = a.states.size
  /-- Every interval is the block of its fragment. -/
  blocks : ∀ i f, a.stack.reverse[i]? = some f → ∃ L, Block a.states (cut i) (cut (i + 1)) f L

/-- The blocks of a tiling are cut off one after the other: each of them lies above the cuts below
it, and only the cut behind it is new. -/
theorem Tiling.exists_cuts (h : Tiling states fs Ls hi) : ∃ cut : Nat → Nat,
    cut 0 = 0 ∧ cut fs.length = hi ∧
      ∀ i f, fs.reverse[i]? = some f → ∃ L, Block states (cut i) (cut (i + 1)) f L := by
  induction h with
  | nil => exact ⟨fun _ => 0, rfl, rfl, fun i f hf => by cases hf⟩
  | @cons lo hi f L fs Ls hblock _ ih =>
    obtain ⟨cut, hfirst, hlast, hblocks⟩ := ih
    have hlower : ∀ i, i ≤ fs.length → Function.update cut (fs.length + 1) hi i = cut i :=
      fun i hi => Function.update_of_ne (by omega) _ _
    have htop : Function.update cut (fs.length + 1) hi (fs.length + 1) = hi :=
      Function.update_self ..
    refine ⟨Function.update cut (fs.length + 1) hi, ?_, htop, fun i g hg => ?_⟩
    · rw [hlower 0 (Nat.zero_le _), hfirst]
    · rw [List.reverse_cons, List.getElem?_append, List.length_reverse] at hg
      by_cases hi : i < fs.length
      · rw [if_pos hi] at hg
        rw [hlower i (by omega), hlower (i + 1) (by omega)]
        exact hblocks i g hg
      · rw [if_neg hi, List.getElem?_singleton, Option.ite_none_right_eq_some] at hg
        obtain ⟨hlatest, rfl⟩ : i - fs.length = 0 ∧ f = g := ⟨hg.left, Option.some.inj hg.right⟩
        obtain rfl : i = fs.length := by omega
        rw [hlower fs.length (Nat.le_refl _), htop, hlast]
        exact ⟨L, hblock⟩

/-- Add an edge, which fails when there is no state at one of its ends. -/
def connect (states : Array State) (c : Nat × Edge) : Except OutOfRange (Array State) :=
  if c.1 < states.size then
    if c.2.target < states.size then .ok (addEdges states c.1 [c.2])
    else .error ⟨states.size, c.2.target⟩
  else .error ⟨states.size, c.1⟩

/-- The links that an operator asks for: its operands are on top of the stack, and `new` is the
fragment of the states that it allocates. -/
def linksOf (new : Fragment) : Operator → List Fragment → List (Nat × Nat)
  | .concat, y :: x :: _ => [(x.accept, y.start)]
  | .alt, y :: x :: _ => altLinks x y new
  | .star, x :: _ => loopLinks true true x new
  | .plus, x :: _ => loopLinks false true x new
  | .question, x :: _ => loopLinks true false x new
  | _, _ => []

/-- A repetition asks for the links of a loop. -/
theorem linksOf_unary {o : Operator} (ho : o.isUnary = true) (new x : Fragment)
    (rest : List Fragment) :
    linksOf new o (x :: rest) = loopLinks o.skips o.repeats x new := by
  cases o with
  | concat => cases ho
  | alt => cases ho
  | _ => rfl

/-- An operator links states of its operands and of the fragment that it allocates, if any. -/
theorem linksOf_lt {o : Operator} {new : Fragment} {n : Nat}
    (hstack : ∀ f ∈ fs, f.start < n ∧ f.accept < n)
    (hnew : o ≠ .concat → new.start < n ∧ new.accept < n) :
    ∀ l ∈ linksOf new o fs, l.1 < n ∧ l.2 < n := by
  intro l hl
  cases hunary : o.isUnary with
  | true =>
    rcases fs with - | ⟨x, rest⟩
    · cases o <;> cases hl
    · have hx := hstack x List.mem_cons_self
      have hf := hnew fun heq => by rw [heq] at hunary; cases hunary
      rw [linksOf_unary hunary] at hl
      rcases mem_loopLinks.mp hl with rfl | ⟨-, rfl⟩ | ⟨-, rfl⟩ | rfl
      · exact ⟨hf.left, hx.left⟩
      · exact hf
      · exact ⟨hx.right, hx.left⟩
      · exact ⟨hx.right, hf.right⟩
  | false =>
    rcases fs with - | ⟨y, - | ⟨x, rest⟩⟩
    · cases o <;> cases hl
    · cases o with
      | concat => cases hl
      | alt => cases hl
      | _ => cases hunary
    · have hy := hstack y List.mem_cons_self
      have hx := hstack x (List.mem_cons_of_mem y List.mem_cons_self)
      cases o with
      | concat =>
        obtain rfl := List.mem_singleton.mp hl
        exact ⟨hx.right, hy.left⟩
      | alt =>
        have hf := hnew Operator.noConfusion
        rcases mem_altLinks.mp hl with rfl | rfl | rfl | rfl
        · exact ⟨hf.left, hx.left⟩
        · exact ⟨hf.left, hy.left⟩
        · exact ⟨hx.right, hf.right⟩
        · exact ⟨hy.right, hf.right⟩
      | _ => cases hunary

/-- Edges can be added one by one. -/
theorem addEdges_eq_foldl (states : Array State) (id : Nat) (edges : List Edge) :
    addEdges states id edges = edges.foldl (fun states e => addEdges states id [e]) states := by
  induction edges generalizing states with
  | nil =>
    refine Array.ext_getElem? fun i => ?_
    simp [addEdges, Array.getElem?_modify]
  | cons e rest ih =>
    rw [List.foldl_cons, ← ih]
    refine Array.ext_getElem? fun i => ?_
    simp only [addEdges, Array.getElem?_modify]
    split
    · simp [Function.comp_def]
    · rfl

/-- Where all states are there, adding edges with a look at their ends adds all of them. -/
theorem foldlM_connect {calls : List (Nat × Edge)}
    (h : ∀ c ∈ calls, c.1 < states.size ∧ c.2.target < states.size) :
    calls.foldlM connect states =
      .ok (calls.foldl (fun states c => addEdges states c.1 [c.2]) states) := by
  induction calls generalizing states with
  | nil => rfl
  | cons c rest ih =>
    obtain ⟨hsource, htarget⟩ := h c List.mem_cons_self
    have hconnect : connect states c = .ok (addEdges states c.1 [c.2]) := by
      rw [connect, if_pos hsource, if_pos htarget]
    rw [List.foldlM_cons, hconnect, List.foldl_cons]
    refine ih fun d hd => ?_
    rw [size_addEdges]
    exact h d (List.mem_cons_of_mem c hd)

namespace Assembly

/-- The arena in which a token adds its edges. -/
def room (a : Assembly) (t : Token) : Array State := if t.allocates then grow a.states else a.states

/-- The edges that a token adds, in their order, each with the state that it leaves. -/
def calls (a : Assembly) : Token → List (Nat × Edge)
  | .op o => (linksOf (fresh a.states) o a.stack).map fun l => (l.1, .epsilon l.2)
  | t => (t.operandBytes.getD []).map fun byte =>
    ((fresh a.states).start, .byte byte (fresh a.states).accept)

/-- A token that allocates has the room of two more states. -/
theorem room_of_allocates (a : Assembly) (h : t.allocates = true) : a.room t = grow a.states := by
  rw [room, if_pos h]

/-- The edges of an operand are those of its bytes. -/
theorem calls_operand {bytes : List UInt8} (a : Assembly) (h : t.operandBytes = some bytes) :
    a.calls t = bytes.map fun byte =>
      ((fresh a.states).start, .byte byte (fresh a.states).accept) := by
  cases t with
  | op o => cases h
  | _ => simp only [calls, h, Option.getD_some]

/-- What a token does to the arena is to allocate room and to add its edges there. -/
theorem Step.states_eq (h : Step a t b) :
    b.states = (a.calls t).foldl (fun states c => addEdges states c.1 [c.2]) (a.room t) := by
  cases h with
  | @paren _ t ht =>
    cases t with
    | lparen => rfl
    | rparen => rfl
    | _ => cases ht
  | @operand states stack t bytes ht =>
    rw [room_of_allocates _ (Token.allocates_operand ht), calls_operand _ ht, List.foldl_map,
      wireBytes, addEdges_eq_foldl, List.foldl_map]
  | concat => rfl
  | alt =>
    rw [room_of_allocates _ rfl, calls, linksOf, List.foldl_map]
    simp only [linkAll, link]
  | @loop states x rest o ho =>
    rw [room_of_allocates _ (Token.allocates_unary ho), calls, linksOf_unary ho, List.foldl_map]
    rfl

/-- Every edge that a token adds leads from a state that is there to a state that is there. -/
theorem calls_lt (ha : a.Denotes Ls) (t : Token) :
    ∀ c ∈ a.calls t, c.1 < (a.room t).size ∧ c.2.target < (a.room t).size := by
  have hnew : t.allocates = true → (fresh a.states).start < (a.room t).size ∧
      (fresh a.states).accept < (a.room t).size := by
    intro h
    rw [room_of_allocates a h, size_grow, fresh_start, fresh_accept]
    omega
  have hold : a.states.size ≤ (a.room t).size := by
    cases h : t.allocates with
    | true =>
      rw [room_of_allocates a h, size_grow]
      omega
    | false => rw [room, h, if_neg Bool.false_ne_true]
  intro c hc
  cases t with
  | op o =>
    obtain ⟨l, hl, rfl⟩ := List.mem_map.mp hc
    refine linksOf_lt (fun f hf => ?_) (fun ho => hnew (decide_eq_true ho)) l hl
    obtain ⟨hstart, haccept, -⟩ := ha.mem hf
    exact ⟨Nat.lt_of_lt_of_le hstart hold, Nat.lt_of_lt_of_le haccept hold⟩
  | lparen => cases hc
  | rparen => cases hc
  | _ =>
    rw [calls_operand a rfl] at hc
    obtain ⟨byte, -, rfl⟩ := List.mem_map.mp hc
    exact hnew rfl

/-- What holds of an assembly at any moment of a construction under the limit. -/
structure Divided (limit : Option Nat) (a : Assembly) : Prop where
  /-- The fragments divide the states among themselves. -/
  cut : ∃ cut, a.CutBy cut
  /-- No state is marked. -/
  unmarked : ∀ (id : Nat) (s : State), a.states[id]? = some s → s.accepting = false
  /-- The next token adds its edges one by one, and each of them between states that are there. -/
  connects : ∀ t b, a.push limit t = .ok b → (a.calls t).foldlM connect (a.room t) = .ok b.states
  /-- What the end of the construction takes as start and accept state is there. -/
  ends : ∀ n, a.finish = .ok n → n.start < a.states.size ∧ n.accept < a.states.size

end Assembly

/-- The operand stack divides the arena. After every token of every stream, however the stream goes
on and under whatever limit, the states are cut into consecutive intervals, one for each fragment
from the bottom of the stack up: a fragment is entered within its interval and left by the last
state of it, which has no edge, and no edge leads out of the interval or to the fragment's start.
No state is marked. So neither the next token nor the end of the construction ever addresses a
state that is not there. -/
theorem stack_divides_arena (limit : Option Nat) (ts : List Token) (a : Assembly)
    (h : Assembly.empty.pushAll limit ts = .ok a) : a.Divided limit := by
  have ha : a.Shaped := Assembly.pushAll_induction (P := Assembly.Shaped) Assembly.shaped_empty
    (fun t _ a b hpush ha => ha.push hpush) h
  obtain ⟨Ls, hdenotes⟩ := ha.tiled
  refine ⟨?_, fun id s hs => ?_, fun t b hpush => ?_, fun n hn => ?_⟩
  · obtain ⟨cut, hfirst, hlast, hblocks⟩ := hdenotes.exists_cuts
    exact ⟨cut, hfirst, hlast, hblocks⟩
  · have hmark := ha.unmarked id
    rwa [markOf, hs] at hmark
  · rw [foldlM_connect (Assembly.calls_lt hdenotes t), ← (Assembly.step_of_push hpush).states_eq]
  · obtain ⟨states, f, rfl, rfl⟩ := Assembly.exists_of_finish hn
    obtain ⟨hstart, haccept, -⟩ := hdenotes.mem List.mem_cons_self
    exact ⟨hstart, haccept⟩

/-- A loop around a choice, and behind it a byte that is still to be joined to it. -/
def loopBesideByte : List Token :=
  [.literal 0x61, .literal 0x62, .op .alt, .op .star, .literal 0x63]

/-- With just enough room, two fragments divide the ten states among themselves. -/
theorem loopBesideByte_divides : ∃ a,
    Assembly.empty.pushAll (some 10) loopBesideByte = .ok a ∧ a.Divided (some 10) := by
  have hok : (Assembly.empty.pushAll (some 10) loopBesideByte).isOk = true := by decide
  cases h : Assembly.empty.pushAll (some 10) loopBesideByte with
  | error e =>
    rw [h] at hok
    cases hok
  | ok a => exact ⟨a, rfl, stack_divides_arena (some 10) loopBesideByte a h⟩

end ByteRegex.Thompson
