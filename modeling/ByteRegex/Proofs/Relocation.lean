import ByteRegex.Proofs.Step

/-!
# A complete expression is built in the same way everywhere

A construction refers to states by the ids that it was given, which begin where the arena ended,
and takes from the stack only what it has put there itself. So a stream that makes one expression
by itself makes the same expression behind any other construction: its states stand behind those
that are there, with all ids moved up by their number, its fragment stands on top of the stack,
and nothing else changes.
-/

namespace ByteRegex

/-- The edge with its target moved up. -/
def Edge.shift (m : Nat) : Edge → Edge
  | byte b target => byte b (target + m)
  | epsilon target => epsilon (target + m)

/-- The state with the targets of its edges moved up, and without the mark. -/
def State.relocate (m : Nat) (s : State) : State := ⟨s.edges.map (Edge.shift m), false⟩

namespace Thompson

variable {base states : Array State} {a b : Assembly} {t : Token} {ts : List Token} {n : Nfa}

/-- The fragment with its ids moved up. -/
def Fragment.shift (m : Nat) (f : Fragment) : Fragment := ⟨f.start + m, f.accept + m⟩

/-- The states of a construction behind those of an arena. -/
def place (base states : Array State) : Array State :=
  base ++ states.map (State.relocate base.size)

/-- A placed arena has the states of both. -/
theorem size_place (base states : Array State) :
    (place base states).size = states.size + base.size := by
  rw [place, Array.size_append, Array.size_map, Nat.add_comm]

/-- New states stand behind the placed ones. -/
theorem place_grow (base states : Array State) :
    place base (grow states) = grow (place base states) := by
  rw [place, grow, Array.map_push, Array.map_push, Array.append_push, Array.append_push]
  rfl

/-- The next fragment of a placed arena is that of the construction, moved up. -/
theorem fresh_place (base states : Array State) :
    fresh (place base states) = (fresh states).shift base.size := by
  rw [fresh, size_place, fresh, Fragment.shift, Nat.add_right_comm]

/-- A change of a state is the change of the relocated state that agrees with it. -/
theorem map_modify {m : Nat} {f g : State → State}
    (hfg : ∀ s, State.relocate m (f s) = g (State.relocate m s)) (states : Array State) (id : Nat) :
    (states.modify id f).map (State.relocate m) =
      (states.map (State.relocate m)).modify id g := by
  refine Array.ext_getElem? fun i => ?_
  rw [Array.getElem?_map, Array.getElem?_modify, Array.getElem?_modify, Array.getElem?_map]
  by_cases hid : id = i
  · rw [if_pos hid, if_pos hid]
    cases states[i]? with
    | none => rfl
    | some s => exact congrArg some (hfg s)
  · rw [if_neg hid, if_neg hid]

/-- A change behind an arena leaves the arena as it is. -/
theorem append_modify (base states : Array State) (id : Nat) (f : State → State) :
    base ++ states.modify id f = (base ++ states).modify (id + base.size) f := by
  refine Array.ext_getElem? fun i => ?_
  rw [Array.getElem?_modify, Array.getElem?_append, Array.getElem?_append, Array.getElem?_modify]
  by_cases hi : i < base.size
  · rw [if_pos hi, if_pos hi, if_neg (by omega)]
  · rw [if_neg hi, if_neg hi]
    by_cases hid : id = i - base.size
    · rw [if_pos hid, if_pos (by omega)]
    · rw [if_neg hid, if_neg (by omega)]

/-- Edges that are added to a state are added to the placed state, moved up. -/
theorem place_addEdges (base states : Array State) (id : Nat) (edges : List Edge) :
    place base (addEdges states id edges) =
      addEdges (place base states) (id + base.size) (edges.map (Edge.shift base.size)) := by
  have hmap := map_modify (m := base.size)
    (f := fun s => { s with edges := s.edges ++ edges })
    (g := fun s => { s with edges := s.edges ++ edges.map (Edge.shift base.size) })
    (fun s => by simp only [State.relocate, List.map_append]) states id
  have happend := append_modify base (states.map (State.relocate base.size)) id
    fun s => { s with edges := s.edges ++ edges.map (Edge.shift base.size) }
  rw [place, addEdges, hmap, happend]
  rfl

/-- The mark of a state is not placed. -/
theorem place_mark (base states : Array State) (id : Nat) :
    place base (states.modify id fun s => { s with accepting := true }) = place base states := by
  refine congrArg (base ++ ·) (Array.ext_getElem? fun i => ?_)
  rw [Array.getElem?_map, Array.getElem?_modify, Array.getElem?_map]
  by_cases hid : id = i
  · rw [if_pos hid]
    cases states[i]? <;> rfl
  · rw [if_neg hid]

/-- Links between states link the placed states. -/
theorem place_linkAll (base states : Array State) (links : List (Nat × Nat)) :
    place base (linkAll states links) =
      linkAll (place base states) (links.map fun l => (l.1 + base.size, l.2 + base.size)) := by
  induction links generalizing states with
  | nil => rfl
  | cons l rest ih =>
    have hlink : place base (link states l.1 l.2) =
        link (place base states) (l.1 + base.size) (l.2 + base.size) :=
      place_addEdges base states l.1 [.epsilon l.2]
    have hrest := ih (link states l.1 l.2)
    rw [hlink] at hrest
    exact hrest

/-- The bytes of an operand are read by the placed states. -/
theorem place_wireBytes (base states : Array State) (bytes : List UInt8) (f : Fragment) :
    place base (wireBytes bytes f states) =
      wireBytes bytes (f.shift base.size) (place base states) := by
  rw [wireBytes, place_addEdges, List.map_map]
  rfl

/-- The links of an alternation of fragments that are moved up. -/
theorem altLinks_shift (m : Nat) (x y f : Fragment) :
    (altLinks x y f).map (fun l => (l.1 + m, l.2 + m)) =
      altLinks (x.shift m) (y.shift m) (f.shift m) := rfl

/-- The links of a repetition of a fragment that is moved up. -/
theorem loopLinks_shift (m : Nat) (skip again : Bool) (x f : Fragment) :
    (loopLinks skip again x f).map (fun l => (l.1 + m, l.2 + m)) =
      loopLinks skip again (x.shift m) (f.shift m) := by
  cases skip <;> cases again <;> rfl

namespace Assembly

/-- A construction behind another one. -/
def above (base a : Assembly) : Assembly :=
  ⟨place base.states a.states, a.stack.map (Fragment.shift base.states.size) ++ base.stack⟩

/-- The construction with nothing behind it. -/
theorem above_empty (base : Assembly) : base.above empty = base := by
  have hnone : place base.states #[] = base.states := by
    rw [place, Array.map_empty, Array.append_empty]
  exact congrArg (Assembly.mk · base.stack) hnone

/-- A step is possible behind every construction, and there it does the same. -/
theorem Step.above (h : Step a t b) (base : Assembly) : Step (base.above a) t (base.above b) := by
  obtain ⟨arena, below⟩ := base
  cases h with
  | paren ht => exact .paren ht
  | @operand states stack t bytes ht =>
    have hplace := place_wireBytes arena (grow states) bytes (fresh states)
    rw [place_grow, ← fresh_place] at hplace
    simp only [Assembly.above, hplace, List.map_cons, ← fresh_place, List.cons_append]
    exact .operand ht
  | @concat states x y rest =>
    have hplace := place_linkAll arena states [(x.accept, y.start)]
    simp only [Assembly.above, hplace, List.map_cons, List.cons_append]
    exact .concat
  | @alt states x y rest =>
    have hplace := place_linkAll arena (grow states) (altLinks x y (fresh states))
    rw [altLinks_shift, place_grow, ← fresh_place] at hplace
    simp only [Assembly.above, hplace, List.map_cons, ← fresh_place, List.cons_append]
    exact .alt
  | @loop states x rest o ho =>
    have hplace := place_linkAll arena (grow states)
      (loopLinks o.skips o.repeats x (fresh states))
    rw [loopLinks_shift, place_grow, ← fresh_place] at hplace
    simp only [Assembly.above, hplace, List.map_cons, ← fresh_place, List.cons_append]
    exact .loop ho

/-- Without a limit every step succeeds. -/
theorem Step.push_eq_ok (h : Step a t b) : a.push none t = .ok b := by
  cases h with
  | @paren a t ht =>
    cases t with
    | lparen => rfl
    | rparen => rfl
    | _ => cases ht
  | @operand states stack t bytes ht =>
    cases t with
    | op o => cases ht
    | lparen => cases ht
    | rparen => cases ht
    | _ =>
      obtain rfl := Option.some.inj ht
      rfl
  | concat => rfl
  | @alt states x y rest =>
    rw [← wireAlt_eq]
    rfl
  | @loop states x rest o ho =>
    cases o with
    | star =>
      rw [Operator.skips, Operator.repeats, ← wireStar_eq]
      rfl
    | plus =>
      rw [Operator.skips, Operator.repeats, ← wirePlus_eq]
      rfl
    | question =>
      rw [Operator.skips, Operator.repeats, ← wireQuestion_eq]
      rfl
    | concat => cases ho
    | alt => cases ho

/-- A stream that succeeds is read behind every construction as it is by itself. -/
theorem pushAll_above (h : a.pushAll none ts = .ok b) (base : Assembly) :
    (base.above a).pushAll none ts = .ok (base.above b) := by
  induction ts generalizing a with
  | nil =>
    obtain rfl := Except.ok.inj h
    rfl
  | cons t rest ih =>
    obtain ⟨next, hpush, hrest⟩ := exists_of_pushAll_cons h
    have hnext := ((step_of_push hpush).above base).push_eq_ok
    rw [pushAll, hnext]
    exact ih hrest

end Assembly

/-- A stream that compiles by itself can be read behind every construction, whatever its states
and its fragments are. Nothing that is there changes, the states of the automaton come behind,
unmarked and with all targets moved up, and one fragment comes on top of the stack, from the start
of the automaton to its accept state. -/
theorem pushAll_of_compile (ts : List Token) (n : Nfa) (h : compile none ts = .ok n)
    (a : Assembly) : a.pushAll none ts =
      .ok ⟨a.states ++ n.states.map (State.relocate a.states.size),
        ⟨n.start + a.states.size, n.accept + a.states.size⟩ :: a.stack⟩ := by
  obtain ⟨made, hrun, hfinish⟩ := exists_of_compile h
  obtain ⟨states, f, rfl, rfl⟩ := Assembly.exists_of_finish hfinish
  have hplaced := Assembly.pushAll_above hrun a
  have hmark := place_mark a.states states f.accept
  rw [a.above_empty] at hplaced
  rw [hplaced, ← place, hmark]
  rfl

/-- A loop that is read behind a byte, which still waits on the stack. -/
theorem star_behind_literal : ∃ n a, compile none [.literal 0x61, .op .star] = .ok n ∧
    Assembly.empty.pushAll none [.literal 0x62] = .ok a ∧
      a.pushAll none [.literal 0x61, .op .star] =
        .ok ⟨a.states ++ n.states.map (State.relocate a.states.size),
          ⟨n.start + a.states.size, n.accept + a.states.size⟩ :: a.stack⟩ :=
  ⟨_, _, rfl, rfl, pushAll_of_compile [.literal 0x61, .op .star] _ rfl _⟩

end Thompson

end ByteRegex
