import ByteRegex.Nfa
import Std.Data.TreeSet

/-!
# State sets and their closure under silent edges

A run is in several states at once, so it moves sets of ids. A step follows the edges of
one byte; the closure adds everything that silent edges reach. The closure is explored
with a list of states still to be followed: an id is put there only when it is reached
for the first time, which bounds the exploration on cyclic automata too.
-/

namespace ByteRegex

/-- A set of state ids, kept in ascending order. -/
abbrev StateSet := Std.TreeSet Nat

/-- A closure in progress. -/
structure Exploration where
  /-- The ids reached so far. -/
  reached : StateSet
  /-- The reached ids whose edges are still to be followed, next one first. -/
  pending : List Nat

namespace Exploration

/-- Nothing followed yet: exactly the given ids are reached. -/
def ofSet (s : StateSet) : Exploration := ⟨s, s.toList⟩

/-- Reach an id; only a new one is put on the list. -/
def reach (e : Exploration) (id : Nat) : Exploration :=
  if e.reached.contains id then e else ⟨e.reached.insert id, id :: e.pending⟩

/-- Reach every id of a list. -/
def reachAll (e : Exploration) (ids : List Nat) : Exploration := ids.foldl reach e

/-- How many entries of a list of ids are outside a set, counted with repetition. -/
def outside (s : StateSet) (ids : List Nat) : Nat := ids.countP fun id => !s.contains id

/-- A larger set leaves no more entries outside. -/
theorem outside_insert_le (s : StateSet) (id : Nat) (ids : List Nat) :
    outside (s.insert id) ids ≤ outside s ids := by
  refine List.countP_mono_left fun x _ hx => ?_
  rw [Std.TreeSet.contains_insert, Bool.not_or, Bool.and_eq_true] at hx
  exact hx.2

/-- A new id of the list is one entry less outside. -/
theorem outside_insert_lt (s : StateSet) {id : Nat} {ids : List Nat}
    (hmem : id ∈ ids) (hnew : s.contains id = false) :
    outside (s.insert id) ids < outside s ids := by
  induction ids with
  | nil => cases hmem
  | cons x rest ih =>
    rw [outside, outside, List.countP_cons, List.countP_cons]
    rcases List.mem_cons.mp hmem with heq | hrest
    · subst heq
      have hle := outside_insert_le s id rest
      have hin : (s.insert id).contains id = true := Std.TreeSet.contains_insert_self
      rw [hin, hnew]
      exact Nat.lt_succ_of_le hle
    · have hlt := ih hrest
      refine Nat.add_lt_add_of_lt_of_le hlt ?_
      rw [Std.TreeSet.contains_insert]
      cases s.contains x <;> cases compare id x == Ordering.eq <;> decide

/-- Reaching ids of a list never adds to the work that is left: an entry outside the
reached set is exchanged for a pending id. -/
theorem outside_reachAll (e : Exploration) {ids targets : List Nat}
    (hsub : ∀ id ∈ targets, id ∈ ids) :
    outside (e.reachAll targets).reached ids + (e.reachAll targets).pending.length ≤
      outside e.reached ids + e.pending.length := by
  induction targets generalizing e with
  | nil => exact Nat.le_refl _
  | cons id rest ih =>
    have hrest := ih (e.reach id) fun x hx => hsub x (List.mem_cons_of_mem _ hx)
    refine Nat.le_trans hrest ?_
    unfold reach
    split
    · exact Nat.le_refl _
    · rename_i hnew
      have h := outside_insert_lt e.reached (hsub id List.mem_cons_self)
        (Bool.eq_false_iff.mpr hnew)
      change outside (e.reached.insert id) ids + (e.pending.length + 1) ≤ _
      omega

end Exploration

namespace Nfa

/-- The targets of all silent edges of the automaton. -/
def silentTargets (n : Nfa) : List Nat := n.states.toList.flatMap (·.targetsOn none)

/-- The silent edges of a state of the automaton lead to silent targets of it. -/
theorem mem_silentTargets {n : Nfa} {id target : Nat} {s : State}
    (hstate : n.states[id]? = some s) (htarget : target ∈ s.targetsOn none) :
    target ∈ n.silentTargets := by
  refine List.mem_flatMap.mpr ⟨s, ?_, htarget⟩
  exact Array.mem_toList_iff.mpr (Array.mem_of_getElem? hstate)

/-- Follow the pending ids until none is left. -/
def explore (n : Nfa) (e : Exploration) : Except OutOfRange StateSet :=
  match e with
  | ⟨reached, []⟩ => .ok reached
  | ⟨reached, id :: pending⟩ =>
    match _hstate : n.states[id]? with
    | none => .error ⟨n.size, id⟩
    | some s => n.explore (Exploration.reachAll ⟨reached, pending⟩ (s.targetsOn none))
termination_by Exploration.outside e.reached n.silentTargets + e.pending.length
decreasing_by
  have hle := Exploration.outside_reachAll ⟨reached, pending⟩ fun _ ht => mem_silentTargets _hstate ht
  simp only [List.length_cons] at hle ⊢
  omega

/-- The states reached from the set by silent edges, the set included. -/
def epsilonClosure (n : Nfa) (s : StateSet) : Except OutOfRange StateSet :=
  n.explore (Exploration.ofSet s)

/-- Add the targets on a byte of every listed state to a set. -/
def stepFrom (n : Nfa) (b : UInt8) (found : StateSet) :
    List Nat → Except OutOfRange StateSet
  | [] => .ok found
  | id :: rest =>
    match n.state id with
    | .error e => .error e
    | .ok s => n.stepFrom b (found.insertMany (s.targetsOn (some b))) rest

/-- The states reached from the set by reading the byte, before silent edges. -/
def step (n : Nfa) (s : StateSet) (b : UInt8) : Except OutOfRange StateSet :=
  n.stepFrom b ∅ s.toList

/-- Whether the set holds the accept state. -/
def isAccepting (n : Nfa) (s : StateSet) : Bool := s.contains n.accept

end Nfa

end ByteRegex
