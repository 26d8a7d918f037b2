import ByteRegex.Nfa.Closure
import ByteRegex.Proofs.Path

/-!
# What an exploration and a step compute

An exploration of an automaton whose edges stay inside it always ends with a set, and the
set holds exactly the states that silent edges reach from the given ones. A step finds
exactly the targets of the edges that carry its byte. Neither result depends on the order
in which the ids of a set are visited.
-/

namespace ByteRegex

/-- The silent targets of a state are the targets of its silent edges. -/
theorem State.mem_targetsOn_none (s : State) (t : Nat) :
    t ∈ s.targetsOn none ↔ Edge.epsilon t ∈ s.edges := by
  rw [targetsOn, List.mem_filterMap]
  constructor
  · rintro ⟨e, he, ht⟩
    cases e with
    | byte b target => cases ht
    | epsilon target =>
      obtain rfl := Option.some.inj ht
      exact he
  · intro he
    exact ⟨.epsilon t, he, rfl⟩

/-- The targets of a state on a byte are the targets of its edges with that byte. -/
theorem State.mem_targetsOn_some (s : State) (b : UInt8) (t : Nat) :
    t ∈ s.targetsOn (some b) ↔ Edge.byte b t ∈ s.edges := by
  rw [targetsOn, List.mem_filterMap]
  constructor
  · rintro ⟨e, he, ht⟩
    cases e with
    | byte x target =>
      simp only [Edge.targetOn, Edge.label, Edge.target, Option.ite_none_right_eq_some,
        Option.some.injEq] at ht
      obtain ⟨rfl, rfl⟩ := ht
      exact he
    | epsilon target => cases ht
  · intro he
    refine ⟨.byte b t, he, ?_⟩
    simp only [Edge.targetOn, Edge.label, Edge.target, if_true]

/-- A set into which one id was put holds that id alone. -/
theorem StateSet.mem_single {id x : Nat} : x ∈ (∅ : StateSet).insert id ↔ x = id := by
  rw [Std.TreeSet.mem_insert, Std.compare_eq_iff_eq]
  simp only [Std.TreeSet.not_mem_emptyc, or_false]
  exact eq_comm

/-- An order in which every member of a set is visited once and nothing else is. -/
def StateSet.VisitOrder (s : StateSet) (ids : List Nat) : Prop := ids.Perm s.toList

/-- A visiting order has the ids of the set as its members. -/
theorem StateSet.VisitOrder.mem_iff {s : StateSet} {ids : List Nat} (h : s.VisitOrder ids)
    (id : Nat) : id ∈ ids ↔ id ∈ s := by
  rw [List.Perm.mem_iff h, Std.TreeSet.mem_toList]

/-- A visiting order has no id twice. -/
theorem StateSet.VisitOrder.nodup {s : StateSet} {ids : List Nat} (h : s.VisitOrder ids) :
    ids.Nodup := by
  refine (List.Perm.nodup_iff h).mpr (s.distinct_toList.imp fun hne heq => hne ?_)
  rw [heq, Std.compare_self]

namespace Exploration

/-- Reaching an id adds that id to the reached ones. -/
theorem mem_reached_reach (e : Exploration) (id x : Nat) :
    x ∈ (e.reach id).reached ↔ x ∈ e.reached ∨ x = id := by
  unfold reach
  split
  · rename_i hin
    constructor
    · exact Or.inl
    · rintro (hx | rfl)
      · exact hx
      · exact Std.TreeSet.contains_iff_mem.mp hin
  · rw [Std.TreeSet.mem_insert, Std.compare_eq_iff_eq, or_comm]
    exact or_congr_right eq_comm

/-- Reaching an id makes it pending if it is new. -/
theorem mem_pending_reach (e : Exploration) (id x : Nat) :
    x ∈ (e.reach id).pending ↔ x ∈ e.pending ∨ x = id ∧ x ∉ e.reached := by
  unfold reach
  split
  · rename_i hin
    have hid : id ∈ e.reached := Std.TreeSet.contains_iff_mem.mp hin
    constructor
    · exact Or.inl
    · rintro (hx | ⟨rfl, hnew⟩)
      · exact hx
      · exact absurd hid hnew
  · rename_i hnew
    have hid : id ∉ e.reached := fun h => hnew (Std.TreeSet.contains_iff_mem.mpr h)
    rw [List.mem_cons]
    constructor
    · rintro (rfl | hx)
      · exact Or.inr ⟨rfl, hid⟩
      · exact Or.inl hx
    · rintro (hx | ⟨rfl, -⟩)
      · exact Or.inr hx
      · exact Or.inl rfl

/-- Reaching the ids of a list adds exactly them to the reached ones. -/
theorem mem_reached_reachAll (e : Exploration) (ids : List Nat) (x : Nat) :
    x ∈ (e.reachAll ids).reached ↔ x ∈ e.reached ∨ x ∈ ids := by
  induction ids generalizing e with
  | nil => simp [reachAll]
  | cons id rest ih =>
    have h := ih (e.reach id)
    rw [mem_reached_reach] at h
    rw [reachAll, List.foldl_cons, List.mem_cons, ← or_assoc]
    exact h

/-- Reaching the ids of a list makes exactly the new ones pending. -/
theorem mem_pending_reachAll (e : Exploration) (ids : List Nat) (x : Nat) :
    x ∈ (e.reachAll ids).pending ↔ x ∈ e.pending ∨ x ∈ ids ∧ x ∉ e.reached := by
  induction ids generalizing e with
  | nil => simp [reachAll]
  | cons id rest ih =>
    have h := ih (e.reach id)
    rw [mem_pending_reach, mem_reached_reach] at h
    rw [reachAll, List.foldl_cons]
    refine h.trans ?_
    rw [List.mem_cons]
    by_cases hx : x = id
    · simp [hx]
    · simp [hx]

/-- What holds at every moment of an exploration: pending ids are reached, reached ids are
states, and a reached state that is not pending has all its silent targets reached. -/
structure Sound (n : Nfa) (e : Exploration) : Prop where
  /-- Nothing is pending that was not reached. -/
  pending_reached : ∀ id ∈ e.pending, id ∈ e.reached
  /-- Only states are reached. -/
  in_range : ∀ id ∈ e.reached, id < n.size
  /-- The silent edges of a state that is no longer pending have been followed. -/
  followed : ∀ id ∈ e.reached, id ∉ e.pending →
    ∀ t, Edge.epsilon t ∈ edgesFrom n.states id → t ∈ e.reached

/-- An exploration that begins with the ids of a set in any order is sound. -/
theorem Sound.begin {n : Nfa} {s : StateSet} {ids : List Nat} (hids : s.VisitOrder ids)
    (hs : ∀ id ∈ s, id < n.size) : Sound n ⟨s, ids⟩ where
  pending_reached id hid := (hids.mem_iff id).mp hid
  in_range := hs
  followed id hid hdone := absurd ((hids.mem_iff id).mpr hid) hdone

end Exploration

namespace Nfa

/-- Every target of an edge is a state. -/
def EdgesInside (n : Nfa) : Prop := ∀ s, ∀ e ∈ edgesFrom n.states s, e.target < n.size

/-- The start state, the accept state and every target of an edge are states. -/
structure InRange (n : Nfa) : Prop where
  /-- Runs start in a state. -/
  start_lt : n.start < n.size
  /-- Acceptance is decided by a state. -/
  accept_lt : n.accept < n.size
  /-- Edges lead to states. -/
  target_lt : ∀ s, ∀ e ∈ edgesFrom n.states s, e.target < n.size

variable {n : Nfa}

/-- Whether all edges stay inside is seen by a look at every state. -/
theorem inRange_iff : n.InRange ↔ n.start < n.size ∧ n.accept < n.size ∧
    ∀ s ∈ n.states.toList, ∀ e ∈ s.edges, e.target < n.size := by
  constructor
  · intro h
    refine ⟨h.start_lt, h.accept_lt, fun s hs e he => ?_⟩
    obtain ⟨id, hid⟩ := Array.getElem?_of_mem (Array.mem_toList_iff.mp hs)
    exact h.target_lt id e (by rwa [edgesFrom_eq hid])
  · rintro ⟨hstart, haccept, htarget⟩
    refine ⟨hstart, haccept, fun id e he => ?_⟩
    have hid := Array.getElem?_eq_getElem (lt_size_of_mem_edgesFrom he)
    rw [edgesFrom_eq hid] at he
    exact htarget _ (Array.mem_toList_iff.mpr (Array.mem_of_getElem? hid)) e he

/-- Whether all edges of an automaton stay inside it can be computed. -/
instance : Decidable n.InRange := decidable_of_iff _ inRange_iff.symm

/-- Following the edges of a pending state keeps an exploration sound. -/
theorem sound_follow (hn : n.EdgesInside) {reached : StateSet} {id : Nat} {pending : List Nat}
    {s : State} (hs : n.states[id]? = some s) (h : Exploration.Sound n ⟨reached, id :: pending⟩) :
    Exploration.Sound n (Exploration.reachAll ⟨reached, pending⟩ (s.targetsOn none)) where
  pending_reached x hx := by
    rw [Exploration.mem_pending_reachAll] at hx
    rw [Exploration.mem_reached_reachAll]
    rcases hx with hx | ⟨hx, -⟩
    · exact Or.inl (h.pending_reached x (List.mem_cons_of_mem _ hx))
    · exact Or.inr hx
  in_range x hx := by
    rw [Exploration.mem_reached_reachAll, State.mem_targetsOn_none, ← edgesFrom_eq hs] at hx
    rcases hx with hx | hx
    · exact h.in_range x hx
    · exact hn id _ hx
  followed x hx hdone t ht := by
    rw [Exploration.mem_reached_reachAll] at hx ⊢
    rw [Exploration.mem_pending_reachAll, not_or] at hdone
    obtain ⟨hwaits, hold⟩ := hdone
    by_cases hid : x = id
    · subst hid
      rw [edgesFrom_eq hs, ← State.mem_targetsOn_none] at ht
      exact Or.inr ht
    · have hreached : x ∈ reached := by
        rcases hx with hx | hx
        · exact hx
        · exact Classical.byContradiction fun hnew => hold ⟨hx, hnew⟩
      refine Or.inl (h.followed x hreached ?_ t ht)
      exact List.not_mem_cons_of_ne_of_not_mem hid hwaits

/-- A sound exploration ends with the states that silent edges reach from its reached ones. -/
theorem explore_eq_ok (hn : n.EdgesInside) (e : Exploration) (h : Exploration.Sound n e) :
    ∃ r, n.explore e = .ok r ∧ ∀ x, x ∈ r ↔ ∃ s ∈ e.reached, Silent n.states s x := by
  fun_induction explore n e with
  | case1 reached =>
    refine ⟨reached, rfl, fun x => ⟨fun hx => ⟨x, hx, .refl⟩, ?_⟩⟩
    have hclosed := fun s hs => h.followed s hs List.not_mem_nil
    rintro ⟨s, hs, hpath⟩
    induction hpath with
    | refl => exact hs
    | tail _ he ih => exact hclosed _ ih _ he
  | case2 reached id pending hstate =>
    have hlt := h.in_range id (h.pending_reached id List.mem_cons_self)
    rw [Array.getElem?_eq_none_iff] at hstate
    exact absurd hlt (Nat.not_lt.mpr hstate)
  | case3 reached id pending s hstate ih =>
    obtain ⟨r, hr, hmem⟩ := ih (sound_follow hn hstate h)
    refine ⟨r, hr, fun x => (hmem x).trans ?_⟩
    constructor
    · rintro ⟨y, hy, hpath⟩
      rw [Exploration.mem_reached_reachAll, State.mem_targetsOn_none, ← edgesFrom_eq hstate] at hy
      rcases hy with hy | hy
      · exact ⟨y, hy, hpath⟩
      · have hid := h.pending_reached id List.mem_cons_self
        exact ⟨id, hid, .head hy hpath⟩
    · rintro ⟨y, hy, hpath⟩
      refine ⟨y, ?_, hpath⟩
      rw [Exploration.mem_reached_reachAll]
      exact Or.inl hy

/-- A step from listed states finds the targets of their edges with the byte, and keeps
what was found before. -/
theorem stepFrom_eq_ok (b : UInt8) (found : StateSet) (ids : List Nat)
    (hids : ∀ id ∈ ids, id < n.size) :
    ∃ r, n.stepFrom b found ids = .ok r ∧
      ∀ x, x ∈ r ↔ x ∈ found ∨ ∃ s ∈ ids, Edge.byte b x ∈ edgesFrom n.states s := by
  induction ids generalizing found with
  | nil => exact ⟨found, rfl, fun x => by simp⟩
  | cons id rest ih =>
    have hlt : id < n.states.size := hids id List.mem_cons_self
    have hs : n.states[id]? = some n.states[id] := Array.getElem?_eq_getElem hlt
    have hstate : n.state id = .ok n.states[id] := (n.state_eq_ok_iff id _).mpr hs
    obtain ⟨r, hr, hmem⟩ := ih (found.insertMany (n.states[id].targetsOn (some b)))
      fun x hx => hids x (List.mem_cons_of_mem _ hx)
    refine ⟨r, ?_, fun x => (hmem x).trans ?_⟩
    · simp only [stepFrom, hstate, hr]
    · rw [Std.TreeSet.mem_insertMany_list, List.contains_iff_mem, State.mem_targetsOn_some,
        ← edgesFrom_eq hs, or_assoc]
      simp only [List.mem_cons, exists_eq_or_imp]

end Nfa

end ByteRegex
