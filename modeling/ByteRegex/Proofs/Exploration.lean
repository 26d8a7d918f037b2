import ByteRegex.Proofs.Simulation
import Mathlib.Order.Bounds.Basic

/-!
# What an exploration puts on its list

An exploration ends with the given states and those it put on its list, and puts none there
twice. From a set of states it ends with the least set that holds them and that no silent
edge leaves. From a set with an id that is no state it fails, since no pending id is ever
forgotten. All of this holds for every order in which the set is visited.
-/

namespace ByteRegex

namespace Exploration

variable {n : Nfa} {e : Exploration} {pushed : List Nat} {closed : StateSet}

/-- The ids that reaching a list of ids puts on the list of pending ones, latest first, are
the new ones, each once. -/
theorem exists_pending_reachAll (e : Exploration) (ids : List Nat) :
    ∃ pushed, (e.reachAll ids).pending = pushed ++ e.pending ∧ pushed.Nodup ∧
      ∀ x, x ∈ pushed ↔ x ∈ ids ∧ x ∉ e.reached := by
  induction ids generalizing e with
  | nil => exact ⟨[], rfl, List.nodup_nil, by simp⟩
  | cons id rest ih =>
    obtain ⟨pushed, hpending, hnodup, hmem⟩ := ih (e.reach id)
    simp only [mem_reached_reach, not_or] at hmem
    rw [reachAll, List.foldl_cons]
    by_cases hin : id ∈ e.reached
    · have hsame : e.reach id = e := if_pos (Std.TreeSet.contains_iff_mem.mpr hin)
      refine ⟨pushed, hpending.trans (by rw [hsame]), hnodup, fun x => ?_⟩
      rw [hmem, List.mem_cons]
      grind
    · have hadd : e.reach id = ⟨e.reached.insert id, id :: e.pending⟩ :=
        if_neg (mt Std.TreeSet.contains_iff_mem.mp hin)
      refine ⟨pushed ++ [id], hpending.trans (by rw [hadd, List.append_assoc]; rfl), ?_,
        fun x => ?_⟩
      · refine List.nodup_append.mpr ⟨hnodup, List.pairwise_singleton _ id, fun x hx y hy => ?_⟩
        rw [List.mem_singleton] at hy
        exact hy ▸ ((hmem x).mp hx).2.2
      · rw [List.mem_append, hmem, List.mem_singleton, List.mem_cons]
        grind

/-- An exploration ends with a set after putting some ids on its list, latest first. -/
inductive Pushes (n : Nfa) : Exploration → List Nat → StateSet → Prop
  /-- Nothing is pending: the reached ids are the result. -/
  | done (reached : StateSet) : Pushes n ⟨reached, []⟩ [] reached
  /-- The edges of a pending state are followed, which puts ids in front of the others. -/
  | follow {reached closed : StateSet} {id : Nat} {pending pushed later : List Nat} {s : State} :
      n.states[id]? = some s →
      (reachAll ⟨reached, pending⟩ (s.targetsOn none)).pending = pushed ++ pending →
      Pushes n (reachAll ⟨reached, pending⟩ (s.targetsOn none)) later closed →
        Pushes n ⟨reached, id :: pending⟩ (later ++ pushed) closed

/-- What was put on the list was new, was put there once, and is what the result has more. -/
theorem Pushes.nodup_and_mem_iff (h : Pushes n e pushed closed) :
    pushed.Nodup ∧ (∀ x ∈ pushed, x ∉ e.reached) ∧
      ∀ x, x ∈ closed ↔ x ∈ e.reached ∨ x ∈ pushed := by
  induction h with
  | done reached => exact ⟨List.nodup_nil, by simp, by simp⟩
  | @follow reached closed id pending pushed later s _ hpending _ ih =>
    obtain ⟨hnodup, hnew, hmem⟩ := ih
    obtain ⟨targets, htargets, htnodup, htmem⟩ :=
      exists_pending_reachAll ⟨reached, pending⟩ (s.targetsOn none)
    obtain rfl := List.append_cancel_right (htargets.symm.trans hpending)
    simp only [mem_reached_reachAll, not_or] at hnew hmem
    have hseparate : ∀ x ∈ later, ∀ y ∈ targets, x ≠ y := by
      rintro x hlater y htarget rfl
      exact (hnew x hlater).2 ((htmem x).mp htarget).1
    refine ⟨List.nodup_append.mpr ⟨hnodup, htnodup, hseparate⟩, ?_, fun x => ?_⟩
    · intro x hx
      rcases List.mem_append.mp hx with hlater | htarget
      · exact (hnew x hlater).1
      · exact ((htmem x).mp htarget).2
    · rw [hmem, List.mem_append, htmem]
      grind

end Exploration

namespace Nfa

variable {n : Nfa}

/-- An exploration ends with a set exactly if it has a record of what it put on its list. -/
theorem explore_eq_ok_iff {e : Exploration} {closed : StateSet} :
    n.explore e = .ok closed ↔ ∃ pushed, Exploration.Pushes n e pushed closed := by
  constructor
  · intro h
    fun_induction explore n e with
    | case1 reached =>
      obtain rfl := Except.ok.inj h
      exact ⟨[], .done reached⟩
    | case2 reached id pending hstate => cases h
    | case3 reached id pending s hstate ih =>
      obtain ⟨later, hlater⟩ := ih h
      obtain ⟨pushed, hpending, -⟩ :=
        Exploration.exists_pending_reachAll ⟨reached, pending⟩ (s.targetsOn none)
      exact ⟨later ++ pushed, .follow hstate hpending hlater⟩
  · rintro ⟨pushed, h⟩
    induction h with
    | done reached => rw [explore]
    | follow hstate _ _ ih =>
      rw [explore]
      split
      · rename_i hnone
        cases hstate.symm.trans hnone
      · rename_i hsome
        obtain rfl := Option.some.inj (hstate.symm.trans hsome)
        exact ih

/-- A pending id that is no state makes an exploration fail: following the edges of another
state leaves it pending. If edges lead to states only, the id that fails was pending. -/
theorem explore_eq_error (e : Exploration) (hout : ∃ id ∈ e.pending, n.size ≤ id) :
    ∃ id, n.size ≤ id ∧ n.explore e = .error ⟨n.size, id⟩ ∧
      (n.EdgesInside → id ∈ e.pending) := by
  fun_induction explore n e with
  | case1 reached => exact absurd hout (by simp)
  | case2 reached id pending hstate =>
    exact ⟨id, Array.getElem?_eq_none_iff.mp hstate, rfl, fun _ => List.mem_cons_self⟩
  | case3 reached id pending s hstate ih =>
    have hid : id < n.size := (Array.getElem?_eq_some_iff.mp hstate).1
    obtain ⟨x, hx, hxout⟩ := hout
    have hwaits : x ∈ pending := by
      rcases List.mem_cons.mp hx with rfl | hx
      · exact absurd hid (Nat.not_lt.mpr hxout)
      · exact hx
    obtain ⟨y, hyout, herror, hy⟩ :=
      ih ⟨x, (Exploration.mem_pending_reachAll _ _ x).mpr (Or.inl hwaits), hxout⟩
    refine ⟨y, hyout, herror, fun hn => ?_⟩
    rcases (Exploration.mem_pending_reachAll _ _ y).mp (hy hn) with hy | ⟨hy, -⟩
    · exact List.mem_cons_of_mem _ hy
    · rw [State.mem_targetsOn_none, ← edgesFrom_eq hstate] at hy
      exact absurd (hn id _ hy) (Nat.not_lt.mpr hyout)

/-- No silent edge leaves the set of ids. -/
def SilentClosed (n : Nfa) (C : Set Nat) : Prop :=
  ∀ x ∈ C, ∀ t, Edge.epsilon t ∈ edgesFrom n.states x → t ∈ C

/-- What silent edges reach from a set is the least set with these members that no silent
edge leaves. -/
theorem isLeast_silent (n : Nfa) (s : StateSet) :
    IsLeast {C : Set Nat | (∀ x ∈ s, x ∈ C) ∧ n.SilentClosed C}
      {x | ∃ y ∈ s, Silent n.states y x} := by
  refine ⟨⟨fun x hx => ⟨x, hx, .refl⟩, ?_⟩, ?_⟩
  · rintro x ⟨y, hy, hpath⟩ t ht
    exact ⟨y, hy, hpath.tail ht⟩
  · rintro C ⟨hsub, hclosed⟩ x ⟨y, hy, hpath⟩
    induction hpath with
    | refl => exact hsub y hy
    | tail _ he ih => exact hclosed _ ih _ he

/-- On every automaton whose edges stay inside it, cyclic or not, the closure of a set of
states is found, it holds exactly what silent edges reach from the set, and it is the least
set that has its members and that no silent edge leaves. Every order of visiting the set
leads to these members, and none puts a state on the list of pending ones twice, the states
it begins with included. On any automaton at all, the closure of a set with an id that is no
state fails, in every order, and if edges stay inside it fails on an id of the set. -/
theorem epsilonClosure_exact (n : Nfa) (s : StateSet) :
    (n.EdgesInside → (∀ id ∈ s, id < n.size) →
      ∃ closed, n.epsilonClosure s = .ok closed ∧
        (∀ x, x ∈ closed ↔ ∃ y ∈ s, Silent n.states y x) ∧
        IsLeast {C : Set Nat | (∀ x ∈ s, x ∈ C) ∧ n.SilentClosed C} {x | x ∈ closed} ∧
        ∀ ids, s.VisitOrder ids → ∃ r pushed, n.explore ⟨s, ids⟩ = .ok r ∧
          (∀ x, x ∈ r ↔ x ∈ closed) ∧ Exploration.Pushes n ⟨s, ids⟩ pushed r ∧
          (pushed ++ ids).Nodup) ∧
    ((∃ id ∈ s, n.size ≤ id) →
      (∃ id, n.size ≤ id ∧ n.epsilonClosure s = .error ⟨n.size, id⟩) ∧
        ∀ ids, s.VisitOrder ids → ∃ id, n.size ≤ id ∧
          n.explore ⟨s, ids⟩ = .error ⟨n.size, id⟩ ∧ (n.EdgesInside → id ∈ s)) := by
  have horder : s.VisitOrder s.toList := List.Perm.refl _
  constructor
  · intro hn hs
    obtain ⟨closed, hclosed, hmem⟩ := explore_eq_ok hn _ (.begin horder hs)
    have hleast := isLeast_silent n s
    rw [← Set.ext hmem] at hleast
    refine ⟨closed, hclosed, hmem, hleast, fun ids hids => ?_⟩
    obtain ⟨r, hr, hrmem⟩ := explore_eq_ok hn _ (.begin hids hs)
    obtain ⟨pushed, hpushes⟩ := explore_eq_ok_iff.mp hr
    obtain ⟨hnodup, hnew, -⟩ := hpushes.nodup_and_mem_iff
    refine ⟨r, pushed, hr, fun x => (hrmem x).trans (hmem x).symm, hpushes, ?_⟩
    refine List.nodup_append.mpr ⟨hnodup, hids.nodup, fun x hx y hy heq => ?_⟩
    exact hnew x hx ((hids.mem_iff x).mp (heq ▸ hy))
  · rintro ⟨id, hid, hout⟩
    have hfails : ∀ ids, s.VisitOrder ids → ∃ id, n.size ≤ id ∧
        n.explore ⟨s, ids⟩ = .error ⟨n.size, id⟩ ∧ (n.EdgesInside → id ∈ s) := by
      intro ids hids
      obtain ⟨x, hxout, herror, hx⟩ :=
        explore_eq_error ⟨s, ids⟩ ⟨id, (hids.mem_iff id).mpr hid, hout⟩
      exact ⟨x, hxout, herror, fun hn => (hids.mem_iff x).mp (hx hn)⟩
    obtain ⟨x, hxout, herror, -⟩ := hfails _ horder
    exact ⟨⟨x, hxout, herror⟩, hfails⟩

/-- On a ring of silent edges the closure of either state holds both, and the closure of an
id behind them fails. -/
theorem silentRing_closure : silentRing.EdgesInside ∧
    (∃ closed, silentRing.epsilonClosure ((∅ : StateSet).insert 1) = .ok closed ∧
      0 ∈ closed ∧ 1 ∈ closed) ∧
    ∃ id, silentRing.epsilonClosure ((∅ : StateSet).insert 2) = .error ⟨2, id⟩ := by
  have hinside : silentRing.EdgesInside := (by decide : silentRing.InRange).target_lt
  obtain ⟨closed, hclosed, hreach, -⟩ :=
    (epsilonClosure_exact silentRing ((∅ : StateSet).insert 1)).1 hinside
      fun id hid => StateSet.mem_single.mp hid ▸ by decide
  obtain ⟨⟨id, -, herror⟩, -⟩ := (epsilonClosure_exact silentRing ((∅ : StateSet).insert 2)).2
    ⟨2, StateSet.mem_single.mpr rfl, by decide⟩
  have hback : Edge.epsilon 0 ∈ edgesFrom silentRing.states 1 := by decide
  have hone : 1 ∈ (∅ : StateSet).insert 1 := StateSet.mem_single.mpr rfl
  refine ⟨hinside, ⟨closed, hclosed, ?_, ?_⟩, id, herror⟩
  · exact (hreach 0).mpr ⟨1, hone, .single hback⟩
  · exact (hreach 1).mpr ⟨1, hone, .refl⟩

end Nfa

end ByteRegex
