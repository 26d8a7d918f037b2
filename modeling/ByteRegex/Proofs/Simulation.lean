import ByteRegex.Nfa.Run
import ByteRegex.Proofs.Closure

/-!
# Runs decide path search

A run moves a set of states, path search looks for one path. The set that a run holds after
some bytes is exactly the set of states that paths spelling those bytes lead to, for every
automaton whose edges stay inside it. The invariant does not mention the order in which a
set is visited, nor whether an empty set ends the run, so neither can change a verdict.
-/

namespace ByteRegex.Nfa

variable {n : Nfa} {s closed active next : StateSet} {u w : List UInt8} {b : UInt8}

/-- The closure of a set, explored from its members in some order. -/
def Closes (n : Nfa) (s closed : StateSet) : Prop :=
  ∃ ids, s.VisitOrder ids ∧ n.explore ⟨s, ids⟩ = .ok closed

/-- One byte of a run, with both sets visited in some order. -/
def Advances (n : Nfa) (active : StateSet) (b : UInt8) (next : StateSet) : Prop :=
  ∃ ids found, active.VisitOrder ids ∧ n.stepFrom b ∅ ids = .ok found ∧ n.Closes found next

/-- A verdict of a run from a set of states. Sets are visited in some order, and a run may
end as soon as its set is empty or read on. -/
inductive Answers (n : Nfa) : StateSet → List UInt8 → Bool → Prop
  /-- At the end of the input the accept state decides. -/
  | done (active : StateSet) : Answers n active [] (n.isAccepting active)
  /-- An empty set may end the run, which then rejects. -/
  | stop {active : StateSet} (w : List UInt8) :
      active.isEmpty = true → Answers n active w false
  /-- A byte moves the set. -/
  | read {active next : StateSet} {b : UInt8} {w : List UInt8} {verdict : Bool} :
      n.Advances active b next → Answers n next w verdict → Answers n active (b :: w) verdict

/-- A verdict of a run on the whole input, whatever the visiting orders. -/
def MayAnswer (n : Nfa) (w : List UInt8) (verdict : Bool) : Prop :=
  ∃ active, n.Closes ((∅ : StateSet).insert n.start) active ∧ n.Answers active w verdict

/-- The states that a run on the given bytes leads to are those that paths lead to. -/
def ActiveAfter (n : Nfa) (u : List UInt8) (active : StateSet) : Prop :=
  ∀ s, s ∈ active ↔ Path n.states n.start u s

/-- Whatever the order, a closure holds exactly what silent edges reach. -/
theorem Closes.mem_iff (hn : n.InRange) (hs : ∀ id ∈ s, id < n.size) (h : n.Closes s closed)
    (x : Nat) : x ∈ closed ↔ ∃ y ∈ s, Silent n.states y x := by
  obtain ⟨ids, hids, hrun⟩ := h
  obtain ⟨r, hr, hmem⟩ := explore_eq_ok hn.target_lt _ (.begin hids hs)
  obtain rfl := Except.ok.inj (hrun.symm.trans hr)
  exact hmem x

/-- The closure of a set of states is always found. -/
theorem exists_epsilonClosure (hn : n.InRange) (hs : ∀ id ∈ s, id < n.size) :
    ∃ closed, n.epsilonClosure s = .ok closed ∧ n.Closes s closed := by
  have horder : s.VisitOrder s.toList := List.Perm.refl _
  obtain ⟨r, hr, -⟩ := explore_eq_ok hn.target_lt _ (.begin horder hs)
  exact ⟨r, hr, s.toList, horder, hr⟩

/-- What is found by a step from a set of states, visited in any order. -/
theorem stepFrom_visitOrder {ids : List Nat} (hids : active.VisitOrder ids)
    (hactive : ∀ id ∈ active, id < n.size) :
    ∃ found, n.stepFrom b ∅ ids = .ok found ∧
      ∀ x, x ∈ found ↔ ∃ y ∈ active, Edge.byte b x ∈ edgesFrom n.states y := by
  obtain ⟨found, hfound, hmem⟩ := stepFrom_eq_ok (n := n) b ∅ ids
    fun id hid => hactive id ((hids.mem_iff id).mp hid)
  refine ⟨found, hfound, fun x => (hmem x).trans ?_⟩
  simp only [hids.mem_iff, Std.TreeSet.not_mem_emptyc, false_or]

/-- Edges lead a step to states only. -/
theorem lt_size_of_found (hn : n.InRange) {found : StateSet}
    (hfound : ∀ x, x ∈ found ↔ ∃ y ∈ active, Edge.byte b x ∈ edgesFrom n.states y) :
    ∀ id ∈ found, id < n.size := by
  intro id hid
  obtain ⟨y, -, he⟩ := (hfound id).mp hid
  exact hn.target_lt y _ he

/-- Reading a byte is always possible. -/
theorem exists_advance (hn : n.InRange) (hactive : ∀ id ∈ active, id < n.size) (b : UInt8) :
    ∃ next, n.advance active b = .ok next ∧ n.Advances active b next := by
  have horder : active.VisitOrder active.toList := List.Perm.refl _
  obtain ⟨found, hfound, hmem⟩ := stepFrom_visitOrder (b := b) horder hactive
  obtain ⟨next, hnext, hcloses⟩ := exists_epsilonClosure hn (lt_size_of_found hn hmem)
  refine ⟨next, ?_, active.toList, found, horder, hfound, hcloses⟩
  rw [advance, step, hfound]
  exact hnext

/-- States that paths lead to are states. -/
theorem ActiveAfter.lt_size (hn : n.InRange) (h : n.ActiveAfter u active) :
    ∀ id ∈ active, id < n.size := by
  intro id hid
  have hpath := (h id).mp hid
  clear h hid
  have hstart := hn.start_lt
  generalize n.start = s at hpath hstart
  induction hpath with
  | nil s => exact hstart
  | step he _ ih => exact ih (hn.target_lt _ _ he)

/-- A run starts in a state. -/
theorem start_lt_size (hn : n.InRange) :
    ∀ id ∈ (∅ : StateSet).insert n.start, id < n.size :=
  fun _ hid => StateSet.mem_single.mp hid ▸ hn.start_lt

/-- The closure of the start state holds what is reached without reading. -/
theorem activeAfter_start (hn : n.InRange)
    (h : n.Closes ((∅ : StateSet).insert n.start) active) : n.ActiveAfter [] active := by
  intro x
  rw [h.mem_iff hn (start_lt_size hn), Path.nil_iff]
  simp only [StateSet.mem_single, exists_eq_left]

/-- Reading one more byte keeps the invariant, whatever the visiting orders. -/
theorem ActiveAfter.advance (hn : n.InRange) (hactive : n.ActiveAfter u active)
    (h : n.Advances active b next) : n.ActiveAfter (u ++ [b]) next := by
  obtain ⟨ids, found, hids, hstep, hcloses⟩ := h
  obtain ⟨r, hr, hmem⟩ := stepFrom_visitOrder (b := b) hids (hactive.lt_size hn)
  obtain rfl := Except.ok.inj (hstep.symm.trans hr)
  intro x
  rw [hcloses.mem_iff hn (lt_size_of_found hn hmem), Path.concat_iff]
  constructor
  · rintro ⟨q, hq, hafter⟩
    obtain ⟨p, hp, he⟩ := (hmem q).mp hq
    exact ⟨p, q, (hactive p).mp hp, he, hafter⟩
  · rintro ⟨p, q, hu, he, hafter⟩
    exact ⟨q, (hmem q).mpr ⟨p, (hactive p).mpr hu, he⟩, hafter⟩

/-- Every verdict from a set that paths lead to is the verdict of path search. -/
theorem Answers.eq_true_iff (hn : n.InRange) {verdict : Bool} (h : n.Answers active w verdict)
    (hactive : n.ActiveAfter u active) :
    verdict = true ↔ Path n.states n.start (u ++ w) n.accept := by
  induction h generalizing u with
  | done active =>
    rw [List.append_nil, ← hactive n.accept]
    exact Std.TreeSet.contains_iff_mem
  | @stop active w hempty =>
    constructor
    · intro hfalse
      cases hfalse
    · intro hpath
      have hnone : ∀ m, m ∉ active := Std.TreeSet.isEmpty_iff_forall_not_mem.mp hempty
      obtain ⟨m, hu, -⟩ := hpath.split
      exact absurd ((hactive m).mpr hu) (hnone m)
  | @read active next b w verdict hadvance _ ih =>
    rw [ih (hactive.advance hn hadvance), List.append_assoc, List.singleton_append]

/-- A run from a set that paths lead to ends, and its verdict is one of the possible ones. -/
theorem exists_runFrom (hn : n.InRange) (hactive : n.ActiveAfter u active) :
    ∃ r, n.runFrom active w = .ok r ∧ n.Answers active w r.accepted := by
  induction w generalizing u active with
  | nil => exact ⟨⟨n.isAccepting active, []⟩, rfl, .done active⟩
  | cons b w ih =>
    obtain ⟨next, hnext, hadvance⟩ := exists_advance hn (hactive.lt_size hn) b
    by_cases hempty : next.isEmpty = true
    · refine ⟨⟨false, [⟨b, 0⟩]⟩, ?_, .read hadvance (.stop w hempty)⟩
      simp only [runFrom, hnext, hempty, if_true]
    · obtain ⟨r, hr, hanswer⟩ := ih (hactive.advance hn hadvance)
      refine ⟨r.cons ⟨b, next.size⟩, ?_, .read hadvance hanswer⟩
      simp only [runFrom, hnext, if_neg hempty, hr, Except.map]

/-- A run on an automaton whose edges stay inside it ends with a possible verdict. -/
theorem exists_run (hn : n.InRange) (w : List UInt8) :
    ∃ r, n.run w = .ok r ∧ n.MayAnswer w r.accepted := by
  obtain ⟨active, hactive, hcloses⟩ := exists_epsilonClosure hn (start_lt_size hn)
  obtain ⟨r, hr, hanswer⟩ := exists_runFrom (w := w) hn (activeAfter_start hn hcloses)
  refine ⟨r, ?_, active, hcloses, hanswer⟩
  rw [run, startSet, hactive]
  exact hr

/-- A possible verdict is the verdict of path search. -/
theorem MayAnswer.eq_true_iff (hn : n.InRange) {verdict : Bool} (h : n.MayAnswer w verdict) :
    verdict = true ↔ Path n.states n.start w n.accept := by
  obtain ⟨active, hcloses, hanswer⟩ := h
  exact hanswer.eq_true_iff hn (activeAfter_start hn hcloses)

/-- The verdict of a run is the verdict of path search. -/
theorem accepts_eq_true_iff (hn : n.InRange) (w : List UInt8) :
    n.accepts w = true ↔ Path n.states n.start w n.accept := by
  obtain ⟨r, hr, hanswer⟩ := exists_run hn w
  have haccepts : n.accepts w = r.accepted := by simp only [accepts, hr]
  rw [haccepts]
  exact hanswer.eq_true_iff hn

/-- On every automaton whose edges stay inside it, cyclic or not, every run ends, it accepts
exactly the inputs that some path from the start to the accept state spells, and neither
the visiting orders nor the end on an empty set have a say in the verdict. -/
theorem accepts_iff_path (hn : n.InRange) (w : List UInt8) :
    (∃ r, n.run w = .ok r) ∧ (n.accepts w = true ↔ Path n.states n.start w n.accept) ∧
      ∀ verdict, n.MayAnswer w verdict ↔ verdict = n.accepts w := by
  obtain ⟨r, hr, hanswer⟩ := exists_run hn w
  have haccepts : n.accepts w = r.accepted := by simp only [accepts, hr]
  refine ⟨⟨r, hr⟩, accepts_eq_true_iff hn w, fun verdict => ⟨fun h => ?_, fun h => ?_⟩⟩
  · rw [Bool.eq_iff_iff, h.eq_true_iff hn, accepts_eq_true_iff hn]
  · rw [h, haccepts]
    exact hanswer

/-- Two states that silent edges lead around, and one edge that reads. -/
def silentRing : Nfa := ⟨#[⟨[.byte 0x61 1, .epsilon 1], false⟩, ⟨[.epsilon 0], true⟩], 0, 1⟩

/-- On a ring of silent edges the byte may be read any number of times. -/
theorem silentRing_accepts : silentRing.InRange ∧ silentRing.accepts [0x61, 0x61] = true ∧
    ∀ verdict, silentRing.MayAnswer [0x61, 0x61] verdict → verdict = true := by
  have hring : silentRing.InRange := by decide
  obtain ⟨-, hpath, hall⟩ := accepts_iff_path hring [0x61, 0x61]
  have hread : Path silentRing.states 0 [0x61, 0x61] 1 := by
    have hbyte : Edge.byte 0x61 1 ∈ edgesFrom silentRing.states 0 := by decide
    have hback : Edge.epsilon 0 ∈ edgesFrom silentRing.states 1 := by decide
    exact .byteStep hbyte (.silentStep hback (.byteStep hbyte (.nil 1)))
  have haccepts := hpath.mpr hread
  exact ⟨hring, haccepts, fun verdict h => ((hall verdict).mp h).trans haccepts⟩

end ByteRegex.Nfa
