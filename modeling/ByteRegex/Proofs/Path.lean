import ByteRegex.Nfa
import Mathlib.Logic.Relation

/-!
# Paths through an arena of states

A path follows edges from state to state and spells the bytes that they read; a silent
edge adds nothing to the spelling. Paths are about an arena of states alone, so the same
notion serves a finished automaton and one under construction.
-/

namespace ByteRegex

/-- The edges that leave the state with the given id. An id without a state has none. -/
def edgesFrom (states : Array State) (id : Nat) : List Edge :=
  match states[id]? with
  | some s => s.edges
  | none => []

/-- A state that exists is left by its own edges. -/
theorem edgesFrom_eq {states : Array State} {id : Nat} {s : State} (h : states[id]? = some s) :
    edgesFrom states id = s.edges := by
  simp only [edgesFrom, h]

/-- Only a state of the arena is left by an edge. -/
theorem lt_size_of_mem_edgesFrom {states : Array State} {id : Nat} {e : Edge}
    (h : e ∈ edgesFrom states id) : id < states.size := by
  refine Nat.lt_of_not_le fun hout => ?_
  have hnone : states[id]? = none := Array.getElem?_eq_none hout
  simp only [edgesFrom, hnone, List.not_mem_nil] at h

/-- A finite path of edges from one state to another and the bytes that it spells. -/
inductive Path (states : Array State) : Nat → List UInt8 → Nat → Prop
  /-- No edge at all, which spells nothing. -/
  | nil (s : Nat) : Path states s [] s
  /-- One edge in front of a path. -/
  | step {s t : Nat} {w : List UInt8} {e : Edge} :
      e ∈ edgesFrom states s → Path states e.target w t →
        Path states s (e.label.toList ++ w) t

/-- Some number of silent edges, none included, lead from one state to the other. -/
def Silent (states : Array State) : Nat → Nat → Prop :=
  Relation.ReflTransGen fun s t => Edge.epsilon t ∈ edgesFrom states s

namespace Path

variable {states : Array State} {s t m : Nat} {u v w : List UInt8} {b : UInt8}

/-- A silent edge in front leaves the spelling as it is. -/
theorem silentStep (he : Edge.epsilon m ∈ edgesFrom states s) (p : Path states m w t) :
    Path states s w t :=
  step he p

/-- An edge in front that reads a byte puts that byte in front of the spelling. -/
theorem byteStep (he : Edge.byte b m ∈ edgesFrom states s) (p : Path states m w t) :
    Path states s (b :: w) t :=
  step he p

/-- Paths compose, and so do their spellings. -/
theorem append (p : Path states s u m) (q : Path states m v t) : Path states s (u ++ v) t := by
  induction p with
  | nil s => exact q
  | step he _ ih =>
    rw [List.append_assoc]
    exact step he (ih q)

/-- A path can be cut wherever its spelling is cut. Where the path begins with a byte, the cut is
either in front of that byte or in the path behind it. -/
theorem split (p : Path states s (u ++ v) t) :
    ∃ m, Path states s u m ∧ Path states m v t := by
  generalize hw : u ++ v = w at p
  induction p generalizing u with
  | nil s =>
    obtain ⟨rfl, rfl⟩ := List.append_eq_nil_iff.mp hw
    exact ⟨s, nil s, nil s⟩
  | @step s t w e he p ih =>
    cases hlabel : e.label with
    | none =>
      obtain ⟨m, hu, hv⟩ := ih (u := u) (by simpa [hlabel] using hw)
      refine ⟨m, ?_, hv⟩
      simpa [hlabel] using step he hu
    | some b =>
      rw [hlabel] at hw
      cases u with
      | nil =>
        refine ⟨s, nil s, ?_⟩
        have hpath := step he p
        rw [List.nil_append] at hw
        rwa [hlabel, ← hw] at hpath
      | cons x u =>
        obtain ⟨hx, hrest⟩ := List.cons.inj hw
        obtain ⟨m, hu, hv⟩ := ih hrest
        refine ⟨m, ?_, hv⟩
        have hpath := step he hu
        rwa [hlabel, ← hx] at hpath

/-- A path spells a composed word exactly when it is composed of paths for the parts. -/
theorem append_iff : Path states s (u ++ v) t ↔ ∃ m, Path states s u m ∧ Path states m v t :=
  ⟨split, fun ⟨_, p, q⟩ => p.append q⟩

/-- Silent edges make a path that spells nothing. -/
theorem ofSilent (h : Silent states s t) : Path states s [] t := by
  induction h with
  | refl => exact nil s
  | tail _ he ih => exact ih.append (silentStep he (nil _))

/-- A path that spells nothing has silent edges only. -/
theorem silent (p : Path states s [] t) : Silent states s t := by
  generalize hw : ([] : List UInt8) = w at p
  induction p with
  | nil s => exact .refl
  | @step s t w e he p ih =>
    obtain ⟨hlabel, hrest⟩ := List.append_eq_nil_iff.mp hw.symm
    cases e with
    | byte b target => cases hlabel
    | epsilon target => exact .head he (ih hrest.symm)

/-- Spelling nothing and following silent edges are the same. -/
theorem nil_iff : Path states s [] t ↔ Silent states s t := ⟨silent, ofSilent⟩

/-- A path that spells one byte reads it on one edge, with silent edges around it. -/
theorem singleton_iff : Path states s [b] t ↔
    ∃ p q, Silent states s p ∧ Edge.byte b q ∈ edgesFrom states p ∧ Silent states q t := by
  constructor
  · intro h
    generalize hw : [b] = w at h
    induction h with
    | nil s => cases hw
    | @step s t w e he p ih =>
      cases e with
      | byte x target =>
        obtain ⟨rfl, rfl⟩ := List.cons.inj hw
        exact ⟨s, target, .refl, he, p.silent⟩
      | epsilon target =>
        obtain ⟨p, q, hbefore, hbyte, hafter⟩ := ih hw
        exact ⟨p, q, .head he hbefore, hbyte, hafter⟩
  · rintro ⟨p, q, hbefore, hbyte, hafter⟩
    exact (ofSilent hbefore).append (byteStep hbyte (ofSilent hafter))

/-- The last byte of a path is read on one edge, and only silent edges follow it. -/
theorem concat_iff : Path states s (u ++ [b]) t ↔
    ∃ p q, Path states s u p ∧ Edge.byte b q ∈ edgesFrom states p ∧ Silent states q t := by
  rw [append_iff]
  constructor
  · rintro ⟨m, hu, hb⟩
    obtain ⟨p, q, hbefore, hbyte, hafter⟩ := singleton_iff.mp hb
    refine ⟨p, q, ?_, hbyte, hafter⟩
    simpa using hu.append (ofSilent hbefore)
  · rintro ⟨p, q, hu, hbyte, hafter⟩
    exact ⟨p, hu, singleton_iff.mpr ⟨p, q, .refl, hbyte, hafter⟩⟩

/-- Adding edges to an arena destroys no path. -/
theorem mono {larger : Array State}
    (h : ∀ s, ∀ e ∈ edgesFrom states s, e ∈ edgesFrom larger s) (p : Path states s w t) :
    Path larger s w t := by
  induction p with
  | nil s => exact nil s
  | step he _ ih => exact step (h _ _ he) ih

end Path

end ByteRegex
