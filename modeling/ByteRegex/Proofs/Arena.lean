import ByteRegex.Proofs.Path
import ByteRegex.Thompson

/-!
# What a construction does to the edges of the arena

Every construction allocates blank states and adds edges, and never removes an edge. The
operators add silent edges only, so each of them is a list of links between states. The
equations here give the edges of every state after a construction, in the order in which
they were added.
-/

namespace ByteRegex.Thompson

/-- Two more blank states. -/
def grow (states : Array State) : Array State := (states.push .blank).push .blank

/-- The two new states are at the end. -/
theorem size_grow (states : Array State) : (grow states).size = states.size + 2 := by
  rw [grow, Array.size_push, Array.size_push]

/-- An allocation that succeeds wires a fragment of two new states. -/
theorem allocate_eq_ok {limit : Option Nat} {states : Array State} {stack : List Fragment}
    {wire : Fragment → Array State → Array State} {b : Assembly}
    (h : allocate limit states stack wire = .ok b) :
    b = ⟨wire ⟨states.size, states.size + 1⟩ (grow states),
      ⟨states.size, states.size + 1⟩ :: stack⟩ := by
  unfold allocate at h
  split at h
  · cases h
  · exact (Except.ok.inj h).symm

/-- A blank state has no edges, like a state that does not exist. -/
theorem edgesFrom_push_blank (states : Array State) (id : Nat) :
    edgesFrom (states.push .blank) id = edgesFrom states id := by
  unfold edgesFrom
  rw [Array.getElem?_push]
  by_cases hid : id = states.size
  · rw [if_pos hid, Array.getElem?_eq_none (by omega)]
    rfl
  · rw [if_neg hid]

/-- New states are blank and change no edge. -/
theorem edgesFrom_grow (states : Array State) (id : Nat) :
    edgesFrom (grow states) id = edgesFrom states id := by
  rw [grow, edgesFrom_push_blank, edgesFrom_push_blank]

/-- The edges of a state outside the arena. -/
theorem edgesFrom_eq_nil {states : Array State} {id : Nat} (h : states.size ≤ id) :
    edgesFrom states id = [] := by
  simp only [edgesFrom, Array.getElem?_eq_none h]

/-- A state keeps its edges when all that happens to a state is that its mark is set. -/
theorem edgesFrom_mark (states : Array State) (marked id : Nat) :
    edgesFrom (states.modify marked fun s => { s with accepting := true }) id =
      edgesFrom states id := by
  unfold edgesFrom
  rw [Array.getElem?_modify]
  by_cases hid : marked = id
  · rw [if_pos hid]
    cases states[id]? <;> rfl
  · rw [if_neg hid]

/-- Adding edges allocates no state. -/
theorem size_addEdges (states : Array State) (id : Nat) (edges : List Edge) :
    (addEdges states id edges).size = states.size := Array.size_modify

/-- Added edges stand behind those that the state had, and other states keep theirs. -/
theorem edgesFrom_addEdges {states : Array State} {id : Nat} (h : id < states.size)
    (edges : List Edge) (s : Nat) :
    edgesFrom (addEdges states id edges) s =
      edgesFrom states s ++ if id = s then edges else [] := by
  unfold addEdges edgesFrom
  rw [Array.getElem?_modify]
  by_cases hs : id = s
  · subst hs
    rw [if_pos rfl, if_pos rfl, Array.getElem?_eq_getElem h]
    rfl
  · rw [if_neg hs, if_neg hs, List.append_nil]

/-- The silent edges from a state that a list of links asks for, in the order of the list. -/
def linksFrom (links : List (Nat × Nat)) (s : Nat) : List Edge :=
  links.flatMap fun l => if l.1 = s then [.epsilon l.2] else []

/-- Add a silent edge for every link. -/
def linkAll (states : Array State) (links : List (Nat × Nat)) : Array State :=
  links.foldl (fun states l => link states l.1 l.2) states

/-- Links allocate no state. -/
theorem size_linkAll (states : Array State) (links : List (Nat × Nat)) :
    (linkAll states links).size = states.size := by
  induction links generalizing states with
  | nil => rfl
  | cons l rest ih =>
    have h := ih (link states l.1 l.2)
    rw [link, size_addEdges] at h
    exact h

/-- Every state keeps its edges, and its links stand behind them. -/
theorem edgesFrom_linkAll {states : Array State} {links : List (Nat × Nat)}
    (h : ∀ l ∈ links, l.1 < states.size) (s : Nat) :
    edgesFrom (linkAll states links) s = edgesFrom states s ++ linksFrom links s := by
  induction links generalizing states with
  | nil => simp only [linkAll, linksFrom, List.foldl_nil, List.flatMap_nil, List.append_nil]
  | cons l rest ih =>
    have hl := h l List.mem_cons_self
    have hrest : ∀ k ∈ rest, k.1 < (link states l.1 l.2).size := by
      intro k hk
      rw [link, size_addEdges]
      exact h k (List.mem_cons_of_mem _ hk)
    have hadd : edgesFrom (link states l.1 l.2) s =
        edgesFrom states s ++ if l.1 = s then [.epsilon l.2] else [] :=
      edgesFrom_addEdges hl _ s
    rw [linkAll, List.foldl_cons]
    refine (ih hrest).trans ?_
    rw [hadd, List.append_assoc]
    rfl

/-- An edge that a link asks for. -/
theorem mem_linksFrom {links : List (Nat × Nat)} {s : Nat} {e : Edge} :
    e ∈ linksFrom links s ↔ ∃ t, (s, t) ∈ links ∧ e = .epsilon t := by
  rw [linksFrom, List.mem_flatMap]
  constructor
  · rintro ⟨⟨source, t⟩, hl, he⟩
    by_cases hs : source = s
    · subst hs
      rw [if_pos rfl, List.mem_singleton] at he
      exact ⟨t, hl, he⟩
    · rw [if_neg hs] at he
      cases he
  · rintro ⟨t, hl, rfl⟩
    exact ⟨(s, t), hl, by simp⟩

/-- No link leaves a state that is no source of one. -/
theorem linksFrom_eq_nil {links : List (Nat × Nat)} {s : Nat} (h : ∀ l ∈ links, l.1 ≠ s) :
    linksFrom links s = [] := by
  refine List.flatMap_eq_nil_iff.mpr fun l hl => ?_
  rw [if_neg (h l hl)]

/-- The links of an alternation: the start leads to both branches, and both branches lead
to the accept state. -/
def altLinks (x y f : Fragment) : List (Nat × Nat) :=
  [(f.start, x.start), (f.start, y.start), (x.accept, f.accept), (y.accept, f.accept)]

/-- The links of a repetition: enter, skip if `skip`, repeat if `again`, leave. -/
def loopLinks (skip again : Bool) (x f : Fragment) : List (Nat × Nat) :=
  (f.start, x.start) :: (if skip then [(f.start, f.accept)] else []) ++
    (if again then [(x.accept, x.start)] else []) ++ [(x.accept, f.accept)]

/-- The links of an alternation, one by one. -/
theorem mem_altLinks {x y f : Fragment} {l : Nat × Nat} : l ∈ altLinks x y f ↔
    l = (f.start, x.start) ∨ l = (f.start, y.start) ∨ l = (x.accept, f.accept) ∨
      l = (y.accept, f.accept) := by
  simp only [altLinks, List.mem_cons, List.not_mem_nil, or_false]

/-- The links of a repetition, one by one. -/
theorem mem_loopLinks {skip again : Bool} {x f : Fragment} {l : Nat × Nat} :
    l ∈ loopLinks skip again x f ↔
      l = (f.start, x.start) ∨ skip = true ∧ l = (f.start, f.accept) ∨
        again = true ∧ l = (x.accept, x.start) ∨ l = (x.accept, f.accept) := by
  simp only [loopLinks, List.mem_append, List.mem_cons, List.mem_ite_nil_right, List.not_mem_nil,
    or_false, or_assoc]

/-- An alternation adds the links of an alternation. -/
theorem wireAlt_eq (x y f : Fragment) (states : Array State) :
    wireAlt x y f states = linkAll states (altLinks x y f) := by
  simp only [wireAlt, linkAll, altLinks, List.foldl_cons, List.foldl_nil]

/-- A star may be skipped and repeated. -/
theorem wireStar_eq (x f : Fragment) (states : Array State) :
    wireStar x f states = linkAll states (loopLinks true true x f) := by
  simp only [wireStar, linkAll, loopLinks, if_true, List.cons_append, List.nil_append,
    List.foldl_cons, List.foldl_nil]

/-- A plus may be repeated but not skipped. -/
theorem wirePlus_eq (x f : Fragment) (states : Array State) :
    wirePlus x f states = linkAll states (loopLinks false true x f) := by
  simp only [wirePlus, linkAll, loopLinks, Bool.false_eq_true, if_true, if_false, List.cons_append,
    List.nil_append, List.foldl_cons, List.foldl_nil]

/-- A question may be skipped but not repeated. -/
theorem wireQuestion_eq (x f : Fragment) (states : Array State) :
    wireQuestion x f states = linkAll states (loopLinks true false x f) := by
  simp only [wireQuestion, linkAll, loopLinks, Bool.false_eq_true, if_true, if_false,
    List.cons_append, List.nil_append, List.foldl_cons, List.foldl_nil]

end ByteRegex.Thompson
