import ByteRegex.Proofs.Step
import ByteRegex.Regex

/-!
# What a state limit does

A limit is looked at when two states are allocated and at no other time, and states are never
given back. So a construction under a limit does what it does without one, token by token,
until the arena would outgrow the limit. Of an error without a limit only the states that
were allocated in front of it count, because a missing operand is found before the limit is
looked at.
-/

namespace ByteRegex

namespace Thompson

variable {a b : Assembly} {t : Token} {ts : List Token} {limit : Nat} {e : CompileError} {n : Nfa}
  {r : Except CompileError Nfa}

namespace Assembly

/-- Refuse an assembly with more states than the limit allows. -/
def within (limit : Nat) (a : Assembly) : Except CompileError Assembly :=
  if a.states.size ≤ limit then .ok a else .error (.tooComplex limit)

/-- An allocation under a limit is one without, and then a look at the limit. -/
theorem allocate_some {states : Array State} {stack : List Fragment}
    {wire : Fragment → Array State → Array State}
    (hwire : ∀ f states, (wire f states).size = states.size) :
    allocate (some limit) states stack wire =
      (allocate none states stack wire).bind (within limit) := by
  have hsize : (wire (fresh states) (grow states)).size = states.size + 2 := by
    rw [hwire, size_grow]
  have hnone : allocate none states stack wire =
      .ok ⟨wire (fresh states) (grow states), fresh states :: stack⟩ := rfl
  rw [hnone, Except.bind, within, hsize, allocate, checkSize]
  by_cases hle : states.size + 2 ≤ limit
  · rw [if_pos hle, if_pos hle]
    rfl
  · rw [if_neg hle, if_neg hle]

/-- An operator under a limit does what it does without, and then the limit is looked at. -/
theorem reduce_some {o : Operator} (ha : a.states.size ≤ limit) :
    a.reduce (some limit) o = (a.reduce none o).bind (within limit) := by
  obtain ⟨states, fs⟩ := a
  rcases fs with - | ⟨y, rest⟩
  · cases o <;> rfl
  cases o with
  | concat =>
    rcases rest with - | ⟨x, rest⟩
    · rfl
    · have hsize : (link states x.accept y.start).size ≤ limit := by
        rw [link, size_addEdges]
        exact ha
      exact (if_pos hsize).symm
  | alt =>
    rcases rest with - | ⟨x, rest⟩
    · rfl
    · refine allocate_some fun f states => ?_
      rw [wireAlt_eq, size_linkAll]
  | star =>
    refine allocate_some fun f states => ?_
    rw [wireStar_eq, size_linkAll]
  | plus =>
    refine allocate_some fun f states => ?_
    rw [wirePlus_eq, size_linkAll]
  | question =>
    refine allocate_some fun f states => ?_
    rw [wireQuestion_eq, size_linkAll]

/-- A token under a limit does what it does without, and then the limit is looked at. -/
theorem push_some (ha : a.states.size ≤ limit) (t : Token) :
    a.push (some limit) t = (a.push none t).bind (within limit) := by
  have hbytes : ∀ bytes f states, (wireBytes bytes f states).size = states.size :=
    fun bytes f states => size_addEdges ..
  cases t with
  | literal b => exact allocate_some (hbytes _)
  | charClass c => exact allocate_some (hbytes _)
  | dot => exact allocate_some (hbytes _)
  | op o => exact reduce_some ha
  | lparen => exact (if_pos ha).symm
  | rparen => exact (if_pos ha).symm

/-- Nothing that was allocated is given back. -/
theorem size_le_of_pushAll {limit : Option Nat} (h : a.pushAll limit ts = .ok b) :
    a.states.size ≤ b.states.size := by
  rw [size_of_pushAll h]
  exact Nat.le_add_right ..

/-- A stream that succeeds without a limit succeeds under one that its assembly respects, with
the same assembly, and is cut off under any other. -/
theorem pushAll_some (ha : a.states.size ≤ limit) (h : a.pushAll none ts = .ok b) :
    a.pushAll (some limit) ts = b.within limit := by
  induction ts generalizing a with
  | nil =>
    obtain rfl := Except.ok.inj h
    exact (if_pos ha).symm
  | cons t rest ih =>
    obtain ⟨next, hpush, hrest⟩ := exists_of_pushAll_cons h
    rw [pushAll, push_some ha, hpush, Except.bind, within]
    by_cases hnext : next.states.size ≤ limit
    · rw [if_pos hnext]
      exact ih hnext hrest
    · have hle := size_le_of_pushAll hrest
      rw [if_neg hnext, within, if_neg (by omega)]

/-- A stream that fails does so at one of its tokens, behind others that succeed. -/
theorem pushAll_eq_error {limit : Option Nat} (h : a.pushAll limit ts = .error e) :
    ∃ before t after b, ts = before ++ t :: after ∧ a.pushAll limit before = .ok b ∧
      b.push limit t = .error e := by
  induction ts generalizing a with
  | nil => cases h
  | cons t rest ih =>
    rw [pushAll] at h
    cases hpush : a.push limit t with
    | error f =>
      rw [hpush] at h
      obtain rfl := Except.error.inj h
      exact ⟨[], t, rest, a, rfl, rfl, hpush⟩
    | ok next =>
      rw [hpush] at h
      obtain ⟨before, u, after, b, hsplit, hbefore, hu⟩ := ih h
      refine ⟨t :: before, u, after, b, congrArg (t :: ·) hsplit, ?_, hu⟩
      rw [pushAll, hpush]
      exact hbefore

/-- The automaton has the states of the assembly. -/
theorem size_of_finish (h : a.finish = .ok n) : n.size = a.states.size := by
  obtain ⟨states, f, rfl, rfl⟩ := exists_of_finish h
  exact Array.size_modify

end Assembly

/-- Without a limit the stream comes to this result, at a token that fails or at its end, and
the assembly is what the tokens in front of that point have made. -/
inductive Stops : List Token → Assembly → Except CompileError Nfa → Prop
  /-- A token fails, and what follows it is not read. -/
  | token {before after : List Token} {t : Token} {a : Assembly} {e : CompileError} :
      Assembly.empty.pushAll none before = .ok a → a.push none t = .error e →
        Stops (before ++ t :: after) a (.error e)
  /-- Every token succeeds, and the end decides. -/
  | ending {ts : List Token} {a : Assembly} :
      Assembly.empty.pushAll none ts = .ok a → Stops ts a a.finish

/-- Every stream stops somewhere. -/
theorem exists_stops (ts : List Token) : ∃ a, Stops ts a (compile none ts) := by
  rw [compile]
  cases hrun : Assembly.empty.pushAll none ts with
  | error e =>
    obtain ⟨before, t, after, a, rfl, hbefore, ht⟩ := Assembly.pushAll_eq_error hrun
    exact ⟨a, .token hbefore ht⟩
  | ok a => exact ⟨a, .ending hrun⟩

/-- What a stream comes to is the result without a limit. -/
theorem Stops.compile_none (h : Stops ts a r) : compile none ts = r := by
  cases h with
  | token hbefore ht =>
    rw [compile, Assembly.pushAll_append, hbefore]
    simp only [Except.bind, Assembly.pushAll, ht]
  | ending hall => simp only [compile, hall]

/-- Under a limit it is the result too, unless the limit is exceeded before. -/
theorem Stops.compile_some (h : Stops ts a r) (limit : Nat) :
    compile (some limit) ts = if a.states.size ≤ limit then r else .error (.tooComplex limit) := by
  have hempty : Assembly.empty.states.size ≤ limit := Nat.zero_le limit
  cases h with
  | token hbefore ht =>
    rw [compile, Assembly.pushAll_append, Assembly.pushAll_some hempty hbefore, Assembly.within]
    by_cases hle : a.states.size ≤ limit
    · rw [if_pos hle, if_pos hle]
      simp only [Except.bind, Assembly.pushAll, Assembly.push_some hle, ht]
    · rw [if_neg hle, if_neg hle]
      rfl
  | ending hall =>
    rw [compile, Assembly.pushAll_some hempty hall, Assembly.within]
    by_cases hle : a.states.size ≤ limit
    · simp only [if_pos hle]
    · simp only [if_neg hle]

/-- The automaton has the states that were allocated for it. -/
theorem Stops.size_eq (h : Stops ts a (.ok n)) : n.size = a.states.size := by
  generalize hr : (Except.ok n : Except CompileError Nfa) = r at h
  cases h with
  | token _ _ => cases hr
  | ending _ => exact Assembly.size_of_finish hr.symm

/-- The results of a stream under all limits, where `size` is the number of states of a result
and `report` makes an error of a cause: a limit cuts off what there is without one, and changes
nothing else. -/
structure CutsOff {ε α : Type} (size : α → Nat) (report : CompileError → ε) (ts : List Token)
    (result : Option Nat → Except ε α) : Prop where
  /-- A success without a limit is the same success, unless it has too many states. -/
  success : ∀ x, result none = .ok x → ∀ limit, result (some limit) =
    if size x ≤ limit then .ok x else .error (report (.tooComplex limit))
  /-- A failure without a limit is the same failure, unless there are too many states before. -/
  failure : ∀ a e, Stops ts a (.error e) → result none = .error (report e) ∧
    ∀ limit, result (some limit) =
      if a.states.size ≤ limit then .error (report e) else .error (report (.tooComplex limit))
  /-- Without a limit there are no other failures. -/
  stops : ∀ f, result none = .error f → ∃ a e, Stops ts a (.error e) ∧ f = report e
  /-- A result that is not cut off is the result under every larger limit. -/
  stable : ∀ limit larger, limit ≤ larger →
    result (some limit) ≠ .error (report (.tooComplex limit)) →
      result (some larger) = result (some limit)

section Results

variable {ε α : Type} {size : α → Nat} {report : CompileError → ε}
  {result : Option Nat → Except ε α} (make : Nfa → α)
  (hresult : ∀ limit, result limit =
    match compile limit ts with
    | .ok n => .ok (make n)
    | .error e => .error (report e))

include hresult

/-- Under a limit a result is the one without, unless the limit is exceeded before. -/
theorem Stops.result_some (h : Stops ts a r) (limit : Nat) : result (some limit) =
    if a.states.size ≤ limit then result none else .error (report (.tooComplex limit)) := by
  rw [hresult, hresult, h.compile_some, h.compile_none]
  by_cases hle : a.states.size ≤ limit
  · rw [if_pos hle, if_pos hle]
  · rw [if_neg hle, if_neg hle]

/-- A limit cuts off the results that are made of the construction of a stream. -/
theorem CutsOff.of_compile (hsize : ∀ n, size (make n) = n.size) :
    CutsOff size report ts result where
  success x hx limit := by
    obtain ⟨a, h⟩ := exists_stops ts
    rw [h.result_some make hresult, hx]
    rw [hresult] at hx
    cases hn : compile none ts with
    | error e =>
      rw [hn] at hx
      cases hx
    | ok n =>
      rw [hn] at h hx
      rw [← Except.ok.inj hx, hsize, h.size_eq]
  failure a e h := by
    have hnone : result none = .error (report e) := by rw [hresult, h.compile_none]
    refine ⟨hnone, fun limit => ?_⟩
    rw [h.result_some make hresult, hnone]
  stops f hf := by
    obtain ⟨a, h⟩ := exists_stops ts
    rw [hresult] at hf
    cases hn : compile none ts with
    | error e =>
      rw [hn] at h hf
      exact ⟨a, e, h, (Except.error.inj hf).symm⟩
    | ok n =>
      rw [hn] at hf
      cases hf
  stable limit larger hle hcut := by
    obtain ⟨a, h⟩ := exists_stops ts
    have hneeded : a.states.size ≤ limit := by
      refine Nat.le_of_not_lt fun hlt => hcut ?_
      rw [h.result_some make hresult, if_neg (Nat.not_le.mpr hlt)]
    rw [h.result_some make hresult, h.result_some make hresult, if_pos hneeded,
      if_pos (Nat.le_trans hneeded hle)]

end Results

end Thompson

namespace Regex

/-- Replace the limit once for every limit of a list. -/
def Builder.withStateLimits (b : Builder) (limits : List (Option Nat)) : Builder :=
  limits.foldl withStateLimit b

/-- Only the last limit counts. -/
theorem Builder.withStateLimits_concat (b : Builder) (limits : List (Option Nat))
    (limit : Option Nat) :
    b.withStateLimits (limits ++ [limit]) = b.withStateLimit limit := by
  rw [withStateLimits, List.foldl_append]
  induction limits generalizing b with
  | nil => rfl
  | cons first rest ih => exact ih (b.withStateLimit first)

/-- A state limit only ever cuts off, and never changes, a result. This holds of every stream of
tokens, and of every text for which a builder was given limits, where the last one counts. -/
theorem stateLimit_cutsOff :
    (∀ ts, Thompson.CutsOff Nfa.size id ts (Thompson.compile · ts)) ∧
    ∀ (text : String) (limits : List (Option Nat)),
      Thompson.CutsOff (fun r : Regex => r.nfa.size) (Error.mk text)
        (Pattern.ofString text).postorder
        (fun last => ((Builder.ofPattern text).withStateLimits (limits ++ [last])).build) ∧
      ((Builder.ofPattern text).withStateLimits (limits ++ [none])).build =
        Regex.compile text := by
  refine ⟨fun ts => ?_, fun text limits => ⟨?_, ?_⟩⟩
  · refine .of_compile id (fun limit => ?_) fun n => rfl
    cases Thompson.compile limit ts <;> rfl
  · refine .of_compile (Regex.mk text) (fun limit => ?_) fun n => rfl
    rw [Builder.withStateLimits_concat]
    rfl
  · rw [Builder.withStateLimits_concat]
    rfl

end Regex

end ByteRegex
