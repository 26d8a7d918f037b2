import ByteRegex.Proofs.Meaning
import ByteRegex.Proofs.Step

/-!
# No state of a compiled automaton is useless

Every state lies on a path through the fragment of some complete expression: the start of the
fragment leads to the state, and the state leads to the fragment's accept state. Edges are
never removed, so a step can only spoil this by taking fragments from the stack, and the
fragment that takes their place leads into each of them and out of it. Behind the last token
there is one fragment, and every state belongs to it.
-/

namespace ByteRegex

/-- Some path leads from the one state to the other. -/
def Leads (states : Array State) (s t : Nat) : Prop := ∃ w, Path states s w t

/-- No state is useless: the start state leads to it, and it leads to the accept state. -/
def Nfa.Trim (n : Nfa) : Prop :=
  ∀ s, s < n.size → Leads n.states n.start s ∧ Leads n.states s n.accept

namespace Leads

variable {states larger : Array State} {s t m : Nat} {e : Edge}

/-- Every state leads to itself. -/
theorem refl (states : Array State) (s : Nat) : Leads states s s := ⟨[], .nil s⟩

/-- A state on the way leads on. -/
theorem trans (h : Leads states s m) (k : Leads states m t) : Leads states s t := by
  obtain ⟨u, p⟩ := h
  obtain ⟨v, q⟩ := k
  exact ⟨u ++ v, p.append q⟩

/-- An edge leads to its target. -/
theorem edge (he : e ∈ edgesFrom states s) : Leads states s e.target :=
  ⟨_, .step he (.nil e.target)⟩

/-- A link leads to its target. -/
theorem link {links : List (Nat × Nat)}
    (hnew : ∀ s, edgesFrom larger s = edgesFrom states s ++ Thompson.linksFrom links s)
    (hl : (s, t) ∈ links) : Leads larger s t :=
  ⟨[], .link hnew hl (.nil t)⟩

/-- With more edges everything leads where it led before. -/
theorem mono (h : Leads states s t) (hmore : ∀ s, ∃ more, edgesFrom larger s =
    edgesFrom states s ++ more) : Leads larger s t := by
  obtain ⟨w, p⟩ := h
  refine ⟨w, p.mono fun s e he => ?_⟩
  obtain ⟨more, hmore⟩ := hmore s
  rw [hmore]
  exact List.mem_append_left more he

end Leads

/-- An operand whose class has a matching byte reads some byte. -/
theorem Token.operandBytes_ne_nil {t : Token} {bytes : List UInt8}
    (hclass : ∀ c, t = .charClass c → ∃ b, c.contains b = true)
    (h : t.operandBytes = some bytes) : bytes ≠ [] := by
  cases t with
  | literal b =>
    obtain rfl := Option.some.inj h
    exact List.cons_ne_nil b []
  | charClass c =>
    obtain rfl := Option.some.inj h
    obtain ⟨b, hb⟩ := hclass c rfl
    exact List.ne_nil_of_mem ((c.mem_members b).mpr hb)
  | dot =>
    obtain rfl := Option.some.inj h
    have hletter : ByteClass.anyExceptNewline.contains 0x61 = true :=
      (ByteClass.contains_anyExceptNewline 0x61).mpr (by decide)
    exact List.ne_nil_of_mem ((ByteClass.mem_members _ _).mpr hletter)
  | op o => cases h
  | lparen => cases h
  | rparen => cases h

namespace Thompson

variable {states new : Array State} {f : Fragment} {rest : List Fragment}
  {a b : Assembly} {t : Token} {n : Nfa}

/-- What is known of an assembly at any moment: no state is useless in it. -/
structure Assembly.Trim (a : Assembly) : Prop where
  /-- Fragments are entered and left by states. -/
  inside : ∀ f ∈ a.stack, f.start < a.states.size ∧ f.accept < a.states.size
  /-- Every fragment can be passed. -/
  passable : ∀ f ∈ a.stack, Leads a.states f.start f.accept
  /-- Every state is on the way through some fragment. -/
  covered : ∀ s, s < a.states.size →
    ∃ f ∈ a.stack, Leads a.states f.start s ∧ Leads a.states s f.accept

namespace Assembly

/-- A fragment takes the place of others when it can be passed, leads into each of them and out
of it, and owns the states that are new. -/
theorem Trim.replace (operands : List Fragment) (ha : Trim ⟨states, operands ++ rest⟩)
    (hmore : ∀ s, ∃ more, edgesFrom new s = edgesFrom states s ++ more)
    (hsize : states.size ≤ new.size) (hstart : f.start < new.size) (haccept : f.accept < new.size)
    (howns : ∀ s, states.size ≤ s → s < new.size → s = f.start ∨ s = f.accept)
    (hpass : Leads new f.start f.accept)
    (hinto : ∀ x ∈ operands, Leads new f.start x.start)
    (hout : ∀ x ∈ operands, Leads new x.accept f.accept) : Trim ⟨new, f :: rest⟩ := by
  refine ⟨fun g hg => ?_, fun g hg => ?_, fun s hs => ?_⟩
  · rcases List.mem_cons.mp hg with rfl | hg
    · exact ⟨hstart, haccept⟩
    · obtain ⟨hgstart, hgaccept⟩ := ha.inside g (List.mem_append_right operands hg)
      exact ⟨Nat.lt_of_lt_of_le hgstart hsize, Nat.lt_of_lt_of_le hgaccept hsize⟩
  · rcases List.mem_cons.mp hg with rfl | hg
    · exact hpass
    · exact (ha.passable g (List.mem_append_right operands hg)).mono hmore
  · by_cases hold : s < states.size
    · obtain ⟨g, hg, hbefore, hbehind⟩ := ha.covered s hold
      rcases List.mem_append.mp hg with hg | hg
      · have hin := (hinto g hg).trans (hbefore.mono hmore)
        have hon := (hbehind.mono hmore).trans (hout g hg)
        exact ⟨f, List.mem_cons_self, hin, hon⟩
      · exact ⟨g, List.mem_cons_of_mem f hg, hbefore.mono hmore, hbehind.mono hmore⟩
    · refine ⟨f, List.mem_cons_self, ?_⟩
      rcases howns s (Nat.le_of_not_lt hold) hs with rfl | rfl
      · exact ⟨.refl new _, hpass⟩
      · exact ⟨hpass, .refl new _⟩

/-- A fragment of two new states takes the place of others when it can be passed and leads into
each of them and out of it. -/
theorem Trim.replace_fresh (operands : List Fragment) (ha : Trim ⟨states, operands ++ rest⟩)
    (hmore : ∀ s, ∃ more, edgesFrom new s = edgesFrom states s ++ more)
    (hsize : new.size = states.size + 2)
    (hpass : Leads new (fresh states).start (fresh states).accept)
    (hinto : ∀ x ∈ operands, Leads new (fresh states).start x.start)
    (hout : ∀ x ∈ operands, Leads new x.accept (fresh states).accept) :
    Trim ⟨new, fresh states :: rest⟩ := by
  have hstart : (fresh states).start = states.size := rfl
  have haccept : (fresh states).accept = states.size + 1 := rfl
  refine ha.replace operands hmore ?_ ?_ ?_ (fun s hold hs => ?_) hpass hinto hout
  all_goals omega

/-- A fragment of two new states takes the place of others when it is linked into each of them
and out of it. -/
theorem Trim.surround {links : List (Nat × Nat)} {x : Fragment} (operands : List Fragment)
    (ha : Trim ⟨states, operands ++ rest⟩) (hx : x ∈ operands)
    (hsources : ∀ l ∈ links, l.1 < states.size + 2)
    (hinto : ∀ x ∈ operands, ((fresh states).start, x.start) ∈ links)
    (hout : ∀ x ∈ operands, (x.accept, (fresh states).accept) ∈ links) :
    Trim ⟨linkAll (grow states) links, fresh states :: rest⟩ := by
  have hnew := edgesFrom_linkAll_grow hsources
  have hmore : ∀ s, ∃ more, edgesFrom (linkAll (grow states) links) s =
      edgesFrom states s ++ more := fun s => ⟨_, hnew s⟩
  refine ha.replace_fresh operands hmore ?_ ?_ (fun y hy => .link hnew (hinto y hy))
    (fun y hy => .link hnew (hout y hy))
  · rw [size_linkAll, size_grow]
  · have hpass := (ha.passable x (List.mem_append_left rest hx)).mono hmore
    exact ((Leads.link hnew (hinto x hx)).trans hpass).trans (.link hnew (hout x hx))

/-- Two fragments, linked from accept to start, are one fragment. -/
theorem Trim.concat {x y : Fragment} (ha : Trim ⟨states, y :: x :: rest⟩) :
    Trim ⟨linkAll states [(x.accept, y.start)], ⟨x.start, y.accept⟩ :: rest⟩ := by
  obtain ⟨hxstart, hxaccept⟩ := ha.inside x (List.mem_cons_of_mem y List.mem_cons_self)
  obtain ⟨-, hyaccept⟩ := ha.inside y List.mem_cons_self
  have hnew := edgesFrom_linkAll_single hxaccept y.start
  have hsize := size_linkAll states [(x.accept, y.start)]
  have hmore : ∀ s, ∃ more, edgesFrom (linkAll states [(x.accept, y.start)]) s =
      edgesFrom states s ++ more := fun s => ⟨_, hnew s⟩
  have hx := (ha.passable x (List.mem_cons_of_mem y List.mem_cons_self)).mono hmore
  have hy := (ha.passable y List.mem_cons_self).mono hmore
  have hlink : Leads _ x.accept y.start := .link hnew List.mem_cons_self
  refine Trim.replace [y, x] ha hmore ?_ ?_ ?_ ?_ ?_ ?_ ?_
  · exact Nat.le_of_eq hsize.symm
  · rw [hsize]
    exact hxstart
  · rw [hsize]
    exact hyaccept
  · intro s hold hs
    omega
  · exact (hx.trans hlink).trans hy
  · intro z hz
    rcases List.mem_pair.mp hz with rfl | rfl
    · exact hx.trans hlink
    · exact .refl _ _
  · intro z hz
    rcases List.mem_pair.mp hz with rfl | rfl
    · exact .refl _ _
    · exact hlink.trans hy

/-- A step makes no state useless when its operand reads some byte. -/
theorem Step.trim (h : Step a t b) (ha : a.Trim)
    (hbytes : ∀ bytes, t.operandBytes = some bytes → bytes ≠ []) : b.Trim := by
  cases h with
  | paren _ => exact ha
  | @operand states stack t bytes ht =>
    obtain ⟨byte, hbyte⟩ := List.exists_mem_of_ne_nil bytes (hbytes bytes ht)
    have hnew := edgesFrom_wireBytes states bytes
    refine Trim.replace_fresh [] ha (fun s => ⟨_, hnew s⟩) ?_ ?_
      (fun x hx => absurd hx List.not_mem_nil) (fun x hx => absurd hx List.not_mem_nil)
    · rw [wireBytes, size_addEdges, size_grow]
    · refine .edge (e := .byte byte (fresh states).accept) ?_
      rw [hnew, fresh_start, if_pos rfl]
      exact List.mem_append_right _ (List.mem_map.mpr ⟨byte, hbyte, rfl⟩)
  | concat => exact ha.concat
  | @alt states x y rest =>
    obtain ⟨-, hxaccept⟩ := ha.inside x (List.mem_cons_of_mem y List.mem_cons_self)
    obtain ⟨-, hyaccept⟩ := ha.inside y List.mem_cons_self
    have hsources : ∀ l ∈ altLinks x y (fresh states), l.1 < states.size + 2 :=
      forall_source_altLinks (P := (· < states.size + 2)) (fresh_start_lt states)
        (Nat.lt_add_right 2 hxaccept) (Nat.lt_add_right 2 hyaccept)
    refine Trim.surround [y, x] ha List.mem_cons_self hsources ?_ ?_
    · intro z hz
      rcases List.mem_pair.mp hz with rfl | rfl
      · exact mem_altLinks.mpr (.inr (.inl rfl))
      · exact mem_altLinks.mpr (.inl rfl)
    · intro z hz
      rcases List.mem_pair.mp hz with rfl | rfl
      · exact mem_altLinks.mpr (.inr (.inr (.inr rfl)))
      · exact mem_altLinks.mpr (.inr (.inr (.inl rfl)))
  | @loop states x rest o _ =>
    obtain ⟨hxstart, hxaccept⟩ := ha.inside x List.mem_cons_self
    have hsources : ∀ l ∈ loopLinks o.skips o.repeats x (fresh states), l.1 < states.size + 2 :=
      forall_source_loopLinks (P := (· < states.size + 2)) (fresh_start_lt states)
        (Nat.lt_add_right 2 hxaccept)
    refine Trim.surround [x] ha List.mem_cons_self hsources ?_ ?_
    · intro z hz
      obtain rfl := List.mem_singleton.mp hz
      exact mem_loopLinks.mpr (.inl rfl)
    · intro z hz
      obtain rfl := List.mem_singleton.mp hz
      exact mem_loopLinks.mpr (.inr (.inr (.inr rfl)))

/-- Where there is no state, none is useless. -/
theorem trim_empty : Assembly.empty.Trim where
  inside _ hf := absurd hf List.not_mem_nil
  passable _ hf := absurd hf List.not_mem_nil
  covered s hs := absurd hs (Nat.not_lt_zero s)

/-- The last fragment owns every state. -/
theorem Trim.finish (ha : a.Trim) (h : a.finish = .ok n) : n.Trim := by
  obtain ⟨states, f, rfl, rfl⟩ := exists_of_finish h
  have hmore : ∀ s, ∃ more,
      edgesFrom (states.modify f.accept fun s => { s with accepting := true }) s =
        edgesFrom states s ++ more := by
    intro s
    exact ⟨[], (edgesFrom_mark states f.accept s).trans (List.append_nil _).symm⟩
  intro s hs
  rw [Nfa.size, Array.size_modify] at hs
  obtain ⟨g, hg, hbefore, hbehind⟩ := ha.covered s hs
  obtain rfl := List.mem_singleton.mp hg
  exact ⟨hbefore.mono hmore, hbehind.mono hmore⟩

end Assembly

/-- When every class has a matching byte, a construction that succeeds, on whatever stream and
under whatever limit, makes no useless state. -/
theorem compile_trim (limit : Option Nat) (ts : List Token) (n : Nfa)
    (hclasses : ∀ c, Token.charClass c ∈ ts → ∃ b, c.contains b = true)
    (h : compile limit ts = .ok n) : n.Trim := by
  obtain ⟨a, hrun, hfinish⟩ := exists_of_compile h
  have ha : a.Trim := by
    refine Assembly.pushAll_induction (P := Assembly.Trim) Assembly.trim_empty ?_ hrun
    intro t ht a b hpush ha
    refine (Assembly.step_of_push hpush).trim ha fun bytes => ?_
    refine Token.operandBytes_ne_nil fun c hc => hclasses c ?_
    rwa [← hc]
  exact ha.finish hfinish

/-- A negated class in a loop, and then any byte but the line feed. -/
theorem othersThenAny_trim : ∃ n,
    (∀ c, Token.charClass c ∈ [.charClass (.insert .full 0x61), .op .plus, .dot, .op .concat] →
      ∃ b, c.contains b = true) ∧
    compile none [.charClass (.insert .full 0x61), .op .plus, .dot, .op .concat] = .ok n ∧
      n.Trim := by
  have hclasses : ∀ c, Token.charClass c ∈
      [.charClass (.insert .full 0x61), .op .plus, .dot, .op .concat] →
        ∃ b, c.contains b = true := by
    intro c hc
    obtain rfl : c = .insert .full 0x61 := by simpa using hc
    exact ⟨0x62, by decide⟩
  obtain ⟨n, hn⟩ := compile_eq_ok_iff.mpr (show depthFrom 0
    [.charClass (.insert .full 0x61), .op .plus, .dot, .op .concat] = .ok 1 from rfl)
  exact ⟨n, hclasses, hn, compile_trim none _ n hclasses hn⟩

end Thompson

end ByteRegex
