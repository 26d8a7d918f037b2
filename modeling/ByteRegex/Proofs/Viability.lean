import ByteRegex.Diagnostic
import ByteRegex.Proofs.Joining
import ByteRegex.Proofs.Trim

/-!
# A run reads exactly as long as a match is possible

Every state of a compiled automaton leads to its accept state when every class has a matching
byte. So a run that is in some state has read the beginning of a word of the language, and a run
that is in none has not. It therefore ends behind the shortest prefix of its input that begins no
word of the language, or at the end of the input when there is no such prefix.
-/

namespace ByteRegex

/-- Some word of the language begins with these bytes. -/
def Viable (L : Language UInt8) (u : List UInt8) : Prop := ∃ v, u ++ v ∈ L

/-- The shortest prefix of the input that does not have the property. -/
structure ShortestWithout (V : List UInt8 → Prop) (w u : List UInt8) : Prop where
  /-- It is a prefix. -/
  prefix_of : u <+: w
  /-- It does not have the property. -/
  without : ¬ V u
  /-- No shorter prefix is without the property. -/
  shortest : ∀ v, v <+: w → ¬ V v → u.length ≤ v.length

namespace Nfa

/-- The steps of a run that reads its input as long as what it has read has the property. -/
structure ReadsWhile (V : List UInt8 → Prop) (w : List UInt8) (steps : List Step) : Prop where
  /-- There is one step for each byte that is read, in the order of the input. -/
  bytes : steps.map Step.byte <+: w
  /-- The run ends behind the shortest prefix without the property. -/
  length_shortest : ∀ u, ShortestWithout V w u → steps.length = u.length
  /-- The run reads the whole input when all of its prefixes have the property. -/
  length_whole : (∀ u, u <+: w → V u) → steps.length = w.length
  /-- The last step leaves no state exactly if there is a prefix without the property. -/
  last_empty_iff : (∃ s, steps.getLast? = some s ∧ s.active = 0) ↔ ∃ u, ShortestWithout V w u

/-- How a run can go on behind bytes that it has read. -/
inductive Continues (V : List UInt8 → Prop) (u : List UInt8) :
    List UInt8 → List Step → Prop
  /-- Whatever it reads has the property, and it reads to the end. -/
  | whole {w : List UInt8} {steps : List Step} : (∀ v, v <+: w → V (u ++ v)) →
      steps.map Step.byte = w → (∀ s ∈ steps, s.active ≠ 0) → Continues V u w steps
  /-- A byte takes the property away, and behind this byte the run ends without a state. -/
  | cut {v rest : List UInt8} {b : UInt8} {steps : List Step} : (∀ x, x <+: v → V (u ++ x)) →
      ¬ V (u ++ (v ++ [b])) → steps.map Step.byte = v ++ [b] →
        (∃ s, steps.getLast? = some s ∧ s.active = 0) → Continues V u (v ++ b :: rest) steps

variable {V : List UInt8 → Prop} {n : Nfa} {L : Language UInt8} {active : StateSet}
  {u w : List UInt8} {b : UInt8} {k : Nat} {steps : List Step}

/-- What has the property, and goes on to have it, has it all along. -/
theorem forall_prefix_cons (hu : V u) (h : ∀ v, v <+: w → V (u ++ [b] ++ v)) :
    ∀ v, v <+: b :: w → V (u ++ v) := by
  intro v hv
  rcases List.prefix_cons_iff.mp hv with rfl | ⟨x, rfl, hx⟩
  · rwa [List.append_nil]
  · have hrest := h x hx
    rwa [List.append_assoc, List.singleton_append] at hrest

/-- A step to some state in front of a continuation. -/
theorem Continues.cons (hu : V u) (hk : k ≠ 0) (h : Continues V (u ++ [b]) w steps) :
    Continues V u (b :: w) (⟨b, k⟩ :: steps) := by
  cases h with
  | whole hall hbytes hactive =>
    refine .whole (forall_prefix_cons hu hall) (congrArg (b :: ·) hbytes) fun s hs => ?_
    rcases List.mem_cons.mp hs with rfl | hs
    · exact hk
    · exact hactive s hs
  | @cut v rest x steps hall hcut hbytes hlast =>
    obtain ⟨s, hs, hzero⟩ := hlast
    have hlast : (⟨b, k⟩ :: steps).getLast? = some s := by
      rw [List.getLast?_cons, hs, Option.getD_some]
    rw [List.append_assoc, List.singleton_append] at hcut
    exact .cut (v := b :: v) (forall_prefix_cons hu hall) hcut (congrArg (b :: ·) hbytes)
      ⟨s, hlast, hzero⟩

/-- A run that goes on from the beginning reads while the property holds. -/
theorem Continues.readsWhile (h : Continues V [] w steps) : ReadsWhile V w steps := by
  cases h with
  | whole hall hbytes hactive =>
    have hnone : ∀ u, ¬ ShortestWithout V w u := fun u hu => hu.without (hall u hu.prefix_of)
    refine ⟨?_, fun u hu => absurd hu (hnone u), fun _ => ?_, ?_, ?_⟩
    · rw [hbytes]
    · rw [← hbytes, List.length_map]
    · rintro ⟨s, hs, hzero⟩
      exact absurd hzero (hactive s (List.mem_of_getLast? hs))
    · rintro ⟨u, hu⟩
      exact absurd hu (hnone u)
  | @cut v rest b steps hall hcut hbytes hlast =>
    have hlength : steps.length = (v ++ [b]).length := by
      rw [← hbytes, List.length_map]
    have hbegins : v ++ [b] <+: v ++ b :: rest := ⟨rest, List.append_assoc v [b] rest⟩
    have hshortest : ShortestWithout V (v ++ b :: rest) (v ++ [b]) := by
      refine ⟨hbegins, hcut, fun x hx hwithout => Nat.le_of_not_lt fun hlt => hwithout ?_⟩
      have hle : x.length ≤ v.length := by
        rw [List.length_append, List.length_singleton] at hlt
        omega
      exact hall x (List.prefix_of_prefix_length_le hx (List.prefix_append v _) hle)
    refine ⟨?_, fun u hu => ?_, fun hwhole => ?_, fun _ => ⟨_, hshortest⟩, fun _ => hlast⟩
    · rw [hbytes]
      exact hbegins
    · rw [hlength]
      exact Nat.le_antisymm (hshortest.shortest u hu.prefix_of hu.without)
        (hu.shortest _ hbegins hcut)
    · exact absurd (hwhole _ hbegins) hcut

/-- A run is in some state exactly if what it has read begins a word. -/
theorem ActiveAfter.isEmpty_eq_false_iff (hn : n.InRange) (htrim : n.Trim)
    (hpaths : ∀ w, Path n.states n.start w n.accept ↔ w ∈ L) (h : n.ActiveAfter u active) :
    active.isEmpty = false ↔ Viable L u := by
  rw [Std.TreeSet.isEmpty_eq_false_iff_exists_mem]
  constructor
  · rintro ⟨s, hs⟩
    obtain ⟨v, hv⟩ := (htrim s (h.lt_size hn s hs)).right
    exact ⟨v, (hpaths _).mp (((h s).mp hs).append hv)⟩
  · rintro ⟨v, hv⟩
    obtain ⟨m, hu, -⟩ := ((hpaths _).mpr hv).split
    exact ⟨m, (h m).mpr hu⟩

/-- A run that has read the beginning of a word reads on while that is so. -/
theorem exists_runFrom_continues (hn : n.InRange) (htrim : n.Trim)
    (hpaths : ∀ w, Path n.states n.start w n.accept ↔ w ∈ L) (h : n.ActiveAfter u active)
    (hu : Viable L u) (w : List UInt8) :
    ∃ r, n.runFrom active w = .ok r ∧ Continues (Viable L) u w r.steps := by
  induction w generalizing u active with
  | nil =>
    refine ⟨⟨n.isAccepting active, []⟩, rfl, .whole (fun v hv => ?_) rfl fun s hs => ?_⟩
    · rwa [List.prefix_nil.mp hv, List.append_nil]
    · exact absurd hs List.not_mem_nil
  | cons b w ih =>
    obtain ⟨next, hnext, hadvance⟩ := exists_advance hn (h.lt_size hn) b
    have hafter := h.advance hn hadvance
    have hviable := hafter.isEmpty_eq_false_iff hn htrim hpaths
    cases hempty : next.isEmpty with
    | true =>
      refine ⟨⟨false, [⟨b, 0⟩]⟩, ?_, .cut (v := []) (fun x hx => ?_) ?_ rfl ⟨_, rfl, rfl⟩⟩
      · simp only [runFrom, hnext, hempty, if_true]
      · rwa [List.prefix_nil.mp hx, List.append_nil]
      · rw [List.nil_append, ← hviable, hempty]
        exact Bool.noConfusion
    | false =>
      obtain ⟨r, hr, hcontinues⟩ := ih hafter (hviable.mp hempty)
      have hactive : next.size ≠ 0 := by
        rw [Std.TreeSet.isEmpty_eq_size_eq_zero] at hempty
        exact beq_eq_false_iff_ne.mp hempty
      refine ⟨r.cons ⟨b, next.size⟩, ?_, hcontinues.cons hu hactive⟩
      simp only [runFrom, hnext, hempty, Bool.false_eq_true, if_false, hr, Except.map]

/-- A run reads on as long as what it has read begins a word. -/
theorem exists_run_readsWhile (hn : n.InRange) (htrim : n.Trim)
    (hpaths : ∀ w, Path n.states n.start w n.accept ↔ w ∈ L) (w : List UInt8) :
    ∃ r, n.run w = .ok r ∧ ReadsWhile (Viable L) w r.steps := by
  obtain ⟨active, hactive, hcloses⟩ := exists_epsilonClosure hn (start_lt_size hn)
  obtain ⟨v, hv⟩ := (htrim n.start hn.start_lt).right
  have hnone : Viable L [] := ⟨v, (hpaths v).mp hv⟩
  obtain ⟨r, hr, hcontinues⟩ :=
    exists_runFrom_continues hn htrim hpaths (activeAfter_start hn hcloses) hnone w
  refine ⟨r, ?_, hcontinues.readsWhile⟩
  rw [run, startSet, hactive]
  exact hr

end Nfa

/-- The parser neither adds nor drops an operand. -/
theorem Pattern.mem_postorder_iff {p : Pattern} {t : Token} (ht : t.isOperand = true) :
    t ∈ p.postorder ↔ t ∈ p.tokens := by
  have hother : ∀ u : Token, u.isOperand = false → (u == t) = false := by
    intro u hu
    refine beq_eq_false_iff_ne.mpr ?_
    rintro rfl
    exact Bool.noConfusion (hu.symm.trans ht)
  have hcount : p.postorder.count t = p.tokens.count t :=
    countP_toPostorder_insertConcats (hother .lparen rfl) (hother .rparen rfl)
      (hother (.op .concat) rfl) p.tokens
  rw [← List.count_pos_iff, hcount, List.count_pos_iff]

/-- Of the diagnostics of a session, the run's steps are the ones with the most detail. -/
theorem Session.traces_eq {limit : Option Nat} {p : Pattern} {w : List UInt8} {n : Nfa}
    {r : Nfa.Run} (h : Thompson.compile limit p.postorder = .ok n) (hr : n.run w = .ok r) :
    (Session.of limit p w).diagnostics.filter (·.level = .trace) =
      r.steps.map Diagnostic.stepped := by
  have hsteps : (r.steps.map Diagnostic.stepped).filter (·.level = .trace) =
      r.steps.map Diagnostic.stepped := by
    refine List.filter_eq_self.mpr fun d hd => ?_
    obtain ⟨s, -, rfl⟩ := List.mem_map.mp hd
    rfl
  have hreading : p.diagnostics.filter (·.level = .trace) = [] := by
    refine List.filter_eq_nil_iff.mpr fun d hd => ?_
    rw [(Pattern.of_mem_diagnostics hd).right]
    exact Bool.false_ne_true
  have hbuilding : [Diagnostic.compiled p.postorder.length n.size].filter (·.level = .trace) =
      [] := rfl
  simp only [Session.of, h, hr, List.filter_append, hsteps, hreading, hbuilding, List.nil_append]

/-- A run gives up exactly when no match is possible any more. Of a pattern that compiles, under
whatever limit, and has no class without a matching byte, every run reads on as long as what it
has read begins a word of the language that the pattern's automaton recognizes, and it leaves one
diagnostic for each byte that it reads. -/
theorem Session.run_reads_while_viable (limit : Option Nat) (p : Pattern) (n : Nfa)
    (hclasses : ∀ c, Token.charClass c ∈ p.tokens → ∃ b, c.contains b = true)
    (h : Thompson.compile limit p.postorder = .ok n) (w : List UInt8) :
    ∃ L r, denote p.postorder [] = some [L] ∧ n.Recognizes L ∧ n.run w = .ok r ∧
      (Session.of limit p w).diagnostics.filter (·.level = .trace) =
        r.steps.map Diagnostic.stepped ∧
      Nfa.ReadsWhile (Viable L) w r.steps := by
  have htrim : n.Trim := Thompson.compile_trim limit p.postorder n
    (fun c hc => hclasses c ((Pattern.mem_postorder_iff rfl).mp hc)) h
  obtain ⟨L, hdenote, hrange, hpaths⟩ := Thompson.compile_paths h
  obtain ⟨r, hr, hreads⟩ := Nfa.exists_run_readsWhile hrange htrim hpaths w
  exact ⟨L, r, hdenote, Nfa.recognizes_of_paths hrange hpaths, hr, Session.traces_eq h hr, hreads⟩

/-- A class in a loop in front of a literal: the pattern `[ab]+c`. -/
def classLoopThenLiteral : Pattern := [0x5b, 0x61, 0x62, 0x5d, 0x2b, 0x63]

/-- The pattern compiles, both bytes of its class match, and so its run on `abxc` reads as long
as a match is possible. -/
theorem Session.classLoopThenLiteral_reads_while_viable : ∃ n,
    (∀ c, Token.charClass c ∈ classLoopThenLiteral.tokens → ∃ b, c.contains b = true) ∧
    Thompson.compile none classLoopThenLiteral.postorder = .ok n ∧
    ∃ L r, denote classLoopThenLiteral.postorder [] = some [L] ∧ n.Recognizes L ∧
      n.run [0x61, 0x62, 0x78, 0x63] = .ok r ∧
      (Session.of none classLoopThenLiteral [0x61, 0x62, 0x78, 0x63]).diagnostics.filter
        (·.level = .trace) = r.steps.map Diagnostic.stepped ∧
      Nfa.ReadsWhile (Viable L) [0x61, 0x62, 0x78, 0x63] r.steps := by
  have hclasses : ∀ c, Token.charClass c ∈ classLoopThenLiteral.tokens →
      ∃ b, c.contains b = true := by
    intro c hc
    have htokens : classLoopThenLiteral.tokens =
        [.charClass (ByteClass.empty.insertMany [0x61, 0x62]), .op .plus, .literal 0x63] := by
      decide
    rw [htokens] at hc
    obtain rfl : c = ByteClass.empty.insertMany [0x61, 0x62] := by simpa using hc
    exact ⟨0x61, by decide⟩
  obtain ⟨n, hn⟩ := Thompson.compile_eq_ok_iff.mpr
    (show depthFrom 0 classLoopThenLiteral.postorder = .ok 1 from rfl)
  exact ⟨n, hclasses, hn, run_reads_while_viable none _ n hclasses hn _⟩

end ByteRegex
