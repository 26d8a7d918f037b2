import ByteRegex.Command.Match
import ByteRegex.Proofs.Meaning
import Mathlib.Data.List.TakeWhile

/-!
# What the matching command answers

The command gives a verdict on one line when its arguments are the flag and a pattern that
compiles, and refuses them otherwise, without a look at its input. A mismatch and a refusal have
the same exit code, but only a refusal leaves standard output empty. The line is described here by
what surrounds it in the input, and the language of a pattern is the one that evaluating its tokens
leaves, so neither mentions how the command works.
-/

namespace ByteRegex

/-- The text is a pattern that compiles, and this is the language that its tokens leave. -/
def Pattern.HasLanguage (text : String) (L : Language UInt8) : Prop :=
  (∃ n, Thompson.compile none (Pattern.ofString text).postorder = .ok n) ∧
    denote (Pattern.ofString text).postorder [] = some [L]

namespace Command.Match

variable {input line rest : List UInt8} {arguments : List String} {text : String}
  {L K : Language UInt8} {r : Regex}

/-- The line with which an input begins. -/
inductive IsFirstLine : List UInt8 → List UInt8 → Prop
  /-- A line ends at the first line feed. -/
  | lineFeed {line rest : List UInt8} : 0x0a ∉ line → line.getLast? ≠ some 0x0d →
      IsFirstLine (line ++ 0x0a :: rest) line
  /-- One carriage return directly before the line feed belongs to the line's end. -/
  | carriageReturn {line rest : List UInt8} : 0x0a ∉ line →
      IsFirstLine (line ++ 0x0d :: 0x0a :: rest) line
  /-- Input without a line feed is a line as it is. -/
  | whole {line : List UInt8} : 0x0a ∉ line → IsFirstLine line line

/-- The bytes before the first line feed, and the line feed with all that follows it. -/
theorem span_lineFeed (h : 0x0a ∉ line) (rest : List UInt8) :
    (line ++ 0x0a :: rest).takeWhile (· ≠ 0x0a) = line ∧
      (line ++ 0x0a :: rest).dropWhile (· ≠ 0x0a) = 0x0a :: rest := by
  have hline : ∀ b ∈ line, decide (b ≠ 0x0a) = true := by
    intro b hb
    refine decide_eq_true ?_
    rintro rfl
    exact h hb
  constructor
  · rw [List.takeWhile_append_of_pos hline]
    simp
  · rw [List.dropWhile_append_of_pos hline]
    simp

/-- The line is the part of the input that the command takes for it. -/
theorem IsFirstLine.eq_firstLine (h : IsFirstLine input line) : line = firstLine input := by
  cases h with
  | @lineFeed line rest hline hlast =>
    obtain ⟨htake, hdrop⟩ := span_lineFeed hline rest
    simp only [firstLine, htake, hdrop, if_neg hlast]
  | @carriageReturn line rest hline =>
    have hreturn : 0x0a ∉ line ++ [0x0d] := by
      simp [hline]
    obtain ⟨htake, hdrop⟩ := span_lineFeed hreturn rest
    rw [List.append_assoc, List.singleton_append] at htake hdrop
    simp only [firstLine, htake, hdrop, List.getLast?_concat, if_true, List.dropLast_concat]
  | whole hline =>
    have hall : ∀ b ∈ input, decide (b ≠ 0x0a) = true := by
      intro b hb
      refine decide_eq_true ?_
      rintro rfl
      exact hline hb
    have htake : input.takeWhile (· ≠ 0x0a) = input := List.takeWhile_eq_self_iff.mpr hall
    have hdrop : input.dropWhile (· ≠ 0x0a) = [] := List.dropWhile_eq_nil_iff.mpr hall
    simp only [firstLine, htake, hdrop]

/-- What the command takes for the line is the line. -/
theorem isFirstLine_firstLine (input : List UInt8) : IsFirstLine input (firstLine input) := by
  have hnone : 0x0a ∉ input.takeWhile (· ≠ 0x0a) := by
    intro hmem
    have hne := List.mem_takeWhile_imp hmem
    exact absurd rfl (of_decide_eq_true hne)
  have hsplit := List.takeWhile_append_dropWhile (p := (· ≠ 0x0a)) (l := input)
  cases hdrop : input.dropWhile (· ≠ 0x0a) with
  | nil =>
    rw [hdrop, List.append_nil] at hsplit
    simp only [firstLine, hdrop]
    rw [hsplit] at hnone ⊢
    exact .whole hnone
  | cons b rest =>
    have hhead := List.head?_dropWhile_not (fun b : UInt8 => decide (b ≠ 0x0a)) input
    rw [hdrop] at hhead
    obtain rfl : b = 0x0a := by simpa using hhead
    rw [hdrop] at hsplit
    simp only [firstLine, hdrop]
    by_cases hlast : (input.takeWhile (· ≠ 0x0a)).getLast? = some 0x0d
    · obtain ⟨before, hbefore⟩ := List.getLast?_eq_some_iff.mp hlast
      rw [if_pos hlast, hbefore, List.dropLast_concat]
      rw [hbefore] at hsplit hnone
      rw [← hsplit, List.append_assoc, List.singleton_append]
      exact .carriageReturn fun hmem => hnone (List.mem_append_left _ hmem)
    · rw [if_neg hlast]
      conv => arg 1; rw [← hsplit]
      exact .lineFeed hnone hlast

/-- A pattern that compiles is matched against its language. -/
theorem hasLanguage_of_compile (h : Regex.compile text = .ok r) :
    ∃ L, Pattern.HasLanguage text L ∧ ∀ w, r.isMatch w = true ↔ w ∈ L := by
  rw [Regex.compile, Regex.Builder.build] at h
  cases hn : Thompson.compile none (Pattern.ofString text).postorder with
  | error e =>
    simp only [Regex.Builder.ofPattern, hn] at h
    cases h
  | ok n =>
    simp only [Regex.Builder.ofPattern, hn] at h
    obtain rfl := Except.ok.inj h
    obtain ⟨L, hdenote, hrange, hpaths⟩ := Thompson.compile_paths hn
    have hrecognizes := Nfa.recognizes_of_paths hrange hpaths
    exact ⟨L, ⟨⟨n, hn⟩, hdenote⟩, fun w => (hrecognizes w).right⟩

/-- A pattern that has a language compiles. -/
theorem exists_compile_of_hasLanguage (h : Pattern.HasLanguage text L) :
    ∃ r, Regex.compile text = .ok r := by
  obtain ⟨⟨n, hn⟩, -⟩ := h
  refine ⟨⟨text, n⟩, ?_⟩
  simp only [Regex.compile, Regex.Builder.build, Regex.Builder.ofPattern, hn]

/-- A pattern has one language. -/
theorem hasLanguage_unique (hL : Pattern.HasLanguage text L) (hK : Pattern.HasLanguage text K) :
    L = K := by
  have hsame := hL.right.symm.trans hK.right
  exact (List.cons.inj (Option.some.inj hsame)).left

/-- The arguments are accepted when they are the flag and a pattern that compiles. -/
theorem parseArguments_eq_ok_iff :
    parseArguments arguments = .ok r ↔
      ∃ text, arguments = ["-E", text] ∧ Regex.compile text = .ok r := by
  constructor
  · intro h
    match arguments, h with
    | [flag, text], h =>
      rw [parseArguments] at h
      by_cases hflag : flag = "-E"
      · rw [if_pos hflag] at h
        cases hcompile : Regex.compile text with
        | error e =>
          rw [hcompile] at h
          cases h
        | ok r =>
          rw [hcompile] at h
          obtain rfl := Except.ok.inj h
          exact ⟨text, by rw [hflag], hcompile⟩
      · rw [if_neg hflag] at h
        cases h
  · rintro ⟨text, rfl, hcompile⟩
    rw [parseArguments, if_pos rfl, hcompile]
    rfl

/-- The arguments ask for the language when they are the flag and a pattern that has it. -/
def Asks (arguments : List String) (L : Language UInt8) : Prop :=
  ∃ text, arguments = ["-E", text] ∧ Pattern.HasLanguage text L

/-- Arguments ask for one language at most. -/
theorem Asks.unique (hL : Asks arguments L) (hK : Asks arguments K) : L = K := by
  obtain ⟨text, rfl, htext⟩ := hL
  obtain ⟨other, hsame, hother⟩ := hK
  obtain rfl : text = other := (List.cons.inj (List.cons.inj hsame).right).left
  exact hasLanguage_unique htext hother

/-- What is said of the language that is asked for and of the first line of an input is said of one
language and one line. -/
theorem exists_asked_iff (hL : Asks arguments L) {P : Language UInt8 → List UInt8 → Prop} :
    (∃ K line, Asks arguments K ∧ IsFirstLine input line ∧ P K line) ↔ P L (firstLine input) := by
  constructor
  · rintro ⟨K, line, hK, hline, hP⟩
    rwa [← hK.unique hL, ← hline.eq_firstLine]
  · exact fun hP => ⟨L, _, hL, isFirstLine_firstLine input, hP⟩

/-- Arguments that ask for a language get a verdict on every input. -/
theorem run_of_asks (h : Asks arguments L) (input : List UInt8) :
    run arguments input = ⟨0, "true\n", ""⟩ ∧ firstLine input ∈ L ∨
      run arguments input = ⟨1, "false\n", ""⟩ ∧ firstLine input ∉ L := by
  obtain ⟨text, rfl, htext⟩ := h
  obtain ⟨r, hr⟩ := exists_compile_of_hasLanguage htext
  obtain ⟨K, hK, hmatch⟩ := hasLanguage_of_compile hr
  obtain rfl := hasLanguage_unique htext hK
  rw [run, parseArguments_eq_ok_iff.mpr ⟨text, rfl, hr⟩]
  simp only [answer, ← hmatch]
  cases r.isMatch (firstLine input) <;> simp

/-- Arguments that ask for no language are refused in the same way on every input. -/
theorem run_of_not_asks (h : ¬ ∃ L, Asks arguments L) :
    ∃ complaint, complaint ≠ "" ∧ ∀ input, run arguments input = .failure complaint := by
  cases hparse : parseArguments arguments with
  | ok r =>
    obtain ⟨text, harguments, hr⟩ := parseArguments_eq_ok_iff.mp hparse
    obtain ⟨L, hL, -⟩ := hasLanguage_of_compile hr
    exact absurd ⟨L, text, harguments, hL⟩ h
  | error e =>
    refine ⟨e.message ++ "\n", ?_, fun input => ?_⟩
    · intro hempty
      have hlength := congrArg String.length hempty
      rw [String.length_append] at hlength
      cases hlength
    · rw [run, hparse]

/-- The command answers for exactly the first line. Success and the verdict that the line matches
are the same, and they come exactly when the arguments ask for a language and the line belongs to
it. The other verdict comes exactly when the line does not belong to the language that the arguments
ask for. All other arguments fail with a complaint and without a verdict, whatever the input is. -/
theorem run_answers_first_line (arguments : List String) (input : List UInt8) :
    (∃! line, IsFirstLine input line) ∧
    ((run arguments input).code = 0 ↔ (run arguments input).stdout = "true\n") ∧
    ((run arguments input).stdout = "true\n" ↔
      ∃ L line, Asks arguments L ∧ IsFirstLine input line ∧ line ∈ L) ∧
    ((run arguments input).stdout = "false\n" ∧ (run arguments input).code = 1 ↔
      ∃ L line, Asks arguments L ∧ IsFirstLine input line ∧ line ∉ L) ∧
    ((¬ ∃ L, Asks arguments L) ↔
      (run arguments input).code = 1 ∧ (run arguments input).stdout = "" ∧
        (run arguments input).stderr ≠ "" ∧ ∀ other, run arguments other = run arguments input) := by
  refine ⟨⟨firstLine input, isFirstLine_firstLine input, fun line => IsFirstLine.eq_firstLine⟩, ?_⟩
  by_cases hasks : ∃ L, Asks arguments L
  · obtain ⟨L, hL⟩ := hasks
    have hsome : ¬ ¬ ∃ L, Asks arguments L := not_not_intro ⟨L, hL⟩
    rw [exists_asked_iff hL, exists_asked_iff hL, iff_false_left hsome]
    rcases run_of_asks hL input with ⟨hrun, hline⟩ | ⟨hrun, hline⟩
    · rw [hrun]
      simp [hline]
    · rw [hrun]
      simp [hline]
  · obtain ⟨complaint, hcomplaint, hrun⟩ := run_of_not_asks hasks
    have hnone : ∀ K, ¬ Asks arguments K := fun K hK => hasks ⟨K, hK⟩
    simp [hrun, hnone, hcomplaint, Outcome.failure]

end Command.Match

end ByteRegex
