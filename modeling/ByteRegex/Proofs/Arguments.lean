import ByteRegex.Command.Dump
import Mathlib.Data.List.Basic
import Mathlib.Logic.ExistsUnique

/-!
# How the dumping command reads its arguments

Arguments are read from left to right as items, each of which is a pattern or a limit with its
value, until something ends the reading: the last argument, a call for help, or a limit without a
value or with a bad one. What is read of a row of items is only its patterns, in order, and its last
limit. So a limit may stand on any side of the patterns, earlier limits do not count, and each
pattern gets a block of its own that nothing else has a part in.
-/

namespace ByteRegex

namespace Text

variable {bound n value : Nat} {s : String}

/-- The text is a numeral of the number: at least one decimal digit, with or without a plus sign in
front. -/
def IsNumeral (s : String) (n : Nat) : Prop :=
  ∃ digits : List Char, (s.toList = digits ∨ s.toList = '+' :: digits) ∧ digits ≠ [] ∧
    (∀ c ∈ digits, c.isDigit = true) ∧ n = Nat.ofDigitChars 10 digits 0

/-- More digits do not make a number smaller. -/
theorem le_ofDigitChars (digits : List Char) (value : Nat) :
    value ≤ Nat.ofDigitChars 10 digits value := by
  rw [Nat.ofDigitChars_eq_ofDigitChars_zero]
  have hpos : 0 < 10 ^ digits.length := Nat.pow_pos (by decide)
  have hle := Nat.le_mul_of_pos_left value hpos
  omega

/-- Digits are read to the number that they stand for behind those already read, if that is below
the bound. -/
theorem readDigits_eq_ok_iff (digits : List Char) (hvalue : value < bound) :
    readDigits bound value digits = .ok n ↔
      (∀ c ∈ digits, c.isDigit = true) ∧ n = Nat.ofDigitChars 10 digits value ∧ n < bound := by
  induction digits generalizing value with
  | nil =>
    rw [readDigits, Nat.ofDigitChars_nil, Except.ok.injEq]
    constructor
    · rintro rfl
      exact ⟨fun c hc => absurd hc List.not_mem_nil, rfl, hvalue⟩
    · rintro ⟨-, rfl, -⟩
      rfl
  | cons c digits ih =>
    rw [readDigits, List.forall_mem_cons, Nat.ofDigitChars_cons, digitValue]
    by_cases hc : c.isDigit = true
    · rw [if_pos hc]
      dsimp only
      by_cases hnext : 10 * value + (c.toNat - '0'.toNat) < bound
      · rw [if_pos hnext, ih hnext, and_assoc, and_iff_right hc]
      · rw [if_neg hnext]
        constructor
        · intro h
          cases h
        · rintro ⟨-, rfl, hn⟩
          exact absurd (Nat.lt_of_le_of_lt (le_ofDigitChars _ _) hn) hnext
    · rw [if_neg hc]
      constructor
      · intro h
        cases h
      · rintro ⟨⟨hdigit, -⟩, -⟩
        exact absurd hdigit hc

/-- A text is read as a number just when it is a numeral of that number and the number is below the
bound. -/
theorem readNumeral_eq_ok_iff (hbound : 0 < bound) :
    readNumeral bound s = .ok n ↔ IsNumeral s n ∧ n < bound := by
  have hplus : Char.isDigit '+' = false := by decide
  rw [readNumeral, IsNumeral]
  split
  case h_1 hempty => simp [hempty]
  case h_2 hsign => simp [hsign, hplus]
  case h_3 digits hne hsign =>
    rw [readDigits_eq_ok_iff digits hbound, hsign]
    constructor
    · rintro ⟨hdigits, hn, hlt⟩
      refine ⟨⟨digits, .inr rfl, ?_, hdigits, hn⟩, hlt⟩
      rintro rfl
      exact hne rfl
    · rintro ⟨⟨others, hsame | hsame, -, hdigits, hn⟩, hlt⟩
      · rw [← hsame] at hdigits
        exact absurd (hdigits '+' List.mem_cons_self) (by decide)
      · obtain rfl := (List.cons.inj hsame).right
        exact ⟨hdigits, hn, hlt⟩
  case h_4 hempty hlone hsign =>
    rw [readDigits_eq_ok_iff _ hbound]
    constructor
    · rintro ⟨hdigits, hn, hlt⟩
      exact ⟨⟨_, .inl rfl, hempty, hdigits, hn⟩, hlt⟩
    · rintro ⟨⟨digits, hsame | hsame, -, hdigits, hn⟩, hlt⟩
      · rw [hsame]
        exact ⟨hdigits, hn, hlt⟩
      · exact absurd hsame (hsign digits)

end Text

namespace Command.Dump

open Text

/-- The arguments that ask for help. -/
def helpOptions : List String := ["-h", "--help"]

/-- The argument that takes the next one as a limit. -/
def limitOption : String := "--state-limit"

/-- The argument is the value of a limit: a numeral of a number below 2^64. -/
def IsLimit (value : String) (n : Nat) : Prop := IsNumeral value n ∧ n < UInt64.size

/-- What is read at a time. -/
inductive Item where
  /-- An argument that is no option is a pattern. -/
  | pattern (text : String) (isPattern : text ∉ helpOptions ∧ text ≠ limitOption)
  /-- A limit takes two arguments. -/
  | limit (value : String) (number : Nat) (isLimit : IsLimit value number)

namespace Item

/-- The arguments of the item. -/
def arguments : Item → List String
  | pattern text _ => [text]
  | limit value _ _ => [limitOption, value]

/-- The pattern, if the item is one. -/
def pattern? : Item → Option String
  | pattern text _ => some text
  | limit _ _ _ => none

/-- The number of the limit, if the item is one. -/
def limit? : Item → Option Nat
  | pattern _ _ => none
  | limit _ number _ => some number

end Item

/-- The arguments of a row of items. -/
def spell (items : List Item) : List String := items.flatMap Item.arguments

/-- The first item of a row is spelled in front of the others. -/
theorem spell_cons (item : Item) (items : List Item) :
    spell (item :: items) = item.arguments ++ spell items := List.flatMap_cons

/-- The patterns of a row of items, in order. -/
def patternsOf (items : List Item) : List String := items.filterMap Item.pattern?

/-- The last limit of a row of items. -/
def lastLimit (items : List Item) : Option Nat := (items.filterMap Item.limit?).getLast?

/-- The patterns of two rows. -/
theorem patternsOf_append (items others : List Item) :
    patternsOf (items ++ others) = patternsOf items ++ patternsOf others := List.filterMap_append

/-- A limit in the second of two rows counts before those in the first. -/
theorem lastLimit_append (items others : List Item) :
    lastLimit (items ++ others) = (lastLimit others).or (lastLimit items) := by
  rw [lastLimit, List.filterMap_append, List.getLast?_append, lastLimit, lastLimit]

/-- A limit counts when no other follows it. -/
theorem lastLimit_limit_cons {value : String} {number : Nat} (h : IsLimit value number)
    (items : List Item) :
    lastLimit (.limit value number h :: items) = (lastLimit items).or (some number) := by
  rw [lastLimit, List.filterMap_cons, Item.limit?, lastLimit, List.getLast?_cons]
  cases (items.filterMap Item.limit?).getLast? <;> rfl

variable {limit : Option Nat} {patterns arguments rest : List String} {items : List Item}

/-- A call for help ends the reading. -/
theorem readArguments_help {word : String} (h : word ∈ helpOptions) :
    readArguments limit patterns (word :: rest) = .ok .help := by
  simp only [helpOptions, List.mem_cons, List.not_mem_nil, or_false] at h
  rw [readArguments.eq_def]
  exact if_pos h

/-- An argument that is no option is put in front of the patterns before. -/
theorem readArguments_pattern {text : String} (h : text ∉ helpOptions ∧ text ≠ limitOption) :
    readArguments limit patterns (text :: rest) = readArguments limit (text :: patterns) rest := by
  obtain ⟨hhelp, hlimit⟩ := h
  simp only [helpOptions, List.mem_cons, List.not_mem_nil, or_false] at hhelp
  rw [readArguments.eq_def]
  exact (if_neg hhelp).trans (if_neg hlimit)

/-- A limit goes by what is read of its value. -/
theorem readArguments_limit (value : String) :
    readArguments limit patterns (limitOption :: value :: rest) =
      match readNumeral UInt64.size value with
      | .error fault => .error (.invalidLimit value fault)
      | .ok n => readArguments (some n) patterns rest := by
  rw [readArguments.eq_def]
  exact (if_neg (by decide)).trans (if_pos rfl)

/-- One item is read: a pattern is put in front of those before, a limit replaces the one before. -/
theorem readArguments_item (item : Item) (rest : List String) :
    readArguments limit patterns (item.arguments ++ rest) =
      readArguments (item.limit?.or limit) (item.pattern?.toList ++ patterns) rest := by
  cases item with
  | pattern text h => exact readArguments_pattern h
  | limit value number h =>
    have hread := (readNumeral_eq_ok_iff (by decide)).mpr h
    refine (readArguments_limit value).trans ?_
    rw [hread]
    rfl

/-- A row of items is read: its patterns are put in front of those before, its last limit replaces
the one before. -/
theorem readArguments_spell (items : List Item) (limit : Option Nat) (patterns rest : List String) :
    readArguments limit patterns (spell items ++ rest) =
      readArguments ((lastLimit items).or limit) ((patternsOf items).reverse ++ patterns) rest := by
  induction items generalizing limit patterns with
  | nil => rfl
  | cons item items ih =>
    rw [spell_cons, List.append_assoc, readArguments_item, ih]
    cases item with
    | pattern text h => simp [lastLimit, patternsOf, Item.limit?, Item.pattern?]
    | limit value number h =>
      rw [lastLimit_limit_cons, Option.or_assoc]
      rfl

/-- What ends the reading. -/
inductive Ending : List String → Prop
  /-- There are no arguments left. -/
  | done : Ending []
  /-- A call for help, whatever follows it. -/
  | help {word : String} {rest : List String} : word ∈ helpOptions → Ending (word :: rest)
  /-- A limit without a value. -/
  | missing : Ending [limitOption]
  /-- A limit with a bad value. -/
  | invalid {value : String} {rest : List String} :
      (∀ n, ¬ IsLimit value n) → Ending (limitOption :: value :: rest)

/-- All arguments are a row of items with an ending, which the reader finds whatever it has read
before. -/
theorem exists_items (arguments : List String) :
    ∃ items ending, Ending ending ∧ arguments = spell items ++ ending := by
  have hread : ∀ (limit : Option Nat) (patterns : List String),
      ∃ items ending, Ending ending ∧ arguments = spell items ++ ending := by
    intro limit patterns
    induction limit, patterns, arguments using readArguments.induct with
    | case1 => exact ⟨[], [], .done, rfl⟩
    | case2 => exact ⟨[], [], .done, rfl⟩
    | case3 limit patterns word rest hword =>
      have hhelp : word ∈ helpOptions := by simpa [helpOptions] using hword
      exact ⟨[], word :: rest, .help hhelp, rfl⟩
    | case4 => exact ⟨[], [limitOption], .missing, rfl⟩
    | case5 limit patterns value rest fault hfault =>
      have hbad : ∀ n, ¬ IsLimit value n := by
        intro n hn
        rw [(readNumeral_eq_ok_iff (by decide)).mpr hn] at hfault
        cases hfault
      exact ⟨[], limitOption :: value :: rest, .invalid hbad, rfl⟩
    | case6 limit patterns value rest n hn _ ih =>
      obtain ⟨items, ending, hending, rfl⟩ := ih
      have hlimit : IsLimit value n := (readNumeral_eq_ok_iff (by decide)).mp hn
      exact ⟨.limit value n hlimit :: items, ending, hending, rfl⟩
    | case7 limit patterns text rest hhelp hlimit ih =>
      obtain ⟨items, ending, hending, rfl⟩ := ih
      have hpattern : text ∉ helpOptions ∧ text ≠ limitOption :=
        ⟨by simpa [helpOptions] using hhelp, hlimit⟩
      exact ⟨.pattern text hpattern :: items, ending, hending, rfl⟩
  exact hread none []

/-- What the arguments ask for. -/
inductive Asks : List String → Request → Prop
  /-- Items, and then a call for help. -/
  | help {items : List Item} {word : String} {rest : List String} :
      word ∈ helpOptions → Asks (spell items ++ word :: rest) .help
  /-- Items that hold a pattern. -/
  | dump {items : List Item} :
      patternsOf items ≠ [] → Asks (spell items) (.dump (lastLimit items) (patternsOf items))

/-- The arguments are no good. -/
inductive Refused : List String → Prop
  /-- Items, and then a limit without a value. -/
  | missing {items : List Item} : Refused (spell items ++ [limitOption])
  /-- Items, and then a limit with a bad value. -/
  | invalid {items : List Item} {value : String} {rest : List String} :
      (∀ n, ¬ IsLimit value n) → Refused (spell items ++ limitOption :: value :: rest)
  /-- Items that hold no pattern. -/
  | noPatterns {items : List Item} : patternsOf items = [] → Refused (spell items)

variable {request : Request}

/-- Arguments that are not refused ask for something. -/
theorem asks_or_refused (arguments : List String) :
    (∃ request, Asks arguments request) ∨ Refused arguments := by
  obtain ⟨items, ending, hending, rfl⟩ := exists_items arguments
  cases hending with
  | done =>
    rw [List.append_nil]
    by_cases hnone : patternsOf items = []
    · exact .inr (.noPatterns hnone)
    · exact .inl ⟨_, .dump hnone⟩
  | help hword => exact .inl ⟨_, .help hword⟩
  | missing => exact .inr .missing
  | invalid hbad => exact .inr (.invalid hbad)

/-- What is read behind a row of items depends on its patterns and its last limit. -/
theorem parseArguments_spell (items : List Item) (rest : List String) :
    parseArguments (spell items ++ rest) =
      readArguments (lastLimit items) (patternsOf items).reverse rest := by
  rw [parseArguments, readArguments_spell, Option.or_none, List.append_nil]

/-- The reader finds what is asked for. -/
theorem Asks.parseArguments_eq (h : Asks arguments request) :
    parseArguments arguments = .ok request := by
  cases h with
  | help hword =>
    rw [parseArguments_spell]
    exact readArguments_help hword
  | @dump items hsome =>
    have hread := parseArguments_spell items []
    rw [List.append_nil] at hread
    simpa [readArguments, hsome] using hread

/-- The reader refuses what is no good. -/
theorem Refused.exists_parseArguments_eq (h : Refused arguments) :
    ∃ e, parseArguments arguments = .error e := by
  cases h with
  | missing =>
    rw [parseArguments_spell]
    exact ⟨.missingLimit, rfl⟩
  | @invalid items value rest hbad =>
    rw [parseArguments_spell, readArguments_limit]
    cases hvalue : readNumeral UInt64.size value with
    | error fault => exact ⟨_, rfl⟩
    | ok n => exact absurd ((readNumeral_eq_ok_iff (by decide)).mp hvalue) (hbad n)
  | @noPatterns items hnone =>
    have hread := parseArguments_spell items []
    rw [List.append_nil] at hread
    exact ⟨.noPatterns, by simpa [readArguments, hnone] using hread⟩

/-- No arguments ask for two things. -/
theorem Asks.unique {other : Request} (h : Asks arguments request) (hother : Asks arguments other) :
    request = other :=
  Except.ok.inj (h.parseArguments_eq.symm.trans hother.parseArguments_eq)

/-- No arguments are refused that ask for something. -/
theorem Asks.not_refused (h : Asks arguments request) : ¬ Refused arguments := by
  intro hrefused
  obtain ⟨e, he⟩ := hrefused.exists_parseArguments_eq
  rw [h.parseArguments_eq] at he
  cases he

/-- Rows of items with the same patterns and the same last limit are worth the same, whatever
follows them. -/
theorem run_spell_congr {others : List Item} (hpatterns : patternsOf items = patternsOf others)
    (hlimit : lastLimit items = lastLimit others) (after : List String) :
    run (spell items ++ after) = run (spell others ++ after) := by
  rw [run, run, parseArguments_spell, parseArguments_spell, hpatterns, hlimit]

/-- The command is compositional in its patterns, and its last limit wins. All arguments are either
refused or ask for one thing. A call for help that comes before anything bad is answered by the
usage alone. A limit without a value or with a bad one, and the lack of patterns, are a failure
without output. In all other cases the command succeeds, and its output is a row of blocks, one for
each pattern in order, that depend on that pattern and on the last limit. So a limit may be moved
past any patterns, and limits may be put before the last one, without any effect. -/
theorem run_is_row_of_blocks :
    (∀ arguments,
      ((∃! request, Asks arguments request) ∧ ¬ Refused arguments ∨
        Refused arguments ∧ ¬ ∃ request, Asks arguments request) ∧
      (Asks arguments .help → run arguments = ⟨0, usage ++ "\n", ""⟩) ∧
      (Refused arguments → (run arguments).code = 1 ∧ (run arguments).stdout = "") ∧
      ∀ limit patterns, Asks arguments (.dump limit patterns) →
        run arguments = ⟨0, String.join (patterns.map (block limit)), ""⟩) ∧
    (∀ before patterns value number h after, lastLimit patterns = none →
      run (spell (before ++ .limit value number h :: patterns) ++ after) =
        run (spell (before ++ patterns ++ [.limit value number h]) ++ after)) ∧
    ∀ before value number h between last number' h' after,
      run (spell (before ++ .limit value number h :: between ++ [.limit last number' h']) ++ after) =
        run (spell (before ++ between ++ [.limit last number' h']) ++ after) := by
  refine ⟨fun arguments => ⟨?_, fun hhelp => ?_, fun hrefused => ?_, fun limit patterns hdump => ?_⟩,
    fun before patterns value number h after hnone => ?_,
    fun before value number h between last number' h' after => ?_⟩
  · rcases asks_or_refused arguments with ⟨request, hasks⟩ | hrefused
    · exact .inl ⟨⟨request, hasks, fun other hother => hother.unique hasks⟩, hasks.not_refused⟩
    · exact .inr ⟨hrefused, fun ⟨request, hasks⟩ => hasks.not_refused hrefused⟩
  · rw [run, hhelp.parseArguments_eq]
    rfl
  · obtain ⟨e, he⟩ := hrefused.exists_parseArguments_eq
    rw [run, he]
    exact ⟨rfl, rfl⟩
  · rw [run, hdump.parseArguments_eq]
    rfl
  · refine run_spell_congr ?_ ?_ after
    · rw [patternsOf_append, patternsOf_append, patternsOf_append, List.append_assoc]
      exact congrArg _ (List.append_nil _).symm
    · rw [lastLimit_append, lastLimit_append, lastLimit_limit_cons, hnone, Option.none_or]
      rfl
  · refine run_spell_congr ?_ ?_ after
    · rw [patternsOf_append, patternsOf_append, patternsOf_append, patternsOf_append]
      rfl
    · rw [lastLimit_append, lastLimit_append (before ++ between)]
      rfl

-- A limit takes the next argument as its value, so a call for help is not seen there.
example : parseArguments ["a", "--state-limit", "-h"] = .error (.invalidLimit "-h" .invalidDigit) := rfl

end Command.Dump

end ByteRegex
