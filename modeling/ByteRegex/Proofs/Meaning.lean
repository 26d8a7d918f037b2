import ByteRegex.Proofs.Block
import ByteRegex.Proofs.Simulation

/-!
# What a stream of tokens means

Tokens with operators behind their operands are evaluated on a stack of languages, without
any automaton. The construction follows this evaluation step by step: the blocks of its
complete expressions tile the arena, in the order of the stack, and each block reads the
language that the evaluation has at the same place.

Nothing here is about the parser. The stream may be any one, and the state limit too.
-/

namespace ByteRegex

/-- The dot matches every byte but the line feed. -/
theorem ByteClass.contains_anyExceptNewline (b : UInt8) :
    anyExceptNewline.contains b = true ↔ b ≠ 0x0a := by
  have hb : b.toNat < 256 := b.toNat_lt
  simp only [anyExceptNewline, contains_insertRange, negated_insertRange, contains_empty,
    negated_empty, Bool.not_false, Bool.if_true_left, Bool.or_false, Bool.or_eq_true,
    decide_eq_true_eq, UInt8.le_iff_toNat_le, ne_eq, ← UInt8.toNat_inj, UInt8.reduceToNat]
  omega

/-- Replace the languages on top of the stack by what an operator makes of them. -/
def Operator.apply : Operator → List (Language UInt8) → Option (List (Language UInt8))
  | .concat, b :: a :: rest => some (a * b :: rest)
  | .alt, b :: a :: rest => some ((a + b) :: rest)
  | .star, a :: rest => some (KStar.kstar a :: rest)
  | .plus, a :: rest => some (a * KStar.kstar a :: rest)
  | .question, a :: rest => some ((a + 1) :: rest)
  | _, _ => none

/-- Evaluate one token. Operands are put on top of the stack, and parentheses mean nothing. -/
def Token.apply : Token → List (Language UInt8) → Option (List (Language UInt8))
  | .literal b, stack => some (oneOf (· = b) :: stack)
  | .charClass c, stack => some (oneOf (fun b => c.contains b = true) :: stack)
  | .dot, stack => some (oneOf (· ≠ 0x0a) :: stack)
  | .op o, stack => o.apply stack
  | .lparen, stack => some stack
  | .rparen, stack => some stack

/-- Evaluate a stream of tokens, unless an operand is missing. -/
def denote : List Token → List (Language UInt8) → Option (List (Language UInt8))
  | [], stack => some stack
  | t :: rest, stack => (t.apply stack).bind (denote rest)

/-- The second part of a stream is evaluated on what the first one leaves. -/
theorem denote_append (ts us : List Token) (stack : List (Language UInt8)) :
    denote (ts ++ us) stack = (denote ts stack).bind (denote us) := by
  induction ts generalizing stack with
  | nil => rfl
  | cons t rest ih =>
    rw [List.cons_append, denote, denote, Option.bind_assoc]
    exact Option.bind_congr fun stack _ => ih stack

namespace Nfa

/-- Every run on the automaton ends without a fault, and it accepts exactly the words of the
language. -/
def Recognizes (n : Nfa) (L : Language UInt8) : Prop :=
  ∀ w, (∃ r, n.run w = .ok r) ∧ (n.accepts w = true ↔ w ∈ L)

/-- An automaton whose edges stay inside it recognizes what its paths spell. -/
theorem recognizes_of_paths {n : Nfa} {L : Language UInt8} (hn : n.InRange)
    (h : ∀ w, Path n.states n.start w n.accept ↔ w ∈ L) : n.Recognizes L := by
  intro w
  obtain ⟨r, hr, -⟩ := exists_run hn w
  refine ⟨⟨r, hr⟩, ?_⟩
  rw [accepts_eq_true_iff hn]
  exact h w

end Nfa

namespace Thompson

variable {states new : Array State} {hi : Nat} {fs : List Fragment} {Ls : List (Language UInt8)}
  {limit : Option Nat} {a b : Assembly} {L : Language UInt8}

/-- The blocks of the fragments, latest first, fill the arena up to a number of states and
read the languages at the same places. -/
inductive Tiling (states : Array State) :
    List Fragment → List (Language UInt8) → Nat → Prop
  /-- No fragment fills no state. -/
  | nil : Tiling states [] [] 0
  /-- The latest block stands behind the others. -/
  | cons {lo hi : Nat} {f : Fragment} {L : Language UInt8} {fs : List Fragment}
      {Ls : List (Language UInt8)} :
      Block states lo hi f L → Tiling states fs Ls lo → Tiling states (f :: fs) (L :: Ls) hi

/-- What happens behind a tiling does not change it. -/
theorem Tiling.congr (h : Tiling states fs Ls hi)
    (hsame : ∀ s, s < hi → edgesFrom new s = edgesFrom states s) : Tiling new fs Ls hi := by
  induction h with
  | nil => exact .nil
  | @cons lo hi f L fs Ls hblock htiling ih =>
    have hge := hblock.start_ge
    have hlt := hblock.start_lt
    refine .cons (hblock.congr fun s _ hs => hsame s hs) (ih fun s hs => hsame s ?_)
    omega

/-- The blocks of an assembly tile its whole arena and read the languages of a stack. -/
def Assembly.Denotes (a : Assembly) (Ls : List (Language UInt8)) : Prop :=
  Tiling a.states a.stack Ls a.states.size

/-- Reading an operand puts a block of its bytes behind the others. -/
theorem Assembly.pushBytes_denotes {bytes : List UInt8} (ha : a.Denotes Ls)
    (h : a.pushBytes limit bytes = .ok b) : b.Denotes (oneOf (· ∈ bytes) :: Ls) := by
  have hb := allocate_eq_ok h
  have hsize := size_grow a.states
  have hnew : ∀ s, edgesFrom b.states s = edgesFrom a.states s ++
      if a.states.size = s then bytes.map (Edge.byte · (a.states.size + 1)) else [] := by
    intro s
    rw [hb, wireBytes, edgesFrom_addEdges (show a.states.size < _ by omega), edgesFrom_grow]
  have hblock : Block b.states a.states.size (a.states.size + 2)
      ⟨a.states.size, a.states.size + 1⟩ (oneOf (· ∈ bytes)) := by
    refine .operand rfl rfl ?_ ?_
    · rw [hnew, if_pos rfl, edgesFrom_eq_nil (Nat.le_refl _), List.nil_append]
    · rw [hnew, if_neg (by simp only; omega), edgesFrom_eq_nil (by simp only; omega),
        List.append_nil]
  have hold : Tiling b.states a.stack Ls a.states.size := by
    refine ha.congr fun s hs => ?_
    rw [hnew, if_neg (by omega), List.append_nil]
  have hbsize : b.states.size = a.states.size + 2 := by
    rw [hb, wireBytes, size_addEdges, hsize]
  rw [Assembly.Denotes, hbsize, hb]
  rw [hb] at hblock hold
  exact .cons hblock hold

/-- An operator that allocates puts its block in the place of its operands' blocks. -/
theorem allocate_denotes {lo : Nat} {links : Fragment → List (Nat × Nat)}
    {wire : Fragment → Array State → Array State}
    (hwire : ∀ f states, wire f states = linkAll states (links f))
    (hrest : Tiling states fs Ls lo) (h : allocate limit states fs wire = .ok b)
    (hsources : ∀ l ∈ links ⟨states.size, states.size + 1⟩, lo ≤ l.1 ∧ l.1 < states.size + 2)
    (hblock : ∀ new f, f.start = states.size → f.accept = states.size + 1 →
      (∀ s, edgesFrom new s = edgesFrom states s ++ linksFrom (links f) s) →
        Block new lo (states.size + 2) f L) : b.Denotes (L :: Ls) := by
  have hb := allocate_eq_ok h
  have hsize := size_grow states
  have hnew : ∀ s, edgesFrom b.states s =
      edgesFrom states s ++ linksFrom (links ⟨states.size, states.size + 1⟩) s := by
    intro s
    rw [hb, hwire, edgesFrom_linkAll, edgesFrom_grow]
    intro l hl
    have hsource := hsources l hl
    omega
  have hnewest : Block b.states lo (states.size + 2) ⟨states.size, states.size + 1⟩ L :=
    hblock _ _ rfl rfl hnew
  have hbelow : Tiling b.states fs Ls lo := by
    refine hrest.congr fun s hs => ?_
    rw [hnew, linksFrom_eq_nil, List.append_nil]
    intro l hl
    have hsource := hsources l hl
    omega
  have hbsize : b.states.size = states.size + 2 := by
    rw [hb, hwire, size_linkAll, hsize]
  rw [Assembly.Denotes, hbsize, hb]
  rw [hb] at hnewest hbelow
  exact .cons hnewest hbelow

/-- A repetition puts a loop in the place of its operand. -/
theorem allocate_loop_denotes {skip again : Bool} {x : Fragment}
    {wire : Fragment → Array State → Array State}
    (hwire : ∀ f states, wire f states = linkAll states (loopLinks skip again x f))
    (ha : Tiling states (x :: fs) (L :: Ls) states.size)
    (h : allocate limit states fs wire = .ok b) :
    b.Denotes (loopLanguage skip again L :: Ls) := by
  cases ha with
  | @cons lo _ _ _ _ _ hx hrest =>
    refine allocate_denotes hwire hrest h ?_ fun new f hstart haccept hnew => ?_
    · have hge := hx.start_ge
      have hlt := hx.start_lt
      have haccept := hx.accept_ge
      have hlast := hx.accept_last
      intro l hl
      rcases mem_loopLinks.mp hl with rfl | ⟨-, rfl⟩ | ⟨-, rfl⟩ | rfl
      all_goals
        simp only
        omega
    · exact hx.loop hstart haccept (fun s hs => edgesFrom_eq_nil hs) hnew

/-- An alternation puts a choice in the place of its operands. -/
theorem allocate_alt_denotes {x y : Fragment} {K : Language UInt8}
    (ha : Tiling states (y :: x :: fs) (L :: K :: Ls) states.size)
    (h : allocate limit states fs (wireAlt x y) = .ok b) : b.Denotes ((K + L) :: Ls) := by
  cases ha with
  | @cons mid _ _ _ _ _ hy hbelow =>
    cases hbelow with
    | @cons lo _ _ _ _ _ hx hrest =>
      refine allocate_denotes (wireAlt_eq x y) hrest h ?_ fun new f hstart haccept hnew => ?_
      · have hxge := hx.accept_ge
        have hxlast := hx.accept_last
        have hyge := hy.start_ge
        have hylt := hy.start_lt
        have hylast := hy.accept_last
        intro l hl
        rcases mem_altLinks.mp hl with rfl | rfl | rfl | rfl
        all_goals
          simp only
          omega
      · exact hx.alt hy hstart haccept (fun s hs => edgesFrom_eq_nil hs) hnew

/-- A concatenation joins the blocks of its operands. -/
theorem link_denotes {x y : Fragment} {K : Language UInt8}
    (ha : Tiling states (y :: x :: fs) (L :: K :: Ls) states.size) :
    Assembly.Denotes ⟨link states x.accept y.start, ⟨x.start, y.accept⟩ :: fs⟩ (K * L :: Ls) := by
  cases ha with
  | @cons mid _ _ _ _ _ hy hbelow =>
    cases hbelow with
    | @cons lo _ _ _ _ _ hx hrest =>
      have hxge := hx.accept_ge
      have hxlast := hx.accept_last
      have hyge := hy.start_ge
      have hylt := hy.start_lt
      have hsources : ∀ l ∈ [(x.accept, y.start)], l.1 < states.size := by
        intro l hl
        obtain rfl := List.mem_singleton.mp hl
        simp only
        omega
      have hnew : ∀ s, edgesFrom (link states x.accept y.start) s =
          edgesFrom states s ++ linksFrom [(x.accept, y.start)] s :=
        edgesFrom_linkAll hsources
      have hbelow : Tiling (link states x.accept y.start) fs Ls lo := by
        refine hrest.congr fun s hs => ?_
        rw [hnew, linksFrom_eq_nil, List.append_nil]
        intro l hl
        obtain rfl := List.mem_singleton.mp hl
        simp only
        omega
      have hsize : (link states x.accept y.start).size = states.size := size_addEdges ..
      rw [Assembly.Denotes, hsize]
      exact .cons (hx.concat hy rfl rfl hnew) hbelow

/-- A loop that may be skipped and repeated reads an iteration. -/
theorem loopLanguage_star (L : Language UInt8) : loopLanguage true true L = KStar.kstar L := by
  rw [loopLanguage, passes, if_pos rfl, if_pos rfl, add_comm]
  exact Language.one_add_self_mul_kstar_eq_kstar L

/-- A loop that may only be repeated reads an iteration that is not empty. -/
theorem loopLanguage_plus (L : Language UInt8) : loopLanguage false true L = L * KStar.kstar L := by
  rw [loopLanguage, passes, if_pos rfl, if_neg Bool.false_ne_true, add_zero]

/-- A loop that may only be skipped reads an option. -/
theorem loopLanguage_question (L : Language UInt8) : loopLanguage true false L = L + 1 := by
  rw [loopLanguage, passes, if_pos rfl, if_neg Bool.false_ne_true, mul_one]

/-- An operator does to the fragments what it does to the languages. -/
theorem Assembly.reduce_denotes {op : Operator} (ha : a.Denotes Ls)
    (h : a.reduce limit op = .ok b) : ∃ Ks, op.apply Ls = some Ks ∧ b.Denotes Ks := by
  obtain ⟨states, fs⟩ := a
  cases fs with
  | nil => cases op <;> cases h
  | cons x rest =>
    cases Ls with
    | nil => cases ha
    | cons L Ls =>
      cases op with
      | star =>
        refine ⟨_, rfl, ?_⟩
        rw [← loopLanguage_star]
        exact allocate_loop_denotes (wireStar_eq x) ha h
      | plus =>
        refine ⟨_, rfl, ?_⟩
        rw [← loopLanguage_plus]
        exact allocate_loop_denotes (wirePlus_eq x) ha h
      | question =>
        refine ⟨_, rfl, ?_⟩
        rw [← loopLanguage_question]
        exact allocate_loop_denotes (wireQuestion_eq x) ha h
      | concat =>
        cases rest with
        | nil => cases h
        | cons y rest =>
          cases Ls with
          | nil => cases ha with | cons _ hbelow => cases hbelow
          | cons K Ls =>
            refine ⟨_, rfl, ?_⟩
            rw [← Except.ok.inj h]
            exact link_denotes ha
      | alt =>
        cases rest with
        | nil => cases h
        | cons y rest =>
          cases Ls with
          | nil => cases ha with | cons _ hbelow => cases hbelow
          | cons K Ls =>
            refine ⟨_, rfl, ?_⟩
            exact allocate_alt_denotes ha h

/-- A token does to the fragments what it does to the languages. -/
theorem Assembly.push_denotes {t : Token} (ha : a.Denotes Ls) (h : a.push limit t = .ok b) :
    ∃ Ks, t.apply Ls = some Ks ∧ b.Denotes Ks := by
  cases t with
  | literal byte =>
    refine ⟨_, rfl, ?_⟩
    have hbytes : (fun x => x = byte) = fun x => x ∈ [byte] := by
      simp only [List.mem_singleton]
    rw [hbytes]
    exact Assembly.pushBytes_denotes ha h
  | charClass c =>
    refine ⟨_, rfl, ?_⟩
    have hbytes : (fun x => c.contains x = true) = fun x => x ∈ c.members := by
      simp only [ByteClass.mem_members]
    rw [hbytes]
    exact Assembly.pushBytes_denotes ha h
  | dot =>
    refine ⟨_, rfl, ?_⟩
    have hbytes : (fun x : UInt8 => x ≠ 0x0a) =
        fun x => x ∈ ByteClass.anyExceptNewline.members := by
      simp only [ByteClass.mem_members, ByteClass.contains_anyExceptNewline]
    rw [hbytes]
    exact Assembly.pushBytes_denotes ha h
  | op o => exact Assembly.reduce_denotes ha h
  | lparen =>
    refine ⟨Ls, rfl, ?_⟩
    rw [← Except.ok.inj h]
    exact ha
  | rparen =>
    refine ⟨Ls, rfl, ?_⟩
    rw [← Except.ok.inj h]
    exact ha

/-- A stream does to the fragments what it does to the languages. -/
theorem Assembly.pushAll_denotes {ts : List Token} (ha : a.Denotes Ls)
    (h : a.pushAll limit ts = .ok b) : ∃ Ks, denote ts Ls = some Ks ∧ b.Denotes Ks := by
  induction ts generalizing a Ls with
  | nil =>
    refine ⟨Ls, rfl, ?_⟩
    rw [← Except.ok.inj h]
    exact ha
  | cons t rest ih =>
    rw [Assembly.pushAll] at h
    cases hpush : a.push limit t with
    | error e =>
      rw [hpush] at h
      cases h
    | ok next =>
      rw [hpush] at h
      obtain ⟨Ms, happly, hnext⟩ := Assembly.push_denotes ha hpush
      obtain ⟨Ks, hrest, hb⟩ := ih hnext h
      refine ⟨Ks, ?_, hb⟩
      rw [denote, happly]
      exact hrest

/-- The automaton of a finished assembly is its only block, with every edge inside. -/
theorem Assembly.finish_paths {n : Nfa} (ha : a.Denotes Ls) (h : a.finish = .ok n) :
    ∃ L, Ls = [L] ∧ n.InRange ∧ ∀ w, Path n.states n.start w n.accept ↔ w ∈ L := by
  obtain ⟨states, fs⟩ := a
  rcases fs with - | ⟨f, - | ⟨g, rest⟩⟩
  · cases h
  · cases ha with
    | @cons lo _ _ L _ _ hblock hbelow =>
      cases hbelow with
      | nil =>
        obtain rfl := Except.ok.inj h
        have hlt := hblock.start_lt
        have hlast := hblock.accept_last
        have hmarked := hblock.congr fun s _ _ => edgesFrom_mark states f.accept s
        simp only at hlt hlast hmarked
        refine ⟨L, rfl, ⟨?_, ?_, ?_⟩, hmarked.reads⟩
        · rw [Nfa.size, Array.size_modify]
          exact hlt
        · rw [Nfa.size, Array.size_modify]
          simp only
          omega
        · intro s e he
          have hs := lt_size_of_mem_edgesFrom he
          rw [Nfa.size, Array.size_modify]
          rw [Array.size_modify] at hs
          exact (hmarked.stays s (Nat.zero_le s) hs e he).right
  · cases h

/-- A construction that succeeds leaves an automaton whose edges lead to its states, and
whose paths from start to accept spell the one language that the evaluation leaves. -/
theorem compile_paths {ts : List Token} {n : Nfa} (h : compile limit ts = .ok n) :
    ∃ L, denote ts [] = some [L] ∧ n.InRange ∧
      ∀ w, Path n.states n.start w n.accept ↔ w ∈ L := by
  unfold compile at h
  cases hrun : Assembly.empty.pushAll limit ts with
  | error e =>
    rw [hrun] at h
    cases h
  | ok a =>
    rw [hrun] at h
    have hempty : Assembly.empty.Denotes [] := Tiling.nil
    obtain ⟨Ls, hdenote, ha⟩ := Assembly.pushAll_denotes hempty hrun
    obtain ⟨L, rfl, hfinish⟩ := Assembly.finish_paths ha h
    exact ⟨L, hdenote, hfinish⟩

/-- Thompson's construction preserves meaning: whenever it succeeds, on whatever stream and
under whatever state limit, evaluating the stream leaves one language, and the automaton
recognizes that language. -/
theorem compile_recognizes (limit : Option Nat) (ts : List Token) (n : Nfa)
    (h : compile limit ts = .ok n) : ∃ L, denote ts [] = some [L] ∧ n.Recognizes L := by
  obtain ⟨L, hdenote, hrange, hpaths⟩ := compile_paths h
  exact ⟨L, hdenote, Nfa.recognizes_of_paths hrange hpaths⟩

/-- A star of a plus beside a byte, with a stray parenthesis, built within a limit of eight
states. -/
theorem star_of_plus_recognizes : ∃ n,
    compile (some 8) [.literal 0x61, .op .plus, .op .star, .rparen, .literal 0x62, .op .concat] =
      .ok n ∧
    ∃ L, denote [.literal 0x61, .op .plus, .op .star, .rparen, .literal 0x62, .op .concat] [] =
      some [L] ∧ n.Recognizes L :=
  ⟨_, rfl, compile_recognizes (some 8) _ _ rfl⟩

end Thompson

end ByteRegex
