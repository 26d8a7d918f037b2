import ByteRegex.ByteClass.Printer
import Mathlib.Data.List.TakeWhile
import Mathlib.Logic.Function.Basic

/-!
# Texts that can be told apart from what follows them

A dump or a class text is put together from numerals, escaped bytes and quoted characters of
different widths, without a mark at the end of each. It can be taken apart again because each part
is legible: from the text that begins with it, both the value that was written and the text behind
it can be told. Numerals are so before anything but a digit, escapes before everything. A row of
legible values is legible before what cannot be taken for one more of them.
-/

namespace ByteRegex.Text

variable {α : Type} {follows : List Char → Prop} {write : α → String}

/-- Before texts that may follow, two written values that begin the same text are one value, with
the same text behind it. -/
def Legible (follows : List Char → Prop) (write : α → String) : Prop :=
  ∀ ⦃a b : α⦄ ⦃r s : List Char⦄, follows r → follows s →
    (write a).toList ++ r = (write b).toList ++ s → a = b ∧ r = s

/-- Every text may follow. -/
def Anything : List Char → Prop := fun _ => True

/-- The text does not begin with such a character. -/
def NotBefore (p : Char → Bool) (r : List Char) : Prop := ∀ c ∈ r.head?, p c = false

/-- A text that ends, or goes on with another character. -/
theorem notBefore_cons {p : Char → Bool} {c : Char} {r : List Char} :
    NotBefore p (c :: r) ↔ p c = false := by
  simp [NotBefore]

/-- The longest part in front whose characters have a property. -/
theorem append_inj_of_notBefore {p : Char → Bool} {l m r s : List Char} (hl : ∀ c ∈ l, p c = true)
    (hm : ∀ c ∈ m, p c = true) (hr : NotBefore p r) (hs : NotBefore p s) (h : l ++ r = m ++ s) :
    l = m ∧ r = s := by
  have hstop : ∀ {t}, NotBefore p t → t.takeWhile p = [] := by
    intro t ht
    cases t with
    | nil => rfl
    | cons c t =>
      rw [notBefore_cons] at ht
      simp [ht]
  have hparts := congrArg (List.takeWhile p) h
  rw [List.takeWhile_append_of_pos hl, List.takeWhile_append_of_pos hm, hstop hr, hstop hs,
    List.append_nil, List.append_nil] at hparts
  rw [hparts] at h
  exact ⟨hparts, List.append_cancel_left h⟩

/-- Decimal numerals are legible before anything but a digit. -/
theorem legible_repr : Legible (NotBefore Char.isDigit) Nat.repr := by
  intro m n r s hr hs h
  have hdigits : ∀ n : Nat, ∀ c ∈ Nat.toDigits 10 n, c.isDigit = true := by
    intro n c hc
    exact Nat.isDigit_of_mem_toDigits (by decide) (by decide) hc
  rw [Nat.repr_eq_ofList_toDigits, Nat.repr_eq_ofList_toDigits, String.toList_ofList,
    String.toList_ofList] at h
  obtain ⟨hrepr, hrest⟩ := append_inj_of_notBefore (hdigits m) (hdigits n) hr hs h
  have hvalue : m = n := calc
    m = Nat.ofDigitChars 10 (Nat.toDigits 10 m) 0 := Nat.ofDigitChars_ten_toDigits.symm
    _ = Nat.ofDigitChars 10 (Nat.toDigits 10 n) 0 := by rw [hrepr]
    _ = n := Nat.ofDigitChars_ten_toDigits
  exact ⟨hvalue, hrest⟩

/-- The values of a row, one written behind the other. -/
def writeRow (write : α → String) (as : List α) : String := String.join (as.map write)

/-- The first value of a row stands in front of the others. -/
theorem toList_writeRow_cons (a : α) (as : List α) :
    (writeRow write (a :: as)).toList = (write a).toList ++ (writeRow write as).toList := by
  rw [writeRow, List.map_cons, String.join_cons, String.toList_append, writeRow]

/-- A row of legible values, each of which may follow another, is legible before what may follow
them and does not begin with one more. Whatever stands behind the first value may follow it, be it
the next value or what follows the row. -/
theorem Legible.row (h : Legible follows write)
    (hwrite : ∀ a r, follows ((write a).toList ++ r)) :
    Legible (fun r => follows r ∧ ∀ a t, r ≠ (write a).toList ++ t) (writeRow write) := by
  intro as bs r s ⟨hr, hrend⟩ ⟨hs, hsend⟩ heq
  have hfollows : ∀ {cs : List α} {t}, follows t → follows ((writeRow write cs).toList ++ t) := by
    intro cs t ht
    cases cs with
    | nil => exact ht
    | cons c cs =>
      rw [toList_writeRow_cons, List.append_assoc]
      exact hwrite c _
  induction as generalizing bs with
  | nil =>
    cases bs with
    | nil => exact ⟨rfl, heq⟩
    | cons b bs =>
      rw [toList_writeRow_cons, List.append_assoc] at heq
      exact absurd heq (hrend b _)
  | cons a as ih =>
    cases bs with
    | nil =>
      rw [toList_writeRow_cons, List.append_assoc] at heq
      exact absurd heq.symm (hsend a _)
    | cons b bs =>
      rw [toList_writeRow_cons, toList_writeRow_cons, List.append_assoc, List.append_assoc] at heq
      obtain ⟨rfl, htail⟩ := h (hfollows hr) (hfollows hs) heq
      obtain ⟨rfl, hrest⟩ := ih htail
      exact ⟨rfl, hrest⟩

/-- How a value is written by escapes: as a character of its own, as a backslash with a letter, or
as a backslash with a mark and a code. -/
inductive Escaped (plain : α → Char) (letters : List (α × Char)) (mark : Char) (code : α → String)
    (a : α) : List Char → Prop
  /-- A character that stands for itself. -/
  | plain : plain a ≠ '\\' → Escaped plain letters mark code a [plain a]
  /-- A letter from the table. -/
  | letter {c : Char} : (a, c) ∈ letters → Escaped plain letters mark code a ['\\', c]
  /-- The code that every value has. -/
  | code : Escaped plain letters mark code a ('\\' :: mark :: (code a).toList)

/-- Escapes are legible before everything if no character stands for two values, no letter stands
for two values or is the mark, and the codes are legible. The first character tells a plain one from
an escape, and the second one the kinds of escape. -/
theorem Legible.ofEscaped {plain : α → Char} {letters : List (α × Char)} {mark : Char}
    {code : α → String} (hplain : Function.Injective plain)
    (hletters : ∀ p ∈ letters, ∀ q ∈ letters, p.2 = q.2 → p.1 = q.1)
    (hmark : ∀ p ∈ letters, p.2 ≠ mark) (hcode : Legible Anything code)
    (hwrite : ∀ a, Escaped plain letters mark code a (write a).toList) :
    Legible Anything write := by
  intro a b r s _ _ h
  have ha := hwrite a
  have hb := hwrite b
  generalize (write a).toList = text at ha h
  generalize (write b).toList = text' at hb h
  cases ha with
  | plain hplaina =>
    cases hb with
    | plain _ =>
      obtain ⟨hchar, hrest⟩ := List.cons.inj h
      exact ⟨hplain hchar, hrest⟩
    | letter _ => exact absurd (List.cons.inj h).left hplaina
    | code => exact absurd (List.cons.inj h).left hplaina
  | @letter c hc =>
    cases hb with
    | plain hplainb => exact absurd (List.cons.inj h).left.symm hplainb
    | letter hd =>
      obtain ⟨hchar, hrest⟩ := List.cons.inj (List.cons.inj h).right
      exact ⟨hletters _ hc _ hd hchar, hrest⟩
    | code => exact absurd (List.cons.inj (List.cons.inj h).right).left (hmark _ hc)
  | code =>
    cases hb with
    | plain hplainb => exact absurd (List.cons.inj h).left.symm hplainb
    | letter hd => exact absurd (List.cons.inj (List.cons.inj h).right).left.symm (hmark _ hd)
    | code => exact hcode trivial trivial (List.cons.inj (List.cons.inj h).right).right

/-- Sixteen digits are told apart by their characters. -/
theorem digitChar_inj {m n : Nat} (hm : m < 16) (hn : n < 16)
    (h : m.digitChar = n.digitChar) : m = n := by
  have hall : ∀ m < 16, ∀ n < 16, Nat.digitChar m = Nat.digitChar n → m = n := by decide
  exact hall m hm n hn h

/-- Hexadecimal numerals are made of digits. -/
theorem exists_digit_of_mem_toDigits {c : Char} {n : Nat} (h : c ∈ Nat.toDigits 16 n) :
    ∃ d, c = Nat.digitChar d := by
  induction n using Nat.strongRecOn with
  | _ n ih =>
    rw [Nat.toDigits_eq_if (by decide)] at h
    split at h
    · exact ⟨n, List.mem_singleton.mp h⟩
    · rcases List.mem_append.mp h with hfront | hlast
      · exact ih (n / 16) (by omega) hfront
      · exact ⟨n % 16, List.mem_singleton.mp hlast⟩

/-- Numbers are told apart by their hexadecimal numerals. -/
theorem toDigits_inj {m n : Nat} (h : Nat.toDigits 16 m = Nat.toDigits 16 n) : m = n := by
  induction m using Nat.strongRecOn generalizing n with
  | _ m ih =>
    rw [Nat.toDigits_eq_if (by decide), Nat.toDigits_eq_if (n := n) (by decide)] at h
    split at h
    · split at h
      · exact digitChar_inj ‹_› ‹_› (List.cons.inj h).left
      · have hlength := congrArg List.length h
        have hpos : 0 < (Nat.toDigits 16 (n / 16)).length := Nat.length_toDigits_pos
        simp only [List.length_singleton, List.length_append] at hlength
        omega
    · split at h
      · have hlength := congrArg List.length h
        have hpos : 0 < (Nat.toDigits 16 (m / 16)).length := Nat.length_toDigits_pos
        simp only [List.length_singleton, List.length_append] at hlength
        omega
      · obtain ⟨hfront, hlast⟩ := List.append_inj' h rfl
        have hquotient := ih (m / 16) (by omega) hfront
        have hdigit := digitChar_inj (by omega) (by omega) (List.cons.inj hlast).left
        omega

/-- The characters that are quoted by a letter. -/
def quoteLetters : List (Char × Char) :=
  [('\x00', '0'), ('\t', 't'), ('\n', 'n'), ('\r', 'r'), ('\\', '\\'), ('\'', '\'')]

/-- The number of a character between braces. -/
def bracedNumber (c : Char) : String :=
  "\x7b" ++ String.ofList (Nat.toDigits 16 c.toNat) ++ "\x7d"

/-- The closing brace ends the number. -/
theorem legible_bracedNumber : Legible Anything bracedNumber := by
  intro c d r s _ _ h
  have hdigits : ∀ c : Char, ∀ x ∈ Nat.toDigits 16 c.toNat, (x != '\x7d') = true := by
    intro c x hx
    obtain ⟨d, rfl⟩ := exists_digit_of_mem_toDigits hx
    exact bne_iff_ne.mpr (Nat.digitChar_ne _ (by decide))
  simp only [bracedNumber, String.toList_append, String.toList_ofList, List.append_assoc] at h
  obtain ⟨hnumber, hrest⟩ := append_inj_of_notBefore (hdigits c) (hdigits d)
    (notBefore_cons.mpr (by decide)) (notBefore_cons.mpr (by decide)) (List.cons.inj h).right
  exact ⟨Char.toNat_inj.mp (toDigits_inj hnumber), (List.cons.inj hrest).right⟩

/-- Between apostrophes, every character is written by one of the escapes. -/
theorem escaped_escapeChar (c : Char) :
    Escaped id quoteLetters 'u' bracedNumber c (escapeChar '\'' c).toList := by
  rw [escapeChar]
  split_ifs with hnul htab hfeed hreturn hbackslash hquote hhidden
  · exact .letter (c := '0') (by simp [quoteLetters, hnul])
  · exact .letter (c := 't') (by simp [quoteLetters, htab])
  · exact .letter (c := 'n') (by simp [quoteLetters, hfeed])
  · exact .letter (c := 'r') (by simp [quoteLetters, hreturn])
  · exact .letter (c := '\\') (by simp [quoteLetters, hbackslash])
  · rw [String.toList_ofList]
    exact .letter (by simp [quoteLetters, hquote])
  · rw [String.append_assoc, String.toList_append]
    have hcode : Escaped id quoteLetters 'u' bracedNumber c _ := .code
    rw [bracedNumber, String.append_assoc, String.toList_append] at hcode
    exact hcode
  · rw [String.toList_singleton]
    exact .plain hbackslash

/-- Quoted characters are legible before everything. -/
theorem legible_quoteChar : Legible Anything quoteChar := by
  have hescape : Legible Anything (escapeChar '\'') :=
    .ofEscaped Function.injective_id (by decide) (by decide) legible_bracedNumber escaped_escapeChar
  intro c d r s _ _ h
  simp only [quoteChar, String.toList_append, List.append_assoc] at h
  obtain ⟨rfl, hrest⟩ := hescape trivial trivial (List.cons.inj h).right
  exact ⟨rfl, (List.cons.inj hrest).right⟩

end ByteRegex.Text

namespace ByteRegex.Byte

open Text

/-- The characters with the numbers of the bytes. -/
theorem toChar_injective : Function.Injective toChar := by
  have hnumber : ∀ b : UInt8, (toChar b).toNat = b.toNat := by
    intro b
    have hb : b.toNat < 256 := b.toNat_lt
    have hvalid : b.toNat.isValidChar := .inl (by omega)
    rw [toChar, Char.ofNat, dif_pos hvalid]
    rfl
  intro a b h
  have hnumbers := congrArg Char.toNat h
  rw [hnumber, hnumber] at hnumbers
  exact UInt8.toNat_inj.mp hnumbers

/-- The bytes that are escaped by a letter. -/
def escapeLetters : List (UInt8 × Char) :=
  [(0x09, 't'), (0x0a, 'n'), (0x0d, 'r'), (0x22, '"'), (0x27, '\''), (0x5c, '\\')]

/-- Two hexadecimal digits tell the byte. -/
theorem legible_hexDigits : Legible Anything hexDigits := by
  intro a b r s _ _ h
  have ha : a.toNat < 256 := a.toNat_lt
  have hb : b.toNat < 256 := b.toNat_lt
  simp only [hexDigits, String.toList_ofList, List.cons_append, List.nil_append, List.cons.injEq] at h
  obtain ⟨hhigh, hlow, hrest⟩ := h
  have hquotient := digitChar_inj (by omega) (by omega) hhigh
  have hremainder := digitChar_inj (by omega) (by omega) hlow
  have hbyte : a.toNat = b.toNat := by omega
  exact ⟨UInt8.toNat_inj.mp hbyte, hrest⟩

/-- Every byte is written by one of the escapes. -/
theorem escaped_escaped (b : UInt8) :
    Escaped toChar escapeLetters 'x' hexDigits b (escaped b).toList := by
  rw [escaped]
  split_ifs with htab hfeed hreturn hdouble hsingle hbackslash hprintable
  · exact .letter (c := 't') (by simp [escapeLetters, htab])
  · exact .letter (c := 'n') (by simp [escapeLetters, hfeed])
  · exact .letter (c := 'r') (by simp [escapeLetters, hreturn])
  · exact .letter (c := '"') (by simp [escapeLetters, hdouble])
  · exact .letter (c := '\'') (by simp [escapeLetters, hsingle])
  · exact .letter (c := '\\') (by simp [escapeLetters, hbackslash])
  · rw [String.toList_singleton]
    refine .plain fun hchar => hbackslash ?_
    exact toChar_injective hchar
  · rw [String.toList_append]
    exact .code

/-- Escaped bytes are legible before everything. -/
theorem legible_escaped : Legible Anything escaped :=
  .ofEscaped toChar_injective (by decide) (by decide) legible_hexDigits escaped_escaped

/-- Quoted bytes are legible before everything. -/
theorem legible_quoted : Legible Anything quoted := by
  intro a b r s _ _ h
  obtain ⟨hchar, hrest⟩ := legible_quoteChar trivial trivial h
  exact ⟨toChar_injective hchar, hrest⟩

end ByteRegex.Byte
