import ByteRegex.Proofs.Legible
import Mathlib.Data.List.Basic
import Mathlib.Data.List.Pairwise

/-!
# The text of a class shows its maximal runs

The intervals of a class are the maximal runs of the bytes that it lists, in ascending order and
with at least one unlisted byte between neighbours. Bytes are compared as numbers, so a run up to
the last byte is a run like any other. The text of a class tells its kind and its intervals, because
a quoted byte is legible wherever it stands, even if it is a caret, a hyphen, an apostrophe or a
comma. Classes with one text are therefore equal.
-/

namespace ByteRegex

open Text

namespace Byte

/-- The byte lies in the interval. -/
def Interval.Covers (i : Interval) (b : UInt8) : Prop := i.first ≤ b ∧ b ≤ i.last

/-- The interval is a maximal run of bytes with the property: it cannot be extended on either side.
-/
structure Interval.IsRun (i : Interval) (p : UInt8 → Prop) : Prop where
  /-- The ends are in order. -/
  ordered : i.first ≤ i.last
  /-- Its bytes have the property. -/
  inside : ∀ b, i.Covers b → p b
  /-- The byte in front of it, if there is one, does not. -/
  before : ∀ b : UInt8, b.toNat + 1 = i.first.toNat → ¬ p b
  /-- The byte behind it, if there is one, does not. -/
  behind : ∀ b : UInt8, b.toNat = i.last.toNat + 1 → ¬ p b

/-- The first interval lies in front of the second, and there is a byte between them. -/
def Interval.Apart (i j : Interval) : Prop := i.last.toNat + 1 < j.first.toNat

/-- The intervals cut the bytes with a property into pieces that are apart. -/
structure Cuts (is : List Interval) (p : UInt8 → Prop) : Prop where
  /-- The ends of each interval are in order. -/
  ordered : ∀ i ∈ is, i.first ≤ i.last
  /-- Earlier intervals lie in front of later ones. -/
  apart : is.Pairwise Interval.Apart
  /-- The bytes with the property are those in the intervals. -/
  covers : ∀ b, p b ↔ ∃ i ∈ is, i.Covers b

variable {i j : Interval} {is : List Interval} {p : UInt8 → Prop} {b c : UInt8}

/-- Covering a byte in numbers. -/
theorem Interval.covers_iff : i.Covers b ↔ i.first.toNat ≤ b.toNat ∧ b.toNat ≤ i.last.toNat := by
  rw [Covers, UInt8.le_iff_toNat_le, UInt8.le_iff_toNat_le]

/-- Joining the byte in front to an interval adds that byte. -/
theorem Interval.covers_joined (hordered : i.first ≤ i.last) (h : b.toNat + 1 = i.first.toNat) :
    (Interval.mk b i.last).Covers c ↔ c = b ∨ i.Covers c := by
  rw [UInt8.le_iff_toNat_le] at hordered
  simp only [covers_iff, ← UInt8.toNat_inj]
  omega

/-- An interval of one byte covers that byte. -/
theorem Interval.covers_single : (Interval.mk b b).Covers c ↔ c = b := by
  simp only [covers_iff, ← UInt8.toNat_inj]
  omega

/-- An interval covers its first byte. -/
theorem Interval.covers_first (h : i.first ≤ i.last) : i.Covers i.first := ⟨UInt8.le_refl _, h⟩

/-- An interval covers its last byte. -/
theorem Interval.covers_last (h : i.first ≤ i.last) : i.Covers i.last := ⟨h, UInt8.le_refl _⟩

/-- One more byte in front is cut off from the intervals behind it, or joined to the first of them.
-/
theorem Cuts.cons {l : List UInt8} (h : Cuts (intervals l) (· ∈ l)) (hb : ∀ x ∈ l, b < x) :
    Cuts (intervals (b :: l)) (· ∈ b :: l) := by
  rw [intervals]
  cases his : intervals l with
  | nil =>
    have hnone : ∀ c, c ∉ l := by
      intro c hc
      obtain ⟨i, hi, -⟩ := (h.covers c).mp hc
      rw [his] at hi
      exact List.not_mem_nil hi
    refine ⟨?_, List.pairwise_singleton _ _, fun c => ?_⟩
    · simp
    · simp [hnone, Interval.covers_single]
  | cons i later =>
    rw [his] at h
    have hordered : i.first ≤ i.last := h.ordered i List.mem_cons_self
    have hfirst : i.first ∈ l :=
      (h.covers _).mpr ⟨i, List.mem_cons_self, Interval.covers_first hordered⟩
    have hlt := UInt8.lt_iff_toNat_lt.mp (hb _ hfirst)
    have hle := UInt8.le_iff_toNat_le.mp hordered
    obtain ⟨hi, hlater⟩ := List.pairwise_cons.mp h.apart
    dsimp only
    split
    case isTrue hnext =>
      refine ⟨?_, List.pairwise_cons.mpr ⟨hi, hlater⟩, fun c => ?_⟩
      · intro j hj
        rcases List.mem_cons.mp hj with rfl | hj
        · exact UInt8.le_iff_toNat_le.mpr (Nat.le_trans (Nat.le_of_lt hlt) hle)
        · exact h.ordered j (List.mem_cons_of_mem _ hj)
      · rw [List.mem_cons, h.covers, List.exists_mem_cons_iff, List.exists_mem_cons_iff,
          Interval.covers_joined hordered hnext, or_assoc]
    case isFalse hnext =>
      refine ⟨?_, List.pairwise_cons.mpr ⟨?_, h.apart⟩, fun c => ?_⟩
      · intro j hj
        rcases List.mem_cons.mp hj with rfl | hj
        · exact UInt8.le_refl _
        · exact h.ordered j hj
      · intro j hj
        show b.toNat + 1 < j.first.toNat
        rcases List.mem_cons.mp hj with rfl | hj
        · omega
        · have hapart : i.last.toNat + 1 < j.first.toNat := hi j hj
          omega
      · rw [List.mem_cons, h.covers, List.exists_mem_cons_iff _ (Interval.mk b b),
          Interval.covers_single]

/-- An ascending list is cut into its intervals. -/
theorem cuts_intervals {l : List UInt8} (h : l.Pairwise (· < ·)) :
    Cuts (intervals l) (· ∈ l) := by
  induction l with
  | nil => exact ⟨by simp [intervals], .nil, by simp [intervals]⟩
  | cons b l ih =>
    obtain ⟨hb, hl⟩ := List.pairwise_cons.mp h
    exact (ih hl).cons hb

/-- Intervals that cover one byte, or two bytes next to each other, are one interval. -/
theorem Cuts.eq_of_near (h : Cuts is p) (hi : i ∈ is) (hj : j ∈ is) (hb : i.Covers b)
    (hc : j.Covers c) (hbc : b.toNat ≤ c.toNat + 1) (hcb : c.toNat ≤ b.toNat + 1) : i = j := by
  by_contra hne
  have hapart : i.Apart j ∨ j.Apart i := by
    have : Std.Symm fun i j : Interval => i.Apart j ∨ j.Apart i := ⟨fun _ _ => Or.symm⟩
    have heither : is.Pairwise fun i j => i.Apart j ∨ j.Apart i := h.apart.imp Or.inl
    exact heither.forall hi hj hne
  rw [Interval.covers_iff] at hb hc
  rw [Interval.Apart, Interval.Apart] at hapart
  omega

/-- The intervals are maximal runs. -/
theorem Cuts.isRun (h : Cuts is p) (hi : i ∈ is) : i.IsRun p where
  ordered := h.ordered i hi
  inside b hb := (h.covers b).mpr ⟨i, hi, hb⟩
  before b hb hp := by
    obtain ⟨j, hj, hcovers⟩ := (h.covers b).mp hp
    have hfirst := Interval.covers_first (h.ordered i hi)
    obtain rfl := h.eq_of_near hi hj hfirst hcovers (by omega) (by omega)
    rw [Interval.covers_iff] at hcovers
    omega
  behind b hb hp := by
    obtain ⟨j, hj, hcovers⟩ := (h.covers b).mp hp
    have hlast := Interval.covers_last (h.ordered i hi)
    obtain rfl := h.eq_of_near hi hj hlast hcovers (by omega) (by omega)
    rw [Interval.covers_iff] at hcovers
    omega

/-- The numbers below 256 are those of bytes. -/
theorem exists_toNat_eq {n : Nat} (h : n < 256) : ∃ b : UInt8, b.toNat = n :=
  ⟨UInt8.ofNat n, UInt8.toNat_ofNat_of_lt' h⟩

/-- Of two runs with a byte in common, one does not begin behind the other. -/
theorem Interval.IsRun.first_le (hi : i.IsRun p) (hj : j.IsRun p) (hb : i.Covers b)
    (hc : j.Covers b) : j.first.toNat ≤ i.first.toNat := by
  by_contra hlt
  obtain ⟨x, hx⟩ := exists_toNat_eq (n := j.first.toNat - 1) (by have := j.first.toNat_lt; omega)
  rw [covers_iff] at hb hc
  have hcovers : i.Covers x := covers_iff.mpr (by omega)
  exact hj.before x (by omega) (hi.inside x hcovers)

/-- Of two runs with a byte in common, one does not end in front of the other. -/
theorem Interval.IsRun.le_last (hi : i.IsRun p) (hj : j.IsRun p) (hb : i.Covers b)
    (hc : j.Covers b) : i.last.toNat ≤ j.last.toNat := by
  by_contra hlt
  obtain ⟨x, hx⟩ := exists_toNat_eq (n := j.last.toNat + 1) (by have := i.last.toNat_lt; omega)
  rw [covers_iff] at hb hc
  have hcovers : i.Covers x := covers_iff.mpr (by omega)
  exact hj.behind x hx (hi.inside x hcovers)

/-- Runs that have a byte in common are one run. -/
theorem Interval.IsRun.eq (hi : i.IsRun p) (hj : j.IsRun p) (hb : i.Covers b) (hc : j.Covers b) :
    i = j := by
  have hfirst := Nat.le_antisymm (hj.first_le hi hc hb) (hi.first_le hj hb hc)
  have hlast := Nat.le_antisymm (hi.le_last hj hb hc) (hj.le_last hi hc hb)
  cases i
  cases j
  exact congrArg₂ Interval.mk (UInt8.toNat_inj.mp hfirst) (UInt8.toNat_inj.mp hlast)

/-- The intervals are all maximal runs. -/
theorem Cuts.mem_iff (h : Cuts is p) : i ∈ is ↔ i.IsRun p := by
  refine ⟨h.isRun, fun hi => ?_⟩
  have hfirst := Interval.covers_first hi.ordered
  obtain ⟨j, hj, hcovers⟩ := (h.covers i.first).mp (hi.inside _ hfirst)
  rwa [hi.eq (h.isRun hj) hfirst hcovers]

/-- An interval is legible before anything but a hyphen. -/
theorem Interval.legible_text : Legible (NotBefore (· == '-')) Interval.text := by
  intro i j r s hr hs h
  obtain ⟨a, a'⟩ := i
  obtain ⟨b, b'⟩ := j
  simp only [text] at h
  split at h
  case isTrue ha =>
    split at h
    case isTrue hb =>
      obtain ⟨rfl, hrest⟩ := legible_quoted trivial trivial h
      exact ⟨by rw [← ha, ← hb], hrest⟩
    case isFalse hb =>
      simp only [String.toList_append, List.append_assoc] at h
      obtain ⟨-, hrest⟩ := legible_quoted trivial trivial h
      rw [hrest] at hr
      exact absurd (notBefore_cons.mp hr) (by decide)
  case isFalse ha =>
    simp only [String.toList_append, List.append_assoc] at h
    split at h
    case isTrue hb =>
      obtain ⟨-, hrest⟩ := legible_quoted trivial trivial h
      rw [← hrest] at hs
      exact absurd (notBefore_cons.mp hs) (by decide)
    case isFalse hb =>
      simp only [String.toList_append, List.append_assoc] at h
      obtain ⟨rfl, hbehind⟩ := legible_quoted trivial trivial h
      obtain ⟨rfl, hrest⟩ := legible_quoted trivial trivial (List.append_cancel_left hbehind)
      exact ⟨rfl, hrest⟩

/-- An interval that is not the first of a class, with the separator in front. -/
def Interval.furtherText (i : Interval) : String := ", " ++ i.text

/-- Further intervals are legible before anything but a hyphen. -/
theorem Interval.legible_furtherText : Legible (NotBefore (· == '-')) furtherText := by
  intro i j r s hr hs h
  simp only [furtherText, String.toList_append, List.append_assoc] at h
  exact legible_text hr hs (List.append_cancel_left h)

/-- The intervals of a class behind each other. -/
def listText (is : List Interval) : String := ", ".intercalate (is.map Interval.text)

/-- The first interval of a class stands in front of the further ones. -/
theorem toList_listText_cons (i : Interval) (is : List Interval) :
    (listText (i :: is)).toList = i.text.toList ++ (writeRow Interval.furtherText is).toList := by
  induction is generalizing i with
  | nil => simp [listText, writeRow]
  | cons j is ih =>
    have htail := ih j
    rw [listText, List.map_cons] at htail
    rw [listText, List.map_cons, List.map_cons, String.intercalate_cons_cons, String.append_assoc,
      String.toList_append, String.toList_append, htail, toList_writeRow_cons,
      Interval.furtherText, String.toList_append, List.append_assoc]

/-- The end of the text of a class. -/
def closing : List Char := "])".toList

/-- An interval begins with an apostrophe. -/
theorem Interval.exists_text_eq (i : Interval) : ∃ t, i.text.toList = '\'' :: t := by
  rw [text, quoted, quoteChar]
  split
  · rw [String.append_assoc, String.toList_append]
    exact ⟨_, rfl⟩
  · rw [String.append_assoc, String.append_assoc, String.append_assoc, String.toList_append]
    exact ⟨_, rfl⟩

/-- What follows the first interval of a class is no hyphen. -/
theorem notBefore_furtherTexts (is : List Interval) :
    NotBefore (· == '-') ((writeRow Interval.furtherText is).toList ++ closing) := by
  cases is with
  | nil => exact notBefore_cons.mpr (by decide)
  | cons i is =>
    rw [toList_writeRow_cons, Interval.furtherText, String.toList_append]
    exact notBefore_cons.mpr (by decide)

/-- The intervals of a class are told by their text. -/
theorem listText_inj {is js : List Interval}
    (h : (listText is).toList ++ closing = (listText js).toList ++ closing) : is = js := by
  have hempty : ∀ (i : Interval) (is : List Interval),
      (listText []).toList ++ closing ≠ (listText (i :: is)).toList ++ closing := by
    intro i is h
    obtain ⟨t, ht⟩ := i.exists_text_eq
    rw [toList_listText_cons, ht] at h
    exact absurd (List.cons.inj h).left (by decide)
  have hclosing : NotBefore (· == '-') closing ∧
      ∀ (i : Interval) t, closing ≠ i.furtherText.toList ++ t := by
    refine ⟨notBefore_cons.mpr (by decide), fun i t h => ?_⟩
    rw [Interval.furtherText, String.toList_append] at h
    exact absurd (List.cons.inj h).left (by decide)
  have hcomma : ∀ (i : Interval) r, NotBefore (· == '-') (i.furtherText.toList ++ r) := by
    intro i r
    rw [Interval.furtherText, String.toList_append]
    exact notBefore_cons.mpr (by decide)
  cases is with
  | nil =>
    cases js with
    | nil => rfl
    | cons j js => exact absurd h (hempty j js)
  | cons i is =>
    cases js with
    | nil => exact absurd h.symm (hempty i is)
    | cons j js =>
      rw [toList_listText_cons, toList_listText_cons, List.append_assoc, List.append_assoc] at h
      obtain ⟨rfl, hfurther⟩ :=
        Interval.legible_text (notBefore_furtherTexts is) (notBefore_furtherTexts js) h
      obtain ⟨rfl, -⟩ := Interval.legible_furtherText.row hcomma hclosing hclosing hfurther
      rfl

/-- The text of the intervals does not begin with a caret, even if a caret is the first byte. -/
theorem listText_ne_caret (is : List Interval) (t : List Char) :
    (listText is).toList ++ closing ≠ '^' :: t := by
  intro h
  cases is with
  | nil => exact absurd (List.cons.inj h).left (by decide)
  | cons i is =>
    obtain ⟨text, htext⟩ := i.exists_text_eq
    rw [toList_listText_cons, htext] at h
    exact absurd (List.cons.inj h).left (by decide)

end Byte

namespace ByteClass

open Byte

variable {c d : ByteClass}

/-- A byte is listed when it matches and the class is plain, or when it does not and the class is
negated. -/
theorem lists_iff (c : ByteClass) (b : UInt8) : c.lists b = true ↔ c.contains b ≠ c.negated := by
  rw [contains]
  cases c.lists b <;> cases c.negated <;> simp

/-- The intervals of a class cut its listed bytes. -/
theorem cuts_listing (c : ByteClass) :
    Cuts (intervals c.listing) (fun b => c.contains b ≠ c.negated) := by
  have hcuts := cuts_intervals c.listing_ascending
  simpa only [mem_listing, lists_iff] using hcuts

/-- How the text of a class shows its kind. -/
def kindMark : Bool → List Char
  | false => []
  | true => ['^']

/-- The parts of the text of a class. -/
theorem toList_text (c : ByteClass) : c.text.toList = "ByteClass([".toList ++
    (kindMark c.negated ++ ((listText (intervals c.listing)).toList ++ closing)) := by
  have hmark : (if c.negated then "^" else "").toList = kindMark c.negated := by
    cases c.negated <;> rfl
  unfold text
  rw [← hmark, listText, closing]
  simp only [String.toList_append, List.append_assoc]

/-- The kind is told by its mark, because no interval begins with a caret. -/
theorem kindMark_inj {a b : Bool} {is js : List Interval}
    (h : kindMark a ++ ((listText is).toList ++ closing) =
      kindMark b ++ ((listText js).toList ++ closing)) : a = b ∧ is = js := by
  cases a with
  | false =>
    cases b with
    | false => exact ⟨rfl, listText_inj h⟩
    | true => exact absurd h (listText_ne_caret is _)
  | true =>
    cases b with
    | false => exact absurd h.symm (listText_ne_caret js _)
    | true => exact ⟨rfl, listText_inj (List.cons.inj h).right⟩

/-- Classes are equal just when their texts are. -/
theorem text_eq_iff : c.text = d.text ↔ c = d := by
  refine ⟨fun h => ?_, fun h => congrArg text h⟩
  have htext := congrArg String.toList h
  rw [toList_text, toList_text] at htext
  obtain ⟨hkind, hintervals⟩ := kindMark_inj (List.append_cancel_left htext)
  refine eq_of_lists hkind fun b => ?_
  rw [Bool.eq_iff_iff, lists_iff, lists_iff, c.cuts_listing.covers, d.cuts_listing.covers, hintervals]

/-- A run that ends at the last byte is there when that byte is listed. -/
theorem exists_last_iff (c : ByteClass) : (∃ i ∈ intervals c.listing, i.last = 0xff) ↔
    c.contains 0xff ≠ c.negated := by
  constructor
  · rintro ⟨i, hi, hlast⟩
    refine (c.cuts_listing.covers _).mpr ⟨i, hi, ?_⟩
    rw [← hlast]
    exact Interval.covers_last (c.cuts_listing.ordered i hi)
  · intro hlisted
    obtain ⟨i, hi, hcovers⟩ := (c.cuts_listing.covers _).mp hlisted
    refine ⟨i, hi, ?_⟩
    have hlt := i.last.toNat_lt
    have hle := UInt8.le_iff_toNat_le.mp hcovers.right
    have hlast : (0xff : UInt8).toNat = 255 := rfl
    rw [← UInt8.toNat_inj]
    omega

/-- The text of a class shows the maximal runs of the bytes that match, or of those that do not if
the class is negated. They stand in ascending order with a byte between any two of them, and a run
that ends at the last byte is among them when that byte is listed. Classes have one text just when
they are equal. -/
theorem text_shows_runs :
    (∀ c : ByteClass, ∃ runs : List Interval,
      c.text = "ByteClass([" ++ (if c.negated then "^" else "")
        ++ ", ".intercalate (runs.map Interval.text) ++ "])" ∧
      (∀ i, i ∈ runs ↔ i.IsRun fun b => c.contains b ≠ c.negated) ∧
      runs.Pairwise Interval.Apart ∧
      ((∃ i ∈ runs, i.last = 0xff) ↔ c.contains 0xff ≠ c.negated)) ∧
    ∀ c d : ByteClass, c.text = d.text ↔ c = d :=
  ⟨fun c => ⟨intervals c.listing, by unfold text; rfl, fun _ => c.cuts_listing.mem_iff,
    c.cuts_listing.apart, c.exists_last_iff⟩, fun _ _ => text_eq_iff⟩

/-- A caret, an apostrophe and a hyphen among the members of a negated class. -/
example : (ByteClass.full.insertMany [0x5e, 0x27, 0x2d, 0x2c, 0xff]).text =
    "ByteClass([^'\\'', ','-'-', '^', 'ÿ'])" := by
  decide +kernel

end ByteClass

end ByteRegex
