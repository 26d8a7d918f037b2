import ByteRegex.Proofs.Arena
import Mathlib.Computability.Language

/-!
# Blocks: the states of one complete expression

Every complete expression owns a block of consecutive states. Edges never leave the block,
none of them enters its start, and its accept state is its last one and has no edge. What
a block reads is therefore settled by its own states, whatever is added elsewhere, and
each construction makes a block of its operands' blocks.

That a construction reads nothing unwanted is shown by residuals: a language for every
state of the new block, closed under putting an edge in front, bounds what every path
from that state can spell. The residual of a new block is put together from those of the
blocks that it is made of: side by side, between two new states, with links added.
-/

namespace ByteRegex

/-- The words of one byte that has the property. -/
def oneOf (p : UInt8 → Prop) : Language UInt8 := {w | ∃ b, p b ∧ w = [b]}

/-- The words that lead from the second state to the first one. -/
def wordsTo (states : Array State) (t s : Nat) : Language UInt8 := {w | Path states s w t}

variable {states old new : Array State} {lo mid hi t s : Nat} {w : List UInt8} {e : Edge}
  {K L : Language UInt8}

/-- An edge in front of a word of which a part leads on. -/
theorem step_mem_wordsTo_mul (he : e ∈ edgesFrom states s)
    (hw : w ∈ wordsTo states t e.target * K) :
    e.label.toList ++ w ∈ wordsTo states t s * K := by
  obtain ⟨u, hu, v, hv, rfl⟩ := Language.mem_mul.mp hw
  have hstep : e.label.toList ++ u ∈ wordsTo states t s := Path.step he hu
  rw [← List.append_assoc]
  exact Language.append_mem_mul hstep hv

/-- Where the words end, everything that may follow does. -/
theorem mem_wordsTo_self_mul (hw : w ∈ K) : w ∈ wordsTo states t t * K :=
  Language.append_mem_mul (a := []) (Path.nil t) hw

/-- What the states of a range still have to read, as a family of languages: an edge in front of
what its target has to read is read by the state that it leaves. Edges keep to the range and do
not enter the given state. -/
def Residual (states : Array State) (lo hi r : Nat) (R : Nat → Language UInt8) : Prop :=
  ∀ s, lo ≤ s → s < hi → ∀ e ∈ edgesFrom states s,
    (lo ≤ e.target ∧ e.target < hi ∧ e.target ≠ r) ∧ ∀ w ∈ R e.target, e.label.toList ++ w ∈ R s

/-- One family below a state and another one from that state on. -/
def beside (mid : Nat) (R S : Nat → Language UInt8) (s : Nat) : Language UInt8 :=
  if s < mid then R s else S s

/-- A family with two more states behind it: the first one has to read the language, and the
second one nothing. -/
def framed (hi : Nat) (L : Language UInt8) (R : Nat → Language UInt8) (s : Nat) :
    Language UInt8 :=
  if s < hi then R s else if s = hi then L else 1

variable {R S : Nat → Language UInt8} {r q : Nat}

/-- Below the state it is the first family. -/
theorem beside_lt (h : s < mid) : beside mid R S s = R s := if_pos h

/-- From the state on it is the second family. -/
theorem beside_ge (h : mid ≤ s) : beside mid R S s = S s := if_neg (Nat.not_lt.mpr h)

/-- In front of the two states the family is as before. -/
theorem framed_lt (h : s < hi) : framed hi L R s = R s := if_pos h

/-- The first of the two states has to read the language. -/
theorem framed_start : framed hi L R hi = L := by
  rw [framed, if_neg (Nat.lt_irrefl hi), if_pos rfl]

/-- The second of the two states has nothing to read. -/
theorem framed_accept : framed hi L R (hi + 1) = 1 := by
  rw [framed, if_neg (by omega), if_neg (by omega)]

/-- A residual bounds what paths from its states can spell. -/
theorem Path.mem_of_residual (h : Residual states lo hi r R) (hdone : [] ∈ R t)
    (p : Path states s w t) (hlo : lo ≤ s) (hhi : s < hi) : w ∈ R s := by
  induction p with
  | nil s => exact hdone
  | step he _ ih =>
    obtain ⟨⟨htlo, hthi, -⟩, hw⟩ := h _ hlo hhi _ he
    exact hw _ (ih hdone htlo hthi)

/-- Residuals of neighbouring ranges are a residual of both. -/
theorem Residual.beside (hR : Residual states lo mid r R) (hS : Residual states mid hi q S)
    (hlo : lo ≤ r) (hr : r < mid) (hmid : mid ≤ hi) :
    Residual states lo hi r (beside mid R S) := by
  intro s hslo hshi e he
  by_cases hs : s < mid
  · obtain ⟨htarget, hw⟩ := hR s hslo hs e he
    rw [beside_lt hs, beside_lt htarget.right.left]
    exact ⟨by omega, hw⟩
  · have hs : mid ≤ s := Nat.le_of_not_lt hs
    obtain ⟨htarget, hw⟩ := hS s hs hshi e he
    rw [beside_ge hs, beside_ge htarget.left]
    exact ⟨by omega, hw⟩

/-- Behind a range there may be two states without edges. -/
theorem Residual.framed (hR : Residual states lo hi r R)
    (hblank : ∀ s, hi ≤ s → edgesFrom states s = []) :
    Residual states lo (hi + 2) hi (framed hi L R) := by
  intro s hlo _ e he
  have hs : s < hi := by
    refine Nat.lt_of_not_le fun hs => ?_
    rw [hblank s hs] at he
    cases he
  obtain ⟨htarget, hw⟩ := hR s hlo hs e he
  rw [framed_lt hs, framed_lt htarget.right.left]
  exact ⟨by omega, hw⟩

/-- A path inside a closed range of states stays when the edges in that range stay. -/
theorem Path.transfer
    (hstays : ∀ s, lo ≤ s → s < hi → ∀ e ∈ edgesFrom old s, lo ≤ e.target ∧ e.target < hi)
    (hsame : ∀ s, lo ≤ s → s < hi → edgesFrom new s = edgesFrom old s)
    (p : Path old s w t) (hlo : lo ≤ s) (hhi : s < hi) : Path new s w t := by
  induction p with
  | nil s => exact .nil s
  | step he _ ih =>
    obtain ⟨htlo, hthi⟩ := hstays _ hlo hhi _ he
    refine .step ?_ (ih htlo hthi)
    rwa [hsame _ hlo hhi]

section Links

variable {links : List (Nat × Nat)}
  (hnew : ∀ s, edgesFrom new s = edgesFrom old s ++ Thompson.linksFrom links s)

include hnew

/-- Behind new links, an edge is an old one or a link. -/
theorem mem_edgesFrom_linked (he : e ∈ edgesFrom new s) :
    e ∈ edgesFrom old s ∨ ∃ l ∈ links, l.1 = s ∧ e = .epsilon l.2 := by
  rw [hnew, List.mem_append, Thompson.mem_linksFrom] at he
  rcases he with he | ⟨t, hl, rfl⟩
  · exact .inl he
  · exact .inr ⟨(s, t), hl, rfl, rfl⟩

/-- A state without edges that is the source of no link has none behind new links. -/
theorem edgesFrom_linked_eq_nil (hs : edgesFrom old s = []) (h : ∀ l ∈ links, l.1 ≠ s) :
    edgesFrom new s = [] := by
  rw [hnew, hs, List.nil_append]
  exact Thompson.linksFrom_eq_nil h

/-- Links keep a residual when each of them leads within the range to a state that has no more to
read. -/
theorem Residual.linked (hR : Residual old lo hi r R)
    (hlinks : ∀ l ∈ links, (lo ≤ l.2 ∧ l.2 < hi ∧ l.2 ≠ r) ∧ ∀ w ∈ R l.2, w ∈ R l.1) :
    Residual new lo hi r R := by
  intro s hlo hhi e he
  rcases mem_edgesFrom_linked hnew he with he | ⟨l, hl, rfl, rfl⟩
  · exact hR s hlo hhi e he
  · exact hlinks l hl

/-- New links destroy no path. -/
theorem Path.linked (p : Path old s w t) : Path new s w t := by
  refine p.mono fun s e he => ?_
  rw [hnew]
  exact List.mem_append_left _ he

/-- A link in front of a path. -/
theorem Path.link (hl : (s, t) ∈ links) {u : Nat} (p : Path new t w u) : Path new s w u := by
  refine .silentStep ?_ p
  rw [hnew, List.mem_append, Thompson.mem_linksFrom]
  exact .inr ⟨t, hl, rfl⟩

/-- A path between two links. -/
theorem Path.between {r u : Nat} (hin : (r, s) ∈ links) (hout : (t, u) ∈ links)
    (p : Path old s w t) : Path new r w u := by
  have hinner : Path new s w t := .linked hnew p
  have hexit := hinner.append (.link hnew hout (.nil u))
  rw [List.append_nil] at hexit
  exact .link hnew hin hexit

end Links

namespace Thompson

/-- The states from `lo` up to `hi` are those of one complete expression, which is entered
and left as the fragment says and reads the language. -/
structure Block (states : Array State) (lo hi : Nat) (f : Fragment) (L : Language UInt8) :
    Prop where
  /-- The start state is one of the block's states. -/
  start_ge : lo ≤ f.start
  /-- The start state lies in front of the end of the block. -/
  start_lt : f.start < hi
  /-- The accept state is one of the block's states. -/
  accept_ge : lo ≤ f.accept
  /-- The accept state is the last one. -/
  accept_last : f.accept + 1 = hi
  /-- No edge leaves the block. -/
  stays : ∀ s, lo ≤ s → s < hi → ∀ e ∈ edgesFrom states s, lo ≤ e.target ∧ e.target < hi
  /-- No edge of the block enters its start. -/
  start_fresh : ∀ s, lo ≤ s → s < hi → ∀ e ∈ edgesFrom states s, e.target ≠ f.start
  /-- The accept state has no edge. -/
  accept_sink : edgesFrom states f.accept = []
  /-- The paths through the block spell the words of the language. -/
  reads : ∀ w, Path states f.start w f.accept ↔ w ∈ L

variable {f x y : Fragment}

/-- What happens outside a block does not change it. -/
theorem Block.congr (h : Block old lo hi f L)
    (hsame : ∀ s, lo ≤ s → s < hi → edgesFrom new s = edgesFrom old s) :
    Block new lo hi f L where
  start_ge := h.start_ge
  start_lt := h.start_lt
  accept_ge := h.accept_ge
  accept_last := h.accept_last
  stays s hlo hhi e he := by
    rw [hsame s hlo hhi] at he
    exact h.stays s hlo hhi e he
  start_fresh s hlo hhi e he := by
    rw [hsame s hlo hhi] at he
    exact h.start_fresh s hlo hhi e he
  accept_sink := by
    have hlast := h.accept_last
    rw [hsame _ h.accept_ge (by omega)]
    exact h.accept_sink
  reads w := by
    refine Iff.trans ⟨fun p => ?_, fun p => ?_⟩ (h.reads w)
    · refine p.transfer ?_ ?_ h.start_ge h.start_lt
      · intro s hlo hhi e he
        rw [hsame s hlo hhi] at he
        exact h.stays s hlo hhi e he
      · intro s hlo hhi
        exact (hsame s hlo hhi).symm
    · exact p.transfer h.stays hsame h.start_ge h.start_lt

/-- What leads through a block is its language. -/
theorem Block.wordsTo_eq (h : Block states lo hi f L) : wordsTo states f.accept f.start = L :=
  Language.ext h.reads

/-- What leads to the accept state, with anything behind it, is a residual of the block. -/
theorem Block.residual (h : Block states lo hi f L) (K : Language UInt8) :
    Residual states lo hi f.start fun s => wordsTo states f.accept s * K := by
  intro s hlo hhi e he
  obtain ⟨htlo, hthi⟩ := h.stays s hlo hhi e he
  exact ⟨⟨htlo, hthi, h.start_fresh s hlo hhi e he⟩, fun w hw => step_mem_wordsTo_mul he hw⟩

/-- A residual that is the language at the start makes a block, when the block reads all of the
language. -/
theorem Block.ofResidual (hR : Residual states lo hi f.start R) (hge : lo ≤ f.start)
    (hlt : f.start < hi) (hage : lo ≤ f.accept) (hlast : f.accept + 1 = hi)
    (hsink : edgesFrom states f.accept = []) (hentry : R f.start = L) (hdone : [] ∈ R f.accept)
    (hreads : ∀ w ∈ L, Path states f.start w f.accept) : Block states lo hi f L where
  start_ge := hge
  start_lt := hlt
  accept_ge := hage
  accept_last := hlast
  stays s hlo hhi e he := by
    obtain ⟨⟨htlo, hthi, -⟩, -⟩ := hR s hlo hhi e he
    exact ⟨htlo, hthi⟩
  start_fresh s hlo hhi e he := by
    obtain ⟨⟨-, -, hne⟩, -⟩ := hR s hlo hhi e he
    exact hne
  accept_sink := hsink
  reads w := by
    refine ⟨fun p => ?_, hreads w⟩
    rw [← hentry]
    exact p.mem_of_residual hR hdone hge hlt

/-- Two new states behind a residual, linked to it, make a block that is entered and left by
them. -/
theorem Block.ofFramed {links : List (Nat × Nat)} (hR : Residual old lo hi r R) (hlohi : lo ≤ hi)
    (hstart : f.start = hi) (haccept : f.accept = hi + 1)
    (hblank : ∀ s, hi ≤ s → edgesFrom old s = [])
    (hnew : ∀ s, edgesFrom new s = edgesFrom old s ++ linksFrom links s)
    (hlinks : ∀ l ∈ links, (lo ≤ l.2 ∧ l.2 < hi + 2 ∧ l.2 ≠ hi) ∧
      ∀ w ∈ framed hi L R l.2, w ∈ framed hi L R l.1)
    (hsource : ∀ l ∈ links, l.1 ≠ hi + 1) (hreads : ∀ w ∈ L, Path new f.start w f.accept) :
    Block new lo (hi + 2) f L := by
  have hlinked : Residual new lo (hi + 2) f.start (framed hi L R) := by
    rw [hstart]
    exact (hR.framed hblank).linked hnew hlinks
  refine .ofResidual hlinked (by omega) (by omega) (by omega) (by omega) ?_ ?_ ?_ hreads
  · rw [haccept]
    exact edgesFrom_linked_eq_nil hnew (hblank (hi + 1) (by omega)) hsource
  · rw [hstart, framed_start]
  · rw [haccept, framed_accept]
    exact Language.nil_mem_one

/-- An operand is a block of two states, with one edge for each of its bytes. -/
theorem Block.operand {bytes : List UInt8} (hstart : f.start = lo) (haccept : f.accept = lo + 1)
    (hedges : edgesFrom new f.start = bytes.map (Edge.byte · f.accept))
    (hsink : edgesFrom new f.accept = []) :
    Block new lo (lo + 2) f (oneOf (· ∈ bytes)) := by
  have hresidual : Residual new lo (lo + 2) f.start (framed lo (oneOf (· ∈ bytes)) 1) := by
    intro s hlo hhi e he
    obtain rfl | rfl : s = f.start ∨ s = f.accept := by omega
    · rw [hedges, List.mem_map] at he
      obtain ⟨b, hb, rfl⟩ := he
      refine ⟨by simp only [Edge.target]; omega, fun w hw => ?_⟩
      rw [Edge.target, haccept, framed_accept, Language.mem_one] at hw
      rw [hstart, framed_start, hw]
      exact ⟨b, hb, rfl⟩
    · rw [hsink] at he
      cases he
  refine .ofResidual hresidual (by omega) (by omega) (by omega) (by omega) hsink ?_ ?_ ?_
  · rw [hstart, framed_start]
  · rw [haccept, framed_accept]
    exact Language.nil_mem_one
  · rintro w ⟨b, hb, rfl⟩
    refine .byteStep ?_ (.nil _)
    rw [hedges]
    exact List.mem_map.mpr ⟨b, hb, rfl⟩

/-- Two neighbouring blocks, linked from accept to start, are one block, which reads a word
of the first and then one of the second. -/
theorem Block.concat (hx : Block old lo mid x K) (hy : Block old mid hi y L)
    (hstart : f.start = x.start) (haccept : f.accept = y.accept)
    (hnew : ∀ s, edgesFrom new s = edgesFrom old s ++ linksFrom [(x.accept, y.start)] s) :
    Block new lo hi f (K * L) := by
  have hxge := hx.start_ge
  have hxlt := hx.start_lt
  have hxlast := hx.accept_last
  have hyge := hy.start_ge
  have hylt := hy.start_lt
  have hylast := hy.accept_last
  have hboth := (hx.residual L).beside (hy.residual 1) hxge hxlt (by omega)
  have hlinked : Residual new lo hi f.start
      (beside mid (fun s => wordsTo old x.accept s * L) fun s => wordsTo old y.accept s * 1) := by
    rw [hstart]
    refine hboth.linked hnew fun l hl => ?_
    obtain rfl := List.mem_singleton.mp hl
    refine ⟨by simp only; omega, ?_⟩
    rw [beside_ge hyge, beside_lt (by omega), hy.wordsTo_eq, mul_one]
    exact fun w hw => mem_wordsTo_self_mul hw
  refine .ofResidual hlinked (by omega) (by omega) (by omega) (by omega) ?_ ?_ ?_ fun w hw => ?_
  · refine edgesFrom_linked_eq_nil hnew ?_ fun l hl => ?_
    · rw [haccept, hy.accept_sink]
    · obtain rfl := List.mem_singleton.mp hl
      simp only
      omega
  · rw [hstart, beside_lt hxlt, hx.wordsTo_eq]
  · rw [haccept, beside_ge (by omega)]
    exact mem_wordsTo_self_mul Language.nil_mem_one
  · obtain ⟨u, hu, v, hv, rfl⟩ := Language.mem_mul.mp hw
    have hbefore : Path new x.start u x.accept := .linked hnew ((hx.reads u).mpr hu)
    have hbehind : Path new y.start v y.accept := .linked hnew ((hy.reads v).mpr hv)
    rw [hstart, haccept]
    exact hbefore.append (.link hnew List.mem_cons_self hbehind)

/-- Between the links of an alternation, a word of either block leads from the start to the accept
state. -/
theorem Block.path_alt (hx : Block old lo mid x K) (hy : Block old mid hi y L)
    (hnew : ∀ s, edgesFrom new s = edgesFrom old s ++ linksFrom (altLinks x y f) s)
    (hw : w ∈ K + L) : Path new f.start w f.accept := by
  rcases hw with hw | hw
  · have hin : (f.start, x.start) ∈ altLinks x y f := mem_altLinks.mpr (.inl rfl)
    have hout : (x.accept, f.accept) ∈ altLinks x y f := mem_altLinks.mpr (.inr (.inr (.inl rfl)))
    exact .between hnew hin hout ((hx.reads w).mpr hw)
  · have hin : (f.start, y.start) ∈ altLinks x y f := mem_altLinks.mpr (.inr (.inl rfl))
    have hout : (y.accept, f.accept) ∈ altLinks x y f := mem_altLinks.mpr (.inr (.inr (.inr rfl)))
    exact .between hnew hin hout ((hy.reads w).mpr hw)

/-- Two neighbouring blocks between a common start and a common accept state are one
block, which reads a word of either. -/
theorem Block.alt (hx : Block old lo mid x K) (hy : Block old mid hi y L)
    (hstart : f.start = hi) (haccept : f.accept = hi + 1)
    (hblank : ∀ s, hi ≤ s → edgesFrom old s = [])
    (hnew : ∀ s, edgesFrom new s = edgesFrom old s ++ linksFrom (altLinks x y f) s) :
    Block new lo (hi + 2) f (K + L) := by
  have hxge := hx.start_ge
  have hxlt := hx.start_lt
  have hxlast := hx.accept_last
  have hyge := hy.start_ge
  have hylt := hy.start_lt
  have hylast := hy.accept_last
  have hboth := (hx.residual 1).beside (hy.residual 1) hxge hxlt (by omega)
  refine .ofFramed hboth (by omega) hstart haccept hblank hnew (fun l hl => ?_) (fun l hl => ?_)
    fun w hw => hx.path_alt hy hnew hw
  · rcases mem_altLinks.mp hl with rfl | rfl | rfl | rfl
    · refine ⟨by simp only; omega, ?_⟩
      rw [framed_lt (by omega), beside_lt hxlt, hx.wordsTo_eq, mul_one, hstart, framed_start]
      exact fun w hw => .inl hw
    · refine ⟨by simp only; omega, ?_⟩
      rw [framed_lt hylt, beside_ge hyge, hy.wordsTo_eq, mul_one, hstart, framed_start]
      exact fun w hw => .inr hw
    · refine ⟨by simp only; omega, ?_⟩
      rw [haccept, framed_accept, framed_lt (by omega), beside_lt (by omega)]
      exact fun w hw => mem_wordsTo_self_mul hw
    · refine ⟨by simp only; omega, ?_⟩
      rw [haccept, framed_accept, framed_lt (by omega), beside_ge (by omega)]
      exact fun w hw => mem_wordsTo_self_mul hw
  · rcases mem_altLinks.mp hl with rfl | rfl | rfl | rfl
    all_goals
      simp only [ne_eq]
      omega

/-- What may follow one pass through a loop. -/
def passes (again : Bool) (L : Language UInt8) : Language UInt8 :=
  if again then KStar.kstar L else 1

/-- What a loop reads: one pass and what may follow it, or nothing at all. -/
def loopLanguage (skip again : Bool) (L : Language UInt8) : Language UInt8 :=
  L * passes again L + if skip then 1 else 0

/-- No further pass is always allowed. -/
theorem nil_mem_passes (again : Bool) (L : Language UInt8) : [] ∈ passes again L := by
  cases again with
  | false => exact Language.nil_mem_one
  | true => exact Language.nil_mem_kstar L

/-- A pass and then further passes are passes. -/
theorem mem_passes_of_mem_mul (hw : w ∈ L * passes true L) : w ∈ passes true L := by
  have hle : L * KStar.kstar L ≤ KStar.kstar L := mul_kstar_le_kstar
  exact hle hw

/-- What holds of nothing, and of one pass more than what it holds of, holds of all that may
follow a pass. -/
theorem passes_induction {again : Bool} {P : List UInt8 → Prop} (hdone : P [])
    (hmore : again = true → ∀ u ∈ L, ∀ v, P v → P (u ++ v)) (hw : w ∈ passes again L) : P w := by
  cases again with
  | false =>
    rw [passes, if_neg Bool.false_ne_true, Language.mem_one] at hw
    rw [hw]
    exact hdone
  | true =>
    rw [passes, if_pos rfl, Language.mem_kstar] at hw
    obtain ⟨parts, rfl, hparts⟩ := hw
    induction parts with
    | nil => exact hdone
    | cons u parts ih =>
      have hrest := ih fun v hv => hparts v (List.mem_cons_of_mem _ hv)
      exact hmore rfl u (hparts u List.mem_cons_self) _ hrest

/-- A loop reads a pass with what may follow it, and nothing at all if it may be skipped. -/
theorem mem_loopLanguage {skip again : Bool} :
    w ∈ loopLanguage skip again L ↔ w ∈ L * passes again L ∨ skip = true ∧ w = [] := by
  rw [loopLanguage, Language.mem_add]
  cases skip with
  | false => simp [Language.notMem_zero]
  | true => simp [Language.mem_one]

/-- Between the links of a loop, what may follow a pass leads from the end of the pass to the
accept state. -/
theorem Block.path_passes {skip again : Bool} (hx : Block old lo hi x L)
    (hnew : ∀ s, edgesFrom new s = edgesFrom old s ++ linksFrom (loopLinks skip again x f) s)
    (hw : w ∈ passes again L) : Path new x.accept w f.accept := by
  have hleave : (x.accept, f.accept) ∈ loopLinks skip again x f :=
    mem_loopLinks.mpr (.inr (.inr (.inr rfl)))
  have hdone : Path new x.accept [] f.accept := .link hnew hleave (.nil f.accept)
  refine passes_induction (P := fun v => Path new x.accept v f.accept) hdone ?_ hw
  intro hagain u hu v p
  have hrepeat : (x.accept, x.start) ∈ loopLinks skip again x f :=
    mem_loopLinks.mpr (.inr (.inr (.inl ⟨hagain, rfl⟩)))
  have hpass : Path new x.start u x.accept := .linked hnew ((hx.reads u).mpr hu)
  exact .link hnew hrepeat (hpass.append p)

/-- Between the links of a loop, a word of the loop leads from the start to the accept state. -/
theorem Block.path_loop {skip again : Bool} (hx : Block old lo hi x L)
    (hnew : ∀ s, edgesFrom new s = edgesFrom old s ++ linksFrom (loopLinks skip again x f) s)
    (hw : w ∈ loopLanguage skip again L) : Path new f.start w f.accept := by
  rcases mem_loopLanguage.mp hw with hw | ⟨hskip, rfl⟩
  · obtain ⟨u, hu, v, hv, rfl⟩ := Language.mem_mul.mp hw
    have henter : (f.start, x.start) ∈ loopLinks skip again x f := mem_loopLinks.mpr (.inl rfl)
    have hpass : Path new x.start u x.accept := .linked hnew ((hx.reads u).mpr hu)
    exact .link hnew henter (hpass.append (hx.path_passes hnew hv))
  · have haround : (f.start, f.accept) ∈ loopLinks skip again x f :=
      mem_loopLinks.mpr (.inr (.inl ⟨hskip, rfl⟩))
    exact .link hnew haround (.nil f.accept)

/-- A block between a new start and a new accept state is one block, which reads a word of
the loop around it. -/
theorem Block.loop {skip again : Bool} (hx : Block old lo hi x L)
    (hstart : f.start = hi) (haccept : f.accept = hi + 1)
    (hblank : ∀ s, hi ≤ s → edgesFrom old s = [])
    (hnew : ∀ s, edgesFrom new s = edgesFrom old s ++ linksFrom (loopLinks skip again x f) s) :
    Block new lo (hi + 2) f (loopLanguage skip again L) := by
  have hxge := hx.start_ge
  have hxlt := hx.start_lt
  have hxlast := hx.accept_last
  refine .ofFramed (hx.residual (passes again L)) (by omega) hstart haccept hblank hnew
    (fun l hl => ?_) (fun l hl => ?_) fun w hw => hx.path_loop hnew hw
  · rcases mem_loopLinks.mp hl with rfl | ⟨rfl, rfl⟩ | ⟨rfl, rfl⟩ | rfl
    · refine ⟨by simp only; omega, ?_⟩
      rw [framed_lt hxlt, hx.wordsTo_eq, hstart, framed_start]
      exact fun w hw => mem_loopLanguage.mpr (.inl hw)
    · refine ⟨by simp only; omega, ?_⟩
      rw [haccept, framed_accept, hstart, framed_start]
      exact fun w hw => mem_loopLanguage.mpr (.inr ⟨rfl, hw⟩)
    · refine ⟨by simp only; omega, ?_⟩
      rw [framed_lt hxlt, hx.wordsTo_eq, framed_lt (by omega)]
      exact fun w hw => mem_wordsTo_self_mul (mem_passes_of_mem_mul hw)
    · refine ⟨by simp only; omega, fun w hw => ?_⟩
      rw [haccept, framed_accept, Language.mem_one] at hw
      rw [framed_lt (by omega), hw]
      exact mem_wordsTo_self_mul (nil_mem_passes again L)
  · rcases mem_loopLinks.mp hl with rfl | ⟨-, rfl⟩ | ⟨-, rfl⟩ | rfl
    all_goals
      simp only [ne_eq]
      omega

end Thompson

end ByteRegex
