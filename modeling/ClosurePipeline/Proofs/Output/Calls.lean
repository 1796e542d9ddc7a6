/-
Which require calls of an output are replaced. A text is read into pieces: characters that stay, calls behind `goog.`,
which stay too, and calls that are replaced. A call may start where a word may start, and a call that has been read
hides those that start inside it.

- `RequireCall`: a require call as it is written; `requireCall?_text`, `exists_of_requireCall?`: the matcher takes these
  and no others;
- `Reading`, `exists_reading`: the pieces of a text, and that an output is cut into them;
- `Found`, `Reading.kept_iff`, `Reading.replaced_iff`: the calls among the pieces are exactly those at a word boundary
  that no other call reaches over;
- `calls_replaced`: the result, for the text of a module. Only the word boundary and `goog.` are asked for, so a method,
  a name with a dollar sign or one that ends beyond ASCII is taken for the function (`method_is_replaced`).
-/
import Mathlib.Data.List.TakeWhile
import Mathlib.Tactic
import ClosurePipeline.Output.GoogModule
import ClosurePipeline.Token.Lexer

namespace ClosurePipeline.GoogModule

/-! ## Calls as they are written -/

/-- a require call as it is written: the specifier in quotes, blanks around it -/
structure RequireCall where
  lead : List Char
  quote : Char
  specifier : List Char
  trail : List Char
  lead_blank : ∀ c ∈ lead, Text.isAsciiBlank c = true
  quote_eq : quote = '\'' ∨ quote = '"'
  quote_notMem : quote ∉ specifier
  trail_blank : ∀ c ∈ trail, Text.isAsciiBlank c = true
deriving DecidableEq

namespace RequireCall

/-- what stands behind the opening parenthesis -/
def argument (w : RequireCall) : List Char := w.lead ++ w.quote :: (w.specifier ++ w.quote :: (w.trail ++ [')']))

/-- the call -/
def text (w : RequireCall) : List Char := requireWord ++ w.argument

theorem quote_not_blank (w : RequireCall) : Text.isAsciiBlank w.quote = false := by
  rcases w.quote_eq with h | h <;> rw [h] <;> rfl

theorem argument_append (w : RequireCall) (rest : List Char) :
    w.argument ++ rest = w.lead ++ w.quote :: (w.specifier ++ w.quote :: (w.trail ++ ')' :: rest)) := by
  simp [argument]

theorem text_ne_nil (w : RequireCall) : w.text ≠ [] := List.append_ne_nil_of_left_ne_nil (by decide) _

theorem length_text_pos (w : RequireCall) : 0 < w.text.length := List.length_pos_of_ne_nil w.text_ne_nil

end RequireCall

theorem dropWhile_append_cons {p : Char → Bool} {xs : List Char} (hxs : ∀ c ∈ xs, p c = true) {c : Char}
    (hc : p c = false) (ys : List Char) :
    (xs ++ c :: ys).dropWhile p = c :: ys := by
  rw [List.dropWhile_append_of_pos hxs, List.dropWhile_cons_of_neg (by simp [hc])]

theorem takeWhile_append_cons {p : Char → Bool} {xs : List Char} (hxs : ∀ c ∈ xs, p c = true) {c : Char}
    (hc : p c = false) (ys : List Char) :
    (xs ++ c :: ys).takeWhile p = xs := by
  rw [List.takeWhile_append_of_pos hxs, List.takeWhile_cons_of_neg (by simp [hc]), List.append_nil]

/-- texts that start with characters of a class and go on with one beyond it agree part by part -/
theorem parts_inj {p : Char → Bool} {xs ys t u : List Char} {c d : Char} (hxs : ∀ a ∈ xs, p a = true)
    (hys : ∀ a ∈ ys, p a = true) (hc : p c = false) (hd : p d = false) (h : xs ++ c :: t = ys ++ d :: u) :
    xs = ys ∧ c = d ∧ t = u := by
  have hfront : xs = ys := by rw [← takeWhile_append_cons hxs hc t, h, takeWhile_append_cons hys hd u]
  subst hfront
  rw [List.append_cancel_left_eq, List.cons.injEq] at h
  exact ⟨rfl, h⟩

/-- at most one call starts a text -/
theorem RequireCall.text_inj {w v : RequireCall} {t u : List Char} (h : w.text ++ t = v.text ++ u) : w = v ∧ t = u := by
  obtain ⟨lead, quote, specifier, trail, hlead, hquote, hspecifier, htrail⟩ := w
  obtain ⟨lead', quote', specifier', trail', hlead', hquote', hspecifier', htrail'⟩ := v
  rw [RequireCall.text, RequireCall.text, List.append_assoc, List.append_assoc, List.append_cancel_left_eq,
    RequireCall.argument_append, RequireCall.argument_append] at h
  have hother : ∀ {q : Char} {s : List Char}, q ∉ s → ∀ a ∈ s, decide (a ≠ q) = true := by
    intro q s hq a ha
    exact decide_eq_true fun he => hq (he ▸ ha)
  obtain ⟨rfl, rfl, h⟩ := parts_inj hlead hlead'
    (RequireCall.quote_not_blank ⟨lead, quote, specifier, trail, hlead, hquote, hspecifier, htrail⟩)
    (RequireCall.quote_not_blank ⟨lead', quote', specifier', trail', hlead', hquote', hspecifier', htrail'⟩) h
  obtain ⟨rfl, -, h⟩ := parts_inj (hother hspecifier) (hother hspecifier') (by simp) (by simp) h
  obtain ⟨rfl, -, rfl⟩ := parts_inj htrail htrail' (by decide) (by decide) h
  exact ⟨rfl, rfl⟩

/-! ## The matcher -/

theorem quotedArgument?_argument (w : RequireCall) (rest : List Char) :
    quotedArgument? (w.argument ++ rest) = some (w.specifier, rest) := by
  have hspecifier : ∀ c ∈ w.specifier, decide (c ≠ w.quote) = true :=
    fun c hc => decide_eq_true fun he => w.quote_notMem (he ▸ hc)
  rw [w.argument_append, quotedArgument?, dropWhile_append_cons w.lead_blank w.quote_not_blank]
  dsimp only
  rw [if_pos w.quote_eq, dropWhile_append_cons hspecifier (by simp), takeWhile_append_cons hspecifier (by simp)]
  dsimp only
  simp only [dropWhile_append_cons w.trail_blank (by decide : Text.isAsciiBlank ')' = false)]

/-- characters of a class, and what is left behind them -/
theorem exists_parts {p : Char → Bool} {cs ys : List Char} {c : Char} (h : cs.dropWhile p = c :: ys) :
    ∃ xs, cs = xs ++ c :: ys ∧ (∀ a ∈ xs, p a = true) ∧ p c = false ∧ cs.takeWhile p = xs := by
  refine ⟨cs.takeWhile p, ?_, fun a ha => List.mem_takeWhile_imp ha, ?_, rfl⟩
  · rw [← h, List.takeWhile_append_dropWhile]
  · have hnot := List.head?_dropWhile_not p cs
    rw [h] at hnot
    simpa using hnot

theorem exists_of_quotedArgument? {cs specifier after : List Char} (h : quotedArgument? cs = some (specifier, after)) :
    ∃ w : RequireCall, w.specifier = specifier ∧ cs = w.argument ++ after := by
  unfold quotedArgument? at h
  split at h
  · rename_i q rest hlead
    split_ifs at h with hq
    split at h
    · rename_i closing behind hspecifier
      split at h
      · rename_i after' htrail
        obtain ⟨rfl, rfl⟩ : rest.takeWhile (· ≠ q) = specifier ∧ after' = after := by simpa using h
        obtain ⟨lead, rfl, hblank, -, -⟩ := exists_parts hlead
        obtain ⟨inside, rfl, hinside, hclosing, htake⟩ := exists_parts hspecifier
        obtain ⟨trail, rfl, htrailing, -, -⟩ := exists_parts htrail
        obtain rfl : closing = q := by simpa using hclosing
        refine ⟨⟨lead, closing, inside, trail, hblank, hq, fun hmem => ?_, htrailing⟩, htake.symm, ?_⟩
        · simpa using hinside closing hmem
        · rw [RequireCall.argument_append]
      · cases h
    · cases h
  · cases h

theorem requireCall?_text (w : RequireCall) (rest : List Char) :
    requireCall? (w.text ++ rest) = some (w.specifier, w.text.length) := by
  have hword : requireWord.isPrefixOf (w.text ++ rest) = true := by
    rw [RequireCall.text, List.append_assoc]
    exact List.isPrefixOf_iff_prefix.2 (List.prefix_append _ _)
  rw [requireCall?, if_pos hword, RequireCall.text, List.append_assoc, List.drop_left, quotedArgument?_argument,
    Option.map_some]
  dsimp only
  rw [← List.append_assoc, List.length_append, Nat.add_sub_cancel]

theorem exists_of_requireCall? {cs specifier : List Char} {n : Nat} (h : requireCall? cs = some (specifier, n)) :
    ∃ (w : RequireCall) (rest : List Char), w.specifier = specifier ∧ w.text.length = n ∧ cs = w.text ++ rest := by
  unfold requireCall? at h
  split_ifs at h with hword
  obtain ⟨behind, rfl⟩ := List.isPrefixOf_iff_prefix.1 hword
  rw [List.drop_left] at h
  obtain ⟨⟨found, after⟩, hfound, hlength⟩ := Option.map_eq_some_iff.1 h
  obtain ⟨w, rfl, rfl⟩ := exists_of_quotedArgument? hfound
  obtain ⟨rfl, rfl⟩ := Prod.mk.inj hlength
  refine ⟨w, after, rfl, ?_, by rw [RequireCall.text, List.append_assoc]⟩
  rw [RequireCall.text]
  simp only [List.length_append]
  omega

/-! ## Pieces -/

/-- a word may start behind this text -/
def AtWord (before : List Char) : Prop := ∀ c ∈ before.getLast?, isWordChar c = false

/-- the text ends in `goog.` -/
def BehindGoog (before : List Char) : Prop := "goog.".toList <:+ before

theorem atBoundary_iff (before : List Char) : atBoundary before = true ↔ AtWord before.reverse := by
  rw [AtWord, List.getLast?_reverse, atBoundary]
  cases before.head? <;> simp

theorem behindGoog_iff (before : List Char) : googBack.isPrefixOf before = true ↔ BehindGoog before.reverse := by
  have hback : "goog.".toList = googBack.reverse := by decide
  rw [List.isPrefixOf_iff_prefix, BehindGoog, hback, List.reverse_suffix]

/-- a piece of an output: a character that stays, a call behind `goog.`, or a call that is replaced -/
inductive Piece where
  | char (c : Char)
  | kept (w : RequireCall)
  | replaced (w : RequireCall)
deriving DecidableEq

namespace Piece

/-- the text of a piece -/
def source : Piece → List Char
  | char c => [c]
  | kept w => w.text
  | replaced w => w.text

/-- the piece as a stretch -/
def stretch : Piece → Stretch
  | char c => .code [c]
  | kept w => .code w.text
  | replaced w => .call w.specifier

/-- the text of a piece in the module -/
def render (name : String → String) (p : Piece) : List Char := p.stretch.render name

end Piece

/-- the text of pieces in a row -/
def sourceOf (ps : List Piece) : List Char := ps.flatMap Piece.source

/-- pieces read from the left, behind the text `before`: a call is taken as soon as it starts -/
inductive Reading : List Char → List Piece → Prop where
  | nil (before : List Char) : Reading before []
  | char {before : List Char} {ps : List Piece} (c : Char)
      (hnone : AtWord before → ∀ w : RequireCall, ¬ w.text <+: c :: sourceOf ps) (h : Reading (before ++ [c]) ps) :
    Reading before (.char c :: ps)
  | kept {before : List Char} {ps : List Piece} (w : RequireCall) (hword : AtWord before) (hgoog : BehindGoog before)
    (h : Reading (before ++ w.text) ps) : Reading before (.kept w :: ps)
  | replaced {before : List Char} {ps : List Piece} (w : RequireCall) (hword : AtWord before)
      (hgoog : ¬ BehindGoog before) (h : Reading (before ++ w.text) ps) : Reading before (.replaced w :: ps)

/-- **An output is cut into its pieces.** -/
theorem exists_reading (before cs : List Char) :
    ∃ ps, Reading before.reverse ps ∧ sourceOf ps = cs ∧ ps.map Piece.stretch = stretches before cs := by
  fun_induction stretches before cs with
  | case1 before => exact ⟨[], .nil _, rfl, rfl⟩
  | case2 before c rest hnone ih =>
    obtain ⟨ps, hread, rfl, hps⟩ := ih
    rw [List.reverse_cons] at hread
    refine ⟨.char c :: ps, .char c (fun hword w hw => ?_) hread, rfl, by rw [List.map_cons, hps]; rfl⟩
    obtain ⟨more, hmore⟩ := hw
    rw [dif_pos ((atBoundary_iff before).2 hword), ← hmore, requireCall?_text] at hnone
    cases hnone
  | case3 before c rest specifier n hcall taken piece ih =>
    obtain ⟨ps, hread, hsource, hps⟩ := ih
    split_ifs at hcall with hboundary
    have hword := (atBoundary_iff before).1 hboundary
    obtain ⟨w, behind, rfl, rfl, hw⟩ := exists_of_requireCall? hcall
    -- the call is the characters taken
    have hlength := w.length_text_pos
    have htake : taken = w.text := by
      have htaken : taken = (c :: rest).take (w.text.length - 1 + 1) := rfl
      rw [htaken, Nat.sub_add_cancel hlength, hw, List.take_left]
    have hdrop : rest.drop (w.text.length - 1) = behind := by
      have hbehind : rest.drop (w.text.length - 1) = (c :: rest).drop (w.text.length - 1 + 1) := rfl
      rw [hbehind, Nat.sub_add_cancel hlength, hw, List.drop_left]
    rw [hdrop] at hsource
    rw [htake, List.reverse_append, List.reverse_reverse] at hread
    by_cases hgoog : googBack.isPrefixOf before = true
    · refine ⟨.kept w :: ps, .kept w hword ((behindGoog_iff before).1 hgoog) hread, ?_, ?_⟩
      · rw [hw, ← hsource]
        rfl
      · rw [List.map_cons, hps, show piece = .code taken from dif_pos hgoog, htake]
        rfl
    · refine ⟨.replaced w :: ps, .replaced w hword (fun h => hgoog ((behindGoog_iff before).2 h)) hread, ?_, ?_⟩
      · rw [hw, ← hsource]
        rfl
      · rw [List.map_cons, hps, show piece = .call w.specifier from dif_neg hgoog]
        rfl

/-! ## Places of pieces -/

/-- a piece stands in a row of pieces behind the text `before` -/
def StandsAt (ps : List Piece) (before : List Char) (p : Piece) : Prop :=
  ∃ front back, ps = front ++ p :: back ∧ sourceOf front = before

/-- a piece reaches over the place behind `before` -/
def Reached (ps : List Piece) (before : List Char) : Prop :=
  ∃ start p, StandsAt ps start p ∧ start.length < before.length ∧ before.length < start.length + p.source.length

@[simp] theorem sourceOf_cons (p : Piece) (ps : List Piece) :
    sourceOf (p :: ps) = p.source ++ sourceOf ps := List.flatMap_cons

@[simp] theorem sourceOf_append (ps qs : List Piece) :
    sourceOf (ps ++ qs) = sourceOf ps ++ sourceOf qs := List.flatMap_append

section Places

variable {ps : List Piece} {before start : List Char} {p q : Piece}

theorem StandsAt.isPrefix (h : StandsAt ps before p) : before ++ p.source <+: sourceOf ps := by
  obtain ⟨front, back, rfl, rfl⟩ := h
  exact ⟨sourceOf back, by simp⟩

theorem StandsAt.cons (q : Piece) (h : StandsAt ps before p) : StandsAt (q :: ps) (q.source ++ before) p := by
  obtain ⟨front, back, rfl, rfl⟩ := h
  exact ⟨q :: front, back, rfl, sourceOf_cons q front⟩

theorem Reached.cons (q : Piece) (h : Reached ps before) : Reached (q :: ps) (q.source ++ before) := by
  obtain ⟨start, p, hp, hstart, hstop⟩ := h
  refine ⟨q.source ++ start, p, hp.cons q, ?_, ?_⟩ <;> simp only [List.length_append] <;> omega

/-- nothing reaches over the start of a piece -/
theorem StandsAt.not_reached (h : StandsAt ps before p) : ¬ Reached ps before := by
  rintro ⟨start, q, ⟨front, back, hq, rfl⟩, hstart, hstop⟩
  obtain ⟨front', back', hp, rfl⟩ := h
  have hlength : ∀ {xs ys : List Piece}, xs <+: ys → (sourceOf xs).length ≤ (sourceOf ys).length := by
    rintro xs _ ⟨zs, rfl⟩
    simp
  have hboth : front ++ [q] <+: ps := ⟨back, by simp [hq]⟩
  have hfront' : front' <+: ps := ⟨p :: back', hp.symm⟩
  rcases Nat.lt_or_ge front.length front'.length with hlt | hle
  · have hreach := hlength (List.prefix_of_prefix_length_le hboth hfront' (by simpa using hlt))
    simp at hreach
    simp [sourceOf] at hreach hstop
    omega
  · have hbehind := hlength (List.prefix_of_prefix_length_le hfront' ⟨q :: back, hq.symm⟩ hle)
    omega

/-- a place in the text of pieces is between two of them, or one reaches over it -/
theorem exists_cut (h : before <+: sourceOf ps) :
    (∃ front back, ps = front ++ back ∧ sourceOf front = before) ∨ Reached ps before := by
  induction ps generalizing before with
  | nil => exact Or.inl ⟨[], [], rfl, (List.prefix_nil.1 h).symm⟩
  | cons p ps ih =>
    rw [sourceOf_cons] at h
    rcases before.eq_nil_or_concat with rfl | hne
    · exact Or.inl ⟨[], p :: ps, rfl, rfl⟩
    have hpos : 0 < before.length := by
      obtain ⟨xs, c, rfl⟩ := hne
      simp
    rcases Nat.lt_or_ge before.length p.source.length with hlt | hle
    · exact Or.inr ⟨[], p, ⟨[], ps, rfl, rfl⟩, hpos, by simpa using hlt⟩
    · obtain ⟨behind, rfl⟩ := List.prefix_of_prefix_length_le (List.prefix_append _ _) h hle
      rcases ih ((List.prefix_append_right_inj _).1 h) with ⟨front, back, rfl, rfl⟩ | hreached
      · exact Or.inl ⟨p :: front, back, rfl, sourceOf_cons p front⟩
      · exact Or.inr (hreached.cons p)

end Places

/-! ## Where calls are found -/

/-- a call is found behind `before`: it stands there in the text, at the start of a word, and no piece reaches over the
place -/
def Found (ps : List Piece) (text before : List Char) (w : RequireCall) : Prop :=
  before ++ w.text <+: text ∧ AtWord before ∧ ¬ Reached ps before

namespace Reading

variable {before place : List Char} {ps : List Piece} {w : RequireCall}

/-- the pieces behind the first ones are read behind their text -/
theorem behind {front back : List Piece} (h : Reading before (front ++ back)) :
    Reading (before ++ sourceOf front) back := by
  induction front generalizing before with
  | nil => rwa [sourceOf, List.flatMap_nil, List.append_nil]
  | cons p front ih =>
    rw [sourceOf_cons, ← List.append_assoc]
    cases h with
    | char c _ h => exact ih h
    | kept w _ _ h => exact ih h
    | replaced w _ _ h => exact ih h

theorem of_kept (h : Reading [] ps) (hw : StandsAt ps place (.kept w)) : AtWord place ∧ BehindGoog place := by
  obtain ⟨front, back, rfl, rfl⟩ := hw
  cases h.behind with
  | kept w hword hgoog _ => exact ⟨hword, hgoog⟩

theorem of_replaced (h : Reading [] ps) (hw : StandsAt ps place (.replaced w)) : AtWord place ∧ ¬ BehindGoog place := by
  obtain ⟨front, back, rfl, rfl⟩ := hw
  cases h.behind with
  | replaced w hword hgoog _ => exact ⟨hword, hgoog⟩

/-- a call that no piece reaches over is a piece itself -/
theorem of_found (h : Reading [] ps) (hfound : Found ps (sourceOf ps) place w) :
    StandsAt ps place (.kept w) ∨ StandsAt ps place (.replaced w) := by
  obtain ⟨hthere, hword, hreached⟩ := hfound
  obtain ⟨front, back, rfl, rfl⟩ := (exists_cut ((List.prefix_append _ _).trans hthere)).resolve_right hreached
  rw [sourceOf_append, List.prefix_append_right_inj] at hthere
  cases h.behind with
  | nil => exact absurd (List.prefix_nil.1 hthere) w.text_ne_nil
  | char c hnone _ => exact absurd hthere (hnone hword w)
  | kept v _ _ _ =>
    obtain ⟨more, hmore⟩ := hthere
    obtain ⟨rfl, -⟩ := RequireCall.text_inj hmore
    exact Or.inl ⟨front, _, rfl, rfl⟩
  | replaced v _ _ _ =>
    obtain ⟨more, hmore⟩ := hthere
    obtain ⟨rfl, -⟩ := RequireCall.text_inj hmore
    exact Or.inr ⟨front, _, rfl, rfl⟩

theorem kept_iff (h : Reading [] ps) :
    StandsAt ps place (.kept w) ↔ Found ps (sourceOf ps) place w ∧ BehindGoog place := by
  constructor
  · exact fun hw => ⟨⟨hw.isPrefix, (h.of_kept hw).1, hw.not_reached⟩, (h.of_kept hw).2⟩
  · exact fun ⟨hfound, hgoog⟩ => (h.of_found hfound).resolve_right fun hw => (h.of_replaced hw).2 hgoog

theorem replaced_iff (h : Reading [] ps) :
    StandsAt ps place (.replaced w) ↔ Found ps (sourceOf ps) place w ∧ ¬ BehindGoog place := by
  constructor
  · exact fun hw => ⟨⟨hw.isPrefix, (h.of_replaced hw).1, hw.not_reached⟩, (h.of_replaced hw).2⟩
  · exact fun ⟨hfound, hgoog⟩ => (h.of_found hfound).resolve_left fun hw => hgoog (h.of_kept hw).2

end Reading

/-! ## Modules -/

theorem render_map_stretch (name : String → String) (ps : List Piece) :
    (ps.map Piece.stretch).flatMap (Stretch.render name) = ps.flatMap (Piece.render name) := by
  rw [List.flatMap_map]
  rfl

/-- the header of an output in its module -/
def headerOf (rules : Rules) (es5 : Bool) (path : Path) : String :=
  header (rules.moduleName .empty path.text) (if es5 then some (rules.moduleId path) else none)

/-- a module is its header and the pieces of its text -/
theorem exists_pieces (rules : Rules) (es5 : Bool) (path : Path) (text : String) :
    ∃ ps, Reading [] ps ∧ sourceOf ps = text.toList ∧
    (wrap rules es5 path text).text =
      withHeader (headerOf rules es5 path) (ps.flatMap (Piece.render (rules.moduleName path))) := by
  obtain ⟨ps, hread, hsource, hps⟩ := exists_reading [] text.toList
  refine ⟨ps, hread, hsource, ?_⟩
  rw [← render_map_stretch, hps]
  rfl

/-- a word that starts behind this text is a whole name: it does not go on a name and is no member -/
def Bare (before : List Char) : Prop := ∀ c ∈ before.getLast?, Lexer.isIdentPart c = false ∧ c ≠ '.'

theorem bare_iff {before : List Char} (h : AtWord before) :
    Bare before ↔ ∀ c ∈ before.getLast?, c ≠ '.' ∧ c ≠ '$' ∧ c.toNat < 0x80 := by
  refine forall₂_congr fun c hc => ?_
  have hword := h c hc
  rw [isWordChar, Bool.or_eq_false_iff] at hword
  obtain ⟨halnum, hline⟩ := hword
  rw [Char.isAlphanum, Bool.or_eq_false_iff] at halnum
  simp only [Lexer.isIdentPart, Lexer.isIdentStart, halnum.1, halnum.2, hline, Bool.false_or, Bool.or_false,
    Bool.or_eq_false_iff, decide_eq_false_iff_not, Nat.not_le]
  tauto

/-- **Which require calls are replaced.** The text of an output is a row of pieces, and its module has a header and the
same row with the replaced calls as `goog.require` calls of module names, everything else as it is. A call is replaced
exactly if it starts where an ASCII word may start, no other call reaches over that place, and `goog.` is not in front
of it; behind `goog.` it stays. So a replaced call is a call of `require` itself exactly if neither a point, a dollar
sign nor a character beyond ASCII is in front of it. -/
theorem calls_replaced (rules : Rules) (es5 : Bool) (path : Path) (text : String) :
    ∃ ps : List Piece, sourceOf ps = text.toList ∧
    (wrap rules es5 path text).text =
      withHeader (headerOf rules es5 path) (ps.flatMap (Piece.render (rules.moduleName path))) ∧
    ∀ (before : List Char) (w : RequireCall),
      (StandsAt ps before (.kept w) ↔ Found ps text.toList before w ∧ BehindGoog before) ∧
      (StandsAt ps before (.replaced w) ↔ Found ps text.toList before w ∧ ¬ BehindGoog before) ∧
      (StandsAt ps before (.replaced w) →
        (Bare before ↔ ∀ c ∈ before.getLast?, c ≠ '.' ∧ c ≠ '$' ∧ c.toNat < 0x80)) := by
  obtain ⟨ps, hread, hsource, htext⟩ := exists_pieces rules es5 path text
  refine ⟨ps, hsource, htext, fun before w => ?_⟩
  rw [← hsource]
  exact ⟨hread.kept_iff, hread.replaced_iff, fun hw => bare_iff (hread.of_replaced hw).1⟩

/-- **A method is replaced:** no reading of `loader.require('x');` replaces only calls of `require` itself and has this
module. -/
theorem method_is_replaced :
    ¬ ∀ (rules : Rules) (es5 : Bool) (path : Path) (text : String), ∃ ps : List Piece, sourceOf ps = text.toList ∧
    (wrap rules es5 path text).text =
      withHeader (headerOf rules es5 path) (ps.flatMap (Piece.render (rules.moduleName path))) ∧
    ∀ (before : List Char) (w : RequireCall), StandsAt ps before (.replaced w) → Bare before := by
  intro hall
  obtain ⟨ps, hsource, htext, hbare⟩ :=
    hall (Policy.rules ⟨⟨"/p"⟩, none, [], []⟩) false ⟨"/p/a.js"⟩ "loader.require('x');"
  -- the only call is behind the point, so nothing is replaced
  have hplace : ∀ before ∈ "loader.require('x');".toList.inits,
      before ++ requireWord <+: "loader.require('x');".toList → before = "loader.".toList := by
    decide
  have hnone : ∀ p ∈ ps, p.render ((Policy.rules ⟨⟨"/p"⟩, none, [], []⟩).moduleName ⟨"/p/a.js"⟩) = p.source := by
    intro p hp
    cases p with
    | char c => rfl
    | kept w => rfl
    | replaced w =>
      obtain ⟨front, back, rfl⟩ := List.append_of_mem hp
      have hat : StandsAt (front ++ .replaced w :: back) (sourceOf front) (.replaced w) := ⟨front, back, rfl, rfl⟩
      have hthere := hat.isPrefix
      rw [hsource] at hthere
      have hword : sourceOf front ++ requireWord <+: "loader.require('x');".toList :=
        ((List.prefix_append_right_inj _).2 ⟨w.argument, rfl⟩).trans hthere
      have hfront := hplace _ ((List.mem_inits _ _).2 ((List.prefix_append _ _).trans hword)) hword
      have hlast := hbare _ w hat '.' (by rw [hfront]; decide)
      exact absurd rfl hlast.2
  have hsame : ps.flatMap (Piece.render ((Policy.rules ⟨⟨"/p"⟩, none, [], []⟩).moduleName ⟨"/p/a.js"⟩)) =
      "loader.require('x');".toList := by
    rw [← hsource]
    exact List.flatMap_congr hnone
  rw [hsame] at htext
  exact absurd htext (by decide +kernel)

end ClosurePipeline.GoogModule
