/-
The tokens of a text tile it. A text is cut into tokens and gaps, one behind the other, and a gap is a blank or a
comment that documents nothing.

- `Gap`, `Spelled`: what stands in the text for a gap, and for a token of each kind;
- `Lexed.right`: every lexeme is one or the other;
- `tiled_tokensFrom`: tokens and gaps of a text in one row, by induction on its lexemes;
- `tokens_tile`: what that says about byte ranges. Tokens are non-empty ranges on character boundaries, one behind the
  other, each with the text of its range, and every byte outside all of them lies in a gap.
-/
import Mathlib.Tactic
import Mathlib.Data.List.TakeWhile
import ClosurePipeline.Proofs.Token.Lexemes
import ClosurePipeline.Module.Summary

namespace ClosurePipeline.Lexer

/-! ## What stands for tokens and gaps -/

/-- a block comment in front of `rest`: it goes to its first closing, or to the text's end if there is none -/
inductive IsBlockComment : List Char → List Char → Prop where
  | closed (body rest : List Char) (h : ¬ ['*', '/'] <:+: body) : IsBlockComment (blockComment body) rest
  | unclosed (body : List Char) (h : ¬ ['*', '/'] <:+: body) : IsBlockComment ('/' :: '*' :: body) []

/-- a gap in front of `rest`: a blank, a comment to the line's end, or a block comment that documents nothing -/
inductive Gap : List Char → List Char → Prop where
  | blank (c : Char) (rest : List Char) (h : isBlank c = true) : Gap [c] rest
  | lineComment (body rest : List Char) (hbody : '\n' ∉ body) (hrest : ∀ d ∈ rest.head?, d = '\n') :
    Gap ('/' :: '/' :: body) rest
  | blockComment {text rest : List Char} (h : IsBlockComment text rest) (hplain : isDocText text = false) :
    Gap text rest

/-- a string of this value in front of `rest`: its closing quote is no part of the value, and without one it goes to the
end of its line or text -/
inductive IsString : String → List Char → List Char → Prop where
  | closed {quote : Char} {v : List Char} (rest : List Char) (hquote : quote = '"' ∨ quote = '\'')
      (hv : Inside quote v) :
      IsString (String.ofList v) (quote :: (v ++ [quote])) rest
  | unclosed {quote : Char} {v rest : List Char} (hquote : quote = '"' ∨ quote = '\'') (hv : Inside quote v)
      (hrest : ∀ d ∈ rest.head?, d = '\n') :
      IsString (String.ofList v) (quote :: v) rest
  | escapedEnd {quote : Char} {v : List Char} (hquote : quote = '"' ∨ quote = '\'') (hv : Inside quote v) :
      IsString (String.ofList (v ++ ['\\'])) (quote :: (v ++ ['\\'])) []

/-- `text` in front of `rest` stands for a token of this kind -/
def Spelled (text rest : List Char) : TokenKind → Prop
  | .ident name => name.toList = text ∧ isName text = true ∧ ∀ d ∈ rest.head?, isIdentPart d = false
  | .str value => IsString value text rest
  | .template => text.head? = some templateQuote
  | .number => ∃ c ∈ text.head?, c.isDigit = true ∨ c = '.'
  | .regex => text.head? = some '/'
  | .punct c => text = [c]
  | .doc comment => comment.toList = text ∧ IsBlockComment text rest ∧ isDocText text = true

theorem IsBlockComment.ne_nil {text rest : List Char} (h : IsBlockComment text rest) : text ≠ [] := by
  cases h with
  | closed body rest h => simp [blockComment]
  | unclosed body h => simp

theorem IsString.ne_nil {value : String} {text rest : List Char} (h : IsString value text rest) : text ≠ [] := by
  cases h <;> simp

theorem Spelled.ne_nil {text rest : List Char} : ∀ {kind : TokenKind}, Spelled text rest kind → text ≠ []
  | .ident _, ⟨_, hname, _⟩ => by rintro rfl; cases hname
  | .str _, h => IsString.ne_nil h
  | .template, h => by rintro rfl; cases h
  | .number, h => by rintro rfl; obtain ⟨c, hc, -⟩ := h; cases hc
  | .regex, h => by rintro rfl; cases h
  | .punct _, h => by rintro rfl; cases h
  | .doc _, ⟨_, hcomment, _⟩ => hcomment.ne_nil

/-! ## Every lexeme is a token or a gap -/

/-- what a lexeme is, its text in front of `rest` -/
def Stands (text rest : List Char) : Option TokenKind → Prop
  | none => Gap text rest
  | some kind => Spelled text rest kind

/-- a lexeme says what it is, its text cut off at its end -/
def Lexeme.Right (c : Char) (cs : List Char) (lx : Lexeme) : Prop :=
  Stands (lexemeText c cs lx.extra) (cs.drop lx.extra) lx.kind

theorem right_commentLexeme (cs : List Char) : (commentLexeme '/' ('*' :: cs)).Right '/' ('*' :: cs) := by
  have hcomment : IsBlockComment ('/' :: '*' :: cs.take (commentReach cs).chars) (cs.drop (commentReach cs).chars) := by
    rcases commentReach_cases cs with ⟨body, rest, rfl, hbody⟩ | ⟨hopen, hlen⟩
    · have hsplit : body ++ '*' :: '/' :: rest = (body ++ ['*', '/']) ++ rest := by simp
      have hlen : (commentReach (body ++ '*' :: '/' :: rest)).chars = (body ++ ['*', '/']).length := by
        rw [commentReach_append hbody]
        simp
      rw [hlen, hsplit, List.take_left, List.drop_left]
      exact .closed body rest hbody
    · rw [hlen, List.take_length, List.drop_length]
      exact .unclosed cs hopen
  unfold Lexeme.Right commentLexeme
  simp only [List.drop_succ_cons, List.drop_zero, lexemeText, List.take_succ_cons]
  split_ifs with hdoc
  · exact ⟨String.toList_ofList, hcomment, hdoc⟩
  · exact .blockComment hcomment (by simpa using hdoc)

theorem right_stringLexeme {quote : Char} (hquote : quote = '"' ∨ quote = '\'') (cs : List Char) :
    (stringLexeme quote cs).Right quote cs := by
  have hplain : quote ≠ '\\' ∧ quote ≠ '\n' := by rcases hquote with rfl | rfl <;> decide
  obtain ⟨v, tail, rfl, hv, hstop⟩ := exists_inside quote cs
  unfold Lexeme.Right stringLexeme
  rw [stringReach_inside hv]
  simp only [Stands, Spelled, lexemeText]
  cases hstop with
  | closed rest =>
    have hreach : stringReach quote (quote :: rest) = (1, true) := by
      rw [stringReach] <;> simp [hplain.1, hplain.2]
    have hsplit : v ++ quote :: rest = (v ++ [quote]) ++ rest := by simp
    have htake : (v ++ quote :: rest).take (1 + v.length) = v ++ [quote] := by
      rw [hsplit]
      exact List.take_left' (by simp [Nat.add_comm])
    have hvalue : (v ++ quote :: rest).take (1 + v.length - 1) = v := List.take_left' (by omega)
    simp only [hreach, if_true, htake, hvalue]
    exact .closed _ hquote hv
  | lineEnd rest =>
    have hreach : stringReach quote ('\n' :: rest) = (0, false) := by rw [stringReach] <;> simp
    simp only [hreach, Bool.false_eq_true, if_false, Nat.zero_add, List.take_left, List.drop_left]
    exact .unclosed hquote hv (by simp)
  | textEnd =>
    simp only [stringReach, Bool.false_eq_true, if_false, Nat.zero_add, List.take_left, List.drop_left]
    exact .unclosed hquote hv (by simp)
  | escapedEnd =>
    have hlen : 1 + v.length = (v ++ ['\\']).length := by simp [Nat.add_comm]
    simp only [stringReach, Bool.false_eq_true, if_false, hlen, List.take_length, List.drop_length]
    exact .escapedEnd hquote hv

theorem right_identLexeme {c : Char} (hc : isIdentStart c = true) (cs : List Char) : (identLexeme c cs).Right c cs := by
  unfold Lexeme.Right identLexeme
  simp only [Stands, Spelled, lexemeText, take_length_takeWhile, drop_length_takeWhile, String.toList_ofList, true_and]
  refine ⟨?_, head?_dropWhile⟩
  rw [isName, hc, Bool.true_and, List.all_eq_true]
  exact fun d hd => List.mem_takeWhile_imp hd

theorem right_lineComment (cs : List Char) :
    (⟨('/' :: cs).takeWhile (· ≠ '\n') |>.length, 0, none⟩ : Lexeme).Right '/' ('/' :: cs) := by
  unfold Lexeme.Right
  simp only [Stands, lexemeText, take_length_takeWhile, drop_length_takeWhile]
  have hslash : ('/' :: cs).takeWhile (· ≠ '\n') = '/' :: cs.takeWhile (· ≠ '\n') :=
    List.takeWhile_cons_of_pos (by decide)
  rw [hslash]
  refine .lineComment _ _ (fun hbreak => ?_) fun d hd => ?_
  · simpa using List.mem_takeWhile_imp hbreak
  · simpa using head?_dropWhile d hd

/-- **Every lexeme is a token or a gap.** -/
theorem Lexed.right {prev : Option TokenKind} {c : Char} {cs : List Char} {l : Lexeme} (h : Lexed prev c cs l) :
    l.Right c cs := by
  cases h with
  | blank h => exact .blank c cs h
  | lineComment hc h =>
    subst hc
    obtain ⟨ds, rfl⟩ := List.head?_eq_some_iff.1 h
    exact right_lineComment ds
  | blockComment hc h =>
    subst hc
    obtain ⟨ds, rfl⟩ := List.head?_eq_some_iff.1 h
    exact right_commentLexeme ds
  | regex hc hline hblock h => exact congrArg some hc
  | string h => exact right_stringLexeme h cs
  | template h => exact congrArg some h
  | number h => exact ⟨c, rfl, h.imp_right And.left⟩
  | name h => exact right_identLexeme h cs
  | mark => rfl

theorem stands_of_lexeme {prev kind : Option TokenKind} {c : Char} {cs rest : List Char} {n : Nat}
    (hlex : lexeme prev c (cs ++ rest) = ⟨cs.length, n, kind⟩) : Stands (c :: cs) rest kind := by
  have hright := (lexeme_eq_iff.1 hlex).right
  rw [Lexeme.Right] at hright
  simpa only [lexemeText, List.take_left, List.drop_left] using hright

/-! ## Tokens and gaps in one row -/

/-- `cs`, which starts at byte `offset`, is a row of tokens `ts` and of gaps -/
inductive Tiled : Nat → List Char → List Token → List Span → Prop where
  | nil (offset : Nat) : Tiled offset [] [] []
  | gap {offset : Nat} {text rest : List Char} {ts : List Token} {gaps : List Span} (h : Gap text rest)
      (hrest : Tiled (offset + Text.byteLength text) rest ts gaps) :
      Tiled offset (text ++ rest) ts (⟨offset, offset + Text.byteLength text⟩ :: gaps)
  | token {offset : Nat} {text rest : List Char} {ts : List Token} {gaps : List Span} {kind : TokenKind} (line : Nat)
      (h : Spelled text rest kind) (hrest : Tiled (offset + Text.byteLength text) rest ts gaps) :
      Tiled offset (text ++ rest) (⟨kind, offset, offset + Text.byteLength text, line⟩ :: ts) gaps

theorem tiled_tokensFrom (prev : Option TokenKind) (cs : List Char) :
    ∀ offset line, ∃ gaps, Tiled offset cs (tokensFrom prev offset line cs) gaps := by
  induction prev, cs using lexemes_induction with
  | nil prev =>
    intro offset line
    refine ⟨[], ?_⟩
    rw [tokensFrom]
    exact .nil offset
  | cons prev c cs rest n kind hlex ih =>
    intro offset line
    obtain ⟨gaps, hrest⟩ := ih (offset + Text.byteLength (c :: cs)) (line + n)
    cases kind with
    | none =>
      refine ⟨⟨offset, offset + Text.byteLength (c :: cs)⟩ :: gaps, ?_⟩
      rw [tokensFrom_of_none cs rest hlex]
      exact .gap (stands_of_lexeme hlex) hrest
    | some kind =>
      refine ⟨gaps, ?_⟩
      rw [tokensFrom_of_some cs rest hlex]
      exact .token line (stands_of_lexeme hlex) hrest

/-! ## Byte ranges -/

/-- `text` is what stands in `cs` from byte `start` to byte `stop`, with `rest` behind it -/
structure StandsAt (cs : List Char) (start stop : Nat) (text rest : List Char) : Prop where
  split : ∃ before, cs = before ++ (text ++ rest) ∧ start = Text.byteLength before
  stop : stop = start + Text.byteLength text

namespace StandsAt

variable {cs text rest : List Char} {start stop : Nat}

theorem slice_eq (h : StandsAt cs start stop text rest) : Text.slice cs start stop = text := by
  obtain ⟨⟨before, rfl, rfl⟩, rfl⟩ := h
  rw [← List.append_assoc, Text.slice_append]

theorem dropBytes_eq (h : StandsAt cs start stop text rest) : Text.dropBytes stop cs = rest := by
  obtain ⟨⟨before, rfl, rfl⟩, rfl⟩ := h
  rw [← List.append_assoc, ← Text.byteLength_append, Text.dropBytes_byteLength_append]

theorem stop_le (h : StandsAt cs start stop text rest) : stop ≤ Text.byteLength cs := by
  obtain ⟨⟨before, rfl, rfl⟩, rfl⟩ := h
  simp only [Text.byteLength_append]
  omega

theorem lt_stop (h : StandsAt cs start stop text rest) (hne : text ≠ []) : start < stop := by
  obtain ⟨c, ds, rfl⟩ := List.exists_cons_of_ne_nil hne
  have hpos := c.utf8Size_pos
  have hstop := h.stop
  rw [Text.byteLength_cons] at hstop
  omega

end StandsAt

/-- a byte offset between two characters of `cs`, or at one of its ends -/
def OnBoundary (cs : List Char) (n : Nat) : Prop := ∃ before behind, cs = before ++ behind ∧ n = Text.byteLength before

theorem StandsAt.onBoundary {cs text rest : List Char} {start stop : Nat} (h : StandsAt cs start stop text rest) :
    OnBoundary cs start ∧ OnBoundary cs stop := by
  obtain ⟨⟨before, rfl, rfl⟩, rfl⟩ := h
  exact ⟨⟨before, text ++ rest, rfl, rfl⟩, before ++ text, rest, (List.append_assoc ..).symm,
    (Text.byteLength_append ..).symm⟩

namespace Tiled

variable {offset : Nat} {cs : List Char} {ts : List Token} {gaps : List Span}

theorem le_start (h : Tiled offset cs ts gaps) : (∀ t ∈ ts, offset ≤ t.start) ∧ ∀ g ∈ gaps, offset ≤ g.start := by
  induction h with
  | nil offset => simp
  | gap h hrest ih =>
    refine ⟨fun t ht => (Nat.le_add_right _ _).trans (ih.1 t ht), fun g hg => ?_⟩
    rcases List.mem_cons.1 hg with rfl | hg
    · exact Nat.le_refl _
    · exact (Nat.le_add_right _ _).trans (ih.2 g hg)
  | token line h hrest ih =>
    refine ⟨fun t ht => ?_, fun g hg => (Nat.le_add_right _ _).trans (ih.2 g hg)⟩
    rcases List.mem_cons.1 ht with rfl | ht
    · exact Nat.le_refl _
    · exact (Nat.le_add_right _ _).trans (ih.1 t ht)

/-- tokens and gaps come one behind the other -/
theorem ordered (h : Tiled offset cs ts gaps) :
    (ts.Pairwise fun t u => t.stop ≤ u.start) ∧ (gaps.Pairwise fun g k => g.stop ≤ k.start) ∧
      ∀ g ∈ gaps, ∀ t ∈ ts, g.stop ≤ t.start ∨ t.stop ≤ g.start := by
  induction h with
  | nil offset => simp
  | gap h hrest ih =>
    obtain ⟨htokens, hgaps, hapart⟩ := ih
    refine ⟨htokens, List.pairwise_cons.2 ⟨hrest.le_start.2, hgaps⟩, fun g hg t ht => ?_⟩
    rcases List.mem_cons.1 hg with rfl | hg
    · exact Or.inl (hrest.le_start.1 t ht)
    · exact hapart g hg t ht
  | token line h hrest ih =>
    obtain ⟨htokens, hgaps, hapart⟩ := ih
    refine ⟨List.pairwise_cons.2 ⟨hrest.le_start.1, htokens⟩, hgaps, fun g hg t ht => ?_⟩
    rcases List.mem_cons.1 ht with rfl | ht
    · exact Or.inr (hrest.le_start.2 g hg)
    · exact hapart g hg t ht

/-- every token and every gap stands in the text where it says -/
theorem standsAt (h : Tiled offset cs ts gaps) : ∀ before, Text.byteLength before = offset →
    (∀ t ∈ ts, ∃ text rest, StandsAt (before ++ cs) t.start t.stop text rest ∧ Spelled text rest t.kind) ∧
      ∀ g ∈ gaps, ∃ text rest, StandsAt (before ++ cs) g.start g.stop text rest ∧ Gap text rest := by
  induction h with
  | nil offset => simp
  | @gap offset text rest ts gaps h hrest ih =>
    rintro before rfl
    obtain ⟨htokens, hgaps⟩ := ih (before ++ text) (Text.byteLength_append ..)
    rw [List.append_assoc] at htokens hgaps
    refine ⟨htokens, fun g hg => ?_⟩
    rcases List.mem_cons.1 hg with rfl | hg
    · exact ⟨text, rest, ⟨⟨before, rfl, rfl⟩, rfl⟩, h⟩
    · exact hgaps g hg
  | @token offset text rest ts gaps kind line h hrest ih =>
    rintro before rfl
    obtain ⟨htokens, hgaps⟩ := ih (before ++ text) (Text.byteLength_append ..)
    rw [List.append_assoc] at htokens hgaps
    refine ⟨fun t ht => ?_, hgaps⟩
    rcases List.mem_cons.1 ht with rfl | ht
    · exact ⟨text, rest, ⟨⟨before, rfl, rfl⟩, rfl⟩, h⟩
    · exact htokens t ht

/-- no byte is left out -/
theorem covered (h : Tiled offset cs ts gaps) : ∀ n, offset ≤ n → n < offset + Text.byteLength cs →
    (∃ t ∈ ts, t.start ≤ n ∧ n < t.stop) ∨ ∃ g ∈ gaps, g.start ≤ n ∧ n < g.stop := by
  induction h with
  | nil offset =>
    intro n hlow hhigh
    rw [Text.byteLength_nil] at hhigh
    omega
  | @gap offset text rest ts gaps h hrest ih =>
    intro n hlow hhigh
    rw [Text.byteLength_append] at hhigh
    by_cases hn : n < offset + Text.byteLength text
    · exact Or.inr ⟨_, List.mem_cons_self, hlow, hn⟩
    · refine (ih n (by omega) (by omega)).imp_right fun ⟨g, hg, hin⟩ => ⟨g, List.mem_cons_of_mem _ hg, hin⟩
  | @token offset text rest ts gaps kind line h hrest ih =>
    intro n hlow hhigh
    rw [Text.byteLength_append] at hhigh
    by_cases hn : n < offset + Text.byteLength text
    · exact Or.inl ⟨_, List.mem_cons_self, hlow, hn⟩
    · refine (ih n (by omega) (by omega)).imp_left fun ⟨t, ht, hin⟩ => ⟨t, List.mem_cons_of_mem _ ht, hin⟩

end Tiled

/-- a token stands in its text for what it is -/
theorem exists_spelled {cs : List Char} {t : Token} (ht : t ∈ tokenize cs) :
    ∃ text rest, StandsAt cs t.start t.stop text rest ∧ Spelled text rest t.kind := by
  obtain ⟨gaps, htiled⟩ := tiled_tokensFrom none cs 0 0
  exact (htiled.standsAt [] rfl).1 t ht

/-! ## The tokens of a text -/

/-- `gaps` are the ranges of `cs` between the tokens `ts`: on character boundaries, one behind the other and apart from
the tokens -/
structure GapsBetween (cs : List Char) (ts : List Token) (gaps : List Span) : Prop where
  onBoundaries : ∀ g ∈ gaps, OnBoundary cs g.start ∧ OnBoundary cs g.stop
  ordered : gaps.Pairwise fun g k => g.stop ≤ k.start
  apart : ∀ g ∈ gaps, ∀ t ∈ ts, g.stop ≤ t.start ∨ t.stop ≤ g.start
  gap : ∀ g ∈ gaps, Gap (Text.slice cs g.start g.stop) (Text.dropBytes g.stop cs)

/-- the tokens `ts` tile `cs` up to blanks and to comments that document nothing -/
structure Tiles (cs : List Char) (ts : List Token) : Prop where
  nonempty : ∀ t ∈ ts, t.start < t.stop
  within : ∀ t ∈ ts, t.stop ≤ Text.byteLength cs
  onBoundaries : ∀ t ∈ ts, OnBoundary cs t.start ∧ OnBoundary cs t.stop
  ordered : ts.Pairwise fun t u => t.stop ≤ u.start
  covered : ∃ gaps, GapsBetween cs ts gaps ∧
    ∀ n < Text.byteLength cs, (∃ t ∈ ts, t.start ≤ n ∧ n < t.stop) ∨ ∃ g ∈ gaps, g.start ≤ n ∧ n < g.stop
  spelled : ∀ t ∈ ts, Spelled (Text.slice cs t.start t.stop) (Text.dropBytes t.stop cs) t.kind

/-- **Tokens tile the text:** they are non-empty ranges of it on character boundaries, one behind the other, each
carries the text of its range, and every byte outside all of them is a blank or lies in a comment that documents
nothing. -/
theorem tokens_tile (cs : List Char) : Tiles cs (tokenize cs) := by
  obtain ⟨gaps, htiled⟩ := tiled_tokensFrom none cs 0 0
  have hgaps := (htiled.standsAt [] rfl).2
  obtain ⟨hordered, hbehind, hapart⟩ := htiled.ordered
  rw [List.nil_append] at hgaps
  refine ⟨fun t ht => ?_, fun t ht => ?_, fun t ht => ?_, hordered,
    ⟨gaps, ⟨fun g hg => ?_, hbehind, hapart, fun g hg => ?_⟩, fun n hn => ?_⟩, fun t ht => ?_⟩
  · obtain ⟨text, rest, hstands, hspelled⟩ := exists_spelled ht
    exact hstands.lt_stop hspelled.ne_nil
  · obtain ⟨text, rest, hstands, -⟩ := exists_spelled ht
    exact hstands.stop_le
  · obtain ⟨text, rest, hstands, -⟩ := exists_spelled ht
    exact hstands.onBoundary
  · obtain ⟨text, rest, hstands, -⟩ := hgaps g hg
    exact hstands.onBoundary
  · obtain ⟨text, rest, hstands, hgap⟩ := hgaps g hg
    rwa [hstands.slice_eq, hstands.dropBytes_eq]
  · exact htiled.covered n (Nat.zero_le n) (by omega)
  · obtain ⟨text, rest, hstands, hspelled⟩ := exists_spelled ht
    rwa [hstands.slice_eq, hstands.dropBytes_eq]

end ClosurePipeline.Lexer
