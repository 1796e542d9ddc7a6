/-
Texts laid out token by token, and what the lexer makes of them. A text is a list of pieces: a gap of blanks and plain
comments, and a glyph behind it, a word, a string or a mark. Any gaps will do, as long as two words next to each other
have something between them.

- `Word`, `Quoted`, `Glyph`: what stands in the text for a token; `Trivia`: what a gap is made of;
- `lexeme_word`, `lexeme_quoted`, `lexeme_mark`, `lexeme_closedComment`: what the lexer takes at the start of each of
  them;
- `tokensFrom_gap`, `tokensFrom_glyph`: a gap is passed over, its line breaks counted, and a glyph is its token;
- `tokenize_layout`: the tokens of a text are those of its pieces, each on the line it starts on.
-/
import Mathlib.Tactic
import ClosurePipeline.Proofs.Token.Rules

namespace ClosurePipeline.Lexer

/-! ## Glyphs and gaps -/

/-- the text of a name -/
def isName : List Char → Bool
  | [] => false
  | c :: cs => isIdentStart c && cs.all isIdentPart

/-- a name or keyword -/
structure Word where
  name : String
  lexes : isName name.toList = true

/-- a string without escapes, in quotes of either form -/
structure Quoted where
  quote : Char
  value : String
  isQuote : quote = '\'' ∨ quote = '"'
  plain : ∀ c ∈ value.toList, c ≠ quote ∧ c ≠ '\\' ∧ c ≠ '\n'

/-- the string as it stands in a text -/
def Quoted.chars (s : Quoted) : List Char := s.quote :: (s.value.toList ++ [s.quote])

/-- characters that are tokens by themselves, wherever they stand -/
def marks : List Char := ['*', '{', '}', ',', '=', '(', ')', ';']

/-- what stands in a text for a token -/
inductive Glyph where
  | word (w : Word)
  | quoted (s : Quoted)
  | mark (c : Char) (h : c ∈ marks)

namespace Glyph

/-- the glyph in a text -/
def chars : Glyph → List Char
  | word w => w.name.toList
  | quoted s => s.chars
  | mark c _ => [c]

/-- its token -/
def kind : Glyph → TokenKind
  | word w => .ident w.name
  | quoted s => .str s.value
  | mark c _ => .punct c

/-- a word must not touch another one -/
def isWord : Glyph → Bool
  | word _ => true
  | _ => false

end Glyph

/-- a block comment -/
def blockComment (body : List Char) : List Char := '/' :: '*' :: (body ++ ['*', '/'])

/-- what may stand between tokens: a blank, a comment to the line's end with the line break, or a block comment. One
that opens with another star is a doc comment, and a token. -/
inductive Trivia where
  | blank (c : Char) (h : c ∈ [' ', '\t', '\r', '\n'])
  | lineComment (body : List Char) (h : '\n' ∉ body)
  | blockComment (body : List Char) (hclosed : ¬ ['*', '/'] <:+: body) (hplain : body.head? ≠ some '*')

/-- trivia in a text -/
def Trivia.chars : Trivia → List Char
  | blank c _ => [c]
  | lineComment body _ => '/' :: '/' :: (body ++ ['\n'])
  | blockComment body _ _ => Lexer.blockComment body

/-- a gap in a text -/
def gapChars (gap : List Trivia) : List Char := gap.flatMap Trivia.chars

/-- a glyph and the gap in front of it -/
structure Spaced where
  gap : List Trivia
  glyph : Glyph

/-- a piece in a text -/
def Spaced.chars (p : Spaced) : List Char := gapChars p.gap ++ p.glyph.chars

/-- pieces in a text -/
def layout (pieces : List Spaced) : List Char := pieces.flatMap Spaced.chars

/-- words next to each other have something between them -/
def Apart (pieces : List Spaced) : Prop :=
  pieces.IsChain fun p q => p.glyph.isWord = true → q.glyph.isWord = true → q.gap ≠ []

theorem isBlank_iff {c : Char} : isBlank c = true ↔ c ∈ [' ', '\t', '\r', '\n'] := by simp [isBlank, or_assoc]

/-! ## Lexemes -/

section Lexeme

variable {prev : Option TokenKind} {c : Char} {cs rest : List Char} {n : Nat}

/-- a lexeme that is no token is passed over -/
theorem tokensFrom_of_none (cs rest : List Char) (h : lexeme prev c (cs ++ rest) = ⟨cs.length, n, none⟩)
    (offset line : Nat) :
    tokensFrom prev offset line (c :: (cs ++ rest)) =
      tokensFrom prev (offset + Text.byteLength (c :: cs)) (line + n) rest := by
  rw [tokensFrom]
  simp only [h, lexemeText, List.take_left, List.drop_left]

/-- any other lexeme is its token -/
theorem tokensFrom_of_some {kind : TokenKind} (cs rest : List Char)
    (h : lexeme prev c (cs ++ rest) = ⟨cs.length, n, some kind⟩) (offset line : Nat) :
    tokensFrom prev offset line (c :: (cs ++ rest)) = ⟨kind, offset, offset + Text.byteLength (c :: cs), line⟩ ::
      tokensFrom (some kind) (offset + Text.byteLength (c :: cs)) (line + n) rest := by
  rw [tokensFrom]
  simp only [h, lexemeText, List.take_left, List.drop_left]

theorem lexeme_lineComment {body : List Char} (h : '\n' ∉ body) :
    lexeme prev '/' ('/' :: (body ++ '\n' :: rest)) = ⟨body.length + 1, 0, none⟩ := by
  have htake : ('/' :: (body ++ '\n' :: rest)).takeWhile (· ≠ '\n') = '/' :: body := by
    have hbody : ∀ d ∈ '/' :: body, decide (d ≠ '\n') = true := by
      intro d hd
      rcases List.mem_cons.1 hd with rfl | hd
      · decide
      · exact decide_eq_true fun hc => h (hc ▸ hd)
    rw [← List.cons_append, List.takeWhile_append_of_pos hbody]
    simp
  rw [(Lexed.lineComment rfl rfl).eq, htake, List.length_cons]

/-- a block comment ends at its first closing -/
theorem commentReach_append {body : List Char} (h : ¬ ['*', '/'] <:+: body) :
    commentReach (body ++ '*' :: '/' :: rest) = ⟨body.length + 2, Text.breaks body⟩ := by
  induction body with
  | nil => rfl
  | cons c body ih =>
    have hrest := ih fun hc => h (hc.trans (List.suffix_cons c body).isInfix)
    have hopen : ∀ ds, c = '*' → body ++ '*' :: '/' :: rest = '/' :: ds → False := by
      rintro ds rfl hds
      cases body with
      | nil => simp at hds
      | cons d body =>
        rw [List.cons_append, List.cons.injEq] at hds
        exact h ⟨[], body, by simp [hds.1]⟩
    rw [List.cons_append, commentReach]
    · rw [hrest, Reach.add, List.length_cons, Text.breaks, Text.breaks, List.count_cons]
      simp only [beq_iff_eq, Nat.add_right_comm]
    · exact hopen

/-- a block comment with its closing is a token if it documents what follows, whatever that is -/
theorem lexeme_closedComment {body : List Char} (h : ¬ ['*', '/'] <:+: body) :
    lexeme prev '/' ('*' :: (body ++ ['*', '/']) ++ rest) =
      ⟨body.length + 3, Text.breaks body, if isDocText (blockComment body) then
        some (.doc (String.ofList (blockComment body))) else none⟩ := by
  have hreach : commentReach (body ++ '*' :: '/' :: rest) = ⟨body.length + 2, Text.breaks body⟩ := commentReach_append h
  have htext : lexemeText '/' ('*' :: (body ++ '*' :: '/' :: rest)) (body.length + 3) = blockComment body := by
    have hsplit : '*' :: (body ++ '*' :: '/' :: rest) = '*' :: (body ++ ['*', '/']) ++ rest := by simp
    rw [lexemeText, hsplit, List.take_append_of_le_length (by simp), List.take_of_length_le (by simp)]
    rfl
  have hcs : '*' :: (body ++ ['*', '/']) ++ rest = '*' :: (body ++ '*' :: '/' :: rest) := by simp
  rw [hcs, (Lexed.blockComment rfl rfl).eq, commentLexeme]
  simp only [List.drop_succ_cons, List.drop_zero, hreach, htext]

theorem isDocText_blockComment {body : List Char} (h : body.head? ≠ some '*') :
    isDocText (blockComment body) = false := by
  cases body with
  | nil => decide
  | cons c body =>
    have hc : '*' ≠ c := fun e => h (congrArg some e.symm)
    simp [isDocText, blockComment, hc]

theorem lexeme_blockComment {body : List Char} (h : ¬ ['*', '/'] <:+: body) (hplain : body.head? ≠ some '*') :
    lexeme prev '/' ('*' :: (body ++ ['*', '/']) ++ rest) = ⟨body.length + 3, Text.breaks body, none⟩ := by
  rw [lexeme_closedComment h, isDocText_blockComment hplain]
  rfl

/-- a word goes as far as its characters -/
theorem lexeme_word (hc : isIdentStart c = true) (hcs : ∀ d ∈ cs, isIdentPart d = true)
    (hrest : ∀ d ∈ rest.head?, isIdentPart d = false) :
    lexeme prev c (cs ++ rest) = ⟨cs.length, 0, some (.ident (String.ofList (c :: cs)))⟩ := by
  have htake : (cs ++ rest).takeWhile isIdentPart = cs := by
    rw [List.takeWhile_append_of_pos hcs]
    cases rest with
    | nil => simp
    | cons d rest => simp [hrest d rfl]
  rw [(Lexed.name hc).eq, identLexeme]
  simp only [htake]

/-- a string is closed by its quote -/
theorem stringReach_append {quote : Char} (h : ∀ d ∈ cs, d ≠ quote ∧ d ≠ '\\' ∧ d ≠ '\n')
    (hbreak : quote ≠ '\n') (hslash : quote ≠ '\\') :
    stringReach quote (cs ++ quote :: rest) = (cs.length + 1, true) := by
  induction cs with
  | nil => rw [List.nil_append, stringReach] <;> simp [hbreak, hslash]
  | cons d cs ih =>
    obtain ⟨hquote, hback, hline⟩ := h d List.mem_cons_self
    rw [List.cons_append, stringReach] <;> simp [hquote, hback, hline, ih fun e he => h e (List.mem_cons_of_mem _ he)]

theorem lexeme_quoted (s : Quoted) :
    lexeme prev s.quote (s.value.toList ++ [s.quote] ++ rest) =
      ⟨s.value.toList.length + 1, 0, some (.str s.value)⟩ := by
  have hquote : ∀ q : Char, q = '\'' ∨ q = '"' → q ≠ '\n' ∧ q ≠ '\\' := by
    rintro q (rfl | rfl) <;> decide
  obtain ⟨hbreak, hback⟩ := hquote s.quote s.isQuote
  have hreach : stringReach s.quote (s.value.toList ++ [s.quote] ++ rest) = (s.value.toList.length + 1, true) := by
    rw [List.append_assoc]
    exact stringReach_append s.plain hbreak hback
  rw [(Lexed.string s.isQuote.symm).eq, stringLexeme, hreach]
  simp

theorem lexeme_mark (hc : c ∈ marks) : lexeme prev c cs = ⟨0, 0, some (.punct c)⟩ := by
  have hmarks : ∀ c ∈ marks, c ∉ openings ∧ c.isDigit = false ∧ c ≠ '.' ∧ isIdentStart c = false :=
    List.forall_iff_forall_mem.1 (by decide)
  obtain ⟨hopens, hdigit, hpoint, hname⟩ := hmarks c hc
  exact lexeme_punct hopens (not_startsNumber hdigit fun h => absurd h hpoint) hname

end Lexeme

/-! ## Gaps and glyphs in a text -/

section Layout

variable (prev : Option TokenKind) (offset line : Nat) (rest : List Char)

theorem tokensFrom_trivia (t : Trivia) :
    tokensFrom prev offset line (t.chars ++ rest) =
      tokensFrom prev (offset + Text.byteLength t.chars) (line + Text.breaks t.chars) rest := by
  cases t with
  | blank c h => exact tokensFrom_of_none [] rest (Lexed.blank (isBlank_iff.2 h)).eq offset line
  | lineComment body h =>
    -- the line break behind the comment is a lexeme of its own
    have hcomment := @tokensFrom_of_none prev '/' _ ('/' :: body) ('\n' :: rest) (lexeme_lineComment h) offset line
    have hbreak := @tokensFrom_of_none prev '\n' _ [] rest (Lexed.blank rfl).eq
    have hchars : (Trivia.lineComment body h).chars = '/' :: '/' :: body ++ ['\n'] := rfl
    have hnone : Text.breaks ('/' :: '/' :: body) = 0 := Text.breaks_eq_zero (by simp [h])
    rw [hchars, List.append_assoc, Text.byteLength_append, Text.breaks_append, hnone, Nat.zero_add, ← Nat.add_assoc]
    exact hcomment.trans (hbreak _ _)
  | blockComment body hclosed hplain =>
    have hcomment := @tokensFrom_of_none prev '/' (Text.breaks body) ('*' :: (body ++ ['*', '/'])) rest
      (by rw [lexeme_blockComment hclosed hplain]; simp) offset line
    have hbreaks : Text.breaks (blockComment body) = Text.breaks body := by
      have hsplit : blockComment body = ['/', '*'] ++ body ++ ['*', '/'] := by simp [blockComment]
      have hopening : Text.breaks ['/', '*'] = 0 := by decide
      have hclosing : Text.breaks ['*', '/'] = 0 := by decide
      rw [hsplit, Text.breaks_append, Text.breaks_append, hopening, hclosing, Nat.zero_add, Nat.add_zero]
    rw [Trivia.chars, hbreaks]
    exact hcomment

/-- **A gap is passed over,** and its line breaks are counted. -/
theorem tokensFrom_gap (gap : List Trivia) :
    tokensFrom prev offset line (gapChars gap ++ rest) =
      tokensFrom prev (offset + Text.byteLength (gapChars gap)) (line + Text.breaks (gapChars gap)) rest := by
  induction gap generalizing offset line with
  | nil => rfl
  | cons t gap ih =>
    have hcons : gapChars (t :: gap) = t.chars ++ gapChars gap := List.flatMap_cons
    rw [hcons, List.append_assoc, tokensFrom_trivia, ih, Text.byteLength_append, Text.breaks_append, Nat.add_assoc,
      Nat.add_assoc]

/-- **A glyph is its token,** if no word is glued to a word. -/
theorem tokensFrom_glyph (g : Glyph) (hrest : g.isWord = true → ∀ d ∈ rest.head?, isIdentPart d = false) :
    tokensFrom prev offset line (g.chars ++ rest) = ⟨g.kind, offset, offset + Text.byteLength g.chars, line⟩ ::
      tokensFrom (some g.kind) (offset + Text.byteLength g.chars) (line + Text.breaks g.chars) rest := by
  cases g with
  | word w =>
    have hlexes := w.lexes
    cases hname : w.name.toList with
    | nil => rw [hname] at hlexes; cases hlexes
    | cons c cs =>
      rw [hname, isName, Bool.and_eq_true, List.all_eq_true] at hlexes
      have hnone : Text.breaks (c :: cs) = 0 := by
        refine Text.breaks_eq_zero fun hbreak => ?_
        rcases List.mem_cons.1 hbreak with rfl | hbreak
        · exact absurd hlexes.1 (by decide)
        · exact absurd (hlexes.2 _ hbreak) (by decide)
      have hword := @tokensFrom_of_some prev _ _ _ cs rest (lexeme_word hlexes.1 hlexes.2 (hrest rfl)) offset line
      have hkind : (Glyph.word w).kind = .ident (String.ofList (c :: cs)) := by rw [← hname, String.ofList_toList]; rfl
      rw [Glyph.chars, hname, hnone, hkind]
      exact hword
  | quoted s =>
    have hnone : Text.breaks s.chars = 0 := by
      have hquote : ∀ q : Char, q = '\'' ∨ q = '"' → '\n' ≠ q := by rintro q (rfl | rfl) <;> decide
      refine Text.breaks_eq_zero fun hbreak => ?_
      simp only [Quoted.chars, List.mem_cons, List.mem_append, List.not_mem_nil, or_false] at hbreak
      rcases hbreak with hbreak | hbreak | hbreak
      · exact hquote _ s.isQuote hbreak
      · exact (s.plain _ hbreak).2.2 rfl
      · exact hquote _ s.isQuote hbreak
    have hstring := @tokensFrom_of_some prev _ 0 (.str s.value) (s.value.toList ++ [s.quote]) rest
      (by rw [lexeme_quoted, List.length_append]; rfl) offset line
    rw [Glyph.chars, hnone]
    exact hstring
  | mark c h =>
    have hnone : ∀ c ∈ marks, Text.breaks [c] = 0 := List.forall_iff_forall_mem.1 (by decide)
    rw [Glyph.chars, hnone c h]
    exact tokensFrom_of_some [] rest (lexeme_mark h) offset line

end Layout

/-! ## Layouts -/

/-- the tokens of pieces that start at byte `offset` on line `line` -/
def tokensAt (offset line : Nat) : List Spaced → List Token
  | [] => []
  | p :: pieces =>
    let start := offset + Text.byteLength (gapChars p.gap)
    ⟨p.glyph.kind, start, start + Text.byteLength p.glyph.chars, line + Text.breaks (gapChars p.gap)⟩ ::
      tokensAt (offset + Text.byteLength p.chars) (line + Text.breaks p.chars) pieces

theorem map_kind_tokensAt (pieces : List Spaced) :
    ∀ offset line, (tokensAt offset line pieces).map Token.kind = pieces.map (·.glyph.kind) := by
  induction pieces with
  | nil => intro _ _; rfl
  | cons p pieces ih => intro _ _; rw [tokensAt, List.map_cons, ih, List.map_cons]

theorem tokensAt_append (ps qs : List Spaced) : ∀ offset line, tokensAt offset line (ps ++ qs) =
    tokensAt offset line ps ++ tokensAt (offset + Text.byteLength (layout ps)) (line + Text.breaks (layout ps)) qs := by
  induction ps with
  | nil => intro _ _; rfl
  | cons p ps ih =>
    intro offset line
    have hcons : layout (p :: ps) = p.chars ++ layout ps := List.flatMap_cons
    rw [List.cons_append, tokensAt, ih, hcons, Text.byteLength_append, Text.breaks_append, tokensAt, List.cons_append]
    simp only [Nat.add_assoc]

/-- trivia starts with a character that ends a word -/
theorem Trivia.head_chars (t : Trivia) (rest : List Char) : ∀ d ∈ (t.chars ++ rest).head?, isIdentPart d = false := by
  intro d hd
  cases t with
  | blank c h =>
    have hblanks : ∀ c ∈ [' ', '\t', '\r', '\n'], isIdentPart c = false := List.forall_iff_forall_mem.1 (by decide)
    cases hd
    exact hblanks _ h
  | lineComment body h =>
    cases hd
    decide
  | blockComment body hclosed hplain =>
    cases hd
    decide

/-- so does a glyph that is no word -/
theorem Glyph.head_chars {g : Glyph} (h : g.isWord = false) (rest : List Char) :
    ∀ d ∈ (g.chars ++ rest).head?, isIdentPart d = false := by
  intro d hd
  cases g with
  | word w => cases h
  | quoted s =>
    have hquote : ∀ q : Char, q = '\'' ∨ q = '"' → isIdentPart q = false := by rintro q (rfl | rfl) <;> decide
    cases hd
    exact hquote _ s.isQuote
  | mark c hc =>
    have hmarks : ∀ c ∈ marks, isIdentPart c = false := List.forall_iff_forall_mem.1 (by decide)
    cases hd
    exact hmarks _ hc

/-- behind a word, pieces that keep apart go on with a character that ends it -/
theorem head_layout {p : Spaced} {pieces : List Spaced} (h : Apart (p :: pieces)) (hword : p.glyph.isWord = true)
    (last : List Trivia) :
    ∀ d ∈ (layout pieces ++ gapChars last).head?, isIdentPart d = false := by
  cases pieces with
  | nil =>
    cases last with
    | nil => intro d hd; cases hd
    | cons t last => exact t.head_chars _
  | cons q pieces =>
    have hnext : q.glyph.isWord = true → q.gap ≠ [] := (List.isChain_cons_cons.1 h).1 hword
    have hcons : layout (q :: pieces) ++ gapChars last =
        gapChars q.gap ++ (q.glyph.chars ++ (layout pieces ++ gapChars last)) := by
      simp [layout, Spaced.chars]
    rw [hcons]
    cases hgap : q.gap with
    | nil =>
      have hno : q.glyph.isWord = false := by
        by_contra hq
        exact hnext (by simpa using hq) hgap
      exact Glyph.head_chars hno _
    | cons t gap =>
      have hfirst : gapChars (t :: gap) = t.chars ++ gapChars gap := List.flatMap_cons
      rw [hfirst, List.append_assoc]
      exact t.head_chars _

/-- **The tokens of a laid out text** are those of its pieces. -/
theorem tokensFrom_layout {pieces : List Spaced} (h : Apart pieces) (last : List Trivia) : ∀ prev offset line,
    tokensFrom prev offset line (layout pieces ++ gapChars last) = tokensAt offset line pieces := by
  induction pieces with
  | nil =>
    intro prev offset line
    have hgap := tokensFrom_gap prev offset line [] last
    rw [List.append_nil] at hgap
    rw [layout, List.flatMap_nil, List.nil_append, hgap, tokensFrom]
    rfl
  | cons p pieces ih =>
    intro prev offset line
    have hcons : layout (p :: pieces) ++ gapChars last =
        gapChars p.gap ++ (p.glyph.chars ++ (layout pieces ++ gapChars last)) := by
      simp [layout, Spaced.chars]
    rw [hcons, tokensFrom_gap, tokensFrom_glyph _ _ _ _ _ fun hword => head_layout h hword last,
      ih (List.isChain_cons.1 h).2, tokensAt, Spaced.chars, Text.byteLength_append, Text.breaks_append, Nat.add_assoc,
      Nat.add_assoc]

theorem tokenize_layout {pieces : List Spaced} (h : Apart pieces) (last : List Trivia) :
    tokenize (layout pieces ++ gapChars last) = tokensAt 0 0 pieces := tokensFrom_layout h last none 0 0

end ClosurePipeline.Lexer
