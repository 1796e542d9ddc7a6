/-
Lines of tokens. The lexer counts line breaks while it passes them, and misses those a backslash takes with it in a
literal.

- `Text.escapedBreaks`: the line breaks behind a backslash, where a backslash takes the next character with it;
- `Counted`: a number and the escaped line breaks of a text are all its line breaks; `counted_templateReach`,
  `counted_regexReach`, `Inside.counted`: so it is with what the lexer counts inside a literal;
- `Lexeme.Counts`, `Lexed.counts`: a lexeme counts the line breaks of its text but for the hidden ones, and only
  literals hide any;
- `line_add_hidden`: the line of a token and the line breaks hidden in front of it are the line breaks in front of it,
  by induction on lexemes;
- `line_of_token`: the result. The line is right exactly if no literal in front of the token hides a line break;
- `escaped_break_is_lost`: a string over two lines, behind which the line is wrong.
-/
import Mathlib.Tactic
import ClosurePipeline.Proofs.Token.Local
import ClosurePipeline.Proofs.Token.Tiling

namespace ClosurePipeline

/-! ## Line breaks behind backslashes -/

namespace Text

/-- how many line breaks of a text stand behind a backslash; a backslash takes the next character with it -/
def escapedBreaks : List Char → Nat
  | '\\' :: c :: cs => (if c = '\n' then 1 else 0) + escapedBreaks cs
  | _ :: cs => escapedBreaks cs
  | [] => 0

theorem breaks_cons (c : Char) (cs : List Char) : breaks (c :: cs) = (if c = '\n' then 1 else 0) + breaks cs := by
  rw [breaks, List.count_cons, breaks, Nat.add_comm]
  simp only [beq_iff_eq]

theorem breaks_cons_of_ne {c : Char} (h : c ≠ '\n') (cs : List Char) : breaks (c :: cs) = breaks cs := by
  rw [breaks_cons, if_neg h, Nat.zero_add]

theorem escapedBreaks_cons_of_ne {c : Char} (h : c ≠ '\\') (cs : List Char) :
    escapedBreaks (c :: cs) = escapedBreaks cs := by
  rw [escapedBreaks]
  exact fun d ds hc => absurd hc h

end Text

namespace Lexer

/-! ## Literals -/

/-- `n` and the escaped line breaks of a text are all its line breaks -/
def Counted (n : Nat) (text : List Char) : Prop := n + Text.escapedBreaks text = Text.breaks text

namespace Counted

variable {n : Nat} {cs : List Char}

theorem nil : Counted 0 [] := rfl

theorem escaped (c : Char) (h : Counted n cs) : Counted n ('\\' :: c :: cs) := by
  rw [Counted, Text.escapedBreaks, Text.breaks_cons_of_ne (by decide), Text.breaks_cons, ← h]
  omega

theorem cons {c : Char} (hback : c ≠ '\\') (h : Counted n cs) : Counted (n + if c = '\n' then 1 else 0) (c :: cs) := by
  rw [Counted, Text.escapedBreaks_cons_of_ne hback, Text.breaks_cons, ← h]
  omega

theorem plain {c : Char} (hback : c ≠ '\\') (hline : c ≠ '\n') (h : Counted n cs) : Counted n (c :: cs) := by
  have hcons := h.cons hback
  rwa [if_neg hline] at hcons

theorem of_plain (h : ∀ c ∈ cs, c ≠ '\\' ∧ c ≠ '\n') : Counted 0 cs := by
  induction cs with
  | nil => exact nil
  | cons c cs ih =>
    obtain ⟨hc, hcs⟩ := List.forall_mem_cons.1 h
    exact (ih hcs).plain hc.1 hc.2

end Counted

/-- inside a string only a backslash takes a line break -/
theorem Inside.counted {quote : Char} {v back : List Char} (h : Inside quote v) (hback : Counted 0 back) :
    Counted 0 (v ++ back) := by
  induction h with
  | nil => exact hback
  | escaped c _ ih => exact ih.escaped c
  | plain _ hslash hline _ ih => exact ih.plain hslash hline

theorem IsString.counted {value : String} {text rest : List Char} (h : IsString value text rest) : Counted 0 text := by
  have hplain : ∀ {quote : Char}, quote = '"' ∨ quote = '\'' → quote ≠ '\\' ∧ quote ≠ '\n' := by
    rintro quote (rfl | rfl) <;> decide
  cases h with
  | closed rest hquote hv =>
    have hq := hplain hquote
    exact (hv.counted (Counted.nil.plain hq.1 hq.2)).plain hq.1 hq.2
  | unclosed hquote hv hrest =>
    have hq := hplain hquote
    have hinside := hv.counted Counted.nil
    rw [List.append_nil] at hinside
    exact hinside.plain hq.1 hq.2
  | escapedEnd hquote hv =>
    have hq := hplain hquote
    exact (@Inside.counted _ _ ['\\'] hv rfl).plain hq.1 hq.2

theorem counted_templateReach (depth : Nat) (cs : List Char) :
    Counted (templateReach depth cs).breaks (cs.take (templateReach depth cs).chars) := by
  fun_induction templateReach depth cs with
  | case1 depth => exact Counted.nil
  | case2 depth => rfl
  | case3 depth c cs ih => exact ih.escaped c
  | case4 cs ih => exact (ih.plain (by decide) (by decide)).plain (by decide) (by decide)
  | case5 cs => rfl
  | case6 c cs hlast hnext hhole hquote ih =>
    rw [Reach.add, List.take_succ_cons]
    exact ih.cons (ne_backslash hlast hnext)
  | case7 depth c cs hlast hnext depth' ih =>
    rw [Reach.add, List.take_succ_cons]
    exact ih.cons (ne_backslash hlast hnext)

theorem counted_regexReach (inClass : Bool) (cs : List Char) : Counted 0 (cs.take (regexReach inClass cs)) := by
  fun_induction regexReach inClass cs with
  | case1 inClass => exact Counted.nil
  | case2 inClass => rfl
  | case3 inClass c cs ih => exact ih.escaped c
  | case4 inClass cs => exact Counted.nil
  | case5 inClass c cs hlast hnext hbreak hclose =>
    rw [List.take_succ_cons, take_length_takeWhile]
    refine (Counted.of_plain fun d hd => ?_).plain (ne_backslash hlast hnext) hbreak
    have halpha := List.mem_takeWhile_imp hd
    constructor <;> rintro rfl <;> exact absurd halpha (by decide)
  | case6 inClass cs hlast hnext hbreak hclose ih => exact ih.plain (by decide) (by decide)
  | case7 inClass cs hlast hnext hbreak hclose hopen ih => exact ih.plain (by decide) (by decide)
  | case8 inClass c cs hlast hnext hbreak hclose hopen hshut ih => exact ih.plain (ne_backslash hlast hnext) hbreak

/-! ## Lexemes -/

/-- the line breaks that the text of a token hides: the escaped ones of a literal -/
def hiddenIn (text : List Char) : TokenKind → Nat
  | .str _ => Text.escapedBreaks text
  | .template => Text.escapedBreaks text
  | .regex => Text.escapedBreaks text
  | _ => 0

/-- the line breaks of a lexeme are those it counts and those it hides -/
def Lexeme.Counts (c : Char) (cs : List Char) (lx : Lexeme) : Prop :=
  lx.breaks + (lx.kind.elim 0 (hiddenIn (lexemeText c cs lx.extra))) = Text.breaks (lexemeText c cs lx.extra)

theorem breaks_commentReach (cs : List Char) :
    (commentReach cs).breaks = Text.breaks (cs.take (commentReach cs).chars) := by
  fun_induction commentReach cs with
  | case1 => rfl
  | case2 cs => rfl
  | case3 c cs hopen ih =>
    rw [Reach.add, List.take_succ_cons, Text.breaks_cons, ← ih]
    exact Nat.add_comm _ _

/-- a character and those of a class behind it have no line break, if neither it nor the class has -/
theorem breaks_lexemeText {p : Char → Bool} {c : Char} (hc : c ≠ '\n') (hp : p '\n' = false) (cs : List Char) :
    Text.breaks (lexemeText c cs (cs.takeWhile p).length) = 0 := by
  rw [lexemeText, take_length_takeWhile, Text.breaks_cons_of_ne hc]
  refine Text.breaks_eq_zero fun hbreak => ?_
  rw [List.mem_takeWhile_imp hbreak] at hp
  cases hp

theorem counts_commentLexeme (cs : List Char) : (commentLexeme '/' ('*' :: cs)).Counts '/' ('*' :: cs) := by
  have hbreaks : (commentReach cs).breaks = Text.breaks (lexemeText '/' ('*' :: cs) ((commentReach cs).chars + 1)) := by
    rw [breaks_commentReach, lexemeText, List.take_succ_cons, Text.breaks_cons_of_ne (by decide),
      Text.breaks_cons_of_ne (by decide)]
  unfold Lexeme.Counts commentLexeme
  simp only [List.drop_succ_cons, List.drop_zero]
  split_ifs
  · exact hbreaks
  · exact hbreaks

theorem Lexed.counts {prev : Option TokenKind} {c : Char} {cs : List Char} {l : Lexeme} (h : Lexed prev c cs l) :
    l.Counts c cs := by
  cases h with
  | blank => rfl
  | lineComment hc => exact (breaks_lexemeText (by rw [hc]; decide) (by decide) cs).symm
  | blockComment hc h =>
    subst hc
    obtain ⟨ds, rfl⟩ := List.head?_eq_some_iff.1 h
    exact counts_commentLexeme ds
  | regex hc =>
    subst hc
    exact (counted_regexReach false cs).plain (by decide) (by decide)
  | string h => exact IsString.counted (right_stringLexeme h cs)
  | template h =>
    subst h
    exact (counted_templateReach 0 cs).plain (by decide) (by decide)
  | number h =>
    have hbreak : c ≠ '\n' := by
      rintro rfl
      rcases h with h | ⟨h, -⟩ <;> cases h
    exact (breaks_lexemeText hbreak (by decide) cs).symm
  | name h =>
    have hbreak : c ≠ '\n' := by
      rintro rfl
      cases h
    exact (breaks_lexemeText hbreak (by decide) cs).symm
  | mark hblank =>
    have hbreak : c ≠ '\n' := by
      rintro rfl
      cases hblank
    exact (Text.breaks_cons_of_ne hbreak []).symm

theorem breaks_of_lexeme {prev kind : Option TokenKind} {c : Char} {cs rest : List Char} {n : Nat}
    (hlex : lexeme prev c (cs ++ rest) = ⟨cs.length, n, kind⟩) :
    n + kind.elim 0 (hiddenIn (c :: cs)) = Text.breaks (c :: cs) := by
  have hcounts := (lexeme_eq_iff.1 hlex).counts
  rw [Lexeme.Counts] at hcounts
  simpa only [lexemeText, List.take_left] using hcounts

/-! ## Tokens -/

/-- the line breaks that a token of a text hides -/
def hiddenBreaks (source : List Char) (t : Token) : Nat := hiddenIn (Text.slice source t.start t.stop) t.kind

/-- lines go on as they started: the line of a token and the line breaks hidden in front of it are the line breaks in
front of it -/
theorem line_add_hidden (prev : Option TokenKind) (text : List Char) :
    ∀ (before : List Char) (line hidden : Nat) (front behind : List Token) (t : Token),
    line + hidden = Text.breaks before → tokensFrom prev (Text.byteLength before) line text = front ++ t :: behind →
    t.line + (hidden + (front.map (hiddenBreaks (before ++ text))).sum) =
      Text.breaks (Text.takeBytes t.start (before ++ text)) := by
  induction prev, text using lexemes_induction with
  | nil prev =>
    intro before line hidden front behind t hline h
    rw [tokensFrom] at h
    simp at h
  | cons prev c cs rest n kind hlex ih =>
    intro before line hidden front behind t hline h
    have hbreaks := breaks_of_lexeme hlex
    have hsource : before ++ c :: (cs ++ rest) = before ++ (c :: cs) ++ rest := by simp
    have hoffset : Text.byteLength before + Text.byteLength (c :: cs) = Text.byteLength (before ++ (c :: cs)) :=
      (Text.byteLength_append _ _).symm
    rw [hsource]
    cases kind with
    | none =>
      rw [tokensFrom_of_none cs rest hlex, hoffset] at h
      refine ih _ _ hidden front behind t ?_ h
      rw [Text.breaks_append, ← hline, ← hbreaks, Option.elim_none]
      omega
    | some kind =>
      rw [tokensFrom_of_some cs rest hlex, hoffset] at h
      rcases front with - | ⟨u, front⟩
      · cases h
        rw [List.append_assoc, Text.takeBytes_byteLength_append, List.map_nil, List.sum_nil, Nat.add_zero, hline]
      · rw [List.cons_append, List.cons.injEq] at h
        obtain ⟨rfl, h⟩ := h
        have hslice : hiddenBreaks (before ++ (c :: cs) ++ rest)
            ⟨kind, Text.byteLength before, Text.byteLength (before ++ (c :: cs)), line⟩ = hiddenIn (c :: cs) kind := by
          rw [hiddenBreaks, Text.byteLength_append, Text.slice_append]
        have hrest := ih (before ++ (c :: cs)) (line + n) (hidden + hiddenIn (c :: cs) kind) front behind t
          (by rw [Text.breaks_append, ← hline, ← hbreaks, Option.elim_some]; omega) h
        rw [List.map_cons, List.sum_cons, hslice, ← hrest]
        omega

/-- **The line of a token** is the number of line breaks in front of it but for those hidden in literals in front of it,
so it is right exactly if no literal in front of the token has a line break behind a backslash. Lines are stored as
32-bit words; they are numbers here, which is the same for a text whose line breaks such a word can count. -/
theorem line_of_token {source : List Char} {front behind : List Token} {t : Token}
    (h : tokenize source = front ++ t :: behind) :
    t.line + (front.map (hiddenBreaks source)).sum = Text.breaks (Text.takeBytes t.start source) ∧
      (t.line = Text.breaks (Text.takeBytes t.start source) ↔ ∀ u ∈ front, hiddenBreaks source u = 0) := by
  have hline := line_add_hidden none source [] 0 0 front behind t rfl h
  rw [Nat.zero_add, List.nil_append] at hline
  refine ⟨hline, ?_⟩
  rw [← hline, Nat.left_eq_add, List.sum_eq_zero_iff, List.forall_mem_map]

/-- a string over two lines, with a name behind it -/
def brokenString : List Char := ['\'', '\\', '\n', '\'', ' ', 'x']

/-- the name stands behind a line break, which the string hides -/
theorem line_of_token_brokenString :
    tokenize brokenString = [⟨.str "\\\n", 0, 4, 0⟩] ++ ⟨.ident "x", 5, 6, 0⟩ :: [] ∧
      0 + ([⟨.str "\\\n", 0, 4, 0⟩].map (hiddenBreaks brokenString)).sum = Text.breaks (Text.takeBytes 5 brokenString) ∧
      (0 = Text.breaks (Text.takeBytes 5 brokenString) ↔
        ∀ u ∈ [⟨.str "\\\n", 0, 4, 0⟩], hiddenBreaks brokenString u = 0) := by
  have htokens : tokenize brokenString = [⟨.str "\\\n", 0, 4, 0⟩] ++ ⟨.ident "x", 5, 6, 0⟩ :: [] := by decide +kernel
  exact ⟨htokens, line_of_token htokens⟩

/-- **A line break behind a backslash is lost:** lines of tokens behind it are too small. -/
theorem escaped_break_is_lost :
    ¬ ∀ t ∈ tokenize brokenString, t.line = Text.breaks (Text.takeBytes t.start brokenString) := by
  decide +kernel

end Lexer

end ClosurePipeline
