/-
Characters beyond ASCII in code. The lexer takes a text in stretches, one behind the other: a token, a blank or a
comment. Outside literals and comments it takes each character beyond ASCII for a part of a name, and white space is no
exception.

- `Stretch`, `stretches`: what the lexer takes at once, and the token it becomes; `stands_stretches`: each of them is
  what it should be, by induction on lexemes;
- `Stretch.kind_of_wide`: a stretch of code with a character beyond ASCII is a name;
- `wide_blanks_join_names`: the result. A name holds a wide blank exactly if one stands outside literals and comments;
- `no_break_space_joins_names`: a class whose keyword is a part of a longer name.
-/
import Mathlib.Tactic
import ClosurePipeline.Text.Blank
import ClosurePipeline.Proofs.Token.Tiling

namespace ClosurePipeline.Lexer

/-! ## Stretches -/

/-- what the lexer takes at once, and its token, if it is one -/
structure Stretch where
  text : List Char
  kind : Option TokenKind
deriving DecidableEq, Repr

/-- a text as the lexer takes it behind the token `prev` -/
def stretches (prev : Option TokenKind) : List Char → List Stretch
  | [] => []
  | c :: cs =>
    let lx := lexeme prev c cs
    ⟨lexemeText c cs lx.extra, lx.kind⟩ :: stretches (lx.kind.or prev) (cs.drop lx.extra)
termination_by cs => cs.length
decreasing_by simp only [List.length_drop, List.length_cons]; omega

namespace Stretch

/-- a string, template, number or regular expression -/
def isLiteral (s : Stretch) : Bool :=
  match s.kind with
  | some (.str _) | some .template | some .number | some .regex => true
  | _ => false

/-- a comment, whether it documents anything or not -/
def isComment (s : Stretch) : Bool :=
  match s.kind with
  | none => ['/', '/'].isPrefixOf s.text || ['/', '*'].isPrefixOf s.text
  | some (.doc _) => true
  | _ => false

/-- neither literal nor comment -/
def isCode (s : Stretch) : Bool := !s.isLiteral && !s.isComment

end Stretch

theorem stretches_cons {prev kind : Option TokenKind} {c : Char} {cs rest : List Char} {n : Nat}
    (hlex : lexeme prev c (cs ++ rest) = ⟨cs.length, n, kind⟩) :
    stretches prev (c :: (cs ++ rest)) = ⟨c :: cs, kind⟩ :: stretches (kind.or prev) rest := by
  rw [stretches]
  simp only [hlex, lexemeText, List.take_left, List.drop_left]

/-- the stretches of a text are all of it -/
theorem text_stretches (prev : Option TokenKind) (cs : List Char) : (stretches prev cs).flatMap Stretch.text = cs := by
  induction prev, cs using lexemes_induction with
  | nil prev => rw [stretches, List.flatMap_nil]
  | cons prev c cs rest n kind hlex ih => rw [stretches_cons hlex, List.flatMap_cons, ih, List.cons_append]

/-- and those that become tokens are its tokens -/
theorem kind_stretches (prev : Option TokenKind) (cs : List Char) : ∀ offset line,
    (stretches prev cs).filterMap Stretch.kind = (tokensFrom prev offset line cs).map Token.kind := by
  induction prev, cs using lexemes_induction with
  | nil prev =>
    intro offset line
    rw [stretches, tokensFrom]
    rfl
  | cons prev c cs rest n kind hlex ih =>
    intro offset line
    rw [stretches_cons hlex]
    cases kind with
    | none =>
      rw [tokensFrom_of_none cs rest hlex, List.filterMap_cons_none rfl]
      exact ih _ _
    | some kind =>
      rw [tokensFrom_of_some cs rest hlex, List.map_cons]
      exact congrArg (kind :: ·) (ih _ _)

/-- no character that starts a name is a token by itself -/
theorem Lexed.not_isIdentStart {prev : Option TokenKind} {c d : Char} {cs : List Char} {l : Lexeme}
    (h : Lexed prev c cs l) (hkind : l.kind = some (.punct d)) : isIdentStart d = false := by
  cases h with
  | blockComment =>
    rw [commentLexeme] at hkind
    split_ifs at hkind
    cases hkind
  | mark hblank hslash hquote htemplate hnumber hname =>
    cases hkind
    exact hname
  | blank => cases hkind
  | lineComment => cases hkind
  | regex => cases hkind
  | string => cases hkind
  | template => cases hkind
  | number => cases hkind
  | name => cases hkind

/-- a stretch in front of `rest`, with what the lexer looks at -/
structure Stretch.Stands (s : Stretch) (rest : List Char) : Prop where
  stands : Lexer.Stands s.text rest s.kind
  mark : ∀ d, s.kind = some (.punct d) → isIdentStart d = false

/-- **Every stretch stands in front of those behind it** as what it is. -/
theorem stands_stretches (prev : Option TokenKind) (cs : List Char) : ∀ xs s ys, stretches prev cs = xs ++ s :: ys →
    s.Stands (ys.flatMap Stretch.text) := by
  induction prev, cs using lexemes_induction with
  | nil prev =>
    intro xs s ys h
    rw [stretches] at h
    simp at h
  | cons prev c cs rest n kind hlex ih =>
    intro xs s ys h
    rw [stretches_cons hlex] at h
    cases xs with
    | nil =>
      cases h
      rw [text_stretches]
      exact ⟨stands_of_lexeme hlex, fun d hd => (lexeme_eq_iff.1 hlex).not_isIdentStart hd⟩
    | cons x xs =>
      rw [List.cons_append, List.cons.injEq] at h
      exact ih xs s ys h.2

/-! ## Wide characters -/

/-- a character beyond ASCII that is white space, or the byte order mark -/
def isWideBlank (c : Char) : Bool := decide (0x80 ≤ c.toNat) && (Text.isBlank c || c == '\uFEFF')

/-- a gap with a character beyond ASCII is a comment -/
theorem isComment_of_gap {text rest : List Char} (h : Gap text rest) {c : Char} (hc : c ∈ text)
    (hwide : 0x80 ≤ c.toNat) :
    Stretch.isComment ⟨text, none⟩ = true := by
  cases h with
  | blank b rest hb =>
    obtain rfl := List.mem_singleton.1 hc
    simp only [isBlank, Bool.or_eq_true, decide_eq_true_eq] at hb
    rcases hb with ((rfl | rfl) | rfl) | rfl <;> exact absurd hwide (by decide)
  | lineComment body rest hbody hrest => rfl
  | blockComment h hplain =>
    cases h with
    | closed body rest hbody => rfl
    | unclosed body hbody => rfl

/-- **A stretch of code with a character beyond ASCII is a name.** -/
theorem Stretch.kind_of_wide {s : Stretch} {rest : List Char} (h : s.Stands rest) (hcode : s.isCode = true) {c : Char}
    (hc : c ∈ s.text) (hwide : 0x80 ≤ c.toNat) :
    s.kind = some (.ident (String.ofList s.text)) ∧ ∀ d ∈ rest.head?, isIdentPart d = false := by
  obtain ⟨text, kind⟩ := s
  obtain ⟨hstands, hmark⟩ := h
  obtain ⟨hliteral, hcomment⟩ : Stretch.isLiteral ⟨text, kind⟩ = false ∧ Stretch.isComment ⟨text, kind⟩ = false := by
    simpa [isCode] using hcode
  cases kind with
  | none =>
    rw [isComment_of_gap hstands hc hwide] at hcomment
    cases hcomment
  | some kind =>
    cases kind with
    | ident name =>
      obtain ⟨hname, -, hrest⟩ := hstands
      exact ⟨by rw [← hname, String.ofList_toList], hrest⟩
    | punct d =>
      obtain rfl : text = [d] := hstands
      obtain rfl := List.mem_singleton.1 hc
      have hstart : isIdentStart c = true := by simp [isIdentStart, hwide]
      rw [hmark c rfl] at hstart
      cases hstart
    | doc comment => cases hcomment
    | str value => cases hliteral
    | template => cases hliteral
    | number => cases hliteral
    | regex => cases hliteral

/-- **White space beyond ASCII joins names.** A stretch of code with a character beyond ASCII, blank or not, is a name,
and the name goes on as long as characters of names follow; so a name holds a wide blank exactly if one stands outside
literals and comments. -/
theorem wide_blanks_join_names (cs : List Char) :
    (stretches none cs).flatMap Stretch.text = cs ∧
    (stretches none cs).filterMap Stretch.kind = (tokenize cs).map Token.kind ∧
      (∀ xs s ys, stretches none cs = xs ++ s :: ys → s.isCode = true → (∃ c ∈ s.text, 0x80 ≤ c.toNat) →
        s.kind = some (.ident (String.ofList s.text)) ∧ ∀ d ∈ (ys.flatMap Stretch.text).head?, isIdentPart d = false) ∧
      ((∃ t ∈ tokenize cs, ∃ w, t.kind = .ident w ∧ ∃ c ∈ w.toList, isWideBlank c = true) ↔
        ∃ s ∈ stretches none cs, s.isCode = true ∧ ∃ c ∈ s.text, isWideBlank c = true) := by
  have hkinds : (stretches none cs).filterMap Stretch.kind = (tokenize cs).map Token.kind := kind_stretches none cs 0 0
  have hname : ∀ xs s ys, stretches none cs = xs ++ s :: ys → s.isCode = true → (∃ c ∈ s.text, 0x80 ≤ c.toNat) →
      s.kind = some (.ident (String.ofList s.text)) ∧ ∀ d ∈ (ys.flatMap Stretch.text).head?, isIdentPart d = false :=
    fun xs s ys h hcode ⟨_, hc, hwide⟩ => Stretch.kind_of_wide (stands_stretches none cs xs s ys h) hcode hc hwide
  refine ⟨text_stretches none cs, hkinds, hname, ?_, ?_⟩
  · rintro ⟨t, ht, w, hkind, c, hc, hblank⟩
    have hmem : t.kind ∈ (stretches none cs).filterMap Stretch.kind := by
      rw [hkinds]
      exact List.mem_map_of_mem ht
    obtain ⟨s, hs, hsome⟩ := List.mem_filterMap.1 hmem
    rw [hkind] at hsome
    obtain ⟨xs, ys, hsplit⟩ := List.append_of_mem hs
    have hstands := (stands_stretches none cs xs s ys hsplit).stands
    rw [hsome] at hstands
    exact ⟨s, hs, by simp [Stretch.isCode, Stretch.isLiteral, Stretch.isComment, hsome],
      c, by rwa [← hstands.1], hblank⟩
  · rintro ⟨s, hs, hcode, c, hc, hblank⟩
    obtain ⟨xs, ys, hsplit⟩ := List.append_of_mem hs
    have hwide : 0x80 ≤ c.toNat := of_decide_eq_true (Bool.and_eq_true_iff.1 hblank).1
    obtain ⟨hkind, -⟩ := hname xs s ys hsplit hcode ⟨c, hc, hwide⟩
    have hmem : .ident (String.ofList s.text) ∈ (tokenize cs).map Token.kind := by
      rw [← hkinds]
      exact List.mem_filterMap.2 ⟨s, hs, hkind⟩
    obtain ⟨t, ht, hident⟩ := List.mem_map.1 hmem
    exact ⟨t, ht, _, hident, c, by rwa [String.toList_ofList], hblank⟩

/-- a class, with a no-break space behind the keyword -/
def spacedClass : List Char := ['c', 'l', 'a', 's', 's', '\u00A0', 'A', ' ', '{', '}']

/-- **A no-break space joins a keyword and a name,** so that there is no class. -/
theorem no_break_space_joins_names :
    ¬ ∀ t ∈ tokenize spacedClass, ∀ w, t.kind = .ident w → ∀ c ∈ w.toList, isWideBlank c = false := by
  have htokens : tokenize spacedClass =
      [⟨.ident "class\u00A0A", 0, 8, 0⟩, ⟨.punct '{', 9, 10, 0⟩, ⟨.punct '}', 10, 11, 0⟩] := by decide +kernel
  intro h
  rw [htokens] at h
  exact absurd (h _ List.mem_cons_self _ rfl '\u00A0' (by decide)) (by decide)

end ClosurePipeline.Lexer
