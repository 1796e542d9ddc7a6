/-
The rules of the lexer. The lexer decides by a row of tests, each for what the ones in front of it have left, which
lexeme a character starts. Here is a rule for each kind of lexeme, with all that its character and the text behind it
have to be, so that the rules can be taken in any order.

- `StartsNumber`: a digit, or a point with a digit behind it;
- `Lexed`: the rules; `lexed_lexeme` every lexeme is one of theirs, and `Lexed.eq` they do not give another;
- `lexeme_of_not_mem_openings`, `lexeme_punct`: what starts with a character that no test in front of the number's is
  about.
-/
import Mathlib.Tactic
import ClosurePipeline.Token.Lexer

namespace ClosurePipeline

theorem Text.breaks_append (a b : List Char) : breaks (a ++ b) = breaks a + breaks b := List.count_append

theorem Text.breaks_eq_zero {cs : List Char} (h : '\n' ∉ cs) : breaks cs = 0 := List.count_eq_zero.2 h

namespace Lexer

variable {prev : Option TokenKind} {c : Char} {cs : List Char} {l : Lexeme}

/-- letters, the two other starts and wide characters have other numbers than digits -/
theorem isIdentStart_of_isDigit (h : c.isDigit = true) : isIdentStart c = false := by
  obtain ⟨hlow, hhigh⟩ : 48 ≤ c.toNat ∧ c.toNat ≤ 57 := by
    obtain ⟨hlow, hhigh⟩ := Bool.and_eq_true_iff.1 h
    exact ⟨of_decide_eq_true hlow, of_decide_eq_true hhigh⟩
  by_contra hstart
  simp only [isIdentStart, Bool.not_eq_false, Bool.or_eq_true, decide_eq_true_eq] at hstart
  rcases hstart with ((halpha | rfl) | rfl) | hwide
  · rcases Bool.or_eq_true_iff.1 halpha with hupper | hlower
    · have : 65 ≤ c.toNat := (of_decide_eq_true hupper).1
      omega
    · have : 97 ≤ c.toNat := of_decide_eq_true (Bool.and_eq_true_iff.1 hlower).1
      omega
  · exact absurd hhigh (by decide)
  · exact absurd hlow (by decide)
  · have : 0x80 ≤ c.toNat := hwide
    omega

/-- a digit, or a point with a digit behind it -/
def StartsNumber (c : Char) (cs : List Char) : Prop := c.isDigit = true ∨ c = '.' ∧ ∃ d ∈ cs.head?, d.isDigit = true

theorem startsNumber_iff :
    (c.isDigit || (decide (c = '.') && (cs.head?.map Char.isDigit).getD false)) = true ↔ StartsNumber c cs := by
  rw [StartsNumber, Bool.or_eq_true, Bool.and_eq_true, decide_eq_true_eq]
  cases cs.head? <;> simp

theorem not_startsNumber (hdigit : c.isDigit = false) (hpoint : c = '.' → ∀ d ∈ cs.head?, d.isDigit = false) :
    ¬ StartsNumber c cs := by
  rintro (hstart | ⟨hc, d, hd, hstart⟩)
  · rw [hdigit] at hstart
    cases hstart
  · rw [hpoint hc d hd] at hstart
    cases hstart

/-- the lexeme that `c` starts in front of `cs`, behind the token `prev` -/
inductive Lexed (prev : Option TokenKind) (c : Char) (cs : List Char) : Lexeme → Prop where
  | blank (h : isBlank c = true) : Lexed prev c cs ⟨0, Text.breaks [c], none⟩
  | lineComment (hc : c = '/') (h : cs.head? = some '/') : Lexed prev c cs ⟨(cs.takeWhile (· ≠ '\n')).length, 0, none⟩
  | blockComment (hc : c = '/') (h : cs.head? = some '*') : Lexed prev c cs (commentLexeme c cs)
  | regex (hc : c = '/') (hline : cs.head? ≠ some '/') (hblock : cs.head? ≠ some '*') (h : regexAllowed prev = true) :
      Lexed prev c cs ⟨regexReach false cs, 0, some .regex⟩
  | string (h : c = '"' ∨ c = '\'') : Lexed prev c cs (stringLexeme c cs)
  | template (h : c = templateQuote) :
    Lexed prev c cs ⟨(templateReach 0 cs).chars, (templateReach 0 cs).breaks, some .template⟩
  | number (h : StartsNumber c cs) : Lexed prev c cs ⟨(cs.takeWhile isNumberPart).length, 0, some .number⟩
  | name (h : isIdentStart c = true) : Lexed prev c cs (identLexeme c cs)
  | mark (hblank : isBlank c = false)
      (hslash : c = '/' → cs.head? ≠ some '/' ∧ cs.head? ≠ some '*' ∧ regexAllowed prev = false)
      (hquote : c ≠ '"' ∧ c ≠ '\'') (htemplate : c ≠ templateQuote) (hnumber : ¬ StartsNumber c cs)
      (hname : isIdentStart c = false) :
      Lexed prev c cs ⟨0, 0, some (.punct c)⟩

/-- **Every lexeme is one of the rules'.** -/
theorem lexed_lexeme (prev : Option TokenKind) (c : Char) (cs : List Char) : Lexed prev c cs (lexeme prev c cs) := by
  have hslash : ∀ d, (decide (c = '/') && cs.head? == some d) = true ↔ c = '/' ∧ cs.head? = some d := by simp
  unfold lexeme
  split_ifs with hbreak hblank hline hblock hregex hquote htemplate hnumber hname
  · subst hbreak
    exact .blank rfl
  · have hnone : Text.breaks [c] = 0 := Text.breaks_eq_zero (by simpa [eq_comm] using hbreak)
    have hrule : Lexed prev c cs ⟨0, Text.breaks [c], none⟩ := .blank hblank
    rwa [hnone] at hrule
  · exact .lineComment ((hslash _).1 hline).1 ((hslash _).1 hline).2
  · exact .blockComment ((hslash _).1 hblock).1 ((hslash _).1 hblock).2
  · obtain ⟨hc, hallowed⟩ : c = '/' ∧ regexAllowed prev = true := by simpa using hregex
    exact .regex hc (fun h => hline ((hslash _).2 ⟨hc, h⟩)) (fun h => hblock ((hslash _).2 ⟨hc, h⟩)) hallowed
  · exact .string (by simpa using hquote)
  · exact .template htemplate
  · exact .number (startsNumber_iff.1 hnumber)
  · exact .name hname
  · refine .mark (by simpa using hblank)
      (fun hc => ⟨fun h => hline ((hslash _).2 ⟨hc, h⟩), fun h => hblock ((hslash _).2 ⟨hc, h⟩), ?_⟩)
      (by simpa using hquote) htemplate (fun h => hnumber (startsNumber_iff.2 h)) (by simpa using hname)
    simpa [hc] using hregex

/-- the characters that the tests in front of the number's are about -/
def openings : List Char := [' ', '\t', '\r', '\n', '/', '"', '\'', templateQuote]

/-- a character of a class is none of those outside of it -/
theorem not_mem_of_class {p : Char → Bool} (h : p c = true) {ds : List Char} (hp : ∀ d ∈ ds, p d = false) : c ∉ ds := by
  intro hc
  rw [hp c hc] at h
  cases h

theorem lexeme_of_not_mem_openings (h : c ∉ openings) : lexeme prev c cs =
    if c.isDigit || (decide (c = '.') && (cs.head?.map Char.isDigit).getD false) then
      ⟨(cs.takeWhile isNumberPart).length, 0, some .number⟩
    else if isIdentStart c then identLexeme c cs
    else ⟨0, 0, some (.punct c)⟩ := by
  simp only [openings, List.mem_cons, List.not_mem_nil, or_false, not_or] at h
  obtain ⟨hspace, htab, hreturn, hbreak, hslash, hdouble, hsingle, htemplate⟩ := h
  simp only [lexeme, isBlank, hspace, htab, hreturn, hbreak, hslash, hdouble, hsingle, htemplate, decide_false,
    Bool.false_and, Bool.or_false, Bool.false_eq_true, if_false]

/-- a character that no rule but the last one is about is a token by itself -/
theorem lexeme_punct (hopens : c ∉ openings) (hnumber : ¬ StartsNumber c cs) (hname : isIdentStart c = false) :
    lexeme prev c cs = ⟨0, 0, some (.punct c)⟩ := by
  rw [lexeme_of_not_mem_openings hopens, if_neg (mt startsNumber_iff.1 hnumber), if_neg (by simp [hname])]

/-- **No rule gives another.** -/
theorem Lexed.eq (h : Lexed prev c cs l) : lexeme prev c cs = l := by
  cases h with
  | blank h =>
    unfold lexeme
    split_ifs with hbreak
    · rw [hbreak]
      rfl
    · rw [Text.breaks_eq_zero (by simpa [eq_comm] using hbreak)]
  | lineComment hc h =>
    subst hc
    simp [lexeme, isBlank, h]
  | blockComment hc h =>
    subst hc
    simp [lexeme, isBlank, h]
  | regex hc hline hblock h =>
    subst hc
    simp [lexeme, isBlank, hline, hblock, h]
  | string h => rcases h with rfl | rfl <;> simp [lexeme, isBlank]
  | template h =>
    subst h
    rfl
  | number h =>
    have hopens : c ∉ openings := by
      rcases h with hdigit | ⟨rfl, -⟩
      · exact not_mem_of_class hdigit (List.forall_iff_forall_mem.1 (by decide))
      · decide
    rw [lexeme_of_not_mem_openings hopens, if_pos (startsNumber_iff.2 h)]
  | name h =>
    have hnumber : ¬ StartsNumber c cs := by
      rintro (hdigit | ⟨rfl, -⟩)
      · rw [isIdentStart_of_isDigit hdigit] at h
        cases h
      · cases h
    rw [lexeme_of_not_mem_openings (not_mem_of_class h (List.forall_iff_forall_mem.1 (by decide))),
      if_neg (mt startsNumber_iff.1 hnumber), if_pos h]
  | mark hblank hslash hquote htemplate hnumber hname =>
    by_cases hc : c = '/'
    · subst hc
      obtain ⟨hline, hblock, hallowed⟩ := hslash rfl
      simp [lexeme, isBlank, templateQuote, isIdentStart, hline, hblock, hallowed]
    · have hopens : c ∉ openings := by
        simp only [isBlank, Bool.or_eq_false_iff, decide_eq_false_iff_not] at hblank
        simp [openings, hblank, hc, hquote, htemplate]
      exact lexeme_punct hopens hnumber hname

theorem lexeme_eq_iff : lexeme prev c cs = l ↔ Lexed prev c cs l := by
  refine ⟨?_, Lexed.eq⟩
  rintro rfl
  exact lexed_lexeme prev c cs

end Lexer

end ClosurePipeline
