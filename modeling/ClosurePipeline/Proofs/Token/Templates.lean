/-
Templates. A template is taken as one token, and what stands in it is nobody's code. Its holes hold code, with strings
and templates of their own; the lexer passes over a hole by counting braces, and counts those in strings and inner
templates too.

- `Template`: the grammar of templates and of the code in their holes, with a condition on what stands in strings and
  inner templates;
- `Paired`, `PairedHoles`: braces in pairs, and a template with braces in pairs in each of its holes, all braces
  counted;
- `chars_paired`, `chars_pairedHoles`: paired braces are passed over, so the token ends at the closing quote;
- `exists_paired`, `pairedHoles_of_chars`: where the token ends there and text follows, the braces are paired;
- `template_token`: the result. A template is taken whole exactly if the braces in its holes are paired, so it is if
  those in each string and each inner template are;
- `brace_in_string_ends_template`: a string with a single brace, behind which the rest of the template is read as code.
-/
import Mathlib.Tactic
import ClosurePipeline.Proofs.Token.Local
import ClosurePipeline.Proofs.Token.Tiling

namespace ClosurePipeline

namespace Lexer

/-! ## Grammar -/

/-- where a part of a template stands -/
inductive TemplatePart where
  /-- between its quotes -/
  | text
  /-- in one of its holes -/
  | hole
deriving DecidableEq, Repr

/-- characters that have a meaning in a hole -/
def holeMarks : List Char := ['{', '}', '"', '\'', templateQuote, '\\']

/-- the text of a template, and the code in a hole; what stands in a string or in an inner template is in `inner` -/
inductive Template (inner : List Char → Prop) : TemplatePart → List Char → Prop where
  | nil (part : TemplatePart) : Template inner part []
  | char {c : Char} {cs : List Char} (hquote : c ≠ templateQuote) (hback : c ≠ '\\')
      (hhole : c = '$' → cs.head? ≠ some '{') (h : Template inner .text cs) : Template inner .text (c :: cs)
  | escape (c : Char) {cs : List Char} (h : Template inner .text cs) : Template inner .text ('\\' :: c :: cs)
  | hole {code cs : List Char} (hcode : Template inner .hole code) (h : Template inner .text cs) :
    Template inner .text ('$' :: '{' :: (code ++ '}' :: cs))
  | plain {c : Char} {cs : List Char} (hc : c ∉ holeMarks) (h : Template inner .hole cs) :
    Template inner .hole (c :: cs)
  | braces {code cs : List Char} (hcode : Template inner .hole code) (h : Template inner .hole cs) :
    Template inner .hole ('{' :: (code ++ '}' :: cs))
  | string {quote : Char} {v cs : List Char} (hquote : quote = '"' ∨ quote = '\'') (hv : Inside quote v)
      (hinner : inner v) (h : Template inner .hole cs) : Template inner .hole (quote :: (v ++ quote :: cs))
  | template {text cs : List Char} (htext : Template inner .text text) (hinner : inner text)
      (h : Template inner .hole cs) :
    Template inner .hole (templateQuote :: (text ++ templateQuote :: cs))

/-- a template with its quotes -/
def quoted (text : List Char) : List Char := templateQuote :: (text ++ [templateQuote])

/-- braces in pairs, whatever stands between them; a backslash takes the next character with it -/
inductive Paired : List Char → Prop where
  | nil : Paired []
  | escape (c : Char) {cs : List Char} (h : Paired cs) : Paired ('\\' :: c :: cs)
  | plain {c : Char} {cs : List Char} (hback : c ≠ '\\') (hopen : c ≠ '{') (hclose : c ≠ '}') (h : Paired cs) :
    Paired (c :: cs)
  | braces {code cs : List Char} (hcode : Paired code) (h : Paired cs) : Paired ('{' :: (code ++ '}' :: cs))

/-- the text of a template with braces in pairs in each hole -/
inductive PairedHoles : List Char → Prop where
  | nil : PairedHoles []
  | char {c : Char} {cs : List Char} (hquote : c ≠ templateQuote) (hback : c ≠ '\\')
      (hhole : c = '$' → cs.head? ≠ some '{') (h : PairedHoles cs) : PairedHoles (c :: cs)
  | escape (c : Char) {cs : List Char} (h : PairedHoles cs) : PairedHoles ('\\' :: c :: cs)
  | hole {code cs : List Char} (hcode : Paired code) (h : PairedHoles cs) :
    PairedHoles ('$' :: '{' :: (code ++ '}' :: cs))

theorem Paired.append {a b : List Char} (ha : Paired a) (hb : Paired b) : Paired (a ++ b) := by
  induction ha with
  | nil => exact hb
  | escape c _ ih => exact .escape c ih
  | plain hback hopen hclose _ ih => exact .plain hback hopen hclose ih
  | braces hcode _ _ ih =>
    rw [List.cons_append, List.append_assoc, List.cons_append]
    exact .braces hcode ih

/-- a text between quotes is paired if it is -/
theorem Paired.quote {quote : Char} {v cs : List Char} (hquote : quote ∈ ['"', '\'', templateQuote]) (hv : Paired v)
    (h : Paired cs) :
    Paired (quote :: (v ++ quote :: cs)) := by
  have hplain : quote ≠ '\\' ∧ quote ≠ '{' ∧ quote ≠ '}' := by
    obtain rfl | rfl | rfl : quote = '"' ∨ quote = '\'' ∨ quote = templateQuote := by simpa using hquote
    all_goals decide
  exact .plain hplain.1 hplain.2.1 hplain.2.2 (hv.append (.plain hplain.1 hplain.2.1 hplain.2.2 h))

theorem ne_of_notMem_holeMarks {c d : Char} (hc : c ∉ holeMarks) (hd : d ∈ holeMarks) : c ≠ d := fun he => hc (he ▸ hd)

/-- **Pairs inside make pairs outside:** a template whose strings and inner templates have braces in pairs has them so
in its holes. -/
theorem Template.paired {part : TemplatePart} {cs : List Char} (h : Template Paired part cs) :
    match part with
    | .text => PairedHoles cs
    | .hole => Paired cs := by
  induction h with
  | nil part => cases part with
    | text => exact .nil
    | hole => exact .nil
  | char hquote hback hhole _ ih => exact .char hquote hback hhole ih
  | escape c _ ih => exact .escape c ih
  | hole _ _ ihcode ih => exact .hole ihcode ih
  | plain hc _ ih =>
    exact .plain (ne_of_notMem_holeMarks hc (by decide)) (ne_of_notMem_holeMarks hc (by decide))
      (ne_of_notMem_holeMarks hc (by decide)) ih
  | braces _ _ ihcode ih => exact .braces ihcode ih
  | string hquote _ hinner _ ih =>
    refine .quote ?_ hinner ih
    rcases hquote with rfl | rfl <;> decide
  | template _ hinner _ _ ih => exact .quote (by decide) hinner ih

/-! ## How far a template goes -/

section

variable {c : Char} {cs text rest : List Char}

theorem chars_escape (depth : Nat) (c : Char) (cs : List Char) :
    (templateReach depth ('\\' :: c :: cs)).chars = (templateReach depth cs).chars + 2 := by
  rw [templateReach]
  rfl

theorem chars_hole (cs : List Char) : (templateReach 0 ('$' :: '{' :: cs)).chars = (templateReach 1 cs).chars + 2 := by
  rw [templateReach]
  rfl

theorem chars_inside (depth : Nat) (hback : c ≠ '\\') : (templateReach (depth + 1) (c :: cs)).chars =
    (templateReach (if c = '{' then depth + 2 else if c = '}' then depth else depth + 1) cs).chars + 1 := by
  rw [templateReach_hole hback]
  rfl

theorem chars_text (hback : c ≠ '\\') (hquote : c ≠ templateQuote) (hhole : c = '$' → cs.head? ≠ some '{') :
    (templateReach 0 (c :: cs)).chars = (templateReach 0 cs).chars + 1 := by
  rw [templateReach_text hback hhole, if_neg hquote]
  rfl

theorem chars_quote (cs : List Char) : (templateReach 0 (templateQuote :: cs)).chars = 1 := by
  rw [templateReach_text (by decide) fun h => absurd h (by decide), if_pos rfl]

/-- the quote behind a text opens no hole -/
theorem not_opens_append (hhole : c = '$' → cs.head? ≠ some '{') :
    c = '$' → (cs ++ templateQuote :: rest).head? ≠ some '{' := by
  intro hc
  cases cs with
  | nil => exact fun h => absurd h (by decide : some templateQuote ≠ some '{')
  | cons d ds => exact hhole hc

/-- paired braces are passed over -/
theorem chars_paired (h : Paired cs) (depth : Nat) (rest : List Char) :
    (templateReach (depth + 1) (cs ++ rest)).chars = (templateReach (depth + 1) rest).chars + cs.length := by
  induction h generalizing depth rest with
  | nil => rfl
  | escape c _ ih =>
    rw [List.cons_append, List.cons_append, chars_escape, ih, List.length_cons, List.length_cons]
    omega
  | plain hback hopen hclose _ ih =>
    rw [List.cons_append, chars_inside _ hback, if_neg hopen, if_neg hclose, ih, List.length_cons]
    omega
  | braces _ _ ihcode ih =>
    rw [List.cons_append, List.append_assoc, chars_inside _ (by decide), if_pos rfl, ihcode, List.cons_append,
      chars_inside _ (by decide), if_neg (by decide), if_pos rfl, ih]
    simp only [List.length_cons, List.length_append]
    omega

/-- a template with paired holes goes to its quote -/
theorem chars_pairedHoles (h : PairedHoles text) (rest : List Char) :
    (templateReach 0 (text ++ templateQuote :: rest)).chars = text.length + 1 := by
  induction h with
  | nil => exact chars_quote rest
  | char hquote hback hhole _ ih =>
    rw [List.cons_append, chars_text hback hquote (not_opens_append hhole), ih, List.length_cons]
  | escape c _ ih => rw [List.cons_append, List.cons_append, chars_escape, ih, List.length_cons, List.length_cons]
  | hole hcode _ ih =>
    rw [List.cons_append, List.cons_append, List.append_assoc, chars_hole, chars_paired hcode, List.cons_append,
      chars_inside _ (by decide), if_neg (by decide), if_pos rfl, ih]
    simp only [List.length_cons, List.length_append]
    omega

/-- a hole that is closed in front of the quote has braces in pairs up to its end -/
theorem exists_paired (depth : Nat) (hrest : rest ≠ [])
    (h : (templateReach (depth + 1) (text ++ templateQuote :: rest)).chars = text.length + 1) :
    ∃ code behind, text = code ++ '}' :: behind ∧ Paired code ∧
      (templateReach depth (behind ++ templateQuote :: rest)).chars = behind.length + 1 := by
  have hbeyond : ∀ d, (templateReach d rest).chars ≠ 0 := fun d h => hrest (templateReach_eq_zero h)
  induction hlength : text.length using Nat.strongRecOn generalizing text depth with
  | ind n ih =>
    subst hlength
    rcases text with - | ⟨c, cs⟩
    · -- the quote is no quote in a hole
      rw [List.nil_append, chars_inside _ (by decide), if_neg (by decide), if_neg (by decide)] at h
      exact absurd (Nat.succ.inj h) (hbeyond _)
    by_cases hback : c = '\\'
    · subst hback
      rcases cs with - | ⟨c, cs⟩
      · rw [List.cons_append, List.nil_append, chars_escape, List.length_singleton] at h
        exact absurd (Nat.add_right_cancel (h.trans (Nat.zero_add 2).symm)) (hbeyond _)
      · rw [List.cons_append, List.cons_append, chars_escape] at h
        obtain ⟨code, behind, rfl, hcode, hbehind⟩ := ih cs.length (by simp) depth (by simpa using h) rfl
        exact ⟨'\\' :: c :: code, behind, rfl, .escape c hcode, hbehind⟩
    rw [List.cons_append, chars_inside _ hback, List.length_cons, Nat.add_right_cancel_iff] at h
    by_cases hopen : c = '{'
    · rw [if_pos hopen] at h
      obtain ⟨inner, between, rfl, hinner, hbetween⟩ := ih cs.length (by simp) (depth + 1) h rfl
      obtain ⟨code, behind, rfl, hcode, hbehind⟩ := ih between.length (by simp; omega) depth hbetween rfl
      refine ⟨'{' :: (inner ++ '}' :: code), behind, ?_, .braces hinner hcode, hbehind⟩
      simp [hopen]
    by_cases hclose : c = '}'
    · rw [if_neg hopen, if_pos hclose] at h
      exact ⟨[], cs, by rw [hclose]; rfl, .nil, h⟩
    · rw [if_neg hopen, if_neg hclose] at h
      obtain ⟨code, behind, rfl, hcode, hbehind⟩ := ih cs.length (by simp) depth h rfl
      exact ⟨c :: code, behind, rfl, .plain hback hopen hclose hcode, hbehind⟩

/-- **A template that ends at its quote** with text behind it has braces in pairs in each hole. -/
theorem pairedHoles_of_chars (hrest : rest ≠ [])
    (h : (templateReach 0 (text ++ templateQuote :: rest)).chars = text.length + 1) : PairedHoles text := by
  induction hlength : text.length using Nat.strongRecOn generalizing text with
  | ind n ih =>
    subst hlength
    rcases text with - | ⟨c, cs⟩
    · exact .nil
    by_cases hback : c = '\\'
    · subst hback
      rcases cs with - | ⟨c, cs⟩
      · rw [List.cons_append, List.nil_append, chars_escape, List.length_singleton] at h
        exact absurd (templateReach_eq_zero (Nat.add_right_cancel (h.trans (Nat.zero_add 2).symm))) hrest
      · rw [List.cons_append, List.cons_append, chars_escape] at h
        exact .escape c (ih cs.length (by simp) (by simpa using h) rfl)
    by_cases hopens : c = '$' ∧ cs.head? = some '{'
    · obtain ⟨rfl, hhead⟩ := hopens
      obtain ⟨ds, rfl⟩ := List.head?_eq_some_iff.1 hhead
      rw [List.cons_append, List.cons_append, chars_hole] at h
      obtain ⟨code, behind, rfl, hcode, hbehind⟩ := exists_paired 0 hrest (by simpa using h)
      exact .hole hcode (ih behind.length (by simp; omega) hbehind rfl)
    have hhole : c = '$' → cs.head? ≠ some '{' := fun hc hhead => hopens ⟨hc, hhead⟩
    by_cases hquote : c = templateQuote
    · rw [List.cons_append, hquote, chars_quote, List.length_cons] at h
      exact absurd (Nat.succ.inj h) (by simp)
    · rw [List.cons_append, chars_text hback hquote (not_opens_append hhole), List.length_cons,
        Nat.add_right_cancel_iff] at h
      exact .char hquote hback hhole (ih cs.length (by simp) h rfl)

end

/-! ## Tokens -/

/-- the first token of a text that starts with a template's quote -/
theorem exists_template (cs : List Char) : ∃ behind, tokenize (templateQuote :: cs) =
    ⟨.template, 0, Text.byteLength (templateQuote :: cs.take (templateReach 0 cs).chars), 0⟩ :: behind := by
  obtain ⟨taken, rest, rfl, hlength⟩ : ∃ taken rest, cs = taken ++ rest ∧ taken.length = (templateReach 0 cs).chars :=
    ⟨_, _, (List.take_append_drop (templateReach 0 cs).chars cs).symm,
      List.length_take_of_le (chars_templateReach_le 0 cs)⟩
  have hlexeme : lexeme none templateQuote (taken ++ rest) =
      ⟨taken.length, (templateReach 0 (taken ++ rest)).breaks, some .template⟩ := by
    rw [(Lexed.template rfl).eq, hlength]
  have htokens := tokensFrom_of_some taken rest hlexeme 0 0
  rw [Nat.zero_add] at htokens
  rw [← hlength, List.take_left]
  exact ⟨_, htokens⟩

/-- texts of one length in bytes in front of the same text are the same -/
theorem eq_of_byteLength {a b c d : List Char} (h : a ++ b = c ++ d) (hlength : Text.byteLength a = Text.byteLength c) :
    a = c := by
  rw [← Text.takeBytes_byteLength_append a b, h, hlength, Text.takeBytes_byteLength_append]

/-- **Templates.** A text between template quotes has one template token in front, whatever follows. If the braces in
each string and each inner template are paired, so are those in each hole, all counted; and then the token ends at the
second quote. With more text behind it, it ends there only then. -/
theorem template_token (text rest : List Char) :
    ∃ stop behind, tokenize (quoted text ++ rest) = ⟨.template, 0, stop, 0⟩ :: behind ∧
    (Template Paired .text text → PairedHoles text) ∧
    (PairedHoles text → stop = Text.byteLength (quoted text)) ∧
    (stop = Text.byteLength (quoted text) → rest ≠ [] → PairedHoles text) := by
  have hquoted : quoted text ++ rest = templateQuote :: (text ++ templateQuote :: rest) := by simp [quoted]
  obtain ⟨behind, htokens⟩ := exists_template (text ++ templateQuote :: rest)
  refine ⟨_, behind, hquoted ▸ htokens, Template.paired, fun hpaired => ?_, fun hstop hrest => ?_⟩
  · rw [chars_pairedHoles hpaired, List.append_cons, List.take_left' (by simp)]
    rfl
  · -- one byte length, so one text, and so one number of characters
    have htaken := eq_of_byteLength (b := (text ++ templateQuote :: rest).drop _)
      (by rw [List.cons_append, List.take_append_drop, hquoted]) hstop
    refine pairedHoles_of_chars hrest ?_
    have hlength := congrArg List.length htaken
    rw [List.length_cons, List.length_take_of_le (chars_templateReach_le 0 _)] at hlength
    simpa [quoted] using hlength

/-- a hole with a pair of braces in a string, and with an inner template that has a hole of its own -/
def nestedTemplate : List Char :=
  ['$', '{', 'f', '(', '\'', '{', '}', '\'', ',', templateQuote, '$', '{', 'x', '}', templateQuote, ')', '}']

/-- it is taken whole in front of a name -/
theorem template_token_nested : ∃ behind,
    tokenize (quoted nestedTemplate ++ ['y']) = ⟨.template, 0, Text.byteLength (quoted nestedTemplate), 0⟩ ::
      behind := by
  have hx : Template Paired .text ['$', '{', 'x', '}'] := .hole (.plain (by decide) (.nil _)) (.nil _)
  have hbraces : Inside '\'' ['{', '}'] :=
    .plain (by decide) (by decide) (by decide) (.plain (by decide) (by decide) (by decide) .nil)
  have htext : Template Paired .text nestedTemplate :=
    .hole (.plain (by decide) (.plain (by decide) (.string (.inr rfl) hbraces (.braces .nil .nil)
      (.plain (by decide) (.template hx
        (.plain (by decide) (by decide) (by decide) (.braces (.plain (by decide) (by decide) (by decide) .nil) .nil))
        (.plain (by decide) (.nil _))))))) (.nil _)
  obtain ⟨stop, behind, htokens, hpaired, hstop, -⟩ := template_token nestedTemplate ['y']
  exact ⟨behind, hstop (hpaired htext) ▸ htokens⟩

/-- a string with a closing brace, a quote and a class declaration, in a hole -/
def braceInString : List Char :=
  '$' :: '{' :: '\'' ::
    (['}', templateQuote, ' ', 'c', 'l', 'a', 's', 's', ' ', 'A', ' ', '{', '}', ' '] ++ ['\'', '}'])

/-- **A brace in a string ends the hole**, and the quote behind it the template: the rest of the string is
read as code. -/
theorem brace_in_string_ends_template : ¬ ∀ text rest, Template (fun _ => True) .text text →
    ∃ behind, tokenize (quoted text ++ rest) = ⟨.template, 0, Text.byteLength (quoted text), 0⟩ :: behind := by
  intro hclaim
  have hstring : Inside '\'' ['}', templateQuote, ' ', 'c', 'l', 'a', 's', 's', ' ', 'A', ' ', '{', '}', ' '] := by
    repeat' constructor
    all_goals decide
  obtain ⟨behind, htokens⟩ := hclaim braceInString [] (.hole (.string (.inr rfl) hstring trivial (.nil _)) (.nil _))
  obtain ⟨tail, htail⟩ := exists_template (braceInString ++ [templateQuote])
  have hstop : Text.byteLength (templateQuote ::
      (braceInString ++ [templateQuote]).take (templateReach 0 (braceInString ++ [templateQuote])).chars) = 6 := by
    decide +kernel
  have hlength : Text.byteLength (quoted braceInString) = 21 := by decide +kernel
  rw [List.append_nil, hlength] at htokens
  rw [hstop] at htail
  injection htokens.symm.trans htail with htoken
  exact absurd (congrArg Token.stop htoken) (by decide)

end Lexer

end ClosurePipeline
