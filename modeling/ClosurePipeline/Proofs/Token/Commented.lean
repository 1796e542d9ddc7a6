/-
A text with comments put in. Edits that change a doc comment inside its delimiters, or put one in front of a name or an
at sign, leave all other tokens of the text as they are.

- `Commented`: a text, edits and what they make of it, lexeme by lexeme;
- `Commented.textOf_cut`: the edits make it so;
- `Commented.code_eq`: apart from its doc comments the new text has the tokens of the old one, kinds and values, in the
  same order.
-/
import Mathlib.Tactic
import ClosurePipeline.Proofs.Edit.Places
import ClosurePipeline.Proofs.Token.Local

namespace ClosurePipeline.Lexer

/-! ## Edits of comments -/

/-- a name or an at sign starts here -/
def opensWord (c : Char) : Bool := isIdentStart c || c = '@'

/-- a doc comment, delimiters included -/
structure IsDocComment (text : List Char) : Prop where
  isDoc : isDocText text = true
  closed : ∃ body, ¬ ['*', '/'] <:+: body ∧ text = blockComment body

/-- a doc comment with a gap behind it -/
def IsNewComment (text : List Char) : Prop := ∃ comment gap, IsDocComment comment ∧ text = comment ++ gapChars gap

/-- what edits of comments make of a text that starts at byte `pos`, behind the token `prev`: every lexeme is kept,
except that
- a doc comment may be put in front of a name or an at sign, though not behind a slash by itself, which it would make a
  comment;
- of a doc comment a part may be replaced, if what comes out is a doc comment. -/
inductive Commented : Option TokenKind → Nat → List Char → List Edit → List Char → Prop where
  | nil (prev : Option TokenKind) (pos : Nat) : Commented prev pos [] [] []
  | keep {prev : Option TokenKind} {pos : Nat} {c : Char} {cs rest rest' : List Char} {n : Nat}
      {kind : Option TokenKind} {es : List Edit} (hlex : lexeme prev c (cs ++ rest) = ⟨cs.length, n, kind⟩)
      (h : Commented (kind.or prev) (pos + Text.byteLength (c :: cs)) rest es rest') :
      Commented prev pos (c :: (cs ++ rest)) es (c :: (cs ++ rest'))
  | insert {prev : Option TokenKind} {pos : Nat} {c : Char} {cs rest rest' new : List Char} {n : Nat} {kind : TokenKind}
      {es : List Edit} (hnew : IsNewComment new) (hprev : prev ≠ some (.punct '/')) (hopens : opensWord c = true)
      (hlex : lexeme prev c (cs ++ rest) = ⟨cs.length, n, some kind⟩)
      (h : Commented (some kind) (pos + Text.byteLength (c :: cs)) rest es rest') :
      Commented prev pos (c :: (cs ++ rest)) (Edit.insert pos new :: es) (new ++ c :: (cs ++ rest'))
  | change {prev : Option TokenKind} {pos : Nat} {front old new back rest rest' : List Char} {es : List Edit}
      (hold : IsDocComment (front ++ (old ++ back))) (hnew : IsDocComment (front ++ (new ++ back)))
      (h : Commented (some (.doc (String.ofList (front ++ (old ++ back)))))
        (pos + Text.byteLength (front ++ (old ++ back))) rest es rest') :
      Commented prev pos (front ++ (old ++ back) ++ rest)
        (⟨pos + Text.byteLength front, pos + Text.byteLength (front ++ old), new⟩ :: es)
        (front ++ (new ++ back) ++ rest')

namespace Commented

variable {prev : Option TokenKind} {pos : Nat} {text text' : List Char} {es : List Edit}

/-! ## The edits -/

/-- the edits come in order, none in front of the text -/
theorem ordered (h : Commented prev pos text es text') :
    (∀ e ∈ es, pos ≤ e.start) ∧ es.Pairwise fun a b => a.start ≤ b.start := by
  induction h with
  | nil prev pos => simp
  | keep hlex h ih => exact ⟨fun e he => (Nat.le_add_right _ _).trans (ih.1 e he), ih.2⟩
  | insert hnew hprev hopens hlex h ih =>
    have hlater := fun e he => (Nat.le_add_right _ _).trans (ih.1 e he)
    refine ⟨fun e he => ?_, List.pairwise_cons.2 ⟨hlater, ih.2⟩⟩
    rcases List.mem_cons.1 he with rfl | he
    · exact Nat.le_refl _
    · exact hlater e he
  | change hold hnew h ih =>
    rw [Text.byteLength_append] at ih
    refine ⟨fun e he => ?_, List.pairwise_cons.2 ⟨fun e he => ?_, ih.2⟩⟩
    · rcases List.mem_cons.1 he with rfl | he
      · exact Nat.le_add_right _ _
      · exact (Nat.le_add_right _ _).trans (ih.1 e he)
    · have hlater := ih.1 e he
      simp only
      omega

/-- the text behind an edit is cut on its own -/
theorem textOf_cut_cons {pos : Nat} {front old rest new : List Char} {es : List Edit} :
    EditScript.textOf (EditScript.cut pos (front ++ (old ++ rest))
      (⟨pos + Text.byteLength front, pos + Text.byteLength (front ++ old), new⟩ :: es)) =
      front ++ (new ++ EditScript.textOf (EditScript.cut (pos + Text.byteLength (front ++ old)) rest es)) := by
  rw [EditScript.cut_cons]
  rfl

/-- **The edits make the new text,** whatever is kept in front of it. -/
theorem textOf_cut (h : Commented prev pos text es text') : ∀ start kept, start + Text.byteLength kept = pos →
    EditScript.textOf (EditScript.cut start (kept ++ text) es) = kept ++ text' := by
  induction h with
  | nil prev pos => intro start kept _; simp [EditScript.cut, EditScript.textOf, Piece.text]
  | @keep prev pos c cs rest rest' n kind es hlex h ih =>
    rintro start kept rfl
    have hrest := ih start (kept ++ c :: cs) (by rw [Text.byteLength_append]; omega)
    simpa using hrest
  | @insert prev pos c cs rest rest' new n kind es hnew hprev hopens hlex h ih =>
    rintro start kept rfl
    have hcut := @textOf_cut_cons start kept [] (c :: (cs ++ rest)) new es
    rw [List.append_nil, List.nil_append] at hcut
    have hrest := ih (start + Text.byteLength kept) (c :: cs) rfl
    rw [List.cons_append, List.cons_append] at hrest
    rw [Edit.insert, hcut, hrest]
  | @change prev pos front old new back rest rest' es hold hnew h ih =>
    rintro start kept rfl
    have hcut := @textOf_cut_cons start (kept ++ front) old (back ++ rest) new es
    have hrest :=
      ih (start + Text.byteLength (kept ++ front ++ old)) back (by simp only [Text.byteLength_append]; omega)
    rw [hrest] at hcut
    simp only [Text.byteLength_append, List.append_assoc, Nat.add_assoc] at hcut ⊢
    exact hcut

theorem text_run (h : Commented none 0 text es text') : (EditScript.run text es []).1 = text' := by
  rw [EditScript.run_of_pairwise h.ordered.2, List.append_nil]
  exact h.textOf_cut 0 [] rfl

/-! ## The tokens -/

/-- the new text goes on as the old one does, or with a comment in front of a name or an at sign -/
theorem head?_cases (h : Commented prev pos text es text') : text'.head? = text.head? ∨
    prev ≠ some (.punct '/') ∧ text'.head? = some '/' ∧ ∃ d ds, text = d :: ds ∧ opensWord d = true := by
  have hopening : ∀ {comment : List Char}, IsDocComment comment → ∀ rest, (comment ++ rest).head? = some '/' := by
    rintro comment ⟨-, body, -, rfl⟩ rest
    rfl
  cases h with
  | nil prev pos => exact Or.inl rfl
  | keep hlex h => exact Or.inl rfl
  | insert hnew hprev hopens hlex h =>
    obtain ⟨comment, gap, hcomment, rfl⟩ := hnew
    rw [List.append_assoc]
    exact Or.inr ⟨hprev, hopening hcomment _, _, _, rfl, hopens⟩
  | change hold hnew h => exact Or.inl ((hopening hnew _).trans (hopening hold _).symm)

theorem alike (h : Commented prev pos text es text') : Alike text text' := by
  rcases h.head?_cases with hhead | ⟨-, hslash, d, ds, rfl, hd⟩
  · exact .of_head?_eq hhead
  · refine ⟨fun hbreak => ?_, fun e he => Or.inl ?_⟩
    · rw [hbreak d rfl] at hd
      exact absurd hd (by decide)
    · rw [hslash] at he
      cases he
      rfl

end Commented

/-- a lexeme depends on the token in front of it only where a slash may start a regular expression -/
theorem lexeme_congr {prev prev' : Option TokenKind} {c : Char} (h : c = '/' → regexAllowed prev' = regexAllowed prev)
    (cs : List Char) :
    lexeme prev' c cs = lexeme prev c cs := by
  have hregex : (decide (c = '/') && regexAllowed prev') = (decide (c = '/') && regexAllowed prev) := by
    by_cases hc : c = '/'
    · rw [h hc]
    · simp [hc]
  rw [lexeme, lexeme, hregex]

/-- a slash by itself in front of a name or an at sign divides -/
theorem lexeme_slash {prev kind : Option TokenKind} {d : Char} {ds : List Char} {n : Nat} (hd : opensWord d = true)
    (hlex : lexeme prev '/' (d :: ds) = ⟨0, n, kind⟩) : kind = some (.punct '/') := by
  have hne : ∀ e, opensWord e = false → d ≠ e := by
    rintro e he rfl
    rw [he] at hd
    cases hd
  have hline : (d :: ds).head? ≠ some '/' := fun h => hne '/' (by decide) (Option.some.inj h)
  have hblock : (d :: ds).head? ≠ some '*' := fun h => hne '*' (by decide) (Option.some.inj h)
  by_cases hregex : regexAllowed prev = true
  · rw [(Lexed.regex rfl hline hblock hregex).eq, regexReach_cons (hne '\\' (by decide)),
      if_neg (hne '\n' (by decide))] at hlex
    split_ifs at hlex <;> simp at hlex
  · have hnumber : ¬ StartsNumber '/' (d :: ds) := not_startsNumber rfl fun h => absurd h (by decide)
    have hmark := Lexed.mark rfl (fun _ => ⟨hline, hblock, by simpa using hregex⟩) (by decide) (by decide) hnumber rfl
    rw [hmark.eq] at hlex
    cases hlex
    rfl

/-- a doc comment is its token, whatever is behind it -/
theorem tokensFrom_isDocComment {comment : List Char} (h : IsDocComment comment) (prev : Option TokenKind)
    (offset line : Nat) (rest : List Char) :
    ∃ line', tokensFrom prev offset line (comment ++ rest) =
      ⟨.doc (String.ofList comment), offset, offset + Text.byteLength comment, line⟩ ::
        tokensFrom (some (.doc (String.ofList comment))) (offset + Text.byteLength comment) line' rest := by
  obtain ⟨hdoc, body, hclosed, rfl⟩ := h
  have hlex := @lexeme_closedComment prev rest body hclosed
  rw [hdoc, if_pos rfl] at hlex
  have hlen : body.length + 3 = ('*' :: (body ++ ['*', '/'])).length := by simp
  rw [hlen] at hlex
  exact ⟨_, tokensFrom_of_some _ rest hlex offset line⟩

theorem tokensFrom_docComment {comment : List Char} (h : IsDocComment comment) (prev : Option TokenKind)
    (offset line : Nat) (rest : List Char) :
    ∃ t line', t.isDoc = true ∧ tokensFrom prev offset line (comment ++ rest) =
      t :: tokensFrom (some (.doc (String.ofList comment))) (offset + Text.byteLength comment) line' rest := by
  obtain ⟨line', htokens⟩ := tokensFrom_isDocComment h prev offset line rest
  exact ⟨_, line', rfl, htokens⟩

/-- what tokens say apart from doc comments -/
def codeOf (ts : List Token) : List TokenKind := (ts.filter fun t => !t.isDoc).map Token.kind

theorem codeOf_cons_of_isDoc {t : Token} {ts : List Token} (h : t.isDoc = true) : codeOf (t :: ts) = codeOf ts := by
  simp [codeOf, h]

theorem codeOf_cons_congr {t t' : Token} {ts ts' : List Token} (hkind : t'.kind = t.kind) (h : codeOf ts' = codeOf ts) :
    codeOf (t' :: ts') = codeOf (t :: ts) := by
  have hdoc : t'.isDoc = t.isDoc := by simp [Token.isDoc, hkind]
  rw [codeOf, codeOf, List.filter_cons, List.filter_cons, hdoc]
  split_ifs
  · simp only [List.map_cons, hkind]
    exact congrArg _ h
  · exact h

/-- a lexeme in front of a text that goes on alike: if the rest says the same, so does the whole -/
theorem codeOf_lexeme {prev prev' kind : Option TokenKind} {c : Char} {cs rest rest' : List Char} {n : Nat}
    (hprev : c = '/' ∨ kind = none → regexAllowed prev' = regexAllowed prev)
    (hlex : lexeme prev c (cs ++ rest) = ⟨cs.length, n, kind⟩) (halike : Alike rest rest')
    (hslash : c = '/' → cs = [] → rest'.head? = rest.head?)
    (hrest : ∀ prev' offset line offset' line', regexAllowed prev' = regexAllowed (kind.or prev) →
      codeOf (tokensFrom prev' offset' line' rest') = codeOf (tokensFrom (kind.or prev) offset line rest))
    (offset line offset' line' : Nat) :
    codeOf (tokensFrom prev' offset' line' (c :: (cs ++ rest'))) =
      codeOf (tokensFrom prev offset line (c :: (cs ++ rest))) := by
  have hlex' := lexeme_alike hlex halike hslash
  rw [← lexeme_congr fun hc => hprev (Or.inl hc)] at hlex'
  cases kind with
  | none =>
    rw [tokensFrom_of_none cs rest hlex, tokensFrom_of_none cs rest' hlex']
    exact hrest _ _ _ _ _ (hprev (Or.inr rfl))
  | some kind =>
    rw [tokensFrom_of_some cs rest hlex, tokensFrom_of_some cs rest' hlex']
    exact codeOf_cons_congr rfl (hrest _ _ _ _ _ rfl)

/-- a lexeme of a text in front of a rest in which comments are edited -/
theorem Commented.lexeme_eq {prev prev' behind kind : Option TokenKind} {c : Char} {cs rest rest' : List Char}
    {n pos : Nat} {es : List Edit} (h : Commented behind pos rest es rest') (hbehind : behind = kind.or prev)
    (hlex : lexeme prev c (cs ++ rest) = ⟨cs.length, n, kind⟩)
    (hprev : c = '/' → regexAllowed prev' = regexAllowed prev) :
    lexeme prev' c (cs ++ rest') = ⟨cs.length, n, kind⟩ := by
  rw [lexeme_congr hprev]
  refine lexeme_alike hlex h.alike ?_
  rintro rfl rfl
  rcases h.head?_cases with hhead | ⟨hno, -, d, ds, rfl, hd⟩
  · exact hhead
  · rw [List.nil_append] at hlex
    rw [hbehind, lexeme_slash hd hlex] at hno
    exact absurd rfl hno

/-- **Edits of comments change only comments:** apart from doc comments the new text has the tokens of the old one. -/
theorem Commented.code_eq {prev : Option TokenKind} {pos : Nat} {text text' : List Char} {es : List Edit}
    (h : Commented prev pos text es text') :
    ∀ prev' offset line offset' line', regexAllowed prev' = regexAllowed prev →
      codeOf (tokensFrom prev' offset' line' text') = codeOf (tokensFrom prev offset line text) := by
  induction h with
  | nil prev pos => intros; rw [tokensFrom, tokensFrom]
  | @keep prev pos c cs rest rest' n kind es hlex h ih =>
    intro prev' offset line offset' line' hprev
    refine codeOf_lexeme (fun _ => hprev) hlex h.alike ?_ ih offset line offset' line'
    rintro rfl rfl
    rcases h.head?_cases with hhead | ⟨hno, -, d, ds, rfl, hd⟩
    · exact hhead
    · rw [List.nil_append] at hlex
      rw [lexeme_slash hd hlex] at hno
      exact absurd rfl hno
  | @insert prev pos c cs rest rest' new n kind es hnew hprev hopens hlex h ih =>
    intro prev' offset line offset' line' _
    obtain ⟨comment, gap, hcomment, rfl⟩ := hnew
    obtain ⟨t, line₁, ht, htokens⟩ :=
      tokensFrom_docComment hcomment prev' offset' line' (gapChars gap ++ c :: (cs ++ rest'))
    have hslash : c ≠ '/' := by
      rintro rfl
      exact absurd hopens (by decide)
    rw [List.append_assoc, htokens, codeOf_cons_of_isDoc ht, tokensFrom_gap]
    refine codeOf_lexeme ?_ hlex h.alike (fun hc => absurd hc hslash) ih _ _ _ _
    rintro (hc | hnone)
    · exact absurd hc hslash
    · cases hnone
  | @change prev pos front old new back rest rest' es hold hnew h ih =>
    intro prev' offset line offset' line' hallowed
    obtain ⟨t, line₁, ht, htokens⟩ := tokensFrom_docComment hold prev offset line rest
    obtain ⟨t', line₂, ht', htokens'⟩ := tokensFrom_docComment hnew prev' offset' line' rest'
    rw [htokens, htokens', codeOf_cons_of_isDoc ht, codeOf_cons_of_isDoc ht']
    exact ih _ _ _ _ _ rfl

end ClosurePipeline.Lexer
