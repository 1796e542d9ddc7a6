/-
A text with tags put in. The edits of the pass give a comment to a declaration that has none, and more tags to one that
has; every other lexeme is kept.

- `Annotated`: a text, edits and what they make of it, lexeme by lexeme, with the tags that stand in front of each
  declaration;
- `Annotated.commented`: such edits are edits of comments;
- `Annotated.noted`: the tokens of the two texts differ in comments only, and every declaration has what it needs. Said
  of a second text that may start anywhere (`NotedFrom`), this is kept by every lexeme (`noted_keep`, `noted_insert`,
  `noted_change`).
-/
import Mathlib.Tactic
import ClosurePipeline.Proofs.Module.Noted
import ClosurePipeline.Proofs.Token.Commented
import ClosurePipeline.Proofs.Token.Tiling

namespace ClosurePipeline.Pass.ClosureDocs

open Lexer
open ModuleSummary (startsStatement)

/-! ## Edits that give tags -/

/-- what edits make of a text that starts at byte `pos` on line `line`, behind the token `prev?`. The comment in front,
if that token is one, has been given the tags `owed`. Every lexeme is kept, except that
- a doc comment may be put in front of a statement without one that may open a declaration, if it has the tags that are
  needed there;
- of a doc comment a part may be replaced, if what comes out is a doc comment with all the tags it had. -/
inductive Annotated (need : Nat → Option (List String)) :
    Option Token → List String → Nat → Nat → List Char → List Edit → List Char → Prop where
  | nil (prev? : Option Token) (owed : List String) (pos line : Nat) : Annotated need prev? owed pos line [] [] []
  | gap {prev? : Option Token} {owed : List String} {pos line n : Nat} {c : Char} {cs rest rest' : List Char}
      {es : List Edit} (hlex : lexeme (prev?.map Token.kind) c (cs ++ rest) = ⟨cs.length, n, none⟩)
      (h : Annotated need prev? owed (pos + Text.byteLength (c :: cs)) (line + n) rest es rest') :
      Annotated need prev? owed pos line (c :: (cs ++ rest)) es (c :: (cs ++ rest'))
  | keep {prev? : Option Token} {owed : List String} {pos line n : Nat} {c : Char} {cs rest rest' : List Char}
      {kind : TokenKind} {es : List Edit}
      (hlex : lexeme (prev?.map Token.kind) c (cs ++ rest) = ⟨cs.length, n, some kind⟩)
      (hneed : (need pos).getD [] ⊆ owed)
      (h : Annotated need (some ⟨kind, pos, pos + Text.byteLength (c :: cs), line⟩) [] (pos + Text.byteLength (c :: cs))
        (line + n) rest es rest') :
      Annotated need prev? owed pos line (c :: (cs ++ rest)) es (c :: (cs ++ rest'))
  | insert {prev? : Option Token} {owed : List String} {pos line n : Nat} {c : Char} {cs rest rest' comment : List Char}
      {gap : List Trivia} {kind : TokenKind} {es : List Edit} (hcomment : IsDocComment comment)
      (hsome : need pos ≠ none) (hneed : (need pos).getD [] ⊆ DocComment.tagsOf comment)
      (hplain : prev?.bind Declaration.docOf? = none)
      (hstarts : startsStatement prev? ⟨kind, pos, pos + Text.byteLength (c :: cs), line⟩ = true)
      (hopens : Token.OpensDeclaration ⟨kind, pos, pos + Text.byteLength (c :: cs), line⟩)
      (hlex : lexeme (prev?.map Token.kind) c (cs ++ rest) = ⟨cs.length, n, some kind⟩)
      (h : Annotated need (some ⟨kind, pos, pos + Text.byteLength (c :: cs), line⟩) [] (pos + Text.byteLength (c :: cs))
        (line + n) rest es rest') :
      Annotated need prev? owed pos line (c :: (cs ++ rest)) (Edit.insert pos (comment ++ gapChars gap) :: es)
        (comment ++ gapChars gap ++ c :: (cs ++ rest'))
  | change {prev? : Option Token} {owed owed' : List String} {pos line n : Nat} {c : Char}
      {cs front old new back rest rest' : List Char} {es : List Edit} (hcs : c :: cs = front ++ (old ++ back))
      (hold : IsDocComment (c :: cs)) (hnew : IsDocComment (front ++ (new ++ back)))
      (hkept : DocComment.tagsOf (c :: cs) ⊆ DocComment.tagsOf (front ++ (new ++ back)))
      (howed : owed' ⊆ DocComment.tagsOf (front ++ (new ++ back)))
      (hlex : lexeme (prev?.map Token.kind) c (cs ++ rest) = ⟨cs.length, n, some (.doc (String.ofList (c :: cs)))⟩)
      (h : Annotated need (some ⟨.doc (String.ofList (c :: cs)), pos, pos + Text.byteLength (c :: cs), line⟩) owed'
        (pos + Text.byteLength (c :: cs)) (line + n) rest es rest') :
      Annotated need prev? owed pos line (c :: (cs ++ rest))
        (⟨pos + Text.byteLength front, pos + Text.byteLength (front ++ old), new⟩ :: es)
        (front ++ (new ++ back) ++ rest')

/-- a word or an at sign opens its text -/
theorem opensWord_of_spelled {c : Char} {cs rest : List Char} {kind : TokenKind}
    (hspelled : Spelled (c :: cs) rest kind) (hopens : (∃ word, kind = .ident word) ∨ kind = .punct '@') :
    opensWord c = true := by
  rcases hopens with ⟨word, rfl⟩ | rfl
  · obtain ⟨-, hname, -⟩ := hspelled
    rw [isName, Bool.and_eq_true] at hname
    rw [opensWord, hname.1, Bool.true_or]
  · cases hspelled
    decide

theorem not_slash_of_startsStatement {prev : Option Token} {t : Token} (h : startsStatement prev t = true) :
    prev.map Token.kind ≠ some (.punct '/') := by
  cases prev with
  | none => simp
  | some p =>
    intro hslash
    have hkind : p.kind = .punct '/' := Option.some.inj hslash
    simp [startsStatement, hkind] at h

theorem opensWord_of_opensDeclaration {c : Char} {cs rest : List Char} {t : Token}
    (hspelled : Spelled (c :: cs) rest t.kind) (hopens : t.OpensDeclaration) : opensWord c = true :=
  opensWord_of_spelled hspelled (hopens.imp_left fun ⟨w, _, hw⟩ => ⟨w, hw⟩)

namespace Annotated

variable {need : Nat → Option (List String)} {prev? : Option Token} {owed : List String} {pos line : Nat}
  {text text' : List Char} {es : List Edit}

/-- **Edits that give tags are edits of comments.** -/
theorem commented (h : Annotated need prev? owed pos line text es text') :
    Commented (prev?.map Token.kind) pos text es text' := by
  induction h with
  | nil prev? owed pos line => exact .nil _ _
  | gap hlex h ih => exact .keep hlex ih
  | keep hlex hneed h ih => exact .keep hlex ih
  | @insert prev? owed pos line n c cs rest rest' comment gap kind es hcomment hsome hneed hplain hstarts hopens
    hlex h ih =>
    have hspelled : Spelled (c :: cs) rest kind := stands_of_lexeme hlex
    have hopensWord : opensWord c = true := opensWord_of_opensDeclaration hspelled hopens
    exact .insert ⟨_, _, hcomment, rfl⟩ (not_slash_of_startsStatement hstarts) hopensWord hlex ih
  | @change prev? owed owed' pos line n c cs front old new back rest rest' es hcs hold hnew hkept howed hlex h ih =>
    rw [hcs] at hold ih
    rw [← List.cons_append, hcs]
    exact .change hold hnew ih

end Annotated

/-! ## The tokens -/

/-- the tokens passed in front of two places, at bytes `pos` and `pos'` on lines `line` and `line'`: the same token as
far in front, or a comment and one with all its tags -/
inductive Follows (pos pos' line line' : Nat) : Option Token → Option Token → Prop where
  | start : Follows pos pos' line line' none none
  | same {p p' : Token} (hkind : p'.kind = p.kind) (hstop : (p'.stop : Int) - pos' = p.stop - pos)
      (hline : (p'.line : Int) - line' = p.line - line) :
      Follows pos pos' line line' (some p) (some p')
  | comment {p p' : Token} (hdoc : p.isDoc = true) (hdoc' : p'.isDoc = true)
      (hkept : tagsBehind (some p) ⊆ tagsBehind (some p')) :
      Follows pos pos' line line' (some p) (some p')

namespace Follows

variable {pos pos' line line' : Nat} {p p' : Option Token}

theorem regexAllowed_eq (h : Follows pos pos' line line' p p') :
    regexAllowed (p'.map Token.kind) = regexAllowed (p.map Token.kind) := by
  cases h with
  | start => rfl
  | same hkind hstop hline => rw [Option.map_some, Option.map_some, hkind]
  | comment hdoc hdoc' hkept =>
    obtain ⟨text, hkind⟩ := Token.exists_text_of_isDoc hdoc
    obtain ⟨text', hkind'⟩ := Token.exists_text_of_isDoc hdoc'
    rw [Option.map_some, Option.map_some, hkind, hkind']
    rfl

theorem shift (h : Follows pos pos' line line' p p') (m n : Nat) :
    Follows (pos + m) (pos' + m) (line + n) (line' + n) p p' := by
  cases h with
  | start => exact .start
  | same hkind hstop hline => exact .same hkind (by omega) (by omega)
  | comment hdoc hdoc' hkept => exact .comment hdoc hdoc' hkept

theorem tagsBehind_of_kind {t t' : Token} (h : t'.kind = t.kind) : tagsBehind (some t') = tagsBehind (some t) := by
  unfold tagsBehind
  rw [Option.bind_some, Option.bind_some, Declaration.docOf?, Declaration.docOf?, h]
  cases t.kind <;> rfl

theorem kept (h : Follows pos pos' line line' p p') : tagsBehind p ⊆ tagsBehind p' := by
  cases h with
  | start => exact List.Subset.refl _
  | same hkind hstop hline =>
    rw [tagsBehind_of_kind hkind]
    exact List.Subset.refl _
  | comment hdoc hdoc' hkept => exact hkept

variable {kind : TokenKind} {stop stop' : Nat}

theorem startsStatement_eq (h : Follows pos pos' line line' p p') :
    startsStatement p' ⟨kind, pos', stop', line'⟩ = startsStatement p ⟨kind, pos, stop, line⟩ := by
  cases h with
  | start => rfl
  | @same p p' hkind hstop hline =>
    have hlt : p'.line < line' ↔ p.line < line := by omega
    simp only [startsStatement, hkind, hlt]
  | comment hdoc hdoc' hkept =>
    obtain ⟨text, hkind⟩ := Token.exists_text_of_isDoc hdoc
    obtain ⟨text', hkind'⟩ := Token.exists_text_of_isDoc hdoc'
    simp only [startsStatement, hkind, hkind']

theorem isArrowHead_eq (h : Follows pos pos' line line' p p') :
    Cursor.isArrowHead p' ⟨kind, pos', stop', line'⟩ = Cursor.isArrowHead p ⟨kind, pos, stop, line⟩ := by
  cases h with
  | start => rfl
  | @same p p' hkind hstop hline =>
    have heq : (p'.stop == pos') = (p.stop == pos) := by
      rw [Bool.eq_iff_iff, beq_iff_eq, beq_iff_eq]
      omega
    simp only [Cursor.isArrowHead, Token.isPunct, hkind, heq]
  | comment hdoc hdoc' hkept =>
    simp only [Cursor.isArrowHead, Token.isPunct_of_isDoc hdoc, Token.isPunct_of_isDoc hdoc', Bool.false_and]

end Follows

/-- where a statement starts there is no arrow -/
theorem isArrowHead_of_startsStatement {p : Option Token} {t : Token} (h : startsStatement p t = true) :
    Cursor.isArrowHead p t = false := by
  cases p with
  | none => rfl
  | some p =>
    have hno : p.isPunct '=' = false := by
      by_contra hassign
      have hkind : p.kind = .punct '=' := by simpa [Token.isPunct] using hassign
      simp [startsStatement, hkind] at h
    simp [Cursor.isArrowHead, hno]

theorem tagsBehind_doc (comment : List Char) (start stop line : Nat) :
    tagsBehind (some ⟨.doc (String.ofList comment), start, stop, line⟩) = DocComment.tagsOf comment := by
  simp [tagsBehind, Declaration.docOf?, DocComment.ofText]

namespace Annotated

variable {need : Nat → Option (List String)} {prev? : Option Token} {owed : List String} {pos line : Nat}
  {text text' : List Char} {es : List Edit}

/-- the tokens of two texts differ in comments only, and every declaration has what it needs, wherever the second text
starts: behind the same token as far in front, or behind a comment with the tags owed -/
def NotedFrom (need : Nat → Option (List String)) (prev? : Option Token) (owed : List String) (pos line : Nat)
    (text text' : List Char) : Prop :=
  ∀ (l : Int) (p' : Option Token) (pos' line' : Nat), (line' : Int) = line + l → Follows pos pos' line line' prev? p' →
    owed ⊆ tagsBehind p' → Noted need l prev? p' (tokensFrom (prev?.map Token.kind) pos line text)
      (tokensFrom (p'.map Token.kind) pos' line' text')

section

variable {n : Nat} {c : Char} {cs rest rest' : List Char} {kind : TokenKind}

/-- a token that is kept -/
theorem noted_keep (hlex : lexeme (prev?.map Token.kind) c (cs ++ rest) = ⟨cs.length, n, some kind⟩)
    (hneed : (need pos).getD [] ⊆ owed)
    (h : Annotated need (some ⟨kind, pos, pos + Text.byteLength (c :: cs), line⟩) [] (pos + Text.byteLength (c :: cs))
      (line + n) rest es rest')
    (ih : NotedFrom need (some ⟨kind, pos, pos + Text.byteLength (c :: cs), line⟩) [] (pos + Text.byteLength (c :: cs))
      (line + n) rest rest') :
    NotedFrom need prev? owed pos line (c :: (cs ++ rest)) (c :: (cs ++ rest')) := by
  intro l p' pos' line' hline hfollows howed
  have hlex' := h.commented.lexeme_eq rfl hlex fun _ => hfollows.regexAllowed_eq
  have hrest := ih l (some ⟨kind, pos', pos' + Text.byteLength (c :: cs), line'⟩) (pos' + Text.byteLength (c :: cs))
    (line' + n) (by omega) (.same rfl (by simp) (by simp only; omega)) (List.nil_subset _)
  rw [tokensFrom_of_some cs rest hlex, tokensFrom_of_some cs rest' hlex']
  cases hdoc : Token.isDoc ⟨kind, pos, pos + Text.byteLength (c :: cs), line⟩ with
  | true => exact .comment hdoc hdoc hline hrest
  | false =>
    exact .keep rfl hdoc hline hfollows.startsStatement_eq hfollows.isArrowHead_eq hfollows.kept
      (List.Subset.trans hneed howed) hrest

/-- a comment put in front of a declaration -/
theorem noted_insert {comment : List Char} {gap : List Trivia} (hcomment : IsDocComment comment)
    (hsome : need pos ≠ none) (hneed : (need pos).getD [] ⊆ DocComment.tagsOf comment)
    (hplain : prev?.bind Declaration.docOf? = none)
    (hstarts : startsStatement prev? ⟨kind, pos, pos + Text.byteLength (c :: cs), line⟩ = true)
    (hopens : Token.OpensDeclaration ⟨kind, pos, pos + Text.byteLength (c :: cs), line⟩)
    (hlex : lexeme (prev?.map Token.kind) c (cs ++ rest) = ⟨cs.length, n, some kind⟩)
    (h : Annotated need (some ⟨kind, pos, pos + Text.byteLength (c :: cs), line⟩) [] (pos + Text.byteLength (c :: cs))
      (line + n) rest es rest')
    (ih : NotedFrom need (some ⟨kind, pos, pos + Text.byteLength (c :: cs), line⟩) [] (pos + Text.byteLength (c :: cs))
      (line + n) rest rest') :
    NotedFrom need prev? owed pos line (c :: (cs ++ rest)) (comment ++ gapChars gap ++ c :: (cs ++ rest')) := by
  intro l p' pos' line' hline hfollows howed
  have hspelled : Spelled (c :: cs) rest kind := stands_of_lexeme hlex
  have hslash : c ≠ '/' := by
    rintro rfl
    exact absurd (opensWord_of_opensDeclaration hspelled hopens) (by decide)
  obtain ⟨line₁, hnote⟩ :=
    tokensFrom_isDocComment hcomment (p'.map Token.kind) pos' line' (gapChars gap ++ c :: (cs ++ rest'))
  have hlex' : lexeme (some (.doc (String.ofList comment))) c (cs ++ rest') = ⟨cs.length, n, some kind⟩ :=
    h.commented.lexeme_eq rfl hlex fun hc => absurd hc hslash
  rw [List.append_assoc, hnote, tokensFrom_gap, tokensFrom_of_some cs rest hlex, tokensFrom_of_some cs rest' hlex']
  -- the declaration stands behind the new comment, and what it needs is there
  have hrest := ih (((line₁ + Text.breaks (gapChars gap) : Nat) : Int) - line)
    (some ⟨kind, pos' + Text.byteLength comment + Text.byteLength (gapChars gap),
      pos' + Text.byteLength comment + Text.byteLength (gapChars gap) + Text.byteLength (c :: cs),
      line₁ + Text.breaks (gapChars gap)⟩)
    (pos' + Text.byteLength comment + Text.byteLength (gapChars gap) + Text.byteLength (c :: cs))
      (line₁ + Text.breaks (gapChars gap) + n) (by omega)
    (.same rfl (by simp) (by simp only; omega)) (List.nil_subset _)
  have hbefore : tagsBehind prev? = [] := by rw [tagsBehind, hplain]; rfl
  refine .insert hopens hstarts hsome rfl hline (.keep rfl hopens.isDoc (by simp) ?_ ?_ ?_ ?_ hrest)
  · rw [hstarts]
    rfl
  · rw [isArrowHead_of_startsStatement hstarts]
    exact isArrowHead_of_startsStatement rfl
  · rw [hbefore]
    exact List.nil_subset _
  · rw [tagsBehind_doc]
    exact hneed

/-- a comment that has been given more tags -/
theorem noted_change {owed' : List String} {new : List Char} (hnew : IsDocComment new)
    (hkept : DocComment.tagsOf (c :: cs) ⊆ DocComment.tagsOf new) (howed' : owed' ⊆ DocComment.tagsOf new)
    (hlex : lexeme (prev?.map Token.kind) c (cs ++ rest) = ⟨cs.length, n, some (.doc (String.ofList (c :: cs)))⟩)
    (ih : NotedFrom need (some ⟨.doc (String.ofList (c :: cs)), pos, pos + Text.byteLength (c :: cs), line⟩) owed'
      (pos + Text.byteLength (c :: cs)) (line + n) rest rest') :
    NotedFrom need prev? owed pos line (c :: (cs ++ rest)) (new ++ rest') := by
  intro l p' pos' line' hline hfollows _
  obtain ⟨line₁, hchanged⟩ := tokensFrom_isDocComment hnew (p'.map Token.kind) pos' line' rest'
  have hrest :=
    ih ((line₁ : Int) - (line + n : Nat)) (some ⟨.doc (String.ofList new), pos', pos' + Text.byteLength new, line'⟩)
    (pos' + Text.byteLength new) line₁ (by omega)
      (.comment rfl rfl (by rw [tagsBehind_doc, tagsBehind_doc]; exact hkept))
    (by rw [tagsBehind_doc]; exact howed')
  rw [tokensFrom_of_some cs rest hlex, hchanged]
  exact .comment rfl rfl hline hrest

end

/-- **The tokens differ in comments only,** and every declaration has what it needs. -/
theorem noted (h : Annotated need prev? owed pos line text es text') :
    NotedFrom need prev? owed pos line text text' := by
  induction h with
  | nil prev? owed pos line =>
    intro l p' pos' line' hline hfollows howed
    rw [tokensFrom, tokensFrom]
    exact .nil _ _ _
  | @gap prev? owed pos line n c cs rest rest' es hlex h ih =>
    intro l p' pos' line' hline hfollows howed
    have hlex' := h.commented.lexeme_eq rfl hlex fun _ => hfollows.regexAllowed_eq
    rw [tokensFrom_of_none cs rest hlex, tokensFrom_of_none cs rest' hlex']
    exact ih l p' _ _ (by omega) (hfollows.shift _ n) howed
  | keep hlex hneed h ih => exact noted_keep hlex hneed h ih
  | insert hcomment hsome hneed hplain hstarts hopens hlex h ih =>
    exact noted_insert hcomment hsome hneed hplain hstarts hopens hlex h ih
  | change hcs hold hnew hkept howed hlex h ih => exact noted_change hnew hkept howed hlex ih

end Annotated

end ClosurePipeline.Pass.ClosureDocs
