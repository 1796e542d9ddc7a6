/-
Edits of passes are kept. The edits for a declaration stand in its own part of the text, so the edits of a pass are
given in order, none reaches into the next, and none is dropped.

- `removalEnd_le`: the removal of a decorator ends in front of the next token;
- `Downlevel.confined_editsFor`, `ClosureDocs.confined_editsFor`: the edits for a declaration stay in its part;
- `orderly_edits`: so the edits of a pass are in order and apart; `text_of_applyPass`: its text has all of them;
- `no_edit_is_dropped`: the result, with what each pass makes of a text.
-/
import Mathlib.Tactic
import ClosurePipeline.Proofs.Pass.Comments
import ClosurePipeline.Proofs.Pass.Placed
import ClosurePipeline.Proofs.Pass.Written
import ClosurePipeline.Proofs.Pipeline.Passes

namespace ClosurePipeline

open EditScript (Orderly)

/-! ## Removals -/

/-- a name, or the at sign of a decorator -/
def Token.OpensWord (t : Token) : Prop := (∃ word, t.kind = .ident word) ∨ t.kind = .punct '@'

theorem Token.opensWord_of_ident? {t : Token} {w : String} (h : t.ident? = some w) : t.OpensWord := by
  unfold Token.ident? at h
  split at h
  · exact Or.inl ⟨_, ‹_›⟩
  · cases h

/-- behind decorators a text goes on with a decorator or with the token behind them -/
theorem Decorator.Marks.exists_next {rs : List Decorator} {ts : List Token} (h : Marks rs ts) {t : Token}
    (ht : t.OpensWord) (behind : List Token) :
    ∃ next rest, ts ++ t :: behind = next :: rest ∧ next.OpensWord := by
  cases h with
  | nil => exact ⟨t, behind, rfl, ht⟩
  | cons h hs =>
    obtain ⟨first, hfirst, hat, -⟩ := h.first
    obtain ⟨us, rfl⟩ := List.head?_eq_some_iff.1 hfirst
    exact ⟨first, _, rfl, Or.inr (eq_of_beq hat)⟩

/-- a decorator ends with one of its tokens -/
theorem Decorator.Marks.exists_last {rs : List Decorator} {ts : List Token} (h : Marks rs ts) {r : Decorator}
    (hr : r ∈ rs) :
    ∃ last ∈ ts, r.span.stop = last.stop := by
  induction h with
  | nil => cases hr
  | cons h hs ih =>
    rcases List.mem_cons.1 hr with rfl | hr
    · obtain ⟨last, hlast, hstop, -⟩ := h.last
      exact ⟨last, List.mem_append_left _ (List.mem_of_mem_getLast? hlast), hstop⟩
    · obtain ⟨last, hlast, hstop⟩ := ih hr
      exact ⟨last, List.mem_append_right _ hlast, hstop⟩

/-- behind its decorators a declaration goes on with a name -/
theorem Layout.Of.exists_next {l : Layout} {prev : Option Token} {d : Declaration} (h : l.Of prev d) :
    ∃ next rest, l.words ++ l.word :: (l.head ++ l.body) = next :: rest ∧ next.OpensWord := by
  cases hwords : l.words with
  | nil =>
    obtain ⟨w, hw, -⟩ := Option.bind_eq_some_iff.1 h.word
    exact ⟨_, _, rfl, Token.opensWord_of_ident? hw⟩
  | cons word words =>
    refine ⟨word, _, rfl, ?_⟩
    rcases h.words word (by simp [hwords]) with ⟨w, -, hw⟩ | ⟨hconst, -⟩
    · exact Token.opensWord_of_ident? hw
    · exact Token.opensWord_of_ident? (eq_of_beq hconst)

namespace Pass.Downlevel

open Lexer

theorem not_opensWord_of_isBlank {c : Char} (h : isBlank c = true) : opensWord c = false := by
  have hblanks : ∀ c ∈ [' ', '\t', '\r', '\n'], opensWord c = false := List.forall_iff_forall_mem.1 (by decide)
  exact hblanks c (isBlank_iff.1 h)

/-- a token that opens a word starts with no blank -/
theorem exists_opensWord {cs : List Char} {t : Token} (ht : t ∈ tokenize cs) (hopens : t.OpensWord) :
    ∃ before c behind, cs = before ++ c :: behind ∧ t.start = Text.byteLength before ∧ opensWord c = true := by
  obtain ⟨text, rest, ⟨⟨before, hcs, hstart⟩, -⟩, hspelled⟩ := exists_spelled ht
  obtain ⟨c, ds, rfl⟩ := List.exists_cons_of_ne_nil hspelled.ne_nil
  exact ⟨before, c, ds ++ rest, hcs, hstart, ClosureDocs.opensWord_of_spelled hspelled hopens⟩

/-- **The removal of a decorator ends in front of the next token,** if that is a word or an at sign. -/
theorem removalEnd_le {source : List Char} {r : Decorator} {last next : Token} (hlast : last ∈ tokenize source)
    (hstop : r.span.stop = last.stop) (hnext : next ∈ tokenize source) (hopens : next.OpensWord)
    (hle : last.stop ≤ next.start) :
    OnBoundary source (removalEnd source r) ∧ last.stop ≤ removalEnd source r ∧ removalEnd source r ≤ next.start := by
  obtain ⟨before, rest, rfl, hbefore⟩ := (onBoundary_of_mem hlast).2
  obtain ⟨trail, left, rfl, htrail, hend⟩ := @removalEnd_eq _ rest _ (hstop.trans hbefore)
  obtain ⟨front, c, behind, hsplit, hstart, hc⟩ := exists_opensWord hnext hopens
  rw [hend, hbefore]
  refine ⟨⟨before ++ trail, left, by rw [List.append_assoc], (Text.byteLength_append ..).symm⟩,
    Nat.le_add_right _ _, ?_⟩
  rcases split_of_append_eq hsplit with ⟨m, rfl, -⟩ | ⟨gap, rfl, hgap⟩
  · have hpos := c.utf8Size_pos
    simp only [Text.byteLength_append, Text.byteLength_cons] at hbefore
    omega
  · -- the blanks are part of the gap in front of the next token
    rcases split_of_append_eq hgap with ⟨m, rfl, -⟩ | ⟨m, rfl, -⟩
    · rw [not_opensWord_of_isBlank (htrail.isBlank c (by simp))] at hc
      cases hc
    · simp only [Text.byteLength_append] at hstart
      omega

end Pass.Downlevel

/-! ## The edits of a declaration -/

namespace Pass

namespace Downlevel

/-- the removals of the annotations of a class, and the static block that lists them behind the opening brace of its
body -/
def classEdits (cx : Context) (file : Path) (source : List Char) (d : Declaration) : List Edit :=
  (annotations cx file d).map (fun r => Edit.remove r.span.start (removalEnd source r)) ++
    d.body.toList.map fun body => Edit.insert (body.start + 1)
      (render (String.ofList (EditScript.indentation source body.start)) (annotations cx file d)).toList

/-- a class with annotations has to have a body and gets its edits; other declarations get none -/
theorem editsFor_eq_ok_iff {cx : Context} {unit : SourceUnit} {d : Declaration} {es : List Edit} :
    editsFor cx unit d = .ok es ↔ (IsMarked cx unit.path d → d.body ≠ none) ∧
      es = if IsMarked cx unit.path d then classEdits cx unit.path unit.text.toList d else [] := by
  have hnone : (if d.kind == .classDecl then annotations cx unit.path d else []) = [] ↔ ¬ IsMarked cx unit.path d := by
    rw [isMarked_iff]
    split_ifs with hclass
    · simp [eq_of_beq hclass]
    · simpa using fun h => absurd h (by simpa using hclass)
  unfold editsFor
  split
  · rename_i hnil
    have hmarked := hnone.1 hnil
    simp [hmarked, eq_comm]
  · rename_i hcons
    have hmarked : IsMarked cx unit.path d := by
      by_contra h
      exact hcons (hnone.2 h)
    have hclass : (d.kind == .classDecl) = true := by simp [(isMarked_iff.1 hmarked).1]
    rw [if_pos hmarked, classEdits, if_pos hclass]
    cases d.body with
    | none => simp [hmarked]
    | some body => simp [eq_comm]

theorem annotations_sublist (cx : Context) (file : Path) (d : Declaration) :
    (annotations cx file d).Sublist d.decorators := List.filter_sublist

end Downlevel

section

variable {source : List Char} {front : List Token} {l : Layout} {behind : List Token} {d : Declaration}

/-- the removal of a decorator, in front of a token that opens a word -/
theorem Downlevel.confined_removal {r : Decorator} {xs rest : List Token} (h : r.Spells xs) {next : Token}
    (htokens : Lexer.tokenize source = front ++ (xs ++ next :: rest)) (hopens : next.OpensWord) {lo : Nat}
    (hlo : ∀ t ∈ xs, lo ≤ t.start) :
    lo ≤ next.start ∧ Confined source lo next.start [Edit.remove r.span.start (removalEnd source r)] := by
  obtain ⟨first, hfirst, -, hstart⟩ := h.first
  obtain ⟨last, hlast, hstop, -⟩ := h.last
  have hfirst' := List.mem_of_mem_head? hfirst
  have hlast' := List.mem_of_mem_getLast? hlast
  have hfirstMem : first ∈ Lexer.tokenize source := by simp [htokens, hfirst']
  have hlastMem : last ∈ Lexer.tokenize source := by simp [htokens, hlast']
  have hnextMem : next ∈ Lexer.tokenize source := by simp [htokens]
  have hbehind : Lexer.tokenize source = (front ++ xs) ++ (next :: rest) := by simp [htokens]
  have hgap : last.stop ≤ next.start := Lexer.stop_le_start hbehind (List.mem_append_right _ hlast') List.mem_cons_self
  obtain ⟨hboundary, hfrom, hupto⟩ := removalEnd_le hlastMem hstop hnextMem hopens hgap
  have horder : first.start ≤ last.start := Lexer.start_le_of_head? htokens hfirst hlast'
  have hlt := Lexer.start_lt_stop hlastMem
  have hloFirst := hlo first hfirst'
  rw [hstart]
  exact ⟨by omega,
    .singleton (Lexer.onBoundary_of_mem hfirstMem).1 hboundary (by simp only [Edit.remove]; omega) hloFirst hupto⟩

/-- the removals of decorators in a row, in front of a token that opens a word -/
theorem Downlevel.confined_marks {rs : List Decorator} {xs : List Token} (hmarks : Decorator.Marks rs xs) :
    ∀ {front : List Token} {next : Token}
    {rest : List Token} {lo : Nat}, Lexer.tokenize source = front ++ (xs ++ next :: rest) → next.OpensWord →
    (∀ t ∈ xs, lo ≤ t.start) →
    Confined source lo next.start (rs.map fun r => Edit.remove r.span.start (removalEnd source r)) := by
  induction hmarks with
  | nil => intros; exact .nil
  | @cons r rs xs ys h hs ih =>
    intro front next rest lo htokens hopens hlo
    -- the removal ends in front of the next decorator, or of what is behind them all
    obtain ⟨next', rest', hnext, hopens'⟩ := hs.exists_next hopens rest
    have htokens' : Lexer.tokenize source = front ++ (xs ++ next' :: rest') := by rw [htokens, List.append_assoc, hnext]
    have hbehind : Lexer.tokenize source = (front ++ xs) ++ (ys ++ next :: rest) := by simp [htokens]
    have hle : ∀ t ∈ ys ++ next :: rest, next'.start ≤ t.start :=
      fun t ht => Lexer.start_le_of_head? (hbehind.trans (congrArg _ (List.append_nil _).symm)) (by rw [hnext]; rfl) ht
    obtain ⟨hlo', hremoval⟩ := confined_removal h htokens' hopens' fun t ht => hlo t (List.mem_append_left _ ht)
    have hlater := ih hbehind hopens fun t ht => hle t (List.mem_append_left _ ht)
    exact hremoval.append hlater hlo' (hle next (by simp))

/-- the removals of a declaration end in front of its body -/
theorem Downlevel.confined_removals (h : Placed source front l behind d) {rs : List Decorator}
    (hsub : rs.Sublist d.decorators) :
    ∃ mid, d.fromByte ≤ mid ∧ (∀ t ∈ l.body, mid ≤ t.start) ∧
      Confined source d.fromByte mid (rs.map fun r => Edit.remove r.span.start (removalEnd source r)) := by
  obtain ⟨next, rest, hnext, hopens⟩ := h.of.exists_next
  have hparts : l.tokens = l.marks ++ next :: rest := by rw [Layout.tokens, hnext]
  have htokens : Lexer.tokenize source = front ++ (l.marks ++ next :: (rest ++ behind)) := by
    rw [h.tokens, hparts]
    simp
  have hbehind : Lexer.tokenize source = (front ++ l.marks) ++ ((next :: rest) ++ behind) := by simp [htokens]
  have hfrom : ∀ t ∈ l.tokens, d.fromByte ≤ t.start := fun t ht => h.fromByte_le.trans (h.start_le ht)
  refine ⟨next.start, hfrom next (by simp [hparts]), fun t ht => ?_, ?_⟩
  · exact Lexer.start_le_of_head? hbehind rfl (by rw [← hnext]; simp [ht])
  · exact (confined_marks h.of.marks htokens hopens fun t ht => hfrom t (by simp [hparts, ht])).sublist (hsub.map _)

/-- what is put behind the opening brace of a body -/
theorem Downlevel.confined_block (h : Placed source front l behind d) {body : Span} (hbody : d.body = some body)
    (text : List Char) {mid : Nat} (hmid : ∀ t ∈ l.body, mid ≤ t.start) :
    mid ≤ d.uptoByte ∧ Confined source mid d.uptoByte [Edit.insert (body.start + 1) text] := by
  obtain ⟨opening, hopening, close, hclose, hbrace, -, rfl, hapart⟩ := h.exists_braces hbody
  have hmem : opening ∈ Lexer.tokenize source := h.mem (by simp [Layout.tokens, hopening])
  obtain ⟨hstop, -⟩ := Lexer.stop_of_isPunct hmem hbrace (by decide)
  have hboundary := (Lexer.onBoundary_of_mem hmem).2
  have hlt := Lexer.start_lt_stop (h.mem (List.mem_of_getLast? hclose))
  have hle := hmid opening hopening
  rw [Declaration.uptoByte_of_body hbody, ← hstop]
  exact ⟨by dsimp only; omega, .singleton hboundary hboundary (Nat.le_refl _) (by simp only [Edit.insert]; omega)
    (by simp only [Edit.insert]; omega)⟩

/-- **The edits of downleveling stay in the part of the class.** -/
theorem Downlevel.confined_editsFor (h : Placed source front l behind d) {cx : Context} {unit : SourceUnit}
    (hunit : unit.text.toList = source) {es : List Edit} (hes : editsFor cx unit d = .ok es) :
    Confined source d.fromByte d.uptoByte es := by
  obtain ⟨hbody, rfl⟩ := editsFor_eq_ok_iff.1 hes
  split_ifs with hmarked
  · obtain ⟨body, hbody⟩ := Option.ne_none_iff_exists'.1 (hbody hmarked)
    obtain ⟨mid, hfrom, hmid, hremovals⟩ := confined_removals h (annotations_sublist cx unit.path d)
    rw [classEdits, hbody, hunit]
    obtain ⟨hupto, hblock⟩ := confined_block h hbody _ hmid
    exact hremovals.append hblock hfrom hupto
  · exact .nil

/-- the edit of a comment stays in the comment, or in front of the declaration -/
theorem ClosureDocs.confined_annotate (h : Placed source front l behind d) {tags : List Tag} (htags : Plain tags) :
    Confined source d.fromByte d.start [annotate source d tags] := by
  obtain ⟨first, hfirst, hstart⟩ := h.exists_first
  unfold annotate
  cases hdoc : d.doc with
  | none =>
    have hboundary := (Lexer.onBoundary_of_mem (h.mem hfirst)).1
    rw [← hstart] at hboundary
    exact .singleton hboundary hboundary (Nat.le_refl _) h.fromByte_le (Nat.le_refl _)
  | some doc =>
    obtain ⟨p, hp, hp'⟩ := h.exists_comment hdoc
    have hspan := Declaration.span_of_docOf? hp'
    obtain ⟨text, rest, ⟨⟨before, hsource, hbefore⟩, hstop⟩, hspelled⟩ := Lexer.exists_spelled (h.mem_front hp)
    have hle := h.stop_le_start hp
    have hrest : rest ≠ [] := by
      rintro rfl
      have hend := EditScript.le_of_onBoundary (Lexer.onBoundary_of_mem (h.mem hfirst)).2
      have hlt := Lexer.start_lt_stop (h.mem hfirst)
      rw [hsource, List.append_nil, Text.byteLength_append] at hend
      omega
    obtain ⟨hcomment, -, -⟩ := isDocComment_of_docOf? hspelled hrest hp'
    rw [hstop, hbefore] at hspan
    obtain ⟨front, old, new, back, rfl, -, hedit⟩ := extendComment_changes hsource hcomment hspan htags
    have hfrom : d.fromByte = Text.byteLength before := by simp [Declaration.fromByte, hdoc, hspan]
    change Confined source d.fromByte d.start [extendComment source doc tags]
    rw [hedit, hfrom]
    refine .singleton ⟨before ++ front, old ++ back ++ rest, by simp [hsource], by simp [Text.byteLength_append]⟩
      ⟨before ++ (front ++ old), back ++ rest, by simp [hsource], by simp [Text.byteLength_append]⟩ ?_ ?_ ?_
    all_goals
      simp only [Text.byteLength_append] at hstop ⊢
      omega

/-- what is put behind a body -/
theorem ClosureDocs.confined_shim (h : Placed source front l behind d) {body : Span} (hbody : d.body = some body)
    (text : List Char) :
    Confined source d.start d.uptoByte [Edit.insert body.stop text] := by
  obtain ⟨opening, -, close, hclose, -, -, rfl, -⟩ := h.exists_braces hbody
  have hboundary := (Lexer.onBoundary_of_mem (h.mem (List.mem_of_getLast? hclose))).2
  have hupto := h.start_le_uptoByte
  rw [Declaration.uptoByte_of_body hbody] at hupto ⊢
  exact .singleton hboundary hboundary (Nat.le_refl _) hupto (Nat.le_refl _)

/-- **The edits of doc comments stay in the part of the declaration.** -/
theorem ClosureDocs.confined_editsFor (h : Placed source front l behind d) {cx : Context} {unit : SourceUnit}
    (hunit : unit.text.toList = source)
    (hheritage : ∀ name ∈ d.heritage.extended ++ d.heritage.implemented, '/' ∉ name.toList) :
    Confined source d.fromByte d.uptoByte (editsFor cx unit d) := by
  unfold editsFor
  rw [hunit]
  split_ifs with hambient
  · exact .nil
  · dsimp only
    have hcomment : Confined source d.fromByte d.start
        (if (tagsFor cx unit.path d).isEmpty then [] else [annotate source d (tagsFor cx unit.path d)]) := by
      split_ifs
      · exact .nil
      · exact confined_annotate h (plain_tagsFor cx unit.path hheritage)
    refine hcomment.append ?_ h.fromByte_le h.start_le_uptoByte
    split
    · rename_i body _ hbody
      exact confined_shim h hbody _
    · exact .nil

end

/-! ## What the passes make of a text -/

namespace Downlevel

/-- items are all handled if each of them can be, and what is made of them is known -/
theorem mapM_eq_ok_iff {α β : Type} {f : α → Except Fault β} {p : α → Prop} {g : α → β}
    (hf : ∀ x y, f x = .ok y ↔ p x ∧ y = g x) (xs : List α) {ys : List β} :
    xs.mapM f = .ok ys ↔ (∀ x ∈ xs, p x) ∧ ys = xs.map g := by
  induction xs generalizing ys with
  | nil => simp [pure, Except.pure, eq_comm]
  | cons x xs ih =>
    rw [List.mapM_cons, List.forall_mem_cons, List.map_cons]
    cases hx : f x with
    | error fault =>
      have hnot : ¬ p x := fun hp => by simpa [hx] using (hf x (g x)).2 ⟨hp, rfl⟩
      simp [hnot, bind, Except.bind]
    | ok y =>
      obtain ⟨hp, rfl⟩ := (hf x y).1 hx
      cases hxs : xs.mapM f with
      | error fault =>
        have hnot : ¬ ∀ x ∈ xs, p x := fun hall => by simpa [hxs] using ih.2 ⟨hall, rfl⟩
        simpa [bind, Except.bind, hp] using fun hall => absurd hall hnot
      | ok more =>
        obtain ⟨hall, rfl⟩ := ih.1 hxs
        simpa [bind, Except.bind, pure, Except.pure, hp, eq_comm] using fun _ => hall

/-- the edits of a unit are those of its classes with annotations, which have to have bodies -/
theorem edits_eq_ok_iff {cx : Context} {unit : SourceUnit} {es : List Edit} :
    edits cx unit = .ok es ↔ (∀ d ∈ unit.summary.declarations, IsMarked cx unit.path d → d.body ≠ none) ∧
      es = unit.summary.declarations.flatMap fun d =>
        if IsMarked cx unit.path d then classEdits cx unit.path unit.text.toList d else [] := by
  have hall := @mapM_eq_ok_iff _ _ (editsFor cx unit) _ _ (fun _ _ => editsFor_eq_ok_iff) unit.summary.declarations
  unfold edits
  cases hparts : unit.summary.declarations.mapM (editsFor cx unit) with
  | error fault =>
    have hnot : ¬ ∀ d ∈ unit.summary.declarations, IsMarked cx unit.path d → d.body ≠ none :=
      fun hbodies => by simpa [hparts] using hall.2 ⟨hbodies, rfl⟩
    simpa [bind, Except.bind] using fun hbodies => absurd hbodies (by simpa using hnot)
  | ok parts =>
    obtain ⟨hbodies, rfl⟩ := hall.1 hparts
    simp only [bind, Except.bind, Except.ok.injEq, List.flatMap_def]
    exact ⟨fun h => ⟨hbodies, h.symm⟩, fun h => h.2.symm⟩

end Downlevel

namespace ClosureDocs

/-- what is put around a tag for each of some tags holds the tag -/
theorem tag_infix_join {tags : List Tag} {t : Tag} (ht : t ∈ tags) (before behind : String) :
    t.text.toList <:+: (String.join (tags.map fun t => before ++ t.text ++ behind)).toList := by
  have hpart : t.text.toList <:+: (before ++ t.text ++ behind).toList := by
    rw [String.toList_append, String.toList_append]
    exact List.infix_append _ _ _
  rw [String.toList_join, List.flatMap_def, List.map_map]
  exact hpart.trans (List.infix_of_mem_flatten (List.mem_map.2 ⟨t, ht, rfl⟩))

/-- a tag stands in the edit that adds it -/
theorem tag_infix_annotate {source : List Char} {d : Declaration} {tags : List Tag} {t : Tag} (ht : t ∈ tags) :
    t.text.toList <:+: (annotate source d tags).text := by
  unfold annotate
  cases d.doc with
  | none =>
    change t.text.toList <:+: (newComment _ tags).toList
    generalize String.ofList (EditScript.indentation source d.start) = indent
    unfold newComment
    split
    · rename_i tag
      rw [List.mem_singleton.1 ht]
      exact ⟨"/** ".toList, " */\n".toList ++ indent.toList, by simp⟩
    · refine (tag_infix_join ht (indent ++ " * ") "\n").trans
        ⟨"/**\n".toList, indent.toList ++ " */\n".toList ++ indent.toList, ?_⟩
      simp
  | some doc =>
    change t.text.toList <:+: (extendComment source doc tags).text
    unfold extendComment
    dsimp only
    split_ifs
    · exact tag_infix_join ht (_ ++ "* ") "\n"
    · generalize String.ofList (EditScript.indentation source doc.span.start) = indent
      refine (tag_infix_join ht ("\n" ++ indent ++ " * ") "").trans
        ⟨[], "\n".toList ++ indent.toList ++ " */".toList, ?_⟩
      simp

end ClosureDocs

/-- the edits of a pass on a text are in order and apart -/
theorem orderly_edits {pass : Pass} {cx : Context} {path : Path} {text : String} {es : List Edit}
    (h : pass.edits cx (.parse path text) = .ok es) :
    Orderly text.toList es := by
  cases pass with
  | decoratorDownlevel =>
    obtain ⟨hbodies, rfl⟩ := Downlevel.edits_eq_ok_iff.1 h
    exact orderly_declarations fun front l behind d hd hplaced =>
      Downlevel.confined_editsFor hplaced rfl (Downlevel.editsFor_eq_ok_iff.2 ⟨hbodies d hd, rfl⟩)
  | closurize =>
    cases h
    have hheritage : ∀ d ∈ (ModuleSummary.ofText text).declarations,
        ∀ name ∈ d.heritage.extended ++ d.heritage.implemented, '/' ∉ name.toList := by
      obtain ⟨ws, hws, -⟩ := List.sublistForall₂_iff.1
        (ModuleSummary.declared_ofTokens text.toList (ClosureDocs.slashless_tokenize text.toList))
      exact ((List.forall₂_and_left _ _).1 (hws.imp fun d p h => ⟨h.heritage, h⟩)).1
    exact orderly_declarations fun front l behind d hd hplaced =>
      ClosureDocs.confined_editsFor hplaced rfl (hheritage d hd)

/-- **The text of a pass.** All its edits are applied; a text without edits stays as it is. -/
theorem text_of_applyPass {pass : Pass} {cx : Context} {path : Path} {text : String} {out : Output}
    (h : Pipeline.applyPass pass cx (.parse path text) = .ok out) : ∃ es, pass.edits cx (.parse path text) = .ok es ∧
      out.text.toList = if es = [] then text.toList else EditScript.spliced text.toList 0 es ++ pass.trailer := by
  obtain ⟨es, hes, ⟨hnone, htext⟩ | ⟨hsome, htext, -⟩⟩ := Pipeline.applyPass_cases h
  · exact ⟨es, hes, by rw [htext, if_pos hnone]; rfl⟩
  · refine ⟨es, hes, ?_⟩
    rw [htext, if_neg hsome, String.toList_ofList]
    exact (orderly_edits hes).text_run pass.trailer

theorem flatMap_if {α β : Type} (p : α → Prop) [DecidablePred p] (f : α → List β) (xs : List α) :
    (xs.flatMap fun x => if p x then f x else []) = (xs.filter p).flatMap f := by
  induction xs with
  | nil => rfl
  | cons x xs ih =>
    rw [List.flatMap_cons, ih, List.filter_cons]
    split_ifs <;> simp_all

namespace Downlevel

variable {cx : Context} {path : Path} {text : String}

/-- the body of a declaration starts with a brace in the text -/
theorem exists_brace {d : Declaration} (hd : d ∈ (ModuleSummary.ofText text).declarations) {body : Span}
    (hbody : d.body = some body) :
    ∃ before behind, text.toList = before ++ '{' :: behind ∧ body.start = Text.byteLength before := by
  obtain ⟨front, l, rest, hplaced⟩ := exists_placed hd
  obtain ⟨opening, hopening, close, -, hbrace, -, rfl, -⟩ := hplaced.exists_braces hbody
  obtain ⟨-, before, behind, htext, hbefore⟩ :=
    Lexer.stop_of_isPunct (hplaced.mem (by simp [Layout.tokens, hopening])) hbrace (by decide)
  exact ⟨before, behind, htext, hbefore.symm⟩

/-- a decorator ends where a token does -/
theorem onBoundary_of_decorator {d : Declaration} (hd : d ∈ (ModuleSummary.ofText text).declarations) {r : Decorator}
    (hr : r ∈ d.decorators) : Lexer.OnBoundary text.toList r.span.stop := by
  obtain ⟨front, l, rest, hplaced⟩ := exists_placed hd
  obtain ⟨last, hlast, hstop⟩ := hplaced.of.marks.exists_last hr
  rw [hstop]
  exact (Lexer.onBoundary_of_mem (hplaced.mem (by simp [Layout.tokens, hlast]))).2

/-- **The edits for a class with annotations** take these off and list them in its body. -/
theorem rewritten_classEdits {d : Declaration} (hd : d ∈ (ModuleSummary.ofText text).declarations)
    (hbody : d.body ≠ none) :
    Rewritten cx path text.toList d (classEdits cx path text.toList d) := by
  obtain ⟨body, hbody⟩ := Option.ne_none_iff_exists'.1 hbody
  obtain ⟨before, behind, htext, hstart⟩ := exists_brace hd hbody
  have hbrace : body.start + 1 = Text.byteLength (before ++ ['{']) := by
    rw [hstart, Text.byteLength_append]
    rfl
  have hindent : EditScript.Indents before ('{' :: behind) (EditScript.indentation text.toList body.start) := by
    rw [htext, hstart]
    exact EditScript.indents_indentation _ _
  have hremovals : List.Forall₂ (Removed text.toList) (annotations cx path d)
      ((annotations cx path d).map fun r => Edit.remove r.span.start (removalEnd text.toList r)) := by
    refine List.forall₂_map_right_iff.2 (List.forall₂_same.2 fun r hr => removed_remove ?_)
    exact onBoundary_of_decorator hd ((annotations_sublist cx path d).subset hr)
  rw [annotations_eq] at hremovals
  rw [classEdits, hbody, Option.toList_some, List.map_singleton, hbrace, annotations_eq]
  exact .mk hbody htext hstart hindent hremovals (block_iff.2 rfl)

/-- the pass fails only at a class with annotations and no body -/
theorem exists_apply_iff : (∃ out, apply cx (.parse path text) = .ok out) ↔
    ∀ d ∈ (ModuleSummary.ofText text).declarations, IsMarked cx path d → d.body ≠ none := by
  constructor
  · rintro ⟨out, hout⟩
    obtain ⟨es, hes, -⟩ := Pipeline.exists_edits_of_downlevel hout
    exact (edits_eq_ok_iff.1 hes).1
  · intro hbodies
    have hes := (@edits_eq_ok_iff cx (.parse path text) _).2 ⟨hbodies, rfl⟩
    unfold apply
    rw [hes]
    simp only [bind, Except.bind]
    split_ifs
    · exact ⟨_, rfl⟩
    · exact ⟨_, rfl⟩

/-- a class with annotations has edits -/
theorem classEdits_ne_nil {d : Declaration} (h : IsMarked cx path d) : classEdits cx path text.toList d ≠ [] :=
  List.append_ne_nil_of_left_ne_nil (mt List.map_eq_nil_iff.1 (isMarked_iff.1 h).2) _

/-- the text that downleveling makes -/
theorem text_apply {out : Output} (h : apply cx (.parse path text) = .ok out) :
    ∃ ess, List.Forall₂ (Rewritten cx path text.toList)
      ((ModuleSummary.ofText text).declarations.filter (IsMarked cx path)) ess ∧
      out.text.toList = if ess = [] then text.toList
        else EditScript.spliced text.toList 0 ess.flatten ++ support.toList := by
  obtain ⟨es, hes, htext⟩ := @text_of_applyPass .decoratorDownlevel cx path text out h
  obtain ⟨hbodies, hflat⟩ := (@edits_eq_ok_iff cx (.parse path text) es).1 hes
  change ∀ d ∈ (ModuleSummary.ofText text).declarations, IsMarked cx path d → d.body ≠ none at hbodies
  change es = (ModuleSummary.ofText text).declarations.flatMap
    (fun d => if IsMarked cx path d then classEdits cx path text.toList d else []) at hflat
  rw [flatMap_if, List.flatMap_def] at hflat
  have hmarked : ∀ d ∈ (ModuleSummary.ofText text).declarations.filter (IsMarked cx path), IsMarked cx path d :=
    fun d hd => of_decide_eq_true (List.mem_filter.1 hd).2
  have hrewritten : ∀ d ∈ (ModuleSummary.ofText text).declarations.filter (IsMarked cx path),
      Rewritten cx path text.toList d (classEdits cx path text.toList d) := fun d hd =>
    rewritten_classEdits (List.mem_filter.1 hd).1 (hbodies d (List.mem_filter.1 hd).1 (hmarked d hd))
  generalize (ModuleSummary.ofText text).declarations.filter (IsMarked cx path) = classes at hflat hmarked hrewritten ⊢
  refine ⟨classes.map (classEdits cx path text.toList),
    List.forall₂_map_right_iff.2 (List.forall₂_same.2 hrewritten), ?_⟩
  have hempty : es = [] ↔ classes.map (classEdits cx path text.toList) = [] := by
    rw [hflat, List.flatten_eq_nil_iff, List.map_eq_nil_iff, List.forall_mem_map]
    refine ⟨fun hnone => List.eq_nil_iff_forall_not_mem.2 fun d hd => classEdits_ne_nil (hmarked d hd) (hnone d hd), ?_⟩
    rintro rfl
    exact List.forall_mem_nil _
  simp only [htext, hempty, ← hflat]
  rfl

end Downlevel

namespace ClosureDocs

variable {cx : Context} {path : Path} {text : String}

/-- the text that closure doc comments make -/
theorem text_apply : (apply cx (.parse path text)).text.toList =
    EditScript.spliced text.toList 0
      ((ModuleSummary.ofText text).declarations.flatMap (editsFor cx (.parse path text))) := by
  obtain ⟨es, hes, htext⟩ := @text_of_applyPass .closurize cx path text (apply cx (.parse path text)) rfl
  cases hes
  change _ = EditScript.spliced text.toList 0
      ((SourceUnit.parse path text).summary.declarations.flatMap (editsFor cx (.parse path text)))
  rw [htext]
  split_ifs with hnone
  · rw [hnone]
    exact (Text.dropBytes_byteLength_append [] text.toList).symm
  · exact List.append_nil _

/-- what an edit for a declaration puts in stands in the text that the pass makes -/
theorem text_infix_apply {d : Declaration} (hd : d ∈ (ModuleSummary.ofText text).declarations) {e : Edit}
    (he : e ∈ editsFor cx (.parse path text) d) : e.text <:+: (apply cx (.parse path text)).text.toList := by
  rw [text_apply]
  exact EditScript.infix_spliced _ (List.mem_flatMap.2 ⟨d, hd, he⟩)

theorem tag_infix_apply {d : Declaration} (hd : d ∈ (ModuleSummary.ofText text).declarations)
    (hambient : isAmbient (.parse path text) d = false) {t : Tag} (ht : t ∈ tagsFor cx path d) :
    t.text.toList <:+: (apply cx (.parse path text)).text.toList := by
  have hsome : ¬(tagsFor cx path d).isEmpty = true := by
    rw [List.isEmpty_iff]
    exact List.ne_nil_of_mem ht
  have hmem : annotate text.toList d (tagsFor cx path d) ∈ editsFor cx (.parse path text) d := by
    unfold editsFor
    rw [hambient, if_neg Bool.false_ne_true]
    dsimp only
    rw [List.mem_append]
    refine Or.inl ?_
    change _ ∈ if (tagsFor cx path d).isEmpty then [] else [annotate text.toList d (tagsFor cx path d)]
    rw [if_neg hsome]
    exact List.mem_singleton_self _
  exact (tag_infix_annotate ht).trans (text_infix_apply hd hmem)

theorem shim_infix_apply {d : Declaration} (hd : d ∈ (ModuleSummary.ofText text).declarations)
    (hambient : isAmbient (.parse path text) d = false) (hkind : d.kind = .interfaceDecl) {body : Span}
    (hbody : d.body = some body) :
    (recordShim d).toList <:+: (apply cx (.parse path text)).text.toList := by
  have hmem : Edit.insert body.stop (recordShim d).toList ∈ editsFor cx (.parse path text) d := by
    unfold editsFor
    rw [hambient, if_neg Bool.false_ne_true, hkind, hbody]
    exact List.mem_append_right _ (List.mem_singleton_self _)
  exact text_infix_apply hd hmem

end ClosureDocs

/-- **No edit of a pass is dropped.** All edits of a pass are accepted, in the order in which they are given. So
downleveling, which fails only at a class with annotations and no body, takes the annotations off every class that has
some, puts one static block that lists them behind the opening brace of its body, and puts the type of the block behind
the text. The text with closure doc comments is the text with the comments and shims of all declarations put in. The
tags that are computed for a declaration are those it needs; each of them stands in that text, and so does the shim of
every interface. -/
theorem no_edit_is_dropped (cx : Context) (path : Path) (text : String) :
    (∀ (pass : Pass) (es : List Edit), pass.edits cx (.parse path text) = .ok es →
      EditScript.ByStart es es ∧ EditScript.accepted text.toList es = es) ∧
    ((∃ out, Downlevel.apply cx (.parse path text) = .ok out) ↔
      ∀ d ∈ (ModuleSummary.ofText text).declarations, Downlevel.IsMarked cx path d → d.body ≠ none) ∧
    (∀ out : Output, Downlevel.apply cx (.parse path text) = .ok out → ∃ ess,
      List.Forall₂ (Downlevel.Rewritten cx path text.toList)
        ((ModuleSummary.ofText text).declarations.filter (Downlevel.IsMarked cx path)) ess ∧
      out.text.toList = if ess = [] then text.toList else EditScript.spliced text.toList 0 ess.flatten ++
        "\ninterface DecoratorInvocation \x7b\n  type: Function;\n  args?: any[];\n\x7d\n".toList) ∧
    (ClosureDocs.apply cx (.parse path text)).text.toList = EditScript.spliced text.toList 0
      ((ModuleSummary.ofText text).declarations.flatMap (ClosureDocs.editsFor cx (.parse path text))) ∧
    ∀ d ∈ (ModuleSummary.ofText text).declarations, path.isDeclarationFile = false → d.ambient = false →
      (∀ tag, (∃ t ∈ ClosureDocs.tagsFor cx path d, t.text = tag) ↔ ClosureDocs.Needs cx path d tag) ∧
      (∀ tag, ClosureDocs.Needs cx path d tag → tag.toList <:+: (ClosureDocs.apply cx (.parse path text)).text.toList) ∧
      (d.kind = .interfaceDecl → ∀ body ∈ d.body, ∃ shim, ClosureDocs.Shim d shim ∧
        shim.toList <:+: (ClosureDocs.apply cx (.parse path text)).text.toList) := by
  refine ⟨fun pass es hes => ?_, Downlevel.exists_apply_iff, fun out => Downlevel.text_apply, ClosureDocs.text_apply,
    fun d hd hfile hdeclare => ?_⟩
  · have horderly := orderly_edits hes
    have hsort := EditScript.byStart_sort es
    rw [horderly.sort_eq] at hsort
    exact ⟨hsort, horderly.accepted_eq⟩
  · have hambient : ClosureDocs.isAmbient (.parse path text) d = false := Bool.or_eq_false_iff.2 ⟨hfile, hdeclare⟩
    refine ⟨fun tag => ClosureDocs.exists_mem_tagsFor_iff, fun tag hneeds => ?_, fun hkind body hbody => ?_⟩
    · obtain ⟨t, ht, rfl⟩ := hneeds.exists_tag
      exact ClosureDocs.tag_infix_apply hd hambient ht
    · exact ⟨_, ClosureDocs.shim_iff.2 rfl, ClosureDocs.shim_infix_apply hd hambient hkind hbody⟩

/-- a class with an annotation and an interface -/
def annotatedClass : String := "@D class A \x7b\x7d\ninterface I \x7b\x7d\n"

/-- every name is known as that of an annotation -/
def onlyAnnotations : Context :=
  ⟨fun _ name => some ⟨name, .functionDecl, ⟨"/p/d.ts"⟩, [Downlevel.annotationTag], false⟩,
    Policy.rules ⟨⟨"/p"⟩, none, [], []⟩⟩

/-- both passes have edits for the text: the class loses its decorator and gets a static block, and the interface gets a
tag and a shim -/
theorem no_edit_is_dropped_annotatedClass :
    (∃ es, decoratorDownlevel.edits onlyAnnotations (.parse ⟨"/p/a.ts"⟩ annotatedClass) = .ok es ∧ es.length = 2 ∧
      EditScript.accepted annotatedClass.toList es = es) ∧
    (∃ out ess, Downlevel.apply onlyAnnotations (.parse ⟨"/p/a.ts"⟩ annotatedClass) = .ok out ∧ ess ≠ [] ∧
      List.Forall₂ (Downlevel.Rewritten onlyAnnotations ⟨"/p/a.ts"⟩ annotatedClass.toList)
        ((ModuleSummary.ofText annotatedClass).declarations.filter
          (Downlevel.IsMarked onlyAnnotations ⟨"/p/a.ts"⟩)) ess ∧
      out.text.toList = EditScript.spliced annotatedClass.toList 0 ess.flatten ++
        "\ninterface DecoratorInvocation \x7b\n  type: Function;\n  args?: any[];\n\x7d\n".toList) ∧
    ∃ d ∈ (ModuleSummary.ofText annotatedClass).declarations,
      ClosureDocs.Needs onlyAnnotations ⟨"/p/a.ts"⟩ d "@record" ∧
      "@record".toList <:+: (ClosureDocs.apply onlyAnnotations (.parse ⟨"/p/a.ts"⟩ annotatedClass)).text.toList ∧
      ∃ shim, ClosureDocs.Shim d shim ∧
        shim.toList <:+: (ClosureDocs.apply onlyAnnotations (.parse ⟨"/p/a.ts"⟩ annotatedClass)).text.toList := by
  obtain ⟨haccepted, hbodies, hdownlevel, -, hdocs⟩ := no_edit_is_dropped onlyAnnotations ⟨"/p/a.ts"⟩ annotatedClass
  refine ⟨?_, ?_, ?_⟩
  · have hlength : (decoratorDownlevel.edits onlyAnnotations (.parse ⟨"/p/a.ts"⟩ annotatedClass)).toOption.map
        List.length = some 2 := by
      decide +kernel
    cases hes : decoratorDownlevel.edits onlyAnnotations (.parse ⟨"/p/a.ts"⟩ annotatedClass) with
    | error fault =>
      rw [hes] at hlength
      cases hlength
    | ok es =>
      rw [hes] at hlength
      exact ⟨es, rfl, Option.some.inj hlength, (haccepted _ es hes).2⟩
  · have hclasses : (ModuleSummary.ofText annotatedClass).declarations.filter
        (Downlevel.IsMarked onlyAnnotations ⟨"/p/a.ts"⟩) ≠ [] := by
      decide +kernel
    have hbody : ∀ d ∈ (ModuleSummary.ofText annotatedClass).declarations, d.body ≠ none := by
      decide +kernel
    obtain ⟨out, hout⟩ := hbodies.2 fun d hd _ => hbody d hd
    obtain ⟨ess, hrewritten, htext⟩ := hdownlevel out hout
    have hsome : ess ≠ [] := by
      rintro rfl
      exact hclasses (List.forall₂_nil_right_iff.1 hrewritten)
    rw [if_neg hsome] at htext
    exact ⟨out, ess, hout, hsome, hrewritten, htext⟩
  · obtain ⟨d, hd, hdeclare, hkind, hdoc, hbody⟩ : ∃ d ∈ (ModuleSummary.ofText annotatedClass).declarations,
        d.ambient = false ∧ d.kind = .interfaceDecl ∧ d.hasTag "record" = false ∧ d.body.isSome = true := by
      decide +kernel
    obtain ⟨body, hbody⟩ := Option.isSome_iff_exists.1 hbody
    obtain ⟨-, hneeds, hshim⟩ := hdocs d hd (by decide +kernel) hdeclare
    exact ⟨d, hd, .record hkind hdoc, hneeds _ (.record hkind hdoc), hshim hkind body hbody⟩

end Pass

end ClosurePipeline
