/-
Closure doc comments change only comments. The pass puts tags into the comment in front of a declaration, or a comment
in front of it; apart from doc comments the new text has the tokens of the old one.

- `exists_newComment`, `extendComment_adds`: what is put in front of a declaration is a doc comment with its tags, and
  what becomes of a doc comment is one, with the tags it had and those added;
- `Gives`: an edit that gives tags to the declaration at a place; `annotates_declarations`: a unit without shims has no
  other edits;
- `exists_annotated`: edits at the places of a text's tokens give their tags, by induction on the lexemes;
  `exists_commented`: so they change comments only;
- `code_unchanged`: the result. An interface with a body is left out, since it gets a shim.
-/
import Mathlib.Tactic
import ClosurePipeline.Pass.ClosureDocs
import ClosurePipeline.Proofs.Module.Declared
import ClosurePipeline.Proofs.Pass.Annotated
import ClosurePipeline.Proofs.Pass.Tags
import ClosurePipeline.Proofs.Token.Commented
import ClosurePipeline.Proofs.Token.Tiling

namespace ClosurePipeline.Pass.ClosureDocs

open Lexer

/-! ## Texts of comments -/

/-- without a slash nothing is closed -/
theorem not_closing_append {body added : List Char} (h : ¬ ['*', '/'] <:+: body) (hadded : '/' ∉ added) :
    ¬ ['*', '/'] <:+: body ++ added := by
  rw [List.infix_append_iff]
  rintro (hbody | hin | ⟨front, back, hclosing, hfront, hback⟩)
  · exact h hbody
  · exact hadded (hin.subset (by simp))
  · rcases List.eq_nil_or_concat back with rfl | ⟨back, c, rfl⟩
    · rw [List.append_nil] at hclosing
      exact h (hclosing ▸ hfront.isInfix)
    · have hlast := congrArg List.getLast? hclosing
      rw [List.concat_eq_append, ← List.append_assoc, List.getLast?_concat] at hlast
      cases hlast
      exact hadded (hback.subset (by simp))

/-- the characters in front of the closing of a doc comment and behind its opening -/
theorem isDocComment_iff {comment : List Char} :
    IsDocComment comment ↔ ∃ body, ¬ ['*', '/'] <:+: '*' :: body ∧
      comment = '/' :: '*' :: '*' :: (body ++ ['*', '/']) := by
  constructor
  · rintro ⟨hdoc, body, hclosed, rfl⟩
    cases body with
    | nil => exact absurd hdoc (by decide)
    | cons c body =>
      obtain ⟨rest, hrest⟩ : ['/', '*', '*'] <+: blockComment (c :: body) :=
        List.isPrefixOf_iff_prefix.1 (Bool.and_eq_true_iff.1 hdoc).1
      obtain rfl : '*' = c := by
        simp only [blockComment, List.cons_append, List.cons.injEq] at hrest
        exact hrest.2.2.1
      exact ⟨body, hclosed, rfl⟩
  · rintro ⟨body, hclosed, rfl⟩
    have hlong : 4 < Text.byteLength ('/' :: '*' :: '*' :: (body ++ ['*', '/'])) := by
      have hslash : '/'.utf8Size = 1 := by decide
      have hstar : '*'.utf8Size = 1 := by decide
      simp only [Text.byteLength_cons, Text.byteLength_append, Text.byteLength_nil, hslash, hstar]
      omega
    have hopening : ['/', '*', '*'].isPrefixOf ('/' :: '*' :: '*' :: (body ++ ['*', '/'])) = true :=
      List.isPrefixOf_iff_prefix.2 ⟨_, rfl⟩
    refine ⟨?_, '*' :: body, hclosed, rfl⟩
    rw [isDocText, hopening, decide_eq_true hlong]
    rfl

/-- a doc comment with more in front of its closing is one -/
theorem isDocComment_append {body added : List Char} (h : ¬ ['*', '/'] <:+: '*' :: body) (hadded : '/' ∉ added) :
    IsDocComment ('/' :: '*' :: '*' :: (body ++ (added ++ ['*', '/']))) :=
  isDocComment_iff.2 ⟨body ++ added, not_closing_append h hadded, by rw [List.append_assoc]⟩

theorem exists_gap {cs : List Char} (h : ∀ c ∈ cs, isBlank c = true) : ∃ gap, gapChars gap = cs := by
  induction cs with
  | nil => exact ⟨[], rfl⟩
  | cons c cs ih =>
    obtain ⟨gap, hgap⟩ := ih fun d hd => h d (List.mem_cons_of_mem _ hd)
    exact ⟨.blank c (isBlank_iff.1 (h c List.mem_cons_self)) :: gap,
      by rw [gapChars, List.flatMap_cons, ← gapChars, hgap]; rfl⟩

theorem isBlank_of_mem_indentation {source : List Char} {offset : Nat} :
    ∀ c ∈ EditScript.indentation source offset, isBlank c = true := by
  intro c hc
  have hspace := List.mem_takeWhile_imp hc
  simp only [Bool.or_eq_true, decide_eq_true_eq] at hspace
  rcases hspace with rfl | rfl <;> decide

/-- tags without a slash -/
def Plain (tags : List Tag) : Prop := ∀ t ∈ tags, '/' ∉ t.text.toList

theorem slash_notMem_of_blank {cs : List Char} (h : ∀ c ∈ cs, isBlank c = true) :
    '/' ∉ cs := fun hslash => absurd (h _ hslash) (by decide)

/-- what is put in front of a declaration is a doc comment with its tags, and a gap behind it -/
theorem exists_newComment {indent : List Char} (hindent : ∀ c ∈ indent, isBlank c = true) {tags : List Tag}
    (htags : Plain tags) :
    ∃ comment gap, IsDocComment comment ∧ (∀ t ∈ tags, t.name ∈ DocComment.tagsOf comment) ∧
      (newComment (String.ofList indent) tags).toList = comment ++ gapChars gap := by
  have hslash := slash_notMem_of_blank hindent
  have hstar : ¬ ['*', '/'] <:+: ['*'] := by decide
  obtain ⟨gap, hgap⟩ : ∃ gap, gapChars gap = '\n' :: indent := exists_gap (List.forall_mem_cons.2 ⟨by decide, hindent⟩)
  have hnew : ∀ {text : List Char} (added : List Char), '/' ∉ added →
      (∀ t ∈ tags, t.name ∈ DocComment.tagsOf ('/' :: '*' :: '*' :: ([] ++ (added ++ ['*', '/'])))) →
      text = ('/' :: '*' :: '*' :: ([] ++ (added ++ ['*', '/']))) ++ '\n' :: indent →
      ∃ comment gap, IsDocComment comment ∧ (∀ t ∈ tags, t.name ∈ DocComment.tagsOf comment) ∧
        text = comment ++ gapChars gap :=
    fun added hadded hnames htext => ⟨_, gap, isDocComment_append hstar hadded, hnames, by rw [hgap, htext]⟩
  unfold newComment
  split
  · rename_i tag
    have htag := htags tag List.mem_cons_self
    refine hnew (' ' :: (tag.text.toList ++ [' '])) (by simp [htag]) (fun t ht => ?_) (by simp [String.toList_append])
    have hfound := name_mem_tagsOf_append (a := ' ') (b := ' ') (by decide) (by decide) tag ['/', '*', '*'] ['*', '/']
    rw [List.mem_singleton.1 ht]
    simpa using hfound
  · refine hnew ('\n' :: ((String.join (tags.map fun t => String.ofList indent ++ " * " ++ t.text ++ "\n")).toList ++
      (indent ++ [' ']))) ?_ (fun t ht => ?_) (by simp [String.toList_append])
    · simpa [hslash, Plain] using htags
    · have hfound := name_mem_tagsOf_lines ht ['/', '*', '*', '\n'] (indent ++ [' ', '*']) (indent ++ [' ', '*', '/'])
      simpa [linesOf, List.flatMap_map] using hfound

/-! ## A comment with more tags -/

/-- what stands in a doc comment up to blanks and the like goes beyond its opening -/
theorem exists_front {body front back : List Char} (h : '/' :: '*' :: '*' :: body = front ++ back)
    (hback : '*' ∉ back) :
    ∃ more, front = '/' :: '*' :: '*' :: more ∧ body = more ++ back := by
  match front with
  | [] => exact absurd (by rw [List.nil_append] at h; simp [← h]) hback
  | [a] =>
    simp only [List.cons_append, List.nil_append, List.cons.injEq] at h
    exact absurd (by simp [← h.2]) hback
  | [a, b] =>
    simp only [List.cons_append, List.nil_append, List.cons.injEq] at h
    exact absurd (by simp [← h.2.2]) hback
  | a :: b :: c :: more =>
    simp only [List.cons_append, List.cons.injEq] at h
    obtain ⟨rfl, rfl, rfl, hbody⟩ := h
    exact ⟨more, rfl, hbody⟩

/-- what stands in a doc comment in front of a part without stars can be closed again, with more in front
of the closing -/
theorem isDocComment_of_front {body front back added : List Char} (hclosed : ¬ ['*', '/'] <:+: '*' :: body)
    (h : '/' :: '*' :: '*' :: body = front ++ back) (hback : '*' ∉ back) (hadded : '/' ∉ added) :
    IsDocComment (front ++ (added ++ ['*', '/'])) := by
  obtain ⟨more, rfl, rfl⟩ := exists_front h hback
  exact isDocComment_append (fun hin => hclosed (hin.trans (List.prefix_append ('*' :: more) back).isInfix)) hadded

theorem notMem_of_isAllBlank {cs : List Char} (h : Text.isAllBlank cs = true) : '*' ∉ cs ∧ '/' ∉ cs := by
  rw [Text.isAllBlank, List.all_eq_true] at h
  exact ⟨fun hstar => absurd (h _ hstar) (by decide), fun hslash => absurd (h _ hslash) (by decide)⟩

/-- a comment with tags added: it has the tags it had, and these -/
structure Adds (tags : List Tag) (old new : List Char) : Prop where
  kept : DocComment.tagsOf old ⊆ DocComment.tagsOf new
  added : ∀ t ∈ tags, t.name ∈ DocComment.tagsOf new

theorem isSeparator_of_isAllBlank {cs : List Char} (h : Text.isAllBlank cs = true) :
    ∀ c ∈ cs, DocComment.isSeparator c = true := by
  rw [Text.isAllBlank, List.all_eq_true] at h
  exact fun c hc => by rw [DocComment.isSeparator, h c hc]; rfl

/-- blanks in front of the closing of a comment are no tags -/
theorem tagsOf_append_closing {blanks : List Char} (h : Text.isAllBlank blanks = true) (front : List Char) :
    DocComment.tagsOf (front ++ (blanks ++ ['*', '/'])) = DocComment.tagsOf front := by
  refine DocComment.tagsOf_append_of_separators (fun c hc => ?_) front
  rcases List.mem_append.1 hc with hc | hc
  · exact isSeparator_of_isAllBlank h c hc
  · rcases List.mem_pair.1 hc with rfl | rfl <;> decide

/-- lines of tags above the last line of a comment, which has nothing but the closing -/
theorem adds_above {front lastLine : List Char} (hlast : Text.isAllBlank lastLine = true) (tags : List Tag) :
    Adds tags (front ++ '\n' :: (lastLine ++ ['*', '/']))
      (front ++ '\n' :: (linesOf (lastLine ++ ['*']) tags ++ (lastLine ++ ['*', '/']))) where
  kept := by
    have hcut := DocComment.tagsOf_append_cons (c := '\n') (by decide) front
    have hnone := tagsOf_append_closing hlast []
    rw [List.nil_append] at hnone
    rw [hcut, hcut, hnone]
    exact List.append_subset.2 ⟨List.subset_append_left _ _, List.nil_subset _⟩
  added := by
    intro t ht
    have hfound := name_mem_tagsOf_lines ht (front ++ ['\n']) (lastLine ++ ['*']) (lastLine ++ ['*', '/'])
    simpa using hfound

/-- lines of tags behind the last character of a comment that is no blank -/
theorem adds_behind {front blanks : List Char} (hblanks : Text.isAllBlank blanks = true) (lead back : List Char)
    (tags : List Tag) :
    Adds tags (front ++ (blanks ++ ['*', '/']))
      (front ++ ((tags.flatMap fun t => '\n' :: (lead ++ ' ' :: t.text.toList)) ++ '\n' :: back)) where
  kept := by
    rw [tagsOf_append_closing hblanks, break_linesOf]
    exact DocComment.tagsOf_subset_append_cons (by decide) _ _
  added := by
    intro t ht
    have hfound := name_mem_tagsOf_lines ht (front ++ ['\n']) lead back
    rw [break_linesOf]
    simpa using hfound

theorem slash_notMem_linesOf {lead : List Char} (hlead : '/' ∉ lead) {tags : List Tag} (htags : Plain tags) :
    '/' ∉ linesOf lead tags := by
  simpa [linesOf, hlead, Plain] using htags

/-- a doc comment with lines of tags above its last line is one -/
theorem isDocComment_above {body front lastLine : List Char} (hclosed : ¬ ['*', '/'] <:+: '*' :: body)
    (h : '/' :: '*' :: '*' :: body = front ++ '\n' :: lastLine) (hlast : Text.isAllBlank lastLine = true)
    {tags : List Tag} (htags : Plain tags) :
    IsDocComment (front ++ '\n' :: (linesOf (lastLine ++ ['*']) tags ++ (lastLine ++ ['*', '/']))) := by
  obtain ⟨hstar, hslash⟩ := notMem_of_isAllBlank hlast
  have hlines : '/' ∉ linesOf (lastLine ++ ['*']) tags := slash_notMem_linesOf (by simp [hslash]) htags
  have hfront : '/' :: '*' :: '*' :: body = (front ++ ['\n']) ++ lastLine := by rw [h, List.append_assoc]; rfl
  have hdoc := isDocComment_of_front hclosed hfront hstar (List.mem_append.not.2 (not_or.2 ⟨hlines, hslash⟩))
  simpa only [List.append_assoc, List.cons_append, List.nil_append] using hdoc

/-- a doc comment with lines of tags in place of the blanks at its end is one -/
theorem isDocComment_behind {body front blanks lead back : List Char} (hclosed : ¬ ['*', '/'] <:+: '*' :: body)
    (h : '/' :: '*' :: '*' :: body = front ++ blanks) (hblanks : Text.isAllBlank blanks = true) (hlead : '/' ∉ lead)
    (hback : '/' ∉ back) {tags : List Tag} (htags : Plain tags) :
    IsDocComment
      (front ++ ((tags.flatMap fun t => '\n' :: (lead ++ ' ' :: t.text.toList)) ++ '\n' :: (back ++ ['*', '/']))) := by
  have hlines : '/' ∉ '\n' :: (linesOf lead tags ++ back) := by simp [slash_notMem_linesOf hlead htags, hback]
  have hdoc := isDocComment_of_front hclosed h (notMem_of_isAllBlank hblanks).1 hlines
  rw [break_linesOf]
  simpa only [List.append_assoc, List.cons_append] using hdoc

/-- a text with line breaks up to its last line ends with one -/
theorem exists_break {cs : List Char} (h : '\n' ∈ cs) :
    ∃ front, (cs.reverse.dropWhile (· ≠ '\n')).reverse = front ++ ['\n'] := by
  cases hdrop : cs.reverse.dropWhile (· ≠ '\n') with
  | nil =>
    have hnone := List.dropWhile_eq_nil_iff.1 hdrop '\n' (List.mem_reverse.2 h)
    simp at hnone
  | cons c ds =>
    have hc : decide (c ≠ '\n') = false := head?_dropWhile c (by rw [hdrop]; rfl)
    obtain rfl : c = '\n' := by simpa using hc
    exact ⟨ds.reverse, List.reverse_cons⟩

/-- **A doc comment with tags added is one,** with a part of it replaced, and has the tags it had and those added. -/
theorem extendComment_adds {source before comment behind : List Char} (hsource : source = before ++ (comment ++ behind))
    (hcomment : IsDocComment comment) {doc : DocComment}
    (hspan : doc.span = ⟨Text.byteLength before, Text.byteLength before + Text.byteLength comment⟩) {tags : List Tag}
    (htags : Plain tags) :
    ∃ front old new back, comment = front ++ (old ++ back) ∧ IsDocComment (front ++ (new ++ back)) ∧
      Adds tags comment (front ++ (new ++ back)) ∧ extendComment source doc tags =
        ⟨Text.byteLength before + Text.byteLength front,
          Text.byteLength before + Text.byteLength (front ++ old), new⟩ := by
  obtain ⟨body, hclosed, rfl⟩ := isDocComment_iff.1 hcomment
  obtain ⟨inside, hinside⟩ : ∃ inside, inside = '/' :: '*' :: '*' :: body := ⟨_, rfl⟩
  have hcomment : '/' :: '*' :: '*' :: (body ++ ['*', '/']) = inside ++ ['*', '/'] := by rw [hinside]; rfl
  rw [hcomment] at hsource hspan ⊢
  have hclosing : Text.byteLength ['*', '/'] = 2 := by decide
  have hclose : doc.span.stop - 2 = Text.byteLength before + Text.byteLength inside := by
    simp only [hspan, Text.byteLength_append, hclosing]
    omega
  have hslice : Text.slice source (Text.byteLength before) (Text.byteLength before + Text.byteLength inside) =
      inside := by
    have hsplit : source = before ++ inside ++ (['*', '/'] ++ behind) := by simp [hsource]
    rw [hsplit]
    exact Text.slice_append _ _ _
  unfold extendComment
  simp only [hclose]
  simp only [hspan, hslice]
  split_ifs with hblank
  · -- the tags go in front of the last line
    obtain ⟨hbreak, hlast⟩ := Bool.and_eq_true_iff.1 hblank
    obtain ⟨above, habove⟩ := exists_break (List.contains_iff_mem.1 hbreak)
    have hsplit := reverse_dropWhile_append (· ≠ '\n') inside
    rw [habove] at hsplit
    generalize (inside.reverse.takeWhile (· ≠ '\n')).reverse = lastLine at hlast hsplit ⊢
    have hlines : (String.join (tags.map fun t => String.ofList lastLine ++ "* " ++ t.text ++ "\n")).toList =
        linesOf (lastLine ++ ['*']) tags := by
      simp [linesOf, List.flatMap_map]
    have hlast' : inside = above ++ '\n' :: lastLine := by rw [← hsplit, List.append_assoc]; rfl
    have hdoc := isDocComment_above hclosed (hinside.symm.trans hlast') hlast htags
    have hadds := @adds_above above lastLine hlast tags
    rw [hlines]
    refine ⟨above ++ ['\n'], [], linesOf (lastLine ++ ['*']) tags, lastLine ++ ['*', '/'], by simp [hlast'],
      by simpa using hdoc, by simpa [hlast'] using hadds, ?_⟩
    rw [Edit.insert, List.append_nil, ← hsplit, Text.byteLength_append, ← Nat.add_assoc, Nat.add_sub_cancel]
  · -- the tags go behind the last character that is no blank
    have hsplit := reverse_dropWhile_append Text.isBlank inside
    have hblanks : Text.isAllBlank (inside.reverse.takeWhile Text.isBlank).reverse = true := by
      rw [Text.isAllBlank, List.all_eq_true]
      exact fun c hc => List.mem_takeWhile_imp (List.mem_reverse.1 hc)
    generalize (inside.reverse.takeWhile Text.isBlank).reverse = blanks at hsplit hblanks
    change Text.trimEnd inside ++ blanks = inside at hsplit
    generalize hindent : EditScript.indentation source (Text.byteLength before) = indent
    have hslash : '/' ∉ indent := slash_notMem_of_blank (hindent ▸ isBlank_of_mem_indentation)
    have hdoc := @isDocComment_behind body _ blanks (indent ++ [' ', '*']) (indent ++ [' ']) hclosed
      (hinside.symm.trans hsplit.symm) hblanks (by simp [hslash]) (by simp [hslash]) tags htags
    have hadds :=
      @adds_behind (Text.trimEnd inside) blanks hblanks (indent ++ [' ', '*']) (indent ++ [' '] ++ ['*', '/']) tags
    rw [← List.append_assoc, hsplit] at hadds
    refine ⟨Text.trimEnd inside, blanks ++ ['*', '/'],
      (tags.flatMap fun t => '\n' :: (indent ++ [' ', '*'] ++ ' ' :: t.text.toList)) ++
      '\n' :: (indent ++ [' '] ++ ['*', '/']), [], ?_, by rwa [List.append_nil], by rwa [List.append_nil], ?_⟩
    · rw [List.append_nil, ← List.append_assoc, hsplit]
    · rw [← List.append_assoc, hsplit]
      simp [List.flatMap_map]

theorem extendComment_changes {source before comment behind : List Char}
    (hsource : source = before ++ (comment ++ behind)) (hcomment : IsDocComment comment) {doc : DocComment}
    (hspan : doc.span = ⟨Text.byteLength before, Text.byteLength before + Text.byteLength comment⟩) {tags : List Tag}
    (htags : Plain tags) :
    ∃ front old new back, comment = front ++ (old ++ back) ∧ IsDocComment (front ++ (new ++ back)) ∧
      extendComment source doc tags =
        ⟨Text.byteLength before + Text.byteLength front,
          Text.byteLength before + Text.byteLength (front ++ old), new⟩ := by
  obtain ⟨front, old, new, back, hold, hnew, -, hedit⟩ := extendComment_adds hsource hcomment hspan htags
  exact ⟨front, old, new, back, hold, hnew, hedit⟩

/-! ## The edits of declarations -/

/-- an edit that gives tags to the declaration at a place: a statement may start there with a word or an at sign -/
structure Gives (source : List Char) (tags : List Tag) (e : Edit) (p : Option Token × Token) : Prop where
  starts : ModuleSummary.startsStatement p.1 p.2 = true
  opens : p.2.OpensDeclaration
  plain : Plain tags
  edit : ∃ d, d.start = p.2.start ∧ d.doc = p.1.bind Declaration.docOf? ∧ e = annotate source d tags

/-- an edit that gives any tags -/
def Annotates (source : List Char) (e : Edit) (p : Option Token × Token) : Prop := ∃ tags, Gives source tags e p

theorem Gives.docOf?_eq_none {source : List Char} {tags : List Tag} {e : Edit} {p : Option Token × Token}
    (h : Gives source tags e p) :
    Declaration.docOf? p.2 = none := by
  unfold Declaration.docOf?
  rcases h.opens with ⟨word, -, hkind⟩ | hkind <;> rw [hkind]

theorem plain_tagsFor (cx : Context) (file : Path) {d : Declaration}
    (h : ∀ name ∈ d.heritage.extended ++ d.heritage.implemented, '/' ∉ name.toList) :
    Plain (tagsFor cx file d) := by
  have hextending : ∀ name ∈ d.heritage.extended, '/' ∉ (Tag.extending name).text.toList := by
    intro name hname
    simpa [Tag.text] using h name (List.mem_append_left _ hname)
  have himplementing : ∀ name ∈ d.heritage.implemented, '/' ∉ (Tag.implementing name).text.toList := by
    intro name hname
    simpa [Tag.text] using h name (List.mem_append_right _ hname)
  have hclass : Plain (classTags cx file d) := by
    intro t ht
    rcases List.mem_append.1 ht with ht | ht
    · obtain ⟨name, hname, rfl⟩ := List.mem_map.1 ht
      exact hextending name (List.mem_of_mem_take (List.mem_of_mem_filter hname))
    · obtain ⟨name, hname, rfl⟩ := List.mem_map.1 ht
      exact himplementing name (List.mem_of_mem_filter hname)
  have hinterface : Plain (interfaceTags cx file d) := by
    intro t ht
    rcases List.mem_cons.1 ht with rfl | ht
    · decide
    · obtain ⟨name, hname, rfl⟩ := List.mem_map.1 ht
      exact hextending name (List.mem_of_mem_filter hname)
  intro t ht
  rcases List.mem_append.1 (List.mem_of_mem_filter ht) with ht | ht
  · split at ht
    · exact hclass t ht
    · exact hinterface t ht
    · rw [List.mem_singleton.1 ht]
      decide
    · cases ht
  · split_ifs at ht
    · rw [List.mem_singleton.1 ht]
      decide
    · cases ht

/-- the tags that the pass gives to a declaration -/
def given (cx : Context) (unit : SourceUnit) (d : Declaration) : List Tag :=
  if isAmbient unit d then [] else tagsFor cx unit.path d

/-- a declaration without a shim has no edit but the one that gives it its tags -/
theorem editsFor_of_no_shim (cx : Context) {unit : SourceUnit} {d : Declaration}
    (hshim : d.kind = .interfaceDecl → isAmbient unit d = false → d.body = none) :
    editsFor cx unit d = if (given cx unit d).isEmpty then [] else [annotate unit.text.toList d (given cx unit d)] := by
  unfold editsFor given
  by_cases hambient : isAmbient unit d = true
  · rw [if_pos hambient, if_pos hambient]
    rfl
  · rw [if_neg hambient, if_neg hambient]
    cases hkind : d.kind with
    | interfaceDecl =>
      rw [hshim hkind (by simpa using hambient)]
      exact List.append_nil _
    | _ => exact List.append_nil _

theorem gives_annotate (cx : Context) (unit : SourceUnit) {d : Declaration} {p : Option Token × Token}
    (h : DeclaredAt d p) :
    Gives unit.text.toList (given cx unit d) (annotate unit.text.toList d (given cx unit d)) p := by
  have hplain : Plain (given cx unit d) := by
    unfold given
    split_ifs
    · exact fun _ hnone => absurd hnone List.not_mem_nil
    · exact plain_tagsFor cx unit.path h.heritage
  exact ⟨h.starts, h.opens, hplain, d, h.start, h.doc, rfl⟩

/-- **The edits of declarations without shims** are edits of comments, at the places of the declarations. -/
theorem annotates_declarations (cx : Context) {unit : SourceUnit} {ds : List Declaration}
    {ps : List (Option Token × Token)} (h : List.SublistForall₂ DeclaredAt ds ps)
    (hshim : ∀ d ∈ ds, d.kind = .interfaceDecl → isAmbient unit d = false → d.body = none) :
    List.SublistForall₂ (Annotates unit.text.toList) (ds.flatMap (editsFor cx unit)) ps := by
  induction h with
  | nil => exact .nil
  | cons hd h ih =>
    obtain ⟨hfirst, hrest⟩ := List.forall_mem_cons.1 hshim
    rw [List.flatMap_cons, editsFor_of_no_shim cx hfirst]
    split_ifs
    · exact .cons_right (ih hrest)
    · exact .cons ⟨_, gives_annotate cx unit hd⟩ (ih hrest)
  | cons_right h ih => exact .cons_right (ih hshim)

/-! ## The text under these edits -/

/-- the comment of a token, its text in front of more text -/
theorem isDocComment_of_docOf? {text rest : List Char} {t : Token} (hspelled : Spelled text rest t.kind)
    (hrest : rest ≠ []) {doc : DocComment} (hdoc : Declaration.docOf? t = some doc) :
    IsDocComment text ∧ t.kind = .doc (String.ofList text) ∧ doc.span = ⟨t.start, t.stop⟩ := by
  unfold Declaration.docOf? at hdoc
  split at hdoc
  · rename_i comment hkind
    cases hdoc
    rw [hkind] at hspelled
    obtain ⟨htext, hblock, hisDoc⟩ := hspelled
    refine ⟨⟨hisDoc, ?_⟩, by rw [hkind, ← htext, String.ofList_toList], rfl⟩
    cases hblock with
    | closed body rest hclosed => exact ⟨body, hclosed, rfl⟩
    | unclosed body hopen => exact absurd rfl hrest
  · cases hdoc

/-- edits at places of a text, in their order; where there is none, nothing is needed -/
inductive Marks (source : List Char) (need : Nat → Option (List String)) :
    List Edit → List (Option Token × Token) → Prop where
  | nil : Marks source need [] []
  | mark {tags : List Tag} {e : Edit} {es : List Edit} {p : Option Token × Token} {ps : List (Option Token × Token)}
      (h : Gives source tags e p) (hsome : need p.2.start ≠ none) (hneed : (need p.2.start).getD [] ⊆ tags.map Tag.name)
      (rest : Marks source need es ps) :
      Marks source need (e :: es) (p :: ps)
  | skip {es : List Edit} {p : Option Token × Token} {ps : List (Option Token × Token)}
      (hnone : (need p.2.start).getD [] = []) (rest : Marks source need es ps) : Marks source need es (p :: ps)

theorem marks_nil (source : List Char) {need : Nat → Option (List String)} {ps : List (Option Token × Token)}
    (h : ∀ p ∈ ps, (need p.2.start).getD [] = []) : Marks source need [] ps := by
  induction ps with
  | nil => exact .nil
  | cons p ps ih =>
    obtain ⟨hfirst, hrest⟩ := List.forall_mem_cons.1 h
    exact .skip hfirst (ih hrest)

theorem marks_of_annotates {source : List Char} {es : List Edit} {ps : List (Option Token × Token)}
    (h : List.SublistForall₂ (Annotates source) es ps) : Marks source (fun _ => some []) es ps := by
  induction h with
  | nil => exact marks_nil source fun _ _ => rfl
  | cons he h ih =>
    obtain ⟨tags, he⟩ := he
    exact .mark he (by simp) (List.nil_subset _) ih
  | cons_right h ih => exact .skip rfl ih

/-- the edits behind a token `prev?`: first one that changes the comment it is, if it is one, and then edits of the text
behind it -/
structure Split (source : List Char) (prev? : Option Token) (es now later : List Edit) : Prop where
  split : es = now ++ later
  now : now = [] ∨ ∃ doc tags, prev?.bind Declaration.docOf? = some doc ∧ Plain tags ∧
      now = [extendComment source doc tags]

theorem Split.now_eq_nil {source : List Char} {prev? : Option Token} {es now later : List Edit}
    (h : Split source prev? es now later) (hnone : prev?.bind Declaration.docOf? = none) : now = [] := by
  rcases h.now with hnow | ⟨doc, tags, hdoc, -, -⟩
  · exact hnow
  · rw [hnone] at hdoc
    cases hdoc

/-- the edits behind a token, and the tags they give to the comment it is -/
structure Pending (source : List Char) (prev? : Option Token) (es now later : List Edit) (owed : List String) :
    Prop where
  split : es = now ++ later
  now : now = [] ∧ owed = [] ∨ ∃ doc tags, prev?.bind Declaration.docOf? = some doc ∧ Plain tags ∧
      now = [extendComment source doc tags] ∧
    owed = tags.map Tag.name

namespace Pending

variable {source : List Char} {prev? : Option Token} {es now later : List Edit} {owed : List String}

theorem nothing (source : List Char) (prev? : Option Token) (es : List Edit) :
    Pending source prev? es [] es [] := ⟨rfl, Or.inl ⟨rfl, rfl⟩⟩

theorem toSplit (h : Pending source prev? es now later owed) : Split source prev? es now later :=
  ⟨h.split, h.now.imp And.left fun ⟨doc, tags, hdoc, htags, hnow, _⟩ => ⟨doc, tags, hdoc, htags, hnow⟩⟩

/-- behind a token that is no comment all edits are edits of the text behind it -/
theorem of_docOf?_eq_none (h : Pending source prev? es now later owed) (hnone : prev?.bind Declaration.docOf? = none) :
    es = later ∧ owed = [] := by
  rcases h.now with ⟨rfl, howed⟩ | ⟨doc, tags, hdoc, -⟩
  · exact ⟨h.split, howed⟩
  · rw [hnone] at hdoc
    cases hdoc

/-- the edits behind a token are edits of a text with that token in front -/
theorem annotated {need : Nat → Option (List String)} {before : List Char} {c : Char} {cs rest rest' : List Char}
    {n line : Nat} {kind : TokenKind} {owed₀ : List String} (hsource : source = before ++ (c :: cs ++ rest))
    (hlex : lexeme (prev?.map Token.kind) c (cs ++ rest) = ⟨cs.length, n, some kind⟩)
    (h : Pending source (some ⟨kind, Text.byteLength before, Text.byteLength before + Text.byteLength (c :: cs), line⟩)
      es now later owed)
    (hne : now ≠ [] → rest ≠ []) (hneed : (need (Text.byteLength before)).getD [] ⊆ owed₀)
    (hrest : Annotated need (some ⟨kind, Text.byteLength before, Text.byteLength before + Text.byteLength (c :: cs),
      line⟩) owed (Text.byteLength before + Text.byteLength (c :: cs)) (line + n) rest later rest') :
    ∃ text', Annotated need prev? owed₀ (Text.byteLength before) line (c :: (cs ++ rest)) es text' := by
  rw [h.split]
  rcases h.now with ⟨rfl, rfl⟩ | ⟨doc, tags, hdoc, htags, rfl, rfl⟩
  · exact ⟨_, .keep hlex hneed hrest⟩
  · have hspelled : Spelled (c :: cs) rest kind := stands_of_lexeme hlex
    obtain ⟨hcomment, hkind, hspan⟩ := isDocComment_of_docOf? hspelled (hne (by simp)) hdoc
    obtain ⟨front, old, new, back, hold, hnew, hadds, hedit⟩ := extendComment_adds hsource hcomment hspan htags
    obtain rfl : kind = .doc (String.ofList (c :: cs)) := hkind
    have howed : tags.map Tag.name ⊆ DocComment.tagsOf (front ++ (new ++ back)) := by
      intro name hname
      obtain ⟨t, ht, rfl⟩ := List.mem_map.1 hname
      exact hadds.added t ht
    rw [hedit]
    exact ⟨_, .change hold hcomment hnew hadds.kept howed hlex hrest⟩

end Pending

/-- an edit at the first token of a text changes the comment in front of it, or puts one there -/
theorem Gives.annotated {source before : List Char} {need : Nat → Option (List String)} {prev? : Option Token}
    {c : Char} {cs rest rest' : List Char} {n line : Nat} {kind : TokenKind} {tags : List Tag} {e : Edit}
    {es : List Edit}
    (h : Gives source tags e
      (prev?, ⟨kind, Text.byteLength before, Text.byteLength before + Text.byteLength (c :: cs), line⟩))
    (hsome : need (Text.byteLength before) ≠ none) (hneed : (need (Text.byteLength before)).getD [] ⊆ tags.map Tag.name)
    (hlex : lexeme (prev?.map Token.kind) c (cs ++ rest) = ⟨cs.length, n, some kind⟩)
    (hrest : Annotated need (some ⟨kind, Text.byteLength before, Text.byteLength before + Text.byteLength (c :: cs),
      line⟩) [] (Text.byteLength before + Text.byteLength (c :: cs)) (line + n) rest es rest') :
    ∃ now later owed text', Pending source prev? (e :: es) now later owed ∧
      Annotated need prev? owed (Text.byteLength before) line (c :: (cs ++ rest)) later text' := by
  obtain ⟨d, hstart, hdoc, rfl⟩ := h.edit
  have hstart : d.start = Text.byteLength before := hstart
  have hdoc : d.doc = prev?.bind Declaration.docOf? := hdoc
  unfold annotate
  split
  · rename_i hnone
    obtain ⟨comment, gap, hcomment, htags, hnew⟩ :=
      exists_newComment (@isBlank_of_mem_indentation source (Text.byteLength before)) h.plain
    have hgiven : (need (Text.byteLength before)).getD [] ⊆ DocComment.tagsOf comment := by
      intro name hname
      obtain ⟨t, ht, rfl⟩ := List.mem_map.1 (hneed hname)
      exact htags t ht
    rw [hstart, hnew]
    exact ⟨[], _, [], _, .nothing _ _ _,
      .insert hcomment hsome hgiven (hdoc.symm.trans hnone) h.starts h.opens hlex hrest⟩
  · rename_i doc hsome
    rw [hsome] at hdoc
    exact ⟨[_], es, _, _, ⟨rfl, Or.inr ⟨doc, tags, hdoc.symm, h.plain, rfl, rfl⟩⟩, .keep hlex hneed hrest⟩

/-- **Edits at the places of a text's tokens give tags.** The comment of the first token may stand in front
of the text. -/
theorem exists_annotated {source : List Char} {need : Nat → Option (List String)} (prev : Option TokenKind)
    (text : List Char) :
    ∀ (before : List Char) (prev? : Option Token) (line : Nat) (es : List Edit), prev?.map Token.kind = prev →
      source = before ++ text →
    Marks source need es (places prev? (tokensFrom prev (Text.byteLength before) line text)) →
    ∃ now later owed text', Pending source prev? es now later owed ∧ (now ≠ [] → text ≠ []) ∧
      Annotated need prev? owed (Text.byteLength before) line text later text' := by
  induction prev, text using lexemes_induction with
  | nil prev =>
    intro before prev? line es hprev hsource h
    rw [tokensFrom, places] at h
    cases h
    exact ⟨[], [], [], [], .nothing _ _ _, by simp, .nil _ _ _ _⟩
  | cons prev c cs rest n kind hlex ih =>
    intro before prev? line es hprev hsource h
    have hbefore : source = before ++ (c :: cs) ++ rest := by simp [hsource]
    have hoffset : Text.byteLength (before ++ (c :: cs)) = Text.byteLength before + Text.byteLength (c :: cs) :=
      Text.byteLength_append _ _
    subst hprev
    cases kind with
    | none =>
      rw [tokensFrom_of_none cs rest hlex, ← hoffset] at h
      obtain ⟨now, later, owed, rest', hpending, -, hrest⟩ := ih (before ++ (c :: cs)) prev? _ es rfl hbefore h
      rw [hoffset] at hrest
      exact ⟨now, later, owed, _, hpending, by simp, .gap hlex hrest⟩
    | some kind =>
      rw [tokensFrom_of_some cs rest hlex, places] at h
      -- the edits behind the first token
      have behind := fun es => ih (before ++ (c :: cs))
        (some ⟨kind, Text.byteLength before, Text.byteLength before + Text.byteLength (c :: cs), line⟩)
        (line + n) es rfl hbefore
      rw [hoffset] at behind
      cases h with
      | skip hnone h =>
        obtain ⟨now, later, owed, rest', hpending, hne, hrest⟩ := behind es h
        have hnone : (need (Text.byteLength before)).getD [] = [] := hnone
        obtain ⟨text', htext⟩ := hpending.annotated hsource hlex hne (hnone ▸ List.nil_subset _) hrest
        exact ⟨[], es, [], text', .nothing _ _ _, by simp, htext⟩
      | @mark tags e es _ _ he hsome hneed h =>
        obtain ⟨now, later, owed, rest', hpending, -, hrest⟩ := behind es h
        -- a word or an at sign is no comment, so no edit behind it changes it
        obtain ⟨rfl, rfl⟩ := hpending.of_docOf?_eq_none he.docOf?_eq_none
        obtain ⟨now, later, owed, text', hfirst, htext⟩ := he.annotated hsome hneed hlex hrest
        exact ⟨now, later, owed, text', hfirst, by simp, htext⟩

/-- **Edits at the places of a text's tokens are edits of comments.** The comment of the first token may stand in front
of the text. -/
theorem exists_commented {source : List Char} (prev : Option TokenKind) (text : List Char) :
    ∀ (before : List Char) (prev? : Option Token) (line : Nat)
    (es : List Edit), prev?.map Token.kind = prev → source = before ++ text →
    List.SublistForall₂ (Annotates source) es (places prev? (tokensFrom prev (Text.byteLength before) line text)) →
    ∃ now later text', Split source prev? es now later ∧ (now ≠ [] → text ≠ []) ∧
      Commented prev (Text.byteLength before) text later text' := by
  intro before prev? line es hprev hsource h
  obtain ⟨now, later, owed, text', hpending, hne, hannotated⟩ :=
    exists_annotated prev text before prev? line es hprev hsource (marks_of_annotates h)
  exact ⟨now, later, text', hpending.toSplit, hne, hprev ▸ hannotated.commented⟩

/-! ## The pass -/

theorem isIdentPart_of_mem_name {cs : List Char} (h : isName cs = true) : ∀ c ∈ cs, isIdentPart c = true := by
  cases cs with
  | nil => cases h
  | cons c cs =>
    rw [isName, Bool.and_eq_true, List.all_eq_true] at h
    exact List.forall_mem_cons.2 ⟨by rw [isIdentPart, h.1, Bool.true_or], h.2⟩

/-- names of a text have no slash -/
theorem slashless_tokenize (cs : List Char) : Slashless (tokenize cs) := by
  intro t ht name hname hslash
  obtain ⟨chars, rest, -, hspelled⟩ := exists_spelled ht
  unfold Token.ident? at hname
  split at hname
  · rename_i word hkind
    cases hname
    rw [hkind] at hspelled
    obtain ⟨htext, hisName, -⟩ := hspelled
    rw [← htext] at hisName
    exact absurd (isIdentPart_of_mem_name hisName '/' hslash) (by decide)
  · cases hname

/-- **Closure doc comments change only comments.** A unit without interfaces that get a shim keeps all its tokens but
doc comments, kinds and values, in their order, whatever symbols are known and whatever the policy is. -/
theorem code_unchanged (cx : Context) (path : Path) (text : String)
    (hshim : ∀ d ∈ (SourceUnit.parse path text).summary.declarations,
      d.kind = .interfaceDecl → isAmbient (.parse path text) d = false → d.body = none) :
    codeOf (tokenize (apply cx (.parse path text)).text.toList) = codeOf (tokenize text.toList) := by
  obtain ⟨es, hes⟩ :
      ∃ es, es = (SourceUnit.parse path text).summary.declarations.flatMap (editsFor cx (.parse path text)) := ⟨_, rfl⟩
  have hannotates : List.SublistForall₂ (Annotates text.toList) es (places none (tokenize text.toList)) := by
    rw [hes]
    exact annotates_declarations cx (ModuleSummary.declared_ofTokens text.toList (slashless_tokenize _)) hshim
  obtain ⟨now, later, text', hsplit, -, hcommented⟩ := exists_commented none text.toList [] none 0 es rfl rfl hannotates
  obtain rfl := hsplit.now_eq_nil rfl
  obtain rfl : es = later := hsplit.split
  unfold apply
  simp only [← hes]
  split_ifs
  · rfl
  · have hrun : (EditScript.run text.toList es []).1 = text' := hcommented.text_run
    rw [String.toList_ofList]
    change codeOf (tokenize (EditScript.run text.toList es []).1) = _
    rw [hrun]
    exact hcommented.code_eq none 0 0 0 0 rfl

/-- a class with a comment and a function without one -/
def documentedClass : String :=
  "/** The only one. */\nexport class A \x7b\x7d\nexport function half(n) \x7b return n / 2; \x7d\n"

/-- nothing is known of any symbol, and paths stand for names under the root -/
def withoutSymbols : Context := ⟨fun _ _ => none, Policy.rules ⟨⟨"/p"⟩, none, [], []⟩⟩

/-- the pass changes the comment of the class and puts one in front of the function -/
theorem code_unchanged_documentedClass :
    (∀ d ∈ (SourceUnit.parse ⟨"/p/a.ts"⟩ documentedClass).summary.declarations,
      d.kind = .interfaceDecl → isAmbient (.parse ⟨"/p/a.ts"⟩ documentedClass) d = false → d.body = none) ∧
      codeOf (tokenize (apply withoutSymbols (.parse ⟨"/p/a.ts"⟩ documentedClass)).text.toList) =
        codeOf (tokenize documentedClass.toList) := by
  have hshim : ∀ d ∈ (SourceUnit.parse ⟨"/p/a.ts"⟩ documentedClass).summary.declarations,
      d.kind = .interfaceDecl → isAmbient (.parse ⟨"/p/a.ts"⟩ documentedClass) d = false → d.body = none := by
    decide +kernel
  exact ⟨hshim, code_unchanged withoutSymbols ⟨"/p/a.ts"⟩ documentedClass hshim⟩

end ClosurePipeline.Pass.ClosureDocs
