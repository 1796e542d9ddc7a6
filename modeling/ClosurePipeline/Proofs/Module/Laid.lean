/-
How declarations are laid out. The tokens a declaration is read from come one part behind the other, and the
declarations of a text one behind the other.

- `Cursor.Passes`: the tokens between two places; each reader is said by the tokens it passes;
- `Layout`: the tokens of a declaration: decorators, modifiers, the word that gives its kind, what stands up to its
  body, and its body;
- `Layout.Of`: what the declaration that is read from them has; `laid_read?`: every declaration that is read has a
  layout;
- `Row`: declarations in tokens, none of which starts before the body of the last one has ended; `row_ofTokens`: the
  declarations of a summary are one.
-/
import Mathlib.Tactic
import ClosurePipeline.Proofs.Module.Declared

namespace ClosurePipeline

/-! ## Tokens passed -/

namespace Cursor

/-- `passed` are the tokens between two places -/
structure Passes (c : Cursor) (passed : List Token) (c' : Cursor) : Prop where
  rest : c.rest = passed ++ c'.rest
  prev : c'.prev = passed.getLast?.or c.prev

variable {c c' c'' : Cursor}

theorem Passes.refl (c : Cursor) : c.Passes [] c := ⟨rfl, rfl⟩

theorem Passes.trans {xs ys : List Token} (h : c.Passes xs c') (h' : c'.Passes ys c'') : c.Passes (xs ++ ys) c'' :=
  ⟨by rw [h.rest, h'.rest, List.append_assoc], by rw [h'.prev, h.prev, List.getLast?_append, Option.or_assoc]⟩

theorem Passes.next {t : Token} {ts : List Token} (h : c.rest = t :: ts) : c.Passes [t] c.next := by
  obtain ⟨prev, rest⟩ := c
  cases h
  exact ⟨rfl, rfl⟩

theorem Passes.head? {passed : List Token} (h : c.Passes passed c') (hne : passed ≠ []) :
    passed.head? = c.rest.head? := by
  rw [h.rest, List.head?_append_of_ne_nil _ hne]

theorem Passes.ident?_zero {passed : List Token} (h : c.Passes passed c') {w : String}
    (hw : passed.head?.bind Token.ident? = some w) :
    c.ident? 0 = some w := by
  obtain ⟨t, ht, hw⟩ := Option.bind_eq_some_iff.1 hw
  obtain ⟨ts, rfl⟩ := List.head?_eq_some_iff.1 ht
  simpa [ident?, h.rest] using hw

theorem Onward.exists_passes (h : c.Onward c') : ∃ passed, c.Passes passed c' := by
  induction h with
  | refl => exact ⟨[], .refl c⟩
  | pass h ih =>
    obtain ⟨passed, hpassed⟩ := ih
    exact ⟨_, hpassed.trans (Passes.next rfl)⟩

/-- what is inside brackets, the closing bracket and what is behind it are all that is ahead -/
theorem closing_eq {opening closer : Char} {ts : List Token} :
    ∀ {depth : Nat} {e : Enclosed}, closing opening closer depth ts = some e →
    ts = e.inner ++ e.close :: e.after.rest ∧ e.after.prev = some e.close ∧ e.close.isPunct closer = true := by
  induction ts with
  | nil => intro depth e h; cases h
  | cons t ts ih =>
    intro depth e h
    rcases closing_cons h with ⟨-, -, hcloser, rfl⟩ | ⟨d, e', -, he', rfl⟩
    · exact ⟨rfl, rfl, hcloser⟩
    · obtain ⟨hts, hrest⟩ := ih he'
      exact ⟨congrArg (t :: ·) hts, hrest⟩

/-- brackets, and all between them, are passed -/
theorem passes_enclosed? {opening closer : Char} {e : Enclosed} (h : c.enclosed? opening closer = some e) :
    ∃ t, t.isPunct opening = true ∧ c.Passes (t :: (e.inner ++ [e.close])) e.after ∧ e.close.isPunct closer = true ∧
      closing opening closer 0 (e.inner ++ e.close :: e.after.rest) = some e := by
  obtain ⟨prev, rest⟩ := c
  cases rest with
  | nil => cases h
  | cons t ts =>
    simp only [enclosed?] at h
    split_ifs at h with hopening
    obtain ⟨hts, hprev, hclose⟩ := closing_eq h
    refine ⟨t, hopening, ⟨by simp [hts], ?_⟩, hclose, hts ▸ h⟩
    rw [hprev, ← List.cons_append, List.getLast?_concat]
    rfl

/-- the parts of a dotted name end with a word -/
theorem passes_dottedParts (prev : Option Token) (ts : List Token) :
    ∃ passed, Passes ⟨prev, ts⟩ passed (dottedParts prev ts).2 ∧
      ∀ last ∈ passed.getLast?, ∃ w, last.ident? = some w := by
  fun_induction dottedParts prev ts with
  | case1 prev dot part ts hdot s hs parts c hrec ih =>
    rw [hrec] at ih
    obtain ⟨passed, hpassed, hlast⟩ := ih
    refine ⟨dot :: part :: passed, ⟨congrArg (dot :: part :: ·) hpassed.rest, ?_⟩, fun last hmem => ?_⟩
    · rw [hpassed.prev]
      cases passed with
      | nil => rfl
      | cons t passed => rfl
    · cases passed with
      | nil =>
        cases hmem
        exact ⟨s, hs⟩
      | cons t passed => exact hlast last hmem
  | case2 => exact ⟨[], .refl _, by simp⟩
  | case3 => exact ⟨[], .refl _, by simp⟩
  | case4 => exact ⟨[], .refl _, by simp⟩

/-- a dotted name ends with a word -/
theorem passes_dottedName? {name : String} (h : c.dottedName? = some (name, c')) :
    ∃ passed last, c.Passes passed c' ∧ passed.getLast? = some last ∧ ∃ w, last.ident? = some w := by
  obtain ⟨t, ts, word, hrest, hword, -, rfl⟩ := exists_first_of_dottedName? h
  obtain ⟨passed, hpassed, hlast⟩ := passes_dottedParts (some t) ts
  rw [← next_of_rest hrest] at hpassed
  have hall := (Passes.next hrest).trans hpassed
  rcases List.eq_nil_or_concat passed with rfl | ⟨front, last, rfl⟩
  · exact ⟨_, t, hall, rfl, word, hword⟩
  · rw [List.concat_eq_append] at hall hlast
    exact ⟨_, last, hall, by rw [← List.append_assoc, List.getLast?_concat], hlast last (by simp)⟩

end Cursor

/-! ## Layouts -/

/-- the tokens of a decorator: from its at sign to the word or the parenthesis at its end -/
structure Decorator.Spells (r : Decorator) (ts : List Token) : Prop where
  first : ∃ t ∈ ts.head?, t.isPunct '@' = true ∧ r.span.start = t.start
  last : ∃ t ∈ ts.getLast?, r.span.stop = t.stop ∧ (t.isPunct ')' = true ∨ r.arguments = none ∧ ∃ w, t.ident? = some w)

/-- the tokens of decorators, one behind the other -/
inductive Decorator.Marks : List Decorator → List Token → Prop where
  | nil : Marks [] []
  | cons {r : Decorator} {rs : List Decorator} {xs ys : List Token} (h : r.Spells xs) (hs : Marks rs ys) :
    Marks (r :: rs) (xs ++ ys)

/-- a word in front of a declaration -/
def Token.IsModifier (t : Token) : Prop :=
  ∃ w ∈ ["export", "default", "declare", "abstract", "async"], t.ident? = some w

/-- the tokens of a declaration, part by part -/
structure Layout where
  /-- of the decorators -/
  marks : List Token
  /-- the modifiers -/
  words : List Token
  /-- the word that gives the kind -/
  word : Token
  /-- name, type parameters and heritage -/
  head : List Token
  /-- braces with all that is between them, if there is a body -/
  body : List Token

namespace Layout

/-- all tokens of a layout -/
def tokens (l : Layout) : List Token := l.marks ++ (l.words ++ l.word :: (l.head ++ l.body))

/-- the body comes last -/
theorem tokens_eq (marks words : List Token) (word : Token) (head body : List Token) :
    tokens ⟨marks, words, word, head, body⟩ = marks ++ (words ++ word :: head) ++ body := by
  simp [tokens]

/-- the name of a class stands behind its word -/
def Written (l : Layout) (d : Declaration) : Prop :=
  l.head.head?.bind Token.ident? = some d.name ∧ d.name ≠ "extends" ∧ d.name ≠ "implements"

/-- a default class without a name -/
def Unnamed (l : Layout) (d : Declaration) : Prop :=
  d.isDefault = true ∧ d.name = "default" ∧ ∀ w ∈ l.head.head?.bind Token.ident?, w = "extends" ∨ w = "implements"

/-- the tokens of a body, which are none if there is no body -/
def IsBody : Option Span → List Token → Prop
  | none, body => body = []
  | some span, body =>
    ∃ opening inner close, body = opening :: (inner ++ [close]) ∧ opening.isPunct '{' = true ∧
      close.isPunct '}' = true ∧ span = ⟨opening.start, close.stop⟩

/-- what a declaration has from its layout, behind the token `prev` -/
structure Of (l : Layout) (prev : Option Token) (d : Declaration) : Prop where
  start : ∃ t ∈ l.tokens.head?, d.start = t.start ∧ ModuleSummary.startsStatement prev t = true
  doc : d.doc = prev.bind Declaration.docOf?
  marks : Decorator.Marks d.decorators l.marks
  words : ∀ t ∈ l.words, t.IsModifier ∨ t.isIdent "const" = true ∧ d.kind = .enumDecl
  word : l.word.ident?.bind Declaration.kindOf? = some d.kind
  name : d.kind = .classDecl → l.Written d ∨ l.Unnamed d
  body : IsBody d.body l.body

end Layout

/-! ## What readers pass -/

section

variable {c c' : Cursor}

theorem Decorator.spells_read? {source : List Char} {r : Decorator} (hat : c.isPunct 0 '@' = true)
    (h : read? source c = some (r, c')) :
    ∃ passed, c.Passes passed c' ∧ r.Spells passed := by
  obtain ⟨first, hfirst, h⟩ := Option.bind_eq_some_iff.1 h
  obtain ⟨⟨name, after⟩, hname, h⟩ := Option.bind_eq_some_iff.1 h
  obtain ⟨ts, hrest⟩ := List.head?_eq_some_iff.1 hfirst
  have hopens : first.isPunct '@' = true := by simpa [Cursor.isPunct, hrest] using hat
  obtain ⟨passed, last, hpassed, hlast, w, hw⟩ := Cursor.passes_dottedName? hname
  have hmark := (Cursor.Passes.next hrest).trans hpassed
  simp only at h
  split_ifs at h
  · obtain ⟨opening, -, h⟩ := Option.bind_eq_some_iff.1 h
    obtain ⟨e, he, h⟩ := Option.bind_eq_some_iff.1 h
    cases h
    obtain ⟨t, -, harguments, hclose, -⟩ := Cursor.passes_enclosed? he
    refine ⟨_, hmark.trans harguments, ⟨first, by simp, hopens, rfl⟩, e.close, ?_, rfl, Or.inl hclose⟩
    rw [← List.cons_append, ← List.append_assoc, List.getLast?_concat]
    rfl
  · obtain ⟨last', hlast', h⟩ := Option.bind_eq_some_iff.1 h
    cases h
    have hend : ([first] ++ passed).getLast? = some last := by rw [List.getLast?_append, hlast, Option.some_or]
    obtain rfl : last' = last := by
      rw [hmark.prev, hend, Option.some_or] at hlast'
      exact (Option.some.inj hlast').symm
    exact ⟨_, hmark, ⟨first, by simp, hopens, rfl⟩, last', hend, rfl, Or.inr ⟨rfl, w, hw⟩⟩

theorem Decorator.marks_readAll? {source : List Char} (c : Cursor) :
    ∀ {rs : List Decorator} {c' : Cursor}, readAll? source c = some (rs, c') →
    ∃ passed, c.Passes passed c' ∧ Marks rs passed := by
  fun_induction readAll? source c with
  | case1 c hat hr => intro rs c' h; cases h
  | case2 c hat r c1 hr ih =>
    intro rs c' h
    obtain ⟨⟨rs', c2⟩, hrest, e⟩ := Option.map_eq_some_iff.1 h
    cases e
    obtain ⟨xs, hxs, hr⟩ := spells_read? hat hr
    obtain ⟨ys, hys, hrs⟩ := ih hrest
    exact ⟨xs ++ ys, hxs.trans hys, .cons hr hrs⟩
  | case3 c hat =>
    intro rs c' h
    cases h
    exact ⟨[], .refl _, .nil⟩

namespace Declaration

theorem Modifiers.add?_cases {m m' : Modifiers} (h : m.add? c = some m') :
    (∃ w ∈ ["export", "default", "declare", "abstract", "async"], c.ident? 0 = some w) ∨
      c.ident? 0 = some "const" ∧ c.isIdent 1 "enum" = true ∧ m' = m := by
  unfold Modifiers.add? at h
  split at h
  case h_6 hconst =>
    split_ifs at h with henum
    exact Or.inr ⟨hconst, henum, (Option.some.inj h).symm⟩
  case h_7 => cases h
  all_goals
    rename_i hword
    exact Or.inl ⟨_, by decide, hword⟩

/-- nothing in front of `enum` is a modifier -/
theorem Modifiers.read_enum {m : Modifiers} (h : c.ident? 0 = some "enum") : Modifiers.read m c = (m, c) := by
  have hnone : m.add? c = none := by simp [add?, h]
  rw [Modifiers.read]
  split
  · rename_i m' hm'
    rw [hnone] at hm'
    cases hm'
  · rfl

/-- modifiers are modifiers, but for a `const` in front of `enum` -/
theorem Modifiers.passes_read (m : Modifiers) (c : Cursor) : ∃ words, c.Passes words (Modifiers.read m c).2 ∧
    ∀ t ∈ words, t.IsModifier ∨ t.isIdent "const" = true ∧ (Modifiers.read m c).2.isIdent 0 "enum" = true := by
  fun_induction Modifiers.read m c with
  | case1 m c m' hm ih =>
    obtain ⟨words, hwords, hmodifiers⟩ := ih
    obtain ⟨t, ts, hrest⟩ := List.exists_cons_of_ne_nil (rest_ne_nil_of_add? hm)
    have hident : c.ident? 0 = t.ident? := by simp [Cursor.ident?, hrest]
    refine ⟨t :: words, (Cursor.Passes.next hrest).trans hwords, List.forall_mem_cons.2 ⟨?_, hmodifiers⟩⟩
    rcases add?_cases hm with ⟨w, hw, hword⟩ | ⟨hconst, henum, rfl⟩
    · exact Or.inl ⟨w, hw, hident ▸ hword⟩
    · have hnext : c.next.ident? 0 = some "enum" := by
        simpa [Cursor.isIdent, Cursor.ident?, Cursor.next, hrest] using henum
      rw [read_enum hnext]
      exact Or.inr ⟨by simp [Token.isIdent, ← hident, hconst], by simp [Cursor.isIdent, hnext]⟩
  | case2 m c hm => exact ⟨[], .refl c, by simp⟩

/-- the name of a class is written and no word of a heritage list, or it is the name of an unnamed default -/
theorem readName?_cases {kind : DeclKind} {isDefault : Bool} {name : String}
    (h : readName? kind isDefault c = some (name, c')) :
    (c.ident? 0 = some name ∧ c' = c.next ∧ (kind = .classDecl → name ≠ "extends" ∧ name ≠ "implements")) ∨
      isDefault = true ∧ name = "default" ∧ c' = c ∧ ∀ w ∈ c.ident? 0, w = "extends" ∨ w = "implements" := by
  unfold readName? at h
  simp only at h
  split at h
  · rename_i word hword
    split_ifs at h with hheritage hdefault
    · cases h
      refine Or.inr ⟨(Bool.and_eq_true_iff.1 hdefault).1, rfl, rfl, fun w hw => ?_⟩
      rw [hword] at hw
      cases hw
      simpa using (Bool.and_eq_true_iff.1 hheritage).2
    · cases h
      exact Or.inl ⟨hword, rfl, fun hkind => by simpa [hkind] using hheritage⟩
  · rename_i hnone
    split_ifs at h with hdefault
    cases h
    exact Or.inr ⟨(Bool.and_eq_true_iff.1 hdefault).1, rfl, rfl, by simp [hnone]⟩

/-- a declaration without a body, or with one that is ahead -/
theorem readBody_cases (kind : DeclKind) (c : Cursor) :
    (readBody kind c).1 = none ∨ ∃ (opening : Token) (e : Cursor.Enclosed),
    (readBody kind c).1 = some ⟨opening.start, e.close.stop⟩ ∧ c.rest.head? = some opening ∧
    c.enclosed? '{' '}' = some e := by
  unfold readBody
  dsimp only
  split
  · rename_i opening e hopening he
    split_ifs at hopening he
    exact Or.inr ⟨opening, e, rfl, hopening, he⟩
  · exact Or.inl rfl

/-- the parts of a declaration behind the word for its kind; `c'` is in front of the body -/
theorem readRest_eq {kind : DeclKind} {mods : Modifiers} {decorators : List Decorator} {start : Cursor} {first : Token}
    {d : Declaration} (h : readRest kind mods decorators start first c = some (some d, c')) :
    d.kind = kind ∧ d.isDefault = mods.isDefault ∧ d.doc = start.prev.bind docOf? ∧ d.decorators = decorators ∧
    d.start = first.start ∧
      d.body = (readBody kind c').1 ∧ ∃ passed, c.Passes passed c' ∧
        (kind = .classDecl → passed.head?.bind Token.ident? = some d.name ∧ d.name ≠ "extends" ∧ d.name ≠ "implements" ∨
          d.isDefault = true ∧ d.name = "default" ∧ ∀ w ∈ passed.head?.bind Token.ident?, w = "extends" ∨
            w = "implements") := by
  obtain ⟨star, hstar, hclass⟩ :
      ∃ star, c.Passes star (if kind == .functionDecl && c.isPunct 0 '*' then c.next else c) ∧
      (kind = .classDecl → star = []) := by
    split_ifs with hfunction
    · obtain ⟨hkind, hpunct⟩ := Bool.and_eq_true_iff.1 hfunction
      obtain ⟨t, ts, hrest⟩ := List.exists_cons_of_ne_nil (Cursor.rest_ne_nil_of_isPunct hpunct)
      exact ⟨[t], .next hrest, fun hc => by rw [hc] at hkind; cases hkind⟩
    · exact ⟨[], .refl c, fun _ => rfl⟩
  obtain ⟨name, c₂, hname, rfl, rfl⟩ := exists_name_of_readRest h
  generalize (if kind == .functionDecl && c.isPunct 0 '*' then c.next else c) = c₁ at hname hstar
  have htypes : c₂.Onward c₂.skipTypeArguments := Cursor.Onward.refl.skipTypeArguments
  obtain ⟨tail, htail⟩ := (onward_readHeritage kind htypes).exists_passes
  refine ⟨rfl, rfl, rfl, rfl, rfl, rfl, ?_⟩
  rcases readName?_cases hname with ⟨hword, rfl, hnot⟩ | ⟨hdefault, hunnamed, rfl, hnot⟩
  · obtain ⟨t, ts, hrest⟩ := List.exists_cons_of_ne_nil (Cursor.rest_ne_nil_of_ident? hword)
    refine ⟨_, hstar.trans ((Cursor.Passes.next hrest).trans htail), fun hkind => Or.inl ⟨?_, hnot hkind⟩⟩
    rw [hclass hkind]
    simpa [Cursor.ident?, hrest] using hword
  · refine ⟨_, hstar.trans htail, fun hkind => Or.inr ⟨hdefault, hunnamed, fun w hw => hnot w ?_⟩⟩
    rw [hclass hkind] at hw
    exact htail.ident?_zero hw

/-- the parts of a declaration in front of its body; with any body that is as the declaration says they are a layout -/
theorem laid_front {source : List Char} {t : Token} {ts : List Token} {d : Declaration} (hrest : c.rest = t :: ts)
    (hstarts : ModuleSummary.startsStatement c.prev t = true) (h : Declaration.read? source c = some (some d, c')) :
    ∃ kind marks words word head, d.body = (readBody kind c').1 ∧ c.Passes (marks ++ (words ++ word :: head)) c' ∧
      ∀ body, Layout.IsBody d.body body → Layout.Of ⟨marks, words, word, head, body⟩ c.prev d := by
  obtain ⟨first, decorators, c₁, kind, hfirst, hmarks, hkind, h⟩ := exists_rest_of_read? h
  obtain rfl : t = first := by simpa [hrest] using hfirst
  obtain ⟨marks, hpassMarks, hmarks⟩ := Decorator.marks_readAll? c hmarks
  obtain ⟨words, hpassWords, hwords⟩ := Modifiers.passes_read {} c₁
  obtain ⟨w, hword, hkind⟩ := Option.bind_eq_some_iff.1 hkind
  obtain ⟨word, rest, hahead⟩ := List.exists_cons_of_ne_nil (Cursor.rest_ne_nil_of_ident? hword)
  have hident : word.ident? = some w := by simpa [Cursor.ident?, hahead] using hword
  obtain ⟨hk, hdefault, hdoc, hdecorators, hstart, hbody, head, hpassHead, hname⟩ := readRest_eq h
  have hpass : c.Passes (marks ++ (words ++ word :: head)) c' :=
    hpassMarks.trans (hpassWords.trans ((Cursor.Passes.next hahead).trans hpassHead))
  refine ⟨kind, marks, words, word, head, hbody, hpass, fun body hb => ?_⟩
  refine ⟨⟨t, ?_, hstart, hstarts⟩, hdoc, hdecorators ▸ hmarks, fun u hu => ?_, ?_, ?_, hb⟩
  · have hhead := hpass.head? (by simp)
    rw [hrest] at hhead
    rw [Layout.tokens_eq, List.head?_append, hhead]
    rfl
  · refine (hwords u hu).imp_right fun hboth => ⟨hboth.1, ?_⟩
    have henum := hboth.2
    rw [Cursor.isIdent, hword, beq_iff_eq] at henum
    cases henum
    cases hkind
    exact hk
  · rw [hident, hk]
    exact hkind
  · rw [hk]
    exact hname

/-- **Every declaration that is read has a layout.** Its reader stops in front of the body, and a body is enclosed from
there on. -/
theorem laid_read? {source : List Char} {t : Token} {ts : List Token} {d : Declaration} (hrest : c.rest = t :: ts)
    (hstarts : ModuleSummary.startsStatement c.prev t = true) (h : Declaration.read? source c = some (some d, c')) :
    c'.ahead < c.ahead ∧ ∃ l : Layout, l.Of c.prev d ∧ (d.body = none ∧ c.Passes l.tokens c' ∨
      ∃ opening e, c'.rest = opening :: (e.inner ++ e.close :: e.after.rest) ∧ opening.isPunct '{' = true ∧
        Cursor.closing '{' '}' 0 (e.inner ++ e.close :: e.after.rest) = some e ∧ c.Passes l.tokens e.after) := by
  obtain ⟨kind, marks, words, word, head, hbody, hpass, hof⟩ := laid_front hrest hstarts h
  have hahead : c'.ahead < c.ahead := by
    rw [Cursor.ahead, Cursor.ahead, hpass.rest]
    simp
    omega
  refine ⟨hahead, ?_⟩
  rcases readBody_cases kind c' with hnone | ⟨opening, e, hspan, hopening, he⟩
  · have hb : d.body = none := hbody.trans hnone
    refine ⟨_, hof [] (by rw [hb]; rfl), Or.inl ⟨hb, ?_⟩⟩
    rw [Layout.tokens_eq, List.append_nil]
    exact hpass
  · obtain ⟨u, hu, hpassBody, hclose, hclosing⟩ := Cursor.passes_enclosed? he
    have hbehind := hpassBody.rest
    obtain rfl : u = opening := by
      rw [hbehind] at hopening
      exact Option.some.inj hopening
    have hb : d.body = some ⟨u.start, e.close.stop⟩ := hbody.trans hspan
    refine ⟨_, hof (u :: (e.inner ++ [e.close])) (by rw [hb]; exact ⟨u, e.inner, e.close, rfl, hu, hclose, rfl⟩),
      Or.inr ⟨u, e, by simpa using hbehind, hu, hclosing, ?_⟩⟩
    rw [Layout.tokens_eq]
    exact hpass.trans hpassBody

end Declaration

end

/-! ## Declarations in a row -/

/-- declarations in tokens behind `prev`, one behind the other -/
inductive Row : Option Token → List Token → List Declaration → Prop where
  | nil (prev : Option Token) : Row prev [] []
  | pass {prev : Option Token} {t : Token} {ts : List Token} {ds : List Declaration} (h : Row (some t) ts ds) :
    Row prev (t :: ts) ds
  | declare {prev : Option Token} {l : Layout} {d : Declaration} {rest : List Token} {ds : List Declaration}
      (hl : l.Of prev d) (h : Row (l.tokens.getLast?.or prev) rest ds) : Row prev (l.tokens ++ rest) (d :: ds)

namespace Row

/-- tokens in front of a row -/
theorem onward {c c' : Cursor} (h : c.Onward c') {ds : List Declaration} (hrow : Row c'.prev c'.rest ds) :
    Row c.prev c.rest ds := by
  induction h with
  | refl => exact hrow
  | pass h ih => exact ih (.pass hrow)

/-- a declaration in a row has a layout -/
theorem exists_of_mem {prev : Option Token} {ts : List Token} {ds : List Declaration} (h : Row prev ts ds) :
    ∀ d ∈ ds, ∃ front l rest,
    ts = front ++ (l.tokens ++ rest) ∧ Layout.Of l (front.getLast?.or prev) d := by
  induction h with
  | nil prev => simp
  | @pass prev t ts ds h ih =>
    intro d hd
    obtain ⟨front, l, rest, rfl, hl⟩ := ih d hd
    refine ⟨t :: front, l, rest, rfl, ?_⟩
    cases front with
    | nil => exact hl
    | cons u front => exact hl
  | @declare prev l d rest ds hl h ih =>
    intro d' hd
    rcases List.mem_cons.1 hd with rfl | hd
    · exact ⟨[], l, rest, rfl, hl⟩
    · obtain ⟨front, l', rest', rfl, hl'⟩ := ih d' hd
      refine ⟨l.tokens ++ front, l', rest', (List.append_assoc ..).symm, ?_⟩
      rwa [List.getLast?_append, Option.or_assoc]

end Row

namespace ModuleSummary

variable {source : List Char}

section

variable {depth : Nat} {prev : Option Token} {t : Token} {ts : List Token}

theorem itemsFrom_opening (h : t.isPunct '{' = true) :
    itemsFrom source depth ⟨prev, t :: ts⟩ = itemsFrom source (depth + 1) ⟨some t, ts⟩ := by
  rw [itemsFrom]
  simp [h]

theorem itemsFrom_closer (hno : ¬ t.isPunct '{' = true) (h : t.isPunct '}' = true) :
    itemsFrom source (depth + 1) ⟨prev, t :: ts⟩ = itemsFrom source depth ⟨some t, ts⟩ := by
  rw [itemsFrom]
  simp [hno, h]

theorem itemsFrom_nests {d : Nat} (h : Cursor.Nests '{' '}' t depth d) :
    itemsFrom source (depth + 1) ⟨prev, t :: ts⟩ = itemsFrom source (d + 1) ⟨some t, ts⟩ := by
  cases h with
  | opens h => exact itemsFrom_opening h
  | closes hopening h => exact itemsFrom_closer hopening h
  | inside hopening hcloser =>
    rw [itemsFrom]
    simp [hopening, hcloser]

end

/-- nothing in braces is a statement: reading goes on behind the brace that closes -/
theorem itemsFrom_closing {ts : List Token} : ∀ {depth : Nat} {prev : Option Token} {e : Cursor.Enclosed},
    Cursor.closing '{' '}' depth ts = some e →
    itemsFrom source (depth + 1) ⟨prev, ts⟩ = itemsFrom source 0 e.after := by
  induction ts with
  | nil => intro depth prev e h; cases h
  | cons t ts ih =>
    intro depth prev e h
    rcases Cursor.closing_cons h with ⟨rfl, hopening, hcloser, rfl⟩ | ⟨d, e', hnests, he', rfl⟩
    · exact itemsFrom_closer hopening hcloser
    · exact (itemsFrom_nests hnests).trans (@ih d (some t) e' he')

/-- a declaration that a statement gives has a layout, and reading goes on behind it -/
theorem laid_readStatement {c : Cursor} {t : Token} {ts : List Token} (hrest : c.rest = t :: ts)
    (hstarts : startsStatement c.prev t = true) {d : Declaration}
    (h : (readStatement source t c).1.bind Item.declared? = some d) :
    (readStatement source t c).2.ahead < c.ahead ∧ ∃ (l : Layout) (after : Cursor), l.Of c.prev d ∧
      c.Passes l.tokens after ∧ itemsFrom source 0 (readStatement source t c).2 = itemsFrom source 0 after := by
  obtain ⟨-, hread⟩ := readStatement_eq h
  rw [hread] at h ⊢
  obtain ⟨c', hr, hread⟩ := readDeclaration_eq h
  rw [hread]
  obtain ⟨hahead, l, hl, ⟨-, hpass⟩ | ⟨opening, e, hbody, hopening, hclosing, hpass⟩⟩ :=
    Declaration.laid_read? hrest hstarts hr
  · exact ⟨hahead, l, c', hl, hpass, rfl⟩
  · obtain ⟨prev, rest⟩ := c'
    have hbody : rest = _ := hbody
    refine ⟨hahead, l, e.after, hl, hpass, ?_⟩
    rw [hbody, itemsFrom_opening hopening]
    exact itemsFrom_closing hclosing

/-- **The declarations of statements** are a row. -/
theorem row_itemsFrom (n : Nat) : ∀ (depth : Nat) (c : Cursor), c.ahead = n →
    Row c.prev c.rest ((itemsFrom source depth c).filterMap Item.declared?) := by
  induction n using Nat.strong_induction_on with
  | _ n ih =>
    rintro depth ⟨prev, rest⟩ rfl
    cases rest with
    | nil =>
      rw [itemsFrom]
      exact .nil prev
    | cons t ts =>
      have hbehind : ∀ depth, Row (some t) ts ((itemsFrom source depth ⟨some t, ts⟩).filterMap Item.declared?) :=
        fun depth => ih ts.length (Nat.lt_succ_self _) depth ⟨some t, ts⟩ rfl
      have hstatement : ∀ {b : Bool}, ¬ (decide (0 < depth) || !b) = true → depth = 0 ∧ b = true := by
        intro b hskip
        simpa using hskip
      rw [itemsFrom]
      dsimp only
      split_ifs with hopening hcloser hskip hlt
      · exact .pass (hbehind _)
      · exact .pass (hbehind _)
      · exact .pass (hbehind _)
      · obtain ⟨rfl, hstarts⟩ := hstatement hskip
        rw [filterMap_declared]
        cases hdecl : (readStatement source t ⟨prev, t :: ts⟩).1.bind Item.declared? with
        | none => exact (ih _ hlt 0 _ rfl).onward (within_readStatement .refl source t).1
        | some d =>
          obtain ⟨-, l, after, hl, hpass, hitems⟩ := laid_readStatement rfl hstarts hdecl
          have hlater : after.ahead < Cursor.ahead ⟨prev, t :: ts⟩ := by
            rw [Cursor.ahead, Cursor.ahead, hpass.rest]
            simp [Layout.tokens]
            omega
          have hrow := ih _ hlater 0 after rfl
          have hts : t :: ts = l.tokens ++ after.rest := hpass.rest
          rw [hitems, hts]
          rw [hpass.prev] at hrow
          exact .declare hl hrow
      · obtain ⟨rfl, hstarts⟩ := hstatement hskip
        rw [filterMap_declared]
        cases hdecl : (readStatement source t ⟨prev, t :: ts⟩).1.bind Item.declared? with
        | none => exact .pass (hbehind 0)
        | some d => exact absurd (laid_readStatement rfl hstarts hdecl).1 hlt

/-- **The declarations of a summary** are a row of its tokens. -/
theorem row_ofTokens (source : List Char) (ts : List Token) : Row none ts (ofTokens source ts).declarations := by
  rw [ofTokens, declarations_foldl_add]
  exact row_itemsFrom _ 0 (Cursor.start ts) rfl

end ModuleSummary

end ClosurePipeline
