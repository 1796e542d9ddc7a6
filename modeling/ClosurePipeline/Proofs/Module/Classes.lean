/-
The two readings of classes. Classes are read from a text twice: as declarations, where a statement may start, and
anywhere, where the token in front of the word `class` tells a declaration from an expression. A top-level class is read
both times, unless it is overlooked the second time.

- `classesFrom_split`: what the word `class` at a place adds to the classes found anywhere;
- `Overlooked`: the tokens in front of a top-level class for which it is taken for an expression;
  `startsClass_eq_false_iff`: there are no others;
- `class_found_twice`: the result. A class is overlooked behind a closing bracket or a literal on a line above, although
  a statement may start there, and on the line of `async` or of a decorator without arguments.
-/
import Mathlib.Tactic
import ClosurePipeline.Proofs.Module.Laid

namespace ClosurePipeline

namespace ModuleSummary

/-! ## Classes found anywhere -/

/-- what a word between other tokens adds -/
theorem classesFrom_split (t : Token) (behind : List Token) (front : List Token) : ∀ prev : Option Token,
    classesFrom prev (front ++ t :: behind) =
      classesFrom prev (front ++ [t]) ++
        ((class? (front.getLast?.or prev) t behind).toList ++ classesFrom (some t) behind) := by
  induction front with
  | nil =>
    intro prev
    have hlast : class? prev t [] = none := by simp [class?]
    simp [classesFrom, hlast]
  | cons u front ih =>
    intro prev
    have hhead : (front ++ t :: behind).head? = (front ++ [t]).head? := by cases front <;> rfl
    have hfirst : class? prev u (front ++ t :: behind) = class? prev u (front ++ [t]) := by rw [class?, class?, hhead]
    have hprev : (u :: front).getLast?.or prev = front.getLast?.or (some u) := by
      cases front with
      | nil => rfl
      | cons v front => rfl
    rw [List.cons_append, List.cons_append, classesFrom, classesFrom, hfirst, ih, hprev, List.append_assoc]

/-- words behind which `class` starts a declaration on any line -/
def classWords : List String := ["export", "default", "abstract", "declare"]

/-- the class is taken for an expression behind the token `p`: a closing bracket or a literal on a line above, or on its
own line a decorator without arguments or the word `async` -/
inductive Overlooked (d : Declaration) (word p : Token) : Prop where
  | bracket (h : p.kind = .punct ']') (hline : p.line < word.line)
  | literal (h : p.kind = .template ∨ p.kind = .number ∨ p.kind = .regex ∨ ∃ s, p.kind = .str s)
      (hline : p.line < word.line)
  | async (h : p.kind = .ident "async") (hline : ¬ p.line < word.line)
  | decorator {r : Decorator} {w : String} (hr : r ∈ d.decorators.getLast?) (hbare : r.arguments = none)
      (hstop : r.span.stop = p.stop)
      (h : p.kind = .ident w) (hword : w ∉ classWords) (hline : ¬ p.line < word.line)

/-! ## The word in front of a class -/

theorem startsClass_ident {p t : Token} {w : String} (h : p.kind = .ident w) :
    startsClass (some p) t = false ↔ w ∉ classWords ∧ ¬ p.line < t.line := by
  simp [startsClass, h, classWords, and_assoc]

theorem Overlooked.startsClass_eq_false {d : Declaration} {word p : Token} (h : Overlooked d word p) :
    startsClass (some p) word = false := by
  cases h with
  | bracket h _ => simp [startsClass, h]
  | literal h _ => rcases h with h | h | h | ⟨s, h⟩ <;> simp [startsClass, h]
  | async h hline => exact (startsClass_ident h).2 ⟨by decide, hline⟩
  | decorator _ _ _ h hword hline => exact (startsClass_ident h).2 ⟨hword, hline⟩

/-- where a statement may start, a class is overlooked only behind a bracket or a literal on a line above -/
theorem overlooked_of_startsStatement {d : Declaration} {prev : Option Token} {word : Token}
    (hstarts : startsStatement prev word = true) (h : startsClass prev word = false) :
    ∃ p ∈ prev, Overlooked d word p := by
  cases prev with
  | none => cases h
  | some p =>
    refine ⟨p, rfl, ?_⟩
    cases hp : p.kind with
    | ident w =>
      have hline : p.line < word.line := by simpa [startsStatement, hp] using hstarts
      exact absurd hline ((startsClass_ident hp).1 h).2
    | str s => exact .literal (by simp [hp]) (by simpa [startsStatement, hp] using hstarts)
    | template => exact .literal (by simp [hp]) (by simpa [startsStatement, hp] using hstarts)
    | number => exact .literal (by simp [hp]) (by simpa [startsStatement, hp] using hstarts)
    | regex => exact .literal (by simp [hp]) (by simpa [startsStatement, hp] using hstarts)
    | punct c =>
      simp only [startsClass, hp, Bool.or_eq_false_iff, beq_eq_false_iff_ne] at h
      obtain ⟨⟨⟨hsemi, hopening⟩, hcloser⟩, hround⟩ := h
      have hbracket : c = ']' ∧ p.line < word.line := by
        simpa [startsStatement, hp, hsemi, hopening, hcloser, hround] using hstarts
      exact .bracket (by rw [hp, hbracket.1]) hbracket.2
    | doc text => simp [startsClass, hp] at h

end ModuleSummary

theorem Token.kind_of_ident? {t : Token} {w : String} (h : t.ident? = some w) : t.kind = .ident w := by
  unfold Token.ident? at h
  split at h
  · rename_i v hkind
    rw [hkind, Option.some.inj h]
  · cases h

theorem Token.kind_of_str? {t : Token} {value : String} (h : t.str? = some value) : t.kind = .str value := by
  unfold Token.str? at h
  split at h
  · rename_i v hkind
    rw [hkind, Option.some.inj h]
  · cases h

/-- the tokens of decorators end with the last decorator's -/
theorem Decorator.Marks.getLast? {rs : List Decorator} {ts : List Token} (h : Marks rs ts) :
    (rs = [] ∧ ts = []) ∨ ∃ r p, rs.getLast? = some r ∧
    ts.getLast? = some p ∧ r.span.stop = p.stop ∧
    (p.isPunct ')' = true ∨ r.arguments = none ∧ ∃ w, p.ident? = some w) := by
  induction h with
  | nil => exact Or.inl ⟨rfl, rfl⟩
  | @cons r rs xs ys h hs ih =>
    right
    rcases ih with ⟨rfl, rfl⟩ | ⟨r', p, hr, hp, hlast⟩
    · obtain ⟨p, hp, hstop, hlast⟩ := h.last
      exact ⟨r, p, rfl, by simpa using hp, hstop, hlast⟩
    · refine ⟨r', p, ?_, ?_, hlast⟩
      · rw [List.getLast?_cons, hr]
        rfl
      · rw [List.getLast?_append, hp, Option.some_or]

namespace ModuleSummary

/-- a top-level class is taken for an expression only behind a token for which it is overlooked -/
theorem startsClass_eq_false_iff {l : Layout} {prev : Option Token} {d : Declaration} (hl : l.Of prev d)
    (hkind : d.kind = .classDecl) :
    startsClass ((l.marks ++ l.words).getLast?.or prev) l.word = false ↔
    ∃ p ∈ (l.marks ++ l.words).getLast?.or prev, Overlooked d l.word p := by
  constructor
  · intro h
    rcases List.eq_nil_or_concat l.words with hwords | ⟨words, w, hwords⟩
    · rw [hwords, List.append_nil] at h ⊢
      rcases hl.marks.getLast? with ⟨-, hmarks⟩ | ⟨r, p, hr, hp, hstop, hlast⟩
      · -- the class opens the statement
        obtain ⟨t, ht, -, hstarts⟩ := hl.start
        have hword : l.word = t := by simpa [Layout.tokens, hmarks, hwords] using ht
        rw [hmarks] at h ⊢
        exact overlooked_of_startsStatement (hword ▸ hstarts) h
      · -- a decorator stands in front of it
        rw [hp, Option.some_or] at h ⊢
        refine ⟨p, rfl, ?_⟩
        rcases hlast with hround | ⟨hbare, w, hw⟩
        · rw [startsClass, eq_of_beq hround] at h
          cases h
        · have hident := Token.kind_of_ident? hw
          obtain ⟨hword, hline⟩ := (startsClass_ident hident).1 h
          exact .decorator hr hbare hstop hident hword hline
    · -- a modifier stands in front of it
      have hlast : (l.marks ++ l.words).getLast? = some w := by
        rw [hwords, List.concat_eq_append, ← List.append_assoc, List.getLast?_concat]
      rw [hlast, Option.some_or] at h ⊢
      refine ⟨w, rfl, ?_⟩
      rcases hl.words w (by simp [hwords]) with ⟨name, hname, hw⟩ | ⟨-, henum⟩
      · have hident := Token.kind_of_ident? hw
        obtain ⟨hword, hline⟩ := (startsClass_ident hident).1 h
        have hasync : name = "async" := by
          simp only [classWords, List.mem_cons, List.not_mem_nil, or_false] at hname hword
          tauto
        exact .async (hasync ▸ hident) hline
      · rw [hkind] at henum
        cases henum
  · rintro ⟨p, hp, hover⟩
    rw [Option.mem_def.1 hp]
    exact hover.startsClass_eq_false

theorem eq_class_of_kindOf? {w : String} (h : Declaration.kindOf? w = some .classDecl) : w = "class" := by
  unfold Declaration.kindOf? at h
  split at h
  case h_1 => rfl
  all_goals cases h

theorem classes_foldl_add (items : List Item) : ∀ m : ModuleSummary, (items.foldl add m).classes = m.classes := by
  induction items with
  | nil => intro m; rfl
  | cons i items ih =>
    intro m
    rw [List.foldl_cons, ih]
    cases i <;> rfl

/-- the word `class` with a written name behind it -/
theorem class?_of_written {l : Layout} {d : Declaration} (hclass : l.word.isIdent "class" = true) (h : l.Written d)
    (prev : Option Token) (behind : List Token) :
    class? prev l.word (l.head ++ l.body ++ behind) =
      if startsClass prev l.word then some ⟨d.name, l.word.line⟩ else none := by
  obtain ⟨hname, hextends, himplements⟩ := h
  obtain ⟨t, ht, hword⟩ := Option.bind_eq_some_iff.1 hname
  have hhead : (l.head ++ l.body ++ behind).head? = some t := by
    rw [List.append_assoc, List.head?_append, ht, Option.some_or]
  rw [class?, hhead]
  simp [hclass, hword, hextends, himplements]

/-- **A top-level class is found twice, unless it is overlooked.** A class declaration of a text stands in its tokens,
and if its name is written, the word `class` there adds the name to the classes found anywhere exactly if the class is
not overlooked behind the token in front of the word. -/
theorem class_found_twice {text : String} {d : Declaration} (hd : d ∈ (ofText text).declarations)
    (hkind : d.kind = .classDecl) :
    ∃ (front : List Token) (l : Layout) (behind : List Token),
      Lexer.tokenize text.toList = front ++ (l.tokens ++ behind) ∧ l.Of front.getLast? d ∧
      l.word.isIdent "class" = true ∧ (l.Unnamed d ∨ l.Written d ∧ ∃ before, before = front ++ (l.marks ++ l.words) ∧
        ((∃ p ∈ before.getLast?, Overlooked d l.word p) ∧
            (ofText text).classes = classesFrom none (before ++ [l.word]) ++
              classesFrom (some l.word) (l.head ++ l.body ++ behind) ∨
          (¬ ∃ p ∈ before.getLast?, Overlooked d l.word p) ∧ (ofText text).declaresClass d.name = true ∧
            (ofText text).classes = classesFrom none (before ++ [l.word]) ++
              ⟨d.name, l.word.line⟩ :: classesFrom (some l.word) (l.head ++ l.body ++ behind))) := by
  obtain ⟨front, l, behind, htokens, hl⟩ := (row_ofTokens text.toList (Lexer.tokenize text.toList)).exists_of_mem d hd
  rw [Option.or_none] at hl
  have hclass : l.word.isIdent "class" = true := by
    obtain ⟨w, hw, hk⟩ := Option.bind_eq_some_iff.1 hl.word
    rw [hkind] at hk
    rw [Token.isIdent, hw, eq_class_of_kindOf? hk]
    rfl
  refine ⟨front, l, behind, htokens, hl, hclass, (hl.name hkind).symm.imp_right fun hwritten => ⟨hwritten, _, rfl, ?_⟩⟩
  have hsplit :
      Lexer.tokenize text.toList = front ++ (l.marks ++ l.words) ++ l.word :: (l.head ++ l.body ++ behind) := by
    rw [htokens, Layout.tokens]
    simp
  have hiff := startsClass_eq_false_iff hl hkind
  rw [← List.getLast?_append] at hiff
  have hclasses : (ofText text).classes = classesFrom none (front ++ (l.marks ++ l.words) ++ [l.word]) ++
      ((if startsClass (front ++ (l.marks ++ l.words)).getLast? l.word then some ⟨d.name, l.word.line⟩
        else none).toList ++ classesFrom (some l.word) (l.head ++ l.body ++ behind)) := by
    rw [← class?_of_written hclass hwritten, ofText, ofTokens, classes_foldl_add]
    dsimp only
    rw [hsplit, classesFrom_split, Option.or_none]
  cases hstarts : startsClass (front ++ (l.marks ++ l.words)).getLast? l.word with
  | false =>
    rw [hstarts] at hclasses
    exact Or.inl ⟨hiff.1 hstarts, hclasses⟩
  | true =>
    rw [hstarts] at hclasses hiff
    refine Or.inr ⟨fun hover => Bool.noConfusion (hiff.2 hover), ?_, hclasses⟩
    rw [declaresClass, hclasses]
    simp

/-- an import that ends with its line, and a class -/
def semicolonFree : String := "import './a'\nclass A \x7b\x7d\n"

/-- the class is overlooked behind the name of the module -/
theorem class_found_twice_semicolonFree :
    ∃ d ∈ (ofText semicolonFree).declarations, d.kind = .classDecl ∧ d.name = "A" ∧
    ∃ (front : List Token) (l : Layout) (behind : List Token), Lexer.tokenize semicolonFree.toList =
      front ++ (l.tokens ++ behind) ∧ l.Of front.getLast? d ∧ ∃ p ∈ (front ++ (l.marks ++ l.words)).getLast?,
        Overlooked d l.word p := by
  have hclass : ∃ d ∈ (ofText semicolonFree).declarations, d.kind = .classDecl ∧ d.name = "A" := by decide +kernel
  have hmissed : (ofText semicolonFree).declaresClass "A" = false := by decide +kernel
  obtain ⟨d, hd, hkind, hname⟩ := hclass
  refine ⟨d, hd, hkind, hname, ?_⟩
  obtain ⟨front, l, behind, htokens, hl, -, hfound⟩ := class_found_twice hd hkind
  rcases hfound with ⟨-, hdefault, -⟩ | ⟨-, before, rfl, ⟨hover, -⟩ | ⟨-, hdeclares, -⟩⟩
  · rw [hname] at hdefault
    exact absurd hdefault (by decide)
  · exact ⟨front, l, behind, htokens, hl, hover⟩
  · rw [hname, hmissed] at hdeclares
    cases hdeclares

/-- **Code without semicolons hides classes:** the class is declared at top level, and no class of its name is found
anywhere. -/
theorem semicolonFree_class_is_missed :
    ¬ ∀ d ∈ (ofText semicolonFree).declarations, d.kind = .classDecl → d.name = "A" →
    (ofText semicolonFree).declaresClass d.name = true := by
  decide +kernel

end ModuleSummary

end ClosurePipeline
