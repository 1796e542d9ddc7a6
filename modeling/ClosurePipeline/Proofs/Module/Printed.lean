/-
Imports and exports as they are printed, and what the readers of a module make of their tokens. A statement is given by
its names and its module, and printed as glyphs; what stands between them, and where, is left to the layout.

- `Statement`: every form of an import or export, any names in it, `as`, `type` and `default` included; only a name in
  front of `from` or `=` must not be `from`, which would be taken for the word;
- `Spells`: tokens of the kinds of given glyphs, wherever they stand; readers look at kinds only;
- `list_of_spells`: names in braces are read as they are printed;
- `read_effect`, `read_clause`, `read_require`: so is what stands behind `import`;
- `readAll_eq`, `readAll_named`, `readNamed_eq`: so is what stands behind `export`. Each reader leaves the cursor in
  front of the semicolon, that of `require` in front of a parenthesis.
-/
import Mathlib.Tactic
import ClosurePipeline.Module.Scan
import ClosurePipeline.Proofs.Token.Layout

namespace ClosurePipeline

/-! ## Cursors in front of given tokens -/

namespace Cursor

variable (prev : Option Token) (t : Token) (ts : List Token) (k : Nat)

@[simp] theorem next_cons : Cursor.next ⟨prev, t :: ts⟩ = ⟨some t, ts⟩ := rfl

@[simp] theorem skip_cons : Cursor.skip ⟨prev, t :: ts⟩ (k + 1) = Cursor.skip ⟨some t, ts⟩ k := rfl

@[simp] theorem skip_zero (c : Cursor) : c.skip 0 = c := rfl

@[simp] theorem ident?_zero : Cursor.ident? ⟨prev, t :: ts⟩ 0 = t.ident? := rfl

@[simp] theorem ident?_succ : Cursor.ident? ⟨prev, t :: ts⟩ (k + 1) = Cursor.ident? ⟨some t, ts⟩ k := rfl

@[simp] theorem str?_zero : Cursor.str? ⟨prev, t :: ts⟩ 0 = t.str? := rfl

@[simp] theorem str?_succ : Cursor.str? ⟨prev, t :: ts⟩ (k + 1) = Cursor.str? ⟨some t, ts⟩ k := rfl

@[simp] theorem name?_zero : Cursor.name? ⟨prev, t :: ts⟩ 0 = t.name? := rfl

@[simp] theorem name?_succ : Cursor.name? ⟨prev, t :: ts⟩ (k + 1) = Cursor.name? ⟨some t, ts⟩ k := rfl

@[simp] theorem isIdent_zero (w : String) : Cursor.isIdent ⟨prev, t :: ts⟩ 0 w = t.isIdent w := rfl

@[simp] theorem isIdent_succ (w : String) :
    Cursor.isIdent ⟨prev, t :: ts⟩ (k + 1) w = Cursor.isIdent ⟨some t, ts⟩ k w := rfl

@[simp] theorem isPunct_zero (c : Char) : Cursor.isPunct ⟨prev, t :: ts⟩ 0 c = t.isPunct c := rfl

@[simp] theorem isPunct_succ (c : Char) :
    Cursor.isPunct ⟨prev, t :: ts⟩ (k + 1) c = Cursor.isPunct ⟨some t, ts⟩ k c := rfl

end Cursor

namespace Printed

open Lexer (Word Quoted Glyph)

/-! ## Statements -/

def importWord : Word := ⟨"import", by decide +kernel⟩
def exportWord : Word := ⟨"export", by decide +kernel⟩
def fromWord : Word := ⟨"from", by decide +kernel⟩
def asWord : Word := ⟨"as", by decide +kernel⟩
def requireWord : Word := ⟨"require", by decide +kernel⟩

/-- a name in braces: `a` or `a as b` -/
structure Element where
  name : Word
  shown? : Option Word

namespace Element

/-- what it is called on the other side -/
def shown (e : Element) : Word := e.shown?.getD e.name

def glyphs (e : Element) : List Glyph :=
  .word e.name :: match e.shown? with
    | some n => [.word asWord, .word n]
    | none => []

/-- names between commas -/
def listGlyphs (es : List Element) : List Glyph := [Glyph.mark ',' (by decide)].intercalate (es.map glyphs)

/-- names in braces -/
def bracedGlyphs (es : List Element) : List Glyph := .mark '{' (by decide) :: (listGlyphs es ++ [.mark '}' (by decide)])

end Element

/-- what an import takes besides the default: `* as n` or `{a, b as c}` -/
inductive Bindings where
  | all (n : Word)
  | named (es : List Element)

namespace Bindings

def glyphs : Bindings → List Glyph
  | all n => [.mark '*' (by decide), .word asWord, .word n]
  | named es => Element.bracedGlyphs es

/-- the names it brings into scope from a module -/
def bound (module : String) : Bindings → List ImportBinding
  | all n => [{ localName := n.name, sourceName := "*", specifier := module, kind := .wildcard }]
  | named es =>
    es.map fun e => { localName := e.shown.name, sourceName := e.name.name, specifier := module, kind := .named }

end Bindings

/-- what stands between `import` and `from` -/
inductive Clause where
  | default (d : Word) (h : d.name ≠ "from")
  | bindings (b : Bindings)
  | both (d : Word) (h : d.name ≠ "from") (b : Bindings)

namespace Clause

def glyphs : Clause → List Glyph
  | default d _ => [.word d]
  | bindings b => b.glyphs
  | both d _ b => .word d :: .mark ',' (by decide) :: b.glyphs

/-- the binding of a default name -/
def defaultBound (module : String) (d : Word) : ImportBinding :=
  { localName := d.name, sourceName := "default", specifier := module, kind := .default }

/-- the names it brings into scope from a module -/
def bound (module : String) : Clause → List ImportBinding
  | default d _ => [defaultBound module d]
  | bindings b => b.bound module
  | both d _ b => defaultBound module d :: b.bound module

end Clause

/-- an import or export -/
inductive Statement where
  /-- `import 's'` -/
  | effect (s : Quoted)
  /-- `import d from 's'`, `import * as n from 's'`, `import {a, b as c} from 's'`, and a default name with either of
  the others -/
  | importing (c : Clause) (s : Quoted)
  /-- `import n = require('s')` -/
  | require (n : Word) (h : n.name ≠ "from") (s : Quoted)
  /-- `export * from 's'` and `export * as n from 's'` -/
  | exportAll (n? : Option Word) (s : Quoted)
  /-- `export {a, b as c} from 's'` and `export {a, b as c}` -/
  | exportNamed (es : List Element) (s? : Option Quoted)

/-- the module behind `from` -/
def sourceGlyphs (s : Quoted) : List Glyph := [.word fromWord, .quoted s]

namespace Statement

/-- the statement without the semicolon behind it -/
def body : Statement → List Glyph
  | effect s => [.word importWord, .quoted s]
  | importing c s => .word importWord :: (c.glyphs ++ sourceGlyphs s)
  | require n _ s =>
    .word importWord ::
      ([.word n, .mark '=' (by decide), .word requireWord, .mark '(' (by decide), .quoted s] ++ [.mark ')' (by decide)])
  | exportAll none s => .word exportWord :: .mark '*' (by decide) :: sourceGlyphs s
  | exportAll (some n) s => .word exportWord :: .mark '*' (by decide) :: .word asWord :: .word n :: sourceGlyphs s
  | exportNamed es s? => .word exportWord :: (Element.bracedGlyphs es ++ (s?.map sourceGlyphs).getD [])

def glyphs (s : Statement) : List Glyph := s.body ++ [.mark ';' (by decide)]

/-- what the statement adds to a summary, if it starts on this line -/
def item (line : Nat) : Statement → ModuleSummary.Item
  | effect s => .importing ⟨s.value, [], line⟩
  | importing c s => .importing ⟨s.value, c.bound s.value, line⟩
  | require n _ s =>
    .importing ⟨s.value, [{ localName := n.name, sourceName := "*", specifier := s.value, kind := .wildcard }], line⟩
  | exportAll none s => .exporting ⟨some s.value, .all, line⟩
  | exportAll (some n) s => .exporting ⟨some s.value, .wildcard n.name, line⟩
  | exportNamed es s? =>
    .exporting ⟨s?.map Quoted.value, .named (es.map fun e =>
      { exportedName := e.shown.name, sourceName := e.name.name, specifier := s?.map Quoted.value }), line⟩

/-- the module a statement imports -/
def imported? : Statement → Option String
  | effect s => some s.value
  | importing _ s => some s.value
  | require _ _ s => some s.value
  | _ => none

/-- the module a statement exports from -/
def passedOn? : Statement → Option String
  | exportAll _ s => some s.value
  | exportNamed _ s? => s?.map Quoted.value
  | _ => none

end Statement

/-! ## Tokens of glyphs -/

section Token

variable {t : Token} {w : Word} {s : Quoted} {c : Char} {hc : c ∈ Lexer.marks}

theorem ident?_word (h : t.kind = (Glyph.word w).kind) : t.ident? = some w.name := by simp [Token.ident?, h, Glyph.kind]

theorem str?_word (h : t.kind = (Glyph.word w).kind) : t.str? = none := by simp [Token.str?, h, Glyph.kind]

theorem name?_word (h : t.kind = (Glyph.word w).kind) : t.name? = some w.name := by simp [Token.name?, ident?_word h]

theorem isIdent_word (h : t.kind = (Glyph.word w).kind) (v : String) :
    t.isIdent v = (w.name == v) := by simp [Token.isIdent, ident?_word h]

theorem isPunct_word (h : t.kind = (Glyph.word w).kind) (d : Char) :
    t.isPunct d = false := by simp [Token.isPunct, h, Glyph.kind]

theorem str?_quoted (h : t.kind = (Glyph.quoted s).kind) : t.str? = some s.value := by simp [Token.str?, h, Glyph.kind]

theorem isPunct_quoted (h : t.kind = (Glyph.quoted s).kind) (d : Char) :
    t.isPunct d = false := by simp [Token.isPunct, h, Glyph.kind]

theorem ident?_mark (h : t.kind = (Glyph.mark c hc).kind) : t.ident? = none := by simp [Token.ident?, h, Glyph.kind]

theorem str?_mark (h : t.kind = (Glyph.mark c hc).kind) : t.str? = none := by simp [Token.str?, h, Glyph.kind]

theorem name?_mark (h : t.kind = (Glyph.mark c hc).kind) :
    t.name? = none := by simp [Token.name?, ident?_mark h, str?_mark h]

theorem isIdent_mark (h : t.kind = (Glyph.mark c hc).kind) (v : String) :
    t.isIdent v = false := by simp [Token.isIdent, ident?_mark h]

theorem isPunct_mark (h : t.kind = (Glyph.mark c hc).kind) (d : Char) : t.isPunct d = (c == d) := by
  simp [Token.isPunct, h, Glyph.kind, Bool.beq_eq_decide_eq]

end Token

/-- these tokens are those of the glyphs, wherever they stand -/
def Spells (ts : List Token) (gs : List Glyph) : Prop := ts.map Token.kind = gs.map Glyph.kind

theorem spells_nil_iff {ts : List Token} : Spells ts [] ↔ ts = [] := List.map_eq_nil_iff

theorem spells_cons_iff {ts : List Token} {g : Glyph} {gs : List Glyph} :
    Spells ts (g :: gs) ↔ ∃ t us, ts = t :: us ∧ t.kind = g.kind ∧ Spells us gs := by
  rw [Spells, List.map_cons, List.map_eq_cons_iff]
  rfl

theorem spells_append_iff {ts : List Token} {gs hs : List Glyph} :
    Spells ts (gs ++ hs) ↔ ∃ us vs, ts = us ++ vs ∧ Spells us gs ∧ Spells vs hs := by
  rw [Spells, List.map_append, List.map_eq_append_iff]
  rfl

/-! ## Names in braces -/

/-- a list of names goes on with a comma or ends -/
def GoesOn (ts : List Token) : Prop := ∀ t ∈ ts.head?, t.kind = (Glyph.mark ',' (by decide)).kind

/-- one name of a list -/
theorem list_element {e : Element} {us vs : List Token} (h : Spells us e.glyphs) (hvs : GoesOn vs) :
    NamedElement.list (us ++ vs) = ⟨e.name.name, e.shown.name⟩ :: NamedElement.list vs.tail := by
  have hbehind : NamedElement.behindComma vs = vs.tail := by
    cases vs with
    | nil => rfl
    | cons c vs => simp [NamedElement.behindComma, isPunct_mark (hvs c rfl)]
  rw [Element.glyphs] at h
  cases hshown : e.shown? with
  | none =>
    rw [hshown] at h
    obtain ⟨t, us, rfl, ht, hnil⟩ := spells_cons_iff.1 h
    rw [spells_nil_iff.1 hnil]
    -- in front of a comma, `type` and `as` are names like others
    have hskip : NamedElement.skipType t vs = (t, vs) := by
      cases vs with
      | nil => rfl
      | cons c vs => simp [NamedElement.skipType, name?_mark (hvs c rfl)]
    have hsame : NamedElement.shownAs e.name.name vs = (e.name.name, vs) := by
      rcases vs with - | ⟨c, - | ⟨d, vs⟩⟩
      · rfl
      · rfl
      · simp [NamedElement.shownAs, isIdent_mark (hvs c rfl)]
    rw [List.cons_append, List.nil_append, NamedElement.list]
    simp only [hskip, name?_word ht, hsame, hbehind, Element.shown, hshown, Option.getD_none]
  | some n =>
    rw [hshown] at h
    obtain ⟨t, us, rfl, ht, h⟩ := spells_cons_iff.1 h
    obtain ⟨a, us, rfl, ha, h⟩ := spells_cons_iff.1 h
    obtain ⟨b, us, rfl, hb, hnil⟩ := spells_cons_iff.1 h
    rw [spells_nil_iff.1 hnil]
    have hskip : NamedElement.skipType t (a :: b :: vs) = (t, a :: b :: vs) := by
      simp [NamedElement.skipType, isIdent_word ha, asWord]
    have hother : NamedElement.shownAs e.name.name (a :: b :: vs) = (n.name, vs) := by
      simp [NamedElement.shownAs, isIdent_word ha, asWord, name?_word hb]
    rw [List.cons_append, List.cons_append, List.cons_append, List.nil_append, NamedElement.list]
    simp only [hskip, name?_word ht, hother, hbehind, Element.shown, hshown, Option.getD_some]

theorem listGlyphs_cons (e e' : Element) (es : List Element) :
    Element.listGlyphs (e :: e' :: es) = e.glyphs ++ (.mark ',' (by decide) :: Element.listGlyphs (e' :: es)) := by
  simp [Element.listGlyphs, List.intercalate_cons_cons]

/-- **Names in braces are read as they are printed.** -/
theorem list_of_spells (es : List Element) : ∀ {ts : List Token}, Spells ts (Element.listGlyphs es) →
    NamedElement.list ts = es.map fun e => ⟨e.name.name, e.shown.name⟩ := by
  induction es with
  | nil =>
    intro ts h
    rw [spells_nil_iff.1 h, NamedElement.list]
    rfl
  | cons e es ih =>
    intro ts h
    cases es with
    | nil =>
      have hone : Spells ts e.glyphs := by simpa [Element.listGlyphs] using h
      rw [← List.append_nil ts, list_element hone (fun t ht => by cases ht), List.tail_nil, NamedElement.list]
      rfl
    | cons e' es =>
      rw [listGlyphs_cons] at h
      obtain ⟨us, vs, rfl, hus, hvs⟩ := spells_append_iff.1 h
      obtain ⟨c, vs, rfl, hc, hvs⟩ := spells_cons_iff.1 hvs
      rw [list_element hus fun t ht => by cases ht; exact hc, List.tail_cons, ih hvs]
      rfl

/-- between the braces are words and commas -/
theorem mem_listGlyphs {es : List Element} {g : Glyph} (h : g ∈ Element.listGlyphs es) :
    (∃ w, g = .word w) ∨ g.kind = .punct ',' := by
  have helement : ∀ {e : Element}, g ∈ e.glyphs → ∃ w, g = .word w := by
    intro e hg
    rw [Element.glyphs] at hg
    cases hshown : e.shown? with
    | none =>
      rw [hshown, List.mem_singleton] at hg
      exact ⟨_, hg⟩
    | some n =>
      simp only [hshown, List.mem_cons, List.not_mem_nil, or_false] at hg
      rcases hg with hg | hg | hg <;> exact ⟨_, hg⟩
  induction es with
  | nil => cases h
  | cons e es ih =>
    cases es with
    | nil => exact Or.inl (helement (by simpa [Element.listGlyphs] using h))
    | cons e' es =>
      rw [listGlyphs_cons, List.mem_append, List.mem_cons] at h
      rcases h with h | rfl | h
      · exact Or.inl (helement h)
      · exact Or.inr rfl
      · exact ih h

/-- braces without braces between them close where they close -/
theorem closing_append {opening closer : Char} {inner rest : List Token} {c : Token}
    (h : ∀ t ∈ inner, t.isPunct opening = false ∧ t.isPunct closer = false) (hopening : c.isPunct opening = false)
    (hc : c.isPunct closer = true) :
    Cursor.closing opening closer 0 (inner ++ c :: rest) = some ⟨inner, c, ⟨some c, rest⟩⟩ := by
  induction inner with
  | nil => simp [Cursor.closing, hopening, hc]
  | cons t inner ih =>
    obtain ⟨h1, h2⟩ := h t List.mem_cons_self
    simp [Cursor.closing, h1, h2, ih fun u hu => h u (List.mem_cons_of_mem _ hu)]

/-- the stretch in braces -/
theorem exists_enclosed {es : List Element} {ts : List Token} (h : Spells ts (Element.bracedGlyphs es))
    (prev : Option Token) (rest : List Token) :
    ∃ o us e, ts = o :: us ∧ o.kind = .punct '{' ∧ Cursor.enclosed? '{' '}' ⟨prev, o :: (us ++ rest)⟩ = some e ∧
      NamedElement.list e.inner = es.map (fun e => ⟨e.name.name, e.shown.name⟩) ∧ ∃ c, e.after = ⟨some c, rest⟩ := by
  obtain ⟨o, us, rfl, ho, hus⟩ := spells_cons_iff.1 h
  obtain ⟨inner, vs, rfl, hinner, hvs⟩ := spells_append_iff.1 hus
  obtain ⟨c, vs, rfl, hc, hnil⟩ := spells_cons_iff.1 hvs
  rw [spells_nil_iff.1 hnil]
  have hplain : ∀ t ∈ inner, t.isPunct '{' = false ∧ t.isPunct '}' = false := by
    intro t ht
    have hkind : t.kind ∈ (Element.listGlyphs es).map Glyph.kind := hinner ▸ List.mem_map_of_mem ht
    obtain ⟨g, hg, hkind⟩ := List.mem_map.1 hkind
    rcases mem_listGlyphs hg with ⟨w, rfl⟩ | hcomma
    · exact ⟨isPunct_word hkind.symm _, isPunct_word hkind.symm _⟩
    · simp [Token.isPunct, ← hkind, hcomma]
  have hclose := @closing_append '{' '}' inner rest c hplain (by simp [isPunct_mark hc]) (by simp [isPunct_mark hc])
  refine ⟨o, inner ++ [c], ⟨inner, c, ⟨some c, rest⟩⟩, rfl, ho, ?_, list_of_spells es hinner, c, rfl⟩
  simpa [Cursor.enclosed?, isPunct_mark ho] using hclose

/-! ## Imports -/

section Import

variable {line : Nat} {prev : Option Token} {rest : List Token} {s : Quoted}

/-- the module behind `from` -/
theorem readSource_eq {pending : List ImportDecl.Pending} {ts : List Token} (h : Spells ts (sourceGlyphs s)) :
    ∃ last, ImportDecl.readSource line pending ⟨prev, ts ++ rest⟩ =
      some (some ⟨s.value, pending.map (ImportDecl.Pending.bind s.value), line⟩, ⟨some last, rest⟩) := by
  obtain ⟨f, us, rfl, hf, h⟩ := spells_cons_iff.1 h
  obtain ⟨t, us, rfl, ht, hnil⟩ := spells_cons_iff.1 h
  rw [spells_nil_iff.1 hnil]
  exact ⟨t, by simp [ImportDecl.readSource, isIdent_word hf, fromWord, str?_quoted ht]⟩

theorem readBindings_eq (b : Bindings) {pending : List ImportDecl.Pending} {us ts : List Token}
    (hb : Spells us b.glyphs) (h : Spells ts (sourceGlyphs s)) :
    ∃ last, ImportDecl.readBindings line pending ⟨prev, us ++ (ts ++ rest)⟩ =
      some (some ⟨s.value, pending.map (ImportDecl.Pending.bind s.value) ++ b.bound s.value, line⟩,
        ⟨some last, rest⟩) := by
  cases b with
  | all n =>
    obtain ⟨x, us, rfl, hx, hb⟩ := spells_cons_iff.1 hb
    obtain ⟨a, us, rfl, ha, hb⟩ := spells_cons_iff.1 hb
    obtain ⟨m, us, rfl, hm, hnil⟩ := spells_cons_iff.1 hb
    rw [spells_nil_iff.1 hnil]
    obtain ⟨last, hsource⟩ := @readSource_eq line (some m) rest s (pending ++ [⟨n.name, "*", .wildcard⟩]) ts h
    refine ⟨last, ?_⟩
    rw [ImportDecl.readBindings, if_pos (by simp [isPunct_mark hx]), if_pos (by simp [isIdent_word ha, asWord])]
    simpa [ident?_word hm, Bindings.bound, ImportDecl.Pending.bind] using hsource
  | named es =>
    obtain ⟨o, us, e, rfl, ho, henclosed, hlist, c, hafter⟩ := exists_enclosed hb prev (ts ++ rest)
    obtain ⟨last, hsource⟩ :=
      @readSource_eq line (some c) rest s (pending ++ es.map fun e => ⟨e.shown.name, e.name.name, .named⟩) ts h
    refine ⟨last, ?_⟩
    have hopen : o.isPunct '{' = true := by simp [Token.isPunct, ho]
    have hstar : o.isPunct '*' = false := by simp [Token.isPunct, ho]
    rw [List.cons_append, ImportDecl.readBindings, if_neg (by simp [hstar]), if_pos (by simp [hopen]), henclosed]
    simp only [Option.bind_eq_bind, Option.bind_some, hlist, List.map_map, hafter]
    rw [List.map_append, List.map_map] at hsource
    exact hsource

/-- what is imported besides the default starts with a star or a brace -/
theorem Bindings.exists_mark (b : Bindings) : ∃ c hc gs, b.glyphs = .mark c hc :: gs ∧ c ≠ '(' ∧ c ≠ '.' := by
  cases b with
  | all n => exact ⟨_, _, _, rfl, by decide, by decide⟩
  | named es => exact ⟨_, _, _, rfl, by decide, by decide⟩

/-- a name in front that is not `from` is a default name -/
theorem readClause_word {t : Token} {d : Word} (ht : t.kind = (Glyph.word d).kind) (hd : d.name ≠ "from")
    (ts : List Token) :
    ImportDecl.readClause line ⟨prev, t :: ts⟩ =
      if Cursor.isPunct ⟨prev, t :: ts⟩ 1 '=' then some (ImportDecl.readRequire d.name line ⟨prev, t :: ts⟩)
      else ImportDecl.readBindings line [⟨d.name, "default", .default⟩]
        (if Cursor.isPunct ⟨prev, t :: ts⟩ 1 ',' then Cursor.skip ⟨prev, t :: ts⟩ 2
          else Cursor.skip ⟨prev, t :: ts⟩ 1) := by
  have hname : (Cursor.ident? ⟨prev, t :: ts⟩ 0).filter (· ≠ "from") = some d.name := by
    rw [Cursor.ident?_zero, ident?_word ht]
    simp [hd]
  rw [ImportDecl.readClause, hname]

/-- **An import clause is read as it is printed.** A default name `type` is no modifier in front of `from`
or a comma. -/
theorem read_clause (c : Clause) {us ts : List Token} (hc : Spells us c.glyphs) (h : Spells ts (sourceGlyphs s)) :
    ∃ last, ImportDecl.read line ⟨prev, us ++ (ts ++ rest)⟩ =
      (some ⟨s.value, c.bound s.value, line⟩, ⟨some last, rest⟩) := by
  cases c with
  | default d hd =>
    obtain ⟨t, us, rfl, ht, hnil⟩ := spells_cons_iff.1 hc
    rw [spells_nil_iff.1 hnil]
    obtain ⟨last, hsource⟩ := @readSource_eq line (some t) rest s [⟨d.name, "default", .default⟩] ts h
    obtain ⟨f, us, rfl, hf, -⟩ := spells_cons_iff.1 h
    rw [List.cons_append] at hsource
    have hskip : ImportDecl.skipType ⟨prev, t :: f :: (us ++ rest)⟩ = ⟨prev, t :: f :: (us ++ rest)⟩ := by
      simp [ImportDecl.skipType, isIdent_word hf, fromWord]
    have hclause : ImportDecl.readClause line ⟨prev, t :: f :: (us ++ rest)⟩ =
        ImportDecl.readSource line [⟨d.name, "default", .default⟩] ⟨some t, f :: (us ++ rest)⟩ := by
      simp [readClause_word ht hd, isPunct_word hf, ImportDecl.readBindings]
    refine ⟨last, ?_⟩
    simp [ImportDecl.read, isPunct_word ht, str?_word ht, hskip, hclause, hsource, Clause.bound, Clause.defaultBound,
      ImportDecl.Pending.bind]
  | bindings b =>
    obtain ⟨last, hbindings⟩ := @readBindings_eq line prev rest s b [] us ts hc h
    obtain ⟨m, hm, gs, hglyphs, hparen, hdot⟩ := b.exists_mark
    rw [Clause.glyphs, hglyphs] at hc
    obtain ⟨t, us, rfl, ht, -⟩ := spells_cons_iff.1 hc
    rw [List.cons_append] at hbindings ⊢
    refine ⟨last, ?_⟩
    simp [ImportDecl.read, isPunct_mark ht, hparen, hdot, str?_mark ht, ImportDecl.skipType, isIdent_mark ht,
      ImportDecl.readClause, ident?_mark ht, hbindings, Clause.bound]
  | both d hd b =>
    obtain ⟨t, us, rfl, ht, hus⟩ := spells_cons_iff.1 hc
    obtain ⟨m, us, rfl, hm, hb⟩ := spells_cons_iff.1 hus
    obtain ⟨last, hbindings⟩ := @readBindings_eq line (some m) rest s b [⟨d.name, "default", .default⟩] us ts hb h
    refine ⟨last, ?_⟩
    simp [ImportDecl.read, isPunct_word ht, str?_word ht, ImportDecl.skipType, isPunct_mark hm, readClause_word ht hd,
      hbindings, Clause.bound, Clause.defaultBound, ImportDecl.Pending.bind]

theorem read_effect {t : Token} (h : t.kind = (Glyph.quoted s).kind) :
    ImportDecl.read line ⟨prev, t :: rest⟩ = (some ⟨s.value, [], line⟩, ⟨some t, rest⟩) := by
  simp [ImportDecl.read, isPunct_quoted h, str?_quoted h]

/-- `import n = require('s')`; the parenthesis behind the string is left -/
theorem read_require {n : Word} (hn : n.name ≠ "from") {us : List Token}
    (h : Spells us [.word n, .mark '=' (by decide), .word requireWord, .mark '(' (by decide), .quoted s]) :
    ∃ last, ImportDecl.read line ⟨prev, us ++ rest⟩ =
      (some ⟨s.value, [⟨n.name, "*", s.value, .wildcard⟩], line⟩, ⟨some last, rest⟩) := by
  obtain ⟨t, us, rfl, ht, h⟩ := spells_cons_iff.1 h
  obtain ⟨e, us, rfl, he, h⟩ := spells_cons_iff.1 h
  obtain ⟨r, us, rfl, hr, h⟩ := spells_cons_iff.1 h
  obtain ⟨o, us, rfl, ho, h⟩ := spells_cons_iff.1 h
  obtain ⟨q, us, rfl, hq, hnil⟩ := spells_cons_iff.1 h
  rw [spells_nil_iff.1 hnil]
  refine ⟨q, ?_⟩
  simp [ImportDecl.read, isPunct_word ht, str?_word ht, ImportDecl.skipType, isPunct_mark he, readClause_word ht hn,
    ImportDecl.readRequire, isIdent_word hr, requireWord, isPunct_mark ho, str?_quoted hq]

end Import

/-! ## Exports -/

section Export

variable {line : Nat} {prev : Option Token} {rest : List Token} {s : Quoted}

theorem readAll_eq {ts : List Token} (h : Spells ts (sourceGlyphs s)) :
    ∃ last, ExportDecl.readAll line ⟨prev, ts ++ rest⟩ = some (some ⟨some s.value, .all, line⟩, ⟨some last, rest⟩) := by
  obtain ⟨f, us, rfl, hf, h⟩ := spells_cons_iff.1 h
  obtain ⟨t, us, rfl, ht, hnil⟩ := spells_cons_iff.1 h
  rw [spells_nil_iff.1 hnil]
  exact ⟨t, by simp [ExportDecl.readAll, isIdent_word hf, fromWord, str?_quoted ht]⟩

theorem readAll_named {n : Word} {ts : List Token} (h : Spells ts (.word asWord :: .word n :: sourceGlyphs s)) :
    ∃ last, ExportDecl.readAll line ⟨prev, ts ++ rest⟩ =
      some (some ⟨some s.value, .wildcard n.name, line⟩, ⟨some last, rest⟩) := by
  obtain ⟨a, us, rfl, ha, h⟩ := spells_cons_iff.1 h
  obtain ⟨m, us, rfl, hm, h⟩ := spells_cons_iff.1 h
  obtain ⟨f, us, rfl, hf, h⟩ := spells_cons_iff.1 h
  obtain ⟨t, us, rfl, ht, hnil⟩ := spells_cons_iff.1 h
  rw [spells_nil_iff.1 hnil]
  exact ⟨t,
    by simp [ExportDecl.readAll, isIdent_word ha, asWord, name?_word hm, isIdent_word hf, fromWord, str?_quoted ht]⟩

/-- names in braces, with `from` and a module behind them or a semicolon -/
theorem readNamed_eq (es : List Element) (s? : Option Quoted) {us vs : List Token}
    (hus : Spells us (Element.bracedGlyphs es)) (hvs : Spells vs ((s?.map sourceGlyphs).getD [])) {c : Token}
    (hc : c.kind = .punct ';') :
    ∃ last, ExportDecl.readNamed line ⟨prev, us ++ (vs ++ c :: rest)⟩ =
      some (some ⟨s?.map Quoted.value, .named (es.map fun e => ⟨e.shown.name, e.name.name, s?.map Quoted.value⟩), line⟩,
        ⟨some last, c :: rest⟩) := by
  obtain ⟨o, us, e, rfl, ho, henclosed, hlist, b, hafter⟩ := exists_enclosed hus prev (vs ++ c :: rest)
  cases s? with
  | none =>
    rw [spells_nil_iff.1 hvs] at henclosed hafter ⊢
    have hno : c.isIdent "from" = false := by simp [Token.isIdent, Token.ident?, hc]
    refine ⟨b, ?_⟩
    rw [List.cons_append, ExportDecl.readNamed, henclosed]
    simp [hlist, hafter, hno, Function.comp_def]
  | some s =>
    obtain ⟨f, vs, rfl, hf, h⟩ := spells_cons_iff.1 hvs
    obtain ⟨t, vs, rfl, ht, hnil⟩ := spells_cons_iff.1 h
    rw [spells_nil_iff.1 hnil] at henclosed hafter ⊢
    refine ⟨t, ?_⟩
    rw [List.cons_append, ExportDecl.readNamed, henclosed]
    simp [hlist, hafter, isIdent_word hf, fromWord, str?_quoted ht, Function.comp_def]

end Export

end Printed

end ClosurePipeline
