/-
The readers of statements, taken apart. For each of them there is one equation, or one lemma on what it has found, that
says what it looks for and in which order; what is proved of a reader goes through these.

- `Cursor.isPunct_add_one` and the like: what is ahead by one more is ahead of the next token;
  `exists_first_of_dottedName?`: names with dots;
- `ImportDecl.place_readSource`, `ExportDecl.readAll_eq_bind`, `ExportDecl.place_readModule`: clauses and the modules
  they name;
- `Decorator.readAll?_eq`, `Modifiers.read_of_some`, `Modifiers.read_of_none`: decorators and modifiers, one by one;
- `Declaration.read?_eq`: behind the decorators a declaration is read word by word; `exists_rest_of_read?`,
  `exists_name_of_readRest`: what has been read if one is found;
- `ModuleSummary.readDeclaration_eq_itemOf`, `ModuleSummary.readExport_eq`: the statements.
-/
import Mathlib.Tactic
import ClosurePipeline.Module.Scan

namespace ClosurePipeline

/-! ## Tokens ahead -/

namespace Cursor

theorem rest_add_one (c : Cursor) (k : Nat) : c.rest[k + 1]? = c.next.rest[k]? := by
  obtain ⟨prev, rest⟩ := c
  cases rest <;> rfl

theorem ident?_add_one (c : Cursor) (k : Nat) : c.ident? (k + 1) = c.next.ident? k := by
  obtain ⟨prev, rest⟩ := c
  cases rest <;> rfl

theorem str?_add_one (c : Cursor) (k : Nat) : c.str? (k + 1) = c.next.str? k := by
  obtain ⟨prev, rest⟩ := c
  cases rest <;> rfl

theorem name?_add_one (c : Cursor) (k : Nat) : c.name? (k + 1) = c.next.name? k := by
  obtain ⟨prev, rest⟩ := c
  cases rest <;> rfl

theorem isIdent_add_one (c : Cursor) (k : Nat) (w : String) : c.isIdent (k + 1) w = c.next.isIdent k w := by
  rw [isIdent, isIdent, ident?_add_one]

theorem isPunct_add_one (c : Cursor) (k : Nat) (ch : Char) : c.isPunct (k + 1) ch = c.next.isPunct k ch := by
  obtain ⟨prev, rest⟩ := c
  cases rest <;> rfl

theorem next_of_rest {c : Cursor} {t : Token} {ts : List Token} (h : c.rest = t :: ts) : c.next = ⟨some t, ts⟩ := by
  rw [next, h]

/-- a name with dots is a word ahead and the parts behind it -/
theorem exists_first_of_dottedName? {c c' : Cursor} {name : String} (h : c.dottedName? = some (name, c')) :
    ∃ t ts word, c.rest = t :: ts ∧ t.ident? = some word ∧
      name = ".".intercalate (word :: (dottedParts (some t) ts).1) ∧
      c' = (dottedParts (some t) ts).2 := by
  obtain ⟨prev, rest⟩ := c
  unfold dottedName? at h
  split at h
  · cases h
  · rename_i word hword
    obtain ⟨t, ht, hword⟩ := Option.bind_eq_some_iff.1 hword
    cases rest with
    | nil => cases ht
    | cons u ts =>
      obtain rfl : u = t := Option.some.inj ht
      cases h
      exact ⟨u, ts, word, rfl, hword, rfl, rfl⟩

end Cursor

/-! ## Clauses -/

/-- the place behind the module that a clause names after `from`; a clause without the word ends where it is -/
def Cursor.behindFrom? (c : Cursor) : Option Cursor :=
  if c.isIdent 0 "from" then (c.str? 1).map fun _ => c.skip 2 else some c

theorem ImportDecl.place_readSource (line : Nat) (pending : List Pending) (c : Cursor) :
    (readSource line pending c).map Prod.snd = c.behindFrom? := by
  unfold readSource Cursor.behindFrom?
  split_ifs
  · cases c.str? 1 <;> rfl
  · rfl

namespace ExportDecl

/-- the module behind `from`, with which the export of all names ends -/
def readModule (line : Nat) (clause : ExportClause) (c : Cursor) : Option (Option ExportDecl × Cursor) :=
  if c.isIdent 0 "from" then do
    let specifier ← c.str? 1
    some (some ⟨some specifier, clause, line⟩, c.skip 2)
  else some (none, c)

theorem readAll_eq_bind (line : Nat) (c : Cursor) : readAll line c =
    if c.isIdent 0 "as" then (c.name? 1).bind fun name => readModule line (.wildcard name) (c.skip 2)
      else readModule line .all c := by
  unfold readAll readModule
  by_cases has : c.isIdent 0 "as" = true
  · rw [if_pos has, if_pos has]
    cases c.name? 1 <;> rfl
  · rw [if_neg has, if_neg has]
    rfl

theorem place_readModule (line : Nat) (clause : ExportClause) (c : Cursor) :
    (readModule line clause c).map Prod.snd = c.behindFrom? := by
  unfold readModule Cursor.behindFrom?
  split_ifs
  · cases c.str? 1 <;> rfl
  · rfl

end ExportDecl

variable {c : Cursor}

/-! ## Declarations -/

theorem Decorator.readAll?_eq (source : List Char) (c : Cursor) : readAll? source c =
    if c.isPunct 0 '@' then
      (read? source c).bind fun r => (readAll? source r.2).map fun s => (r.1 :: s.1, s.2) else some ([], c) := by
  rw [readAll?]
  split_ifs
  · split
    · rename_i hnone
      rw [hnone]
      rfl
    · rename_i d k hsome
      rw [hsome]
      rfl
  · rfl

namespace Declaration

theorem Modifiers.read_of_some {m m' : Modifiers} (h : m.add? c = some m') :
    Modifiers.read m c = Modifiers.read m' c.next := by
  rw [Modifiers.read]
  split
  · rename_i m'' hm
    rw [h] at hm
    cases hm
    rfl
  · rename_i hm
    rw [h] at hm
    cases hm

theorem Modifiers.read_of_none {m : Modifiers} (h : m.add? c = none) : Modifiers.read m c = (m, c) := by
  rw [Modifiers.read]
  split
  · rename_i m' hm
    rw [h] at hm
    cases hm
  · rfl

/-- what is read behind the decorators -/
def readWords (decorators : List Decorator) (start : Cursor) (first : Token) (c : Cursor) :
    Option (Option Declaration × Cursor) :=
  match ((Modifiers.read {} c).2.ident? 0).bind kindOf? with
  | none => some (none, (Modifiers.read {} c).2)
  | some kind => readRest kind (Modifiers.read {} c).1 decorators start first (Modifiers.read {} c).2.next

theorem read?_eq {source : List Char} {start : Cursor} {t : Token} (h : start.rest.head? = some t) :
    Declaration.read? source start = (Decorator.readAll? source start).bind fun r => readWords r.1 start t r.2 := by
  unfold Declaration.read? readWords
  rw [h]
  cases Decorator.readAll? source start <;> rfl

theorem exists_words_of_read? {source : List Char} {r : Option Declaration × Cursor}
    (hr : Declaration.read? source c = some r) :
    ∃ first decorators c₁, c.rest.head? = some first ∧ Decorator.readAll? source c = some (decorators, c₁) ∧
      readWords decorators c first c₁ = some r := by
  obtain ⟨first, hfirst, -⟩ := Option.bind_eq_some_iff.1 hr
  rw [read?_eq hfirst] at hr
  obtain ⟨⟨decorators, c₁⟩, hall, hwords⟩ := Option.bind_eq_some_iff.1 hr
  exact ⟨first, decorators, c₁, hfirst, hall, hwords⟩

/-- a declaration that is summarised has been read word by word: its decorators, its modifiers, and the word for its
kind -/
theorem exists_rest_of_read? {source : List Char} {d : Declaration} {c' : Cursor}
    (hr : Declaration.read? source c = some (some d, c')) :
    ∃ first decorators c₁ kind, c.rest.head? = some first ∧ Decorator.readAll? source c = some (decorators, c₁) ∧
      ((Modifiers.read {} c₁).2.ident? 0).bind kindOf? = some kind ∧
      readRest kind (Modifiers.read {} c₁).1 decorators c first (Modifiers.read {} c₁).2.next = some (some d, c') := by
  obtain ⟨first, decorators, c₁, hfirst, hall, hwords⟩ := exists_words_of_read? hr
  unfold readWords at hwords
  split at hwords
  · cases hwords
  · rename_i kind hkind
    exact ⟨first, decorators, c₁, kind, hfirst, hall, hkind, hwords⟩

/-- behind the word for its kind it has a name, which ends at `c₂`, the class or interface lists, and its body -/
theorem exists_name_of_readRest {kind : DeclKind} {mods : Modifiers} {decorators : List Decorator} {start : Cursor}
    {first : Token} {d : Declaration} {c' : Cursor}
    (hr : readRest kind mods decorators start first c = some (some d, c')) :
    ∃ name c₂, readName? kind mods.isDefault (if kind == .functionDecl && c.isPunct 0 '*' then c.next else c) =
      some (name, c₂) ∧ c' = (readHeritage kind c₂.skipTypeArguments).2 ∧
      d = {
        name := name
        kind := kind
        exported := mods.exported
        isDefault := mods.isDefault
        ambient := mods.ambient
        doc := start.prev.bind docOf?
        decorators := decorators
        heritage := (readHeritage kind c₂.skipTypeArguments).1
        members := (readBody kind c').2
        body := (readBody kind c').1
        start := first.start
        line := first.line } := by
  unfold readRest at hr
  simp only at hr
  split at hr
  · cases hr
  · rename_i name c₂ hname
    split_ifs at hr
    cases hr
    exact ⟨name, c₂, hname, rfl, rfl⟩

end Declaration

/-! ## Statements -/

namespace ModuleSummary

/-- what a statement gives where a declaration is read or not -/
def itemOf (start : Cursor) : Option (Option Declaration × Cursor) → Option Item × Cursor
  | some (d, c) => (d.map .declaring, c)
  | none => (none, start.next)

theorem readDeclaration_eq_itemOf (source : List Char) (c : Cursor) :
    readDeclaration source c = itemOf c (Declaration.read? source c) := by
  unfold readDeclaration
  split
  · rename_i h
    rw [h]
    rfl
  · rename_i h
    rw [h]
    rfl

/-- what a statement gives where an export is read or not -/
def exportOf (start : Cursor) : Option (Option ExportDecl × Cursor) → Option Item × Cursor
  | some (d, c) => (d.map .exporting, c)
  | none => (none, start.next)

/-- what a statement gives behind `export` where no clause is ahead: a default name, nothing, or a declaration -/
def exportRest (source : List Char) (line : Nat) (start : Cursor) : Option Item × Cursor :=
  match ExportDecl.readDefault? line start.next with
  | some (d, c) => (some (.exporting d), c)
  | none =>
    if start.next.isIdent 0 "import" || start.next.isIdent 0 "as" then (none, start.next.next)
      else readDeclaration source start

theorem readExport_eq (source : List Char) (line : Nat) (start : Cursor) : readExport source line start =
    if start.next.isPunct 0 '=' then (some (.assigning line), start.next.next)
    else if start.next.isPunct 0 '*' then exportOf start (ExportDecl.readAll line start.next.next)
    else if start.next.isIdent 0 "type" &&
      start.next.isPunct 1 '{' then exportOf start (ExportDecl.readNamed line start.next.next)
    else if start.next.isPunct 0 '{' then exportOf start (ExportDecl.readNamed line start.next)
    else exportRest source line start := by
  unfold readExport
  by_cases htype : (start.next.isIdent 0 "type" && start.next.isPunct 1 '{') = true
  · have hbrace : start.next.next.isPunct 0 '{' = true := by
      rw [← Cursor.isPunct_add_one]
      exact (Bool.and_eq_true_iff.1 htype).2
    simp only [htype, hbrace, if_true]
    cases ExportDecl.readAll line start.next.next <;> cases ExportDecl.readNamed line start.next.next <;> rfl
  · simp only [if_neg htype, exportRest]
    cases ExportDecl.readAll line start.next.next <;> cases ExportDecl.readNamed line start.next <;>
      cases ExportDecl.readDefault? line start.next <;> rfl

end ModuleSummary

end ClosurePipeline
