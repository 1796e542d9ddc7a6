/-
Import and export clauses. A reader takes the cursor at the statement's first word and gives what it found, if anything,
with the place to go on from. A statement it cannot make sense of is left behind its first word.
-/
import ClosurePipeline.Module.Cursor
import ClosurePipeline.Module.Summary

namespace ClosurePipeline

/-- a name between the braces of a clause, and what it is called on the other side -/
structure NamedElement where
  name : String
  shown : String
deriving DecidableEq, Repr

namespace NamedElement

/-- steps over the word `type` in front of a name -/
def skipType (t : Token) (ts : List Token) : Token × List Token :=
  match ts with
  | u :: more => if t.isIdent "type" && u.name?.isSome && !u.isIdent "as" then (u, more) else (t, ts)
  | [] => (t, ts)

/-- what `name` is called by a following `as`, and the tokens behind that -/
def shownAs (name : String) (ts : List Token) : String × List Token :=
  match ts with
  | a :: b :: more =>
    match a.isIdent "as", b.name? with
    | true, some shown => (shown, more)
    | _, _ => (name, ts)
  | _ => (name, ts)

/-- the tokens behind the next comma -/
def behindComma : List Token → List Token
  | [] => []
  | t :: ts => if t.isPunct ',' then ts else behindComma ts

theorem length_skipType_le (t : Token) (ts : List Token) : (skipType t ts).2.length ≤ ts.length := by
  unfold skipType
  split
  · split <;> simp
  · simp

theorem length_shownAs_le (name : String) (ts : List Token) : (shownAs name ts).2.length ≤ ts.length := by
  unfold shownAs
  split
  · split
    · simp only [List.length_cons]; omega
    · simp
  · simp

theorem length_behindComma_le (ts : List Token) : (behindComma ts).length ≤ ts.length := by
  induction ts with
  | nil => simp [behindComma]
  | cons t ts ih =>
    simp only [behindComma]
    split <;> simp only [List.length_cons] <;> omega

/-- the elements of a clause: `a`, `b as c` and `type d`, divided by commas -/
def list : List Token → List NamedElement
  | [] => []
  | t :: ts =>
    let head := skipType t ts
    match head.1.name? with
    | none => list head.2
    | some name =>
      let shown := shownAs name head.2
      ⟨name, shown.1⟩ :: list (behindComma shown.2)
termination_by ts => ts.length
decreasing_by
  · have := length_skipType_le t ts
    simp only [List.length_cons]
    omega
  · have h1 := length_skipType_le t ts
    have h2 := length_shownAs_le name (skipType t ts).2
    have h3 := length_behindComma_le (shownAs name (skipType t ts).2).2
    simp only [List.length_cons]
    omega

end NamedElement

namespace ImportDecl

/-- a binding whose module is not known yet -/
structure Pending where
  localName : String
  sourceName : String
  kind : ImportKind
deriving DecidableEq, Repr

/-- the binding in module `specifier` -/
def Pending.bind (specifier : String) (p : Pending) : ImportBinding := ⟨p.localName, p.sourceName, specifier, p.kind⟩

/-- the word `type` of a type-only import, not taken for a name -/
def skipType (c : Cursor) : Cursor :=
  if c.isIdent 0 "type" && !c.isIdent 1 "from" && !c.isPunct 1 ',' && !c.isPunct 1 '=' then c.next else c

/-- `import x = require('m')` behind the name; another assignment imports nothing -/
def readRequire (name : String) (line : Nat) (c : Cursor) : Option ImportDecl × Cursor :=
  if c.isIdent 2 "require" && c.isPunct 3 '(' then
    match c.str? 4 with
    | some specifier => (some ⟨specifier, [⟨name, "*", specifier, .wildcard⟩], line⟩, c.skip 5)
    | none => (none, c.skip 2)
  else (none, c.skip 2)

/-- the module behind `from`, and with it the import -/
def readSource (line : Nat) (pending : List Pending) (c : Cursor) : Option (Option ImportDecl × Cursor) :=
  if c.isIdent 0 "from" then do
    let specifier ← c.str? 1
    some (some ⟨specifier, pending.map (Pending.bind specifier), line⟩, c.skip 2)
  else some (none, c)

/-- `* as n` or the names in braces, and the module -/
def readBindings (line : Nat) (pending : List Pending) (c : Cursor) : Option (Option ImportDecl × Cursor) :=
  if c.isPunct 0 '*' then
    if c.isIdent 1 "as" then do
      let name ← c.ident? 2
      readSource line (pending ++ [⟨name, "*", .wildcard⟩]) (c.skip 3)
    else some (none, c.next)
  else if c.isPunct 0 '{' then do
    let e ← c.enclosed? '{' '}'
    readSource line (pending ++ (NamedElement.list e.inner).map fun n => ⟨n.shown, n.name, .named⟩) e.after
  else readSource line pending c

/-- the clause of an import: a default name first, if there is one -/
def readClause (line : Nat) (c : Cursor) : Option (Option ImportDecl × Cursor) :=
  match (c.ident? 0).filter (· ≠ "from") with
  | some name =>
    if c.isPunct 1 '=' then some (readRequire name line c)
    else readBindings line [⟨name, "default", .default⟩] (if c.isPunct 1 ',' then c.skip 2 else c.skip 1)
  | none => readBindings line [] c

/-- an import behind its first word -/
def read (line : Nat) (c : Cursor) : Option ImportDecl × Cursor :=
  if c.isPunct 0 '(' || c.isPunct 0 '.' then (none, c)
  else
    match c.str? 0 with
    | some specifier => (some ⟨specifier, [], line⟩, c.next)
    | none => (readClause line (skipType c)).getD (none, c)

end ImportDecl

namespace ExportDecl

/-- what follows `export *`: perhaps a name, then the module -/
def readAll (line : Nat) (c : Cursor) : Option (Option ExportDecl × Cursor) := do
  let (clause, c) : ExportClause × Cursor ←
    if c.isIdent 0 "as" then (c.name? 1).map fun name => (.wildcard name, c.skip 2) else some (.all, c)
  if c.isIdent 0 "from" then
    let specifier ← c.str? 1
    some (some ⟨some specifier, clause, line⟩, c.skip 2)
  else some (none, c)

/-- names in braces, from a module or not -/
def readNamed (line : Nat) (c : Cursor) : Option (Option ExportDecl × Cursor) := do
  let e ← c.enclosed? '{' '}'
  let (specifier, c) : Option String × Cursor :=
    if e.after.isIdent 0 "from" then (e.after.str? 1, e.after.skip 2) else (none, e.after)
  let bindings := (NamedElement.list e.inner).map fun n => ⟨n.shown, n.name, specifier⟩
  some (some ⟨specifier, .named bindings, line⟩, c)

/-- words that start a declaration behind `export default` -/
def defaultWords : List String := ["class", "function", "abstract", "async", "interface", "enum"]

/-- `export default x` for a name `x` that ends the statement; `c` is at `default` -/
def readDefault? (line : Nat) (c : Cursor) : Option (ExportDecl × Cursor) := do
  let name ← if c.isIdent 0 "default" then c.ident? 1 else none
  let ends := match c.rest[2]? with
    | none => true
    | some t => t.isPunct ';' || decide (line < t.line)
  if !defaultWords.contains name && ends then some (⟨none, .named [⟨"default", name, none⟩], line⟩, c.skip 2) else none

end ExportDecl

end ClosurePipeline
