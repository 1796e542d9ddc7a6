/-
The summary of a module's text. Three readings of the same tokens: classes anywhere, method calls anywhere, and
statements outside all braces. Only braces are counted; a statement that is not understood is left behind its first
token.
-/
import ClosurePipeline.Module.Clause
import ClosurePipeline.Module.Declaration
import ClosurePipeline.Token.Lexer

namespace ClosurePipeline.ModuleSummary

/-! ## Classes -/

/-- the word `class` behind `prev` starts a declaration, not an expression -/
def startsClass (prev : Option Token) (t : Token) : Bool :=
  match prev with
  | none => true
  | some p =>
    match p.kind with
    | .punct c => c == ';' || c == '{' || c == '}' || c == ')'
    | .doc _ => true
    | .ident w => w == "export" || w == "default" || w == "abstract" || w == "declare" || decide (p.line < t.line)
    | _ => false

/-- the class a token declares with the tokens behind it -/
def class? (prev : Option Token) (t : Token) (ts : List Token) : Option ClassName := do
  let name ← if t.isIdent "class" then ts.head?.bind Token.ident? else none
  if name != "extends" && name != "implements" && startsClass prev t then some ⟨name, t.line⟩ else none

/-- the classes declared in tokens behind `prev` -/
def classesFrom (prev : Option Token) : List Token → List ClassName
  | [] => []
  | t :: ts => (class? prev t ts).toList ++ classesFrom (some t) ts

/-! ## Calls -/

/-- words that are no bare name as an argument -/
def reservedArguments : List String :=
  ["this", "new", "function", "class", "true", "false", "null", "typeof", "void", "await", "async", "super", "yield"]

/-- a token that no type argument list holds -/
def isForeignToTypes (t : Token) : Bool := t.isPunct '(' || t.isPunct ')' || t.isPunct ';' || t.isPunct '&'

/-- the place of the parenthesis of a call whose callee ends here, behind type arguments if there are any; a comparison
is no list of them -/
def callParen? (c : Cursor) : Option Cursor :=
  let (types, after) := c.typeArguments
  if !types.any isForeignToTypes && after.isPunct 0 '(' then some after else none

/-- the first argument of a call at its parenthesis -/
def firstArgument (c : Cursor) : Option Argument :=
  match c.rest[1]? with
  | none => none
  | some t =>
    if t.isPunct ')' then none
    else
      match t.ident? with
      | some name =>
        if !reservedArguments.contains name && (c.isPunct 2 ')' || c.isPunct 2 ',') then some (.identifier name)
        else some .expression
      | none => some .expression

/-- the call of the method `t` behind `prev`, if that is a dot -/
def call? (prev t : Token) (ts : List Token) : Option CallSite := do
  let method ← if prev.isPunct '.' then t.ident? else none
  let paren ← callParen? ⟨some t, ts⟩
  some ⟨method, firstArgument paren, t.line⟩

/-- the calls in tokens -/
def callsFrom : List Token → List CallSite
  | [] => []
  | prev :: ts =>
    match ts with
    | [] => []
    | t :: more => (call? prev t more).toList ++ callsFrom ts

/-! ## Statements -/

/-- a statement may start at `t` behind `prev` -/
def startsStatement (prev : Option Token) (t : Token) : Bool :=
  match prev with
  | none => true
  | some p =>
    match p.kind with
    | .punct c =>
      if c == ';' || c == '{' || c == '}' then true
      else if c == ')' || c == ']' then decide (p.line < t.line) else false
    | .doc _ => true
    | _ => decide (p.line < t.line)

/-- what a statement adds to the summary -/
inductive Item where
  | importing (d : ImportDecl)
  | exporting (d : ExportDecl)
  | declaring (d : Declaration)
  | assigning (line : Nat)
deriving DecidableEq, Repr

/-- words that start a declaration -/
def declarationWords : List String :=
  ["class", "function", "interface", "type", "enum", "const", "let", "var", "declare", "abstract", "async"]

/-- a declaration at its first token -/
def readDeclaration (source : List Char) (start : Cursor) : Option Item × Cursor :=
  match Declaration.read? source start with
  | some (d, c) => (d.map .declaring, c)
  | none => (none, start.next)

/-- an export at its first word -/
def readExport (source : List Char) (line : Nat) (start : Cursor) : Option Item × Cursor :=
  let c := start.next
  let found (r : Option (Option ExportDecl × Cursor)) : Option Item × Cursor :=
    match r with
    | some (d, c) => (d.map .exporting, c)
    | none => (none, start.next)
  if c.isPunct 0 '=' then (some (.assigning line), c.next)
  else if c.isPunct 0 '*' then found (ExportDecl.readAll line c.next)
  else
    let k := if c.isIdent 0 "type" && c.isPunct 1 '{' then c.next else c
    if k.isPunct 0 '{' then found (ExportDecl.readNamed line k)
    else
      match ExportDecl.readDefault? line k with
      | some (d, c) => (some (.exporting d), c)
      | none => if k.isIdent 0 "import" || k.isIdent 0 "as" then (none, k.next) else readDeclaration source start

/-- the statement at `t`, the first token ahead -/
def readStatement (source : List Char) (t : Token) (c : Cursor) : Option Item × Cursor :=
  match t.kind with
  | .ident w =>
    if w == "import" then let (d, c) := ImportDecl.read t.line c.next; (d.map .importing, c)
    else if w == "export" then readExport source t.line c
    else if declarationWords.contains w then readDeclaration source c
    else (none, c.next)
  | .punct ch => if ch == '@' then readDeclaration source c else (none, c.next)
  | _ => (none, c.next)

/-- the items of the statements ahead, `depth` braces being open -/
def itemsFrom (source : List Char) (depth : Nat) (c : Cursor) : List Item :=
  match _h : c.rest with
  | [] => []
  | t :: ts =>
    if t.isPunct '{' then itemsFrom source (depth + 1) ⟨some t, ts⟩
    else if t.isPunct '}' then itemsFrom source (depth - 1) ⟨some t, ts⟩
    else if 0 < depth || !startsStatement c.prev t then itemsFrom source depth ⟨some t, ts⟩
    else
      let read := readStatement source t c
      if _hlt : read.2.ahead < c.ahead then read.1.toList ++ itemsFrom source depth read.2
      else read.1.toList ++ itemsFrom source depth ⟨some t, ts⟩
termination_by c.ahead
decreasing_by
  all_goals first
    | exact _hlt
    | (simp only [Cursor.ahead, _h, List.length_cons]; omega)

/-! ## The summary -/

/-- adds an item to a summary -/
def add (m : ModuleSummary) : Item → ModuleSummary
  | .importing d => { m with imports := m.imports ++ [d] }
  | .exporting d => { m with exports := m.exports ++ [d] }
  | .declaring d => { m with declarations := m.declarations ++ [d] }
  | .assigning l => { m with exportAssignments := m.exportAssignments ++ [l] }

/-- the summary of tokens cut from `source` -/
def ofTokens (source : List Char) (ts : List Token) : ModuleSummary :=
  (itemsFrom source 0 (Cursor.start ts)).foldl add { classes := classesFrom none ts, calls := callsFrom ts }

/-- the summary of a text -/
def ofText (text : String) : ModuleSummary := ofTokens text.toList (Lexer.tokenize text.toList)

end ClosurePipeline.ModuleSummary
