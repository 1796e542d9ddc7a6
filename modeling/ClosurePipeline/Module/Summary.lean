/-
What a module shows at its surface: imports, exports, top-level declarations with their doc comments and decorators, the
classes it declares anywhere, and the method calls it makes. Nothing below that level is kept.
-/
import ClosurePipeline.Text.Blank
import ClosurePipeline.Text.Letter

namespace ClosurePipeline

/-- a byte range of a text -/
structure Span where
  start : Nat
  stop : Nat
deriving DecidableEq, Repr

/-- how an import brings a name into scope -/
inductive ImportKind where
  /-- `import * as n from 'm'` -/
  | wildcard
  /-- `import { a, b as c } from 'm'` -/
  | named
  /-- `import d from 'm'` -/
  | default
deriving DecidableEq, Repr

/-- a name that an import brings into scope -/
structure ImportBinding where
  /-- the name in this module -/
  localName : String
  /-- the name in the module imported: `*` for all of it, `default` for its default -/
  sourceName : String
  /-- the module, as written -/
  specifier : String
  kind : ImportKind
deriving DecidableEq, Repr

/-- an import; one without bindings is there for its effects -/
structure ImportDecl where
  specifier : String
  bindings : List ImportBinding
  line : Nat
deriving DecidableEq, Repr

/-- a name in an export clause -/
structure ExportBinding where
  exportedName : String
  sourceName : String
  /-- the module the name is taken from, if not from this one -/
  specifier : Option String
deriving DecidableEq, Repr

/-- what an export passes on -/
inductive ExportClause where
  /-- `export * from 'm'` -/
  | all
  /-- `export * as n from 'm'` -/
  | wildcard (name : String)
  /-- `export { a, b as c }`, from a module or not -/
  | named (bindings : List ExportBinding)
deriving DecidableEq, Repr

/-- an export clause; exported declarations are declarations -/
structure ExportDecl where
  specifier : Option String
  clause : ExportClause
  line : Nat
deriving DecidableEq, Repr

/-- what a declaration declares -/
inductive DeclKind where
  | classDecl
  | functionDecl
  | interfaceDecl
  | typeAlias
  | enumDecl
  | variableDecl
deriving DecidableEq, Repr

/-- a doc comment in front of a declaration -/
structure DocComment where
  text : String
  span : Span
  /-- the names of its tags -/
  tags : List String
deriving DecidableEq, Repr

namespace DocComment

/-- a character at which the words of a doc comment end -/
def isSeparator (c : Char) : Bool := Text.isBlank c || c = '*' || c = '/'

/-- a character that may end the name of a tag -/
def isTagEnd (c : Char) : Bool := Text.isAlphanumeric c || c = '_' || c = '$'

/-- the tag a word names, if it starts with an at sign -/
def tag? : List Char → Option String
  | '@' :: cs =>
    match Text.trimEndOf (fun c => !isTagEnd c) cs with
    | [] => none
    | name => some (String.ofList name)
  | _ => none

/-- the tags of a text -/
def tagsOf (cs : List Char) : List String := (cs.splitOnP isSeparator).filterMap tag?

/-- a doc comment with its tags read off -/
def ofText (text : String) (span : Span) : DocComment := ⟨text, span, tagsOf text.toList⟩

/-- the comment has this tag -/
def hasTag (d : DocComment) (tag : String) : Bool := d.tags.contains tag

end DocComment

/-- a decorator of a declaration -/
structure Decorator where
  /-- its name, dots included -/
  name : String
  /-- the text between its parentheses, if it has them -/
  arguments : Option String
  /-- from the at sign to the name's or the parentheses' end -/
  span : Span
  line : Nat
deriving DecidableEq, Repr

/-- the types a class or interface builds on -/
structure Heritage where
  extended : List String := []
  implemented : List String := []
deriving DecidableEq, Repr

/-- a top-level declaration -/
structure Declaration where
  name : String
  kind : DeclKind
  exported : Bool
  isDefault : Bool
  /-- marked `declare` -/
  ambient : Bool
  doc : Option DocComment
  decorators : List Decorator
  heritage : Heritage
  /-- the members of an interface -/
  members : List String
  /-- the braces of a class, interface or enum and all between them -/
  body : Option Span
  /-- the byte at which the statement starts, decorators included -/
  start : Nat
  line : Nat
deriving DecidableEq, Repr

namespace Declaration

/-- the declaration's comment has this tag -/
def hasTag (d : Declaration) (tag : String) : Bool := (d.doc.map (·.hasTag tag)).getD false

end Declaration

/-- a class declared somewhere in the module -/
structure ClassName where
  name : String
  line : Nat
deriving DecidableEq, Repr

/-- the first argument of a call -/
inductive Argument where
  /-- a bare name -/
  | identifier (name : String)
  | expression
deriving DecidableEq, Repr

/-- a call of a method -/
structure CallSite where
  method : String
  /-- nothing if there is no argument -/
  firstArgument : Option Argument
  line : Nat
deriving DecidableEq, Repr

/-- the surface of a module -/
structure ModuleSummary where
  imports : List ImportDecl := []
  exports : List ExportDecl := []
  declarations : List Declaration := []
  classes : List ClassName := []
  calls : List CallSite := []
  /-- the lines of `export =` statements -/
  exportAssignments : List Nat := []
deriving DecidableEq, Repr

namespace ModuleSummary

/-- a class of this name is declared somewhere -/
def declaresClass (m : ModuleSummary) (name : String) : Bool := m.classes.any (·.name == name)

/-- the first top-level declaration of this name -/
def declaration? (m : ModuleSummary) (name : String) : Option Declaration := m.declarations.find? (·.name == name)

/-- the first import binding of this name -/
def importBinding? (m : ModuleSummary) (name : String) : Option ImportBinding :=
  (m.imports.flatMap (·.bindings)).find? (·.localName == name)

/-- what an export clause without a module calls `name` here -/
def ExportDecl.localTarget? (name : String) (e : ExportDecl) : Option String :=
  match e.specifier, e.clause with
  | none, .named bindings => (bindings.find? (·.exportedName == name)).map (·.sourceName)
  | _, _ => none

/-- the local name exported as `name` -/
def localExportTarget? (m : ModuleSummary) (name : String) : Option String :=
  m.exports.findSome? (ExportDecl.localTarget? name)

/-- the modules imported and then those exported from, each once -/
def moduleSpecifiers (m : ModuleSummary) : List String :=
  (m.imports.map (·.specifier) ++ m.exports.filterMap (·.specifier)).eraseDups

end ModuleSummary

end ClosurePipeline
