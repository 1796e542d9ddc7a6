/-
Closure doc comments. Top-level declarations get the tags the Closure Compiler needs, an interface gets a record shim
behind its body, and ambient declarations are left alone and described in externs.

- `Tag.text_eq`: a tag in a comment is its name and perhaps a type; `Shim`, `shim_iff`: the shim of an interface, by
  rules;
- `tagsFor`: the tags a declaration needs and its comment does not have;
- `annotate`: the edit that puts tags into the comment in front of a declaration, or a comment in front of it;
- `apply`: the pass. It never fails.
-/
import ClosurePipeline.Edit.Script
import ClosurePipeline.Pass.Context
import ClosurePipeline.Text.Joined

namespace ClosurePipeline.Pass.ClosureDocs

/-- a tag of a Closure doc comment -/
inductive Tag where
  | extending (type : String)
  | implementing (type : String)
  | record
  | enumeration
  | exporting
deriving DecidableEq, Repr

namespace Tag

/-- the name of a tag -/
def name : Tag → String
  | extending _ => "extends"
  | implementing _ => "implements"
  | record => "record"
  | enumeration => "enum"
  | exporting => "export"

/-- the tag as it stands in a comment -/
def text : Tag → String
  | extending t => "@extends \x7b" ++ t ++ "\x7d"
  | implementing t => "@implements \x7b" ++ t ++ "\x7d"
  | record => "@record"
  | enumeration => "@enum \x7bnumber\x7d"
  | exporting => "@export"

/-- the type that a tag gives -/
def type? : Tag → Option String
  | extending t => some t
  | implementing t => some t
  | enumeration => some "number"
  | _ => none

/-- in a comment, a tag is an at sign and its name, and its type in braces behind a blank -/
theorem text_eq (t : Tag) : t.text = "@" ++ t.name ++ t.type?.elim "" fun type => " \x7b" ++ type ++ "\x7d" := by
  cases t with
  | extending type => simp [text, name, type?, ← String.toList_inj]
  | implementing type => simp [text, name, type?, ← String.toList_inj]
  | _ => decide

end Tag

/-! ## Shims and externs -/

/-- a name that can stand behind a dot -/
def isIdentifier (name : String) : Bool :=
  match name.toList with
  | [] => false
  | c :: cs =>
    (Text.isAlphabetic c || c = '_' || c = '$') && cs.all fun d => Text.isAlphanumeric d || d = '_' || d = '$'

/-- a member of the prototype of `owner` -/
def memberAccess (owner member : String) : String :=
  if isIdentifier member then owner ++ ".prototype." ++ member else owner ++ ".prototype['" ++ member ++ "']"

/-- the comment for a member of unknown type -/
def anyType : String := "/** @type \x7b?\x7d */"

/-- the shim behind an interface -/
def recordShim (d : Declaration) : String :=
  "\nfunction " ++ d.name ++ "() \x7b\x7d" ++
    String.join (d.members.map fun m => "\n" ++ anyType ++ "\n" ++ memberAccess d.name m ++ ";")

/-- a name that can stand behind a dot, by its characters -/
def IsIdentifier (name : String) : Prop :=
  ∃ c cs, name.toList = c :: cs ∧ (Text.isAlphabetic c = true ∨ c = '_' ∨ c = '$') ∧
    ∀ d ∈ cs, Text.isAlphanumeric d = true ∨ d = '_' ∨ d = '$'

theorem isIdentifier_iff {name : String} : isIdentifier name = true ↔ IsIdentifier name := by
  unfold isIdentifier IsIdentifier
  cases name.toList with
  | nil => simp
  | cons c cs =>
    simp only [Bool.and_eq_true, Bool.or_eq_true, decide_eq_true_eq, List.all_eq_true, or_assoc, List.cons.injEq]
    exact ⟨fun h => ⟨c, cs, ⟨rfl, rfl⟩, h⟩, fun ⟨_, _, ⟨rfl, rfl⟩, h⟩ => h⟩

/-- what a shim has for a member of `owner`: behind a dot or, if it is no identifier, as a string in brackets -/
inductive MemberLine (owner member : String) : String → Prop where
  | dot (h : IsIdentifier member) :
    MemberLine owner member ("\n/** @type \x7b?\x7d */\n" ++ owner ++ ".prototype." ++ member ++ ";")
  | brackets (h : ¬ IsIdentifier member) :
    MemberLine owner member ("\n/** @type \x7b?\x7d */\n" ++ owner ++ ".prototype['" ++ member ++ "'];")

theorem memberLine_iff {owner : String} (member line : String) :
    MemberLine owner member line ↔ line = "\n" ++ anyType ++ "\n" ++ memberAccess owner member ++ ";" := by
  have hdot : IsIdentifier member → "\n" ++ anyType ++ "\n" ++ memberAccess owner member ++ ";" =
      "\n/** @type \x7b?\x7d */\n" ++ owner ++ ".prototype." ++ member ++ ";" := by
    intro h
    simp [memberAccess, isIdentifier_iff.2 h, anyType, ← String.toList_inj]
  have hbrackets : ¬ IsIdentifier member → "\n" ++ anyType ++ "\n" ++ memberAccess owner member ++ ";" =
      "\n/** @type \x7b?\x7d */\n" ++ owner ++ ".prototype['" ++ member ++ "'];" := by
    intro h
    simp [memberAccess, mt isIdentifier_iff.1 h, anyType, ← String.toList_inj]
  constructor
  · rintro (h | h)
    · exact (hdot h).symm
    · exact (hbrackets h).symm
  · rintro rfl
    by_cases h : IsIdentifier member
    · rw [hdot h]
      exact .dot h
    · rw [hbrackets h]
      exact .brackets h

/-- the shim of an interface: a function of its name, and a line for each of its members in order -/
inductive Shim (d : Declaration) : String → Prop where
  | mk {lines : String} (h : Text.Joined (MemberLine d.name) d.members lines) :
    Shim d ("\nfunction " ++ d.name ++ "() \x7b\x7d" ++ lines)

theorem shim_iff {d : Declaration} {text : String} : Shim d text ↔ text = recordShim d := by
  constructor
  · rintro ⟨h⟩
    rw [(Text.joined_iff memberLine_iff).1 h, recordShim]
  · rintro rfl
    exact .mk ((Text.joined_iff memberLine_iff).2 rfl)

/-- the externs of an ambient declaration -/
def externOf (d : Declaration) : String :=
  match d.kind with
  | .classDecl => "/** @constructor */\nfunction " ++ d.name ++ "() \x7b\x7d\n"
  | .interfaceDecl =>
    "/** @record */\nfunction " ++ d.name ++ "() \x7b\x7d\n" ++
      String.join (d.members.map fun m => anyType ++ "\n" ++ memberAccess d.name m ++ ";\n")
  | .functionDecl => "/** @return \x7b?\x7d */\nfunction " ++ d.name ++ "() \x7b\x7d\n"
  | .variableDecl => anyType ++ "\nvar " ++ d.name ++ ";\n"
  | .enumDecl => "/** @enum \x7bnumber\x7d */\nvar " ++ d.name ++ " = \x7b\x7d;\n"
  | .typeAlias => ""

/-! ## Tags -/

/-- a name stands for a declaration of one of these kinds -/
def resolvesTo (cx : Context) (file : Path) (kinds : List DeclKind) (name : String) : Bool :=
  ((cx.symbol? file name).map fun s => kinds.contains s.kind).getD false

/-- the tags of a class: the base it extends and what it implements, as far as they are known -/
def classTags (cx : Context) (file : Path) (d : Declaration) : List Tag :=
  ((d.heritage.extended.take 1).filter (resolvesTo cx file [.classDecl])).map .extending ++
    (d.heritage.implemented.filter (resolvesTo cx file [.interfaceDecl, .classDecl])).map .implementing

/-- the tags of an interface -/
def interfaceTags (cx : Context) (file : Path) (d : Declaration) : List Tag :=
  .record :: (d.heritage.extended.filter (resolvesTo cx file [.interfaceDecl])).map .extending

/-- the tags of a declaration, whatever its comment has -/
def allTags (cx : Context) (file : Path) (d : Declaration) : List Tag :=
  let own := match d.kind with
    | .classDecl => classTags cx file d
    | .interfaceDecl => interfaceTags cx file d
    | .enumDecl => [.enumeration]
    | _ => []
  own ++ (if d.exported && d.kind != .typeAlias then [.exporting] else [])

/-- the tags a declaration needs and its comment does not have -/
def tagsFor (cx : Context) (file : Path) (d : Declaration) : List Tag :=
  (allTags cx file d).filter fun t => !d.hasTag t.name

/-! ## Edits -/

/-- a comment of its own in front of a declaration -/
def newComment (indent : String) : List Tag → String
  | [tag] => "/** " ++ tag.text ++ " */\n" ++ indent
  | tags => "/**\n" ++ String.join (tags.map fun t => indent ++ " * " ++ t.text ++ "\n") ++ indent ++ " */\n" ++ indent

/-- the edit that adds tags to a comment: above its last line if nothing but the closing stands there, else
on new lines -/
def extendComment (source : List Char) (doc : DocComment) (tags : List Tag) : Edit :=
  let close := doc.span.stop - 2
  let inside := Text.slice source doc.span.start close
  let lastLine := (inside.reverse.takeWhile (· ≠ '\n')).reverse
  if inside.contains '\n' && Text.isAllBlank lastLine then
    Edit.insert (close - Text.byteLength lastLine)
      (String.join (tags.map fun t => String.ofList lastLine ++ "* " ++ t.text ++ "\n")).toList
  else
    let indent := String.ofList (EditScript.indentation source doc.span.start)
    ⟨doc.span.start + Text.byteLength (Text.trimEnd inside), doc.span.stop,
      (String.join (tags.map fun t => "\n" ++ indent ++ " * " ++ t.text) ++ "\n" ++ indent ++ " */").toList⟩

/-- the edit that gives a declaration its tags -/
def annotate (source : List Char) (d : Declaration) (tags : List Tag) : Edit :=
  match d.doc with
  | none => Edit.insert d.start (newComment (String.ofList (EditScript.indentation source d.start)) tags).toList
  | some doc => extendComment source doc tags

/-- a declaration that is only described -/
def isAmbient (unit : SourceUnit) (d : Declaration) : Bool := unit.path.isDeclarationFile || d.ambient

/-- the edits for a declaration -/
def editsFor (cx : Context) (unit : SourceUnit) (d : Declaration) : List Edit :=
  if isAmbient unit d then []
  else
    let tags := tagsFor cx unit.path d
    let comment := if tags.isEmpty then [] else [annotate unit.text.toList d tags]
    let shim := match d.kind, d.body with
      | .interfaceDecl, some body => [Edit.insert body.stop (recordShim d).toList]
      | _, _ => []
    comment ++ shim

/-! ## Diagnostics -/

/-- what there is to say about an `export =` statement -/
def assignmentDiagnostic (file : Path) (line : Nat) : Diagnostic :=
  .atLine .error "NGPASS_EXPORT_ASSIGNMENT" "`export =` cannot be expressed as a Closure module export" file line

/-- a type in the comment of a declaration is not needed -/
def typeDiagnostics (file : Path) (d : Declaration) : List Diagnostic :=
  if d.hasTag "type" then
    [.atLine .warning "NGPASS_JSDOC_TYPE" ("@type annotation on " ++ d.name ++ " is redundant with its declared type")
      file d.line]
  else []

/-- the types a class implements that are not known -/
def implementsDiagnostics (cx : Context) (file : Path) (d : Declaration) : List Diagnostic :=
  if d.kind == .classDecl then
    (d.heritage.implemented.filter fun t => !resolvesTo cx file [.interfaceDecl, .classDecl] t).map fun t =>
      .atLine .warning "NGPASS_UNRESOLVED_IMPLEMENTS"
        ("could not resolve type " ++ t ++ " implemented by " ++ d.name) file d.line
  else []

/-- what there is to say about a declaration -/
def diagnosticsFor (cx : Context) (unit : SourceUnit) (d : Declaration) : List Diagnostic :=
  typeDiagnostics unit.path d ++ if isAmbient unit d then [] else implementsDiagnostics cx unit.path d

/-- what there is to say about a unit; where warnings are ignored, only errors -/
def diagnostics (cx : Context) (unit : SourceUnit) : List Diagnostic :=
  let all := unit.summary.exportAssignments.map (assignmentDiagnostic unit.path) ++
    unit.summary.declarations.flatMap (diagnosticsFor cx unit)
  if cx.policy.ignoresWarnings unit.path then all.filter Diagnostic.isError else all

/-! ## The pass -/

/-- the externs of a unit -/
def externs (unit : SourceUnit) : Option String :=
  let text := String.join ((unit.summary.declarations.filter (isAmbient unit)).map externOf)
  if text.isEmpty then none else some text

/-- the pass -/
def apply (cx : Context) (unit : SourceUnit) : Output :=
  let es := unit.summary.declarations.flatMap (editsFor cx unit)
  if es.isEmpty then { text := unit.text, diagnostics := diagnostics cx unit, externs := externs unit }
  else
    let (text, fragment) := EditScript.run unit.text.toList es []
    { text := String.ofList text, fragment := some fragment, diagnostics := diagnostics cx unit,
      externs := externs unit }

end ClosurePipeline.Pass.ClosureDocs
