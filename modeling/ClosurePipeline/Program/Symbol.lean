/-
Symbols: which declaration a name in a file stands for, followed through imports and exports into other files. Files of
the generation are used as they are there, other files as the host has them.

The search remembers each pair of a file and an exported name it has looked at and looks at none twice. There are at
most `Checker.depth` such pairs, and that many steps are allowed.
-/
import ClosurePipeline.Program.Generation

namespace ClosurePipeline

/-- a declaration seen from outside -/
structure Symbol where
  name : String
  kind : DeclKind
  declaredIn : Path
  /-- the tags of its doc comment -/
  tags : List String
  /-- marked `declare`, or in a declaration file -/
  ambient : Bool
deriving DecidableEq, Repr

namespace Symbol

/-- the symbol of a declaration in a file -/
def ofDeclaration (d : Declaration) (file : Path) : Symbol :=
  ⟨d.name, d.kind, file, (d.doc.map (·.tags)).getD [], d.ambient || file.isDeclarationFile⟩

/-- the symbol's doc comment has this tag -/
def hasTag (s : Symbol) (tag : String) : Bool := s.tags.contains tag

end Symbol

/-- a generation with the host behind it -/
structure Checker (σ : Type) where
  generation : Generation
  host : σ

namespace Checker

variable {σ : Type} [Host σ]

/-- pairs of a file and an exported name -/
abbrev Visited := List (Path × String)

/-- the pair has been looked at -/
def isVisited (visited : Visited) (file : Path) (name : String) : Bool :=
  visited.any fun v => decide (file.Same v.1) && v.2 == name

/-- what a search gives: a symbol or none, and the pairs looked at -/
abbrev Answer := Option Symbol × Visited

/-- the unit of a file -/
def unit? (cx : Checker σ) (file : Path) : Option SourceUnit :=
  (cx.generation.units.get? file).or ((Host.read? cx.host file).map (SourceUnit.parse file))

/-- a name at its first dot -/
def splitDot? (name : String) : Option (String × String) :=
  match name.toList.dropWhile (· ≠ '.') with
  | _ :: rest => some (String.ofList (name.toList.takeWhile (· ≠ '.')), String.ofList rest)
  | [] => none

/-- what a name stands for inside a file; `exported` answers for the exports of other files -/
def lookupBy (cx : Checker σ) (exported : Visited → Path → String → Answer) (visited : Visited) (file : Path)
    (name : String) : Answer :=
  match cx.unit? file with
  | none => (none, visited)
  | some unit =>
    match splitDot? name with
    | some (head, rest) =>
      match (unit.summary.importBinding? head).filter (·.kind == .wildcard) with
      | none => (none, visited)
      | some binding =>
        match Host.resolveDependency? cx.host binding.specifier file with
        | none => (none, visited)
        | some target => exported visited target rest
    | none =>
      match unit.summary.declaration? name with
      | some d => (some (.ofDeclaration d unit.path), visited)
      | none =>
        match unit.summary.importBinding? name with
        | none => (none, visited)
        | some binding =>
          match Host.resolveDependency? cx.host binding.specifier file with
          | none => (none, visited)
          | some target =>
            if binding.kind == .wildcard then (none, visited) else exported visited target binding.sourceName

/-- the first export that leads on to a symbol -/
def searchExports (cx : Checker σ) (exported : Visited → Path → String → Answer) (file : Path) (name : String) :
    Visited → List ExportDecl → Answer
  | visited, [] => (none, visited)
  | visited, e :: es =>
    match e.specifier.bind fun s => Host.resolveDependency? cx.host s file with
    | none => searchExports cx exported file name visited es
    | some target =>
      let answer : Answer := match e.clause with
        | .all => exported visited target name
        | .named bindings =>
          match bindings.find? (·.exportedName == name) with
          | some b => exported visited target b.sourceName
          | none => (none, visited)
        | .wildcard _ => (none, visited)
      match answer with
      | (some s, visited) => (some s, visited)
      | (none, visited) => searchExports cx exported file name visited es

/-- an exported declaration of this name; `default` also finds a default under its own name -/
def ownExport? (m : ModuleSummary) (name : String) : Option Declaration :=
  m.declarations.find? fun d => d.exported && (d.name == name || (name == "default" && d.isDefault))

/-- what a file exports under a name -/
def exported (cx : Checker σ) : Nat → Visited → Path → String → Answer
  | 0, visited, _, _ => (none, visited)
  | fuel + 1, visited, file, name =>
    if isVisited visited file name then (none, visited)
    else
      let visited := (file, name) :: visited
      match cx.unit? file with
      | none => (none, visited)
      | some unit =>
        match ownExport? unit.summary name with
        | some d => (some (.ofDeclaration d unit.path), visited)
        | none =>
          match unit.summary.localExportTarget? name with
          | some target => cx.lookupBy (exported cx fuel) visited file target
          | none => cx.searchExports (exported cx fuel) file name visited unit.summary.exports

/-- how many pairs of a file and a name there are at most -/
def depth (cx : Checker σ) : Nat :=
  Host.pairBound cx.host (cx.generation.units.values.foldl (fun n u => n + u.text.length) 0)

/-- the declaration a name in a file stands for; the name may have a namespace in front of a dot -/
def resolve? (cx : Checker σ) (file : Path) (name : String) : Option Symbol :=
  (cx.lookupBy (cx.exported cx.depth) [] file name).1

end Checker

end ClosurePipeline
