/-
The entry of an application. Its main file makes one bootstrap call with a bare name; the name is followed through an
import, and from there through exports and directory indexes, to the file that declares the class.

The search for an export looks at each pair of a file and a name once, as the search for symbols does.
-/
import ClosurePipeline.Program.Generation

namespace ClosurePipeline

/-- where an application's root module is -/
structure EntryReference where
  /-- the file that declares it, without its ending -/
  modulePath : Path
  symbolName : String
deriving DecidableEq, Repr

namespace EntryReference

/-- path and name -/
def display (e : EntryReference) : String := e.modulePath.toSlash ++ "#" ++ e.symbolName

/-- path and name, read from a directory -/
def relativeTo (e : EntryReference) (dir : Path) : String := dir.dotRelativeTo e.modulePath ++ "#" ++ e.symbolName

end EntryReference

namespace Bootstrap

variable {σ : Type} [Host σ]

/-- the methods that start an application -/
def methods : List String := ["bootstrapModule", "bootstrapModuleFactory"]

/-- the bare names passed to bootstrap calls -/
def candidates (m : ModuleSummary) : List String :=
  m.calls.filterMap fun call =>
    if methods.contains call.method then
      match call.firstArgument with
      | some (.identifier name) => some name
      | _ => none
    else none

/-- the class a module declares under a name; `default` stands for the class exported as default -/
def declaredClass? (m : ModuleSummary) (name : String) : Option String :=
  if m.declaresClass name then some name
  else if name = "default" then
    match m.declarations.find? (·.isDefault) with
    | some d => if m.declaresClass d.name then some d.name else none
    | none => (m.localExportTarget? "default").filter m.declaresClass
  else none

/-- the unit of a file -/
def unit? (h : σ) (file : Path) : Option SourceUnit := (Host.read? h file).map (SourceUnit.parse file)

/-- the canonical path of the file or directory a specifier names -/
def resolve? (h : σ) (specifier : String) (file : Path) : Option Path :=
  (Host.resolveModule? h specifier file).map (Host.canonical h)

/-- pairs of a file and a name -/
abbrev Visited := List (Path × String)

/-- what a search gives: the declaring file and the class, or none, and the pairs looked at -/
abbrev Answer := Option (Path × String) × Visited

/-- follows the bindings of a clause that show `name`; a file must declare the class itself, a directory is searched -/
def searchBindings (h : σ) (search : Visited → Path → String → Answer) (target : Path) (name : String) :
    Visited → List ExportBinding → Answer
  | visited, [] => (none, visited)
  | visited, b :: bs =>
    if b.exportedName = name then
      let answer : Answer :=
        if Host.isDirectory h target then search visited target b.sourceName
        else
          match (unit? h target).bind fun u => declaredClass? u.summary b.sourceName with
          | some c => (some (target, c), visited)
          | none => (none, visited)
      match answer with
      | (some found, visited) => (some found, visited)
      | (none, visited) => searchBindings h search target name visited bs
    else searchBindings h search target name visited bs

/-- the first export of a file that leads on to the class -/
def searchExports (h : σ) (search : Visited → Path → String → Answer) (file : Path) (name : String) :
    Visited → List ExportDecl → Answer
  | visited, [] => (none, visited)
  | visited, e :: es =>
    match e.specifier.bind fun s => resolve? h s file with
    | none => searchExports h search file name visited es
    | some target =>
      let answer : Answer := match e.clause with
        | .all => search visited target name
        | .wildcard _ => (none, visited)
        | .named bindings => searchBindings h search target name visited bindings
      match answer with
      | (some found, visited) => (some found, visited)
      | (none, visited) => searchExports h search file name visited es

/-- the pair has been looked at -/
def isVisited (visited : Visited) (file : Path) (name : String) : Bool :=
  visited.any fun v => decide (file.Same v.1) && v.2 == name

/-- the file that declares the class a module exports under a name -/
def search (h : σ) : Nat → Visited → Path → String → Answer
  | 0, visited, _, _ => (none, visited)
  | fuel + 1, visited, path, name =>
    match Host.sourceFile? h path with
    | none => (none, visited)
    | some file =>
      if isVisited visited file name then (none, visited)
      else
        let visited := (file, name) :: visited
        match unit? h file with
        | none => (none, visited)
        | some unit =>
          match declaredClass? unit.summary name with
          | some c => (some (file, c), visited)
          | none => searchExports h (search h fuel) file name visited unit.summary.exports

/-- where a binding leads: a namespace to its own file, a name to the class behind it -/
def followBinding (h : σ) (path : Path) (symbol : String) (b : ImportBinding) : Option (Path × String) :=
  if b.kind == .wildcard then some ((Host.sourceFile? h path).getD path, symbol)
  else (search h (Host.pairBound h 0) [] path b.sourceName).1

/-- where an import leads that brings `symbol` into scope -/
def followImport (h : σ) (file : Path) (symbol : String) (d : ImportDecl) : Option (Path × String) :=
  match d.bindings.filter (·.localName == symbol) with
  | [] => none
  | bindings =>
    match resolve? h d.specifier file with
    | none => none
    | some path => bindings.findSome? (followBinding h path symbol)

/-- the entry of the application whose main file is `main` -/
def entry (h : σ) (main : Path) : Except Error EntryReference :=
  let file := Host.canonical h main
  match unit? h file with
  | none => .error (.fileNotFound main)
  | some unit =>
    match candidates unit.summary with
    | [symbol] =>
      match unit.summary.imports.findSome? (followImport h file symbol) with
      | some (leaf, name) => .ok ⟨leaf.withoutSourceEnding, name⟩
      | none => .error (.unresolvedSymbol main symbol)
    | found => .error (.ambiguousBootstrap main found.length)

end Bootstrap

end ClosurePipeline
