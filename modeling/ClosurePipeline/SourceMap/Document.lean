/-
Source maps as JSON documents of version 3.

- `SourceMap.parse`: the map a document holds, or why it holds none;
- `SourceMap.toDocument`, `SourceMap.render`: the document of a map and its text. Source texts are written only if one
  is known.
-/
import ClosurePipeline.Json.Reader
import ClosurePipeline.Json.Record
import ClosurePipeline.SourceMap.Mappings

namespace ClosurePipeline.SourceMap

/-- why a text holds no source map -/
inductive Fault where
  /-- not the JSON of a source map -/
  | json
  | version (n : Nat)
  | mappings (cause : Mappings.Fault)
deriving DecidableEq, Repr

/-- the wording of a fault -/
def Fault.message : Fault → String
  | json => "invalid JSON"
  | version n => "unsupported source map version " ++ toString n
  | mappings cause => "invalid mappings: " ++ cause.message

/-- the members of a source map document, mappings still as text -/
structure Document where
  version : Nat
  file : Option String := none
  sourceRoot : Option String := none
  sources : List String := []
  contents : Option (List (Option String)) := none
  names : List String := []
  mappings : String := ""
deriving DecidableEq, Repr

namespace Document

/-- the names of the members, in order -/
def memberNames : List String := ["version", "file", "sourceRoot", "sources", "sourcesContent", "names", "mappings"]

/-- the document a JSON value holds -/
def ofJson? (j : Json) : Option Document := do
  match ← Json.fields? memberNames j with
  | [version, file, root, sources, contents, names, mappings] =>
    let version ← Json.asNat32? (← version)
    let file ← Json.fieldOr none (Json.asNullable? Json.asStr?) file
    let root ← Json.fieldOr none (Json.asNullable? Json.asStr?) root
    let sources ← Json.fieldOr [] (Json.asList? Json.asStr?) sources
    let contents ← Json.fieldOr none (Json.asNullable? (Json.asList? (Json.asNullable? Json.asStr?))) contents
    let names ← Json.fieldOr [] (Json.asList? Json.asStr?) names
    let mappings ← Json.fieldOr "" Json.asStr? mappings
    some ⟨version, file, root, sources, contents, names, mappings⟩
  | _ => none

/-- the JSON of a document; members without a value are left out -/
def toJson (d : Document) : Json :=
  Json.objOf [
    ("version", some (Json.ofNat d.version)),
    ("file", d.file.map .str),
    ("sourceRoot", d.sourceRoot.map .str),
    ("sources", some (Json.strs d.sources)),
    ("sourcesContent", d.contents.map fun cs => .arr (cs.map (Json.ofOption .str))),
    ("names", some (Json.strs d.names)),
    ("mappings", some (.str d.mappings))]

end Document

/-- one content for each source, as far as given -/
def fitContents (contents : List (Option String)) (count : Nat) : List (Option String) :=
  contents.take count ++ List.replicate (count - contents.length) none

/-- the map of a document -/
def ofDocument (d : Document) : Except Fault SourceMap :=
  if d.version = 3 then
    match Mappings.decode ⟨d.sources.length, d.names.length⟩ d.mappings.toList with
    | .error e => .error (.mappings e)
    | .ok segments =>
      .ok ⟨d.file, d.sourceRoot, d.sources, fitContents (d.contents.getD []) d.sources.length, d.names, segments⟩
  else .error (.version d.version)

/-- the document of a map -/
def toDocument (m : SourceMap) : Document where
  version := 3
  file := m.file
  sourceRoot := m.sourceRoot
  sources := m.sources
  contents := if m.contents.any Option.isSome then some m.contents else none
  names := m.names
  mappings := String.ofList (Mappings.encode m.segments)

/-- the map a text holds -/
def parse (text : String) : Except Fault SourceMap :=
  match (Json.parse? text).bind Document.ofJson? with
  | none => .error .json
  | some d => ofDocument d

/-- the text of a map -/
def render (m : SourceMap) : String := m.toDocument.toJson.compact

end ClosurePipeline.SourceMap
