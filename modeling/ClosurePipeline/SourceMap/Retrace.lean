/-
Following a source map one step further back. If a text was itself generated, places in it can be looked up in its own
map; `retrace` does so for every segment that comes from that text. A place the inner map does not cover stays as it is.

Sources and names of the result are listed in the order in which segments first use them.
-/
import ClosurePipeline.SourceMap.Basic

namespace ClosurePipeline.SourceMap

/-- the index of a string in a table, at its end if it is new -/
def intern (table : List String) (s : String) : List String × Nat :=
  match table.idxOf? s with
  | some i => (table, i)
  | none => (table ++ [s], table.length)

/-- the known text of the source called `source` -/
def contentOf (m : SourceMap) (source : String) : Option String := do
  let i ← m.sources.idxOf? source
  (m.contents[i]?).join

/-- what a segment with an origin says, indices looked up -/
def locate (m : SourceMap) (o : Origin) : Located :=
  ⟨m.sources.getD o.source "", o.position, o.name.bind (m.names[·]?)⟩

/-- where a place of `source` comes from by way of `inner`, and the text known for its source -/
def stepBack (inner : SourceMap) (source : String) (place : Located) (content : Option String) :
    Located × Option String :=
  match if place.source = source then inner.lookup place.position else none with
  | some found => ({ found with name := found.name.or place.name }, (inner.contentOf found.source).or content)
  | none => (place, content)

/-- adds a segment whose origin is `place` -/
def addLocated (out : SourceMap) (generated : Position) (place : Located) (content : Option String) : SourceMap :=
  let (sources, si) := intern out.sources place.source
  let contents := if out.contents.length < sources.length then out.contents ++ [content] else out.contents
  let (names, ni) : List String × Option Nat := match place.name with
    | none => (out.names, none)
    | some n => let (names, i) := intern out.names n; (names, some i)
  { out with
    sources := sources
    contents := contents
    names := names
    segments := out.segments ++ [⟨generated, some ⟨si, place.position, ni⟩⟩] }

/-- adds a segment of `outer`, followed through `inner` -/
def retraceSegment (outer inner : SourceMap) (source : String) (out : SourceMap) (s : Segment) : SourceMap :=
  match s.origin with
  | none => { out with segments := out.segments ++ [s] }
  | some o =>
    let (place, content) := stepBack inner source (outer.locate o) (outer.contents[o.source]?).join
    addLocated out s.generated place content

/-- the map whose places in `source` are followed through `inner` -/
def retrace (outer inner : SourceMap) (source : String) : SourceMap :=
  outer.segments.foldl (retraceSegment outer inner source) { file := outer.file, sourceRoot := outer.sourceRoot }

end ClosurePipeline.SourceMap
