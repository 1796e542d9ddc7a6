/-
Source maps under construction: sources and segments are added in any order, and building sorts them and keeps one
segment for each place.
-/
import ClosurePipeline.SourceMap.Basic

namespace ClosurePipeline

/-- the parts of a map collected so far -/
structure Draft where
  sources : List String := []
  contents : List (Option String) := []
  segments : List Segment := []
deriving DecidableEq, Repr

namespace Draft

/-- adds a source and gives its index -/
def addSource (d : Draft) (source : String) (content : Option String) : Draft × Nat :=
  ({ d with sources := d.sources ++ [source], contents := d.contents ++ [content] }, d.sources.length)

/-- maps a generated place to a place of a source -/
def addSegment (d : Draft) (generated : Position) (source : Nat) (origin : Position) : Draft :=
  { d with segments := d.segments ++ [⟨generated, some ⟨source, origin, none⟩⟩] }

/-- maps the start of each of the first `lines` lines to the same line of a source -/
def addIdentityLines (d : Draft) (lines source : Nat) : Draft :=
  { d with segments := d.segments ++ (List.range lines).map fun l => ⟨⟨l, 0⟩, some ⟨source, ⟨l, 0⟩, none⟩⟩ }

/-- of neighbours at one generated place, the first -/
def dropRepeats : List Segment → List Segment
  | a :: b :: rest => if a.generated = b.generated then dropRepeats (a :: rest) else a :: dropRepeats (b :: rest)
  | segs => segs
termination_by segs => segs.length

/-- the finished map -/
def build (d : Draft) (file : Option String) : SourceMap where
  file := file
  sources := d.sources
  contents := d.contents
  segments := dropRepeats (Segment.sort d.segments)

end Draft

end ClosurePipeline
