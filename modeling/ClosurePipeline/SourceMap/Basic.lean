/-
Source maps. A map lists segments: places of a generated text and, for most of them, the place of a source they come
from. Segments are sorted by generated place; lines and columns are 0-based and columns count UTF-16 units.

- `SourceMap.lookup`: where a generated place comes from: the last segment of its line that does not start behind it
  decides.
-/
import ClosurePipeline.Text.Measure

namespace ClosurePipeline

/-- where a segment comes from -/
structure Origin where
  /-- index of the source -/
  source : Nat
  position : Position
  /-- index of the name -/
  name : Option Nat
deriving DecidableEq, Repr

/-- a generated place and its origin, if it has one -/
structure Segment where
  generated : Position
  origin : Option Origin
deriving DecidableEq, Repr

namespace Segment

/-- the order of segments by generated place -/
def le (a b : Segment) : Bool := a.generated.le b.generated

/-- segments by generated place; segments at one place stay in order -/
def sort (segments : List Segment) : List Segment := segments.mergeSort le

end Segment

/-- a decoded source map -/
structure SourceMap where
  file : Option String := none
  sourceRoot : Option String := none
  sources : List String := []
  /-- the text of each source, where known -/
  contents : List (Option String) := []
  names : List String := []
  /-- sorted by generated place -/
  segments : List Segment := []
deriving DecidableEq, Repr

/-- the answer of a lookup -/
structure Located where
  source : String
  position : Position
  name : Option String
deriving DecidableEq, Repr

namespace SourceMap

/-- the segment that covers a place: the last one at or before it, if that is on the same line -/
def covering? (segments : List Segment) (p : Position) : Option Segment :=
  (segments.takeWhile fun s => s.generated.le p).getLast?.filter fun s => s.generated.line == p.line

/-- where a generated place comes from -/
def lookup (m : SourceMap) (p : Position) : Option Located := do
  let segment ← covering? m.segments p
  let origin ← segment.origin
  let source ← m.sources[origin.source]?
  some ⟨source, origin.position, origin.name.bind (m.names[·]?)⟩

end SourceMap

end ClosurePipeline
