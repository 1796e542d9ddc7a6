/-
Fragments: how the text a pass writes goes back to the text it read. A fragment names no file; `stamped` makes it a
source map of one.

- `Fragment.push`: adds a pair of places; a pair for the generated place just pushed takes its turn;
- `Fragment.originOf?`: the place recorded for exactly this generated place;
- `Fragment.stamped`: the map whose only source, and whose file, has the given name.
-/
import ClosurePipeline.SourceMap.Draft

namespace ClosurePipeline

/-- pairs of a generated place and the place it comes from, in the order in which they were pushed -/
structure Fragment where
  pairs : List (Position × Position) := []
deriving DecidableEq, Repr

namespace Fragment

/-- the fragment without pairs -/
def empty : Fragment := ⟨[]⟩

/-- adds a pair, replacing the one just pushed if that has the same generated place -/
def push (f : Fragment) (generated origin : Position) : Fragment :=
  match f.pairs.getLast? with
  | some last =>
    if last.1 = generated then ⟨f.pairs.dropLast ++ [(generated, origin)]⟩ else ⟨f.pairs ++ [(generated, origin)]⟩
  | none => ⟨[(generated, origin)]⟩

/-- how many pairs there are -/
def size (f : Fragment) : Nat := f.pairs.length

/-- there is no pair -/
def isEmpty (f : Fragment) : Bool := f.pairs.isEmpty

/-- the place recorded for exactly this generated place -/
def originOf? (f : Fragment) (generated : Position) : Option Position :=
  (f.pairs.find? fun p => p.1 = generated).map Prod.snd

/-- the map with `name` as its file and only source -/
def stamped (f : Fragment) (name : String) : SourceMap :=
  let (draft, source) := Draft.addSource {} name none
  (f.pairs.foldl (fun d p => d.addSegment p.1 source p.2) draft).build (some name)

end Fragment

end ClosurePipeline
